import LsmStorage.RunInvariant
import LsmStorage.SchemaService

/-! # Names in the schema

The conflict check of a CREATE DATABASE compares the whole name with the stored ones, and what
is stored afterwards are its first 127 bytes. A DROP TABLE looks for the name alone, in all
databases at once. The lists are arbitrary, so the order in which a map is walked is too. -/
namespace SchemaNames

open ByteCodec SchemaService ObSchemaService

section Databases

def UniqueNames (s : ObSchemaService) : Prop :=
  (s.databases.map fun p => p.2.databaseName).Nodup

instance : DecidablePred UniqueNames := fun s =>
  inferInstanceAs (Decidable (s.databases.map fun p => p.2.databaseName).Nodup)

def Collides (s : ObSchemaService) (name : Bytes) : Prop :=
  127 < name.length ∧ ¬ Holds s name ∧
    ∃ p ∈ s.databases, p.1 ≠ s.nextDatabaseId ∧ p.2.databaseName = storedName name

variable {s : ObSchemaService}

theorem uniqueNames_createDatabase (h : UniqueNames s) (name : Bytes) :
    UniqueNames (s.createDatabase name).2 ↔
      ∀ p ∈ s.databases, p.1 ≠ s.nextDatabaseId → p.2.databaseName ≠ storedName name := by
  have hkept : ((s.databases.filter fun p => p.1 ≠ s.nextDatabaseId).map
      fun p => p.2.databaseName).Nodup := h.sublist (List.filter_sublist.map _)
  rw [UniqueNames, createDatabase, put, List.map_append, List.nodup_append]
  simp only [hkept, true_and, List.map_cons, List.map_nil, List.nodup_singleton, List.mem_singleton,
    forall_eq, List.mem_map, List.mem_filter, decide_eq_true_eq]
  constructor
  · intro hnew p hp hid
    exact hnew _ ⟨p, ⟨hp, hid⟩, rfl⟩
  · rintro hnew _ ⟨p, ⟨hp, hid⟩, rfl⟩
    exact hnew p hp hid

theorem uniqueNames_ddlCreateDatabase (h : UniqueNames s) (name : Bytes) :
    UniqueNames (ddlCreateDatabase name s).2.2 ↔ ¬ Collides s name := by
  by_cases hholds : Holds s name
  · rw [ddlCreateDatabase_of_holds hholds]
    exact iff_of_true h fun hcollides => hcollides.2.1 hholds
  · rw [ddlCreateDatabase_of_not_holds hholds]
    refine (uniqueNames_createDatabase h name).trans ⟨fun hnew hcollides => ?_, fun hfree => ?_⟩
    · obtain ⟨-, -, p, hp, hid, hname⟩ := hcollides
      exact hnew p hp hid hname
    · intro p hp hid hname
      refine hfree ⟨?_, hholds, p, hp, hid, hname⟩
      -- a name that fits is stored as it is, and the check has seen that it is free
      by_contra hshort
      rw [storedName_of_le (Nat.le_of_not_lt hshort)] at hname
      exact hholds ⟨p, hp, hname⟩

/-- From a state with unique names, the names stay unique after every call of a sequence exactly
when no call of it passes the check with an over-long name whose first 127 bytes are stored. -/
theorem unique_names_iff (s : ObSchemaService) (h : UniqueNames s) (names : List Bytes) :
    (∀ front, front <+: names → UniqueNames (createAll front s)) ↔
      ∀ front name, front ++ [name] <+: names → ¬ Collides (createAll front s) name := by
  exact RunInvariant.always_iff_each RunInvariant.always_true RunInvariant.each_true h
    fun t name _ _ ht => uniqueNames_ddlCreateDatabase ht name

theorem unique_names_iff_example :
    UniqueNames {} ∧ ∀ front, front <+: [[97], [98], [97]] → UniqueNames (createAll front {}) := by
  refine ⟨List.nodup_nil, (unique_names_iff {} List.nodup_nil _).mpr ?_⟩
  intro front name hprefix hcollides
  have hmem := hprefix.subset (List.mem_append_right front List.mem_cons_self)
  have hlong := hcollides.1
  simp only [List.mem_cons, List.not_mem_nil, or_false] at hmem
  rcases hmem with rfl | rfl | rfl <;> exact absurd hlong (by decide)

/-- The same name of 128 bytes is accepted twice. -/
theorem long_name_created_twice :
    let name : Bytes := List.replicate 128 97
    (ddlCreateDatabase name {}).1 = 0 ∧
      (ddlCreateDatabase name (ddlCreateDatabase name {}).2.2).1 = 0 ∧
      ¬ UniqueNames (createAll [name, name] {}) := by
  decide +kernel

end Databases

section Tables

def otherTables (databaseId : ℕ) (s : ObSchemaService) : List (ℕ × ObTableSchema) :=
  s.tables.filter fun p => p.2.databaseId ≠ databaseId

structure DropsOwn (databaseId : ℕ) (name : Bytes) (s : ObSchemaService) : Prop where
  others : otherTables databaseId (s.dropTable databaseId name).2 = otherTables databaseId s
  succeeds : (s.dropTable databaseId name).1 = 0 ↔ name ∈ s.getAllTables databaseId

theorem dropTable_of_find_none {s : ObSchemaService} {name : Bytes}
    (h : s.tables.find? (hasTableName name) = none) (databaseId : ℕ) :
    s.dropTable databaseId name = (-1, s) := by
  rw [dropTable, if_neg]
  rw [Bool.not_eq_true, List.any_eq_false]
  exact List.find?_eq_none.mp h

theorem dropTable_of_find {s : ObSchemaService} {name : Bytes} {p : ℕ × ObTableSchema}
    (h : s.tables.find? (hasTableName name) = some p) (databaseId : ℕ) :
    ∃ front back, s.tables = front ++ p :: back ∧ p.2.tableName = name ∧
      s.dropTable databaseId name = (0, { s with tables := front ++ back }) := by
  obtain ⟨front, back, htables, hname, herase⟩ := eraseP_of_find? h
  refine ⟨front, back, htables, by simpa [hasTableName] using hname, ?_⟩
  rw [dropTable, if_pos, herase]
  rw [List.any_eq_true]
  exact ⟨p, by rw [htables]; simp, hname⟩

theorem mem_getAllTables {s : ObSchemaService} {databaseId : ℕ} {name : Bytes} :
    name ∈ s.getAllTables databaseId ↔
      ∃ p ∈ s.tables, p.2.databaseId = databaseId ∧ p.2.tableName = name := by
  simp only [getAllTables, List.mem_map, List.mem_filter, decide_eq_true_eq,
    and_assoc]

theorem filter_middle_eq_iff {α : Type*} (q : α → Bool) (front back : List α) (a : α) :
    (front ++ back).filter q = (front ++ a :: back).filter q ↔ q a = false := by
  rw [List.filter_append, List.filter_append, List.append_cancel_left_eq]
  cases hq : q a with
  | false => simp [hq]
  | true => simp [hq]

/-- A DROP TABLE keeps to its database exactly when the first table that has the name, in the
order of the walk, is one of that database. -/
theorem drop_table_iff (s : ObSchemaService) (databaseId : ℕ) (name : Bytes) :
    DropsOwn databaseId name s ↔
      ∀ p, s.tables.find? (hasTableName name) = some p →
        p.2.databaseId = databaseId := by
  cases hfind : s.tables.find? (hasTableName name) with
  | none =>
    refine iff_of_true ⟨?_, ?_⟩ nofun
    · rw [dropTable_of_find_none hfind]
    · rw [dropTable_of_find_none hfind, mem_getAllTables]
      refine iff_of_false (by simp) ?_
      rintro ⟨p, hp, -, hname⟩
      exact List.find?_eq_none.mp hfind p hp (by simpa [hasTableName] using hname)
  | some p =>
    obtain ⟨front, back, htables, hname, hdrop⟩ := dropTable_of_find hfind databaseId
    have hothers : otherTables databaseId (s.dropTable databaseId name).2 =
        otherTables databaseId s ↔ p.2.databaseId = databaseId := by
      rw [hdrop, otherTables, otherTables, htables, filter_middle_eq_iff]
      simp
    constructor
    · rintro h q hq
      cases hq
      exact hothers.mp h.others
    · intro h
      have hown := h p rfl
      refine ⟨hothers.mpr hown, iff_of_true (by rw [hdrop]) ?_⟩
      exact mem_getAllTables.mpr ⟨p, by rw [htables]; simp, hown, hname⟩

/-- Database 1 has the table `a` only, and its DROP of `t` takes the table `t` of database 2. -/
theorem table_of_other_database_dropped :
    let s := ((createTable { tableName := [97], databaseId := 1 } {}).2.createTable
      { tableName := [116], databaseId := 2 }).2
    [116] ∉ s.getAllTables 1 ∧ (s.dropTable 1 [116]).1 = 0 ∧
      otherTables 1 s ≠ [] ∧ otherTables 1 (s.dropTable 1 [116]).2 = [] := by
  decide +kernel

end Tables

end SchemaNames
