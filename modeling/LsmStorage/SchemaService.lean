import LsmStorage.ByteCodec
import Mathlib.Data.List.Nodup
import Mathlib.Data.List.Infix

/-! # ObSchemaService and ObDDLOperator

Databases and tables under their ids. A map is the list of its pairs in the order in which it is
walked; an insertion is put at the end. The order shows only where two databases, or two tables,
have the same stored name, and the histories of calls let every walk have its own. Names are C
strings, so they hold no zero byte. -/
namespace SchemaService

open ByteCodec

/-- `strncpy` into a zeroed array of 128 bytes. -/
def storedName (name : Bytes) : Bytes := name.take 127

theorem storedName_of_le {name : Bytes} (h : name.length ≤ 127) : storedName name = name :=
  List.take_of_length_le h

structure ObDatabaseSchema where
  databaseId : ℕ
  databaseName : Bytes
  deriving DecidableEq, Repr

structure ObColumnSchemaV2 where
  columnId : ℕ := 0
  columnName : Bytes := []
  dataType : ℤ := 0
  dataLength : ℤ := 0
  deriving DecidableEq, Repr

structure ObTableSchema where
  tableId : ℕ := 0
  tableName : Bytes := []
  databaseId : ℕ := 0
  schemaVersion : ℤ := 0
  columnCount : ℤ := 0
  columns : List ObColumnSchemaV2 := []
  deriving DecidableEq, Repr

def put {α : Type*} (key : ℕ) (value : α) (m : List (ℕ × α)) : List (ℕ × α) :=
  m.filter (fun p => p.1 ≠ key) ++ [(key, value)]

structure ObSchemaService where
  nextDatabaseId : ℕ := 1
  nextTableId : ℕ := 1
  databases : List (ℕ × ObDatabaseSchema) := []
  tables : List (ℕ × ObTableSchema) := []
  deriving DecidableEq

namespace ObSchemaService

def createDatabase (name : Bytes) (s : ObSchemaService) : ℕ × ObSchemaService :=
  (s.nextDatabaseId, { s with
    nextDatabaseId := s.nextDatabaseId + 1
    databases := put s.nextDatabaseId ⟨s.nextDatabaseId, storedName name⟩ s.databases })

def hasName (name : Bytes) (p : ℕ × ObDatabaseSchema) : Bool := p.2.databaseName == name

def getDatabaseSchema (name : Bytes) (s : ObSchemaService) : Option ObDatabaseSchema :=
  (s.databases.find? (hasName name)).map Prod.snd

def dropDatabase (name : Bytes) (s : ObSchemaService) : ℤ × ObSchemaService :=
  if s.databases.any (hasName name) then
    (0, { s with databases := s.databases.eraseP (hasName name) })
  else (-1, s)

def createTable (table : ObTableSchema) (s : ObSchemaService) : ℕ × ObSchemaService :=
  (s.nextTableId, { s with
    nextTableId := s.nextTableId + 1
    tables := put s.nextTableId { table with tableId := s.nextTableId, schemaVersion := 1 }
      s.tables })

def hasTableName (name : Bytes) (p : ℕ × ObTableSchema) : Bool := p.2.tableName == name

/-- The database id is not looked at. -/
def dropTable (_databaseId : ℕ) (name : Bytes) (s : ObSchemaService) : ℤ × ObSchemaService :=
  if s.tables.any (hasTableName name) then
    (0, { s with tables := s.tables.eraseP (hasTableName name) })
  else (-1, s)

def getAllTables (databaseId : ℕ) (s : ObSchemaService) : List Bytes :=
  (s.tables.filter fun p => p.2.databaseId = databaseId).map fun p => p.2.tableName

end ObSchemaService

variable {s : ObSchemaService} {name : Bytes}

/-- `ObDDLOperator::create_database`; a database with the name makes it fail. -/
def ddlCreateDatabase (name : Bytes) (s : ObSchemaService) : ℤ × Option ℕ × ObSchemaService :=
  match s.getDatabaseSchema name with
  | some _ => (-1, none, s)
  | none => (0, some (s.createDatabase name).1, (s.createDatabase name).2)

def createAll (names : List Bytes) (s : ObSchemaService) : ObSchemaService :=
  names.foldl (fun s name => (ddlCreateDatabase name s).2.2) s

def Holds (s : ObSchemaService) (name : Bytes) : Prop := ∃ p ∈ s.databases, p.2.databaseName = name

instance (s : ObSchemaService) (name : Bytes) : Decidable (Holds s name) :=
  inferInstanceAs (Decidable (∃ p ∈ s.databases, p.2.databaseName = name))

theorem getDatabaseSchema_eq_none : s.getDatabaseSchema name = none ↔ ¬ Holds s name := by
  simp [ObSchemaService.getDatabaseSchema, ObSchemaService.hasName, Holds]

theorem any_hasName : s.databases.any (ObSchemaService.hasName name) = true ↔ Holds s name := by
  simp [ObSchemaService.hasName, Holds]

theorem ddlCreateDatabase_of_holds (h : Holds s name) :
    ddlCreateDatabase name s = (-1, none, s) := by
  unfold ddlCreateDatabase
  cases hget : s.getDatabaseSchema name with
  | none => exact absurd h (getDatabaseSchema_eq_none.mp hget)
  | some d => rfl

theorem ddlCreateDatabase_of_not_holds (h : ¬ Holds s name) : ddlCreateDatabase name s =
      (0, some s.nextDatabaseId, (s.createDatabase name).2) := by
  unfold ddlCreateDatabase
  rw [getDatabaseSchema_eq_none.mpr h]
  rfl

structure WellNumbered (s : ObSchemaService) : Prop where
  below : ∀ p ∈ s.databases, p.1 < s.nextDatabaseId
  nodup : (s.databases.map Prod.fst).Nodup

theorem wellNumbered_new : WellNumbered {} := ⟨by simp, by simp⟩

theorem put_of_fresh {α : Type*} {key : ℕ} {value : α} {m : List (ℕ × α)}
    (h : ∀ p ∈ m, p.1 ≠ key) : put key value m = m ++ [(key, value)] := by
  rw [put, List.filter_eq_self.mpr]
  simpa using h

theorem mem_put {α : Type*} {key : ℕ} {value : α} {m : List (ℕ × α)} {p : ℕ × α} :
    p ∈ put key value m ↔ (p ∈ m ∧ p.1 ≠ key) ∨ p = (key, value) := by
  simp [put]

theorem eraseP_of_find? {α : Type*} {q : α → Bool} {m : List α} {p : α}
    (h : m.find? q = some p) :
    ∃ front back, m = front ++ p :: back ∧ q p = true ∧ m.eraseP q = front ++ back := by
  obtain ⟨hp, front, back, hm, hfront⟩ := List.find?_eq_some_iff_append.mp h
  refine ⟨front, back, hm, hp, ?_⟩
  rw [hm, List.eraseP_append_right _ fun a ha => by simpa using hfront a ha,
    List.eraseP_cons_of_pos hp]

theorem mem_eraseP_of_find? {α : Type*} {q : ℕ × α → Bool} {m : List (ℕ × α)} {p r : ℕ × α}
    (hkeys : (m.map Prod.fst).Nodup) (h : m.find? q = some p) :
    r ∈ m.eraseP q ↔ r ∈ m ∧ r.1 ≠ p.1 := by
  obtain ⟨front, back, hm, -, herase⟩ := eraseP_of_find? h
  rw [hm, List.map_append, List.map_cons, List.nodup_middle, List.nodup_cons,
    ← List.map_append] at hkeys
  rw [herase, hm, List.mem_append, List.mem_append, List.mem_cons]
  constructor
  · intro hr
    refine ⟨hr.imp_right .inr, fun hkey => hkeys.1 ?_⟩
    rw [← hkey]
    exact List.mem_map_of_mem (List.mem_append.mpr hr)
  · rintro ⟨hfront | rfl | hback, hkey⟩
    · exact .inl hfront
    · exact absurd rfl hkey
    · exact .inr hback

theorem dropDatabase_snd (name : Bytes) (s : ObSchemaService) :
    (s.dropDatabase name).2 =
      { s with databases := s.databases.eraseP (ObSchemaService.hasName name) } := by
  unfold ObSchemaService.dropDatabase
  split
  · rfl
  · rename_i hnone
    rw [List.eraseP_of_forall_not (by simpa using hnone)]

theorem databases_createDatabase (hs : WellNumbered s) (name : Bytes) :
    (s.createDatabase name).2.databases =
      s.databases ++ [(s.nextDatabaseId, ⟨s.nextDatabaseId, storedName name⟩)] :=
  put_of_fresh fun p hp => Nat.ne_of_lt (hs.below p hp)

theorem wellNumbered_ddlCreateDatabase (hs : WellNumbered s) (name : Bytes) :
    WellNumbered (ddlCreateDatabase name s).2.2 := by
  by_cases h : Holds s name
  · rw [ddlCreateDatabase_of_holds h]
    exact hs
  · rw [ddlCreateDatabase_of_not_holds h]
    constructor
    · intro p hp
      rw [databases_createDatabase hs] at hp
      show p.1 < s.nextDatabaseId + 1
      rcases List.mem_append.mp hp with hold | hnew
      · exact Nat.lt_succ_of_lt (hs.below p hold)
      · rw [List.mem_singleton.mp hnew]
        exact Nat.lt_succ_self _
    · rw [databases_createDatabase hs, List.map_append, List.map_singleton]
      refine List.nodup_append.mpr ⟨hs.nodup, by simp, ?_⟩
      intro a ha b hb
      obtain ⟨p, hp, rfl⟩ := List.mem_map.mp ha
      rw [List.mem_singleton.mp hb]
      exact Nat.ne_of_lt (hs.below p hp)

theorem wellNumbered_dropDatabase (hs : WellNumbered s) (name : Bytes) :
    WellNumbered (s.dropDatabase name).2 := by
  unfold ObSchemaService.dropDatabase
  split
  · constructor
    · intro p hp
      exact hs.below p (List.mem_of_mem_eraseP hp)
    · exact hs.nodup.sublist (List.eraseP_sublist.map _)
  · exact hs

theorem exists_dropped_id (hs : WellNumbered s) (h : Holds s name) :
    ∃ p ∈ s.databases, ∀ q ∈ s.databases.eraseP (ObSchemaService.hasName name), q.1 ≠ p.1 := by
  obtain ⟨p, hfind⟩ := Option.isSome_iff_exists.mp
    (List.find?_isSome.mpr (List.any_eq_true.mp (any_hasName.mpr h)))
  refine ⟨p, List.mem_of_find?_eq_some hfind, fun q hq => ?_⟩
  exact ((mem_eraseP_of_find? hs.nodup hfind).mp hq).2

theorem prefix_ddlCreateDatabase (hs : WellNumbered s) (name : Bytes) :
    s.databases <+: (ddlCreateDatabase name s).2.2.databases := by
  by_cases h : Holds s name
  · rw [ddlCreateDatabase_of_holds h]
  · rw [ddlCreateDatabase_of_not_holds h, databases_createDatabase hs]
    exact List.prefix_append _ _

theorem holds_ddlCreateDatabase (hs : WellNumbered s) (hname : name.length ≤ 127) :
    Holds (ddlCreateDatabase name s).2.2 name := by
  by_cases h : Holds s name
  · rw [ddlCreateDatabase_of_holds h]
    exact h
  · rw [ddlCreateDatabase_of_not_holds h]
    refine ⟨(s.nextDatabaseId, ⟨s.nextDatabaseId, storedName name⟩), ?_, storedName_of_le hname⟩
    rw [databases_createDatabase hs]
    exact List.mem_append_right _ List.mem_cons_self

theorem Holds.mono {t : ObSchemaService} (h : Holds s name) (hst : s.databases <+: t.databases) :
    Holds t name := by
  obtain ⟨p, hp, hname⟩ := h
  exact ⟨p, hst.subset hp, hname⟩

theorem wellNumbered_createAll (hs : WellNumbered s) (names : List Bytes) :
    WellNumbered (createAll names s) := by
  induction names generalizing s with
  | nil => exact hs
  | cons name names ih => exact ih (wellNumbered_ddlCreateDatabase hs name)

theorem prefix_createAll (hs : WellNumbered s) (names : List Bytes) :
    s.databases <+: (createAll names s).databases := by
  induction names generalizing s with
  | nil => exact List.prefix_rfl
  | cons name names ih =>
    exact (prefix_ddlCreateDatabase hs name).trans (ih (wellNumbered_ddlCreateDatabase hs name))

theorem createAll_append (as bs : List Bytes) (s : ObSchemaService) :
    createAll (as ++ bs) s = createAll bs (createAll as s) :=
  List.foldl_append

theorem holds_createAll (hs : WellNumbered s) {names : List Bytes}
    (hnames : ∀ name ∈ names, name.length ≤ 127) :
    ∀ name ∈ names, Holds (createAll names s) name := by
  induction names generalizing s with
  | nil => simp
  | cons first names ih =>
    have hs' := wellNumbered_ddlCreateDatabase hs first
    intro name hmem
    rcases List.mem_cons.mp hmem with rfl | hmem
    · exact (holds_ddlCreateDatabase hs (hnames name List.mem_cons_self)).mono
        (prefix_createAll hs' names)
    · exact ih hs' (fun n hn => hnames n (List.mem_cons_of_mem first hn)) name hmem

theorem createAll_of_holds {names : List Bytes} (h : ∀ name ∈ names, Holds s name) :
    createAll names s = s := by
  induction names with
  | nil => rfl
  | cons name names ih =>
    rw [createAll, List.foldl_cons, ddlCreateDatabase_of_holds (h name List.mem_cons_self)]
    exact ih fun n hn => h n (List.mem_cons_of_mem name hn)

end SchemaService
