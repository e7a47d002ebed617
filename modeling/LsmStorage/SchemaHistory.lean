import LsmStorage.RunInvariant
import LsmStorage.TableSchemaCodec

/-! # Histories of the schema service

A create takes its id from a counter. A replay stores an object under the id that the object
brings along and leaves the counters where they are, and the drop of a database leaves the tables
that name it. -/
namespace SchemaService

open ByteCodec TableSchemaCodec
open DdlService (cString)

namespace ObDatabaseSchema

def getSerializeSize (_ : ObDatabaseSchema) : ℕ := 8 + 128

def serialize (bufLen pos : ℕ) (d : ObDatabaseSchema) : ℤ × Bytes :=
  if (bufLen : ℤ) - pos < d.getSerializeSize then (-1, [])
  else (0, toLE 8 d.databaseId ++ nameArray d.databaseName)

def deserialize (mem : ℕ → UInt8) (dataLen pos : ℕ) (d : ObDatabaseSchema) :
    ℤ × ObDatabaseSchema × ℕ :=
  if (dataLen : ℤ) - pos < d.getSerializeSize then (-1, d, pos)
  else (0, ⟨ofLE (load mem pos 8), cString (load mem (pos + 8) 128)⟩, pos + d.getSerializeSize)

end ObDatabaseSchema

namespace ObSchemaService

/-- `replay_ddl` of a buffer at the start of a memory: a type byte and an object. -/
def replayDdl (mem : ℕ → UInt8) (bufLen : ℕ) (s : ObSchemaService) : ℤ × ObSchemaService :=
  if bufLen = 0 then (-1, s)
  else
    let ptr := fun i => mem (i + 1)
    if mem 0 = 0 then
      let (ret, d, _) := ObDatabaseSchema.deserialize ptr (bufLen - 1) 0 ⟨0, []⟩
      if ret ≠ 0 then (-1, s)
      else (0, { s with databases := put d.databaseId d s.databases })
    else if mem 0 = 1 then
      let (ret, t, _) := ObTableSchema.deserialize ptr (bufLen - 1) 0 {}
      if ret ≠ 0 then (-1, s)
      else (0, { s with tables := put t.tableId t s.tables })
    else (0, s)

end ObSchemaService

end SchemaService

namespace SchemaHistory

open ByteCodec SchemaService TableSchemaCodec RunInvariant

/-- A drop comes with the order in which its loop walks the map. -/
inductive SchemaCall where
  | createDatabase (name : Bytes)
  | createTable (table : ObTableSchema)
  | dropDatabase (name : Bytes) (walk : List (ℕ × ObDatabaseSchema))
  | dropTable (databaseId : ℕ) (name : Bytes) (walk : List (ℕ × ObTableSchema))
  | replayDdl (mem : ℕ → UInt8) (bufLen : ℕ)

def apply (s : ObSchemaService) : SchemaCall → ObSchemaService
  | .createDatabase name => (s.createDatabase name).2
  | .createTable table => (s.createTable table).2
  | .dropDatabase name walk => ({ s with databases := walk }.dropDatabase name).2
  | .dropTable databaseId name walk => ({ s with tables := walk }.dropTable databaseId name).2
  | .replayDdl mem bufLen => (s.replayDdl mem bufLen).2

/-- A hash map is walked in any order, which may be another one at each call. -/
def Walks (s : ObSchemaService) : SchemaCall → Prop
  | .dropDatabase _ walk => walk.Perm s.databases
  | .dropTable _ _ walk => walk.Perm s.tables
  | _ => True

instance (s : ObSchemaService) : DecidablePred (Walks s)
  | .dropDatabase _ walk => inferInstanceAs (Decidable (walk.Perm s.databases))
  | .dropTable _ _ walk => inferInstanceAs (Decidable (walk.Perm s.tables))
  | .createDatabase _ | .createTable _ | .replayDdl _ _ => inferInstanceAs (Decidable True)

def run (calls : List SchemaCall) : ObSchemaService := calls.foldl apply {}

def ids {α : Type*} (m : List (ℕ × α)) : List ℕ := m.map Prod.fst

theorem mem_ids {α : Type*} {m : List (ℕ × α)} {p : ℕ × α} (h : p ∈ m) : p.1 ∈ ids m :=
  List.mem_map_of_mem h

section Replay

variable {mem : ℕ → UInt8} {bufLen : ℕ} {s : ObSchemaService}

def replayedDatabase (mem : ℕ → UInt8) (bufLen : ℕ) : Option ObDatabaseSchema :=
  let (ret, d, _) := ObDatabaseSchema.deserialize (fun i => mem (i + 1)) (bufLen - 1) 0 ⟨0, []⟩
  if bufLen ≠ 0 ∧ mem 0 = 0 ∧ ret = 0 then some d else none

def replayedTable (mem : ℕ → UInt8) (bufLen : ℕ) : Option ObTableSchema :=
  let (ret, t, _) := ObTableSchema.deserialize (fun i => mem (i + 1)) (bufLen - 1) 0 {}
  if bufLen ≠ 0 ∧ mem 0 = 1 ∧ ret = 0 then some t else none

def putSome {α : Type*} (key : α → ℕ) (value : Option α) (m : List (ℕ × α)) : List (ℕ × α) :=
  value.elim m fun v => put (key v) v m

theorem replayDdl_eq (mem : ℕ → UInt8) (bufLen : ℕ) (s : ObSchemaService) :
    (s.replayDdl mem bufLen).2 = { s with
      databases := putSome ObDatabaseSchema.databaseId (replayedDatabase mem bufLen) s.databases
      tables := putSome ObTableSchema.tableId (replayedTable mem bufLen) s.tables } := by
  unfold ObSchemaService.replayDdl replayedDatabase replayedTable
  by_cases hlen : bufLen = 0
  · simp [hlen, putSome]
  by_cases hdatabase : mem 0 = 0
  · by_cases hret : (ObDatabaseSchema.deserialize (fun i => mem (i + 1)) (bufLen - 1) 0
      ⟨0, []⟩).1 = 0
    · simp [hlen, hdatabase, hret, putSome]
    · simp [hlen, hdatabase, hret, putSome]
  by_cases htable : mem 0 = 1
  · by_cases hret : (ObTableSchema.deserialize (fun i => mem (i + 1)) (bufLen - 1) 0 {}).1 = 0
    · simp [hlen, htable, hret, putSome]
    · simp [hlen, htable, hret, putSome]
  · simp [hlen, hdatabase, htable, putSome]

end Replay

section Ids

theorem dropTable_snd (databaseId : ℕ) (name : Bytes) (s : ObSchemaService) :
    (s.dropTable databaseId name).2 =
      { s with tables := s.tables.eraseP (ObSchemaService.hasTableName name) } := by
  unfold ObSchemaService.dropTable
  split
  · rfl
  · rename_i hnone
    rw [List.eraseP_of_forall_not (by simpa using hnone)]

namespace SchemaCall

def createsDatabase : SchemaCall → Bool
  | .createDatabase _ => true
  | _ => false

def createsTable : SchemaCall → Bool
  | .createTable _ => true
  | _ => false

def replayedDatabaseId : SchemaCall → Option ℕ
  | .replayDdl mem bufLen => (replayedDatabase mem bufLen).map ObDatabaseSchema.databaseId
  | _ => none

def replayedTableId : SchemaCall → Option ℕ
  | .replayDdl mem bufLen => (replayedTable mem bufLen).map ObTableSchema.tableId
  | _ => none

/-- The id of the database that the call erases, the first on its walk with the name. -/
def droppedDatabaseId : SchemaCall → Option ℕ
  | .dropDatabase name walk => (walk.find? (ObSchemaService.hasName name)).map Prod.fst
  | _ => none

def droppedTableId : SchemaCall → Option ℕ
  | .dropTable _ name walk => (walk.find? (ObSchemaService.hasTableName name)).map Prod.fst
  | _ => none

end SchemaCall

open SchemaCall

section Maps

variable {α : Type*} {m : List (ℕ × α)}

theorem nodup_ids_put (h : (ids m).Nodup) (key : ℕ) (value : α) :
    (ids (put key value m)).Nodup := by
  rw [ids, put, List.map_append, List.map_singleton]
  refine List.nodup_append.mpr ⟨h.sublist (List.filter_sublist.map _), by simp, ?_⟩
  intro a ha b hb
  obtain ⟨p, hp, rfl⟩ := List.mem_map.mp ha
  rw [List.mem_singleton.mp hb]
  simpa using (List.mem_filter.mp hp).2

theorem mem_ids_put {key id : ℕ} {value : α} :
    id ∈ ids (put key value m) ↔ id ∈ ids m ∨ id = key := by
  simp only [ids, List.mem_map, mem_put]
  constructor
  · rintro ⟨p, ⟨hp, -⟩ | rfl, rfl⟩
    · exact Or.inl ⟨p, hp, rfl⟩
    · exact Or.inr rfl
  · rintro (⟨p, hp, rfl⟩ | rfl)
    · by_cases hkey : p.1 = key
      · exact ⟨_, Or.inr rfl, hkey.symm⟩
      · exact ⟨p, Or.inl ⟨hp, hkey⟩, rfl⟩
    · exact ⟨_, Or.inr rfl, rfl⟩

/-- What a call does to the ids of a map: it erases one, stores a replayed one, or takes the
next one. -/
structure IdsAfter (creates : Bool) (replayed dropped : Option ℕ) (next next' : ℕ)
    (before after : List ℕ) : Prop where
  nodup : after.Nodup
  next_eq : next' = next + creates.toNat
  mem : ∀ id, id ∈ after ↔
    id ∈ before ∧ dropped ≠ some id ∨ replayed = some id ∨ creates = true ∧ id = next

theorem idsAfter_keep (next : ℕ) (h : (ids m).Nodup) :
    IdsAfter false none none next next (ids m) (ids m) :=
  ⟨h, rfl, by simp⟩

theorem idsAfter_put (next : ℕ) (value : α) (h : (ids m).Nodup) :
    IdsAfter true none none next (next + 1) (ids m) (ids (put next value m)) :=
  ⟨nodup_ids_put h _ _, rfl, by simp [mem_ids_put]⟩

theorem idsAfter_putSome (next : ℕ) (key : α → ℕ) (value : Option α) (h : (ids m).Nodup) :
    IdsAfter false (value.map key) none next next (ids m) (ids (putSome key value m)) := by
  cases value with
  | none => exact idsAfter_keep next h
  | some v => exact ⟨nodup_ids_put h _ _, rfl, by simp [putSome, mem_ids_put, eq_comm]⟩

theorem mem_ids_eraseP {walk : List (ℕ × α)} (hwalk : walk.Perm m) (h : (ids m).Nodup)
    {q : ℕ × α → Bool} {id : ℕ} :
    id ∈ ids (walk.eraseP q) ↔ id ∈ ids m ∧ (walk.find? q).map Prod.fst ≠ some id := by
  have hmem : id ∈ ids m ↔ id ∈ ids walk := (hwalk.map Prod.fst).mem_iff.symm
  rw [hmem]
  have hwalkIds : (ids walk).Nodup := (hwalk.map Prod.fst).nodup_iff.mpr h
  cases hfind : walk.find? q with
  | none =>
    rw [List.eraseP_of_forall_not (by simpa using List.find?_eq_none.mp hfind)]
    simp
  | some d =>
    simp only [ids, List.mem_map, mem_eraseP_of_find? hwalkIds hfind, Option.map_some, ne_eq,
      Option.some.injEq]
    constructor
    · rintro ⟨p, ⟨hp, hne⟩, rfl⟩
      exact ⟨⟨p, hp, rfl⟩, Ne.symm hne⟩
    · rintro ⟨⟨p, hp, rfl⟩, hne⟩
      exact ⟨p, ⟨hp, Ne.symm hne⟩, rfl⟩

theorem idsAfter_eraseP {walk : List (ℕ × α)} (next : ℕ) (q : ℕ × α → Bool)
    (hwalk : walk.Perm m) (h : (ids m).Nodup) :
    IdsAfter false none ((walk.find? q).map Prod.fst) next next (ids m)
      (ids (walk.eraseP q)) := by
  refine ⟨?_, rfl, by simp [mem_ids_eraseP hwalk h]⟩
  exact ((hwalk.map Prod.fst).nodup_iff.mpr h).sublist (List.eraseP_sublist.map _)

end Maps

theorem idsAfter_databases {s : ObSchemaService} {call : SchemaCall} (hwalk : Walks s call)
    (hids : (ids s.databases).Nodup) :
    IdsAfter (createsDatabase call) (replayedDatabaseId call) (droppedDatabaseId call)
      s.nextDatabaseId (apply s call).nextDatabaseId (ids s.databases)
      (ids (apply s call).databases) := by
  cases call with
  | createDatabase name => exact idsAfter_put _ _ hids
  | createTable table => exact idsAfter_keep _ hids
  | dropDatabase name walk =>
    rw [apply, dropDatabase_snd]
    exact idsAfter_eraseP _ _ hwalk hids
  | dropTable databaseId name walk =>
    rw [apply, dropTable_snd]
    exact idsAfter_keep _ hids
  | replayDdl mem bufLen =>
    rw [apply, replayDdl_eq]
    dsimp only
    exact idsAfter_putSome _ ObDatabaseSchema.databaseId (replayedDatabase mem bufLen) hids

theorem idsAfter_tables {s : ObSchemaService} {call : SchemaCall} (hwalk : Walks s call)
    (hids : (ids s.tables).Nodup) :
    IdsAfter (createsTable call) (replayedTableId call) (droppedTableId call) s.nextTableId
      (apply s call).nextTableId (ids s.tables) (ids (apply s call).tables) := by
  cases call with
  | createDatabase name => exact idsAfter_keep _ hids
  | createTable table => exact idsAfter_put _ _ hids
  | dropDatabase name walk =>
    rw [apply, dropDatabase_snd]
    exact idsAfter_keep _ hids
  | dropTable databaseId name walk =>
    rw [apply, dropTable_snd]
    exact idsAfter_eraseP _ _ hwalk hids
  | replayDdl mem bufLen =>
    rw [apply, replayDdl_eq]
    exact idsAfter_putSome _ ObTableSchema.tableId (replayedTable mem bufLen) hids

/-- The id was replayed, and no later call of the list drops it. -/
def Pending (replayed dropped : SchemaCall → Option ℕ) (calls : List SchemaCall) (id : ℕ) :
    Prop :=
  ∃ before call after, calls = before ++ call :: after ∧ replayed call = some id ∧
    ∀ c ∈ after, dropped c ≠ some id

theorem pending_concat {replayed dropped : SchemaCall → Option ℕ} {calls : List SchemaCall}
    {call : SchemaCall} {id : ℕ} :
    Pending replayed dropped (calls ++ [call]) id ↔
      Pending replayed dropped calls id ∧ dropped call ≠ some id ∨ replayed call = some id := by
  constructor
  · rintro ⟨before, c, after, heq, hreplayed, hkept⟩
    induction after using List.reverseRecOn with
    | nil =>
      obtain ⟨-, hc⟩ := List.append_inj' heq rfl
      cases hc
      exact Or.inr hreplayed
    | append_singleton after last _ =>
      rw [← List.cons_append, ← List.append_assoc] at heq
      obtain ⟨rfl, hlast⟩ := List.append_inj' heq rfl
      cases hlast
      exact Or.inl ⟨⟨before, c, after, rfl, hreplayed,
        fun d hd => hkept d (List.mem_append_left _ hd)⟩, hkept call (by simp)⟩
  · rintro (⟨⟨before, c, after, rfl, hreplayed, hkept⟩, hcall⟩ | hreplayed)
    · refine ⟨before, c, after ++ [call], by simp, hreplayed, fun d hd => ?_⟩
      rcases List.mem_append.mp hd with hd | hd
      · exact hkept d hd
      · rw [List.mem_singleton.mp hd]
        exact hcall
    · exact ⟨calls, call, [], rfl, hreplayed, by simp⟩

/-- The ids of a map are pairwise different. Those that the counter has not given out are the
replayed ones that no call has dropped since. -/
structure Numbered (creates : SchemaCall → Bool) (replayed dropped : SchemaCall → Option ℕ)
    (calls : List SchemaCall) (next : ℕ) (present : List ℕ) : Prop where
  nodup : present.Nodup
  next_eq : next = calls.countP creates + 1
  accounted : ∀ id ∈ present, id < next ∨ Pending replayed dropped calls id
  pending : ∀ id, Pending replayed dropped calls id → id ∈ present

namespace Numbered

variable {creates : SchemaCall → Bool} {replayed dropped : SchemaCall → Option ℕ}
  {calls : List SchemaCall} {next next' : ℕ} {before after : List ℕ} {call : SchemaCall}

theorem step (h : Numbered creates replayed dropped calls next before)
    (hafter : IdsAfter (creates call) (replayed call) (dropped call) next next' before after) :
    Numbered creates replayed dropped (calls ++ [call]) next' after := by
  refine ⟨hafter.nodup, ?_, fun id hid => ?_, fun id hpending => (hafter.mem id).mpr ?_⟩
  · cases hcreates : creates call <;>
      simp [hafter.next_eq, List.countP_append, hcreates, h.next_eq]
  · rw [hafter.next_eq, pending_concat]
    rcases (hafter.mem id).mp hid with ⟨hold, hkept⟩ | hreplayed | ⟨hcreates, rfl⟩
    · rcases h.accounted id hold with hlt | hpending
      · exact Or.inl (Nat.lt_add_right _ hlt)
      · exact Or.inr (Or.inl ⟨hpending, hkept⟩)
    · exact Or.inr (Or.inr hreplayed)
    · rw [hcreates]
      exact Or.inl (Nat.lt_succ_self id)
  · rcases pending_concat.mp hpending with ⟨hold, hkept⟩ | hreplayed
    · exact Or.inl ⟨h.pending id hold, hkept⟩
    · exact Or.inr (Or.inl hreplayed)

theorem next_mem_iff (h : Numbered creates replayed dropped calls next before) :
    next ∈ before ↔ Pending replayed dropped calls (calls.countP creates + 1) := by
  rw [← h.next_eq]
  exact ⟨fun hmem => (h.accounted next hmem).resolve_left (Nat.lt_irrefl _), h.pending next⟩

end Numbered

structure WellKept (calls : List SchemaCall) (s : ObSchemaService) : Prop where
  databases : Numbered createsDatabase replayedDatabaseId droppedDatabaseId calls s.nextDatabaseId
    (ids s.databases)
  tables : Numbered createsTable replayedTableId droppedTableId calls s.nextTableId (ids s.tables)

theorem wellKept_run {calls : List SchemaCall} (hwalks : Each apply Walks {} calls) :
    WellKept calls (run calls) := by
  induction calls using List.reverseRecOn with
  | nil =>
    have hnone : ∀ {replayed dropped : SchemaCall → Option ℕ} {id : ℕ},
        ¬ Pending replayed dropped [] id := by
      rintro _ _ _ ⟨before, call, after, heq, -⟩
      simp at heq
    exact ⟨⟨List.nodup_nil, rfl, by simp [run, ids], fun _ h => (hnone h).elim⟩,
      ⟨List.nodup_nil, rfl, by simp [run, ids], fun _ h => (hnone h).elim⟩⟩
  | append_singleton calls call ih =>
    obtain ⟨hdatabases, htables⟩ := ih fun front c hpre =>
      hwalks front c (hpre.trans (List.prefix_append _ _))
    have hwalk : Walks (run calls) call := hwalks calls call List.prefix_rfl
    rw [run, List.foldl_concat, ← run]
    exact ⟨hdatabases.step (idsAfter_databases hwalk hdatabases.nodup),
      htables.step (idsAfter_tables hwalk htables.nodup)⟩

def CreatesFresh (s : ObSchemaService) : SchemaCall → Prop
  | .createDatabase name => (s.createDatabase name).1 ∉ ids s.databases ∧
      s.databases ⊆ (s.createDatabase name).2.databases
  | .createTable table => (s.createTable table).1 ∉ ids s.tables ∧
      s.tables ⊆ (s.createTable table).2.tables
  | _ => True

/-- The create after these calls takes an id that one of them replayed and none has dropped
since. -/
def MeetsReplayed (front : List SchemaCall) : SchemaCall → Prop
  | .createDatabase _ => Pending replayedDatabaseId droppedDatabaseId front
      (front.countP createsDatabase + 1)
  | .createTable _ => Pending replayedTableId droppedTableId front (front.countP createsTable + 1)
  | _ => False

theorem subset_put {α : Type*} {key : ℕ} {value : α} {m : List (ℕ × α)} (h : key ∉ ids m) :
    m ⊆ put key value m := by
  intro p hp
  exact mem_put.mpr (Or.inl ⟨hp, fun heq => h (heq ▸ mem_ids hp)⟩)

theorem createsFresh_iff {front : List SchemaCall} {s : ObSchemaService}
    (h : WellKept front s) (call : SchemaCall) :
    CreatesFresh s call ↔ ¬ MeetsReplayed front call := by
  cases call with
  | createDatabase name =>
    rw [MeetsReplayed, ← h.databases.next_mem_iff]
    exact ⟨And.left, fun h => ⟨h, subset_put h⟩⟩
  | createTable table =>
    rw [MeetsReplayed, ← h.tables.next_mem_iff]
    exact ⟨And.left, fun h => ⟨h, subset_put h⟩⟩
  | dropDatabase name walk => simp [CreatesFresh, MeetsReplayed]
  | dropTable databaseId name walk => simp [CreatesFresh, MeetsReplayed]
  | replayDdl mem bufLen => simp [CreatesFresh, MeetsReplayed]

/-- Every create of a history takes a new id exactly when between the replay of an object and the
create whose number is the object's id a drop erases the object. -/
theorem ids_fresh_iff (calls : List SchemaCall) (hwalks : Each apply Walks {} calls) :
    Each apply CreatesFresh {} calls ↔
      ∀ front call, front ++ [call] <+: calls → ¬ MeetsReplayed front call := by
  have hkept : ∀ front call, front ++ [call] <+: calls → WellKept front (run front) := by
    intro front call hpre
    exact wellKept_run fun before c hbefore =>
      hwalks before c (hbefore.trans ((List.prefix_append _ _).trans hpre))
  constructor
  · intro h front call hpre
    exact (createsFresh_iff (hkept front call hpre) call).mp (h front call hpre)
  · intro h front call hpre
    exact (createsFresh_iff (hkept front call hpre) call).mpr (h front call hpre)

def databaseRecord (d : ObDatabaseSchema) : Bytes := 0 :: (d.serialize 136 0).2

/-- A database with the id 1 is replayed into a new service and dropped, and the first create takes
1 again. -/
theorem ids_fresh_iff_example :
    let calls : List SchemaCall :=
      [.replayDdl (store (fun _ => 0) 0 (databaseRecord ⟨1, [97]⟩)) 137,
        .dropDatabase [97] [(1, ⟨1, [97]⟩)], .createDatabase [98]]
    Each apply Walks {} calls ∧ Each apply CreatesFresh {} calls := by
  intro calls
  have hwalks : Each apply Walks {} calls := by decide +kernel
  refine ⟨hwalks, (ids_fresh_iff calls hwalks).mpr ?_⟩
  intro front call hpre hmeets
  rcases front with _ | ⟨first, _ | ⟨second, _ | ⟨third, front⟩⟩⟩
  · obtain ⟨rfl, -⟩ := List.cons_prefix_cons.mp hpre
    exact hmeets
  · obtain ⟨rfl, htail⟩ := List.cons_prefix_cons.mp hpre
    obtain ⟨rfl, -⟩ := List.cons_prefix_cons.mp htail
    exact hmeets
  · obtain ⟨rfl, htail⟩ := List.cons_prefix_cons.mp hpre
    obtain ⟨rfl, hlast⟩ := List.cons_prefix_cons.mp htail
    obtain ⟨rfl, -⟩ := List.cons_prefix_cons.mp hlast
    -- the drop erases what the replay stored
    have hpending : Pending _ _ ([_] ++ [_]) _ := hmeets
    rcases pending_concat.mp hpending with ⟨-, hkept⟩ | hreplayed
    · exact hkept (by decide +kernel)
    · cases hreplayed
  · have hlen := hpre.length_le
    simp only [calls, List.length_append, List.length_cons, List.length_nil] at hlen
    omega

/-- A database with the id 1 is replayed into a new service, and the first create takes 1. -/
theorem replayed_database_overwritten :
    let s := (ObSchemaService.replayDdl (store (fun _ => 0) 0 (databaseRecord ⟨1, [97]⟩)) 137 {}).2
    s.databases = [(1, ⟨1, [97]⟩)] ∧ (s.createDatabase [98]).1 = 1 ∧
      (s.createDatabase [98]).2.databases = [(1, ⟨1, [98]⟩)] := by
  decide +kernel

end Ids

section Orphans

open SchemaCall

def NoOrphans (s : ObSchemaService) : Prop :=
  ∀ p ∈ s.tables, p.2.databaseId ∈ ids s.databases

instance : DecidablePred NoOrphans := fun s =>
  inferInstanceAs (Decidable (∀ p ∈ s.tables, p.2.databaseId ∈ ids s.databases))

def Admissible (s : ObSchemaService) : SchemaCall → Prop
  | .createTable table => table.databaseId ∈ ids s.databases
  | .replayDdl _ _ => False
  | _ => True

instance (s : ObSchemaService) : DecidablePred (Admissible s)
  | .createTable table => inferInstanceAs (Decidable (table.databaseId ∈ ids s.databases))
  | .replayDdl _ _ => inferInstanceAs (Decidable False)
  | .createDatabase _ | .dropDatabase _ _ | .dropTable _ _ _ => inferInstanceAs (Decidable True)

def DropsEmpty (s : ObSchemaService) (call : SchemaCall) : Prop :=
  ∀ p ∈ s.tables, droppedDatabaseId call ≠ some p.2.databaseId

instance (s : ObSchemaService) : DecidablePred (DropsEmpty s) := fun call =>
  inferInstanceAs (Decidable (∀ p ∈ s.tables, droppedDatabaseId call ≠ some p.2.databaseId))

theorem noOrphans_apply {s : ObSchemaService} {call : SchemaCall} (hids : (ids s.databases).Nodup)
    (hwalk : Walks s call) (hcall : Admissible s call) (h : NoOrphans s) :
    NoOrphans (apply s call) ↔ DropsEmpty s call := by
  cases call with
  | createDatabase name =>
    refine iff_of_true ?_ fun p _ => Option.some_ne_none _ ∘ Eq.symm
    intro p hp
    exact mem_ids_put.mpr (Or.inl (h p hp))
  | createTable table =>
    refine iff_of_true ?_ fun p _ => Option.some_ne_none _ ∘ Eq.symm
    intro p hp
    rcases mem_put.mp hp with ⟨hold, -⟩ | rfl
    · exact h p hold
    · exact hcall
  | dropDatabase name walk =>
    rw [apply, dropDatabase_snd]
    simp only [NoOrphans, mem_ids_eraseP hwalk hids]
    exact ⟨fun hafter p hp => (hafter p hp).2, fun hempty p hp => ⟨h p hp, hempty p hp⟩⟩
  | dropTable databaseId name walk =>
    refine iff_of_true ?_ fun p _ => Option.some_ne_none _ ∘ Eq.symm
    rw [apply, dropTable_snd]
    exact fun p hp => h p (hwalk.mem_iff.mp (List.mem_of_mem_eraseP hp))
  | replayDdl mem bufLen => exact hcall.elim

/-- A history leaves no table without its database exactly when every database that it drops has
no table at that time. -/
theorem no_orphans_iff (calls : List SchemaCall) (hwalks : Each apply Walks {} calls)
    (hcalls : Each apply Admissible {} calls) :
    Always apply NoOrphans {} calls ↔ Each apply DropsEmpty {} calls := by
  have hnodup : Always apply (fun s => (ids s.databases).Nodup) {} calls :=
    always_of_each Walks List.nodup_nil
      (fun _ _ hids hwalk => (idsAfter_databases hwalk hids).nodup) hwalks
  have hboth : Each apply (fun s call => Walks s call ∧ Admissible s call) {} calls :=
    fun front call hpre => ⟨hwalks front call hpre, hcalls front call hpre⟩
  refine always_iff_each hnodup hboth (by simp [NoOrphans]) ?_
  rintro s call hids ⟨hwalk, hcall⟩ h
  exact noOrphans_apply hids hwalk hcall h

/-- Two databases with a table of one name each: the drop comes to the second table first. -/
theorem no_orphans_iff_example :
    let calls : List SchemaCall := [.createDatabase [97], .createDatabase [98],
      .createTable { databaseId := 1 }, .createTable { databaseId := 2 },
      .dropTable 1 [] [(2, { tableId := 2, databaseId := 2, schemaVersion := 1 }),
        (1, { tableId := 1, databaseId := 1, schemaVersion := 1 })],
      .dropDatabase [98] [(1, ⟨1, [97]⟩), (2, ⟨2, [98]⟩)]]
    Each apply Walks {} calls ∧ Each apply Admissible {} calls ∧ Always apply NoOrphans {} calls :=
  ⟨by decide, by decide, (no_orphans_iff _ (by decide) (by decide)).mpr (by decide)⟩

/-- A database is dropped, and its table stays. -/
theorem table_without_database :
    let calls : List SchemaCall := [.createDatabase [97], .createTable { databaseId := 1 },
      .dropDatabase [97] [(1, ⟨1, [97]⟩)]]
    Each apply Walks {} calls ∧ Each apply Admissible {} calls ∧ ¬ NoOrphans (run calls) := by
  decide

end Orphans

end SchemaHistory
