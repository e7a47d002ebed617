import LsmStorage.DdlRecovery
import LsmStorage.RunInvariant

/-! # What a restart recovers of the tables

The CLOG record of a CREATE TABLE has the name and the database id. The columns are in the schema
of the process only, so a restart finds every table again, under its id, without them. -/
namespace SchemaService

open ByteCodec (asInt32)

/-- `ObDDLOperator::create_table`: a negative id is taken for an error. -/
def ddlCreateTable (table : ObTableSchema) (s : ObSchemaService) :
    ℤ × Option ℕ × ObSchemaService :=
  let (id, s) := s.createTable table
  if asInt32 id < 0 then (asInt32 id, none, s) else (0, some (asInt32 id).toNat, s)

theorem ddlCreateTable_schema (table : ObTableSchema) (s : ObSchemaService) :
    (ddlCreateTable table s).2.2 = (s.createTable table).2 := by
  unfold ddlCreateTable
  dsimp only
  split_ifs <;> rfl

theorem ddlCreateTable_eq_zero (table : ObTableSchema) (s : ObSchemaService) :
    (ddlCreateTable table s).1 = 0 ↔ 0 ≤ asInt32 s.nextTableId := by
  unfold ddlCreateTable ObSchemaService.createTable
  dsimp only
  split_ifs with hneg
  · exact iff_of_false (Int.ne_of_lt hneg) (Int.not_le.mpr hneg)
  · exact iff_of_true rfl (Int.not_lt.mp hneg)

end SchemaService

namespace DdlService

open ByteCodec SchemaService

variable {β : Type*} [DecidableEq β]

def tablePayload (table : ObTableSchema) : Bytes :=
  toLE 8 createTableType ++ (toLE 8 table.tableName.length ++
    (table.tableName ++ toLE 8 table.databaseId))

namespace Node

def createTable (table : ObTableSchema) (malloc palfMalloc : Option (ℕ → UInt8)) (n : Node β) :
    Option (ℤ × Option ℕ × Node β) :=
  match n.appendRecord (tablePayload table) malloc palfMalloc with
  | none => none
  | some (ret, n) =>
    if ret ≠ 0 then some (ret, none, n)
    else
      let created := ddlCreateTable table n.process.schema
      some (created.1, created.2.1, { n with
        process := { n.process with schema := created.2.2 } })

end Node

end DdlService

namespace DdlTables

open ByteCodec PalfLogEntry PalfLogStorage PalfRecovery LogService LogReplay SchemaService
open StorageLogger DdlService RunInvariant
open DdlClog hiding Holds
open DdlRecovery (NameOk SlogHolds slogHolds_new replay_payload replay_record)

variable {β : Type*}

/-- A call of `create_database` or `create_table`, with what the allocations of its log append
give. -/
inductive CreateCall where
  | createDatabase (name : Bytes) (malloc palfMalloc : Option (ℕ → UInt8)) (slogOk : Bool)
  | createTable (table : ObTableSchema) (malloc palfMalloc : Option (ℕ → UInt8))

namespace CreateCall

def apply (s : ObSchemaService) : CreateCall → ObSchemaService
  | .createDatabase name _ _ _ => (ddlCreateDatabase name s).2.2
  | .createTable table _ _ => (s.createTable table).2

def record : CreateCall → Bytes
  | .createDatabase name _ _ _ => payload name
  | .createTable table _ _ => tablePayload table

def databaseName : CreateCall → Option Bytes
  | .createDatabase name _ _ _ => some name
  | .createTable _ _ _ => none

def table : CreateCall → Option ObTableSchema
  | .createDatabase _ _ _ _ => none
  | .createTable table _ _ => some table

def Ok : CreateCall → Prop
  | .createDatabase name _ _ _ => NameOk name
  | .createTable table _ _ => NameOk table.tableName ∧ table.databaseId < 256 ^ 8

instance : DecidablePred Ok
  | .createDatabase name _ _ _ => inferInstanceAs (Decidable (NameOk name))
  | .createTable table _ _ =>
    inferInstanceAs (Decidable (NameOk table.tableName ∧ table.databaseId < 256 ^ 8))

def Accepted (s : ObSchemaService) : CreateCall → Prop
  | .createDatabase name malloc palfMalloc _ =>
    (malloc.isSome && palfMalloc.isSome) = true ∧ ¬ Holds s name
  | .createTable _ malloc palfMalloc =>
    (malloc.isSome && palfMalloc.isSome) = true ∧ 0 ≤ asInt32 s.nextTableId

def bareTable (table : ObTableSchema) : ObTableSchema :=
  { tableName := table.tableName, databaseId := table.databaseId }

def bare : CreateCall → CreateCall
  | .createDatabase name malloc palfMalloc slogOk =>
    .createDatabase name malloc palfMalloc slogOk
  | .createTable table malloc palfMalloc => .createTable (bareTable table) malloc palfMalloc

def call [DecidableEq β] (n : Node β) : CreateCall → Option (ℤ × Node β)
  | .createDatabase name malloc palfMalloc slogOk =>
    (n.createDatabase name malloc palfMalloc slogOk).map fun r => (r.1, r.2.2)
  | .createTable table malloc palfMalloc =>
    (n.createTable table malloc palfMalloc).map fun r => (r.1, r.2.2)

end CreateCall

open CreateCall

def succeed [DecidableEq β] : List CreateCall → Node β → Option (Node β)
  | [], n => some n
  | c :: calls, n =>
    match call n c with
    | none => none
    | some (ret, n) => if ret ≠ 0 then none else succeed calls n

def schemaOf (calls : List CreateCall) : ObSchemaService := calls.foldl apply {}

theorem schemaOf_concat (calls : List CreateCall) (c : CreateCall) :
    schemaOf (calls ++ [c]) = apply (schemaOf calls) c :=
  List.foldl_concat ..

section Replay

theorem replay_eq_apply {c : CreateCall} (h : c.Ok) (lsn : ℕ) (scn : ℤ) (s : ObSchemaService) :
    (DdlService.replay c.record lsn scn s).2 = apply s c.bare := by
  cases c with
  | createDatabase name malloc palfMalloc slogOk =>
    rw [record, replay_payload h]
    rfl
  | createTable table malloc palfMalloc =>
    rw [record, tablePayload, replay_record createTableType (by decide) h.1,
      if_neg (by decide), if_pos rfl, storedName_of_le h.1.2, List.take_of_length_le (by simp),
      ofLE_toLE_of_lt h.2]
    rfl

theorem replayAll_records {calls : List CreateCall} (h : ∀ c ∈ calls, c.Ok) :
    replayAll (calls.map record) {} = schemaOf (calls.map bare) := by
  suffices hfold : ∀ lsn s, replayed (fun _ : Unit => DdlService.replay) () .ddlLogBaseType lsn
      (calls.map record) s = (calls.map bare).foldl apply s from hfold 0 {}
  induction calls with
  | nil => exact fun _ _ => rfl
  | cons c calls ih =>
    intro lsn s
    rw [List.map_cons, replayed, replay_eq_apply (h c List.mem_cons_self)]
    exact ih (fun d hd => h d (List.mem_cons_of_mem c hd)) _ _

def stripTable (table : ObTableSchema) : ObTableSchema :=
  { table with columnCount := 0, columns := [] }

def strip (s : ObSchemaService) : ObSchemaService :=
  { s with tables := s.tables.map fun p => (p.1, stripTable p.2) }

theorem map_put {α γ : Type*} (f : α → γ) (key : ℕ) (value : α) (m : List (ℕ × α)) :
    (put key value m).map (fun p => (p.1, f p.2)) =
      put key (f value) (m.map fun p => (p.1, f p.2)) := by
  simp [put, List.filter_map, Function.comp_def]

theorem strip_apply (s : ObSchemaService) (c : CreateCall) :
    strip (apply s c) = apply (strip s) c.bare := by
  cases c with
  | createDatabase name malloc palfMalloc slogOk =>
    by_cases h : Holds s name
    · have h' : Holds (strip s) name := h
      rw [bare, apply, apply, ddlCreateDatabase_of_holds h, ddlCreateDatabase_of_holds h']
    · have h' : ¬ Holds (strip s) name := h
      rw [bare, apply, apply, ddlCreateDatabase_of_not_holds h, ddlCreateDatabase_of_not_holds h']
      rfl
  | createTable table malloc palfMalloc =>
    simp only [apply, bare, ObSchemaService.createTable, strip, map_put]
    rfl

theorem schemaOf_bare (calls : List CreateCall) :
    schemaOf (calls.map bare) = strip (schemaOf calls) := by
  induction calls using List.reverseRecOn with
  | nil => rfl
  | append_singleton calls c ih =>
    rw [List.map_append, List.map_singleton, schemaOf_concat, schemaOf_concat, strip_apply, ih]

theorem wellNumbered_schemaOf (calls : List CreateCall) : WellNumbered (schemaOf calls) := by
  induction calls using List.reverseRecOn with
  | nil => exact wellNumbered_new
  | append_singleton calls c ih =>
    rw [schemaOf_concat]
    cases c with
    | createDatabase name malloc palfMalloc slogOk => exact wellNumbered_ddlCreateDatabase ih name
    | createTable table malloc palfMalloc => exact ⟨ih.below, ih.nodup⟩

theorem holds_schemaOf {calls : List CreateCall} (h : ∀ c ∈ calls, c.Ok) :
    ∀ name ∈ calls.filterMap databaseName, Holds (schemaOf calls) name := by
  induction calls using List.reverseRecOn with
  | nil => simp
  | append_singleton calls c ih =>
    intro name hname
    have hcalls := ih fun d hd => h d (List.mem_append_left _ hd)
    rw [schemaOf_concat]
    cases c with
    | createDatabase new malloc palfMalloc slogOk =>
      have hnew : NameOk new := h _ (List.mem_append_right _ List.mem_cons_self)
      rw [List.filterMap_append, List.mem_append] at hname
      rcases hname with hold | hlast
      · exact (hcalls name hold).mono (prefix_ddlCreateDatabase (wellNumbered_schemaOf calls) new)
      · obtain rfl : name = new := by simpa [databaseName] using hlast
        exact holds_ddlCreateDatabase (wellNumbered_schemaOf calls) hnew.2
    | createTable table malloc palfMalloc =>
      rw [List.filterMap_append, List.mem_append] at hname
      rcases hname with hold | hlast
      · exact hcalls name hold
      · simp [databaseName] at hlast

theorem tables_schemaOf (calls : List CreateCall) :
    (∀ p ∈ (schemaOf calls).tables, p.1 < (schemaOf calls).nextTableId) ∧
      (schemaOf calls).tables.map (fun p => p.2.columns) =
        (calls.filterMap table).map ObTableSchema.columns := by
  induction calls using List.reverseRecOn with
  | nil => simp [schemaOf]
  | append_singleton calls c ih =>
    obtain ⟨hbelow, hcolumns⟩ := ih
    rw [schemaOf_concat, List.filterMap_append]
    cases c with
    | createDatabase name malloc palfMalloc slogOk =>
      have hsame : (ddlCreateDatabase name (schemaOf calls)).2.2.tables = (schemaOf calls).tables ∧
          (ddlCreateDatabase name (schemaOf calls)).2.2.nextTableId =
            (schemaOf calls).nextTableId := by
        by_cases h : Holds (schemaOf calls) name
        · rw [ddlCreateDatabase_of_holds h]
          exact ⟨rfl, rfl⟩
        · rw [ddlCreateDatabase_of_not_holds h]
          exact ⟨rfl, rfl⟩
      rw [apply, hsame.1, hsame.2]
      exact ⟨hbelow, by simpa [List.filterMap_cons, table] using hcolumns⟩
    | createTable t malloc palfMalloc =>
      rw [apply, ObSchemaService.createTable]
      dsimp only
      rw [put_of_fresh fun p hp => Nat.ne_of_lt (hbelow p hp)]
      constructor
      · intro p hp
        rcases List.mem_append.mp hp with hold | hnew
        · exact Nat.lt_succ_of_lt (hbelow p hold)
        · rw [List.mem_singleton.mp hnew]
          exact Nat.lt_succ_self _
      · simp [hcolumns, table]

end Replay

section Calls

structure Tracks (base : β) (calls : List CreateCall) (n : Node β) : Prop where
  serves : Serves base (calls.map record) n
  slog : SlogHolds (calls.filterMap databaseName) n.slog
  schema : n.process.schema = schemaOf calls
  isInited : n.process.isInited = true

theorem record_ne_nil (c : CreateCall) : c.record ≠ [] := by
  cases c <;> simp [record, payload, tablePayload, toLE]

variable {base : β} {calls : List CreateCall} {n : Node β}

theorem Tracks.slog_append (h : Tracks base calls n) {m : Node β} (honly : OnlyClog n m)
    (c : CreateCall) : SlogHolds ((calls ++ [c]).filterMap databaseName) m.slog := by
  rw [honly.slog, List.filterMap_append]
  exact h.slog.mono (List.subset_append_left _ _)

variable [DecidableEq β]

theorem Tracks.append (h : Tracks base calls n) (c : CreateCall)
    (hreadable : Readable ((calls ++ [c]).map record)) (malloc palfMalloc : Option (ℕ → UInt8)) :
    ∃ ret m, n.appendRecord c.record malloc palfMalloc = some (ret, m) ∧ OnlyClog n m ∧
      (ret = 0 ↔ (malloc.isSome && palfMalloc.isSome) = true) ∧
      (ret = 0 → Serves base ((calls ++ [c]).map record) m) := by
  rw [List.map_append, List.map_singleton] at hreadable ⊢
  have hlogged : logged? n.process.isInited c.record malloc palfMalloc =
      if (malloc.isSome && palfMalloc.isSome) = true then some c.record else none := by
    rw [logged?, h.isInited, Bool.true_and]
  obtain ⟨ret, m, happ, honly, hret, hserves⟩ := h.serves.appendRecord (record_ne_nil c) (by
    rw [hlogged]
    split_ifs
    · exact hreadable
    · rw [Option.toList_none, List.append_nil]
      exact hreadable.of_append)
  rw [hlogged] at hret hserves
  simp only [ne_eq, ite_eq_right_iff, reduceCtorEq, imp_false, not_not] at hret
  refine ⟨ret, m, happ, honly, hret, fun hzero => ?_⟩
  rwa [if_pos (hret.mp hzero)] at hserves

variable {malloc palfMalloc : Option (ℕ → UInt8)}

/-- The call returns, with success exactly when it is accepted, and is then tracked. -/
def Tracked (base : β) (calls : List CreateCall) (n : Node β) (c : CreateCall) : Prop :=
  ∃ ret m, c.call n = some (ret, m) ∧ (ret = 0 ↔ c.Accepted (schemaOf calls)) ∧
    (ret = 0 → Tracks base (calls ++ [c]) m)

theorem Tracks.createDatabase (h : Tracks base calls n) {name : Bytes} (hok : NameOk name)
    {slogOk : Bool} {c : CreateCall} (hc : c = .createDatabase name malloc palfMalloc slogOk)
    (hreadable : Readable ((calls ++ [c]).map record)) : Tracked base calls n c := by
  subst hc
  obtain ⟨ret, m, happ, honly, hret, hserves⟩ := h.append _ hreadable malloc palfMalloc
  have hcall : CreateCall.call n (.createDatabase name malloc palfMalloc slogOk) =
      if ret ≠ 0 then some (ret, m)
      else if (m.updateSchema name).1 ≠ 0 then
        some ((m.updateSchema name).1, (m.updateSchema name).2.2)
      else some (0, (m.updateSchema name).2.2.writeSlog name slogOk) := by
    rw [CreateCall.call, Node.createDatabase, Node.appendClog,
      show n.appendRecord (payload name) malloc palfMalloc = some (ret, m) from happ]
    dsimp only
    split_ifs <;> rfl
  by_cases hzero : ret = 0
  · rw [Tracked, hcall, if_neg (not_not.mpr hzero), Node.updateSchema, honly.schema, h.schema]
    by_cases hholds : Holds (schemaOf calls) name
    · rw [ddlCreateDatabase_of_holds hholds]
      refine ⟨-1, _, if_pos (by simp), iff_of_false (by simp) fun hacc => hacc.2 hholds, by simp⟩
    · rw [ddlCreateDatabase_of_not_holds hholds]
      refine ⟨0, _, if_neg (by simp), iff_of_true rfl ⟨hret.mp hzero, hholds⟩, fun _ => ?_⟩
      have hname : name ∈ (calls ++ [CreateCall.createDatabase name malloc palfMalloc
          slogOk]).filterMap databaseName := by
        simp [databaseName]
      refine ⟨(hserves hzero).of_clog_eq rfl rfl rfl,
        SlogHolds.writeSlog (h.slog_append honly _) hname hok slogOk, ?_,
        honly.isInited.trans h.isInited⟩
      rw [schemaOf_concat, apply, ddlCreateDatabase_of_not_holds hholds]
      rfl
  · rw [Tracked, hcall, if_pos hzero]
    exact ⟨ret, m, rfl, iff_of_false hzero fun hacc => hzero (hret.mpr hacc.1),
      fun hret0 => absurd hret0 hzero⟩

theorem Tracks.createTable (h : Tracks base calls n) {t : ObTableSchema} {c : CreateCall}
    (hc : c = .createTable t malloc palfMalloc)
    (hreadable : Readable ((calls ++ [c]).map record)) : Tracked base calls n c := by
  subst hc
  obtain ⟨ret, m, happ, honly, hret, hserves⟩ := h.append _ hreadable malloc palfMalloc
  have hcall : CreateCall.call n (.createTable t malloc palfMalloc) =
      if ret ≠ 0 then some (ret, m)
      else some ((ddlCreateTable t m.process.schema).1, { m with process := { m.process with
        schema := (ddlCreateTable t m.process.schema).2.2 } }) := by
    rw [CreateCall.call, Node.createTable,
      show n.appendRecord (tablePayload t) malloc palfMalloc = some (ret, m) from happ]
    dsimp only
    split_ifs <;> rfl
  by_cases hzero : ret = 0
  · rw [Tracked, hcall, if_neg (not_not.mpr hzero), honly.schema, h.schema, ddlCreateTable_schema]
    refine ⟨_, _, rfl, ?_, fun _ => ⟨(hserves hzero).of_clog_eq rfl rfl rfl,
      h.slog_append honly _, ?_, honly.isInited.trans h.isInited⟩⟩
    · rw [ddlCreateTable_eq_zero]
      exact ⟨fun hid => ⟨hret.mp hzero, hid⟩, And.right⟩
    · rw [schemaOf_concat]
      rfl
  · rw [Tracked, hcall, if_pos hzero]
    exact ⟨ret, m, rfl, iff_of_false hzero fun hacc => hzero (hret.mpr hacc.1),
      fun hret0 => absurd hret0 hzero⟩

theorem Tracks.call (h : Tracks base calls n) {c : CreateCall} (hok : c.Ok)
    (hreadable : Readable ((calls ++ [c]).map record)) : Tracked base calls n c := by
  cases c with
  | createDatabase name malloc palfMalloc slogOk => exact h.createDatabase hok rfl hreadable
  | createTable t malloc palfMalloc => exact h.createTable rfl hreadable

theorem Readable.front {front calls : List CreateCall} (hpre : front <+: calls)
    (h : Readable (calls.map record)) : Readable (front.map record) := by
  obtain ⟨back, rfl⟩ := hpre
  rw [List.map_append] at h
  exact h.of_append

theorem Tracks.succeed (h : Tracks base calls n) {more : List CreateCall} {m : Node β}
    (hok : ∀ c ∈ more, c.Ok) (hreadable : Readable ((calls ++ more).map record))
    (hrun : DdlTables.succeed more n = some m) : Tracks base (calls ++ more) m := by
  induction more generalizing calls n with
  | nil =>
    cases hrun
    rwa [List.append_nil]
  | cons c more ih =>
    rw [List.append_cons] at hreadable ⊢
    obtain ⟨ret, l, hcall, -, htracks⟩ := h.call (hok c List.mem_cons_self)
      (Readable.front (List.prefix_append _ _) hreadable)
    rw [DdlTables.succeed, hcall] at hrun
    dsimp only at hrun
    split_ifs at hrun with hret
    exact ih (htracks (not_not.mp hret)) (fun d hd => hok d (List.mem_cons_of_mem c hd))
      hreadable hrun

theorem Tracks.succeeds (h : Tracks base calls n) {more : List CreateCall}
    (hok : ∀ c ∈ more, c.Ok) (hreadable : Readable ((calls ++ more).map record))
    (haccepted : Each apply Accepted (schemaOf calls) more) :
    ∃ m, DdlTables.succeed more n = some m := by
  induction more generalizing calls n with
  | nil => exact ⟨n, rfl⟩
  | cons c more ih =>
    rw [List.append_cons] at hreadable
    obtain ⟨hc, hmore⟩ := each_cons.mp haccepted
    obtain ⟨ret, l, hcall, hret, htracks⟩ := h.call (hok c List.mem_cons_self)
      (Readable.front (List.prefix_append _ _) hreadable)
    have hzero := hret.mpr hc
    rw [← schemaOf_concat] at hmore
    rw [DdlTables.succeed, hcall]
    simp only [hzero, ne_eq, not_true_eq_false, ↓reduceIte]
    exact ih (htracks hzero) (fun d hd => hok d (List.mem_cons_of_mem c hd)) hreadable hmore

end Calls

section Restart

variable {base : β} {calls : List CreateCall} {n : Node β}

def KeepsTables (n m : Node β) : Prop :=
  ∀ p ∈ n.process.schema.tables, ∃ q ∈ m.process.schema.tables, q.1 = p.1 ∧
    q.2.tableId = p.2.tableId ∧ q.2.tableName = p.2.tableName ∧
    q.2.databaseId = p.2.databaseId ∧ q.2.columns = p.2.columns

theorem keepsTables_iff {m : Node β} (hschema : n.process.schema = schemaOf calls)
    (hm : m.process.schema = strip n.process.schema) :
    KeepsTables n m ↔ ∀ t ∈ calls.filterMap table, t.columns = [] := by
  have hcolumns : (∀ t ∈ calls.filterMap table, t.columns = []) ↔
      ∀ p ∈ n.process.schema.tables, p.2.columns = [] := by
    have htables := (tables_schemaOf calls).2
    rw [← hschema] at htables
    rw [← List.forall_mem_map (f := ObTableSchema.columns) (P := fun c => c = []), ← htables,
      List.forall_mem_map]
  rw [hcolumns]
  constructor
  · intro hkept p hp
    obtain ⟨q, hq, -, -, -, -, heq⟩ := hkept p hp
    rw [hm] at hq
    obtain ⟨r, -, rfl⟩ := List.mem_map.mp hq
    exact heq.symm
  · intro hnone p hp
    refine ⟨(p.1, stripTable p.2), ?_, rfl, rfl, rfl, rfl, (hnone p hp).symm⟩
    rw [hm]
    exact List.mem_map_of_mem hp

variable [DecidableEq β]

def RestartsAs (base : β) (n m : Node β) : Prop :=
  ∀ stack, ∃ k, ∀ fuel, k ≤ fuel → n.restart fuel base stack = some m

theorem starts_new {clog : Disk (Option β × ℤ)}
    (hempty : ∀ b, clog.entry ((some base, ddlLsId), b) = none) :
    ∃ start, RestartsAs base { clog } start ∧ Tracks base [] start := by
  obtain ⟨m, hm⟩ := (serves_new hempty).restarts slogHolds_new.logged ⟨by simp, by decide⟩
  refine ⟨m, hm.restarts, hm.serves, ?_, hm.schema, hm.isInited⟩
  rw [hm.slog]
  exact slogHolds_new.restart

theorem Tracks.restart (h : Tracks base calls n) (hok : ∀ c ∈ calls, c.Ok)
    (hreadable : Readable (calls.map record)) :
    ∃ m, RestartsAs base n m ∧ m.process.schema = strip n.process.schema := by
  obtain ⟨m, hm⟩ := h.serves.restarts h.slog.logged hreadable
  have hnames : ∀ name ∈ calls.filterMap databaseName, NameOk name := by
    intro name hname
    obtain ⟨c, hc, hdb⟩ := List.mem_filterMap.mp hname
    cases c with
    | createDatabase new malloc palfMalloc slogOk => exact Option.some.inj hdb ▸ hok _ hc
    | createTable t malloc palfMalloc => cases hdb
  refine ⟨m, hm.restarts, ?_⟩
  rw [hm.schema, replayAll_records hok, schemaOf_bare, h.schema]
  exact h.slog.replay_eq hnames (holds_schemaOf hok)

/-- Calls that return success and then a restart: everything but the columns comes back, so the
tables are kept exactly when none was created with a column. -/
theorem tables_durable_iff (base : β) (clog : Disk (Option β × ℤ)) (calls : List CreateCall)
    (hempty : ∀ b, clog.entry ((some base, ddlLsId), b) = none)
    (hok : ∀ c ∈ calls, c.Ok) (hreadable : Readable (calls.map record)) :
    ∃ start, RestartsAs base { clog } start ∧
      (Each apply Accepted {} calls → ∃ n, succeed calls start = some n) ∧
      ∀ n, succeed calls start = some n →
        ∃ m, RestartsAs base n m ∧ m.process.schema = strip n.process.schema ∧
          (KeepsTables n m ↔ ∀ t ∈ calls.filterMap table, t.columns = []) := by
  obtain ⟨start, hstart, htracks⟩ := starts_new hempty
  refine ⟨start, hstart, htracks.succeeds hok hreadable, ?_⟩
  intro n hrun
  have hn := htracks.succeed hok hreadable hrun
  rw [List.nil_append] at hn
  obtain ⟨m, hm, hschema⟩ := hn.restart hok hreadable
  exact ⟨m, hm, hschema, keepsTables_iff hn.schema hschema⟩

def twoCalls (columns : List ObColumnSchemaV2) : List CreateCall :=
  [.createDatabase [97] (some fun _ => 0) (some fun _ => 0) true,
    .createTable { tableName := [116], databaseId := 1, columns, columnCount := columns.length }
      (some fun _ => 0) (some fun _ => 0)]

variable (columns : List ObColumnSchemaV2)

theorem readable_twoCalls :
    Readable ((twoCalls columns).map record) :=
  ⟨by simp only [twoCalls, List.map_cons, List.map_nil, record, tablePayload]; decide,
    by simp only [twoCalls, List.map_cons, List.map_nil, record, tablePayload]; decide⟩

theorem accepted_twoCalls :
    Each apply Accepted {} (twoCalls columns) := by
  refine each_cons.mpr ⟨⟨rfl, ?_⟩, each_cons.mpr ⟨⟨rfl, ?_⟩, each_nil⟩⟩
  · simp [Holds]
  · decide

theorem ok_twoCalls : ∀ c ∈ twoCalls columns, c.Ok := by
  simp only [twoCalls, List.forall_mem_cons]
  have hname : NameOk [116] := by decide
  have hid : 1 < 256 ^ 8 := by decide
  exact ⟨by decide, ⟨hname, hid⟩, by simp⟩

theorem tables_durable_iff_example : ∃ start n m : Node Unit,
    succeed (twoCalls []) start = some n ∧ RestartsAs () n m ∧ KeepsTables n m := by
  obtain ⟨start, -, hsucceeds, h⟩ := tables_durable_iff () PosixFiles.FileSystem.blank (twoCalls [])
    (fun _ => rfl) (ok_twoCalls []) (readable_twoCalls [])
  obtain ⟨n, hn⟩ := hsucceeds (accepted_twoCalls [])
  obtain ⟨m, hm, -, hiff⟩ := h n hn
  exact ⟨start, n, m, hn, hm, hiff.mpr (by decide)⟩

/-- A table with a column comes back without it. -/
theorem column_lost_by_restart : ∃ start n m : Node Unit,
    RestartsAs () { clog := PosixFiles.FileSystem.blank } start ∧
      succeed (twoCalls [{ columnName := [99] }]) start = some n ∧ RestartsAs () n m ∧
      n.process.schema.tables.map (fun p => (p.1, p.2.columns)) = [(1, [{ columnName := [99] }])] ∧
      m.process.schema.tables.map (fun p => (p.1, p.2.columns)) = [(1, [])] := by
  have hempty : ∀ b, (PosixFiles.FileSystem.blank : Disk (Option Unit × ℤ)).entry
    ((some (), ddlLsId), b) = none := fun _ => rfl
  obtain ⟨start, hstart, htracks⟩ := starts_new hempty
  have hok := ok_twoCalls [{ columnName := [99] }]
  have hreadable := readable_twoCalls [{ columnName := [99] }]
  obtain ⟨n, hrun⟩ := htracks.succeeds hok hreadable (accepted_twoCalls _)
  have hn := htracks.succeed hok hreadable hrun
  obtain ⟨m, hm, hschema⟩ := hn.restart hok hreadable
  refine ⟨start, n, m, hstart, hrun, hm, ?_, ?_⟩
  · rw [hn.schema]
    decide +kernel
  · rw [hschema, hn.schema]
    decide +kernel

end Restart

end DdlTables
