import LsmStorage.MemtableVersions
import LsmStorage.MvccHistory

/-! # The lock probe and the write path

`check_row_locked` looks at the newest version of a row, `mvcc_write` at the first one that is
not aborted. A statement rollback aborts single versions, so the newest version of a transaction
in flight may be an aborted one: the probe then calls the row free and every other writer is
turned away. -/
namespace MvccRowLock

open HeapChain MvccRow MvccHistory RowkeyHash Memtable MemtableMap MemtableVersions ObMemtableKey

inductive RowStep : ObMvccRow → ObMvccRow → Prop where
  | write (r : ObMvccRow) (ctx : ObStoreCtx) (data : ObMemtableData) :
    RowStep r (r.mvccWrite ctx (newNode ctx data)).2.2
  | commit (r : ObMvccRow) (tx commitVersion : ℤ) : RowStep r (r.commitTx tx commitVersion)
  | abort {r : ObMvccRow} {p : ℕ} {n : ObMvccTransNode} :
    r.heap p = some n → n.isUndecided = true → RowStep r (r.abortNode p)

inductive Reachable : ObQueryEngine → Prop where
  | empty : Reachable {}
  | createKv {q : ObQueryEngine} (rowkey : ObStoreRowkey) : Reachable q →
    Reachable (createKv (ofRowkey rowkey) q).2
  | row {q : ObQueryEngine} (rowkey : ObStoreRowkey) {p : ℕ} {row row' : ObMvccRow} :
    Reachable q → q.get (ofRowkey rowkey) = some p → q.rows p = some row →
    RowStep row row' → Reachable { q with rows := Function.update q.rows p (some row') }

section Invariant

theorem RowStep.flag {r r' : ObMvccRow} (h : RowStep r r') : r'.flag = r.flag := by
  cases h with
  | write ctx data =>
    rw [ObMvccRow.mvccWrite_eq]
    split
    · rfl
    · split <;> rfl
  | commit tx commitVersion => rfl
  | abort _ _ => rfl

theorem mem_of_abort {vs vs' : List ObMvccTransNode}
    (h : List.Forall₂ (fun n n' => n' = n ∨ n' = n.transAbort) vs vs') {n : ObMvccTransNode}
    (hn : n ∈ vs') : n ∈ vs ∨ (n.isAborted = true ∧ n.isCommitted = false) := by
  obtain ⟨m, hm, rfl | rfl⟩ := exists_mem_of_forall₂ h hn
  · exact Or.inl hm
  · exact Or.inr ⟨by simp, by simp⟩

theorem exclusive_abort {vs vs' : List ObMvccTransNode} (hexcl : Exclusive vs)
    (h : List.Forall₂ (fun n n' => n' = n ∨ n' = n.transAbort) vs vs') : Exclusive vs' := by
  constructor
  · have hund : ∀ n ∈ vs', n.isUndecided = true → n ∈ vs := fun n hn hu =>
      (mem_of_abort h hn).resolve_right fun haborted => by
        simp [((isUndecided_iff n).mp hu).2] at haborted
    intro a ha b hb hua hub
    exact hexcl.one_writer a (hund a ha hua) b (hund b hb hub) hua hub
  · have hbelow := hexcl.none_below
    clear hexcl
    induction h with
    | nil => exact .nil
    | @cons a a' vs vs' hab hrest ih =>
      obtain ⟨hhead, htail⟩ := List.pairwise_cons.mp hbelow
      refine List.pairwise_cons.mpr ⟨fun b hb hc => ?_, ih htail⟩
      rcases hab with rfl | rfl
      · rcases mem_of_abort hrest hb with hb | ⟨haborted, -⟩
        · exact hhead b hb hc
        · simp [ObMvccTransNode.isUndecided, haborted]
      · simp at hc
  · intro n hn hc
    rcases mem_of_abort h hn with hn | ⟨-, hnot⟩
    · exact hexcl.one_status n hn hc
    · rw [hc] at hnot
      cases hnot

theorem RowStep.exclusive {r r' : ObMvccRow} (h : RowStep r r') (hexcl : Exclusive r.versions) :
    Exclusive r'.versions := by
  cases h with
  | write ctx data => exact exclusive_step (o := { row := r }) hexcl (.write ctx data)
  | commit tx v => exact exclusive_step (o := { row := r }) hexcl (.commit tx v)
  | @abort p _ _ _ => exact exclusive_abort hexcl (r.versions_abortNode p)

structure Consistent (q : ObQueryEngine) : Prop where
  indexed : Indexed q
  exclusive : ∀ h, Exclusive (versionsAt h q)

theorem consistent_of_reachable {q : ObQueryEngine} (hq : Reachable q) : Consistent q := by
  induction hq with
  | empty => exact ⟨indexed_empty, fun _ => ⟨by simp [versionsAt], .nil, by simp [versionsAt]⟩⟩
  | createKv rowkey _ ih =>
    obtain ⟨p, q', hcreate, hindexed, -, -, -, hsame⟩ := createKv_rowAt ih.indexed rowkey
    rw [hcreate]
    refine ⟨hindexed, fun h => ?_⟩
    rw [versionsAt_eq, hsame, ← versionsAt_eq]
    exact ih.exclusive h
  | @row q rowkey p row row' _ hp hrow hstep ih =>
    rw [get_ofRowkey] at hp
    refine ⟨MvccEngineReads.indexed_setRow ih.indexed hrow hstep.flag, fun h => ?_⟩
    rw [versionsAt_eq, rowAt_setRow ih.indexed hp]
    split
    · apply hstep.exclusive
      rw [← rowAt_of_row hp hrow, ← versionsAt_eq]
      exact ih.exclusive (slot rowkey)
    · rw [← versionsAt_eq]
      exact ih.exclusive h

end Invariant

section Probe

/-- Whether `mvcc_write` on the row of the key reports a write conflict. -/
def writeConflict (ctx : ObStoreCtx) (node : ObMvccTransNode) (key : ObMemtableKey)
    (q : ObQueryEngine) : Bool :=
  match Memtable.createKv key q with
  | (none, _) => false
  | (some p, q) => (q.rows p).any fun row => (row.mvccWrite ctx node).2.1

theorem writeConflict_eq {q : ObQueryEngine} (hq : Indexed q) (ctx : ObStoreCtx)
    (node : ObMvccTransNode) (rowkey : ObStoreRowkey) :
    writeConflict ctx node (ofRowkey rowkey) q =
      ObMvccRow.conflicts ctx.txId (versionsAt (slot rowkey) q) := by
  obtain ⟨p, q', hcreate, -, -, hrow, -, -⟩ := createKv_rowAt hq rowkey
  rw [versionsAt_eq]
  simp only [writeConflict, hcreate, hrow, Option.any_some, ObMvccRow.mvccWrite_eq]
  split
  · next hc => exact hc.symm
  · next hc => split <;> simpa using hc

def lockedBy (vs : List ObMvccTransNode) : Option ℤ :=
  vs.head?.bind fun n => if n.isUndecided then some n.txId else none

theorem lockedBy_eq_some_iff (vs : List ObMvccTransNode) (t : ℤ) :
    lockedBy vs = some t ↔ ∃ n ∈ vs.head?, n.isUndecided = true ∧ n.txId = t := by
  simp [lockedBy, Option.bind_eq_some_iff]

theorem head?_versions (r : ObMvccRow) :
    r.versions.head? = (r.listHead.bind r.heap).map ObMvccTransNode.bare := by
  have hpath := r.linked_chain.path
  rw [ObMvccRow.versions, hpath.head?]
  cases hids : r.chain with
  | nil => rfl
  | cons p rest =>
    obtain ⟨n, hn⟩ := hpath.exists_node (hids ▸ List.mem_cons_self)
    simp [hn]

theorem checkRowLocked_eq (rowkey : ObStoreRowkey) (q : ObQueryEngine) :
    checkRowLocked (ofRowkey rowkey) q = lockedBy (versionsAt (slot rowkey) q) := by
  unfold checkRowLocked versionsAt
  rw [get_ofRowkey]
  cases (q.keyhash (slot rowkey)).bind q.rows with
  | none => rfl
  | some row =>
    simp only [Option.map_some, Option.getD_some, lockedBy, head?_versions]
    cases row.listHead.bind row.heap <;> rfl

theorem owned_iff {vs : List ObMvccTransNode} (hexcl : Exclusive vs) (t : ℤ) :
    (∀ tx, tx ≠ t → ObMvccRow.conflicts tx vs = true) ↔
      ∃ n ∈ vs, n.isUndecided = true ∧ n.txId = t := by
  simp only [conflicts_iff hexcl]
  constructor
  · intro hall
    obtain ⟨n, hn, hu, -⟩ := hall (t + 1) (by omega)
    refine ⟨n, hn, hu, ?_⟩
    by_contra hne
    obtain ⟨m, hm, hum, htx⟩ := hall n.txId hne
    exact htx (hexcl.one_writer m hm n hn hum hu)
  · rintro ⟨n, hn, hu, rfl⟩ tx htx
    exact ⟨n, hn, hu, htx.symm⟩

def ProbeAgrees (key : ObMemtableKey) (q : ObQueryEngine) : Prop :=
  ∀ t, checkRowLocked key q = some t ↔
    ∀ ctx node, ctx.txId ≠ t → writeConflict ctx node key q = true

/-- The newest version is not aborted while another one is undecided. -/
def NewestDecides (vs : List ObMvccTransNode) : Prop :=
  ∀ n ∈ vs.head?, n.isAborted = true → ∀ m ∈ vs, m.isUndecided = false

instance (vs : List ObMvccTransNode) : Decidable (NewestDecides vs) :=
  inferInstanceAs (Decidable (∀ n ∈ vs.head?, _ → ∀ m ∈ vs, _))

theorem lockedBy_owner_iff {vs : List ObMvccTransNode} (hexcl : Exclusive vs) :
    (∀ t, lockedBy vs = some t ↔ ∃ n ∈ vs, n.isUndecided = true ∧ n.txId = t) ↔
      NewestDecides vs := by
  simp only [lockedBy_eq_some_iff]
  constructor
  · intro hagree n hn ha m hm
    by_contra hu
    rw [Bool.not_eq_false] at hu
    obtain ⟨n', hn', hu', -⟩ := (hagree m.txId).mpr ⟨m, hm, hu, rfl⟩
    obtain rfl : n = n' := Option.some.inj (hn.symm.trans hn')
    rw [((isUndecided_iff n).mp hu').2] at ha
    cases ha
  · intro hnewest t
    constructor
    · rintro ⟨n, hn, hu⟩
      exact ⟨n, List.mem_of_head? hn, hu⟩
    · rintro ⟨m, hm, hu, rfl⟩
      cases vs with
      | nil => cases hm
      | cons n vs =>
        have hund : n.isUndecided = true := by
          rw [isUndecided_iff]
          refine ⟨Bool.eq_false_iff.mpr fun hcommitted => ?_, Bool.eq_false_iff.mpr fun ha => ?_⟩
          · rcases List.mem_cons.mp hm with rfl | hm
            · simp [((isUndecided_iff m).mp hu).1] at hcommitted
            · have hbelow := (List.pairwise_cons.mp hexcl.none_below).1 m hm hcommitted
              simp [hu] at hbelow
          · simp [hnewest n rfl ha m hm] at hu
        exact ⟨n, rfl, hund, hexcl.one_writer n List.mem_cons_self m hm hund hu⟩

theorem probeAgrees_iff_owner {q : ObQueryEngine} (hq : Consistent q) (rowkey : ObStoreRowkey) :
    ProbeAgrees (ofRowkey rowkey) q ↔
      ∀ t, lockedBy (versionsAt (slot rowkey) q) = some t ↔
        ∃ n ∈ versionsAt (slot rowkey) q, n.isUndecided = true ∧ n.txId = t := by
  refine forall_congr' fun t => ?_
  rw [checkRowLocked_eq, ← owned_iff (hq.exclusive (slot rowkey))]
  simp only [writeConflict_eq hq.indexed]
  refine iff_congr Iff.rfl ⟨fun h tx htx => ?_, fun h ctx _ htx => h ctx.txId htx⟩
  exact h ⟨tx, 0⟩ (newNode {} {}) htx

/-- The probe agrees with the write path exactly when the newest version of the row is not an
aborted one above an undecided one. -/
theorem probe_agrees_iff {q : ObQueryEngine} (hq : Reachable q) (rowkey : ObStoreRowkey) :
    ProbeAgrees (ofRowkey rowkey) q ↔
      NewestDecides (versionsAt (slot rowkey) q) := by
  have hc := consistent_of_reachable hq
  rw [probeAgrees_iff_owner hc, lockedBy_owner_iff (hc.exclusive (slot rowkey))]

def putA (row : ObMvccRow) (q : ObQueryEngine) : ObQueryEngine :=
  { q with rows := Function.update q.rows 0 (some row) }

def emptyA : ObQueryEngine := (Memtable.createKv (ofRowkey keyA) {}).2

def writeOnce (r : ObMvccRow) : ObMvccRow := (r.mvccWrite ⟨1, 5⟩ (newNode ⟨1, 5⟩ {})).2.2

theorem reachable_writeOnce : Reachable (putA (writeOnce indexedRow) emptyA) :=
  .row keyA (.createKv keyA .empty) (by decide +kernel) rfl (.write indexedRow ⟨1, 5⟩ {})

theorem probe_agrees_iff_example :
    ProbeAgrees (ofRowkey keyA) (putA (writeOnce indexedRow) emptyA) :=
  (probe_agrees_iff reachable_writeOnce keyA).mpr (by decide +kernel)

/-- Transaction 1 writes twice and the second statement is rolled back: no lock is reported,
and transaction 2 is turned away. -/
theorem rolled_back_statement_hides_lock :
    ∃ q, Reachable q ∧ checkRowLocked (ofRowkey keyA) q = none ∧
      writeConflict ⟨2, 9⟩ (newNode ⟨2, 9⟩ {}) (ofRowkey keyA) q = true ∧
      ¬ ProbeAgrees (ofRowkey keyA) q := by
  have htwice : Reachable (putA (writeOnce (writeOnce indexedRow))
      (putA (writeOnce indexedRow) emptyA)) :=
    .row keyA reachable_writeOnce (by decide +kernel) rfl (.write (writeOnce indexedRow) ⟨1, 5⟩ {})
  have hrolled := htwice.row keyA (p := 0) (by decide +kernel) rfl (.abort (p := 1) rfl rfl)
  refine ⟨_, hrolled, by decide +kernel, by decide +kernel, fun hagrees => ?_⟩
  have howner := (probeAgrees_iff_owner (consistent_of_reachable hrolled) keyA).mp hagrees 1
  exact absurd (howner.mpr (by decide +kernel)) (by decide +kernel)

end Probe

end MvccRowLock
