import LsmStorage.MemtableVersions

/-! # What a write changes for others

A `set` puts its version on top of the chain of a hash value, committed as version 1 whatever
the snapshot of its transaction is. Every key with that hash value reads it, and so does every
reader with a snapshot of 1 or more. A `multi_set` stops at the first row that is refused and
takes nothing back: it is atomic only where no row is refused, or the first. -/
namespace MemtableIsolation

open ByteCodec MvccRow RowkeyHash Memtable MemtableMap MemtableVersions ObMemtable

variable {η L : Type*}

section OneWrite

variable {append : η → Bytes → L → ℤ × L} {mallocOk : Bool} {t t' : ObMemtable η} {w : Write}
  {log log' : L}

def Isolated (t t' : ObMemtable η) (k : ObStoreRowkey) : Prop :=
  ∀ ctx, t'.get ctx k = t.get ctx k

theorem get_unchanged_iff (ht : WellFormed t.queryEngine)
    (hset : t.set append mallocOk w.ctx w.row log = (0, t', log')) (ctx : ObStoreCtx)
    (k : ObStoreRowkey) :
    t'.get ctx k = t.get ctx k ↔ w.row.rowkey.murmurhash 0 ≠ k.murmurhash 0 ∨
      (SeesWrites ctx → t.get ctx k = some w.read) := by
  rw [(set_accepted ht.indexed hset).get ht, ← slot_eq_murmurhash, ← slot_eq_murmurhash]
  by_cases hslot : w.slot = slot k
  · have hsame : slot w.row.rowkey = slot k := hslot
    by_cases hsees : SeesWrites ctx
    · simp [hslot, hsame, hsees, eq_comm]
    · simp [hsees]
  · exact iff_of_true (if_neg fun hc => hslot hc.1) (Or.inl hslot)

/-- A write leaves another key alone exactly when the hash values differ, or when all readers
that can see the write got its content already. -/
theorem isolated_iff (ht : WellFormed t.queryEngine)
    (hset : t.set append mallocOk w.ctx w.row log = (0, t', log')) (k : ObStoreRowkey) :
    Isolated t t' k ↔
      w.row.rowkey.murmurhash 0 ≠ k.murmurhash 0 ∨
        ∀ ctx, SeesWrites ctx → t.get ctx k = some w.read :=
  (forall_congr' fun ctx => get_unchanged_iff ht hset ctx k).trans forall_or_left

/-- A reader with a valid snapshot, and a write of another transaction at a later snapshot. -/
structure LaterWrite (reader : ObStoreCtx) (w : Write) : Prop where
  valid : reader.snapshotVersion ≠ obInvalidVersion
  snapshot : 1 ≤ reader.snapshotVersion
  other : w.ctx.txId ≠ reader.txId
  later : reader.snapshotVersion < w.ctx.snapshotVersion

/-- The snapshot does not protect the reader: it keeps its result only if the write goes to
another hash value, or brings the content that the reader got before. -/
theorem read_stable_iff (ht : WellFormed t.queryEngine)
    (hset : t.set append mallocOk w.ctx w.row log = (0, t', log')) {reader : ObStoreCtx}
    (hlater : LaterWrite reader w) (k : ObStoreRowkey) :
    t'.get reader k = t.get reader k ↔
      w.row.rowkey.murmurhash 0 ≠ k.murmurhash 0 ∨ t.get reader k = some w.read := by
  have hsees : SeesWrites reader := Or.inr hlater.snapshot
  rw [get_unchanged_iff ht hset, forall_prop_of_true hsees]

end OneWrite

section Samples

def keyA' : ObStoreRowkey := ⟨[139, 160, 113, 24, 59, 68, 83, 70]⟩

theorem murmurhash_keyA' : keyA.murmurhash 0 = keyA'.murmurhash 0 := by decide +kernel

theorem murmurhash_keyB : keyA.murmurhash 0 ≠ keyB.murmurhash 0 := by decide +kernel

theorem isolated_iff_example :
    ∃ t', fresh.set noLog true insertA.ctx insertA.row () = (0, t', ()) ∧
      Isolated fresh t' keyB := by
  obtain ⟨t', hset, -⟩ := set_fresh insertA (by decide)
  exact ⟨t', hset, (isolated_iff wellFormed_fresh hset keyB).mpr (Or.inl murmurhash_keyB)⟩

/-- The key was not there, and a write of another key puts a row under it. -/
theorem colliding_key_is_written :
    keyA ≠ keyA' ∧ ∃ t', fresh.set noLog true insertA.ctx insertA.row () = (0, t', ()) ∧
      fresh.get {} keyA' = none ∧ t'.get {} keyA' = some insertA.read ∧
      ¬ Isolated fresh t' keyA' := by
  obtain ⟨t', hset, -⟩ := set_fresh insertA (by decide)
  have hslot : insertA.slot = slot keyA' := by
    rw [slot_eq_murmurhash, ← murmurhash_keyA', ← slot_eq_murmurhash]
    rfl
  have hget : t'.get {} keyA' = some insertA.read := by
    rw [(set_accepted wellFormed_fresh.indexed hset).get wellFormed_fresh,
      if_pos ⟨hslot, Or.inl rfl⟩]
  refine ⟨by decide, t', hset, get_fresh _ _, hget, fun hisolated => ?_⟩
  have hsame := hisolated {}
  rw [hget, get_fresh] at hsame
  cases hsame

def reader : ObStoreCtx := ⟨1, 5⟩

theorem laterWrite_insertA : LaterWrite reader insertA :=
  ⟨by decide, by decide, by decide, by decide⟩

theorem read_stable_iff_example :
    ∃ t', fresh.set noLog true insertA.ctx insertA.row () = (0, t', ()) ∧
      t'.get reader keyB = fresh.get reader keyB := by
  obtain ⟨t', hset, -⟩ := set_fresh insertA (by decide)
  exact ⟨t', hset, (read_stable_iff wellFormed_fresh hset laterWrite_insertA keyB).mpr
    (Or.inl murmurhash_keyB)⟩

/-- The reader at snapshot 5 gets what is written at snapshot 9. -/
theorem snapshot_sees_later_write :
    LaterWrite reader insertA ∧
      ∃ t', fresh.set noLog true insertA.ctx insertA.row () = (0, t', ()) ∧
        fresh.get reader keyA = none ∧ t'.get reader keyA = some insertA.read := by
  obtain ⟨t', hset, -⟩ := set_fresh insertA (by decide)
  refine ⟨laterWrite_insertA, t', hset, get_fresh _ _, ?_⟩
  rw [(set_accepted wellFormed_fresh.indexed hset).get wellFormed_fresh,
    if_pos ⟨rfl, Or.inr laterWrite_insertA.snapshot⟩]

end Samples

section MultiSet

def applied (ctx : ObStoreCtx) (h : UInt64) (rows : List ObStoreRow)
    (vs : List ObMvccTransNode) : List ObMvccTransNode :=
  rows.foldl (fun vs row =>
    if (Write.mk ctx row).slot = h then
      (Write.mk ctx row).node :: vs.dropWhile ObMvccTransNode.isAborted
    else vs) vs

structure AllApplied (ctx : ObStoreCtx) (rows : List ObStoreRow) (t t' : ObMemtable η) : Prop where
  versions : ∀ h, versionsAt h t'.queryEngine = applied ctx h rows (versionsAt h t.queryEngine)
  rowCount : t'.rowCount = t.rowCount + rows.length
  occupySize : t'.occupySize =
    t.occupySize + (rows.map fun row => (Write.mk ctx row).data.size).sum

def MultiSetAtomic (append : η → Bytes → L → ℤ × L) (ctx : ObStoreCtx)
    (rows : List (ObStoreRow × Bool)) (t : ObMemtable η) (log : L) : Prop :=
  ((t.multiSet append ctx rows log).1 ≠ 0 → SameReads t (t.multiSet append ctx rows log).2.1) ∧
    ((t.multiSet append ctx rows log).1 = 0 →
      AllApplied ctx (rows.map Prod.fst) t (t.multiSet append ctx rows log).2.1)

variable (append : η → Bytes → L → ℤ × L) {ctx : ObStoreCtx}

theorem AllApplied.nil (t : ObMemtable η) : AllApplied ctx [] t t :=
  ⟨fun _ => rfl, by simp, by simp⟩

theorem AllApplied.cons {row : ObStoreRow} {rows : List ObStoreRow} {t t₁ t₂ : ObMemtable η}
    (hfirst : Accepted ⟨ctx, row⟩ t t₁) (hrest : AllApplied ctx rows t₁ t₂) :
    AllApplied ctx (row :: rows) t t₂ := by
  refine ⟨fun h => ?_, ?_, ?_⟩
  · rw [hrest.versions, hfirst.versions, applied, applied, List.foldl_cons]
  · rw [hrest.rowCount, hfirst.rowCount, List.length_cons, Nat.cast_succ]
    ring
  · rw [hrest.occupySize, hfirst.occupySize, List.map_cons, List.sum_cons]
    ring

/-- The log's answer to the record of a row. -/
def recorded (append : η → Bytes → L → ℤ × L) (handler : Option η) (row : ObStoreRow) (log : L) :
    ℤ × L :=
  match handler with
  | none => (0, log)
  | some handler => append handler (logRecord row) log

/-- The memtable is open, there is memory for the record of the row, and the log takes it. -/
@[mk_iff]
structure Recorded (append : η → Bytes → L → ℤ × L) (t : ObMemtable η) (r : ObStoreRow × Bool)
    (log : L) : Prop where
  isInited : t.isInited = true
  isFrozen : t.isFrozen = false
  mallocOk : r.2 = true
  log : (recorded append t.logHandler r.1 log).1 = 0

/-- The row is recorded, and its hash value is not blocked for the transaction. -/
def Takes (append : η → Bytes → L → ℤ × L) (ctx : ObStoreCtx) (t : ObMemtable η)
    (r : ObStoreRow × Bool) (log : L) : Prop :=
  Recorded append t r log ∧ ¬ Blocked ctx (slot r.1.rowkey) t.queryEngine

/-- Every row of the list is taken by the memtable as it is before the call. -/
def TakesAll (append : η → Bytes → L → ℤ × L) (ctx : ObStoreCtx) (t : ObMemtable η) :
    List (ObStoreRow × Bool) → L → Prop
  | [], _ => True
  | r :: rows, log =>
    Takes append ctx t r log ∧ TakesAll append ctx t rows (recorded append t.logHandler r.1 log).2

variable {append}

theorem set_of_recorded {t : ObMemtable η} {r : ObStoreRow × Bool} {log : L}
    (h : Recorded append t r log) :
    t.set append r.2 ctx r.1 log =
      ((t.apply ctx r.1).1, (t.apply ctx r.1).2, (recorded append t.logHandler r.1 log).2) := by
  have hlog := h.log
  simp only [ObMemtable.set, h.isInited, h.isFrozen, h.mallocOk, Bool.not_true, Bool.or_self,
    Bool.false_eq_true, ↓reduceIte]
  cases hhandler : t.logHandler with
  | none => rfl
  | some handler =>
    rw [hhandler] at hlog
    simp only [recorded] at hlog ⊢
    rw [if_neg (not_not.mpr hlog)]

theorem set_of_not_recorded (ctx : ObStoreCtx) {t : ObMemtable η} {r : ObStoreRow × Bool} {log : L}
    (h : ¬ Recorded append t r log) :
    (t.set append r.2 ctx r.1 log).1 ≠ 0 ∧ (t.set append r.2 ctx r.1 log).2.1 = t := by
  unfold ObMemtable.set
  split
  · exact ⟨by simp, rfl⟩
  next hopen =>
  split
  · exact ⟨by simp, rfl⟩
  next hmalloc =>
  simp only [Bool.or_eq_true, Bool.not_eq_true', not_or, Bool.not_eq_true, Bool.not_eq_false]
    at hopen hmalloc
  cases hhandler : t.logHandler with
  | none => exact absurd ⟨hopen.1, hopen.2, hmalloc, by rw [hhandler]; rfl⟩ h
  | some handler =>
    dsimp only
    split
    · next hret => exact ⟨hret, rfl⟩
    · next hret =>
      exact absurd ⟨hopen.1, hopen.2, hmalloc, by rw [hhandler]; exact not_not.mp hret⟩ h

theorem sameState_apply (ctx : ObStoreCtx) (row : ObStoreRow) (t : ObMemtable η) :
    SameState t (t.apply ctx row).2 := by
  unfold ObMemtable.apply
  dsimp only
  split <;> exact ⟨rfl, rfl, rfl⟩

theorem not_blocked_push {row : ObMvccRow} (w : Write)
    (h : ¬ row.isTransactionSetViolation w.ctx.snapshotVersion = true) :
    ObMvccRow.conflicts w.ctx.txId (row.push w.ctx w.node).versions = false ∧
      (row.push w.ctx w.node).isTransactionSetViolation w.ctx.snapshotVersion = false := by
  constructor
  · rw [ObMvccRow.versions_push, bare_node]
    simp [ObMvccRow.conflicts, isAborted_node, isCommitted_node]
  · have hmax : (row.push w.ctx w.node).maxTransVersion =
        if w.ctx.snapshotVersion > row.maxTransVersion ∧
          w.ctx.snapshotVersion ≠ obInvalidVersion then w.ctx.snapshotVersion
        else row.maxTransVersion := rfl
    simp only [ObMvccRow.isTransactionSetViolation] at h ⊢
    split
    · rfl
    · next hvalid =>
      simp only [hvalid, ↓reduceIte, gt_iff_lt, decide_eq_true_eq, not_lt] at h
      rw [decide_eq_false_iff_not, hmax]
      split <;> omega

theorem blocked_iff_stale {t : ObMemtable η} {ws : List Write} (h : Contents t ws) (w : Write) :
    Blocked w.ctx w.slot t.queryEngine ↔ Stale w ws := by
  have hrow : RowHolds w.slot ws (rowAt w.slot t.queryEngine) := by
    cases hp : t.queryEngine.keyhash w.slot with
    | none =>
      have hnone := h.represents.absent _ hp
      have hnew : rowAt w.slot t.queryEngine = indexedRow := by simp [rowAt, hp]
      rw [hnew]
      exact ⟨isBtreeIndexed_indexedRow, by rw [hnone]; rfl, by rw [watermark_eq_zero hnone]; rfl⟩
    | some p =>
      obtain ⟨row, hrow, hholds⟩ := h.represents.row _ p hp
      rwa [rowAt_of_row hp hrow]
  rw [Blocked, hrow.conflicts, hrow.violation_iff w]
  simp

/-- A row that was taken blocks no later row of its transaction. -/
theorem blocked_of_accepted {w : Write} {t t' : ObMemtable η} (h : Accepted w t t')
    (hfree : ¬ Blocked w.ctx w.slot t.queryEngine) (g : UInt64) :
    Blocked w.ctx g t'.queryEngine ↔ Blocked w.ctx g t.queryEngine := by
  rw [Blocked, h.rows]
  split
  · next hg =>
    subst hg
    obtain ⟨hconflict, hviolation⟩ := not_blocked_push w (not_or.mp hfree).2
    simp [hconflict, hviolation, hfree]
  · rfl

theorem takesAll_of_accepted {w : Write} {t t' : ObMemtable η} (h : Accepted w t t')
    (hfree : ¬ Blocked w.ctx w.slot t.queryEngine) (hsame : SameState t t')
    (rows : List (ObStoreRow × Bool)) (log : L) :
    TakesAll append w.ctx t' rows log ↔ TakesAll append w.ctx t rows log := by
  induction rows generalizing log with
  | nil => rfl
  | cons r rows ih =>
    have hrecorded : Recorded append t' r log ↔ Recorded append t r log := by
      rw [recorded_iff, recorded_iff, hsame.isInited, hsame.isFrozen, hsame.logHandler]
    rw [TakesAll, TakesAll, Takes, Takes, hrecorded, blocked_of_accepted h hfree, ih,
      hsame.logHandler]

variable (append)

theorem multiSet_cons_cases (ctx : ObStoreCtx) (r : ObStoreRow × Bool)
    (rows : List (ObStoreRow × Bool)) {t : ObMemtable η} (ht : Indexed t.queryEngine) (log : L) :
    (¬ Takes append ctx t r log ∧ (t.multiSet append ctx (r :: rows) log).1 ≠ 0 ∧
        Refused t (t.multiSet append ctx (r :: rows) log).2.1) ∨
      (Takes append ctx t r log ∧ ∃ t₁, Accepted ⟨ctx, r.1⟩ t t₁ ∧ SameState t t₁ ∧
        t.multiSet append ctx (r :: rows) log =
          t₁.multiSet append ctx rows (recorded append t.logHandler r.1 log).2) := by
  obtain ⟨row, mallocOk⟩ := r
  by_cases hrecorded : Recorded append t (row, mallocOk) log
  · have hset : t.set append mallocOk ctx row log = _ := set_of_recorded hrecorded
    rcases apply_cases ht ⟨ctx, row⟩ with ⟨hfail, hblocked, hrefused⟩ | ⟨hok, hfree, haccepted⟩
    · refine Or.inl ⟨fun htakes => htakes.2 hblocked, ?_⟩
      simp only [multiSet, hset, ne_eq, hfail, not_false_eq_true, ↓reduceIte]
      exact ⟨trivial, hrefused⟩
    · refine Or.inr ⟨⟨hrecorded, hfree⟩, _, haccepted, sameState_apply ctx row t, ?_⟩
      simp [multiSet, hset, hok]
  · obtain ⟨hfail, hsame⟩ := set_of_not_recorded ctx hrecorded
    refine Or.inl ⟨fun htakes => hrecorded htakes.1, ?_⟩
    dsimp only at hfail hsame
    simp only [multiSet, ne_eq, hfail, not_false_eq_true, ↓reduceIte, hsame]
    exact ⟨trivial, .refl ht⟩

theorem takesAll_iff (rows : List (ObStoreRow × Bool)) {t : ObMemtable η}
    (ht : Indexed t.queryEngine) (log : L) :
    TakesAll append ctx t rows log ↔ (t.multiSet append ctx rows log).1 = 0 := by
  induction rows generalizing t log with
  | nil => exact iff_of_true trivial rfl
  | cons r rows ih =>
    rw [TakesAll]
    rcases multiSet_cons_cases append ctx r rows ht log with
      ⟨hnot, hfail, -⟩ | ⟨htakes, t₁, haccepted, hsame, hmulti⟩
    · exact iff_of_false (fun h => hnot h.1) hfail
    · rw [hmulti, ← ih haccepted.indexed, takesAll_of_accepted haccepted htakes.2 hsame]
      simp [htakes]

theorem multiSet_allApplied (rows : List (ObStoreRow × Bool)) {t : ObMemtable η}
    (ht : Indexed t.queryEngine) (log : L) (hret : (t.multiSet append ctx rows log).1 = 0) :
    AllApplied ctx (rows.map Prod.fst) t (t.multiSet append ctx rows log).2.1 := by
  induction rows generalizing t log with
  | nil => exact AllApplied.nil t
  | cons r rows ih =>
    rcases multiSet_cons_cases append ctx r rows ht log with
      ⟨-, hfail, -⟩ | ⟨-, t₁, haccepted, -, hmulti⟩
    · exact absurd hret hfail
    · rw [hmulti] at hret ⊢
      exact AllApplied.cons haccepted (ih haccepted.indexed _ hret)

theorem rowCount_le_multiSet (ctx : ObStoreCtx) (rows : List (ObStoreRow × Bool))
    {t : ObMemtable η} (ht : Indexed t.queryEngine) (log : L) :
    t.rowCount ≤ (t.multiSet append ctx rows log).2.1.rowCount := by
  induction rows generalizing t log with
  | nil => exact le_rfl
  | cons r rows ih =>
    rcases multiSet_cons_cases append ctx r rows ht log with
      ⟨-, -, hrefused⟩ | ⟨-, t₁, haccepted, -, hmulti⟩
    · exact hrefused.rowCount.ge
    · have hrest := ih haccepted.indexed (recorded append t.logHandler r.1 log).2
      have hcount := haccepted.rowCount
      rw [hmulti]
      omega

/-- `multi_set` is atomic exactly when the memtable takes all rows, or does not take the first. -/
theorem multiSet_atomic_iff (rows : List (ObStoreRow × Bool)) {t : ObMemtable η}
    (ht : Indexed t.queryEngine) (log : L) :
    MultiSetAtomic append ctx rows t log ↔
      TakesAll append ctx t rows log ∨ ∀ r ∈ rows.head?, ¬ Takes append ctx t r log := by
  rw [takesAll_iff append rows ht]
  by_cases hret : (t.multiSet append ctx rows log).1 = 0
  · refine iff_of_true ⟨fun hfail => absurd hret hfail, fun _ => ?_⟩ (Or.inl hret)
    exact multiSet_allApplied append rows ht log hret
  simp only [MultiSetAtomic, hret, not_false_eq_true, ne_eq, forall_const, false_implies,
    and_true, false_or]
  cases rows with
  | nil => exact absurd rfl hret
  | cons r rows =>
    simp only [List.head?_cons, Option.mem_def, Option.some.injEq, forall_eq']
    rcases multiSet_cons_cases append ctx r rows ht log with
      ⟨hnot, -, hrefused⟩ | ⟨htakes, t₁, haccepted, -, hmulti⟩
    · exact iff_of_true (hrefused.sameReads ht) hnot
    · refine iff_of_false (fun hsame => ?_) (not_not.mpr htakes)
      have hcount := haccepted.rowCount
      have hrest := rowCount_le_multiSet append ctx rows haccepted.indexed
        (recorded append t.logHandler r.1 log).2
      have hsame := hsame.rowCount
      rw [hmulti] at hsame
      omega

def insertB : Write := ⟨⟨2, 10⟩, { dmlFlag := .dfInsert, rowkey := keyB, rowValue := [2] }⟩

def updateA : Write := ⟨⟨3, 5⟩, { dmlFlag := .dfUpdate, rowkey := keyA, rowValue := [3] }⟩

def updateB : Write := ⟨⟨3, 5⟩, { dmlFlag := .dfUpdate, rowkey := keyB, rowValue := [4] }⟩

theorem stale_updateB : Stale updateB [insertB] ∧ Stale updateB [updateA, insertB] := by
  decide +kernel

theorem not_stale_updateA : ¬ Stale updateA [insertB] := by decide +kernel

/-- The first row is refused. -/
theorem multiSet_atomic_iff_example :
    ∃ t, fresh.set noLog true insertB.ctx insertB.row () = (0, t, ()) ∧
      MultiSetAtomic noLog ⟨3, 5⟩ [(updateB.row, true), (updateA.row, true)] t () := by
  obtain ⟨t, hset, hcontents, -⟩ := set_fresh insertB (by decide)
  refine ⟨t, hset, (multiSet_atomic_iff noLog _ hcontents.represents.indexed ()).mpr (Or.inr ?_)⟩
  rintro r ⟨⟩ ⟨-, hfree⟩
  exact hfree ((blocked_iff_stale hcontents updateB).mpr stale_updateB.1)

/-- The second row is refused, the call returns -1, and the first row stays. -/
theorem refused_multiSet_leaves_row :
    ∃ t t', fresh.set noLog true insertB.ctx insertB.row () = (0, t, ()) ∧
      t.multiSet noLog ⟨3, 5⟩ [(updateA.row, true), (updateB.row, true)] () = (-1, t', ()) ∧
      t.get {} keyA = none ∧ t'.get {} keyA = some updateA.read ∧ t'.rowCount = t.rowCount + 1 ∧
      ¬ MultiSetAtomic noLog ⟨3, 5⟩ [(updateA.row, true), (updateB.row, true)] t () := by
  obtain ⟨t, hset, hcontents, hsame⟩ := set_fresh insertB (by decide)
  obtain ⟨t₁, hfirst, hcontents₁, hsame₁⟩ := set_of_contents hcontents hsame updateA
  rw [if_neg not_stale_updateA] at hfirst hcontents₁
  obtain ⟨t₂, hsecond, hcontents₂, -⟩ := set_of_contents hcontents₁ hsame₁ updateB
  rw [if_pos stale_updateB.2] at hsecond hcontents₂
  have hmulti : t.multiSet noLog ⟨3, 5⟩ [(updateA.row, true), (updateB.row, true)] () =
      (-1, t₂, ()) := by
    simp only [multiSet]
    rw [show t.set noLog true ⟨3, 5⟩ updateA.row () = (0, t₁, ()) from hfirst]
    dsimp only
    rw [if_neg (by decide),
      show t₁.set noLog true ⟨3, 5⟩ updateB.row () = (-1, t₂, ()) from hsecond]
    rfl
  have hcount : t₂.rowCount = t.rowCount + 1 := by
    rw [hcontents₂.rowCount, hcontents.rowCount]
    rfl
  refine ⟨t, t₂, hset, hmulti, ?_, ?_, hcount, fun hatomic => ?_⟩
  · rw [get_of_contents hcontents]
    decide +kernel
  · rw [get_of_contents hcontents₂]
    decide +kernel
  · have hreads := hatomic.1
    rw [hmulti] at hreads
    have hrows : t₂.rowCount = t.rowCount := (hreads (Int.negSucc_ne_zero 0)).rowCount
    omega

end MultiSet

end MemtableIsolation
