import LsmStorage.PalfLogStorage

/-! # The range of block ids under appends and truncations

`min_block_id_` and `max_block_id_` are moved without a look at each other or at the directory.
The statements are about appends at any LSN, contiguous or not. -/
namespace PalfBlockRange

open ByteCodec PosixFiles PalfLogEntry PalfLogStorage LogStorage FileSystem

variable {δ : Type*}

def HasBlock (s : LogStorage δ) (disk : Disk δ) (b : ℕ) : Prop :=
  disk.entry (s.logDir, b) ≠ none

def RangeHolds (s : LogStorage δ) (disk : Disk δ) : Prop :=
  s.minBlockId ≤ s.maxBlockId ∧ ∀ b, s.minBlockId ≤ b → b ≤ s.maxBlockId → HasBlock s disk b

inductive StorageOp where
  | append (io : WriteIo) (lsn : ℕ) (buf : Bytes)
  | truncate (answers : Bool) (lsn : ℕ)
  | truncatePrefixBlocks (lsn : ℕ)

def TakesAll (len : ℕ) : WriteAnswer → Prop
  | .fails => False
  | .short n => len ≤ n
  | .all => True

def StorageOp.lsn : StorageOp → ℕ
  | .append _ lsn _ => lsn
  | .truncate _ lsn => lsn
  | .truncatePrefixBlocks lsn => lsn

variable {s : LogStorage δ}

structure Bounded (size : ℕ) (s : LogStorage δ) : Prop where
  blockSize : s.blockSize = size
  beginLsn : s.minBlockId * size < 2 ^ 64

theorem getBeginLsn_eq {size : ℕ} (h : Bounded size s) :
    s.getBeginLsn = s.minBlockId * size := by
  rw [getBeginLsn, h.blockSize, Nat.mod_eq_of_lt h.beginLsn]

def StepKeeps (s t : LogStorage δ) (disk' : Disk δ) : Prop :=
  RangeHolds t disk' ∧ s.getBeginLsn ≤ t.getBeginLsn

theorem stepKeeps_of_min_eq {t : LogStorage δ} {disk' : Disk δ} (hmin : t.minBlockId = s.minBlockId)
    (hsize : t.blockSize = s.blockSize) :
    StepKeeps s t disk' ↔ RangeHolds t disk' := by
  have hbegin : t.getBeginLsn = s.getBeginLsn := by simp [getBeginLsn, hmin, hsize]
  simp [StepKeeps, hbegin]

variable [DecidableEq δ]

def StorageOp.apply : StorageOp → LogStorage δ → Disk δ → ℤ × LogStorage δ × Disk δ
  | .append io lsn buf, s, disk => s.append io lsn buf disk
  | .truncate answers lsn, s, disk => s.truncate answers lsn disk
  | .truncatePrefixBlocks lsn, s, disk => s.truncatePrefixBlocks lsn disk

theorem hasBlock_unlink_iff (s : LogStorage δ) (disk : Disk δ) (lo n b : ℕ) :
    (((List.range' lo n).map s.blockFilePath).foldl unlink disk).entry
      (s.logDir, b) ≠ none ↔ ¬ (lo ≤ b ∧ b < lo + n) ∧ HasBlock s disk b := by
  have hmem : (s.logDir, b) ∈ (List.range' lo n).map s.blockFilePath ↔ lo ≤ b ∧ b < lo + n := by
    simp [blockFilePath, List.mem_range'_1]
  rw [entry_foldl_unlink]
  by_cases hb : lo ≤ b ∧ b < lo + n
  · simp [hmem, hb]
  · rw [if_neg fun h => hb (hmem.mp h)]
    exact ⟨fun h => ⟨hb, h⟩, And.right⟩

section Append

variable {lsn : ℕ} {buf : Bytes} {s : LogStorage δ}

/-- The kernel takes the whole buffer: the block is open or gets opened, and the `write` behind
the seek is not cut short. -/
def Writes (io : WriteIo) (lsn : ℕ) (buf : Bytes) (s : LogStorage δ) : Prop :=
  s.isInited = true ∧ buf ≠ [] ∧
    (s.curBlockId = lsn2Block lsn s.blockSize → s.curFd ≠ none) ∧
    (s.curBlockId ≠ lsn2Block lsn s.blockSize → io.opens = true) ∧
    io.seeks = true ∧ TakesAll buf.length io.write

omit [DecidableEq δ] in
theorem writeCurrent_eq_zero_iff (s : LogStorage δ) (disk : Disk δ) (fd target offset : ℕ)
    (buf src : Bytes) :
    (s.writeCurrent disk fd target offset buf src).1 = 0 ↔ src.length = buf.length := by
  rw [writeCurrent]
  split
  · next hcut => exact iff_of_false (by simp) hcut
  · next hall => exact iff_of_true rfl (not_not.mp hall)

theorem writes_iff_of_current (io : WriteIo) (disk : Disk δ) (hinit : s.isInited = true)
    (hbuf : buf ≠ []) (hb : s.curBlockId = lsn2Block lsn s.blockSize) :
    Writes io lsn buf s ↔ (s.append io lsn buf disk).1 = 0 := by
  have hlen : buf.length ≠ 0 := fun h => hbuf (List.length_eq_zero_iff.mp h)
  simp only [Writes, LogStorage.append, hinit, hbuf, hlen, hb, Bool.not_true, Bool.false_eq_true,
    ↓reduceIte, ne_eq, not_true_eq_false, not_false_eq_true, true_and, forall_const, false_imp_iff]
  cases s.curFd with
  | none => simp
  | some fd =>
    cases io.seeks with
    | false => simp
    | true => cases io.write <;> simp [TakesAll, writeCurrent_eq_zero_iff]

theorem writes_iff (io : WriteIo) (lsn : ℕ) (buf : Bytes) (s : LogStorage δ) (disk : Disk δ) :
    Writes io lsn buf s ↔ (s.append io lsn buf disk).1 = 0 ∧ buf ≠ [] := by
  cases hinit : s.isInited with
  | false => simp [Writes, LogStorage.append, hinit]
  | true =>
    by_cases hbuf : buf = []
    · simp [Writes, hbuf]
    rw [and_iff_left hbuf]
    by_cases hb : s.curBlockId = lsn2Block lsn s.blockSize
    · exact writes_iff_of_current io disk hinit hbuf hb
    rw [append_of_other hinit hbuf hb]
    have hopened := writes_iff_of_current (s := s.openedAt disk (lsn2Block lsn s.blockSize)) io
      (disk.openCreat (s.blockFilePath (lsn2Block lsn s.blockSize))).2 hinit hbuf rfl
    cases hopens : io.opens with
    | false => simp [Writes, hb, hopens]
    | true =>
      refine Iff.trans ?_ hopened
      simp [Writes, openedAt, hb, hopens]

/-- What an append does to the range and to the names: a block that gets opened gets a file,
and only an append that returns 0 moves `max_block_id_`. -/
structure AppendRange (lsn : ℕ) (buf : Bytes) (s : LogStorage δ) (disk : Disk δ) (ret : ℤ)
    (t : LogStorage δ) (disk' : Disk δ) : Prop where
  logDir : t.logDir = s.logDir
  blockSize : t.blockSize = s.blockSize
  minBlockId : t.minBlockId = s.minBlockId
  kept : ∀ b, HasBlock s disk b → HasBlock s disk' b
  failed : ret ≠ 0 ∨ buf = [] → t.maxBlockId = s.maxBlockId
  written : ret = 0 → buf ≠ [] →
    t.maxBlockId = max s.maxBlockId (lsn2Block lsn s.blockSize) ∧
      ∀ b, HasBlock s disk' b ↔ HasBlock s disk b ∨
        (b = lsn2Block lsn s.blockSize ∧ s.curBlockId ≠ lsn2Block lsn s.blockSize)

omit [DecidableEq δ] in
theorem AppendRange.of_quiet {ret : ℤ} {t : LogStorage δ} {disk disk' : Disk δ}
    (hquiet : ret ≠ 0 ∨ buf = []) (hdir : t.logDir = s.logDir) (hsize : t.blockSize = s.blockSize)
    (hmin : t.minBlockId = s.minBlockId) (hmax : t.maxBlockId = s.maxBlockId)
    (hentry : disk'.entry = disk.entry) : AppendRange lsn buf s disk ret t disk' := by
  refine ⟨hdir, hsize, hmin, fun b hb => ?_, fun _ => hmax, fun h0 hne => ?_⟩
  · rw [HasBlock, hentry]
    exact hb
  · rcases hquiet with h | h
    · exact absurd h0 h
    · exact absurd h hne

theorem hasBlock_openCreat_iff (s : LogStorage δ) (disk : Disk δ) (opened b : ℕ) :
    HasBlock s (disk.openCreat (s.blockFilePath opened)).2 b ↔ HasBlock s disk b ∨ b = opened := by
  rw [HasBlock, entry_openCreat_ne_none_iff, or_comm]
  simp [HasBlock, blockFilePath]

theorem append_range_of_current (io : WriteIo) (disk : Disk δ) (hinit : s.isInited = true)
    (hbuf : buf ≠ []) (hb : s.curBlockId = lsn2Block lsn s.blockSize) :
    ∃ ret t disk', s.append io lsn buf disk = (ret, t, disk') ∧
      AppendRange lsn buf s disk ret t disk' := by
  rcases append_of_current io disk hinit hbuf hb with hfail | ⟨fd, n, -, hw⟩
  · exact ⟨-1, s, disk, hfail, .of_quiet (Or.inl (by decide)) rfl rfl rfl rfl rfl⟩
  · rw [hw, writeCurrent]
    split
    · exact ⟨_, _, _, rfl, .of_quiet (Or.inl (by decide)) rfl rfl rfl rfl rfl⟩
    · refine ⟨_, _, _, rfl, rfl, rfl, rfl, fun _ h => h, ?_, fun _ _ => ⟨?_, ?_⟩⟩
      · rintro (h0 | h0)
        · exact absurd rfl h0
        · exact absurd h0 hbuf
      · dsimp only
        split <;> omega
      · intro b
        simp [HasBlock, hb]

theorem append_range (io : WriteIo) (lsn : ℕ) (buf : Bytes) (s : LogStorage δ) (disk : Disk δ) :
    ∃ ret t disk', s.append io lsn buf disk = (ret, t, disk') ∧
      AppendRange lsn buf s disk ret t disk' := by
  cases hinit : s.isInited with
  | false =>
    exact ⟨-1, s, disk, by simp [LogStorage.append, hinit],
      .of_quiet (Or.inl (by decide)) rfl rfl rfl rfl rfl⟩
  | true =>
    by_cases hbuf : buf = []
    · exact ⟨0, s, disk, by simp [LogStorage.append, hinit, hbuf],
        .of_quiet (Or.inr hbuf) rfl rfl rfl rfl rfl⟩
    by_cases hb : s.curBlockId = lsn2Block lsn s.blockSize
    · exact append_range_of_current io disk hinit hbuf hb
    rw [append_of_other hinit hbuf hb]
    cases io.opens with
    | false =>
      exact ⟨-1, s.closed, disk, rfl, .of_quiet (Or.inl (by decide)) rfl rfl rfl rfl rfl⟩
    | true =>
      have hopened := hasBlock_openCreat_iff s disk (lsn2Block lsn s.blockSize)
      have hcur : (s.openedAt disk (lsn2Block lsn s.blockSize)).curBlockId =
          lsn2Block lsn s.blockSize := rfl
      obtain ⟨ret, t, disk', happ, ha⟩ := append_range_of_current
        (s := s.openedAt disk (lsn2Block lsn s.blockSize)) io
        (disk.openCreat (s.blockFilePath (lsn2Block lsn s.blockSize))).2 hinit hbuf hcur
      refine ⟨ret, t, disk', happ, ha.logDir, ha.blockSize, ha.minBlockId, ?_, ha.failed, ?_⟩
      · intro b hhas
        exact ha.kept b ((hopened b).mpr (Or.inl hhas))
      · intro h0 hne
        obtain ⟨hmax, hblocks⟩ := ha.written h0 hne
        refine ⟨hmax, fun b => (hblocks b).trans ?_⟩
        constructor
        · rintro (hhas | ⟨-, hnot⟩)
          · exact ((hopened b).mp hhas).imp_right fun h => ⟨h, hb⟩
          · exact absurd rfl hnot
        · rintro (hhas | ⟨h, -⟩)
          · exact Or.inl ((hopened b).mpr (Or.inl hhas))
          · exact Or.inl ((hopened b).mpr (Or.inr h))

end Append

/-- When the operation keeps the range. A prefix truncation has to stay within it. A truncation
that finds its block must not lie before it, and there must be no gap up to its block. An append
that opens the range further must leave no gap either, and its own file must not have been
unlinked while it was open. -/
def StepOk (s : LogStorage δ) (disk : Disk δ) : StorageOp → Prop
  | .append io lsn buf =>
    Writes io lsn buf s → s.maxBlockId < lsn2Block lsn s.blockSize →
      (∀ b, s.maxBlockId < b → b < lsn2Block lsn s.blockSize → HasBlock s disk b) ∧
        (s.curBlockId = lsn2Block lsn s.blockSize → HasBlock s disk (lsn2Block lsn s.blockSize))
  | .truncate answers lsn =>
    answers = true → HasBlock s disk (lsn2Block lsn s.blockSize) →
      s.minBlockId ≤ lsn2Block lsn s.blockSize ∧
        ∀ b, s.maxBlockId < b → b < lsn2Block lsn s.blockSize → HasBlock s disk b
  | .truncatePrefixBlocks lsn =>
    s.minBlockId ≤ lsn2Block lsn s.blockSize ∧ lsn2Block lsn s.blockSize ≤ s.maxBlockId

section Step

variable {size lsn : ℕ} {s : LogStorage δ} {disk : Disk δ}

theorem append_keeps_iff (hr : RangeHolds s disk) (io : WriteIo) (lsn : ℕ) (buf : Bytes) :
    StepKeeps s (s.append io lsn buf disk).2.1 (s.append io lsn buf disk).2.2 ↔
      StepOk s disk (.append io lsn buf) := by
  obtain ⟨ret, t, disk', happ, ha⟩ := append_range io lsn buf s disk
  simp only [StepOk, writes_iff io lsn buf s disk, happ, and_imp]
  rw [stepKeeps_of_min_eq ha.minBlockId ha.blockSize]
  simp only [RangeHolds, HasBlock, ha.logDir, ha.minBlockId]
  by_cases hquiet : ret ≠ 0 ∨ buf = []
  · rw [ha.failed hquiet]
    refine iff_of_true ⟨hr.1, fun b hlo hhi => ha.kept b (hr.2 b hlo hhi)⟩ ?_
    intro h0 hne
    rcases hquiet with h | h
    · exact absurd h0 h
    · exact absurd h hne
  push Not at hquiet
  obtain ⟨h0, hne⟩ := hquiet
  obtain ⟨hmax, hblocks⟩ := ha.written h0 hne
  rw [hmax]
  by_cases hbeyond : s.maxBlockId < lsn2Block lsn s.blockSize
  · rw [max_eq_right hbeyond.le]
    constructor
    · rintro ⟨-, hall⟩ - - -
      have hmin := hr.1
      refine ⟨fun b hlo hhi => ?_, fun hcur => ?_⟩
      · rcases (hblocks b).mp (hall b (by omega) hhi.le) with hhas | ⟨rfl, -⟩
        · exact hhas
        · exact absurd hhi (lt_irrefl _)
      · rcases (hblocks _).mp (hall _ (by omega) le_rfl) with hhas | ⟨-, hnot⟩
        · exact hhas
        · exact absurd hcur hnot
    · intro hok
      obtain ⟨hgap, hown⟩ := hok h0 hne hbeyond
      refine ⟨hr.1.trans hbeyond.le, fun b hlo hhi => (hblocks b).mpr ?_⟩
      by_cases hin : b ≤ s.maxBlockId
      · exact Or.inl (hr.2 b hlo hin)
      by_cases hb : b = lsn2Block lsn s.blockSize
      · by_cases hcur : s.curBlockId = lsn2Block lsn s.blockSize
        · exact Or.inl (hb ▸ hown hcur)
        · exact Or.inr ⟨hb, hcur⟩
      · exact Or.inl (hgap b (by omega) (by omega))
  · rw [max_eq_left (not_lt.mp hbeyond)]
    exact iff_of_true ⟨hr.1, fun b hlo hhi => ha.kept b (hr.2 b hlo hhi)⟩
      fun _ _ h => absurd h hbeyond

theorem truncate_keeps_iff (hr : RangeHolds s disk) (answers : Bool) (lsn : ℕ) :
    StepKeeps s (s.truncate answers lsn disk).2.1 (s.truncate answers lsn disk).2.2 ↔
      StepOk s disk (.truncate answers lsn) := by
  have hsame : StepKeeps s s disk := ⟨hr, le_rfl⟩
  simp only [StepOk, truncate]
  cases hentry : disk.entry (s.blockFilePath (lsn2Block lsn s.blockSize)) with
  | none => exact iff_of_true hsame fun _ hhas => absurd hentry hhas
  | some fd =>
    cases answers with
    | false => exact iff_of_true hsame fun h => absurd h Bool.false_ne_true
    | true =>
      have hhas : HasBlock s disk (lsn2Block lsn s.blockSize) := by
        intro hnone
        cases hentry.symm.trans hnone
      have hkept := hasBlock_unlink_iff s
        (disk.modify fd fun f => f.truncate (lsn2Offset lsn s.blockSize + maxInfoBlockSize))
        (lsn2Block lsn s.blockSize + 1) (s.maxBlockId - lsn2Block lsn s.blockSize)
      refine (stepKeeps_of_min_eq rfl rfl).trans ?_
      constructor
      · rintro ⟨hle, hall⟩ - -
        refine ⟨hle, fun b hlo hhi => ?_⟩
        exact ((hkept b).mp (hall b (hr.1.trans hlo.le) hhi.le)).2
      · intro hok
        obtain ⟨hle, hgap⟩ := hok rfl hhas
        refine ⟨hle, fun b hlo hhi => (hkept b).mpr ⟨fun h => ?_, ?_⟩⟩
        · exact absurd h.1 (not_le.mpr (Nat.lt_succ_of_le hhi))
        by_cases hin : b ≤ s.maxBlockId
        · exact hr.2 b hlo hin
        rcases Nat.lt_or_eq_of_le hhi with hlt | heq
        · exact hgap b (not_le.mp hin) hlt
        · exact (congrArg (HasBlock s disk) heq).mpr hhas

theorem truncatePrefixBlocks_keeps_iff (hsize : 0 < size) (hs : Bounded size s)
    (hr : RangeHolds s disk) (ht : Bounded size (s.truncatePrefixBlocks lsn disk).2.1) :
    StepKeeps s (s.truncatePrefixBlocks lsn disk).2.1 (s.truncatePrefixBlocks lsn disk).2.2 ↔
      StepOk s disk (.truncatePrefixBlocks lsn) := by
  have hbegin : s.getBeginLsn ≤ (s.truncatePrefixBlocks lsn disk).2.1.getBeginLsn ↔
      s.minBlockId ≤ lsn2Block lsn s.blockSize := by
    rw [getBeginLsn_eq hs, getBeginLsn_eq ht, Nat.mul_le_mul_right_iff hsize]
    rfl
  have hkept := hasBlock_unlink_iff s disk s.minBlockId
    (lsn2Block lsn s.blockSize - s.minBlockId)
  rw [StepKeeps, hbegin]
  constructor
  · rintro ⟨⟨hle, -⟩, hlow⟩
    exact ⟨hlow, hle⟩
  · rintro ⟨hlow, hle⟩
    refine ⟨⟨hle, fun b hlo hhi => (hkept b).mpr ⟨fun h => ?_, hr.2 b (hlow.trans hlo) hhi⟩⟩, hlow⟩
    have hlo' : lsn2Block lsn s.blockSize ≤ b := hlo
    omega

end Step

theorem bounded_apply {size : ℕ} (disk : Disk δ) {op : StorageOp} (hs : Bounded size s)
    (hlsn : op.lsn < 2 ^ 64) : Bounded size (op.apply s disk).2.1 := by
  cases op with
  | append io lsn buf =>
    obtain ⟨ret, t, disk', happ, ha⟩ := append_range io lsn buf s disk
    simp only [StorageOp.apply, happ]
    exact ⟨ha.blockSize.trans hs.blockSize, by rw [ha.minBlockId]; exact hs.beginLsn⟩
  | truncate answers lsn =>
    simp only [StorageOp.apply, truncate]
    cases disk.entry (s.blockFilePath (lsn2Block lsn s.blockSize)) with
    | none => exact hs
    | some fd => cases answers <;> exact ⟨hs.blockSize, hs.beginLsn⟩
  | truncatePrefixBlocks lsn =>
    refine ⟨hs.blockSize, lt_of_le_of_lt ?_ hlsn⟩
    simp only [StorageOp.apply, truncatePrefixBlocks, hs.blockSize, lsn2Block]
    exact Nat.div_mul_le_self lsn size

theorem apply_keeps_iff {size : ℕ} {disk : Disk δ} {op : StorageOp} (hsize : 0 < size)
    (hs : Bounded size s) (hr : RangeHolds s disk) (hlsn : op.lsn < 2 ^ 64) :
    StepKeeps s (op.apply s disk).2.1 (op.apply s disk).2.2 ↔ StepOk s disk op := by
  have ht := bounded_apply disk hs hlsn
  cases op with
  | append io lsn buf => exact append_keeps_iff hr io lsn buf
  | truncate answers lsn => exact truncate_keeps_iff hr answers lsn
  | truncatePrefixBlocks lsn => exact truncatePrefixBlocks_keeps_iff hsize hs hr ht

def KeepsRange : List StorageOp → LogStorage δ → Disk δ → Prop
  | [], _, _ => True
  | op :: ops, s, disk =>
    StepKeeps s (op.apply s disk).2.1 (op.apply s disk).2.2 ∧
      KeepsRange ops (op.apply s disk).2.1 (op.apply s disk).2.2

def StepsOk : List StorageOp → LogStorage δ → Disk δ → Prop
  | [], _, _ => True
  | op :: ops, s, disk =>
    StepOk s disk op ∧ StepsOk ops (op.apply s disk).2.1 (op.apply s disk).2.2

theorem keepsRange_iff {size : ℕ} (hsize : 0 < size) {ops : List StorageOp} {disk : Disk δ}
    (hs : Bounded size s) (hr : RangeHolds s disk) (hlsn : ∀ op ∈ ops, op.lsn < 2 ^ 64) :
    KeepsRange ops s disk ↔ StepsOk ops s disk := by
  induction ops generalizing s disk with
  | nil => exact Iff.rfl
  | cons op ops ih =>
    obtain ⟨hop, hrest⟩ := List.forall_mem_cons.mp hlsn
    have hstep := apply_keeps_iff hsize hs hr hop
    have hs' := bounded_apply disk hs hop
    constructor
    · rintro ⟨hkeeps, hnext⟩
      exact ⟨hstep.mp hkeeps, (ih hs' hkeeps.1 hrest).mp hnext⟩
    · rintro ⟨hok, hnext⟩
      have hkeeps := hstep.mpr hok
      exact ⟨hkeeps, (ih hs' hkeeps.1 hrest).mpr hnext⟩

/-- A storage opened on any directory: the range holds at the start, and a sequence of appends
and truncations keeps it and the first LSN exactly when each of them is taken in a state that
allows it. -/
theorem block_range_kept_iff (dir : δ) {size : ℕ} (hsize : 1 < size) (disk : Disk δ)
    {ops : List StorageOp} (hlsn : ∀ op ∈ ops, op.lsn < 2 ^ 64) :
    ∃ s disk₀,
      (∃ k, ∀ fuel, k ≤ fuel →
        LogStorage.init fuel { logDir := dir } dir size disk = some (0, s, disk₀)) ∧
      RangeHolds s disk₀ ∧ (KeepsRange ops s disk₀ ↔ StepsOk ops s disk₀) := by
  obtain ⟨s, disk₀, hinit, ho⟩ := init_opens dir size disk
  have hr : RangeHolds s disk₀ := ⟨by simp [ho.minBlockId], fun b _ hhi => ho.present b hhi⟩
  have hs : Bounded size s := ⟨ho.blockSize, by simp [ho.minBlockId]⟩
  exact ⟨s, disk₀, hinit, hr, keepsRange_iff (Nat.zero_lt_of_lt hsize) hs hr hlsn⟩

theorem range_of_blank {s : LogStorage Unit} {disk₀ : Disk Unit}
    (hinit : ∃ k, ∀ fuel, k ≤ fuel →
      LogStorage.init fuel { logDir := () } () 16 FileSystem.blank = some (0, s, disk₀)) :
    s.blockSize = 16 ∧ s.minBlockId = 0 ∧ s.maxBlockId = 0 := by
  obtain ⟨k, hk⟩ := hinit
  have hformat : LogStorage.init (k + 1) { logDir := () } () 16 FileSystem.blank = _ :=
    init_of_no_first_block 16 rfl rfl (Nat.le_add_left 1 k)
  have hsame := (hk (k + 1) (Nat.le_succ k)).symm.trans hformat
  obtain rfl := (Prod.mk.inj (Prod.mk.inj (Option.some.inj hsame)).2).1
  exact ⟨rfl, rfl, rfl⟩

/-- Both truncations inside the only block. -/
theorem block_range_kept_iff_example :
    ∃ (s : LogStorage Unit) (disk₀ : Disk Unit),
      RangeHolds s disk₀ ∧ KeepsRange [.truncatePrefixBlocks 5, .truncate true 1] s disk₀ := by
  have hlsn : ∀ op ∈ [StorageOp.truncatePrefixBlocks 5, .truncate true 1], op.lsn < 2 ^ 64 := by
    decide
  obtain ⟨s, disk₀, hinit, hr, hiff⟩ :=
    block_range_kept_iff () (show 1 < 16 by decide) blank hlsn
  obtain ⟨hsize, hmin, hmax⟩ := range_of_blank hinit
  refine ⟨s, disk₀, hr, hiff.mpr ⟨?_, ?_, trivial⟩⟩
  · simp [StepOk, hmin, hsize, lsn2Block]
  · intro _ _
    simp [StorageOp.apply, truncatePrefixBlocks, hsize, lsn2Block]

/-- After one append the log is cut behind its end: the range is empty. -/
theorem truncation_empties_range :
    ∃ (s : LogStorage Unit) (disk₀ : Disk Unit),
      (∃ k, ∀ fuel, k ≤ fuel →
        LogStorage.init fuel { logDir := () } () 16 FileSystem.blank = some (0, s, disk₀)) ∧
      ¬ KeepsRange [.append .faithful 0 [7], .truncatePrefixBlocks 80] s disk₀ := by
  obtain ⟨s, disk₀, hinit, -⟩ := init_opens () 16 (blank : Disk Unit)
  obtain ⟨hsize, -, hmax⟩ := range_of_blank hinit
  refine ⟨s, disk₀, hinit, ?_⟩
  rintro ⟨-, ⟨⟨hle, -⟩, -⟩, -⟩
  obtain ⟨ret, t, disk', happ, ha⟩ := append_range .faithful 0 [7] s disk₀
  have htmax : t.maxBlockId = 0 := by
    by_cases h0 : ret = 0
    · rw [(ha.written h0 (by simp)).1, hmax, lsn2Block, Nat.zero_div, max_self]
    · rw [ha.failed (Or.inl h0), hmax]
  simp [StorageOp.apply, truncatePrefixBlocks, happ, htmax, ha.blockSize, hsize,
    lsn2Block] at hle

end PalfBlockRange
