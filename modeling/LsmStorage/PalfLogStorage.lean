import LsmStorage.PosixFiles
import LsmStorage.BoundedLoop
import LsmStorage.PalfLogEntry

/-! # LogStorage: block files under a log directory

A block file is named by its directory and block id. Reads stop at the block boundary;
an append writes its whole buffer into the file of the block its LSN falls in. -/
namespace PalfLogStorage

open ByteCodec PosixFiles PalfLogEntry BoundedLoop FileSystem

variable {δ : Type*}

abbrev Disk (δ : Type*) := FileSystem (δ × ℕ)

structure LogStorage (δ : Type*) where
  logDir : δ
  blockSize : ℕ := palfBlockSize
  curFd : Option ℕ := none
  curBlockId : ℕ := logInvalidBlockId
  maxBlockId : ℕ := logInvalidBlockId
  minBlockId : ℕ := logInvalidBlockId
  isInited : Bool := false

/-- How the kernel answers one `write`. -/
inductive WriteAnswer where
  | fails
  | short (n : ℕ)
  | all
  deriving DecidableEq, Repr

structure WriteIo where
  opens : Bool
  seeks : Bool
  write : WriteAnswer
  deriving DecidableEq, Repr

def WriteIo.faithful : WriteIo := ⟨true, true, .all⟩

namespace LogStorage

def blockFilePath (s : LogStorage δ) (id : ℕ) : δ × ℕ := (s.logDir, id)

def getBeginLsn (s : LogStorage δ) : ℕ := s.minBlockId * s.blockSize % 2 ^ 64

def getBlockIdRange (s : LogStorage δ) : ℕ × ℕ := (s.minBlockId, s.maxBlockId)

/-- One turn of the `stat` loop: next id, `min_block_id_`, `max_block_id_`. -/
def statTurn (s : LogStorage δ) (disk : Disk δ) :
    ℕ × ℕ × ℕ → Turn (ℕ × ℕ × ℕ) (ℕ × ℕ)
  | (id, lo, hi) =>
    if (disk.entry (s.blockFilePath id)).isSome then
      .again (id + 1, if lo = logInvalidBlockId then id else lo, id)
    else .stop (lo, hi)

/-- The tail of `append`: the kernel accepts `src`, a prefix of the buffer. -/
def writeCurrent (s : LogStorage δ) (disk : Disk δ) (fd target offset : ℕ) (buf src : Bytes) :
    ℤ × LogStorage δ × Disk δ :=
  let disk := disk.modify fd fun f => f.pwrite (offset + maxInfoBlockSize) src
  if src.length ≠ buf.length then (-1, s, disk)
  else (0, { s with maxBlockId := if s.maxBlockId < target then target else s.maxBlockId }, disk)

/-- `none` is the return code `-1`; otherwise `out_read_size` is the length. -/
def read (s : LogStorage δ) (disk : Disk δ) (lsn inReadSize bufLen : ℕ) : Option Bytes :=
  if !s.isInited then none
  else
    let target := lsn2Block lsn s.blockSize
    let offset := lsn2Offset lsn s.blockSize
    match disk.file? (s.blockFilePath target) with
    | none => none
    | some f =>
      let toRead := if inReadSize > bufLen then bufLen else inReadSize
      let toRead := if offset + toRead > s.blockSize then s.blockSize - offset else toRead
      some (f.pread (offset + maxInfoBlockSize) toRead)

def FdCurrent (s : LogStorage δ) (disk : Disk δ) : Prop :=
  ∀ fd, s.curFd = some fd → disk.entry (s.blockFilePath s.curBlockId) = some fd

structure Appended (lsn : ℕ) (buf : Bytes) (s : LogStorage δ) (disk : Disk δ)
    (t : LogStorage δ) (disk' : Disk δ) : Prop where
  logDir : t.logDir = s.logDir
  blockSize : t.blockSize = s.blockSize
  minBlockId : t.minBlockId = s.minBlockId
  isInited : t.isInited = true
  curFd : t.curFd ≠ none
  fdCurrent : t.FdCurrent disk'
  written : disk'.file? (s.blockFilePath (lsn2Block lsn s.blockSize)) =
    some (((disk.file? (s.blockFilePath (lsn2Block lsn s.blockSize))).getD .empty).pwrite
      (lsn2Offset lsn s.blockSize + maxInfoBlockSize) buf)
  others : ∀ p, p ≠ s.blockFilePath (lsn2Block lsn s.blockSize) → disk'.file? p = disk.file? p

/-- Blocks `0 .. n` exist and block `n + 1` does not: what the `stat` loop finds. -/
def BlocksUpTo (s : LogStorage δ) (disk : Disk δ) (n : ℕ) : Prop :=
  (∀ b, b ≤ n → disk.entry (s.blockFilePath b) ≠ none) ∧
    disk.entry (s.blockFilePath (n + 1)) = none

variable {s : LogStorage δ} {disk : Disk δ}

theorem BlocksUpTo.of_logDir_eq {t : LogStorage δ} {n : ℕ} (h : s.BlocksUpTo disk n)
    (hdir : t.logDir = s.logDir) : t.BlocksUpTo disk n := by
  unfold BlocksUpTo blockFilePath at h ⊢
  rw [hdir]
  exact h

theorem exists_blocksUpTo (hfirst : disk.entry (s.blockFilePath 0) ≠ none) :
    ∃ n, s.BlocksUpTo disk n := by
  classical
  have hgap : ∃ n, disk.entry (s.blockFilePath n) = none :=
    disk.exists_entry_eq_none fun _ _ h => (Prod.mk.inj h).2
  have hpos : Nat.find hgap ≠ 0 := by
    intro hz
    exact hfirst (hz ▸ Nat.find_spec hgap)
  obtain ⟨n, hn⟩ := Nat.exists_eq_succ_of_ne_zero hpos
  refine ⟨n, fun b hb => Nat.find_min hgap (by omega), ?_⟩
  have hspec := Nat.find_spec hgap
  rwa [hn] at hspec

private theorem stat_rest {n : ℕ} (h : s.BlocksUpTo disk n) (k id : ℕ) (hk : id + k = n) :
    Yields (s.statTurn disk) (id + 1, 0, id) (0, n) := by
  induction k generalizing id with
  | zero =>
    obtain rfl : id = n := by omega
    exact yields_stop (by simp [statTurn, h.2])
  | succ k ih =>
    have hs := Option.isSome_iff_ne_none.mpr (h.1 (id + 1) (by omega))
    have hz : (0 : ℕ) ≠ logInvalidBlockId := by decide
    refine yields_again ?_ (ih (id + 1) (by omega))
    simp [statTurn, hs, hz]

theorem stat_yields {n : ℕ} (h : s.BlocksUpTo disk n) :
    Yields (s.statTurn disk) (0, logInvalidBlockId, logInvalidBlockId) (0, n) := by
  have hs := Option.isSome_iff_ne_none.mpr (h.1 0 (by omega))
  exact yields_again (by simp [statTurn, hs]) (stat_rest h n 0 (by omega))

variable [DecidableEq δ]

def createNextBlock (s : LogStorage δ) (disk : Disk δ) : LogStorage δ × Disk δ :=
  let next := (s.maxBlockId + 1) % 2 ^ 64
  let (fd, disk) := disk.openCreat (s.blockFilePath next)
  ({ s with maxBlockId := next }, disk.modify fd fun _ => File.empty.truncate palfPhyBlockSize)

/-- The previous descriptor is closed first, so a failed open leaves none. -/
def openBlock (opens : Bool) (id : ℕ) (s : LogStorage δ) (disk : Disk δ) :
    ℤ × LogStorage δ × Disk δ :=
  if opens then
    let (fd, disk) := disk.openCreat (s.blockFilePath id)
    (0, { s with curFd := some fd, curBlockId := id }, disk)
  else (-1, { s with curFd := none, curBlockId := logInvalidBlockId }, disk)

/-- `none` when the budget is too small for the `stat` loop. -/
def init (fuel : ℕ) (s : LogStorage δ) (logDir : δ) (blockSize : ℕ) (disk : Disk δ) :
    Option (ℤ × LogStorage δ × Disk δ) :=
  if s.isInited then some (-1, s, disk)
  else
    let s := { s with logDir := logDir, blockSize := blockSize }
    match run (s.statTurn disk) fuel (0, logInvalidBlockId, logInvalidBlockId) with
    | none => none
    | some (lo, hi) =>
      if lo = logInvalidBlockId then
        let (s, disk) := createNextBlock { s with minBlockId := 0, maxBlockId := 2 ^ 64 - 1 } disk
        let (ret, s, disk) := s.openBlock true 0 disk
        if ret ≠ 0 then some (ret, s, disk)
        else some (0, { s with isInited := true }, disk)
      else some (0, { s with minBlockId := lo, maxBlockId := hi, isInited := true }, disk)

def append (io : WriteIo) (lsn : ℕ) (buf : Bytes) (s : LogStorage δ) (disk : Disk δ) :
    ℤ × LogStorage δ × Disk δ :=
  if !s.isInited then (-1, s, disk)
  else if buf.length = 0 then (0, s, disk)
  else
    let target := lsn2Block lsn s.blockSize
    let offset := lsn2Offset lsn s.blockSize
    let (ret, s, disk) :=
      if s.curBlockId ≠ target then s.openBlock io.opens target disk else (0, s, disk)
    if ret ≠ 0 then (ret, s, disk)
    else
      match s.curFd with
      | none => (-1, s, disk)
      | some fd =>
        if !io.seeks then (-1, s, disk)
        else
          match io.write with
          | .fails => (-1, s, disk)
          | .short n => s.writeCurrent disk fd target offset buf (buf.take n)
          | .all => s.writeCurrent disk fd target offset buf buf

/-- Cuts the block of `lsn` and removes the later ones up to `max_block_id_`. `answers` is
what `open` and `ftruncate` make of a file that exists. -/
def truncate (answers : Bool) (lsn : ℕ) (s : LogStorage δ) (disk : Disk δ) :
    ℤ × LogStorage δ × Disk δ :=
  let block := lsn2Block lsn s.blockSize
  let offset := lsn2Offset lsn s.blockSize
  match disk.entry (s.blockFilePath block) with
  | none => (-1, s, disk)
  | some fd =>
    if !answers then (-1, s, disk)
    else
      let disk := disk.modify fd fun f => f.truncate (offset + maxInfoBlockSize)
      let ids := List.range' (block + 1) (s.maxBlockId - block)
      (0, { s with maxBlockId := block }, (ids.map s.blockFilePath).foldl unlink disk)

/-- The files of the blocks before the one of `lsn` are removed; nothing is written down. -/
def truncatePrefixBlocks (lsn : ℕ) (s : LogStorage δ) (disk : Disk δ) :
    ℤ × LogStorage δ × Disk δ :=
  let block := lsn2Block lsn s.blockSize
  let ids := List.range' s.minBlockId (block - s.minBlockId)
  (0, { s with minBlockId := block }, (ids.map s.blockFilePath).foldl unlink disk)

def openedAt (s : LogStorage δ) (disk : Disk δ) (target : ℕ) : LogStorage δ :=
  { s with curFd := some (disk.openCreat (s.blockFilePath target)).1, curBlockId := target }

def closed (s : LogStorage δ) : LogStorage δ :=
  { s with curFd := none, curBlockId := logInvalidBlockId }

section Append

variable {io : WriteIo} {lsn : ℕ} {buf : Bytes} {s t : LogStorage δ} {disk disk' : Disk δ}

theorem append_of_current (io : WriteIo) (disk : Disk δ) (hinit : s.isInited = true)
    (hbuf : buf ≠ []) (hb : s.curBlockId = lsn2Block lsn s.blockSize) :
    append io lsn buf s disk = (-1, s, disk) ∨
      ∃ fd n, s.curFd = some fd ∧ append io lsn buf s disk = s.writeCurrent disk fd
        (lsn2Block lsn s.blockSize) (lsn2Offset lsn s.blockSize) buf (buf.take n) := by
  have hlen : buf.length ≠ 0 := fun h => hbuf (List.length_eq_zero_iff.mp h)
  simp only [append, hinit, hlen, hb, Bool.not_true, Bool.false_eq_true, ↓reduceIte, ne_eq,
    not_true_eq_false]
  cases s.curFd with
  | none => exact Or.inl rfl
  | some fd =>
    cases io.seeks
    · exact Or.inl rfl
    cases io.write with
    | fails => exact Or.inl rfl
    | short n => exact Or.inr ⟨fd, n, rfl, rfl⟩
    | all => exact Or.inr ⟨fd, buf.length, rfl, by rw [List.take_length]; rfl⟩

theorem append_of_other (hinit : s.isInited = true) (hbuf : buf ≠ [])
    (hb : s.curBlockId ≠ lsn2Block lsn s.blockSize) :
    append io lsn buf s disk =
      if io.opens then
        append io lsn buf (s.openedAt disk (lsn2Block lsn s.blockSize))
          (disk.openCreat (s.blockFilePath (lsn2Block lsn s.blockSize))).2
      else (-1, s.closed, disk) := by
  have hlen : buf.length ≠ 0 := fun h => hbuf (List.length_eq_zero_iff.mp h)
  cases ho : io.opens <;>
    simp [append, openBlock, openedAt, closed, hinit, hlen, hb, ho]

theorem fdCurrent_openedAt (s : LogStorage δ) (disk : Disk δ) (target : ℕ) :
    (s.openedAt disk target).FdCurrent (disk.openCreat (s.blockFilePath target)).2 := by
  intro fd hfd
  rw [← hfd]
  exact entry_openCreat_self _ _

/-- An append that returns 0 has written the whole buffer, also across the end of the block,
into the file of the block its LSN starts in. -/
theorem appended_of_current (hinit : s.isInited = true) (hbuf : buf ≠ [])
    (hcur : s.FdCurrent disk) (hb : s.curBlockId = lsn2Block lsn s.blockSize)
    (happ : append io lsn buf s disk = (0, t, disk')) : Appended lsn buf s disk t disk' := by
  rcases append_of_current io disk hinit hbuf hb with hfail | ⟨fd, n, hfd, hw⟩
  · cases hfail.symm.trans happ
  have hentry := hcur fd hfd
  rw [hb] at hentry
  rw [hw] at happ
  simp only [writeCurrent] at happ
  split at happ
  · cases happ
  next hall =>
  have htake : buf.take n = buf := by
    have hprefix := List.take_prefix n buf
    exact hprefix.eq_of_length (not_not.mp hall)
  rw [htake, Prod.mk.injEq, Prod.mk.injEq] at happ
  obtain ⟨-, rfl, rfl⟩ := happ
  constructor
  · rfl
  · rfl
  · rfl
  · exact hinit
  · simp [hfd]
  · exact hcur
  · rw [file?_modify_self hentry]
    simp [file?, hentry]
  · intro p hp
    rw [file?_modify_of_ne hentry hp]

theorem appended_of_append (hinit : s.isInited = true) (hbuf : buf ≠ [])
    (hcur : s.FdCurrent disk) (happ : append io lsn buf s disk = (0, t, disk')) :
    Appended lsn buf s disk t disk' := by
  by_cases hb : s.curBlockId = lsn2Block lsn s.blockSize
  · exact appended_of_current hinit hbuf hcur hb happ
  rw [append_of_other hinit hbuf hb] at happ
  split at happ
  swap
  · cases happ
  have ha := appended_of_current (s := s.openedAt disk (lsn2Block lsn s.blockSize)) hinit hbuf
    (fdCurrent_openedAt s disk _) rfl happ
  constructor
  · exact ha.logDir
  · exact ha.blockSize
  · exact ha.minBlockId
  · exact ha.isInited
  · exact ha.curFd
  · exact ha.fdCurrent
  · have hwritten := ha.written
    simp only [openedAt, blockFilePath] at hwritten ⊢
    rw [hwritten, file?_openCreat_self, Option.getD_some]
  · intro p hp
    rw [ha.others p hp, file?_openCreat_of_ne _ hp]

structure Keeps (s t : LogStorage δ) (disk' : Disk δ) : Prop where
  logDir : t.logDir = s.logDir
  blockSize : t.blockSize = s.blockSize
  minBlockId : t.minBlockId = s.minBlockId
  isInited : t.isInited = s.isInited
  fdCurrent : t.FdCurrent disk'
  closed : t.curFd = none → t.curBlockId = logInvalidBlockId

theorem keeps_of_current (io : WriteIo) (hinit : s.isInited = true) (hbuf : buf ≠ [])
    (hcur : s.FdCurrent disk) (hclosed : s.curFd = none → s.curBlockId = logInvalidBlockId)
    (hb : s.curBlockId = lsn2Block lsn s.blockSize) :
    Keeps s (append io lsn buf s disk).2.1 (append io lsn buf s disk).2.2 := by
  rcases append_of_current io disk hinit hbuf hb with hfail | ⟨fd, n, hfd, hw⟩
  · rw [hfail]
    exact ⟨rfl, rfl, rfl, rfl, hcur, hclosed⟩
  · rw [hw, writeCurrent]
    split
    · exact ⟨rfl, rfl, rfl, rfl, hcur, hclosed⟩
    · exact ⟨rfl, rfl, rfl, rfl, hcur, hclosed⟩

theorem append_keeps (io : WriteIo) (lsn : ℕ) (buf : Bytes) (hcur : s.FdCurrent disk)
    (hclosed : s.curFd = none → s.curBlockId = logInvalidBlockId) :
    Keeps s (append io lsn buf s disk).2.1 (append io lsn buf s disk).2.2 := by
  have hsame : Keeps s s disk := ⟨rfl, rfl, rfl, rfl, hcur, hclosed⟩
  cases hinit : s.isInited with
  | false => simpa [append, hinit] using hsame
  | true =>
    by_cases hbuf : buf = []
    · simpa [append, hinit, hbuf] using hsame
    by_cases hb : s.curBlockId = lsn2Block lsn s.blockSize
    · exact keeps_of_current io hinit hbuf hcur hclosed hb
    rw [append_of_other hinit hbuf hb]
    split
    · have hkeeps := keeps_of_current (s := s.openedAt disk (lsn2Block lsn s.blockSize)) io hinit
        hbuf (fdCurrent_openedAt s disk _) (by simp [openedAt]) rfl
      exact ⟨hkeeps.logDir, hkeeps.blockSize, hkeeps.minBlockId, hkeeps.isInited,
        hkeeps.fdCurrent, hkeeps.closed⟩
    · refine ⟨rfl, rfl, rfl, rfl, ?_, fun _ => rfl⟩
      intro fd hfd
      cases hfd

end Append

theorem append_faithful (lsn : ℕ) {buf : Bytes} (hinit : s.isInited = true) (hbuf : buf ≠ [])
    (hcur : s.FdCurrent disk) (hfd : s.curBlockId = lsn2Block lsn s.blockSize → s.curFd ≠ none) :
    ∃ t disk', append .faithful lsn buf s disk = (0, t, disk') ∧
      Appended lsn buf s disk t disk' := by
  have hlen : buf.length ≠ 0 := fun h => hbuf (List.length_eq_zero_iff.mp h)
  have hzero : (append .faithful lsn buf s disk).1 = 0 := by
    by_cases hb : s.curBlockId = lsn2Block lsn s.blockSize
    · obtain ⟨fd, hfd⟩ := Option.ne_none_iff_exists'.mp (hfd hb)
      simp [append, hinit, hlen, hb, hfd, WriteIo.faithful, writeCurrent]
    · simp [append, hinit, hlen, hb, openBlock, WriteIo.faithful, writeCurrent]
  generalize happ : append .faithful lsn buf s disk = r at hzero
  obtain ⟨ret, t, disk'⟩ := r
  obtain rfl := hzero
  exact ⟨t, disk', rfl, appended_of_append hinit hbuf hcur happ⟩

structure Formatted (dir : δ) (size : ℕ) (disk : Disk δ) (t : LogStorage δ)
    (disk' : Disk δ) : Prop where
  logDir : t.logDir = dir
  blockSize : t.blockSize = size
  minBlockId : t.minBlockId = 0
  isInited : t.isInited = true
  curFd : t.curFd ≠ none
  fdCurrent : t.FdCurrent disk'
  first : disk'.file? (dir, 0) = some (File.empty.truncate palfPhyBlockSize)
  others : ∀ p, p ≠ (dir, 0) → disk'.file? p = disk.file? p

def formatted (dir : δ) (disk : Disk δ) : ℕ × Disk δ :=
  ((disk.openCreat (dir, 0)).2.modify (disk.openCreat (dir, 0)).1
    fun _ => File.empty.truncate palfPhyBlockSize).openCreat (dir, 0)

theorem init_of_no_first_block {logDir : δ} (blockSize : ℕ) {fuel : ℕ} (hs : s.isInited = false)
    (hempty : disk.entry (logDir, 0) = none) (hfuel : 1 ≤ fuel) :
    init fuel s logDir blockSize disk =
      some (0, { s with logDir := logDir, blockSize := blockSize, minBlockId := 0,
                        maxBlockId := 0, curFd := some (formatted logDir disk).1,
                        curBlockId := 0, isInited := true }, (formatted logDir disk).2) := by
  obtain ⟨fuel, rfl⟩ := Nat.exists_eq_add_of_le' hfuel
  have hstat : run (({ s with logDir := logDir, blockSize := blockSize } :
      LogStorage δ).statTurn disk) (fuel + 1) (0, logInvalidBlockId, logInvalidBlockId) =
      some (logInvalidBlockId, logInvalidBlockId) := by
    simp [run, statTurn, blockFilePath, hempty]
  rw [hs] at hstat
  have hnext : (2 ^ 64 - 1 + 1) % 2 ^ 64 = 0 := by norm_num
  simp only [init, hs, hstat, createNextBlock, openBlock, ↓reduceIte, Bool.false_eq_true, ne_eq,
    not_true_eq_false, hnext]
  rfl

theorem init_formats {logDir : δ} (blockSize : ℕ) (hs : s.isInited = false)
    (hempty : disk.entry (logDir, 0) = none) :
    ∃ t disk', (∀ fuel, init (fuel + 1) s logDir blockSize disk = some (0, t, disk')) ∧
      Formatted logDir blockSize disk t disk' := by
  have hentry := entry_openCreat_self disk (logDir, 0)
  refine ⟨_, _, fun fuel => init_of_no_first_block blockSize hs hempty (Nat.le_add_left 1 fuel),
    ?_⟩
  constructor
  · rfl
  · rfl
  · rfl
  · rfl
  · simp
  · intro fd hfd
    have hfd := Option.some.inj hfd
    subst hfd
    exact entry_openCreat_self _ _
  · rw [formatted, file?_openCreat_self, file?_modify_self hentry]
    rfl
  · intro p hp
    rw [formatted, file?_openCreat_of_ne _ hp, file?_modify_of_ne hentry hp,
      file?_openCreat_of_ne _ hp]

theorem init_reopens {logDir : δ} {n : ℕ} (blockSize : ℕ) (hs : s.isInited = false)
    (hblocks : ({ s with logDir := logDir } : LogStorage δ).BlocksUpTo disk n) :
    ∃ k, ∀ fuel, k ≤ fuel → init fuel s logDir blockSize disk =
      some (0, { s with logDir := logDir, blockSize := blockSize, minBlockId := 0,
                        maxBlockId := n, isInited := true }, disk) := by
  obtain ⟨k, hk⟩ := stat_yields (s := { s with logDir := logDir, blockSize := blockSize }) hblocks
  refine ⟨k, fun fuel hfuel => ?_⟩
  have hz : (0 : ℕ) ≠ logInvalidBlockId := by decide
  have hrun := run_mono hk hfuel
  simp only [init, hs, Bool.false_eq_true, ↓reduceIte]
  rw [hs] at hrun
  rw [hrun]
  simp only [hz, ↓reduceIte]

structure Opened (dir : δ) (size : ℕ) (disk : Disk δ) (t : LogStorage δ) (disk' : Disk δ) :
    Prop where
  logDir : t.logDir = dir
  blockSize : t.blockSize = size
  minBlockId : t.minBlockId = 0
  isInited : t.isInited = true
  present : ∀ b, b ≤ t.maxBlockId → disk'.entry (t.blockFilePath b) ≠ none
  kept : disk.entry (dir, 0) ≠ none → disk' = disk
  gap : disk.entry (dir, 0) ≠ none → disk'.entry (t.blockFilePath (t.maxBlockId + 1)) = none
  closed : t.curFd = none → t.curBlockId = logInvalidBlockId
  fdCurrent : t.FdCurrent disk'

theorem init_opens (dir : δ) (size : ℕ) (disk : Disk δ) :
    ∃ t disk', (∃ k, ∀ fuel, k ≤ fuel →
      init fuel { logDir := dir } dir size disk = some (0, t, disk')) ∧
      Opened dir size disk t disk' := by
  by_cases hfirst : disk.entry (dir, 0) = none
  · have hentry : (formatted dir disk).2.entry (dir, 0) = some (formatted dir disk).1 :=
      entry_openCreat_self _ _
    have hinit (fuel : ℕ) (hfuel : 1 ≤ fuel) :=
      init_of_no_first_block (s := { logDir := dir }) size rfl hfirst hfuel
    refine ⟨_, _, ⟨1, hinit⟩, ?_⟩
    refine ⟨rfl, rfl, rfl, rfl, ?_, fun hne => absurd hfirst hne, fun hne => absurd hfirst hne,
      ?_, ?_⟩
    · intro b hb
      obtain rfl := Nat.le_zero.mp hb
      simp [blockFilePath, hentry]
    · intro hnone
      cases hnone
    · intro fd hfd
      exact hentry.trans hfd
  · obtain ⟨n, hblocks⟩ := exists_blocksUpTo (s := { logDir := dir }) hfirst
    have hinit := init_reopens (s := { logDir := dir }) size rfl hblocks
    refine ⟨_, disk, hinit, ?_⟩
    have hpresent : ∀ b, b ≤ n → disk.entry (dir, b) ≠ none := hblocks.1
    have hgap : disk.entry (dir, n + 1) = none := hblocks.2
    refine ⟨rfl, rfl, rfl, rfl, hpresent, fun _ => rfl, fun _ => hgap, fun _ => rfl, ?_⟩
    intro fd hfd
    cases hfd

section Truncation

/-- After a truncation at `lsn` a new storage on the directory finds the same range of blocks
and reads everything from the start of the block of `lsn` on. -/
def TruncationSurvives (s : LogStorage δ) (disk : Disk δ) (lsn : ℕ) : Prop :=
  ∃ t disk₁ u disk₂, s.truncatePrefixBlocks lsn disk = (0, t, disk₁) ∧
    (∃ k, ∀ fuel, k ≤ fuel →
      init fuel { logDir := s.logDir } s.logDir s.blockSize disk₁ = some (0, u, disk₂)) ∧
    u.minBlockId = lsn2Block lsn s.blockSize ∧ u.maxBlockId = t.maxBlockId ∧
    ∀ from_ n bufLen, lsn2Block lsn s.blockSize * s.blockSize ≤ from_ →
      u.read disk₂ from_ n bufLen = s.read disk from_ n bufLen

variable {s : LogStorage δ} {disk : Disk δ} {lsn : ℕ}

theorem not_truncationSurvives (hmin : s.minBlockId = 0) (hlsn : lsn2Block lsn s.blockSize ≠ 0) :
    ¬ TruncationSurvives s disk lsn := by
  rintro ⟨t, disk₁, u, disk₂, htrunc, ⟨k, hk⟩, hlo, -⟩
  have hgone : disk₁.entry (s.logDir, 0) = none := by
    have hdisk := congrArg (fun r => r.2.2) htrunc
    dsimp only [truncatePrefixBlocks] at hdisk
    rw [← hdisk, entry_foldl_unlink, if_pos]
    refine List.mem_map.mpr ⟨0, ?_, rfl⟩
    rw [hmin, List.mem_range']
    exact ⟨0, by omega, rfl⟩
  obtain ⟨u', disk', hinit, hformat⟩ :=
    init_formats (s := { logDir := s.logDir }) s.blockSize rfl hgone
  have hsame := (hk (k + 1) (Nat.le_succ k)).symm.trans (hinit k)
  have hu : u = u' := (Prod.mk.inj (Prod.mk.inj (Option.some.inj hsame)).2).1
  rw [hu, hformat.minBlockId] at hlo
  exact hlsn hlo.symm

theorem truncationSurvives_of_first_block {n : ℕ} (hinit : s.isInited = true)
    (hmin : s.minBlockId = 0) (hmax : s.maxBlockId = n) (hblocks : s.BlocksUpTo disk n)
    (hlsn : lsn2Block lsn s.blockSize = 0) : TruncationSurvives s disk lsn := by
  have hsame : { s with minBlockId := 0 } = s := by rw [← hmin]
  have htrunc : s.truncatePrefixBlocks lsn disk = (0, s, disk) := by
    simp only [truncatePrefixBlocks, hlsn, hmin, hsame, Nat.sub_self, List.range'_zero,
      List.map_nil, List.foldl_nil]
  have hfresh : ({ logDir := s.logDir } : LogStorage δ).BlocksUpTo disk n :=
    hblocks.of_logDir_eq rfl
  obtain ⟨k, hk⟩ := init_reopens (s := { logDir := s.logDir }) s.blockSize rfl hfresh
  refine ⟨s, disk, _, disk, htrunc, ⟨k, hk⟩, hlsn.symm, hmax.symm, ?_⟩
  intro from_ n' bufLen _
  simp only [read, hinit, blockFilePath, Bool.not_true, Bool.false_eq_true, ↓reduceIte]

/-- The truncation of a log with blocks `0 .. n` survives a restart exactly when it removes
nothing. -/
theorem truncationSurvives_iff {n : ℕ} (hinit : s.isInited = true) (hmin : s.minBlockId = 0)
    (hmax : s.maxBlockId = n) (hblocks : s.BlocksUpTo disk n) :
    TruncationSurvives s disk lsn ↔ lsn2Block lsn s.blockSize = 0 := by
  constructor
  · intro hsurvives
    by_contra hne
    exact not_truncationSurvives hmin hne hsurvives
  · exact truncationSurvives_of_first_block hinit hmin hmax hblocks

def twoBlocks : Disk Unit :=
  ((blank.openCreat ((), 0)).2.openCreat ((), 1)).2

def twoBlockStorage : LogStorage Unit :=
  { logDir := (), maxBlockId := 1, minBlockId := 0, isInited := true }

theorem twoBlocks_upTo : twoBlockStorage.BlocksUpTo twoBlocks 1 := by
  refine ⟨?_, by decide⟩
  intro b hb
  rcases Nat.le_one_iff_eq_zero_or_eq_one.mp hb with rfl | rfl <;> decide

theorem truncationSurvives_iff_example :
    TruncationSurvives twoBlockStorage twoBlocks 5 :=
  (truncationSurvives_iff rfl rfl rfl twoBlocks_upTo).mpr (by decide)

/-- A truncation at the start of block `1` comes back as a log that begins with block `0`. -/
theorem truncated_block_is_recreated :
    ¬ TruncationSurvives twoBlockStorage twoBlocks palfBlockSize :=
  not_truncationSurvives rfl (by decide)

end Truncation

end LogStorage

end PalfLogStorage
