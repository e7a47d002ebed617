import LsmStorage.PalfScan

/-! # Recovering the end of the log

The disk image of a log is a chain of headers, each naming the start of the next entry.
Appends extend the image at its end. The scan of `init` follows the chain for as long as
each header can be read in one piece, so it stops at a header that crosses a block end. -/
namespace PalfRecovery

open ByteCodec PosixFiles PalfLogEntry PalfLogStorage PalfHandle PalfScan BoundedLoop PalfHandleImpl
open PalfScan
open LogGroupEntryHeader

variable {δ : Type*} {disk disk' : Disk δ} {s : LogStorage δ} {h : PalfHandleImpl δ} {dir : δ}
  {ps : List Bytes} {p buf : Bytes} {lsn : ℕ}

def entrySize (p : Bytes) : ℕ := getSerializeSize + p.length

def logSize (ps : List Bytes) : ℕ := (ps.map entrySize).sum

@[simp] theorem logSize_nil : logSize [] = 0 := rfl

@[simp] theorem logSize_cons (p : Bytes) (ps : List Bytes) :
    logSize (p :: ps) = entrySize p + logSize ps := by
  simp [logSize]

@[simp] theorem logSize_append (ps qs : List Bytes) :
    logSize (ps ++ qs) = logSize ps + logSize qs := by
  simp [logSize]

theorem logSize_eq_zero_iff : logSize ps = 0 ↔ ps = [] := by
  cases ps with
  | nil => simp
  | cons p ps => simp [entrySize, getSerializeSize]

/-- The entry at `lsn` stands in the file of its block in one piece, also past the end of
the block, behind a header that names its size and its end. -/
def StoredEntry (disk : Disk δ) (dir : δ) (size lsn : ℕ) (p : Bytes) : Prop :=
  ∃ f head g, disk.file? (dir, lsn / size) = some f ∧
    f.Holds (lsn % size + maxInfoBlockSize) (head ++ p) ∧
    head.length = getSerializeSize ∧ deserialize head 0 = some (g, getSerializeSize) ∧
    g.isValid = true ∧ g.groupEntrySize = entrySize p ∧ g.committedEndLsn = lsn + entrySize p

def StoredFrom (disk : Disk δ) (dir : δ) (size : ℕ) : ℕ → List Bytes → Prop
  | _, [] => True
  | lsn, p :: ps => StoredEntry disk dir size lsn p ∧
      StoredFrom disk dir size (lsn + entrySize p) ps

structure LogImage (disk : Disk δ) (dir : δ) (size : ℕ) (ps : List Bytes) : Prop where
  stored : StoredFrom disk dir size 0 ps
  tail_zero : ∀ f, disk.file? (dir, logSize ps / size) = some f →
    ∀ i, logSize ps % size + maxInfoBlockSize ≤ i → f.byte i = 0
  beyond : ∀ b, logSize ps / size < b → disk.file? (dir, b) = none
  first : disk.file? (dir, 0) ≠ none

theorem storedFrom_append {size : ℕ} {qs : List Bytes} :
    StoredFrom disk dir size lsn (ps ++ qs) ↔
      StoredFrom disk dir size lsn ps ∧ StoredFrom disk dir size (lsn + logSize ps) qs := by
  induction ps generalizing lsn with
  | nil => simp [StoredFrom]
  | cons p ps ih => simp [StoredFrom, ih, and_assoc, Nat.add_assoc]

theorem offset_le_of_same_block {a b size n : ℕ} (hblock : a / size = b / size)
    (h : a + n ≤ b) : a % size + n ≤ b % size := by
  have ha := Nat.div_add_mod a size
  have hb := Nat.div_add_mod b size
  rw [hblock] at ha
  omega

theorem StoredEntry.after_append {t : LogStorage δ} {e : ℕ}
    (h : StoredEntry disk s.logDir s.blockSize lsn p) (hle : lsn + entrySize p ≤ e)
    (ha : s.Appended e buf disk t disk') : StoredEntry disk' s.logDir s.blockSize lsn p := by
  obtain ⟨f, head, g, hf, hh, hlen, hdes, hv, hs, hc⟩ := h
  have hwritten := ha.written
  simp only [LogStorage.blockFilePath, lsn2Block, lsn2Offset] at hwritten
  by_cases hb : lsn / s.blockSize = e / s.blockSize
  · have hoff := offset_le_of_same_block hb hle
    rw [← hb, hf] at hwritten
    refine ⟨_, head, g, hwritten, ?_, hlen, hdes, hv, hs, hc⟩
    apply hh.pwrite_of_disjoint
    left
    rw [List.length_append, hlen]
    unfold entrySize at hoff
    omega
  · have hne : (s.logDir, lsn / s.blockSize) ≠
        s.blockFilePath (lsn2Block e s.blockSize) := by
      intro heq
      exact hb (Prod.mk.inj heq).2
    exact ⟨f, head, g, (ha.others _ hne).trans hf, hh, hlen, hdes, hv, hs, hc⟩

theorem StoredFrom.after_append {t : LogStorage δ} {e : ℕ}
    (h : StoredFrom disk s.logDir s.blockSize lsn ps) (hle : lsn + logSize ps ≤ e)
    (ha : s.Appended e buf disk t disk') : StoredFrom disk' s.logDir s.blockSize lsn ps := by
  induction ps generalizing lsn with
  | nil => trivial
  | cons p ps ih =>
    rw [logSize_cons] at hle
    exact ⟨h.1.after_append (by omega) ha, ih h.2 (by omega)⟩

theorem LogImage.after_append {t : LogStorage δ} {head : Bytes} {g : LogGroupEntryHeader}
    (hi : LogImage disk s.logDir s.blockSize ps)
    (ha : s.Appended (logSize ps) (head ++ p) disk t disk')
    (hlen : head.length = getSerializeSize)
    (hdes : deserialize head 0 = some (g, getSerializeSize)) (hv : g.isValid = true)
    (hs : g.groupEntrySize = entrySize p) (hc : g.committedEndLsn = logSize ps + entrySize p) :
    LogImage disk' s.logDir s.blockSize (ps ++ [p]) := by
  have hsize : (head ++ p).length = entrySize p := by rw [List.length_append, hlen, entrySize]
  have hne : head ++ p ≠ [] := by
    intro h
    have hz := congrArg List.length h
    rw [hsize] at hz
    simp [entrySize, getSerializeSize] at hz
  have hwritten := ha.written
  have hothers := ha.others
  simp only [LogStorage.blockFilePath, lsn2Block, lsn2Offset] at hwritten hothers
  have hmono : logSize ps / s.blockSize ≤ (logSize ps + entrySize p) / s.blockSize :=
    Nat.div_le_div_right (Nat.le_add_right _ _)
  constructor
  · rw [storedFrom_append]
    refine ⟨hi.stored.after_append (by omega) ha, ?_, trivial⟩
    rw [Nat.zero_add]
    exact ⟨_, head, g, hwritten, holds_pwrite _ _ hne, hlen, hdes, hv, hs, hc⟩
  · intro f hf i hle
    simp only [logSize_append, logSize_cons, logSize_nil, Nat.add_zero] at hf hle
    by_cases hb : logSize ps / s.blockSize = (logSize ps + entrySize p) / s.blockSize
    · have hoff := offset_le_of_same_block hb le_rfl
      rw [← hb, hwritten] at hf
      obtain rfl := Option.some.inj hf
      simp only [File.pwrite]
      rw [if_neg (by rw [hsize]; omega)]
      cases hold : disk.file? (s.logDir, logSize ps / s.blockSize) with
      | none => rfl
      | some old => exact hi.tail_zero old hold i (by omega)
    · rw [hothers _ (by simpa using Ne.symm hb), hi.beyond _ (by omega)] at hf
      cases hf
  · intro b hlt
    simp only [logSize_append, logSize_cons, logSize_nil, Nat.add_zero] at hlt
    rw [hothers _ (by simp only [ne_eq, Prod.mk.injEq, true_and]; omega), hi.beyond b (by omega)]
  · by_cases hb : (s.logDir, 0) = (s.logDir, logSize ps / s.blockSize)
    · rw [hb, hwritten]
      simp
    · rw [hothers _ hb]
      exact hi.first

theorem serialized_entry (heap : ℕ → UInt8) (hp : entrySize p < 2 ^ 32) :
    ∃ out head g, (h.groupHeader p.length).serialize ((List.range (entrySize p)).map heap) 0 =
        some (out, getSerializeSize) ∧ overwrite out getSerializeSize p = head ++ p ∧
      head.length = getSerializeSize ∧ deserialize head 0 = some (g, getSerializeSize) ∧
      g.isValid = true ∧ g.groupEntrySize = entrySize p ∧
      g.committedEndLsn = (h.maxLsn + entrySize p) % 2 ^ 64 := by
  have hroom : ¬ ((List.range (entrySize p)).map heap).length < 0 + getSerializeSize := by
    simp [entrySize]
  obtain ⟨out, hser⟩ : ∃ out, (h.groupHeader p.length).serialize
      ((List.range (entrySize p)).map heap) 0 = some (out, getSerializeSize) := by
    unfold serialize
    rw [if_neg hroom]
    exact ⟨_, rfl⟩
  have hlen := (length_serialize hser).1
  rw [List.length_map, List.length_range] at hlen
  have hdes := deserialize_serialize hser
  have htake : (out.take getSerializeSize).length = getSerializeSize := by
    rw [List.length_take, hlen, entrySize]
    omega
  have hhead := deserialize_append (out.drop getSerializeSize)
    (le_of_eq htake.symm)
  rw [List.take_append_drop, hdes] at hhead
  refine ⟨out, out.take getSerializeSize, _, hser, ?_, htake, hhead.symm, ?_, ?_, ?_⟩
  · rw [overwrite, List.drop_eq_nil_of_le (by rw [hlen, entrySize]), List.append_nil]
  · rfl
  · simp only [groupHeader]
    unfold entrySize at *
    omega
  · simp only [groupHeader]
    unfold entrySize at *
    omega

structure ReadsLog (h : PalfHandleImpl δ) (dir : δ) : Prop where
  inited : h.isInited = true
  cacheOff : h.logCache.isInited = false
  logDir : h.logStorage.logDir = dir
  blockSize : h.logStorage.blockSize = palfBlockSize
  minBlockId : h.logStorage.minBlockId = 0
  storageInited : h.logStorage.isInited = true

structure Tracks (h : PalfHandleImpl δ) (disk : Disk δ) (dir : δ) (ps : List Bytes) : Prop
    extends ReadsLog h dir where
  image : LogImage disk dir palfBlockSize ps
  endLsn : h.endLsn = logSize ps
  maxLsn : h.maxLsn = logSize ps
  curFd : h.logStorage.curFd ≠ none
  fdCurrent : h.logStorage.FdCurrent disk

/-- The handle can go on with the log of the entries `ps`: the file of the block that the
next entry goes to is open, or is opened by the append. -/
structure Appendable (h : PalfHandleImpl δ) (disk : Disk δ) (dir : δ) (ps : List Bytes) : Prop
    extends ReadsLog h dir where
  image : LogImage disk dir palfBlockSize ps
  endLsn : h.endLsn = logSize ps
  maxLsn : h.maxLsn = logSize ps
  curFd : h.logStorage.curBlockId = lsn2Block (logSize ps) palfBlockSize →
    h.logStorage.curFd ≠ none
  fdCurrent : h.logStorage.FdCurrent disk

theorem Tracks.appendable (ht : Tracks h disk dir ps) : Appendable h disk dir ps :=
  { toReadsLog := ht.toReadsLog
    image := ht.image
    endLsn := ht.endLsn
    maxLsn := ht.maxLsn
    curFd := fun _ => ht.curFd
    fdCurrent := ht.fdCurrent }

theorem read_eq_some {n : ℕ} (hinit : s.isInited = true) :
    s.read disk lsn n n = some buf ↔ ∃ f, disk.file? (s.logDir, lsn / s.blockSize) = some f ∧
      f.pread (lsn % s.blockSize + maxInfoBlockSize) (min n (s.blockSize - lsn % s.blockSize)) =
        buf := by
  have hclip : (if lsn % s.blockSize + n > s.blockSize then s.blockSize - lsn % s.blockSize
      else n) = min n (s.blockSize - lsn % s.blockSize) := by
    split <;> omega
  simp only [LogStorage.read, hinit, LogStorage.blockFilePath, lsn2Block, lsn2Offset,
    Bool.not_true, Bool.false_eq_true, ↓reduceIte, gt_iff_lt, lt_irrefl] at hclip ⊢
  rw [hclip]
  cases disk.file? (s.logDir, lsn / s.blockSize) <;> simp

theorem length_read_le {n : ℕ} (hinit : s.isInited = true)
    (hread : s.read disk lsn n n = some buf) : buf.length ≤ n := by
  obtain ⟨f, -, rfl⟩ := (read_eq_some hinit).mp hread
  rw [length_pread]
  omega

theorem StoredEntry.read_front {n : ℕ} {q r : Bytes}
    (h : StoredEntry disk s.logDir s.blockSize lsn p) (hp : p = q ++ r)
    (hinit : s.isInited = true) (hn : entrySize q ≤ n)
    (hfit : lsn % s.blockSize + entrySize q ≤ s.blockSize) :
    ∃ head rest g, s.read disk lsn n n = some (head ++ q ++ rest) ∧
      head.length = getSerializeSize ∧
      deserialize (head ++ q ++ rest) 0 = some (g, getSerializeSize) ∧ g.isValid = true ∧
      g.groupEntrySize = entrySize p ∧ g.committedEndLsn = lsn + entrySize p := by
  obtain ⟨f, head, g, hf, hh, hlen, hdes, hv, hs, hc⟩ := h
  rw [hp, ← List.append_assoc] at hh
  have hlen' : (head ++ q).length = entrySize q := by rw [List.length_append, hlen, entrySize]
  have htake := hh.left.take_pread
    (show (head ++ q).length ≤ min n (s.blockSize - lsn % s.blockSize) by omega)
  have hsplit := (List.take_append_drop (head ++ q).length (f.pread (lsn % s.blockSize +
    maxInfoBlockSize) (min n (s.blockSize - lsn % s.blockSize)))).symm
  rw [htake] at hsplit
  refine ⟨head, _, g, (read_eq_some hinit).mpr ⟨f, hf, hsplit⟩, hlen, ?_, hv, hs, hc⟩
  rw [List.append_assoc, deserialize_append _ (le_of_eq hlen.symm), hdes]

theorem read_short {n : ℕ} (hinit : s.isInited = true) (hread : s.read disk lsn n n = some buf)
    (hfit : s.blockSize < lsn % s.blockSize + getSerializeSize) :
    buf.length < getSerializeSize := by
  obtain ⟨f, -, rfl⟩ := (read_eq_some hinit).mp hread
  rw [length_pread]
  have : 0 < getSerializeSize := by decide
  omega

theorem deserialize_zeros {g : LogGroupEntryHeader} {pos : ℕ} (hz : ∀ b ∈ buf, b = 0)
    (h : deserialize buf 0 = some (g, pos)) : g.isValid = false := by
  have hslice : ∀ b ∈ slice buf 0 2, b = 0 :=
    fun b hb => hz b (List.mem_of_mem_drop (List.mem_of_mem_take hb))
  unfold deserialize at h
  split at h
  · cases h
  · obtain ⟨rfl, -⟩ := Prod.mk.inj (Option.some.inj h)
    simp [isValid, ofLE_eq_zero hslice, groupMagic]

theorem headerAt_of_holds {f : File} {head : Bytes} {g : LogGroupEntryHeader}
    (hinit : s.isInited = true) (hf : disk.file? (s.logDir, lsn / s.blockSize) = some f)
    (hh : f.Holds (lsn % s.blockSize + maxInfoBlockSize) head)
    (hlen : head.length = getSerializeSize) (hhdr : header? head = some g)
    (hfit : lsn % s.blockSize + getSerializeSize ≤ s.blockSize) :
    headerAt s disk lsn = some g := by
  have hroom : head.length ≤ min scanBufSize
      (s.blockSize - lsn % s.blockSize) := by
    have : getSerializeSize ≤ scanBufSize := by decide
    omega
  have htake := hh.take_pread hroom
  have hsplit := (List.take_append_drop head.length (f.pread (lsn % s.blockSize +
    maxInfoBlockSize) (min scanBufSize (s.blockSize - lsn % s.blockSize)))).symm
  rw [htake] at hsplit
  rw [headerAt, (read_eq_some hinit).mpr ⟨f, hf, hsplit⟩, Option.bind_some,
    header?_append _ (le_of_eq hlen.symm), hhdr]

theorem StoredEntry.headerAt (h : StoredEntry disk s.logDir s.blockSize lsn p)
    (hinit : s.isInited = true) (hfit : lsn % s.blockSize + getSerializeSize ≤ s.blockSize) :
    ∃ g, headerAt s disk lsn = some g ∧ g.groupEntrySize = entrySize p ∧
      g.committedEndLsn = lsn + entrySize p := by
  obtain ⟨f, head, g, hf, hh, hlen, hdes, hv, hs, hc⟩ := h
  exact ⟨g, headerAt_of_holds hinit hf hh.left hlen (header?_eq_some hdes hv) hfit, hs, hc⟩

theorem StoredEntry.le_length_read_iff {n : ℕ} (h : StoredEntry disk s.logDir s.blockSize lsn p)
    (hinit : s.isInited = true) (hfit : lsn % s.blockSize + getSerializeSize ≤ s.blockSize)
    (hread : s.read disk lsn n n = some buf) :
    entrySize p ≤ buf.length ↔ entrySize p ≤ n ∧ lsn % s.blockSize + entrySize p ≤ s.blockSize := by
  obtain ⟨f, head, g, hf, hh, hlen, -⟩ := h
  obtain ⟨f', hf', rfl⟩ := (read_eq_some hinit).mp hread
  obtain rfl := Option.some.inj (hf.symm.trans hf')
  have hsize := hh.1
  rw [List.length_append, hlen] at hsize
  rw [length_pread]
  unfold entrySize
  omega

theorem headerAt_of_crossing (hinit : s.isInited = true)
    (hfit : s.blockSize < lsn % s.blockSize + getSerializeSize) :
    headerAt s disk lsn = none := by
  rw [headerAt, Option.bind_eq_none_iff]
  intro buf hread
  exact header?_of_short (read_short hinit hread hfit)

theorem LogImage.headerAt_end (hinit : s.isInited = true)
    (h : LogImage disk s.logDir s.blockSize ps) : headerAt s disk (logSize ps) = none := by
  rw [headerAt, Option.bind_eq_none_iff]
  intro buf hread
  have hz : ∀ b ∈ buf, b = 0 := by
    obtain ⟨f, hf, rfl⟩ := (read_eq_some hinit).mp hread
    intro b hb
    simp only [File.pread, List.mem_map] at hb
    obtain ⟨i, -, rfl⟩ := hb
    exact h.tail_zero f hf _ (by omega)
  rw [header?]
  cases hdes : deserialize buf 0 with
  | none => rfl
  | some found =>
    obtain ⟨g, pos⟩ := found
    simp [deserialize_zeros hz hdes]

theorem LogImage.scanTurn_end (hinit : s.isInited = true)
    (h : LogImage disk s.logDir s.blockSize ps) :
    scanTurn s disk (logSize ps, logSize ps) = .stop (logSize ps) := by
  rw [scanTurn_eq, h.headerAt_end hinit]

/-- Where the scan that has reached `lsn` ends, when the entries from there on are `ps`. -/
def scanEnd (size : ℕ) : ℕ → List Bytes → ℕ
  | lsn, [] => lsn
  | lsn, p :: ps =>
    if lsn % size + getSerializeSize ≤ size then scanEnd size (lsn + entrySize p) ps else lsn

def HeadersFit (size : ℕ) : ℕ → List Bytes → Prop
  | _, [] => True
  | lsn, p :: ps => lsn % size + getSerializeSize ≤ size ∧
      HeadersFit size (lsn + entrySize p) ps

instance decidableHeadersFit (size : ℕ) : ∀ lsn ps, Decidable (HeadersFit size lsn ps)
  | _, [] => isTrue trivial
  | lsn, p :: ps =>
    have := decidableHeadersFit size (lsn + entrySize p) ps
    inferInstanceAs (Decidable (_ ∧ _))

theorem scanEnd_eq_iff (size lsn : ℕ) (ps : List Bytes) :
    scanEnd size lsn ps = lsn + logSize ps ↔ HeadersFit size lsn ps := by
  induction ps generalizing lsn with
  | nil => simp [scanEnd, HeadersFit]
  | cons p ps ih =>
    rw [scanEnd, HeadersFit, logSize_cons, ← Nat.add_assoc, ← ih]
    have hpos : 0 < entrySize p := by simp [entrySize, getSerializeSize]
    split
    · next hfit => simp [hfit]
    · next hfit =>
      simp only [hfit, false_and, iff_false]
      omega

theorem le_scanEnd (size lsn : ℕ) (ps : List Bytes) : lsn ≤ scanEnd size lsn ps := by
  induction ps generalizing lsn with
  | nil => exact le_rfl
  | cons p ps ih =>
    rw [scanEnd]
    split
    · exact le_trans (Nat.le_add_right _ _) (ih _)
    · exact le_rfl

theorem scanEnd_le (size lsn : ℕ) (ps : List Bytes) : scanEnd size lsn ps ≤ lsn + logSize ps := by
  induction ps generalizing lsn with
  | nil => exact le_rfl
  | cons p ps ih =>
    have hrest := ih (lsn + entrySize p)
    rw [scanEnd, logSize_cons]
    split <;> omega

theorem headersFit_of_le {size : ℕ} (h : lsn + logSize ps ≤ size) : HeadersFit size lsn ps := by
  induction ps generalizing lsn with
  | nil => trivial
  | cons p ps ih =>
    rw [logSize_cons] at h
    have hp : getSerializeSize ≤ entrySize p := Nat.le_add_right _ _
    have hmod : lsn % size ≤ lsn := Nat.mod_le _ _
    exact ⟨by omega, ih (by omega)⟩

theorem scanEnd_eq_zero_iff : scanEnd palfBlockSize 0 ps = 0 ↔ ps = [] := by
  refine ⟨fun h => ?_, fun h => by simp [h, scanEnd]⟩
  cases ps with
  | nil => rfl
  | cons p ps =>
    have hfit : 0 % palfBlockSize + getSerializeSize ≤ palfBlockSize := by decide
    have hle := le_scanEnd palfBlockSize (0 + entrySize p) ps
    have hpos : 0 < entrySize p := by simp [entrySize, getSerializeSize]
    rw [scanEnd, if_pos hfit] at h
    omega

theorem LogImage.headerAt_scanEnd (pre : List Bytes) (hinit : s.isInited = true)
    (h : LogImage disk s.logDir s.blockSize (pre ++ ps)) :
    headerAt s disk (scanEnd s.blockSize (logSize pre) ps) = none := by
  induction ps generalizing pre with
  | nil =>
    rw [List.append_nil] at h
    exact h.headerAt_end hinit
  | cons p ps ih =>
    rw [scanEnd]
    split
    · have hnext := ih (pre ++ [p]) (by simpa using h)
      simpa using hnext
    · next hfit => exact headerAt_of_crossing hinit (not_le.mp hfit)

theorem scan_yields (pre : List Bytes) (hinit : s.isInited = true)
    (h : LogImage disk s.logDir s.blockSize (pre ++ ps)) :
    Yields (scanTurn s disk) (logSize pre, logSize pre)
      (scanEnd s.blockSize (logSize pre) ps) := by
  induction ps generalizing pre with
  | nil =>
    rw [List.append_nil] at h
    exact yields_stop (h.scanTurn_end hinit)
  | cons p ps ih =>
    have hstored := (storedFrom_append.mp h.stored).2.1
    rw [Nat.zero_add] at hstored
    rw [scanEnd]
    split
    · next hfit =>
      obtain ⟨g, hat, -, hc⟩ := hstored.headerAt hinit hfit
      have hpos : 0 < entrySize p := by simp [entrySize, getSerializeSize]
      have hturn : scanTurn s disk (logSize pre, logSize pre) =
          .again (logSize (pre ++ [p]), logSize (pre ++ [p])) := by
        simp only [scanTurn_eq, hat, hc, logSize_append, logSize_cons, logSize_nil, Nat.add_zero]
        rw [if_neg (by omega)]
      have hnext := ih (pre ++ [p]) (by simpa using h)
      refine yields_again hturn ?_
      simpa using hnext
    · next hfit =>
      apply yields_stop
      rw [scanTurn_eq, headerAt_of_crossing hinit (not_le.mp hfit)]

theorem LogImage.blocksUpTo {size : ℕ} (h : LogImage disk s.logDir size ps) :
    ∃ n, s.BlocksUpTo disk n :=
  LogStorage.exists_blocksUpTo fun hnone => h.first (FileSystem.file?_eq_none.mpr hnone)

variable [DecidableEq δ]

/-- Without a wrapped size, an append is one storage append of a header and the payload; the
two ends move only when that returned 0. -/
theorem append_eq_storage_append (disk : Disk δ) (hinit : h.isInited = true) (heap : ℕ → UInt8)
    (io : WriteIo) (hp : entrySize p < 2 ^ 32) :
    ∃ head g, head.length = getSerializeSize ∧ deserialize head 0 = some (g, getSerializeSize) ∧
      g.isValid = true ∧ g.groupEntrySize = entrySize p ∧
      g.committedEndLsn = (h.maxLsn + entrySize p) % 2 ^ 64 ∧
      h.append ⟨some heap, io⟩ p disk =
        (let r := h.logStorage.append io h.maxLsn (head ++ p) disk
         let next := { h with logId := h.logId + 1, logStorage := r.2.1 }
         if r.1 ≠ 0 then some (⟨r.1, some h.maxLsn, none⟩, next, r.2.2)
         else some (⟨0, some h.maxLsn, some h.logId⟩,
           { next with
             endLsn := (h.maxLsn + entrySize p) % 2 ^ 64
             maxLsn := (h.maxLsn + entrySize p) % 2 ^ 64 }, r.2.2)) := by
  obtain ⟨out, head, g, hser, hbuf, hlen, hdes, hv, hs, hc⟩ := serialized_entry (h := h) heap hp
  have htotal : (h.groupHeader p.length).groupEntrySize = entrySize p := by
    simp only [groupHeader, entrySize] at hp ⊢
    exact Nat.mod_eq_of_lt hp
  have hroom : ¬ entrySize p < getSerializeSize + p.length := by simp [entrySize]
  refine ⟨head, g, hlen, hdes, hv, hs, hc, ?_⟩
  simp only [PalfHandleImpl.append, hinit, Bool.not_true, Bool.false_eq_true, ↓reduceIte,
    doAppend, htotal, hser, Option.getD_some, hbuf, hroom]
  by_cases hret : (h.logStorage.append io h.maxLsn (head ++ p) disk).1 = 0
  · simp [hret]
  · simp [hret]

theorem header_append_ne_nil {head : Bytes} (hlen : head.length = getSerializeSize) (p : Bytes) :
    head ++ p ≠ [] := by
  apply List.ne_nil_of_length_pos
  rw [List.length_append, hlen]
  exact Nat.add_pos_left (by decide) _

theorem append_appendable (ht : Appendable h disk dir ps) (heap : ℕ → UInt8)
    (hp : entrySize p < 2 ^ 32) (hend : logSize ps + entrySize p < 2 ^ 64) :
    ∃ h' disk', h.append ⟨some heap, .faithful⟩ p disk =
        some (⟨0, some (logSize ps), some h.logId⟩, h', disk') ∧
      Tracks h' disk' dir (ps ++ [p]) := by
  obtain ⟨head, g, hlen, hdes, hv, hs, hc, hwrite⟩ :=
    append_eq_storage_append disk ht.inited heap .faithful hp
  obtain ⟨t, disk', happ, ha⟩ := LogStorage.append_faithful h.maxLsn ht.storageInited
    (header_append_ne_nil hlen p) ht.fdCurrent (by rw [ht.maxLsn, ht.blockSize]; exact ht.curFd)
  have himage := ht.image
  rw [← ht.logDir, ← ht.blockSize] at himage
  simp only [happ, ne_eq, not_true_eq_false, ↓reduceIte] at hwrite
  rw [ht.maxLsn] at ha hc hwrite
  rw [Nat.mod_eq_of_lt hend] at hc hwrite
  have hnext := himage.after_append ha hlen hdes hv hs hc
  rw [ht.logDir, ht.blockSize] at hnext
  refine ⟨_, disk', hwrite, ?_⟩
  exact
    { inited := ht.inited
      cacheOff := ht.cacheOff
      logDir := ha.logDir.trans ht.logDir
      blockSize := ha.blockSize.trans ht.blockSize
      minBlockId := ha.minBlockId.trans ht.minBlockId
      storageInited := ha.isInited
      image := hnext
      endLsn := by simp
      maxLsn := by simp
      curFd := ha.curFd
      fdCurrent := ha.fdCurrent }

theorem append_tracks (ht : Tracks h disk dir ps) (heap : ℕ → UInt8) (hp : entrySize p < 2 ^ 32)
    (hend : logSize ps + entrySize p < 2 ^ 64) :
    ∃ h' disk', h.append ⟨some heap, .faithful⟩ p disk =
        some (⟨0, some (logSize ps), some h.logId⟩, h', disk') ∧
      Tracks h' disk' dir (ps ++ [p]) :=
  append_appendable ht.appendable heap hp hend

theorem append_tracks_of_no_memory (ht : Tracks h disk dir ps) (p : Bytes) (io : WriteIo) :
    h.append ⟨none, io⟩ p disk =
        some (⟨-1, some (logSize ps), none⟩, { h with logId := h.logId + 1 }, disk) ∧
      Tracks { h with logId := h.logId + 1 } disk dir ps := by
  refine ⟨?_, { ht with }⟩
  simp [PalfHandleImpl.append, PalfHandleImpl.doAppend, ht.inited, ht.maxLsn]

theorem append_of_oversized (disk : Disk δ) (hinit : h.isInited = true) (heap : ℕ → UInt8)
    (io : WriteIo) (hp : 2 ^ 32 ≤ entrySize p) : h.append ⟨some heap, io⟩ p disk = none := by
  have htotal : (h.groupHeader p.length).groupEntrySize < p.length := by
    simp only [groupHeader, entrySize, getSerializeSize] at hp ⊢
    omega
  simp only [PalfHandleImpl.append, hinit, Bool.not_true, Bool.false_eq_true, ↓reduceIte,
    doAppend]
  rw [if_pos (by omega)]

structure AppendCall where
  payload : Bytes
  malloc : Option (ℕ → UInt8)

def runAppends : List AppendCall → PalfHandleImpl δ → Disk δ →
    Option (PalfHandleImpl δ × Disk δ)
  | [], h, disk => some (h, disk)
  | c :: cs, h, disk =>
    match h.append ⟨c.malloc, .faithful⟩ c.payload disk with
    | none => none
    | some (_, h, disk) => runAppends cs h disk

def written (calls : List AppendCall) : List Bytes :=
  calls.filterMap fun c => c.malloc.map fun _ => c.payload

theorem written_of_memory (p : Bytes) (heap : ℕ → UInt8) (cs : List AppendCall) :
    written (⟨p, some heap⟩ :: cs) = p :: written cs := rfl

theorem runAppends_cases {calls : List AppendCall} (ht : Tracks h disk dir ps)
    (hlog : logSize ps + logSize (written calls) < 2 ^ 64) :
    ((∀ p ∈ written calls, entrySize p < 2 ^ 32) ∧ ∃ h' disk',
        runAppends calls h disk = some (h', disk') ∧ Tracks h' disk' dir (ps ++ written calls)) ∨
      (¬ ∀ p ∈ written calls, entrySize p < 2 ^ 32) ∧ runAppends calls h disk = none := by
  induction calls generalizing h disk ps with
  | nil => exact .inl ⟨by simp [written], h, disk, rfl, by simpa [written] using ht⟩
  | cons c cs ih =>
    obtain ⟨p, malloc⟩ := c
    cases malloc with
    | none =>
      change logSize ps + logSize (written cs) < 2 ^ 64 at hlog
      obtain ⟨happ, ht'⟩ := append_tracks_of_no_memory ht p .faithful
      simp only [runAppends, happ]
      exact ih ht' hlog
    | some heap =>
      rw [written_of_memory] at *
      rw [logSize_cons] at hlog
      rw [List.forall_mem_cons]
      by_cases hp : entrySize p < 2 ^ 32
      · obtain ⟨h₁, disk₁, happ, ht'⟩ := append_tracks ht heap hp (by omega)
        simp only [runAppends, happ, hp, true_and]
        have hrest := ih ht' (by simp only [logSize_append, logSize_cons, logSize_nil]; omega)
        rwa [List.append_assoc, List.singleton_append] at hrest
      · have happ := append_of_oversized disk ht.inited heap .faithful (not_lt.mp hp)
        exact .inr ⟨fun hall => hp hall.1, by simp [runAppends, happ]⟩

theorem runAppends_tracks {calls : List AppendCall} (ht : Tracks h disk dir ps)
    (hlog : logSize ps + logSize (written calls) < 2 ^ 64)
    (hsize : ∀ p ∈ written calls, entrySize p < 2 ^ 32) :
    ∃ h' disk', runAppends calls h disk = some (h', disk') ∧
      Tracks h' disk' dir (ps ++ written calls) := by
  rcases runAppends_cases ht hlog with ⟨-, hrun⟩ | ⟨hnot, -⟩
  · exact hrun
  · exact absurd hsize hnot

theorem entrySize_of_runAppends {h' : PalfHandleImpl δ} {calls : List AppendCall}
    (ht : Tracks h disk dir ps) (hlog : logSize ps + logSize (written calls) < 2 ^ 64)
    (hrun : runAppends calls h disk = some (h', disk')) :
    ∀ p ∈ written calls, entrySize p < 2 ^ 32 := by
  rcases runAppends_cases ht hlog with ⟨hsize, -⟩ | ⟨-, hnone⟩
  · exact hsize
  · cases hnone.symm.trans hrun

def OpensAs (palfId : ℤ) (dir : δ) (disk : Disk δ) (h : PalfHandleImpl δ) (disk' : Disk δ) :
    Prop :=
  ∃ k, ∀ fuel, k ≤ fuel →
    PalfHandleImpl.init fuel palfId dir (PalfHandleImpl.new dir) disk = some (0, h, disk')

theorem OpensAs.unique {palfId : ℤ} {disk₁ disk₂ : Disk δ} {h₁ h₂ : PalfHandleImpl δ}
    (o₁ : OpensAs palfId dir disk h₁ disk₁) (o₂ : OpensAs palfId dir disk h₂ disk₂) :
    h₁ = h₂ ∧ disk₁ = disk₂ := by
  simpa using eq_of_enough o₁ o₂

theorem opensAs_of_scan {palfId : ℤ} {last : ℕ}
    (hstorage : ∃ k, ∀ fuel, k ≤ fuel → LogStorage.init fuel (PalfHandleImpl.new dir).logStorage
      dir palfBlockSize disk = some (0, s, disk'))
    (hmin : s.minBlockId = 0) (hscan : Yields (scanTurn s disk') (0, 0) last) :
    OpensAs palfId dir disk
      { PalfHandleImpl.new dir with
        palfId := palfId, epoch := 1, logStorage := s, isInited := true, endLsn := last,
        maxLsn := last, logId := if 0 < last then 2 else firstValidLogId } disk' := by
  obtain ⟨k₁, hk₁⟩ := hstorage
  obtain ⟨k₂, hk₂⟩ := hscan
  refine ⟨max k₁ k₂, fun fuel hfuel => ?_⟩
  have hs := hk₁ fuel (le_trans (le_max_left _ _) hfuel)
  have hr := run_mono hk₂ (le_trans (le_max_right _ _) hfuel)
  have hbegin : s.getBeginLsn = 0 := by simp [LogStorage.getBeginLsn, hmin]
  simp only [PalfHandleImpl.new] at hs ⊢
  simp only [PalfHandleImpl.init, Bool.false_eq_true, ↓reduceIte, hs, ne_eq, not_true_eq_false,
    hbegin, hr]

theorem opens_empty (palfId : ℤ) (hempty : ∀ b, disk.entry (dir, b) = none) :
    ∃ h disk', OpensAs palfId dir disk h disk' ∧ Tracks h disk' dir [] := by
  obtain ⟨t, disk', hinit, hf⟩ := LogStorage.init_formats (s := (PalfHandleImpl.new dir).logStorage)
    palfBlockSize rfl (hempty 0)
  have himage : LogImage disk' dir palfBlockSize [] := by
    constructor
    · trivial
    · intro f hfile i _
      rw [logSize_nil, Nat.zero_div, hf.first] at hfile
      obtain rfl := Option.some.inj hfile
      simp [File.truncate, File.empty]
    · intro b hb
      rw [logSize_nil, Nat.zero_div] at hb
      have hne : (dir, b) ≠ (dir, 0) := by
        simp only [ne_eq, Prod.mk.injEq, true_and]
        omega
      rw [hf.others _ hne, FileSystem.file?_eq_none]
      exact hempty b
    · rw [hf.first]
      simp
  have hscan : Yields (scanTurn t disk') (0, 0) 0 := by
    rw [← hf.logDir, ← hf.blockSize] at himage
    exact yields_stop (himage.scanTurn_end hf.isInited)
  have hstorage : ∀ fuel, 1 ≤ fuel → LogStorage.init fuel (PalfHandleImpl.new dir).logStorage
      dir palfBlockSize disk = some (0, t, disk') := by
    intro fuel hfuel
    obtain ⟨k, rfl⟩ : ∃ k, fuel = k + 1 := ⟨fuel - 1, by omega⟩
    exact hinit k
  refine ⟨_, disk', opensAs_of_scan ⟨1, hstorage⟩ hf.minBlockId hscan, ?_⟩
  exact
    { inited := rfl
      cacheOff := rfl
      logDir := hf.logDir
      blockSize := hf.blockSize
      minBlockId := hf.minBlockId
      storageInited := hf.isInited
      image := himage
      endLsn := rfl
      maxLsn := rfl
      curFd := hf.curFd
      fdCurrent := hf.fdCurrent }

theorem opens_image (palfId : ℤ) (h : LogImage disk dir palfBlockSize ps) :
    ∃ h', OpensAs palfId dir disk h' disk ∧ ReadsLog h' dir ∧
      h'.endLsn = scanEnd palfBlockSize 0 ps ∧ h'.maxLsn = scanEnd palfBlockSize 0 ps ∧
      h'.logStorage.curFd = none ∧ h'.logStorage.curBlockId = logInvalidBlockId := by
  obtain ⟨n, hblocks⟩ :=
    LogImage.blocksUpTo (s := { (PalfHandleImpl.new dir).logStorage with logDir := dir }) h
  obtain ⟨k, hk⟩ := LogStorage.init_reopens (s := (PalfHandleImpl.new dir).logStorage)
    palfBlockSize rfl hblocks
  refine ⟨_, opensAs_of_scan ⟨k, hk⟩ rfl (scan_yields [] rfl h), ?_, rfl, rfl, rfl, rfl⟩
  exact
    { inited := rfl
      cacheOff := rfl
      logDir := rfl
      blockSize := rfl
      minBlockId := rfl
      storageInited := rfl }

theorem opens_appendable (palfId : ℤ) (h : LogImage disk dir palfBlockSize ps)
    (hblock : logSize ps ≤ palfBlockSize) :
    ∃ h', OpensAs palfId dir disk h' disk ∧ Appendable h' disk dir ps := by
  obtain ⟨h', hopen, hreads, hend, hmax, hfd, hid⟩ := opens_image palfId h
  have hscan : scanEnd palfBlockSize 0 ps = logSize ps := by
    rw [(scanEnd_eq_iff _ _ _).mpr (headersFit_of_le (by rw [Nat.zero_add]; exact hblock)),
      Nat.zero_add]
  have hlow : lsn2Block (logSize ps) palfBlockSize ≤ 1 := by
    rw [lsn2Block]
    exact Nat.div_le_of_le_mul (by rw [Nat.mul_one]; exact hblock)
  have hother : (1 : ℕ) < logInvalidBlockId := by decide
  refine ⟨h', hopen, ?_⟩
  exact
    { toReadsLog := hreads
      image := h
      endLsn := hend.trans hscan
      maxLsn := hmax.trans hscan
      curFd := by
        intro hcur
        rw [hid] at hcur
        omega
      fdCurrent := by
        intro fd hfd'
        rw [hfd] at hfd'
        cases hfd' }

def RecoversEnd (palfId : ℤ) (dir : δ) (disk : Disk δ) (calls : List AppendCall) : Prop :=
  ∃ h₀ disk₀ h disk₁ h' disk₂, OpensAs palfId dir disk h₀ disk₀ ∧
    runAppends calls h₀ disk₀ = some (h, disk₁) ∧ OpensAs palfId dir disk₁ h' disk₂ ∧
    h'.endLsn = h.endLsn ∧ h'.maxLsn = h.endLsn

theorem recoversEnd_of_headersFit (palfId : ℤ) {calls : List AppendCall}
    (hempty : ∀ b, disk.entry (dir, b) = none) (hlog : logSize (written calls) < 2 ^ 64)
    (hsize : ∀ p ∈ written calls, entrySize p < 2 ^ 32)
    (hfit : HeadersFit palfBlockSize 0 (written calls)) : RecoversEnd palfId dir disk calls := by
  obtain ⟨h₀, disk₀, hopen, ht₀⟩ := opens_empty palfId hempty
  obtain ⟨h, disk₁, hrun, ht⟩ := runAppends_tracks ht₀ (by simpa using hlog) hsize
  rw [List.nil_append] at ht
  obtain ⟨h', hreopen, -, hend, hmax, -⟩ := opens_image palfId ht.image
  have hscan := (scanEnd_eq_iff palfBlockSize 0 _).mpr hfit
  rw [Nat.zero_add] at hscan
  refine ⟨h₀, disk₀, h, disk₁, h', disk₁, hopen, hrun, hreopen, ?_, ?_⟩
  · rw [hend, hscan, ht.endLsn]
  · rw [hmax, hscan, ht.endLsn]

theorem tracks_of_runAppends {palfId : ℤ} {calls : List AppendCall} {h₀ : PalfHandleImpl δ}
    {disk₀ disk₁ : Disk δ} (hempty : ∀ b, disk.entry (dir, b) = none)
    (hlog : logSize (written calls) < 2 ^ 64) (hopen : OpensAs palfId dir disk h₀ disk₀)
    (hrun : runAppends calls h₀ disk₀ = some (h, disk₁)) :
    (∀ p ∈ written calls, entrySize p < 2 ^ 32) ∧ Tracks h disk₁ dir (written calls) := by
  obtain ⟨k, disk', hopen', ht₀⟩ := opens_empty palfId hempty
  obtain ⟨rfl, rfl⟩ := hopen.unique hopen'
  have hsize := entrySize_of_runAppends ht₀ (by simpa using hlog) hrun
  obtain ⟨g, disk', hrun', ht⟩ := runAppends_tracks ht₀ (by simpa using hlog) hsize
  rw [hrun, Option.some.injEq, Prod.mk.injEq] at hrun'
  obtain ⟨rfl, rfl⟩ := hrun'
  exact ⟨hsize, by simpa using ht⟩

theorem headersFit_of_recoversEnd {palfId : ℤ} {calls : List AppendCall}
    (hempty : ∀ b, disk.entry (dir, b) = none) (hlog : logSize (written calls) < 2 ^ 64)
    (hrec : RecoversEnd palfId dir disk calls) :
    (∀ p ∈ written calls, entrySize p < 2 ^ 32) ∧
      HeadersFit palfBlockSize 0 (written calls) := by
  obtain ⟨h₀, disk₀, h, disk₁, h', disk₂, hopen, hrun, hreopen, hend, -⟩ := hrec
  obtain ⟨hsize, ht⟩ := tracks_of_runAppends hempty hlog hopen hrun
  obtain ⟨g', hreopen', -, hscan, -⟩ := opens_image palfId ht.image
  obtain ⟨rfl, -⟩ := hreopen.unique hreopen'
  refine ⟨hsize, (scanEnd_eq_iff palfBlockSize 0 _).mp ?_⟩
  rw [← hscan, hend, ht.endLsn, Nat.zero_add]

/-- A restart recovers the end of the log exactly when no written entry reaches `2 ^ 32`
bytes and no header crosses the end of a block. -/
theorem recoversEnd_iff_headersFit (palfId : ℤ) (dir : δ) (disk : Disk δ)
    (calls : List AppendCall) (hempty : ∀ b, disk.entry (dir, b) = none)
    (hlog : logSize (written calls) < 2 ^ 64) :
    RecoversEnd palfId dir disk calls ↔
      (∀ p ∈ written calls, entrySize p < 2 ^ 32) ∧
        HeadersFit palfBlockSize 0 (written calls) :=
  ⟨headersFit_of_recoversEnd hempty hlog,
    fun ⟨hsize, hfit⟩ => recoversEnd_of_headersFit palfId hempty hlog hsize hfit⟩

theorem recoversEnd_of_two_small_entries :
    RecoversEnd 1 () (FileSystem.blank : Disk Unit)
      [⟨[7], some fun _ => 0⟩, ⟨[8, 9], some fun _ => 255⟩] :=
  (recoversEnd_iff_headersFit 1 () FileSystem.blank _ (fun _ => rfl) (by decide)).mpr (by decide)

/-- The first entry ends 47 bytes before the end of block 0, so the header of the second
crosses it: the restart recovers the end of the first entry only. -/
theorem not_recoversEnd_of_crossing_header :
    ¬ RecoversEnd 1 () (FileSystem.blank : Disk Unit)
      [⟨List.replicate (palfBlockSize - 95) 1, some fun _ => 0⟩, ⟨[2], some fun _ => 0⟩] := by
  intro hrec
  have hsize : entrySize (List.replicate (palfBlockSize - 95) (1 : UInt8)) =
      palfBlockSize - 47 := by
    rw [entrySize, List.length_replicate]
    decide
  have hfit := (headersFit_of_recoversEnd (fun _ => rfl) ?_ hrec).2
  · simp only [written_of_memory, HeadersFit, hsize, Nat.zero_add] at hfit
    exact absurd hfit.2.1 (by decide)
  · rw [written_of_memory, logSize_cons, hsize]
    decide

end PalfRecovery
