import LsmStorage.PalfLogStorage

/-! # LogStorage as a flat byte store

The address space is that of the LSNs. A write that lies inside one block changes only the
bytes it covers, although it goes through a cached descriptor into one of many files. -/
namespace PalfFlatStore

open ByteCodec PosixFiles PalfLogEntry PalfLogStorage LogStorage

variable {δ : Type*}

structure Write where
  lsn : ℕ
  buf : Bytes

abbrev Flat := ℕ → Option UInt8

def Flat.write (m : Flat) (w : Write) : Flat := fun a =>
  if w.lsn ≤ a ∧ a < w.lsn + w.buf.length then w.buf[a - w.lsn]? else m a

def flat (ws : List Write) : Flat := ws.foldl Flat.write fun _ => none

theorem flat_concat (ws : List Write) (w : Write) : flat (ws ++ [w]) = (flat ws).write w := by
  simp [flat]

def InBlock (size lsn n : ℕ) : Prop := lsn % size + n ≤ size

theorem block_of_add {size lsn i : ℕ} (h : lsn % size + i < size) :
    (lsn + i) / size = lsn / size ∧ (lsn + i) % size = lsn % size + i := by
  refine (Nat.div_mod_unique (Nat.zero_lt_of_lt h)).mpr ⟨?_, h⟩
  have := Nat.mod_add_div lsn size
  omega

def Stored (dir : δ) (size : ℕ) (disk : Disk δ) (a : ℕ) (v : UInt8) : Prop :=
  ∃ f, disk.file? (dir, a / size) = some f ∧ a % size + maxInfoBlockSize < f.size ∧
    f.byte (a % size + maxInfoBlockSize) = v

def Stores (dir : δ) (size : ℕ) (disk : Disk δ) (m : Flat) : Prop :=
  ∀ a v, m a = some v → Stored dir size disk a v

section Read

variable {s : LogStorage δ} {disk : Disk δ} {m : Flat}

def readLimit (size lsn n bufLen : ℕ) : ℕ := min (min n bufLen) (size - lsn % size)

theorem read_eq (hinit : s.isInited = true) (lsn n bufLen : ℕ) :
    s.read disk lsn n bufLen =
      (disk.file? (s.logDir, lsn / s.blockSize)).map fun f =>
        f.pread (lsn % s.blockSize + maxInfoBlockSize) (readLimit s.blockSize lsn n bufLen) := by
  have hlimit : (if lsn % s.blockSize + (if n > bufLen then bufLen else n) > s.blockSize then
      s.blockSize - lsn % s.blockSize else if n > bufLen then bufLen else n) =
      readLimit s.blockSize lsn n bufLen := by
    rw [readLimit]
    split_ifs <;> omega
  simp only [LogStorage.read, hinit, LogStorage.blockFilePath, lsn2Block, lsn2Offset, Bool.not_true,
    Bool.false_eq_true, ↓reduceIte]
  cases disk.file? (s.logDir, lsn / s.blockSize) with
  | none => rfl
  | some f =>
    rw [Option.map_some, ← hlimit]
    rfl

theorem read_of_stores (hinit : s.isInited = true) (h : Stores s.logDir s.blockSize disk m)
    {lsn n bufLen i : ℕ} {out : Bytes} {v : UInt8}
    (hread : s.read disk lsn n bufLen = some out) (hi : i < out.length)
    (hv : m (lsn + i) = some v) : out[i]? = some v := by
  rw [read_eq hinit] at hread
  obtain ⟨f, hf, rfl⟩ := Option.map_eq_some_iff.mp hread
  rw [length_pread, readLimit] at hi
  have hin : lsn % s.blockSize + i < s.blockSize := by omega
  obtain ⟨hdiv, hmod⟩ := block_of_add hin
  obtain ⟨g, hg, -, hbyte⟩ := h _ _ hv
  rw [hdiv, hf] at hg
  obtain rfl := Option.some.inj hg
  rw [getElem?_pread, if_pos (by rw [readLimit]; omega), ← hbyte, hmod, Nat.add_right_comm]

theorem length_read_of_stores (hinit : s.isInited = true)
    (h : Stores s.logDir s.blockSize disk m) {lsn n bufLen : ℕ}
    (hblock : InBlock s.blockSize lsn n) (hbuf : n ≤ bufLen)
    (hwritten : ∀ i < n, m (lsn + i) ≠ none) :
    ((s.read disk lsn n bufLen).getD []).length = n := by
  unfold InBlock at hblock
  have hlimit : readLimit s.blockSize lsn n bufLen = n := by
    rw [readLimit]
    omega
  rw [read_eq hinit, hlimit]
  cases n with
  | zero =>
    cases disk.file? (s.logDir, lsn / s.blockSize) with
    | none => rfl
    | some f => rw [Option.map_some, Option.getD_some, length_pread, Nat.zero_min]
  | succ n =>
    -- the last byte is in the file, so the file is there and reaches to it
    obtain ⟨v, hv⟩ := Option.ne_none_iff_exists'.mp (hwritten n (Nat.lt_succ_self n))
    obtain ⟨f, hf, hsize, -⟩ := h _ _ hv
    have hin : lsn % s.blockSize + n < s.blockSize := by omega
    obtain ⟨hdiv, hmod⟩ := block_of_add hin
    rw [hdiv] at hf
    rw [hmod] at hsize
    rw [hf, Option.map_some, Option.getD_some, length_pread]
    generalize maxInfoBlockSize = info at hsize ⊢
    omega

end Read

section Write

variable {s t : LogStorage δ} {disk disk' : Disk δ} {m : Flat} {w : Write} {a : ℕ} {v : UInt8}

theorem stored_inside (hw : w.buf ≠ []) (hblock : InBlock s.blockSize w.lsn w.buf.length)
    (ha : LogStorage.Appended w.lsn w.buf s disk t disk')
    (hin : w.lsn ≤ a ∧ a < w.lsn + w.buf.length) (hv : w.buf[a - w.lsn]? = some v) :
    Stored s.logDir s.blockSize disk' a v := by
  have hfile := ha.written
  simp only [blockFilePath, lsn2Block, lsn2Offset] at hfile
  unfold InBlock at hblock
  obtain ⟨i, rfl⟩ := Nat.exists_eq_add_of_le hin.1
  rw [Nat.add_sub_cancel_left] at hv
  have hi : i < w.buf.length := by omega
  have hin' : w.lsn % s.blockSize + i < s.blockSize := by omega
  obtain ⟨hdiv, hmod⟩ := block_of_add hin'
  obtain ⟨hsize, hbytes⟩ := holds_pwrite
    ((disk.file? (s.logDir, w.lsn / s.blockSize)).getD .empty)
    (w.lsn % s.blockSize + maxInfoBlockSize) hw
  have hbyte := (hbytes i hi).symm.trans hv
  rw [Stored, hdiv, hmod, Nat.add_right_comm]
  exact ⟨_, hfile, by omega, Option.some.inj hbyte⟩

theorem stored_outside (h : Stored s.logDir s.blockSize disk a v) (hw : w.buf ≠ [])
    (ha : LogStorage.Appended w.lsn w.buf s disk t disk')
    (hout : ¬ (w.lsn ≤ a ∧ a < w.lsn + w.buf.length)) :
    Stored s.logDir s.blockSize disk' a v := by
  obtain ⟨f, hf, hsize, hbyte⟩ := h
  by_cases hsame : a / s.blockSize = w.lsn / s.blockSize
  · have hfile := ha.written
    simp only [blockFilePath, lsn2Block, lsn2Offset] at hfile
    rw [hsame] at hf
    rw [hf, Option.getD_some] at hfile
    have hapart : ¬ (w.lsn % s.blockSize ≤ a % s.blockSize ∧
        a % s.blockSize < w.lsn % s.blockSize + w.buf.length) := by
      have ha := Nat.mod_add_div a s.blockSize
      have hl := Nat.mod_add_div w.lsn s.blockSize
      rw [hsame] at ha
      omega
    rw [Stored, hsame]
    refine ⟨_, hfile, ?_, ?_⟩
    · simp only [File.pwrite, hw, ↓reduceIte]
      exact lt_of_lt_of_le hsize (le_max_left _ _)
    · simp only [File.pwrite]
      rw [if_neg (by omega), hbyte]
  · have hne : (s.logDir, a / s.blockSize) ≠ s.blockFilePath (lsn2Block w.lsn s.blockSize) :=
      fun heq => hsame (Prod.mk.inj heq).2
    exact ⟨f, (ha.others _ hne).trans hf, hsize, hbyte⟩

theorem stores_appended (h : Stores s.logDir s.blockSize disk m) (hw : w.buf ≠ [])
    (hblock : InBlock s.blockSize w.lsn w.buf.length)
    (ha : LogStorage.Appended w.lsn w.buf s disk t disk') :
    Stores s.logDir s.blockSize disk' (m.write w) := by
  intro a v hv
  unfold Flat.write at hv
  by_cases hin : w.lsn ≤ a ∧ a < w.lsn + w.buf.length
  · rw [if_pos hin] at hv
    exact stored_inside hw hblock ha hin hv
  · rw [if_neg hin] at hv
    exact stored_outside (h a v hv) hw ha hin

end Write

variable [DecidableEq δ]

/-- Appends one after the other on a file system that does what it is asked for. The result
lists those that returned 0. -/
def appendAll : List Write → LogStorage δ → Disk δ → List Write × LogStorage δ × Disk δ
  | [], s, disk => ([], s, disk)
  | w :: ws, s, disk =>
    match s.append .faithful w.lsn w.buf disk with
    | (ret, s, disk) =>
      match appendAll ws s disk with
      | (done, s, disk) => (if ret = 0 then w :: done else done, s, disk)

structure Holds (dir : δ) (size : ℕ) (s : LogStorage δ) (disk : Disk δ) (m : Flat) : Prop where
  logDir : s.logDir = dir
  blockSize : s.blockSize = size
  isInited : s.isInited = true
  fdCurrent : s.FdCurrent disk
  closed : s.curFd = none → s.curBlockId = logInvalidBlockId
  stores : Stores dir size disk m

theorem append_faithful_cases {s : LogStorage δ} (disk : Disk δ) {lsn : ℕ} {buf : Bytes}
    (hinit : s.isInited = true) (hbuf : buf ≠ []) (hcur : s.FdCurrent disk)
    (hclosed : s.curFd = none → s.curBlockId = logInvalidBlockId) :
    (lsn2Block lsn s.blockSize = logInvalidBlockId ∧
        s.append .faithful lsn buf disk = (-1, s, disk)) ∨
      ∃ t disk', s.append .faithful lsn buf disk = (0, t, disk') ∧
        LogStorage.Appended lsn buf s disk t disk' := by
  by_cases hfd : s.curBlockId = lsn2Block lsn s.blockSize → s.curFd ≠ none
  · exact Or.inr (append_faithful lsn hinit hbuf hcur hfd)
  push Not at hfd
  obtain ⟨hb, hnone⟩ := hfd
  rcases append_of_current .faithful disk hinit hbuf hb with hfail | ⟨fd, n, hfd, -⟩
  · exact Or.inl ⟨hb.symm.trans (hclosed hnone), hfail⟩
  · rw [hnone] at hfd
    cases hfd

theorem append_holds {dir : δ} {size : ℕ} {s : LogStorage δ} {disk : Disk δ} {m : Flat}
    (h : Holds dir size s disk m) {w : Write} (hblock : InBlock size w.lsn w.buf.length) :
    ∃ ret t disk', s.append .faithful w.lsn w.buf disk = (ret, t, disk') ∧
      Holds dir size t disk' (if ret = 0 then m.write w else m) ∧
      (lsn2Block w.lsn size ≠ logInvalidBlockId → ret = 0) := by
  by_cases hbuf : w.buf = []
  · have hsame : m.write w = m := by
      funext a
      rw [Flat.write, if_neg (by rw [hbuf, List.length_nil]; omega)]
    refine ⟨0, s, disk, by simp [LogStorage.append, h.isInited, hbuf], ?_, fun _ => rfl⟩
    rwa [if_pos rfl, hsame]
  have hsize := h.blockSize
  rcases append_faithful_cases disk h.isInited hbuf h.fdCurrent h.closed
    with ⟨hinvalid, hfail⟩ | ⟨t, disk', happ, ha⟩
  · rw [hsize] at hinvalid
    exact ⟨-1, s, disk, hfail, h, fun hne => absurd hinvalid hne⟩
  · have hstores := h.stores
    rw [← h.logDir, ← hsize] at hstores
    rw [← hsize] at hblock
    have hnext := stores_appended hstores hbuf hblock ha
    rw [h.logDir, hsize] at hnext
    refine ⟨0, t, disk', happ, ?_, fun _ => rfl⟩
    rw [if_pos rfl]
    exact
      { logDir := ha.logDir.trans h.logDir
        blockSize := ha.blockSize.trans hsize
        isInited := ha.isInited
        fdCurrent := ha.fdCurrent
        closed := fun hnone => absurd hnone ha.curFd
        stores := hnext }

theorem appendAll_holds {dir : δ} {size : ℕ} {s : LogStorage δ} {disk : Disk δ}
    {before ws : List Write} (h : Holds dir size s disk (flat before))
    (hblock : ∀ w ∈ ws, InBlock size w.lsn w.buf.length) :
    ∃ done t disk', appendAll ws s disk = (done, t, disk') ∧
      Holds dir size t disk' (flat (before ++ done)) ∧
      ((∀ w ∈ ws, lsn2Block w.lsn size ≠ logInvalidBlockId) → done = ws) := by
  induction ws generalizing s disk before with
  | nil => exact ⟨[], s, disk, rfl, by rwa [List.append_nil], fun _ => rfl⟩
  | cons w ws ih =>
    obtain ⟨hw, hrest⟩ := List.forall_mem_cons.mp hblock
    obtain ⟨ret, s₁, disk₁, happ, hnext, hok⟩ := append_holds h hw
    by_cases hret : ret = 0
    · rw [if_pos hret, ← flat_concat] at hnext
      obtain ⟨done, t, disk', hall, hholds, hdone⟩ := ih hnext hrest
      refine ⟨w :: done, t, disk', by simp [appendAll, happ, hall, hret], ?_, ?_⟩
      · simpa using hholds
      · intro hvalid
        rw [hdone (List.forall_mem_cons.mp hvalid).2]
    · rw [if_neg hret] at hnext
      obtain ⟨done, t, disk', hall, hholds, -⟩ := ih hnext hrest
      refine ⟨done, t, disk', by simp [appendAll, happ, hall, hret], hholds, ?_⟩
      intro hvalid
      exact absurd (hok (List.forall_mem_cons.mp hvalid).1) hret

/-- A storage opened on any directory, after any appends inside blocks: a read returns the
byte of the latest append at every position that one has written, and all of a range inside a
block that has been written. What the files held before counts as not written. -/
theorem reads_latest_bytes (dir : δ) (size : ℕ) (disk : Disk δ) {ws : List Write}
    (hblock : ∀ w ∈ ws, InBlock size w.lsn w.buf.length) :
    ∃ s disk₀ done t disk',
      (∃ k, ∀ fuel, k ≤ fuel →
        LogStorage.init fuel { logDir := dir } dir size disk = some (0, s, disk₀)) ∧
      appendAll ws s disk₀ = (done, t, disk') ∧
      ((∀ w ∈ ws, lsn2Block w.lsn size ≠ logInvalidBlockId) → done = ws) ∧
      (∀ lsn n bufLen out i v, t.read disk' lsn n bufLen = some out → i < out.length →
        flat done (lsn + i) = some v → out[i]? = some v) ∧
      ∀ lsn n bufLen, InBlock size lsn n → n ≤ bufLen →
        (∀ i < n, flat done (lsn + i) ≠ none) →
        ((t.read disk' lsn n bufLen).getD []).length = n := by
  obtain ⟨s, disk₀, hinit, ho⟩ := init_opens dir size disk
  have hstart : Holds dir size s disk₀ (flat []) :=
    { logDir := ho.logDir
      blockSize := ho.blockSize
      isInited := ho.isInited
      fdCurrent := ho.fdCurrent
      closed := ho.closed
      stores := by
        intro a v hv
        cases hv }
  obtain ⟨done, t, disk', hall, hholds, hdone⟩ := appendAll_holds hstart hblock
  have hstores := hholds.stores
  rw [List.nil_append, ← hholds.logDir] at hstores
  obtain rfl := hholds.blockSize
  refine ⟨s, disk₀, done, t, disk', hinit, hall, hdone, ?_, ?_⟩
  · intro lsn n bufLen out i v hread hi hv
    exact read_of_stores hholds.isInited hstores hread hi hv
  · intro lsn n bufLen hin hbuf hwritten
    exact length_read_of_stores hholds.isInited hstores hin hbuf hwritten

/-- Blocks of 16 bytes; the third write changes one byte of the first. -/
theorem reads_latest_bytes_example :
    ∃ (s t : LogStorage Unit) (disk₀ disk' : Disk Unit),
      appendAll [⟨0, [1, 2, 3]⟩, ⟨17, [9]⟩, ⟨1, [5]⟩] s disk₀ =
        ([⟨0, [1, 2, 3]⟩, ⟨17, [9]⟩, ⟨1, [5]⟩], t, disk') ∧
      t.read disk' 0 3 8 = some [1, 5, 3] := by
  have hblock : ∀ w ∈ ([⟨0, [1, 2, 3]⟩, ⟨17, [9]⟩, ⟨1, [5]⟩] : List Write),
      InBlock 16 w.lsn w.buf.length := by simp [InBlock]
  obtain ⟨s, disk₀, done, t, disk', -, hall, hdone, hbytes, hlength⟩ :=
    reads_latest_bytes () 16 FileSystem.blank hblock
  obtain rfl := hdone (by decide)
  refine ⟨s, t, disk₀, disk', hall, ?_⟩
  have hlen := hlength 0 3 8 (by simp [InBlock]) (by decide) (by decide)
  cases hread : t.read disk' 0 3 8 with
  | none => simp [hread] at hlen
  | some out =>
    rw [hread, Option.getD_some] at hlen
    have h0 := hbytes 0 3 8 out 0 1 hread (by omega) (by decide)
    have h1 := hbytes 0 3 8 out 1 5 hread (by omega) (by decide)
    have h2 := hbytes 0 3 8 out 2 3 hread (by omega) (by decide)
    obtain ⟨a, b, c, rfl⟩ := List.length_eq_three.mp hlen
    simp_all

end PalfFlatStore
