import LsmStorage.PosixFiles

/-! # ObSSTableMeta and ObSSTable

The macro blocks of a table stand one after the other in its data file, and the meta file
says where. A stream that cannot be opened for writing is a name outside `opens`; what was
written is read back. Vector reads past the end are reads of zero. -/
namespace SSTable

open ByteCodec PosixFiles FileSystem

/-- The counters are added to with no check; a stored value is the 64 bits of the sum. -/
structure ObSSTableBasicMeta where
  rowCount : ℤ := 0
  occupySize : ℤ := 0
  originalSize : ℤ := 0
  dataChecksum : ℤ := 0
  rowkeyColumnCount : ℤ := 0
  columnCnt : ℤ := 0
  dataMacroBlockCount : ℤ := 0
  dataMicroBlockCount : ℤ := 0
  schemaVersion : ℤ := 0
  createSnapshotVersion : ℤ := 0
  upperTransVersion : ℤ := 0
  maxMergedTransVersion : ℤ := 0
  dataIndexTreeHeight : ℤ := 0
  rowStoreType : ℕ := 0
  containUncommittedRow : Bool := false
  deriving DecidableEq, Repr

namespace ObSSTableBasicMeta

def longs (m : ObSSTableBasicMeta) : List ℤ :=
  [m.rowCount, m.occupySize, m.originalSize, m.dataChecksum, m.rowkeyColumnCount, m.columnCnt,
    m.dataMacroBlockCount, m.dataMicroBlockCount, m.schemaVersion, m.createSnapshotVersion,
    m.upperTransVersion, m.maxMergedTransVersion]

/-- `sizeof` of the struct, with four bytes of padding at its end. -/
def size : ℕ := 104

def image (m : ObSSTableBasicMeta) : Bytes :=
  m.longs.flatMap (toLEInt 8) ++ toLEInt 2 m.dataIndexTreeHeight ++ toLE 1 m.rowStoreType ++
    toLE 1 m.containUncommittedRow.toNat ++ [0, 0, 0, 0]

def long (b : Bytes) (i : ℕ) : ℤ := ofLEInt (slice b (8 * i) 8)

def ofImage (b : Bytes) : ObSSTableBasicMeta where
  rowCount := long b 0
  occupySize := long b 1
  originalSize := long b 2
  dataChecksum := long b 3
  rowkeyColumnCount := long b 4
  columnCnt := long b 5
  dataMacroBlockCount := long b 6
  dataMicroBlockCount := long b 7
  schemaVersion := long b 8
  createSnapshotVersion := long b 9
  upperTransVersion := long b 10
  maxMergedTransVersion := long b 11
  dataIndexTreeHeight := ofLEInt (slice b 96 2)
  rowStoreType := ofLE (slice b 98 1)
  containUncommittedRow := ofLE (slice b 99 1) ≠ 0

theorem length_image (m : ObSSTableBasicMeta) : m.image.length = size := by
  simp [image, longs, size]

end ObSSTableBasicMeta

structure ObSSTableMacroInfo where
  macroIds : List ℤ := []
  macroOffsets : List ℤ := []
  macroSizes : List ℤ := []

abbrev MacroEntry := ℤ × ℤ × ℤ

namespace ObSSTableMacroInfo

def ofEntries (l : List MacroEntry) : ObSSTableMacroInfo :=
  ⟨l.map (·.1), l.map (·.2.1), l.map (·.2.2)⟩

def entry (info : ObSSTableMacroInfo) (i : ℕ) : MacroEntry :=
  (info.macroIds.getD i 0, info.macroOffsets.getD i 0, info.macroSizes.getD i 0)

def pushBack (info : ObSSTableMacroInfo) (e : MacroEntry) : ObSSTableMacroInfo :=
  ⟨info.macroIds ++ [e.1], info.macroOffsets ++ [e.2.1], info.macroSizes ++ [e.2.2]⟩

theorem ofEntries_pushBack (l : List MacroEntry) (e : MacroEntry) :
    (ofEntries l).pushBack e = ofEntries (l ++ [e]) := by
  simp [ofEntries, pushBack]

theorem map_entry_ofEntries (l : List MacroEntry) :
    (List.range l.length).map (ofEntries l).entry = l := by
  apply List.ext_getElem?
  intro i
  rw [List.getElem?_map]
  rcases Nat.lt_or_ge i l.length with hi | hi
  · simp [entry, ofEntries, hi]
  · simp [hi]

end ObSSTableMacroInfo

open ObSSTableMacroInfo

def entryImage (e : MacroEntry) : Bytes := toLEInt 8 e.1 ++ toLEInt 8 e.2.1 ++ toLEInt 8 e.2.2

def entryOfImage (b : Bytes) : MacroEntry :=
  (ofLEInt (slice b 0 8), ofLEInt (slice b 8 8), ofLEInt (slice b 16 8))

/-- The three fields of `ObRootBlockInfo` stand beside the others. -/
structure ObSSTableMeta where
  basicMeta : ObSSTableBasicMeta := {}
  rootBlockData : Bytes := []
  rootBlockOffset : ℤ := 0
  rootBlockSize : ℤ := 0
  macroInfo : ObSSTableMacroInfo := {}

namespace ObSSTableMeta

/-- The tablet id is not looked at. -/
def init (columnCount rowkeyColumnCount schemaVersion snapshotVersion : ℤ) (m : ObSSTableMeta) :
    ℤ × ObSSTableMeta :=
  (0, { m with
    basicMeta := { m.basicMeta with
      rowkeyColumnCount := rowkeyColumnCount
      columnCnt := columnCount
      schemaVersion := schemaVersion
      createSnapshotVersion := snapshotVersion
      dataIndexTreeHeight := 1
      rowStoreType := 0
      containUncommittedRow := false } })

def addMacroBlock (macroSeq macroOffset macroSize rowCount microBlockCount : ℤ)
    (m : ObSSTableMeta) : ObSSTableMeta :=
  { m with
    basicMeta := { m.basicMeta with
      dataMacroBlockCount := m.basicMeta.dataMacroBlockCount + 1
      dataMicroBlockCount := m.basicMeta.dataMicroBlockCount + microBlockCount
      rowCount := m.basicMeta.rowCount + rowCount
      occupySize := m.basicMeta.occupySize + macroSize }
    macroInfo := m.macroInfo.pushBack (macroSeq, macroOffset, macroSize) }

def setRootIndexBlock (data : Bytes) (m : ObSSTableMeta) : ObSSTableMeta :=
  { m with rootBlockData := data, rootBlockSize := data.length }

def getRowCount (m : ObSSTableMeta) : ℤ := m.basicMeta.rowCount

def getMicroBlockCount (m : ObSSTableMeta) : ℤ := m.basicMeta.dataMicroBlockCount

def serialize (m : ObSSTableMeta) : Bytes :=
  m.basicMeta.image ++ (toLEInt 8 m.rootBlockData.length ++ (m.rootBlockData ++
    (toLEInt 8 m.macroInfo.macroIds.length ++
      (List.range m.macroInfo.macroIds.length).flatMap fun i => entryImage (m.macroInfo.entry i))))

/-- The loop over `macro_count` entries, which also stops when fewer than 24 bytes remain. -/
def readEntries : ℕ → Bytes → ObSSTableMacroInfo → ObSSTableMacroInfo
  | 0, _, info => info
  | n + 1, b, info =>
    if 24 ≤ b.length then readEntries n (b.drop 24) (info.pushBack (entryOfImage b)) else info

def deserializeMacros (b : Bytes) (m : ObSSTableMeta) : ℤ × ObSSTableMeta :=
  if b.length < 8 then (-1, m)
  else
    let macroCount := ofLEInt (b.take 8)
    (0, { m with
      macroInfo := readEntries macroCount.toNat (b.drop 8) m.macroInfo
      basicMeta := { m.basicMeta with dataMacroBlockCount := macroCount } })

/-- Of the root block only the bytes come back. -/
def deserializeRoot (b : Bytes) (m : ObSSTableMeta) : ℤ × ObSSTableMeta :=
  if b.length < 8 then (-1, m)
  else
    let rootSize := ofLEInt (b.take 8)
    if 0 < rootSize ∧ rootSize ≤ (b.drop 8).length then
      deserializeMacros ((b.drop 8).drop rootSize.toNat)
        { m with rootBlockData := (b.drop 8).take rootSize.toNat }
    else deserializeMacros (b.drop 8) m

def deserialize (b : Bytes) (m : ObSSTableMeta) : ℤ × ObSSTableMeta :=
  if b.length < ObSSTableBasicMeta.size then (-1, m)
  else deserializeRoot (b.drop ObSSTableBasicMeta.size)
    { m with basicMeta := .ofImage (b.take ObSSTableBasicMeta.size) }

variable {ν : Type*} [DecidableEq ν]

def saveToFile (opens : ν → Bool) (path : ν) (m : ObSSTableMeta) (fs : FileSystem ν) :
    ℤ × FileSystem ν :=
  if opens path then
    (0, (fs.openTrunc path).2.modify (fs.openTrunc path).1 (·.pwrite 0 m.serialize))
  else (-1, fs)

def loadFromFile (path : ν) (fs : FileSystem ν) (m : ObSSTableMeta) : ℤ × ObSSTableMeta :=
  match fs.file? path with
  | none => (-1, m)
  | some f => m.deserialize (f.pread 0 f.size)

end ObSSTableMeta

open ObSSTableMeta

structure ObSSTable (ν : Type*) where
  sstableMeta : ObSSTableMeta := {}
  dataFilePath : ν
  metaFilePath : ν
  isInited : Bool := false

namespace ObSSTable

variable {ν : Type*} [DecidableEq ν]

def new [Inhabited ν] : ObSSTable ν := { dataFilePath := default, metaFilePath := default }

def init (dataFilePath metaFilePath : ν) (fs : FileSystem ν) (t : ObSSTable ν) :
    ℤ × ObSSTable ν :=
  let (ret, sstableMeta) := t.sstableMeta.loadFromFile metaFilePath fs
  let t := { t with dataFilePath, metaFilePath, sstableMeta }
  if ret ≠ 0 then (ret, t) else (0, { t with isInited := true })

def writeBlocks (fd : ℕ) : List Bytes → List ℤ → ℕ → ObSSTableMeta → FileSystem ν →
    ObSSTableMeta × FileSystem ν
  | [], _, _, m, fs => (m, fs)
  | block :: blocks, seqs, offset, m, fs =>
    writeBlocks fd blocks seqs.tail (offset + block.length)
      (m.addMacroBlock (seqs.headD 0) offset block.length 0 0)
      (fs.modify fd (·.pwrite offset block))

def createFromBlocks (opens : ν → Bool) (macroBlocks : List Bytes) (macroSeqs : List ℤ)
    (sstableMeta : ObSSTableMeta) (dataFilePath metaFilePath : ν) (fs : FileSystem ν)
    (t : ObSSTable ν) : ℤ × ObSSTable ν × FileSystem ν :=
  if opens dataFilePath then
    let (fd, fs) := fs.openTrunc dataFilePath
    let cleared := { sstableMeta with macroInfo := {} }
    let (writeMeta, fs) := writeBlocks fd macroBlocks macroSeqs 0 cleared fs
    -- the result of `save_to_file` is not looked at
    let (_, fs) := writeMeta.saveToFile opens metaFilePath fs
    (0, { sstableMeta := writeMeta, dataFilePath, metaFilePath, isInited := true }, fs)
  else (-1, { t with sstableMeta, dataFilePath, metaFilePath }, fs)

def getRowCount (t : ObSSTable ν) : ℤ := t.sstableMeta.getRowCount

def isEmpty (t : ObSSTable ν) : Bool := t.sstableMeta.getRowCount == 0

/-- `resize`, `seekg` and `read`: what the file does not give keeps its place in the string. -/
def readInto (f : File) (offset size : ℤ) (out : Bytes) : Bytes :=
  let resized := out.take size.toNat ++ List.replicate (size.toNat - out.length) 0
  if offset < 0 then resized else overwrite resized 0 (f.pread offset.toNat size.toNat)

def readMacroBlock (macroIdx : ℤ) (out : Bytes) (fs : FileSystem ν) (t : ObSSTable ν) :
    ℤ × Bytes :=
  if !t.isInited then (-1, out)
  else if macroIdx < 0 ∨ macroIdx ≥ t.sstableMeta.macroInfo.macroOffsets.length then (-1, out)
  else
    let (_, offset, size) := t.sstableMeta.macroInfo.entry macroIdx.toNat
    match fs.file? t.dataFilePath with
    | none => (-1, out)
    | some f => (0, readInto f offset size out)

end ObSSTable

section MetaRoundTrip

theorem length_entryImage (e : MacroEntry) : (entryImage e).length = 24 := by
  simp [entryImage]

def storedEntry (e : MacroEntry) : MacroEntry :=
  (ofLEInt (toLEInt 8 e.1), ofLEInt (toLEInt 8 e.2.1), ofLEInt (toLEInt 8 e.2.2))

theorem entryOfImage_append (e : MacroEntry) (rest : Bytes) :
    entryOfImage (entryImage e ++ rest) = storedEntry e := by
  have hslice (k : ℕ) (hk : k + 8 ≤ 24) :
      slice (entryImage e ++ rest) k 8 = slice (entryImage e) k 8 :=
    slice_append_of_le rest (by rw [length_entryImage]; exact hk)
  rw [entryOfImage, hslice 0 (by omega), hslice 8 (by omega), hslice 16 (by omega)]
  simp [entryImage, slice, storedEntry, List.drop_append,
    List.drop_eq_nil_of_le, List.take_of_length_le]

theorem readEntries_flatMap (l front : List MacroEntry) :
    readEntries l.length (l.flatMap entryImage)
      (ofEntries front) =
      ofEntries (front ++ l.map storedEntry) := by
  induction l generalizing front with
  | nil => simp [readEntries]
  | cons e l ih =>
    rw [List.length_cons, List.flatMap_cons, readEntries, entryOfImage_append,
      ofEntries_pushBack, if_pos (by simp [length_entryImage])]
    rw [List.drop_left' (length_entryImage e), ih]
    simp

theorem ofLEInt_toLEInt_natCast {n : ℕ} (h : n < 2 ^ 63) : ofLEInt (toLEInt 8 n) = n := by
  apply ofLEInt_toLEInt <;> omega

theorem deserializeMacros_eq {l : List MacroEntry} (hl : l.length < 2 ^ 63)
    (m : ObSSTableMeta) (hm : m.macroInfo = {}) :
    deserializeMacros (toLEInt 8 l.length ++ l.flatMap entryImage) m =
      (0, { m with
        macroInfo := .ofEntries (l.map storedEntry)
        basicMeta := { m.basicMeta with dataMacroBlockCount := l.length } }) := by
  have hread := readEntries_flatMap l []
  rw [List.nil_append] at hread
  rw [deserializeMacros, if_neg (by simp), List.take_left' (length_toLEInt 8 _),
    List.drop_left' (length_toLEInt 8 _), ofLEInt_toLEInt_natCast hl, hm, ← hread]
  rfl

theorem serialize_eq {m : ObSSTableMeta} {l : List MacroEntry}
    (hinfo : m.macroInfo = .ofEntries l) :
    m.serialize = m.basicMeta.image ++ (toLEInt 8 m.rootBlockData.length ++ (m.rootBlockData ++
      (toLEInt 8 l.length ++ l.flatMap entryImage))) := by
  have hids : m.macroInfo.macroIds.length = l.length := by
    rw [hinfo]
    exact List.length_map _
  have hentries : (List.range l.length).flatMap (fun i => entryImage (m.macroInfo.entry i)) =
      l.flatMap entryImage := by
    conv_rhs => rw [← map_entry_ofEntries l]
    rw [List.flatMap_map, hinfo]
  rw [serialize, hids, hentries]

theorem deserialize_serialize_eq {m : ObSSTableMeta} {l : List MacroEntry}
    (hinfo : m.macroInfo = .ofEntries l) (hroot : m.rootBlockData.length < 2 ^ 63)
    (hl : l.length < 2 ^ 63) :
    deserialize m.serialize {} = (0,
      { basicMeta := { ObSSTableBasicMeta.ofImage m.basicMeta.image with
          dataMacroBlockCount := l.length }
        rootBlockData := m.rootBlockData
        macroInfo := .ofEntries (l.map storedEntry) }) := by
  have hbasic := m.basicMeta.length_image
  rw [serialize_eq hinfo, deserialize,
    if_neg (by rw [List.length_append, hbasic]; omega), List.drop_left' hbasic,
    List.take_left' hbasic, deserializeRoot, if_neg (by simp),
    List.take_left' (length_toLEInt 8 _), List.drop_left' (length_toLEInt 8 _),
    ofLEInt_toLEInt_natCast hroot]
  dsimp only
  split
  · rw [Int.toNat_natCast, List.drop_left, List.take_left]
    exact deserializeMacros_eq hl _ rfl
  · -- an empty root block is not read at all
    rename_i hempty
    have hnil : m.rootBlockData = [] := by
      rw [List.length_append] at hempty
      apply List.eq_nil_of_length_eq_zero
      omega
    rw [hnil, List.nil_append]
    exact deserializeMacros_eq hl _ rfl

end MetaRoundTrip

section Blocks

def placesFrom : ℕ → List Bytes → List (ℤ × ℤ)
  | _, [] => []
  | offset, b :: bs => (↑offset, ↑b.length) :: placesFrom (offset + b.length) bs

@[simp] theorem length_placesFrom (offset : ℕ) (blocks : List Bytes) :
    (placesFrom offset blocks).length = blocks.length := by
  induction blocks generalizing offset with
  | nil => rfl
  | cons b bs ih => simp [placesFrom, ih]

theorem getElem?_placesFrom (offset : ℕ) (blocks : List Bytes) (i : ℕ) :
    (placesFrom offset blocks)[i]? =
      blocks[i]?.map fun b => (((offset + (blocks.take i).flatten.length : ℕ) : ℤ), ↑b.length) := by
  induction blocks generalizing offset i with
  | nil => simp [placesFrom]
  | cons b bs ih =>
    cases i with
    | zero => simp [placesFrom]
    | succ i => simp [placesFrom, ih, Nat.add_assoc]

theorem storedEntry_places {l : List MacroEntry} {offset : ℕ} {blocks : List Bytes}
    (hl : l.map (·.2) = placesFrom offset blocks)
    (hsize : offset + blocks.flatten.length < 2 ^ 63) :
    (l.map storedEntry).map (·.2) = placesFrom offset blocks := by
  induction blocks generalizing l offset with
  | nil => simpa [placesFrom] using hl
  | cons b bs ih =>
    obtain ⟨e, l, rfl, he, hrest⟩ := List.map_eq_cons_iff.mp hl
    rw [List.flatten_cons, List.length_append] at hsize
    have htail := ih hrest (by omega)
    have hhead : (storedEntry e).2 = e.2 := by
      rw [he]
      show (ofLEInt (toLEInt 8 e.2.1), ofLEInt (toLEInt 8 e.2.2)) = _
      rw [he, ofLEInt_toLEInt_natCast (by omega), ofLEInt_toLEInt_natCast (by omega)]
    rw [List.map_cons, List.map_cons, hhead, htail, he, placesFrom]

variable {ν : Type*}

namespace ObSSTable

/-- The blocks are read back under their indices, and no other index can be read. -/
structure ReadsBack (t : ObSSTable ν) (fs : FileSystem ν) (blocks : List Bytes) : Prop where
  block : ∀ (i : ℕ) (b : Bytes), blocks[i]? = some b →
    ∀ out, t.readMacroBlock i out fs = (0, b)
  other : ∀ i : ℤ, i < 0 ∨ blocks.length ≤ i → ∀ out, (t.readMacroBlock i out fs).1 = -1

theorem readInto_of_holds {f : File} {off : ℕ} {b : Bytes} (h : f.Holds off b) (out : Bytes) :
    readInto f off b.length out = b := by
  have hlen : (out.take b.length ++ List.replicate (b.length - out.length) 0).length =
      b.length := by
    rw [List.length_append, List.length_take, List.length_replicate]
    omega
  rw [readInto, if_neg (by omega), Int.toNat_natCast, Int.toNat_natCast, h.pread_eq, overwrite,
    List.take_zero, List.nil_append, List.drop_eq_nil_of_le (by rw [hlen]; omega),
    List.append_nil]

theorem flatten_split {blocks : List Bytes} {i : ℕ} {b : Bytes} (h : blocks[i]? = some b) :
    blocks.flatten = (blocks.take i).flatten ++ (b ++ (blocks.drop (i + 1)).flatten) := by
  obtain ⟨hi, rfl⟩ := List.getElem?_eq_some_iff.mp h
  conv_lhs => rw [← List.take_append_drop i blocks, List.drop_eq_getElem_cons hi]
  rw [List.flatten_append, List.flatten_cons]

theorem readsBack_of_places {t : ObSSTable ν} {fs : FileSystem ν} {l : List MacroEntry}
    {blocks : List Bytes} {f : File} (hinit : t.isInited = true)
    (hinfo : t.sstableMeta.macroInfo = .ofEntries l) (hl : l.map (·.2) = placesFrom 0 blocks)
    (hfile : fs.file? t.dataFilePath = some f) (hholds : f.Holds 0 blocks.flatten) :
    ReadsBack t fs blocks := by
  have hlength : l.length = blocks.length := by
    rw [← length_placesFrom 0 blocks, ← hl, List.length_map]
  have hcount : t.sstableMeta.macroInfo.macroOffsets.length = blocks.length := by
    rw [hinfo, ← hlength]
    exact List.length_map _
  constructor
  · intro i b hb out
    have hi : i < blocks.length := (List.getElem?_eq_some_iff.mp hb).1
    have hplace := getElem?_placesFrom 0 blocks i
    rw [← hl, hb, List.getElem?_map, Option.map_some, Nat.zero_add] at hplace
    obtain ⟨e, he, hplace⟩ := Option.map_eq_some_iff.mp hplace
    have hentry : t.sstableMeta.macroInfo.entry i =
        (e.1, ((blocks.take i).flatten.length : ℤ), (b.length : ℤ)) := by
      rw [hinfo, ← hplace]
      simp [ObSSTableMacroInfo.entry, ObSSTableMacroInfo.ofEntries, he]
    rw [flatten_split hb] at hholds
    have hb' : f.Holds (blocks.take i).flatten.length b := by
      have := hholds.right.left
      rwa [Nat.zero_add] at this
    rw [readMacroBlock, hinit, if_neg (by simp), if_neg (by omega), hfile, Int.toNat_natCast,
      hentry]
    exact congrArg (Prod.mk 0) (readInto_of_holds hb' out)
  · intro i hi out
    rw [readMacroBlock, hinit, if_neg (by simp), if_pos (by omega)]

theorem writeBlocks_meta (fd : ℕ) (blocks : List Bytes) (seqs : List ℤ) (offset : ℕ)
    {m : ObSSTableMeta} (fs : FileSystem ν) {front : List MacroEntry}
    (hm : m.macroInfo = .ofEntries front) :
    ∃ l : List MacroEntry, l.map (·.2) = placesFrom offset blocks ∧
      (writeBlocks fd blocks seqs offset m fs).1.macroInfo = .ofEntries (front ++ l) ∧
      (writeBlocks fd blocks seqs offset m fs).1.rootBlockData = m.rootBlockData := by
  induction blocks generalizing seqs offset m fs front with
  | nil => exact ⟨[], rfl, by simpa [writeBlocks] using hm, rfl⟩
  | cons b bs ih =>
    let e : MacroEntry := (seqs.headD 0, ↑offset, ↑b.length)
    have hadd : (m.addMacroBlock (seqs.headD 0) offset b.length 0 0).macroInfo =
        .ofEntries (front ++ [e]) := by
      rw [← ofEntries_pushBack, ← hm]
      rfl
    obtain ⟨l, hl, hinfo, hroot⟩ := ih seqs.tail (offset + b.length)
      (fs.modify fd (·.pwrite offset b)) hadd
    refine ⟨e :: l, ?_, ?_, hroot⟩
    · rw [List.map_cons, hl, placesFrom]
    · rw [writeBlocks, hinfo, List.append_assoc, List.singleton_append]

theorem writeBlocks_files {fd : ℕ} {p : ν} (blocks : List Bytes) (seqs : List ℤ)
    (m : ObSSTableMeta) {fs : FileSystem ν} {f : File} {written : Bytes}
    (hfd : fs.entry p = some fd) (hf : fs.file? p = some f) (hholds : f.Holds 0 written) :
    (∃ f', (writeBlocks fd blocks seqs written.length m fs).2.file? p = some f' ∧
        f'.Holds 0 (written ++ blocks.flatten)) ∧
      ∀ q, q ≠ p → (writeBlocks fd blocks seqs written.length m fs).2.file? q = fs.file? q := by
  induction blocks generalizing seqs m fs f written with
  | nil => exact ⟨⟨f, hf, by simpa using hholds⟩, fun _ _ => rfl⟩
  | cons b bs ih =>
    have hinode : fs.inode fd = f := by
      rw [file?, hfd] at hf
      exact Option.some.inj hf
    have hself := file?_modify_self hfd (·.pwrite written.length b)
    rw [hinode] at hself
    have hfd' : (fs.modify fd (·.pwrite written.length b)).entry p = some fd := hfd
    obtain ⟨⟨f', hf', hall⟩, hother⟩ := ih seqs.tail
      (m.addMacroBlock (seqs.headD 0) written.length b.length 0 0) hfd' hself
      (hholds.pwrite_append b)
    rw [List.append_assoc, ← List.flatten_cons] at hall
    rw [List.length_append] at hf' hother
    refine ⟨⟨f', hf', hall⟩, ?_⟩
    intro q hq
    rw [writeBlocks, hother q hq, file?_modify_of_ne hfd hq]

variable [DecidableEq ν]

theorem loadFromFile_saveToFile {opens : ν → Bool} {path : ν} (hopen : opens path = true)
    (m : ObSSTableMeta) (fs : FileSystem ν) :
    loadFromFile path (m.saveToFile opens path fs).2 {} =
      deserialize m.serialize {} := by
  have hentry := entry_openTrunc_self fs path
  have hempty : (fs.openTrunc path).2.inode (fs.openTrunc path).1 = .empty := by
    have hfile := file?_openTrunc_self fs path
    rw [file?, hentry] at hfile
    exact Option.some.inj hfile
  have hholds := (File.holds_nil .empty).pwrite_append m.serialize
  have hsize := File.size_pwrite_append (show File.empty.size = ([] : Bytes).length from rfl)
    m.serialize
  rw [List.nil_append] at hholds hsize
  rw [saveToFile, if_pos hopen, loadFromFile,
    file?_modify_self hentry, hempty]
  show deserialize (File.pread _ 0 (File.pwrite _ ([] : Bytes).length _).size) {} = _
  rw [hsize]
  exact congrArg (deserialize · {}) hholds.pread_eq

theorem file?_saveToFile_of_ne (opens : ν → Bool) {path q : ν} (hq : q ≠ path)
    (m : ObSSTableMeta) (fs : FileSystem ν) :
    (m.saveToFile opens path fs).2.file? q = fs.file? q := by
  unfold saveToFile
  split
  · rw [file?_modify_of_ne (entry_openTrunc_self fs path) hq,
      file?_openTrunc_of_ne fs hq]
  · rfl

theorem createFromBlocks_places {opens : ν → Bool} {dataPath metaPath : ν}
    (hopen : opens dataPath = true) (hpaths : dataPath ≠ metaPath) (blocks : List Bytes)
    (seqs : List ℤ) (sstableMeta : ObSSTableMeta) (t : ObSSTable ν) (fs : FileSystem ν) :
    ∃ (w : ObSSTableMeta) (fs₁ : FileSystem ν) (l : List MacroEntry) (f : File),
      t.createFromBlocks opens blocks seqs sstableMeta dataPath metaPath fs =
        (0, ⟨w, dataPath, metaPath, true⟩, (w.saveToFile opens metaPath fs₁).2) ∧
      w.rootBlockData = sstableMeta.rootBlockData ∧ w.macroInfo = .ofEntries l ∧
      l.map (·.2) = placesFrom 0 blocks ∧
      (w.saveToFile opens metaPath fs₁).2.file? dataPath = some f ∧
      f.Holds 0 blocks.flatten := by
  have hcleared : ({ sstableMeta with macroInfo := {} } : ObSSTableMeta).macroInfo =
      .ofEntries [] := rfl
  obtain ⟨l, hl, hinfo, hroot⟩ := writeBlocks_meta (fs.openTrunc dataPath).1 blocks seqs 0
    (fs.openTrunc dataPath).2 hcleared
  obtain ⟨⟨f, hf, hholds⟩, -⟩ := writeBlocks_files blocks seqs
    { sstableMeta with macroInfo := {} } (entry_openTrunc_self fs dataPath)
    (file?_openTrunc_self fs dataPath) (File.holds_nil _)
  rw [List.nil_append] at hinfo hholds
  rw [← file?_saveToFile_of_ne opens hpaths] at hf
  refine ⟨_, _, l, f, ?_, hroot, hinfo, hl, hf, hholds⟩
  rw [createFromBlocks, if_pos hopen]
  rfl

theorem createFromBlocks_readsBack {opens : ν → Bool} {dataPath metaPath : ν}
    (hopen : opens dataPath = true) (hpaths : dataPath ≠ metaPath) (blocks : List Bytes)
    (seqs : List ℤ) (sstableMeta : ObSSTableMeta) (t : ObSSTable ν) (fs : FileSystem ν) :
    ∃ t' fs', t.createFromBlocks opens blocks seqs sstableMeta dataPath metaPath fs =
      (0, t', fs') ∧ t'.sstableMeta.macroInfo.macroOffsets.length = blocks.length ∧
      ReadsBack t' fs' blocks := by
  obtain ⟨w, fs₁, l, f, heq, -, hinfo, hl, hf, hholds⟩ :=
    createFromBlocks_places hopen hpaths blocks seqs sstableMeta t fs
  refine ⟨_, _, heq, ?_, readsBack_of_places rfl hinfo hl hf hholds⟩
  dsimp only
  rw [hinfo, ← length_placesFrom 0 blocks, ← hl, List.length_map]
  exact List.length_map _

/-- A created table returns its blocks, and so does a fresh one that is initialised from
the two files. The sums of the sizes are what a file can hold. -/
theorem macro_blocks_round_trip [Inhabited ν] (opens : ν → Bool) (blocks : List Bytes)
    (seqs : List ℤ) (sstableMeta : ObSSTableMeta) {dataPath metaPath : ν}
    (hpaths : dataPath ≠ metaPath) (hdata : blocks.flatten.length < 2 ^ 63)
    (hmeta : 120 + sstableMeta.rootBlockData.length + 24 * blocks.length < 2 ^ 63)
    (t t' : ObSSTable ν) (fs fs' : FileSystem ν)
    (hcreate : t.createFromBlocks opens blocks seqs sstableMeta dataPath metaPath fs =
      (0, t', fs')) :
    ReadsBack t' fs' blocks ∧ (opens metaPath = true →
      ∃ u, (new : ObSSTable ν).init dataPath metaPath fs' = (0, u) ∧ ReadsBack u fs' blocks) := by
  have hopens : opens dataPath = true := by
    by_contra hnot
    rw [createFromBlocks, if_neg hnot] at hcreate
    simp at hcreate
  obtain ⟨w, fs₁, l, f, heq, hroot, hinfo, hl, hfile, hholds⟩ :=
    createFromBlocks_places hopens hpaths blocks seqs sstableMeta t fs
  cases heq.symm.trans hcreate
  refine ⟨readsBack_of_places rfl hinfo hl hfile hholds, ?_⟩
  intro hopen
  have hlength : l.length = blocks.length := by
    rw [← length_placesFrom 0 blocks, ← hl, List.length_map]
  obtain ⟨m', hload, hinfo'⟩ : ∃ m', deserialize w.serialize {} = (0, m') ∧
      m'.macroInfo = .ofEntries (l.map storedEntry) :=
    ⟨_, deserialize_serialize_eq hinfo (by rw [hroot]; omega) (by omega), rfl⟩
  rw [← loadFromFile_saveToFile hopen w fs₁] at hload
  have hstored := storedEntry_places hl (by omega)
  refine ⟨⟨m', dataPath, metaPath, true⟩, ?_,
    readsBack_of_places rfl hinfo' hstored hfile hholds⟩
  rw [init, new, hload]
  rfl

/-- Three blocks, the second of them empty. -/
theorem macro_blocks_round_trip_example :
    let r := (new : ObSSTable ℕ).createFromBlocks (fun _ => true) [[1, 2], [], [3]] [7, 8, 9] {}
      0 1 .blank
    r.1 = 0 ∧ ReadsBack r.2.1 r.2.2 [[1, 2], [], [3]] ∧
      ∃ u, (new : ObSSTable ℕ).init 0 1 r.2.2 = (0, u) ∧ ReadsBack u r.2.2 [[1, 2], [], [3]] := by
  intro r
  have hread := macro_blocks_round_trip (fun _ => true) [[1, 2], [], [3]] [7, 8, 9] {}
    (show (0 : ℕ) ≠ 1 by decide) (by decide) (by decide) new r.2.1 .blank r.2.2 rfl
  exact ⟨rfl, hread.1, hread.2 rfl⟩

end ObSSTable

end Blocks

end SSTable
