import LsmStorage.MacroBlockRows
import LsmStorage.MemtableMap
import LsmStorage.SSTable

/-! # ObSSTableBuilder and the mini merge

A mini merge scans a memtable and appends the rows of the scan to the builder of a table. The
rows of a scan carry flag and value but no rowkey, and the block writer encodes the rowkey it
is given. The table therefore holds one row for each hash value, and every one of them under
the empty key. -/
namespace Compaction

open ByteCodec PosixFiles MvccRow RowkeyHash Memtable MemtableMap MicroBlock MacroBlock
  MacroBlockRows SSTable

structure ObSSTableBuilder (ν : Type*) where
  desc : ObDataStoreDesc := {}
  writer : ObMacroBlockWriter := .new
  macroBlocks : List Bytes := []
  macroSeqs : List ℤ := []
  dataFilePath : ν
  metaFilePath : ν
  sstableMeta : ObSSTableMeta := {}
  sstable : ObSSTable ν
  isClosed : Bool := false

namespace ObSSTableBuilder

variable {ν : Type*}

def new [Inhabited ν] : ObSSTableBuilder ν :=
  { dataFilePath := default, metaFilePath := default, sstable := .new }

def init (desc : ObDataStoreDesc) (dataFilePath metaFilePath : ν) (b : ObSSTableBuilder ν) :
    ℤ × ObSSTableBuilder ν :=
  let (ret, writer) := b.writer.openWriter desc 0
  let b := { b with desc, dataFilePath, metaFilePath, writer }
  if ret ≠ 0 then (ret, b)
  else
    let (ret, sstableMeta) := b.sstableMeta.init desc.columnCount desc.rowkeyColumnCount
      desc.schemaVersion desc.snapshotVersion
    (ret, { b with sstableMeta })

def appendRow (row : ObStoreRow) (b : ObSSTableBuilder ν) : ℤ × ObSSTableBuilder ν :=
  let (ret, flushed, writer) := b.writer.appendRow row
  let b := { b with writer }
  if ret ≠ 0 then (ret, b)
  else
    let (flushedBlock, flushedSeq) := flushed.getD ([], 0)
    if flushedBlock ≠ [] then
      (0, { b with
        macroBlocks := b.macroBlocks ++ [flushedBlock]
        macroSeqs := b.macroSeqs ++ [flushedSeq] })
    else (0, b)

def close [DecidableEq ν] (opens : ν → Bool) (fs : FileSystem ν) (b : ObSSTableBuilder ν) :
    ℤ × ObSSTableBuilder ν × FileSystem ν :=
  if b.isClosed then (0, b, fs)
  else
    let (ret, remaining, writer) := b.writer.close
    let b := { b with writer }
    if ret ≠ 0 then (ret, b, fs)
    else
      let b := { b with
        macroBlocks := b.macroBlocks ++ remaining.map Prod.fst
        macroSeqs := b.macroSeqs ++ remaining.map Prod.snd }
      let (ret, sstable, fs) := b.sstable.createFromBlocks opens b.macroBlocks b.macroSeqs
        b.sstableMeta b.dataFilePath b.metaFilePath fs
      (ret, { b with sstable, isClosed := true }, fs)

end ObSSTableBuilder

section MiniMerge

variable {η ν : Type*} [DecidableEq ν] [Inhabited ν]

/-- No answer of the builder is looked at. -/
def miniMerge (opens : ν → Bool) (frozenMemtable : ObMemtable η) (desc : ObDataStoreDesc)
    (dataPath metaPath : ν) (fs : FileSystem ν) : ℤ × ObSSTable ν × FileSystem ν :=
  let builder := ((ObSSTableBuilder.new : ObSSTableBuilder ν).init desc dataPath metaPath).2
  let rows := frozenMemtable.scan []
  let builder := rows.foldl (fun b row => (b.appendRow row).2) builder
  let (_, builder, fs) := builder.close opens fs
  (0, builder.sstable, fs)

end MiniMerge

section Builder

variable {ν : Type*}

def sstableRows (t : ObSSTable ν) (fs : FileSystem ν) :
    Option (List (ObDmlFlag × Bytes × Bytes)) :=
  decodeMacroBlocks ((List.range t.sstableMeta.macroInfo.macroOffsets.length).map fun i : ℕ =>
    (t.readMacroBlock i [] fs).2)

theorem sstableRows_of_readsBack {t : ObSSTable ν} {fs : FileSystem ν} {blocks : List Bytes}
    (hcount : t.sstableMeta.macroInfo.macroOffsets.length = blocks.length)
    (h : t.ReadsBack fs blocks) : sstableRows t fs = decodeMacroBlocks blocks := by
  rw [sstableRows, hcount]
  congr 1
  apply List.ext_getElem?
  intro i
  rw [List.getElem?_map]
  rcases Nat.lt_or_ge i blocks.length with hi | hi
  · have hb : blocks[i]? = some blocks[i] := List.getElem?_eq_getElem hi
    rw [List.getElem?_range hi, hb, Option.map_some, h.block i _ hb]
  · rw [List.getElem?_eq_none hi, List.getElem?_eq_none (by simpa using hi), Option.map_none]

/-- A row that does not fit takes the pending rows with it. -/
def packOrDrop (desc : ObDataStoreDesc) (p : Packing) (row : ObStoreRow) : Packing :=
  (packRow desc p row).getD { p with pending := [] }

theorem packOrDrop_subset (desc : ObDataStoreDesc) (p : Packing) (row : ObStoreRow) :
    (packOrDrop desc p row).rows ⊆ p.rows ++ [row] := by
  rw [packOrDrop]
  cases hp : packRow desc p row with
  | none =>
    intro r hr
    simp only [Option.getD_none, Packing.rows, List.append_nil] at hr
    exact List.mem_append_left _ (List.mem_append_left _ hr)
  | some p' =>
    rw [Option.getD_some, packRow_rows hp]
    exact List.Subset.refl _

theorem foldl_packOrDrop_subset (desc : ObDataStoreDesc) (rows : List ObStoreRow) (p : Packing) :
    (rows.foldl (packOrDrop desc) p).rows ⊆ p.rows ++ rows := by
  induction rows generalizing p with
  | nil => simp
  | cons row rows ih =>
    intro r hr
    rcases List.mem_append.mp (ih (packOrDrop desc p row) hr) with hp | hrows
    · rcases List.mem_append.mp (packOrDrop_subset desc p row hp) with hp | hrow
      · exact List.mem_append_left _ hp
      · rw [List.mem_singleton.mp hrow]
        exact List.mem_append_right _ List.mem_cons_self
    · exact List.mem_append_right _ (List.mem_cons_of_mem row hrows)

theorem ne_nil_of_isMacroBlock {desc : ObDataStoreDesc} {groups : List (List ObStoreRow)}
    {block : Bytes} (h : IsMacroBlock desc groups block) : block ≠ [] := by
  obtain ⟨-, headers, hheaders, rfl⟩ := h
  intro hnil
  rw [List.append_eq_nil_iff] at hnil
  rw [hnil.1] at hheaders
  cases hheaders

structure Building (b : ObSSTableBuilder ν) (desc : ObDataStoreDesc) (dataPath metaPath : ν)
    (p : Packing) : Prop where
  ready : Ready b.writer desc p b.macroBlocks
  dataFilePath : b.dataFilePath = dataPath
  metaFilePath : b.metaFilePath = metaPath
  isClosed : b.isClosed = false

variable {desc : ObDataStoreDesc} {dataPath metaPath : ν}

theorem init_building [Inhabited ν] (hsize : HoldsMicro desc) :
    Building ((ObSSTableBuilder.new : ObSSTableBuilder ν).init desc dataPath metaPath).2 desc
      dataPath metaPath {} :=
  ⟨openWriter_ready 0 hsize, rfl, rfl, rfl⟩

theorem appendRow_building (hsize : HoldsMicro desc) {b : ObSSTableBuilder ν} {p : Packing}
    (h : Building b desc dataPath metaPath p) (row : ObStoreRow) :
    Building (b.appendRow row).2 desc dataPath metaPath (packOrDrop desc p row) := by
  have hrow := appendRow_ready h.ready hsize row
  rw [packOrDrop]
  cases hp : packRow desc p row with
  | none =>
    rw [hp] at hrow
    obtain ⟨ret, w, hret, happend, hready⟩ := hrow
    rw [ObSSTableBuilder.appendRow, happend]
    dsimp only
    rw [if_pos hret]
    exact ⟨hready, h.dataFilePath, h.metaFilePath, h.isClosed⟩
  | some p' =>
    rw [hp] at hrow
    obtain ⟨flushed, w, happend, hready⟩ := hrow
    rw [ObSSTableBuilder.appendRow, happend]
    dsimp only
    rw [if_neg (by simp), Option.getD_some]
    cases flushed with
    | none =>
      refine ⟨?_, h.dataFilePath, h.metaFilePath, h.isClosed⟩
      simpa using hready
    | some r =>
      obtain ⟨block, seq⟩ := r
      have hlast : List.Forall₂ (IsMacroBlock desc) (p'.emitted.drop b.macroBlocks.length)
          [block] := List.forall₂_drop_append _ _ _ hready.emitted
      obtain ⟨groups, -, hblock, -⟩ := List.forall₂_cons_right_iff.mp hlast
      rw [Option.getD_some, if_pos (ne_nil_of_isMacroBlock hblock)]
      exact ⟨by simpa using hready, h.dataFilePath, h.metaFilePath, h.isClosed⟩

theorem foldl_building (hsize : HoldsMicro desc) (rows : List ObStoreRow) {b : ObSSTableBuilder ν}
    {p : Packing} (h : Building b desc dataPath metaPath p) :
    Building (rows.foldl (fun b row => (b.appendRow row).2) b) desc dataPath metaPath
      (rows.foldl (packOrDrop desc) p) := by
  induction rows generalizing b p with
  | nil => exact h
  | cons row rows ih => exact ih (appendRow_building hsize h row)

variable [DecidableEq ν]

theorem close_building {opens : ν → Bool} (hopen : opens dataPath = true)
    (hpaths : dataPath ≠ metaPath) (hsize : HoldsReserve desc) (hmax : desc.macroBlockSize < 2 ^ 32)
    {b : ObSSTableBuilder ν} {p : Packing} (h : Building b desc dataPath metaPath p)
    (fs : FileSystem ν) :
    ∃ b' fs', b.close opens fs = (0, b', fs') ∧
      sstableRows b'.sstable fs' = some ((p.kept desc).map rowContent) := by
  obtain ⟨block, seq, w, hclose, hblock⟩ := close_ready h.ready hsize
  obtain ⟨t, fs', hcreate, hcount, hreads⟩ := ObSSTable.createFromBlocks_readsBack hopen hpaths
    (b.macroBlocks ++ [block]) (b.macroSeqs ++ [seq]) b.sstableMeta b.sstable fs
  have hdecode := decodeMacroBlocks_of_closed hmax h.ready.emitted hblock
  refine ⟨{ b with
    writer := w
    macroBlocks := b.macroBlocks ++ [block]
    macroSeqs := b.macroSeqs ++ [seq]
    sstable := t
    isClosed := true }, fs', ?_, (sstableRows_of_readsBack hcount hreads).trans hdecode⟩
  rw [ObSSTableBuilder.close, h.isClosed, hclose]
  simp [h.dataFilePath, h.metaFilePath, hcreate]

theorem miniMerge_rows [Inhabited ν] {η : Type*} {opens : ν → Bool} (hopen : opens dataPath = true)
    (hpaths : dataPath ≠ metaPath) (hsize : HoldsMicro desc) (hmax : desc.macroBlockSize < 2 ^ 32)
    (t : ObMemtable η) (fs : FileSystem ν) :
    sstableRows (miniMerge opens t desc dataPath metaPath fs).2.1
        (miniMerge opens t desc dataPath metaPath fs).2.2 =
      some ((((t.scan []).foldl (packOrDrop desc) {}).kept desc).map rowContent) := by
  have hinit : Building ((ObSSTableBuilder.new : ObSSTableBuilder ν).init desc dataPath
      metaPath).2 desc dataPath metaPath {} := init_building hsize
  obtain ⟨b, fs', hclose, hrows⟩ := close_building hopen hpaths (by omega) hmax
    (foldl_building hsize (t.scan []) hinit) fs
  rw [miniMerge, hclose]
  exact hrows

end Builder

section Keys

variable {η : Type*}

inductive Filled : ObMemtable η → List Write → Prop where
  | create (tabletId : ℤ) : Filled (.create tabletId) []
  | set {L : Type} {t ws} (append : η → Bytes → L → ℤ × L) (mallocOk : Bool) (w : Write) (log : L) :
    Filled t ws → Filled (t.set append mallocOk w.ctx w.row log).2.1
      (if (t.set append mallocOk w.ctx w.row log).1 = 0 then w :: ws else ws)
  | replay {t t' ws keyHigh valHigh mallocOk buf row ret} :
    Filled t ws → ObMemtable.parseRecord keyHigh valHigh buf = some row →
    t.replay keyHigh valHigh mallocOk buf = some (ret, t') →
    Filled t' (if ret = 0 then ⟨{}, row⟩ :: ws else ws)
  | setLogHandler {t ws} (handler : Option η) : Filled t ws → Filled (t.setLogHandler handler) ws
  | setFrozen {t ws} : Filled t ws → Filled t.setFrozen ws

theorem Filled.contents {t : ObMemtable η} {ws : List Write} (h : Filled t ws) :
    Contents t ws := by
  induction h with
  | create tabletId => exact contents_create tabletId
  | set append mallocOk w log _ ih => exact (set_contents append mallocOk ih w log).1
  | @replay t t' ws keyHigh valHigh mallocOk buf row ret _ hrow hreplay ih =>
    have hquiet : Contents ({ t with logHandler := none } : ObMemtable η) ws :=
      ⟨ih.represents, ih.rowCount, ih.occupySize⟩
    have hset := (set_contents (fun (_ : η) _ (log : Unit) => (0, log)) mallocOk hquiet
      ⟨{}, row⟩ ()).1
    rw [ObMemtable.replay, hrow] at hreplay
    split at hreplay
    · -- an empty buffer is refused and changes nothing
      cases hreplay
      exact ih
    · cases hreplay
      exact ⟨hset.represents, hset.rowCount, hset.occupySize⟩
  | setLogHandler handler _ ih => exact ⟨ih.represents, ih.rowCount, ih.occupySize⟩
  | setFrozen _ ih => exact ⟨ih.represents, ih.rowCount, ih.occupySize⟩

def KeepsEveryKey (t : ObMemtable η) (ws : List Write)
    (rows : List (ObDmlFlag × Bytes × Bytes)) : Prop :=
  ∀ w ∈ ws, ∃ row, t.get {} w.row.rowkey = some row ∧
    rows.filter (fun r => r.2.1 = w.row.rowkey.buf) =
      [(row.dmlFlag, w.row.rowkey.buf, row.rowValue)]

structure RowsFit (desc : ObDataStoreDesc) : Prop where
  micro : ObMacroBlock.headerReserve + desc.microBlockSize ≤ desc.macroBlockSize
  row : ObMacroBlock.headerReserve + ObMicroBlockHeader.getSerializeSize + 4096 + 4 ≤
    desc.macroBlockSize
  max : desc.macroBlockSize < 2 ^ 32

theorem rowsFit_default : RowsFit {} := ⟨by decide, by decide, by decide⟩

theorem kept_singleton {desc : ObDataStoreDesc} (hfit : RowsFit desc) {row : ObStoreRow}
    (hrow : (encodeRow row).length < 4096) : (packOrDrop desc {} row).kept desc = [row] := by
  have hocc : occupied [[row]] ≤ desc.macroBlockSize := by
    have hroom := hfit.row
    simp only [occupied, blockSize, dataSize, List.map_cons, List.map_nil, List.sum_cons,
      List.sum_nil, List.flatMap_cons, List.flatMap_nil, List.append_nil, List.length_singleton]
    simp only [ObMacroBlock.headerReserve, ObMicroBlockHeader.getSerializeSize] at hroom ⊢
    omega
  have hpack : ∃ p, packRow desc {} row = some p ∧ p.Fits desc := by
    rw [packRow]
    dsimp only [List.nil_append]
    split
    · exact ⟨_, rfl, Or.inr hocc⟩
    rw [if_neg (not_lt.mpr hocc)]
    split
    · exact ⟨_, rfl, Or.inl rfl⟩
    · exact ⟨_, rfl, Or.inl rfl⟩
  obtain ⟨p, hp, hlast⟩ := hpack
  rw [packOrDrop, hp, Option.getD_some, kept_of_fits hlast, packRow_rows hp]
  rfl

theorem rowkey_of_mem_scan {t : ObMemtable η} {ws : List Write} (h : Contents t ws)
    {row : ObStoreRow} (hrow : row ∈ t.scan []) : row.rowkey.buf = [] := by
  rw [scan_eq_hashes h, List.nil_append, List.mem_filterMap] at hrow
  obtain ⟨g, -, hrow⟩ := hrow
  obtain ⟨w, -, rfl⟩ := Option.map_eq_some_iff.mp hrow
  rfl

theorem scan_of_one_slot {t : ObMemtable η} {w : Write} {ws : List Write}
    (h : Contents t (w :: ws)) (hslot : ∀ v ∈ ws, v.slot = w.slot) : t.scan [] = [w.read] := by
  have hmem : ∀ g, g ∈ hashes t (w :: ws) ↔ g = w.slot := by
    intro g
    rw [mem_hashes h]
    constructor
    · rintro ⟨v, hv, rfl⟩
      rcases List.mem_cons.mp hv with rfl | hv
      · rfl
      · exact hslot v hv
    · rintro rfl
      exact ⟨w, List.mem_cons_self, rfl⟩
  have hnodup : (hashes t (w :: ws)).Nodup := (hashes_increasing t (w :: ws)).imp UInt64.ne_of_lt
  have hone : hashes t (w :: ws) = [w.slot] := by
    apply List.perm_singleton.mp
    apply (List.perm_ext_iff_of_nodup hnodup (List.nodup_singleton _)).mpr
    intro g
    rw [hmem g, List.mem_singleton]
  rw [scan_eq_hashes h, hone]
  simp

theorem slot_eq_of_buf_nil {v w : Write} (hv : v.row.rowkey.buf = []) (hw : w.row.rowkey.buf = []) :
    v.slot = w.slot := by
  have heq : v.row.rowkey = w.row.rowkey := by
    cases hkv : v.row.rowkey
    cases hkw : w.row.rowkey
    rw [hkv] at hv
    rw [hkw] at hw
    dsimp only at hv hw
    rw [hv, hw]
  rw [Write.slot, Write.slot, heq]

theorem length_encodeRow_read_le (w : Write) :
    (encodeRow w.read).length ≤ (encodeRow w.row).length := by
  have hkey : w.read.rowkey.buf.length = 0 := rfl
  have hvalue : w.read.rowValue.length = w.row.rowValue.length := rfl
  rw [length_encodeRow, length_encodeRow, hkey, hvalue]
  omega

theorem key_empty_of_keeps {desc : ObDataStoreDesc} {t : ObMemtable η} {ws : List Write}
    (h : Contents t ws)
    (hkeeps : KeepsEveryKey t ws
      ((((t.scan []).foldl (packOrDrop desc) {}).kept desc).map rowContent))
    {w : Write} (hw : w ∈ ws) : w.row.rowkey.buf = [] := by
  obtain ⟨row, -, hfilter⟩ := hkeeps w hw
  have hmem := List.mem_of_mem_filter (hfilter ▸ List.mem_singleton_self _)
  obtain ⟨r, hr, heq⟩ := List.mem_map.mp hmem
  have hpacked := foldl_packOrDrop_subset desc (t.scan []) {} (kept_subset _ hr)
  have hscan : r ∈ t.scan [] := by simpa [Packing.rows] using hpacked
  have hkey : r.rowkey.buf = w.row.rowkey.buf := congrArg (fun c => c.2.1) heq
  rw [← hkey]
  exact rowkey_of_mem_scan h hscan

theorem keeps_of_keys_empty {desc : ObDataStoreDesc} (hfit : RowsFit desc) {t : ObMemtable η}
    {ws : List Write} (h : Contents t ws) (hrows : ∀ w ∈ ws, (encodeRow w.row).length < 4096)
    (hempty : ∀ w ∈ ws, w.row.rowkey.buf = []) :
    KeepsEveryKey t ws ((((t.scan []).foldl (packOrDrop desc) {}).kept desc).map rowContent) := by
  cases ws with
  | nil =>
    intro w hw
    cases hw
  | cons w ws =>
    have hw := hempty w List.mem_cons_self
    have hslot : ∀ v ∈ ws, v.slot = w.slot := fun v hv =>
      slot_eq_of_buf_nil (hempty v (List.mem_cons_of_mem w hv)) hw
    have hsmall := (length_encodeRow_read_le w).trans_lt (hrows w List.mem_cons_self)
    rw [scan_of_one_slot h hslot, List.foldl_cons, List.foldl_nil, kept_singleton hfit hsmall]
    intro v hv
    have hv' : w.slot = slot v.row.rowkey := slot_eq_of_buf_nil hw (hempty v hv)
    refine ⟨w.read, ?_, ?_⟩
    · rw [get_of_contents h, List.find?_cons_of_pos (by simpa using hv'), Option.map_some]
    · rw [hempty v hv]
      rfl

variable {ν : Type*} [DecidableEq ν] [Inhabited ν]

/-- The table of a mini merge has the row of each key exactly when no key has a byte. -/
theorem keepsEveryKey_iff_keys_empty {opens : ν → Bool} {dataPath metaPath : ν}
    (hopen : opens dataPath = true) (hpaths : dataPath ≠ metaPath) {desc : ObDataStoreDesc}
    (hfit : RowsFit desc) {t : ObMemtable η} {ws : List Write} (hfilled : Filled t ws)
    (hrows : ∀ w ∈ ws, (encodeRow w.row).length < 4096) (fs : FileSystem ν) :
    (∃ rows, sstableRows (miniMerge opens t desc dataPath metaPath fs).2.1
        (miniMerge opens t desc dataPath metaPath fs).2.2 = some rows ∧
      KeepsEveryKey t ws rows) ↔ ∀ w ∈ ws, w.row.rowkey.buf = [] := by
  have hcontents := hfilled.contents
  rw [miniMerge_rows hopen hpaths hfit.micro hfit.max]
  constructor
  · rintro ⟨_, ⟨rfl⟩, hkeeps⟩ w hw
    exact key_empty_of_keeps hcontents hkeeps hw
  · intro hempty
    exact ⟨_, rfl, keeps_of_keys_empty hfit hcontents hrows hempty⟩

def insertOf (key : Bytes) : Write :=
  ⟨{}, { dmlFlag := .dfInsert, rowkey := ⟨key⟩, rowValue := [7] }⟩

def frozenWith (key : Bytes) : ObMemtable Unit :=
  ((ObMemtable.create 1).set (fun _ _ (log : Unit) => (0, log)) true (insertOf key).ctx
    (insertOf key).row ()).2.1.setFrozen

theorem filled_frozenWith (key : Bytes) : Filled (frozenWith key) [insertOf key] := by
  have hset := Filled.set (fun (_ : Unit) _ (log : Unit) => (0, log)) true (insertOf key) ()
    (.create 1)
  have hnew : Contents (ObMemtable.create 1 : ObMemtable Unit) [] := contents_create 1
  obtain ⟨t, happly, -⟩ := apply_contents hnew (insertOf key)
  have hret : ((ObMemtable.create 1).set (fun (_ : Unit) _ (log : Unit) => (0, log)) true
      (insertOf key).ctx (insertOf key).row ()).1 = 0 := by
    rw [set_quiet _ rfl rfl rfl happly]
    rfl
  rw [if_pos hret] at hset
  exact hset.setFrozen

theorem keepsEveryKey_iff_keys_empty_example :
    (∀ w ∈ [insertOf []], (encodeRow w.row).length < 4096) ∧ Filled (frozenWith []) [insertOf []] ∧
    ∃ rows, sstableRows (miniMerge (fun _ => true) (frozenWith []) {} 0 1 .blank).2.1
        (miniMerge (fun _ => true) (frozenWith []) {} (0 : ℕ) 1 .blank).2.2 = some rows ∧
      KeepsEveryKey (frozenWith []) [insertOf []] rows :=
  ⟨by decide, filled_frozenWith [], (keepsEveryKey_iff_keys_empty rfl (by decide) rowsFit_default
    (filled_frozenWith []) (by decide) .blank).mpr (by decide)⟩

/-- The key of one byte is in no row of the table. -/
theorem merged_key_is_lost :
    Filled (frozenWith [97]) [insertOf [97]] ∧ (frozenWith [97]).isFrozen = true ∧
    (∀ w ∈ [insertOf [97]], (encodeRow w.row).length < 4096) ∧
    ¬ ∃ rows, sstableRows (miniMerge (fun _ => true) (frozenWith [97]) {} 0 1 .blank).2.1
        (miniMerge (fun _ => true) (frozenWith [97]) {} (0 : ℕ) 1 .blank).2.2 = some rows ∧
      KeepsEveryKey (frozenWith [97]) [insertOf [97]] rows := by
  refine ⟨filled_frozenWith [97], rfl, by decide, ?_⟩
  rw [miniMerge_rows rfl (by decide) rowsFit_default.micro rowsFit_default.max]
  rintro ⟨_, ⟨rfl⟩, hkeeps⟩
  have hkey := key_empty_of_keeps (filled_frozenWith [97]).contents hkeeps List.mem_cons_self
  cases hkey

end Keys

end Compaction
