import LsmStorage.Compaction
import LsmStorage.MacroBlockHeaders

/-! # The counts of a built table

`create_from_blocks` adds every macro block with a row count and a micro block count of zero. A
table therefore reports no rows and no micro blocks, whatever the builder was given. -/
namespace SSTableStatistics

open ByteCodec PosixFiles Memtable MicroBlock MacroBlock MacroBlockRows MacroBlockHeaders SSTable
  Compaction

variable {ν : Type*}

def appendAll : List ObStoreRow → ObSSTableBuilder ν → Option (ObSSTableBuilder ν)
  | [], b => some b
  | row :: rows, b =>
    let (ret, b) := b.appendRow row
    if ret ≠ 0 then none else appendAll rows b

def microBlocksOf (block : Bytes) : Option (List Bytes) :=
  let data := block.drop (ObMacroBlockCommonHeader.getSerializeSize +
    FixedHeader.getSerializeSize + ObMacroBlock.headerReserve)
  splitMicroBlocks data.length data

def microBlockTotal (blocks : List Bytes) : Option ℕ :=
  (blocks.mapM microBlocksOf).map fun micros => (micros.map List.length).sum

structure StatisticsRight (rows : List ObStoreRow) (b : ObSSTableBuilder ν) : Prop where
  rowCount : b.sstable.getRowCount = rows.length
  isEmpty : b.sstable.isEmpty = true ↔ rows = []
  microBlockCount : ∃ n : ℕ, microBlockTotal b.macroBlocks = some n ∧
    b.sstable.sstableMeta.getMicroBlockCount = n

section Counts

theorem writeBlocks_counts (fd : ℕ) (blocks : List Bytes) (seqs : List ℤ) (offset : ℕ)
    (m : ObSSTableMeta) (fs : FileSystem ν) :
    (ObSSTable.writeBlocks fd blocks seqs offset m fs).1.getRowCount = m.getRowCount ∧
      (ObSSTable.writeBlocks fd blocks seqs offset m fs).1.getMicroBlockCount =
        m.getMicroBlockCount := by
  induction blocks generalizing seqs offset m fs with
  | nil => exact ⟨rfl, rfl⟩
  | cons block blocks ih =>
    obtain ⟨hrow, hmicro⟩ := ih seqs.tail (offset + block.length)
      (m.addMacroBlock (seqs.headD 0) offset block.length 0 0)
      (fs.modify fd (·.pwrite offset block))
    exact ⟨hrow.trans (add_zero _), hmicro.trans (add_zero _)⟩

theorem appendRow_keeps (row : ObStoreRow) (b : ObSSTableBuilder ν) :
    (b.appendRow row).2.sstableMeta = b.sstableMeta ∧
      (b.appendRow row).2.isClosed = b.isClosed := by
  unfold ObSSTableBuilder.appendRow
  dsimp only
  split
  · exact ⟨rfl, rfl⟩
  split
  · exact ⟨rfl, rfl⟩
  · exact ⟨rfl, rfl⟩

theorem appendAll_keeps {rows : List ObStoreRow} {b b' : ObSSTableBuilder ν}
    (h : appendAll rows b = some b') :
    b'.sstableMeta = b.sstableMeta ∧ b'.isClosed = b.isClosed := by
  induction rows generalizing b with
  | nil =>
    cases h
    exact ⟨rfl, rfl⟩
  | cons row rows ih =>
    obtain ⟨hmeta, hclosed⟩ := appendRow_keeps row b
    rw [appendAll] at h
    dsimp only at h
    split at h
    · cases h
    · obtain ⟨hmeta', hclosed'⟩ := ih h
      exact ⟨hmeta'.trans hmeta, hclosed'.trans hclosed⟩

variable [DecidableEq ν]

theorem createFromBlocks_counts {opens : ν → Bool} {blocks : List Bytes} {seqs : List ℤ}
    {sstableMeta : ObSSTableMeta} {dataPath metaPath : ν} {fs fs' : FileSystem ν}
    {t t' : ObSSTable ν}
    (h : t.createFromBlocks opens blocks seqs sstableMeta dataPath metaPath fs = (0, t', fs')) :
    t'.getRowCount = sstableMeta.getRowCount ∧
      t'.sstableMeta.getMicroBlockCount = sstableMeta.getMicroBlockCount := by
  unfold ObSSTable.createFromBlocks at h
  split at h
  · have hcounts := writeBlocks_counts (fs.openTrunc dataPath).1 blocks seqs 0
      { sstableMeta with macroInfo := {} } (fs.openTrunc dataPath).2
    cases h
    exact hcounts
  · cases h

theorem close_counts {opens : ν → Bool} {fs fs' : FileSystem ν} {b b' : ObSSTableBuilder ν}
    (hopen : b.isClosed = false) (h : b.close opens fs = (0, b', fs')) :
    b'.sstable.getRowCount = b.sstableMeta.getRowCount ∧
      b'.sstable.sstableMeta.getMicroBlockCount = b.sstableMeta.getMicroBlockCount ∧
      b'.macroBlocks = b.macroBlocks ++ b.writer.close.2.1.map Prod.fst := by
  rw [ObSSTableBuilder.close, hopen, if_neg (by simp)] at h
  dsimp only at h
  split at h
  · next hret => exact absurd (congrArg Prod.fst h) hret
  · generalize hcreate : ObSSTable.createFromBlocks opens _ _ _ _ _ fs b.sstable = r at h
    obtain ⟨ret, t, fs₁⟩ := r
    cases h
    obtain ⟨hrow, hmicro⟩ := createFromBlocks_counts hcreate
    exact ⟨hrow, hmicro, rfl⟩

end Counts

theorem microBlockTotal_of_isMacroBlock_nil {desc : ObDataStoreDesc} {block : Bytes}
    (h : IsMacroBlock desc [] block) : microBlockTotal [block] = some 0 := by
  obtain ⟨-, headers, hheaders, rfl⟩ := h
  have hdata : (headers ++ (List.replicate ObMacroBlock.headerReserve 0 ++
      ([] : List (List ObStoreRow)).flatMap (microBlockOf desc))).drop
        (ObMacroBlockCommonHeader.getSerializeSize + FixedHeader.getSerializeSize +
          ObMacroBlock.headerReserve) = [] := by
    apply List.drop_eq_nil_of_le
    rw [List.flatMap_nil, List.append_nil, List.length_append, List.length_replicate, hheaders]
  rw [microBlockTotal, List.mapM_cons, microBlocksOf, hdata]
  rfl

theorem appendRow_ret {desc : ObDataStoreDesc} {dataPath metaPath : ν} {b : ObSSTableBuilder ν}
    {p p' : Packing} {row : ObStoreRow} (hsize : HoldsMicro desc)
    (h : Building b desc dataPath metaPath p) (hpack : packRow desc p row = some p') :
    (b.appendRow row).1 = 0 := by
  have hrow := appendRow_ready h.ready hsize row
  rw [hpack] at hrow
  obtain ⟨flushed, w, happend, -⟩ := hrow
  rw [ObSSTableBuilder.appendRow, happend]
  dsimp only
  rw [if_neg (by simp)]
  split <;> rfl

variable [DecidableEq ν] [Inhabited ν]

theorem counts_of_close {opens : ν → Bool} {desc : ObDataStoreDesc} {dataPath metaPath : ν}
    {rows : List ObStoreRow} {b b' : ObSSTableBuilder ν} {fs fs' : FileSystem ν}
    (happend : appendAll rows
      ((ObSSTableBuilder.new : ObSSTableBuilder ν).init desc dataPath metaPath).2 = some b)
    (hclose : b.close opens fs = (0, b', fs')) :
    b'.sstable.getRowCount = 0 ∧ b'.sstable.sstableMeta.getMicroBlockCount = 0 ∧
      b'.macroBlocks = b.macroBlocks ++ b.writer.close.2.1.map Prod.fst := by
  obtain ⟨hmeta, hopen⟩ := appendAll_keeps happend
  obtain ⟨hrow, hmicro, hblocks⟩ := close_counts hopen hclose
  exact ⟨hrow.trans (congrArg ObSSTableMeta.getRowCount hmeta),
    hmicro.trans (congrArg ObSSTableMeta.getMicroBlockCount hmeta), hblocks⟩

/-- A built table reports no rows and no micro blocks, which is right exactly when no row was
appended. -/
theorem statistics_right_iff {opens : ν → Bool} {desc : ObDataStoreDesc} {dataPath metaPath : ν}
    (hreserve : ObMacroBlock.headerReserve ≤ desc.macroBlockSize) {rows : List ObStoreRow}
    {b b' : ObSSTableBuilder ν} {fs fs' : FileSystem ν}
    (happend : appendAll rows
      ((ObSSTableBuilder.new : ObSSTableBuilder ν).init desc dataPath metaPath).2 = some b)
    (hclose : b.close opens fs = (0, b', fs')) :
    b'.sstable.getRowCount = 0 ∧ b'.sstable.isEmpty = true ∧
      b'.sstable.sstableMeta.getMicroBlockCount = 0 ∧ (StatisticsRight rows b' ↔ rows = []) := by
  obtain ⟨hrow, hmicro, hblocks⟩ := counts_of_close happend hclose
  have hempty : b'.sstable.isEmpty = true := beq_iff_eq.mpr hrow
  refine ⟨hrow, hempty, hmicro, fun hright => hright.isEmpty.mp hempty, ?_⟩
  rintro rfl
  cases happend
  have htracks := openWriter_tracks ObMacroBlockWriter.new 0 hreserve
  obtain ⟨block, seq, w, hwriter, hheaded⟩ := close_headed htracks
  have hone : b'.macroBlocks = [block] := by
    rw [hblocks]
    exact congrArg (fun r => List.map Prod.fst r.2.1) hwriter
  refine ⟨hrow, iff_of_true hempty rfl, 0, ?_, hmicro⟩
  rw [hone]
  exact microBlockTotal_of_isMacroBlock_nil (isMacroBlock_of_headed hheaded)

theorem shortRow_run :
    ∃ b b' fs', appendAll [shortRow]
        ((ObSSTableBuilder.new : ObSSTableBuilder ℕ).init {} 0 1).2 = some b ∧
      b.close (fun _ => true) .blank = (0, b', fs') ∧
      sstableRows b'.sstable fs' = some [rowContent shortRow] := by
  have hfit := rowsFit_default
  have hsmall : (encodeRow shortRow).length < 4096 := by
    rw [length_shortRow]
    decide
  have hinit : Building ((ObSSTableBuilder.new : ObSSTableBuilder ℕ).init {} 0 1).2 {} 0 1 {} :=
    init_building hfit.micro
  obtain ⟨b', fs', hclose, hrows⟩ := @close_building ℕ {} 0 1 inferInstance (fun _ => true) rfl
    (by decide) (by decide) hfit.max _ _ (appendRow_building hfit.micro hinit shortRow) .blank
  rw [kept_singleton hfit hsmall] at hrows
  refine ⟨_, b', fs', ?_, hclose, hrows⟩
  simp only [appendAll, appendRow_ret hfit.micro hinit packRow_shortRow, ne_eq, not_true_eq_false,
    ↓reduceIte]

theorem statistics_right_iff_example :
    ∃ b b' fs', appendAll [] ((ObSSTableBuilder.new : ObSSTableBuilder ℕ).init {} 0 1).2 = some b ∧
      b.close (fun _ => true) .blank = (0, b', fs') ∧ StatisticsRight [] b' := by
  obtain ⟨b', fs', hclose, -⟩ := @close_building ℕ {} 0 1 inferInstance (fun _ => true) rfl
    (by decide) (by decide) rowsFit_default.max _ _ (init_building rowsFit_default.micro) .blank
  exact ⟨_, b', fs', rfl, hclose, (statistics_right_iff (by decide) rfl hclose).2.2.2.mpr rfl⟩

/-- The table that holds one row reports that it holds none. -/
theorem one_row_not_counted :
    ∃ b b' fs', appendAll [shortRow]
        ((ObSSTableBuilder.new : ObSSTableBuilder ℕ).init {} 0 1).2 = some b ∧
      b.close (fun _ => true) .blank = (0, b', fs') ∧
      sstableRows b'.sstable fs' = some [rowContent shortRow] ∧ b'.sstable.getRowCount = 0 ∧
      b'.sstable.isEmpty = true ∧ ¬ StatisticsRight [shortRow] b' := by
  obtain ⟨b, b', fs', happend, hclose, hrows⟩ := shortRow_run
  obtain ⟨hrow, -, -⟩ := counts_of_close happend hclose
  refine ⟨b, b', fs', happend, hclose, hrows, hrow, beq_iff_eq.mpr hrow, fun hright => ?_⟩
  cases hrow.symm.trans hright.rowCount

end SSTableStatistics
