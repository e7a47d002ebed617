import LsmStorage.MacroBlockRows

/-! # The headers of the emitted macro blocks

`build_common_header` counts from the start of the staging buffer. The two headers that
`flush_current_macro_` puts in front of that buffer are in neither of the numbers: the data
starts later than `micro_block_data_offset_` says, and `payload_size_` leaves the second header
out. -/
namespace MacroBlockHeaders

open ByteCodec Memtable MicroBlock MacroBlock MacroBlockRows ObMacroBlockCommonHeader

def namedData (block : Bytes) : Option Bytes :=
  (FixedHeader.deserialize (block.drop getSerializeSize)).map fun h =>
    slice block h.microBlockDataOffset h.microBlockDataSize

def namedPayload (block : Bytes) : Option ℕ :=
  (deserialize block).map payloadSize

structure HeaderRight (micros : List Bytes) (block : Bytes) : Prop where
  data : namedData block = some micros.flatten
  payload : namedPayload block = some (block.length - getSerializeSize)

def appendEach : List ObStoreRow → ObMacroBlockWriter → List Bytes × ObMacroBlockWriter
  | [], w => ([], w)
  | row :: rows, w =>
    let (_, flushed, w) := w.appendRow row
    let (blocks, w) := appendEach rows w
    (flushed.toList.map Prod.fst ++ blocks, w)

section Emitted

def Headed (desc : ObDataStoreDesc) (groups : List (List ObStoreRow)) (block : Bytes) : Prop :=
  occupied groups ≤ desc.macroBlockSize ∧
    ∃ (common : ObMacroBlockCommonHeader) (fixed : FixedHeader),
      common.payloadSize = occupied groups ∧
      fixed.microBlockDataOffset = ObMacroBlock.headerReserve ∧
      fixed.microBlockDataSize = occupied groups - ObMacroBlock.headerReserve ∧
      block = common.fieldBytes ++ (fixed.fieldBytes ++
        (List.replicate ObMacroBlock.headerReserve 0 ++ groups.flatMap (microBlockOf desc)))

variable {w : ObMacroBlockWriter} {desc : ObDataStoreDesc} {p : Packing} {blocks : List Bytes}

theorem flushCurrentMacro_headed (h : Tracks w desc p blocks) :
    Headed desc p.groups w.flushCurrentMacro.1 := by
  refine ⟨h.current.inside, w.current.buildCommonHeader.commonHeader,
    w.current.buildCommonHeader.macroHeader, h.current.dataSize, rfl, ?_, ?_⟩
  · exact congrArg (· - ObMacroBlock.headerReserve) h.current.dataSize
  · have hdata : w.current.dataBuf.take w.current.dataSize =
        List.replicate ObMacroBlock.headerReserve 0 ++ p.groups.flatMap (microBlockOf desc) := by
      rw [h.current.dataSize, h.current.data]
    rw [← hdata, ← List.append_assoc]
    rfl

structure Emits (desc : ObDataStoreDesc) (new : List Bytes) (w : ObMacroBlockWriter) : Prop where
  tracks : ∃ p blocks, Tracks w desc p blocks
  headed : ∀ block ∈ new, ∃ groups, Headed desc groups block

theorem emits_flush (h : Tracks w desc p blocks) (hreserve : HoldsReserve desc) :
    Emits desc [w.flushMicro.flushCurrentMacro.1] w.flushMicro.flushCurrentMacro.2.2 := by
  have hflush := flushMicro_tracks h
  obtain ⟨block, seq, w', hout, -, htracks⟩ := flushCurrentMacro_tracks hflush rfl hreserve
  have hheaded := flushCurrentMacro_headed hflush
  rw [hout] at hheaded ⊢
  exact ⟨⟨_, _, htracks⟩, by simpa using ⟨_, hheaded⟩⟩

theorem emits_emitIfFull (h : Tracks w desc p blocks) (hreserve : HoldsReserve desc) :
    Emits desc (w.emitIfFull.2.1.toList.map Prod.fst) w.emitIfFull.2.2 := by
  unfold ObMacroBlockWriter.emitIfFull
  split
  · exact emits_flush h hreserve
  · exact ⟨⟨p, blocks, h⟩, by simp⟩

theorem emits_appendRow (h : Tracks w desc p blocks) (hreserve : HoldsReserve desc)
    (row : ObStoreRow) :
    Emits desc ((w.appendRow row).2.1.toList.map Prod.fst) (w.appendRow row).2.2 := by
  have hw₁ := bufferRow_tracks h row
  rw [appendRow_eq_bufferRow h row]
  generalize bufferRow row w = w₁ at hw₁ ⊢
  by_cases hfull : w₁.microWriter.isBlockFull = true
  · have hwrite := writeFullMicro_tracks hw₁ (by simp)
    simp only [hfull, ↓reduceIte]
    split at hwrite
    · obtain ⟨w₂, hw₂, htracks⟩ := hwrite
      rw [hw₂, if_neg (by simp)]
      exact emits_emitIfFull htracks hreserve
    · obtain ⟨ret, w₂, hret, hw₂, htracks⟩ := hwrite
      rw [hw₂, if_pos hret]
      exact ⟨⟨_, _, htracks⟩, by simp⟩
  · simp only [hfull, Bool.false_eq_true, ↓reduceIte, ne_eq, not_true_eq_false]
    exact emits_emitIfFull hw₁ hreserve

theorem emits_appendEach (hreserve : HoldsReserve desc) (rows : List ObStoreRow)
    (h : Tracks w desc p blocks) :
    Emits desc (appendEach rows w).1 (appendEach rows w).2 := by
  induction rows generalizing w p blocks with
  | nil => exact ⟨⟨p, blocks, h⟩, by simp [appendEach]⟩
  | cons row rows ih =>
    have hrow := emits_appendRow h hreserve row
    obtain ⟨p', blocks', htracks⟩ := hrow.tracks
    have hrest := ih htracks
    refine ⟨hrest.tracks, fun block hblock => ?_⟩
    rcases List.mem_append.mp hblock with hnew | hlater
    · exact hrow.headed block hnew
    · exact hrest.headed block hlater

theorem close_headed (h : Tracks w desc p blocks) :
    ∃ block seq w', w.close = (0, [(block, seq)], w') ∧ Headed desc (lastGroups desc p) block := by
  have hopen : (!w.isOpened) = false := by rw [h.isOpened, Bool.not_true]
  simp only [ObMacroBlockWriter.close, hopen, Bool.false_eq_true, ↓reduceIte]
  exact ⟨_, _, _, rfl, flushCurrentMacro_headed (flushMicro_tracks h)⟩

theorem openWriter_tracks (w : ObMacroBlockWriter) (parallelIdx : ℤ)
    (hreserve : HoldsReserve desc) :
    Tracks (w.openWriter desc parallelIdx).2 desc {} [] :=
  ⟨rfl, rfl, (init_buffers desc w.microWriter).2, init_macroHolds _ _ hreserve, List.Forall₂.nil⟩

def emittedBlocks (desc : ObDataStoreDesc) (parallelIdx : ℤ) (rows : List ObStoreRow)
    (w : ObMacroBlockWriter) : List Bytes :=
  let (blocks, w) := appendEach rows (w.openWriter desc parallelIdx).2
  blocks ++ w.close.2.1.map Prod.fst

theorem headed_of_mem_emittedBlocks (w : ObMacroBlockWriter) (parallelIdx : ℤ)
    (hreserve : HoldsReserve desc) {rows : List ObStoreRow} {block : Bytes}
    (h : block ∈ emittedBlocks desc parallelIdx rows w) :
    ∃ groups, Headed desc groups block := by
  have hemits := emits_appendEach hreserve rows (openWriter_tracks w parallelIdx hreserve)
  obtain ⟨p, blocks, htracks⟩ := hemits.tracks
  rcases List.mem_append.mp h with happend | hclose
  · exact hemits.headed block happend
  · obtain ⟨last, seq, w', hret, hheaded⟩ := close_headed htracks
    rw [hret, List.map_singleton, List.mem_singleton] at hclose
    subst hclose
    exact ⟨_, hheaded⟩

end Emitted

section Numbers

variable {desc : ObDataStoreDesc} {groups : List (List ObStoreRow)} {block : Bytes}

theorem deserialize_common (h : ObMacroBlockCommonHeader) (rest : Bytes) :
    ∃ h', deserialize (h.fieldBytes ++ rest) = some h' ∧
      h'.payloadSize = h.payloadSize % 2 ^ 32 := by
  have hlen : ¬ (h.fieldBytes ++ rest).length < getSerializeSize := by
    rw [List.length_append, length_fieldBytes]
    omega
  have hwords : unpackLE widths (h.fieldBytes ++ rest) =
      h.words.map fun p => p.2 % 256 ^ p.1 := unpackLE_packLE_mod h.words rest
  rw [deserialize, if_neg hlen]
  exact ⟨_, rfl, by rw [hwords]; rfl⟩

theorem deserialize_fixed (h : FixedHeader) (rest : Bytes) :
    ∃ h', FixedHeader.deserialize (h.fieldBytes ++ rest) = some h' ∧
      h'.microBlockDataOffset = h.microBlockDataOffset % 2 ^ 32 ∧
      h'.microBlockDataSize = h.microBlockDataSize % 2 ^ 32 := by
  have hlen : ¬ (h.fieldBytes ++ rest).length < FixedHeader.getSerializeSize := by
    rw [List.length_append, FixedHeader.length_fieldBytes]
    omega
  have hwords : unpackLE FixedHeader.widths (h.fieldBytes ++ rest) =
      h.words.map fun p => p.2 % 256 ^ p.1 := unpackLE_packLE_mod h.words rest
  rw [FixedHeader.deserialize, if_neg hlen]
  exact ⟨_, rfl, by rw [hwords]; rfl, by rw [hwords]; rfl⟩

theorem length_flatMap_microBlockOf (desc : ObDataStoreDesc) (groups : List (List ObStoreRow)) :
    (groups.flatMap (microBlockOf desc)).length = (groups.map blockSize).sum := by
  rw [List.length_flatMap]
  simp only [length_microBlockOf]

theorem named_of_headed (h : Headed desc groups block) (hmax : desc.macroBlockSize < 2 ^ 31) :
    namedPayload block = some (occupied groups) ∧
      namedData block = some (slice block ObMacroBlock.headerReserve
        (groups.flatMap (microBlockOf desc)).length) ∧
      block.length = 112 + occupied groups := by
  obtain ⟨hinside, common, fixed, hpayload, hoffset, hsize, rfl⟩ := h
  have hdata := length_flatMap_microBlockOf desc groups
  have hocc : occupied groups = ObMacroBlock.headerReserve + (groups.map blockSize).sum := rfl
  refine ⟨?_, ?_, ?_⟩
  · obtain ⟨h', hparse, hpay⟩ := deserialize_common common (fixed.fieldBytes ++
      (List.replicate ObMacroBlock.headerReserve 0 ++ groups.flatMap (microBlockOf desc)))
    rw [namedPayload, hparse, Option.map_some, hpay, hpayload, Nat.mod_eq_of_lt (by omega)]
  · obtain ⟨h', hparse, hoff, hlen⟩ := deserialize_fixed fixed
      (List.replicate ObMacroBlock.headerReserve 0 ++ groups.flatMap (microBlockOf desc))
    rw [namedData, List.drop_left' common.length_fieldBytes, hparse, Option.map_some, hoff, hlen,
      hoffset, hsize, hdata, hocc, Nat.add_sub_cancel_left,
      Nat.mod_eq_of_lt (show ObMacroBlock.headerReserve < 2 ^ 32 by decide),
      Nat.mod_eq_of_lt (by omega)]
  · simp only [List.length_append, length_fieldBytes,
      FixedHeader.length_fieldBytes, List.length_replicate, hdata, hocc]
    simp only [getSerializeSize, FixedHeader.getSerializeSize]
    omega

theorem zero_of_headed (h : Headed desc groups block) :
    block[ObMacroBlock.headerReserve]? = some 0 := by
  obtain ⟨-, common, fixed, -, -, -, rfl⟩ := h
  have hheaders : (common.fieldBytes ++ fixed.fieldBytes).length = 112 := by
    rw [List.length_append, common.length_fieldBytes, fixed.length_fieldBytes]
    rfl
  rw [← List.append_assoc, List.getElem?_append_right (by rw [hheaders]; decide), hheaders,
    List.getElem?_append_left (by rw [List.length_replicate]; decide), List.getElem?_replicate]
  rfl

theorem head?_microBlockOf (desc : ObDataStoreDesc) (rows : List ObStoreRow) :
    (microBlockOf desc rows).head? = some 237 := by
  simp [microBlockOf, ObMicroBlockHeader.fieldBytes, ObMicroBlockHeader.words, packLE, toLE,
    blockHeader, ObMicroBlockWriter.freshHeader]

theorem namedData_iff (h : Headed desc groups block) (hmax : desc.macroBlockSize < 2 ^ 31) :
    namedData block = some (groups.flatMap (microBlockOf desc)) ↔ groups = [] := by
  rw [(named_of_headed h hmax).2.1, Option.some.injEq]
  constructor
  · intro heq
    by_contra hne
    obtain ⟨rows, groups, rfl⟩ := List.exists_cons_of_ne_nil hne
    have hpos : 0 < ((rows :: groups).flatMap (microBlockOf desc)).length := by
      rw [length_flatMap_microBlockOf, List.map_cons, List.sum_cons, blockSize, dataSize,
        ObMicroBlockHeader.getSerializeSize]
      omega
    have hnamed := getElem?_slice block ObMacroBlock.headerReserve
      ((rows :: groups).flatMap (microBlockOf desc)).length 0
    have hfirst : ((rows :: groups).flatMap (microBlockOf desc))[0]? = some 237 := by
      rw [List.flatMap_cons, ← List.head?_eq_getElem?, List.head?_append, head?_microBlockOf]
      rfl
    rw [heq, hfirst, if_pos hpos, Nat.add_zero, zero_of_headed h] at hnamed
    cases hnamed
  · rintro rfl
    rfl

theorem isMacroBlock_of_headed (h : Headed desc groups block) : IsMacroBlock desc groups block := by
  obtain ⟨hinside, common, fixed, -, -, -, rfl⟩ := h
  refine ⟨hinside, common.fieldBytes ++ fixed.fieldBytes, ?_, by rw [List.append_assoc]⟩
  rw [List.length_append, common.length_fieldBytes, fixed.length_fieldBytes]

end Numbers

/-- In every emitted block the named range is the data only if there is none, and the payload
size is short by the second header. -/
theorem macro_block_headers_wrong (w : ObMacroBlockWriter) {desc : ObDataStoreDesc}
    (hreserve : ObMacroBlock.headerReserve ≤ desc.macroBlockSize)
    (hmax : desc.macroBlockSize < 2 ^ 31) (parallelIdx : ℤ) (rows : List ObStoreRow)
    (block : Bytes) (hblock : block ∈ emittedBlocks desc parallelIdx rows w) :
    ∃ groups, IsMacroBlock desc groups block ∧
      (namedData block = some (groups.flatMap (microBlockOf desc)) ↔ groups = []) ∧
      namedPayload block = some (block.length - getSerializeSize -
        FixedHeader.getSerializeSize) ∧
      ¬ HeaderRight (groups.map (microBlockOf desc)) block := by
  obtain ⟨groups, h⟩ := headed_of_mem_emittedBlocks w parallelIdx hreserve hblock
  obtain ⟨hpayload, -, hlength⟩ := named_of_headed h hmax
  have hsizes : getSerializeSize = 24 ∧
      FixedHeader.getSerializeSize = 88 := ⟨rfl, rfl⟩
  refine ⟨groups, isMacroBlock_of_headed h, namedData_iff h hmax, ?_, fun hright => ?_⟩
  · rw [hpayload, hlength, hsizes.1, hsizes.2, Option.some.injEq]
    omega
  · have hpay := hright.payload
    rw [hpayload, hlength, hsizes.1, Option.some.injEq] at hpay
    omega

theorem emittedBlocks_single {desc : ObDataStoreDesc} {row : ObStoreRow} (hsize : HoldsMicro desc)
    (hpack : packRow desc {} row = some { pending := [row] })
    (hfits : occupied [[row]] ≤ desc.macroBlockSize) :
    ∃ block, emittedBlocks desc 0 [row] .new = [block] ∧ Headed desc [[row]] block := by
  have happend := appendRow_ready (openWriter_ready 0 hsize) hsize row
  rw [hpack] at happend
  obtain ⟨flushed, w, happend, hready⟩ := happend
  have hnone : flushed.toList.map Prod.fst = [] := List.forall₂_nil_left_iff.mp hready.emitted
  obtain ⟨block, seq, w', hclose, hheaded⟩ := close_headed hready.toTracks
  have hgroups : lastGroups desc { pending := [row] } = [[row]] := if_pos ⟨by simp, hfits⟩
  rw [hgroups] at hheaded
  refine ⟨block, ?_, hheaded⟩
  have heach : appendEach [row] (ObMacroBlockWriter.new.openWriter desc 0).2 = ([], w) := by
    rw [← hnone]
    simp only [appendEach, List.append_nil]
    rw [ObMacroBlockWriter.new, happend]
  rw [emittedBlocks, heach]
  dsimp only
  rw [hclose]
  rfl

theorem blockSize_shortRow : blockSize [shortRow] = 70 := by
  rw [← List.replicate_one, blockSize, dataSize_replicate, length_shortRow]
  rfl

theorem occupied_shortRow : occupied [[shortRow]] = 4166 := by
  rw [occupied, List.map_singleton, List.sum_singleton, blockSize_shortRow]
  rfl

theorem packRow_shortRow : packRow {} {} shortRow = some { pending := [shortRow] } := by
  have hpack : packRows {} [shortRow] {} = some { pending := [shortRow] } := by
    apply packRows_of_small
    rw [List.nil_append, ← List.replicate_one, dataSize_replicate, length_shortRow]
    decide
  obtain ⟨p, hrow, hrest⟩ := Option.bind_eq_some_iff.mp hpack
  cases hrest
  exact hrow

theorem emittedBlocks_shortRow :
    ∃ block, emittedBlocks {} 0 [shortRow] .new = [block] ∧ Headed {} [[shortRow]] block :=
  emittedBlocks_single (by decide) packRow_shortRow (by rw [occupied_shortRow]; decide)

theorem macro_block_headers_wrong_example :
    ∃ block ∈ emittedBlocks {} 0 [shortRow] .new, ∃ groups, IsMacroBlock {} groups block ∧
      namedData block ≠ some (groups.flatMap (microBlockOf {})) ∧
      ¬ HeaderRight (groups.map (microBlockOf {})) block := by
  obtain ⟨block, hrun, hheaded⟩ := emittedBlocks_shortRow
  have hmem : block ∈ emittedBlocks {} 0 [shortRow] .new := hrun ▸ List.mem_singleton_self block
  obtain ⟨groups, hblock, hdata, -, hright⟩ :=
    macro_block_headers_wrong .new (by decide) (by decide) 0 [shortRow] block hmem
  refine ⟨block, hmem, groups, hblock, fun heq => ?_, hright⟩
  have hdecode := decodeMacroBlock_of_isMacroBlock (isMacroBlock_of_headed hheaded) (by decide)
  cases hdata.mp heq
  cases hdecode.symm.trans (decodeMacroBlock_of_isMacroBlock hblock (by decide))

/-- One short row: the 70 bytes of its micro block start at 4208, and 4096 is named; the payload
of 4254 bytes is given as 4166. -/
theorem one_row_header_wrong :
    ∃ block, emittedBlocks {} 0 [shortRow] .new = [block] ∧ block.length = 24 + 4254 ∧
      slice block 4208 70 = microBlockOf {} [shortRow] ∧
      namedData block = some (slice block 4096 70) ∧
      namedData block ≠ some (microBlockOf {} [shortRow]) ∧ namedPayload block = some 4166 ∧
      ¬ HeaderRight [microBlockOf {} [shortRow]] block := by
  obtain ⟨block, hrun, hheaded⟩ := emittedBlocks_shortRow
  obtain ⟨hpayload, hdata, hlength⟩ := named_of_headed hheaded (by decide)
  have hmicro : (microBlockOf {} [shortRow]).length = 70 := by
    rw [length_microBlockOf, blockSize_shortRow]
  rw [occupied_shortRow] at hpayload hlength
  simp only [List.flatMap_singleton, hmicro] at hdata
  have hwrong : namedData block ≠ some (microBlockOf {} [shortRow]) := by
    intro heq
    have hnil := (namedData_iff hheaded (by decide)).mp
      (heq.trans (by rw [List.flatMap_singleton]))
    cases hnil
  refine ⟨block, hrun, hlength, ?_, hdata, hwrong, hpayload, fun hright => hwrong ?_⟩
  · obtain ⟨-, common, fixed, -, -, -, rfl⟩ := hheaded
    have hslice := slice_middle (common.fieldBytes ++ fixed.fieldBytes ++
      List.replicate ObMacroBlock.headerReserve 0) (microBlockOf {} [shortRow]) []
    rw [List.length_append, List.length_append, common.length_fieldBytes, fixed.length_fieldBytes,
      List.length_replicate, hmicro] at hslice
    have hstart : getSerializeSize + FixedHeader.getSerializeSize +
        ObMacroBlock.headerReserve = 4208 := rfl
    rw [hstart, List.append_nil, List.append_assoc, List.append_assoc] at hslice
    rw [List.flatMap_singleton]
    exact hslice
  · simpa using hright.data

end MacroBlockHeaders
