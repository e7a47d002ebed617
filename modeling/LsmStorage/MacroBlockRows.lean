import LsmStorage.MacroBlock
import Mathlib.Algebra.Order.BigOperators.Group.List
import Mathlib.Algebra.Order.Group.Nat

/-! # The rows of the emitted macro blocks

The writer packs rows into micro blocks and micro blocks into macro blocks. `Packing` is that
division of the rows; the writer's bytes are determined by it. Every micro block that is full is
checked against the space that is left. The one that `close` writes is not: with many short rows
its index makes it longer than the space kept for it, and then its rows are dropped. -/
namespace MacroBlockRows

open ByteCodec MvccRow Memtable MicroBlock MacroBlock ObMacroBlockWriter ObMicroBlockHeader

structure Packing where
  emitted : List (List (List ObStoreRow)) := []
  groups : List (List ObStoreRow) := []
  pending : List ObStoreRow := []

/-- An empty macro block has room for its reserve. -/
abbrev HoldsReserve (desc : ObDataStoreDesc) : Prop :=
  ObMacroBlock.headerReserve ≤ desc.macroBlockSize

/-- An empty macro block has room for a micro block as well. -/
abbrev HoldsMicro (desc : ObDataStoreDesc) : Prop :=
  ObMacroBlock.headerReserve + desc.microBlockSize ≤ desc.macroBlockSize

def occupied (groups : List (List ObStoreRow)) : ℕ :=
  ObMacroBlock.headerReserve + (groups.map blockSize).sum

def packRow (desc : ObDataStoreDesc) (p : Packing) (row : ObStoreRow) : Option Packing :=
  let pending := p.pending ++ [row]
  if dataSize pending + 4096 < desc.microBlockSize then some { p with pending := pending }
  else
    let groups := p.groups ++ [pending]
    if desc.macroBlockSize < occupied groups then none
    else if desc.macroBlockSize < occupied groups + desc.microBlockSize then
      some { emitted := p.emitted ++ [groups] }
    else some { p with groups := groups, pending := [] }

def packRows (desc : ObDataStoreDesc) : List ObStoreRow → Packing → Option Packing
  | [], p => some p
  | row :: rows, p => (packRow desc p row).bind (packRows desc rows)

def Packing.rows (p : Packing) : List ObStoreRow :=
  p.emitted.flatten.flatten ++ p.groups.flatten ++ p.pending

theorem packRow_rows {desc : ObDataStoreDesc} {p p' : Packing} {row : ObStoreRow}
    (h : packRow desc p row = some p') : p'.rows = p.rows ++ [row] := by
  unfold packRow at h
  dsimp only at h
  split at h
  · cases h
    simp [Packing.rows]
  split at h
  · cases h
  split at h
  · cases h
    simp [Packing.rows]
  · cases h
    simp [Packing.rows]

theorem packRows_rows {desc : ObDataStoreDesc} {rows : List ObStoreRow} {p p' : Packing}
    (h : packRows desc rows p = some p') : p'.rows = p.rows ++ rows := by
  induction rows generalizing p with
  | nil =>
    cases h
    simp
  | cons row rows ih =>
    obtain ⟨p₁, hrow, hrest⟩ := Option.bind_eq_some_iff.mp h
    rw [ih hrest, packRow_rows hrow, List.append_assoc, List.singleton_append]

section Writer

variable {desc : ObDataStoreDesc} {p : Packing} {blocks : List Bytes} {w : ObMacroBlockWriter}
  {groups : List (List ObStoreRow)} {rows : List ObStoreRow}

structure MacroHolds (mb : ObMacroBlock) (desc : ObDataStoreDesc)
    (groups : List (List ObStoreRow)) : Prop where
  isInited : mb.isInited = true
  macroSize : mb.macroSize = desc.macroBlockSize
  dataSize : mb.dataSize = occupied groups
  length : mb.dataBuf.length = desc.macroBlockSize
  inside : occupied groups ≤ desc.macroBlockSize
  data : mb.dataBuf.take (occupied groups) =
    List.replicate ObMacroBlock.headerReserve 0 ++ groups.flatMap (microBlockOf desc)

def IsMacroBlock (desc : ObDataStoreDesc) (groups : List (List ObStoreRow)) (block : Bytes) :
    Prop :=
  occupied groups ≤ desc.macroBlockSize ∧
    ∃ headers : Bytes, headers.length = ObMacroBlockCommonHeader.getSerializeSize +
        FixedHeader.getSerializeSize ∧
      block = headers ++ (List.replicate ObMacroBlock.headerReserve 0 ++
        groups.flatMap (microBlockOf desc))

theorem init_macroHolds (seq : ℤ) (mb : ObMacroBlock) (h : HoldsReserve desc) :
    MacroHolds (mb.init desc seq).2 desc [] := by
  refine ⟨rfl, rfl, rfl, by simp [ObMacroBlock.init], h, ?_⟩
  simp [ObMacroBlock.init, occupied, List.take_replicate, h]

theorem occupied_append (groups : List (List ObStoreRow)) (rows : List ObStoreRow) :
    occupied (groups ++ [rows]) = occupied groups + blockSize rows := by
  simp [occupied, Nat.add_assoc]

theorem writeMicroBlock_of_fits {mb : ObMacroBlock} (h : MacroHolds mb desc groups)
    (hfits : occupied (groups ++ [rows]) ≤ desc.macroBlockSize) :
    ∃ off mb', mb.writeMicroBlock (microBlockOf desc rows) = (0, off, mb') ∧
      MacroHolds mb' desc (groups ++ [rows]) := by
  have hlen := length_microBlockOf desc rows
  have hocc := occupied_append groups rows
  have hroom : ¬ mb.dataSize + (microBlockOf desc rows).length > mb.macroSize := by
    rw [h.dataSize, hlen, h.macroSize]
    omega
  refine ⟨some mb.dataSize, { mb with
      dataBuf := overwrite mb.dataBuf mb.dataSize (microBlockOf desc rows)
      dataSize := mb.dataSize + (microBlockOf desc rows).length }, ?_, ?_⟩
  · simp only [ObMacroBlock.writeMicroBlock, h.isInited, Bool.not_true, Bool.false_eq_true,
      ↓reduceIte, hroom]
  · refine ⟨h.isInited, h.macroSize, ?_, ?_, hfits, ?_⟩
    · rw [h.dataSize, hlen, hocc]
    · rw [length_overwrite (by rw [h.dataSize, h.length, hlen]; omega), h.length]
    · rw [hocc, ← hlen, h.dataSize, take_overwrite _ (by rw [h.length]; exact h.inside), h.data,
        List.flatMap_append, List.append_assoc]
      simp

theorem writeMicroBlock_of_not_fits {mb : ObMacroBlock} (h : MacroHolds mb desc groups)
    (hfits : desc.macroBlockSize < occupied (groups ++ [rows])) :
    mb.writeMicroBlock (microBlockOf desc rows) = (-1, none, mb) := by
  have hlen := length_microBlockOf desc rows
  have hroom : mb.dataSize + (microBlockOf desc rows).length > mb.macroSize := by
    rw [h.dataSize, hlen, h.macroSize, ← occupied_append]
    exact hfits
  simp only [ObMacroBlock.writeMicroBlock, h.isInited, Bool.not_true, Bool.false_eq_true,
    ↓reduceIte, hroom]

structure Tracks (w : ObMacroBlockWriter) (desc : ObDataStoreDesc) (p : Packing)
    (blocks : List Bytes) : Prop where
  isOpened : w.isOpened = true
  hasDesc : w.desc = desc
  micro : Buffers w.microWriter desc p.pending
  current : MacroHolds w.current desc p.groups
  emitted : List.Forall₂ (IsMacroBlock desc) p.emitted blocks

@[simp] theorem current_setCurrent (mb : ObMacroBlock) (w : ObMacroBlockWriter) :
    (w.setCurrent mb).current = mb := by
  simp [ObMacroBlockWriter.current, ObMacroBlockWriter.setCurrent]

theorem macroHolds_incMicroBlockCount {mb : ObMacroBlock} (h : MacroHolds mb desc groups) :
    MacroHolds mb.incMicroBlockCount desc groups :=
  ⟨h.isInited, h.macroSize, h.dataSize, h.length, h.inside, h.data⟩

theorem macroHolds_addRowCount {mb : ObMacroBlock} (h : MacroHolds mb desc groups) (n : ℕ) :
    MacroHolds (mb.addRowCount n) desc groups :=
  ⟨h.isInited, h.macroSize, h.dataSize, h.length, h.inside, h.data⟩

theorem flushCurrentMacro_tracks (h : Tracks w desc p blocks) (hnil : p.pending = [])
    (hsize : HoldsReserve desc) :
    ∃ block seq w', w.flushCurrentMacro = (block, seq, w') ∧ IsMacroBlock desc p.groups block ∧
      Tracks w' desc { emitted := p.emitted ++ [p.groups] } (blocks ++ [block]) := by
  let mb := w.current.buildCommonHeader
  let headers := mb.commonHeader.fieldBytes ++ mb.macroHeader.fieldBytes
  have hblock : IsMacroBlock desc p.groups (headers ++ mb.dataBuf.take mb.dataSize) := by
    refine ⟨h.current.inside, headers, ?_, ?_⟩
    · rw [List.length_append, ObMacroBlockCommonHeader.length_fieldBytes,
        FixedHeader.length_fieldBytes]
    · have hdata : mb.dataBuf.take mb.dataSize = w.current.dataBuf.take (occupied p.groups) :=
        congrArg (w.current.dataBuf.take ·) h.current.dataSize
      rw [hdata, h.current.data]
  refine ⟨_, _, _, rfl, hblock, ?_⟩
  refine ⟨h.isOpened, h.hasDesc, ?_, ?_, ?_⟩
  · exact hnil ▸ h.micro
  · simp only [ObMacroBlockWriter.current, ObMacroBlockWriter.setCurrent, Function.update_self,
      h.hasDesc]
    exact init_macroHolds _ _ hsize
  · exact List.rel_append h.emitted (List.Forall₂.cons hblock List.Forall₂.nil)

def lastGroups (desc : ObDataStoreDesc) (p : Packing) : List (List ObStoreRow) :=
  if p.pending ≠ [] ∧ occupied (p.groups ++ [p.pending]) ≤ desc.macroBlockSize then
    p.groups ++ [p.pending]
  else p.groups

theorem flushMicro_tracks (h : Tracks w desc p blocks) :
    Tracks w.flushMicro desc { p with groups := lastGroups desc p, pending := [] } blocks := by
  by_cases hne : p.pending = []
  · have hcount : ¬ w.microWriter.rowCount > 0 := by simp [h.micro.rowCount, hne]
    rw [flushMicro, if_neg hcount, lastGroups, if_neg (by simp [hne])]
    exact ⟨h.isOpened, h.hasDesc, hne ▸ h.micro, h.current, h.emitted⟩
  · have hcount : w.microWriter.rowCount > 0 := by
      rw [h.micro.rowCount]
      exact List.length_pos_iff.mpr hne
    obtain ⟨micro, hbuild, hmicro⟩ := buildBlock_buffers h.micro hne
    rw [flushMicro, if_pos hcount]
    simp only [hbuild]
    by_cases hfits : occupied (p.groups ++ [p.pending]) ≤ desc.macroBlockSize
    · obtain ⟨off, mb, hwrite, hmb⟩ := writeMicroBlock_of_fits h.current hfits
      have hcur : ({ w with microWriter := micro } : ObMacroBlockWriter).current = w.current := rfl
      rw [hcur, hwrite, lastGroups, if_pos ⟨hne, hfits⟩]
      refine ⟨h.isOpened, h.hasDesc, hmicro, ?_, h.emitted⟩
      rw [current_setCurrent]
      exact macroHolds_incMicroBlockCount hmb
    · have hwrite := writeMicroBlock_of_not_fits h.current (not_le.mp hfits)
      have hcur : ({ w with microWriter := micro } : ObMacroBlockWriter).current = w.current := rfl
      rw [hcur, hwrite, lastGroups, if_neg fun hand => hfits hand.2]
      refine ⟨h.isOpened, h.hasDesc, hmicro, ?_, h.emitted⟩
      rw [current_setCurrent]
      exact macroHolds_incMicroBlockCount h.current

structure Ready (w : ObMacroBlockWriter) (desc : ObDataStoreDesc) (p : Packing)
    (blocks : List Bytes) : Prop extends Tracks w desc p blocks where
  room : occupied p.groups + desc.microBlockSize ≤ desc.macroBlockSize

theorem writeFullMicro_tracks (h : Tracks w desc p blocks) (hne : p.pending ≠ []) :
    if occupied (p.groups ++ [p.pending]) ≤ desc.macroBlockSize then
      ∃ w', w.writeFullMicro = (0, w') ∧
        Tracks w' desc { p with groups := p.groups ++ [p.pending], pending := [] } blocks
    else ∃ ret w', ret ≠ 0 ∧ w.writeFullMicro = (ret, w') ∧
      Tracks w' desc { p with pending := [] } blocks := by
  obtain ⟨micro, hbuild, hmicro⟩ := buildBlock_buffers h.micro hne
  have hcur : ({ w with microWriter := micro } : ObMacroBlockWriter).current = w.current := rfl
  split
  · next hfits =>
    obtain ⟨off, mb, hwrite, hmb⟩ := writeMicroBlock_of_fits h.current hfits
    refine ⟨({ w with microWriter := micro } : ObMacroBlockWriter).setCurrent
      mb.incMicroBlockCount, ?_, h.isOpened, h.hasDesc, hmicro, ?_, h.emitted⟩
    · simp only [writeFullMicro, hbuild, hcur, hwrite, ne_eq,
        not_true_eq_false, ↓reduceIte]
    · rw [current_setCurrent]
      exact macroHolds_incMicroBlockCount hmb
  · next hfits =>
    have hwrite := writeMicroBlock_of_not_fits h.current (not_le.mp hfits)
    refine ⟨-1, { w with microWriter := micro }, by decide, ?_, h.isOpened, h.hasDesc, hmicro,
      h.current, h.emitted⟩
    simp [writeFullMicro, hbuild, hcur, hwrite]

theorem getRemainSize_lt_iff (h : Tracks w desc p blocks) :
    w.current.getRemainSize < w.desc.microBlockSize ↔
      desc.macroBlockSize < occupied p.groups + desc.microBlockSize := by
  rw [ObMacroBlock.getRemainSize, h.current.macroSize, h.current.dataSize, h.hasDesc]
  omega

theorem emitIfFull_of_room (h : Tracks w desc p blocks)
    (hroom : occupied p.groups + desc.microBlockSize ≤ desc.macroBlockSize) :
    w.emitIfFull = (0, none, w) := by
  rw [emitIfFull, if_neg]
  rw [getRemainSize_lt_iff h]
  omega

theorem emitIfFull_of_no_room (h : Tracks w desc p blocks) (hnil : p.pending = [])
    (hsize : HoldsMicro desc)
    (hroom : desc.macroBlockSize < occupied p.groups + desc.microBlockSize) :
    ∃ block seq w', w.emitIfFull = (0, some (block, seq), w') ∧
      Ready w' desc { emitted := p.emitted ++ [p.groups] } (blocks ++ [block]) := by
  have hflush := flushMicro_tracks h
  have hgroups : lastGroups desc p = p.groups := if_neg (by simp [hnil])
  rw [hgroups] at hflush
  obtain ⟨block, seq, w', hout, -, htracks⟩ := flushCurrentMacro_tracks hflush rfl (by omega)
  refine ⟨block, seq, w', ?_, htracks, hsize⟩
  rw [emitIfFull, if_pos ((getRemainSize_lt_iff h).mpr hroom), hout]

def bufferRow (row : ObStoreRow) (w : ObMacroBlockWriter) : ObMacroBlockWriter :=
  ({ w with
    microWriter := (w.microWriter.appendRow row).2
    totalRowCount := w.totalRowCount + 1 } : ObMacroBlockWriter).setCurrent
      (w.current.addRowCount 1)

theorem bufferRow_tracks (h : Tracks w desc p blocks) (row : ObStoreRow) :
    Tracks (bufferRow row w) desc { p with pending := p.pending ++ [row] } blocks := by
  refine ⟨h.isOpened, h.hasDesc, (appendRow_buffers h.micro row).2, ?_, h.emitted⟩
  rw [bufferRow, current_setCurrent]
  exact macroHolds_addRowCount h.current 1

theorem appendRow_eq_bufferRow (h : Tracks w desc p blocks) (row : ObStoreRow) :
    w.appendRow row =
      let w₁ := bufferRow row w
      let r := if w₁.microWriter.isBlockFull then w₁.writeFullMicro else (0, w₁)
      if r.1 ≠ 0 then (r.1, none, r.2) else r.2.emitIfFull := by
  have hret := (appendRow_buffers h.micro row).1
  have hopen : (!w.isOpened) = false := by rw [h.isOpened, Bool.not_true]
  simp only [appendRow, hopen, Bool.false_eq_true, ↓reduceIte, hret, ne_eq,
    not_true_eq_false]
  rfl

theorem appendRow_ready (h : Ready w desc p blocks) (hsize : HoldsMicro desc) (row : ObStoreRow) :
    match packRow desc p row with
    | none => ∃ ret w', ret ≠ 0 ∧ w.appendRow row = (ret, none, w') ∧
        Ready w' desc { p with pending := [] } blocks
    | some p' => ∃ flushed w', w.appendRow row = (0, flushed, w') ∧
        Ready w' desc p' (blocks ++ flushed.toList.map Prod.fst) := by
  have hw₁ := bufferRow_tracks h.toTracks row
  rw [appendRow_eq_bufferRow h.toTracks row]
  generalize bufferRow row w = w₁ at hw₁ ⊢
  have hfull : w₁.microWriter.isBlockFull = true ↔
      desc.microBlockSize ≤ dataSize (p.pending ++ [row]) + 4096 := isBlockFull_iff hw₁.micro
  by_cases hsmall : dataSize (p.pending ++ [row]) + 4096 < desc.microBlockSize
  · -- the micro block is not full, and the space of one is left
    have hnot : w₁.microWriter.isBlockFull = false := by
      rw [← Bool.not_eq_true, hfull]
      omega
    simp only [packRow, hsmall, ↓reduceIte, hnot, Bool.false_eq_true, ne_eq, not_true_eq_false]
    exact ⟨none, w₁, emitIfFull_of_room hw₁ h.room, by simpa using hw₁, h.room⟩
  · have hyes : w₁.microWriter.isBlockFull = true := hfull.mpr (by omega)
    have hwrite := writeFullMicro_tracks hw₁ (by simp)
    simp only [packRow, hsmall, ↓reduceIte, hyes]
    by_cases hfits : occupied (p.groups ++ [p.pending ++ [row]]) ≤ desc.macroBlockSize
    · rw [if_pos hfits] at hwrite
      obtain ⟨w₂, hw₂, htracks⟩ := hwrite
      rw [if_neg (not_lt.mpr hfits), hw₂]
      by_cases hroom : desc.macroBlockSize <
          occupied (p.groups ++ [p.pending ++ [row]]) + desc.microBlockSize
      · obtain ⟨block, seq, w₃, hemit, hready⟩ := emitIfFull_of_no_room htracks rfl hsize hroom
        rw [if_pos hroom]
        exact ⟨some (block, seq), w₃, by simpa using hemit, by simpa using hready⟩
      · have hemit := emitIfFull_of_room htracks (not_lt.mp hroom)
        rw [if_neg hroom]
        exact ⟨none, w₂, by simpa using hemit, by simpa using htracks, not_lt.mp hroom⟩
    · rw [if_neg hfits] at hwrite
      obtain ⟨ret, w₂, hret, hw₂, htracks⟩ := hwrite
      rw [if_pos (not_le.mp hfits), hw₂]
      exact ⟨ret, w₂, hret, by simp [hret], htracks, h.room⟩

def appendAll : List ObStoreRow → ObMacroBlockWriter → Option (List Bytes × ObMacroBlockWriter)
  | [], w => some ([], w)
  | row :: rows, w =>
    let (ret, flushed, w) := w.appendRow row
    if ret ≠ 0 then none
    else (appendAll rows w).map fun r => (flushed.toList.map Prod.fst ++ r.1, r.2)

theorem appendAll_ready (hsize : HoldsMicro desc) (rows : List ObStoreRow)
    (h : Ready w desc p blocks) :
    match packRows desc rows p with
    | none => appendAll rows w = none
    | some p' => ∃ bs w', appendAll rows w = some (bs, w') ∧ Ready w' desc p' (blocks ++ bs) := by
  induction rows generalizing w p blocks with
  | nil => exact ⟨[], w, rfl, by simpa using h⟩
  | cons row rows ih =>
    have hrow := appendRow_ready h hsize row
    cases hp : packRow desc p row with
    | none =>
      rw [hp] at hrow
      obtain ⟨ret, w₁, hret, happend, -⟩ := hrow
      simp only [packRows, hp, Option.bind_none]
      simp [appendAll, happend, hret]
    | some p₁ =>
      rw [hp] at hrow
      obtain ⟨flushed, w₁, happend, hready⟩ := hrow
      have hrest := ih hready
      simp only [packRows, hp, Option.bind_some]
      cases hps : packRows desc rows p₁ with
      | none =>
        rw [hps] at hrest
        simp [appendAll, happend, hrest]
      | some p₂ =>
        rw [hps] at hrest
        obtain ⟨bs, w₂, happendAll, hready₂⟩ := hrest
        refine ⟨flushed.toList.map Prod.fst ++ bs, w₂, ?_, ?_⟩
        · simp [appendAll, happend, happendAll]
        · rw [← List.append_assoc]
          exact hready₂

theorem openWriter_ready (parallelIdx : ℤ) (hsize : HoldsMicro desc) :
    Ready (({} : ObMacroBlockWriter).openWriter desc parallelIdx).2 desc {} [] := by
  refine ⟨⟨rfl, rfl, (init_buffers desc {}).2, ?_, List.Forall₂.nil⟩, hsize⟩
  exact init_macroHolds _ _ (by omega)

theorem close_ready (h : Ready w desc p blocks) (hsize : HoldsReserve desc) :
    ∃ block seq w', w.close = (0, [(block, seq)], w') ∧
      IsMacroBlock desc (lastGroups desc p) block := by
  obtain ⟨block, seq, w', hout, hblock, -⟩ :=
    flushCurrentMacro_tracks (flushMicro_tracks h.toTracks) rfl hsize
  refine ⟨block, seq, { w' with isOpened := false }, ?_, hblock⟩
  have hopen : (!w.isOpened) = false := by rw [h.isOpened, Bool.not_true]
  simp only [ObMacroBlockWriter.close, hopen, Bool.false_eq_true, ↓reduceIte, hout]

end Writer

section Decoding

variable {desc : ObDataStoreDesc} {p : Packing} {blocks : List Bytes} {rows : List ObStoreRow}

def splitMicroBlocks : ℕ → Bytes → Option (List Bytes)
  | _, [] => some []
  | 0, _ => none
  | fuel + 1, data =>
    match deserialize data with
    | none => none
    | some header =>
      let length := (header.dataLength % 2 ^ 32).toNat
      if !header.isValid || length == 0 || data.length < length then none
      else (splitMicroBlocks fuel (data.drop length)).map (data.take length :: ·)

def decodeMacroBlock (block : Bytes) : Option (List (ObDmlFlag × Bytes × Bytes)) := do
  let data := block.drop (ObMacroBlockCommonHeader.getSerializeSize +
    FixedHeader.getSerializeSize + ObMacroBlock.headerReserve)
  let micros ← splitMicroBlocks data.length data
  let rows ← micros.mapM decodeMicroBlock
  some rows.flatten

def decodeMacroBlocks (blocks : List Bytes) : Option (List (ObDmlFlag × Bytes × Bytes)) :=
  (blocks.mapM decodeMacroBlock).map List.flatten

theorem splitMicroBlocks_append {micro rest : Bytes} {header : ObMicroBlockHeader} {fuel : ℕ}
    (hheader : deserialize (micro ++ rest) = some header)
    (hvalid : header.isValid = true) (hlength : (header.dataLength % 2 ^ 32).toNat = micro.length)
    (hne : micro ≠ []) :
    splitMicroBlocks (fuel + 1) (micro ++ rest) =
      (splitMicroBlocks fuel rest).map (micro :: ·) := by
  obtain ⟨b, bs, rfl⟩ := List.exists_cons_of_ne_nil hne
  rw [List.cons_append] at hheader ⊢
  have hzero : ((b :: bs).length == 0) = false := by simp
  have hshort : ¬ (b :: (bs ++ rest)).length < (b :: bs).length := by simp
  simp only [splitMicroBlocks, hheader, hvalid, hlength, hzero, hshort, Bool.not_true, Bool.or_self,
    decide_false, Bool.false_eq_true, ↓reduceIte]
  rw [← List.cons_append, List.take_left, List.drop_left]

theorem splitMicroBlocks_flatMap (desc : ObDataStoreDesc) {groups : List (List ObStoreRow)}
    (hsize : ∀ rows ∈ groups, blockSize rows < 2 ^ 32) {fuel : ℕ} (hfuel : groups.length ≤ fuel) :
    splitMicroBlocks fuel (groups.flatMap (microBlockOf desc)) =
      some (groups.map (microBlockOf desc)) := by
  induction groups generalizing fuel with
  | nil => cases fuel <;> rfl
  | cons rows groups ih =>
    obtain ⟨fuel, rfl⟩ : ∃ k, fuel = k + 1 := ⟨fuel - 1, by simp at hfuel; omega⟩
    have hrest := ih (fun r hr => hsize r (List.mem_cons_of_mem rows hr))
      (Nat.le_of_succ_le_succ hfuel)
    have hlen := length_microBlockOf desc rows
    have hne : microBlockOf desc rows ≠ [] := by
      apply List.ne_nil_of_length_pos
      rw [hlen, blockSize, dataSize, getSerializeSize]
      omega
    have hheader : deserialize
        (microBlockOf desc rows ++ groups.flatMap (microBlockOf desc)) =
          some (blockHeader desc rows) := by
      rw [microBlockOf, List.append_assoc, List.append_assoc]
      exact deserialize_fieldBytes
        (blockHeader_fits desc (hsize rows List.mem_cons_self)) _
    have hlength : ((blockHeader desc rows).dataLength % 2 ^ 32).toNat =
        (microBlockOf desc rows).length := by
      rw [hlen, ← Nat.mod_eq_of_lt (hsize rows List.mem_cons_self)]
      exact asInt32_emod (blockSize rows)
    rw [List.flatMap_cons, splitMicroBlocks_append hheader rfl hlength hne, hrest]
    rfl

theorem length_le_flatMap (desc : ObDataStoreDesc) (groups : List (List ObStoreRow)) :
    groups.length ≤ (groups.flatMap (microBlockOf desc)).length := by
  induction groups with
  | nil => simp
  | cons rows groups ih =>
    rw [List.flatMap_cons, List.length_append, length_microBlockOf, blockSize, dataSize,
      getSerializeSize, List.length_cons]
    omega

theorem mapM_decodeMicroBlock (desc : ObDataStoreDesc) {groups : List (List ObStoreRow)}
    (hsize : ∀ rows ∈ groups, blockSize rows < 2 ^ 32) :
    (groups.map (microBlockOf desc)).mapM decodeMicroBlock =
      some (groups.map fun rows => rows.map rowContent) := by
  induction groups with
  | nil => rfl
  | cons rows groups ih =>
    rw [List.map_cons, List.mapM_cons,
      decodeMicroBlock_microBlockOf desc (hsize rows List.mem_cons_self),
      ih fun r hr => hsize r (List.mem_cons_of_mem rows hr)]
    rfl

theorem decodeMacroBlock_of_isMacroBlock {groups : List (List ObStoreRow)} {block : Bytes}
    (h : IsMacroBlock desc groups block) (hmax : desc.macroBlockSize < 2 ^ 32) :
    decodeMacroBlock block = some (groups.flatten.map rowContent) := by
  obtain ⟨hinside, headers, hheaders, rfl⟩ := h
  have hsize : ∀ rows ∈ groups, blockSize rows < 2 ^ 32 := by
    intro rows hrows
    have hle : blockSize rows ≤ (groups.map blockSize).sum :=
      List.single_le_sum (by simp) _ (List.mem_map_of_mem hrows)
    rw [occupied] at hinside
    omega
  have hdrop : (headers ++ (List.replicate ObMacroBlock.headerReserve 0 ++
      groups.flatMap (microBlockOf desc))).drop (ObMacroBlockCommonHeader.getSerializeSize +
        FixedHeader.getSerializeSize + ObMacroBlock.headerReserve) =
      groups.flatMap (microBlockOf desc) := by
    rw [← List.append_assoc]
    apply List.drop_left'
    rw [List.length_append, List.length_replicate, hheaders]
  have hsplit := splitMicroBlocks_flatMap desc hsize (length_le_flatMap desc groups)
  simp only [decodeMacroBlock, hdrop, hsplit, Option.bind_eq_bind, Option.bind_some,
    mapM_decodeMicroBlock desc hsize, List.map_flatten]

theorem mapM_decodeMacroBlock (hmax : desc.macroBlockSize < 2 ^ 32)
    {emitted : List (List (List ObStoreRow))}
    (h : List.Forall₂ (IsMacroBlock desc) emitted blocks) :
    blocks.mapM decodeMacroBlock =
      some (emitted.map fun groups => groups.flatten.map rowContent) := by
  induction h with
  | nil => rfl
  | cons hblock _ ih =>
    rw [List.mapM_cons, decodeMacroBlock_of_isMacroBlock hblock hmax, ih]
    rfl

def LastBlockFits (desc : ObDataStoreDesc) (rows : List ObStoreRow) : Prop :=
  ∀ p, packRows desc rows {} = some p →
    p.pending = [] ∨ occupied (p.groups ++ [p.pending]) ≤ desc.macroBlockSize

def Packing.Fits (desc : ObDataStoreDesc) (p : Packing) : Prop :=
  p.pending = [] ∨ occupied (p.groups ++ [p.pending]) ≤ desc.macroBlockSize

def Packing.kept (desc : ObDataStoreDesc) (p : Packing) : List ObStoreRow :=
  p.emitted.flatten.flatten ++ (lastGroups desc p).flatten

theorem decodeMacroBlocks_of_closed (hmax : desc.macroBlockSize < 2 ^ 32) {block : Bytes}
    (hblocks : List.Forall₂ (IsMacroBlock desc) p.emitted blocks)
    (hblock : IsMacroBlock desc (lastGroups desc p) block) :
    decodeMacroBlocks (blocks ++ [block]) = some ((p.kept desc).map rowContent) := by
  have hall : List.Forall₂ (IsMacroBlock desc) (p.emitted ++ [lastGroups desc p])
      (blocks ++ [block]) :=
    List.rel_append hblocks (List.Forall₂.cons hblock List.Forall₂.nil)
  have hflat : ∀ gs : List (List (List ObStoreRow)),
      (gs.map fun groups => groups.flatten.map rowContent).flatten =
        gs.flatten.flatten.map rowContent := by
    intro gs
    rw [List.flatten_flatten, List.map_flatten, List.map_map]
    rfl
  rw [decodeMacroBlocks, mapM_decodeMacroBlock hmax hall, Option.map_some, hflat,
    List.flatten_append, List.flatten_append, List.flatten_singleton, Packing.kept]

theorem kept_of_fits (h : p.Fits desc) : p.kept desc = p.rows := by
  rw [Packing.kept, Packing.rows, lastGroups]
  by_cases hnil : p.pending = []
  · simp [hnil]
  · rw [if_pos ⟨hnil, h.resolve_left hnil⟩]
    simp

theorem kept_of_not_fits (h : ¬ occupied (p.groups ++ [p.pending]) ≤ desc.macroBlockSize) :
    p.kept desc = p.emitted.flatten.flatten ++ p.groups.flatten := by
  rw [Packing.kept, lastGroups, if_neg fun hand => h hand.2]

theorem kept_subset (p : Packing) : p.kept desc ⊆ p.rows := by
  by_cases h : p.Fits desc
  · rw [kept_of_fits h]
    exact List.Subset.refl _
  · rw [kept_of_not_fits fun hfits => h (Or.inr hfits), Packing.rows]
    exact List.subset_append_left _ _

theorem decodeMacroBlocks_eq_iff (hmax : desc.macroBlockSize < 2 ^ 32) {block : Bytes}
    (hblocks : List.Forall₂ (IsMacroBlock desc) p.emitted blocks)
    (hblock : IsMacroBlock desc (lastGroups desc p) block) :
    decodeMacroBlocks (blocks ++ [block]) = some (p.rows.map rowContent) ↔ p.Fits desc := by
  rw [decodeMacroBlocks_of_closed hmax hblocks hblock, Option.some.injEq]
  constructor
  · intro heq
    by_contra hnot
    have hlen := congrArg List.length heq
    rw [kept_of_not_fits fun hfits => hnot (Or.inr hfits), Packing.rows] at hlen
    simp only [List.length_map, List.length_append] at hlen
    exact hnot (Or.inl (List.length_eq_zero_iff.mp (by omega)))
  · intro hfits
    rw [kept_of_fits hfits]

end Decoding

section RowLoss

variable {desc : ObDataStoreDesc}

theorem run_of_packRows (hsize : HoldsMicro desc) (hmax : desc.macroBlockSize < 2 ^ 32)
    (parallelIdx : ℤ) {rows : List ObStoreRow} {p : Packing}
    (hpack : packRows desc rows {} = some p) :
    ∃ blocks w block seq w',
      appendAll rows (({} : ObMacroBlockWriter).openWriter desc parallelIdx).2 =
        some (blocks, w) ∧
      w.close = (0, [(block, seq)], w') ∧
      (decodeMacroBlocks (blocks ++ [block]) = some (rows.map rowContent) ↔ p.Fits desc) := by
  have hready := appendAll_ready hsize rows (openWriter_ready parallelIdx hsize)
  rw [hpack] at hready
  obtain ⟨blocks, w, happend, hready⟩ := hready
  rw [List.nil_append] at hready
  obtain ⟨block, seq, w', hclose, hblock⟩ := close_ready hready (by omega)
  have hrows : p.rows = rows := packRows_rows hpack
  refine ⟨blocks, w, block, seq, w', happend, hclose, ?_⟩
  rw [← hrows]
  exact decodeMacroBlocks_eq_iff hmax hready.emitted hblock

theorem appendAll_of_not_packed (hsize : HoldsMicro desc) (parallelIdx : ℤ) {rows : List ObStoreRow}
    (hpack : packRows desc rows {} = none) :
    appendAll rows (({} : ObMacroBlockWriter).openWriter desc parallelIdx).2 = none := by
  have hready := appendAll_ready hsize rows (openWriter_ready parallelIdx hsize)
  rw [hpack] at hready
  exact hready

theorem packRows_append (as bs : List ObStoreRow) (p : Packing) :
    packRows desc (as ++ bs) p = (packRows desc as p).bind (packRows desc bs) := by
  induction as generalizing p with
  | nil => rfl
  | cons a as ih =>
    rw [List.cons_append, packRows, packRows, Option.bind_assoc]
    exact Option.bind_congr fun q _ => ih q

theorem packRows_of_small {rows : List ObStoreRow} {p : Packing}
    (h : dataSize (p.pending ++ rows) + 4096 < desc.microBlockSize) :
    packRows desc rows p = some { p with pending := p.pending ++ rows } := by
  induction rows generalizing p with
  | nil => simp [packRows]
  | cons row rows ih =>
    have hsplit : p.pending ++ row :: rows = p.pending ++ [row] ++ rows := by simp
    rw [hsplit] at h ⊢
    have hrow : packRow desc p row = some { p with pending := p.pending ++ [row] } := by
      rw [packRow, if_pos]
      simp only [dataSize, List.flatMap_append, List.length_append] at h ⊢
      omega
    rw [packRows, hrow]
    exact ih h

theorem packRow_of_full {p : Packing} {row : ObStoreRow}
    (hfull : desc.microBlockSize ≤ dataSize (p.pending ++ [row]) + 4096)
    (hroom : occupied (p.groups ++ [p.pending ++ [row]]) + desc.microBlockSize ≤
      desc.macroBlockSize) :
    packRow desc p row =
      some { p with groups := p.groups ++ [p.pending ++ [row]], pending := [] } := by
  rw [packRow, if_neg (not_lt.mpr hfull), if_neg (by omega), if_neg (by omega)]

theorem dataSize_replicate (n : ℕ) (row : ObStoreRow) :
    dataSize (List.replicate n row) = 56 + n * (encodeRow row).length := by
  simp [dataSize, getSerializeSize]

def longRow : ObStoreRow :=
  { dmlFlag := .dfInsert, rowkey := ⟨[97]⟩, rowValue := List.replicate 3990 1 }

def shortRow : ObStoreRow := { dmlFlag := .dfInsert, rowkey := ⟨[98]⟩ }

theorem length_longRow : (encodeRow longRow).length = 4000 := by
  rw [length_encodeRow]
  simp only [longRow, List.length_replicate, List.length_singleton]

theorem length_shortRow : (encodeRow shortRow).length = 10 := by
  rw [length_encodeRow]
  rfl

def longBlock : List ObStoreRow := List.replicate 64 longRow ++ [longRow]

theorem blockSize_longBlock : blockSize longBlock = 260316 := by
  have hblock : longBlock = List.replicate 65 longRow := rfl
  rw [hblock, blockSize, dataSize_replicate, length_longRow, List.length_replicate]

theorem occupied_longBlocks (n : ℕ) :
    occupied (List.replicate n longBlock) = 4096 + n * 260316 := by
  simp [occupied, ObMacroBlock.headerReserve, blockSize_longBlock]

theorem packRows_longBlocks {n : ℕ} (hn : n ≤ 7) :
    packRows {} (List.replicate n longBlock).flatten {} =
      some { groups := List.replicate n longBlock } := by
  induction n with
  | zero => rfl
  | succ n ih =>
    have hsmall : packRows {} (List.replicate 64 longRow)
        { groups := List.replicate n longBlock } =
        some { groups := List.replicate n longBlock, pending := List.replicate 64 longRow } := by
      apply packRows_of_small
      rw [List.nil_append, dataSize_replicate, length_longRow]
      decide
    have hfull : packRow {} ⟨[], List.replicate n longBlock, List.replicate 64 longRow⟩ longRow =
        some { groups := List.replicate n longBlock ++ [longBlock] } := by
      apply packRow_of_full
      · have hblock : List.replicate 64 longRow ++ [longRow] = List.replicate 65 longRow := rfl
        rw [hblock, dataSize_replicate, length_longRow]
        decide
      · have hocc := occupied_append (List.replicate n longBlock) longBlock
        rw [occupied_longBlocks, blockSize_longBlock] at hocc
        refine le_trans (Nat.add_le_add_right hocc.le _) ?_
        simp only [defaultMicroBlockSize, defaultMacroBlockSize]
        omega
    rw [List.replicate_succ', List.flatten_append, packRows_append, ih (by omega),
      Option.bind_some, List.flatten_singleton, longBlock, packRows_append]
    rw [← longBlock, hsmall, Option.bind_some, packRows, hfull]
    rfl

def longThenShort (n : ℕ) : List ObStoreRow :=
  (List.replicate 7 longBlock).flatten ++ List.replicate n shortRow

theorem packRows_longThenShort {n : ℕ} (hn : 56 + n * 10 + 4096 < defaultMicroBlockSize) :
    packRows {} (longThenShort n) {} =
      some ⟨[], List.replicate 7 longBlock, List.replicate n shortRow⟩ := by
  rw [longThenShort, packRows_append, packRows_longBlocks le_rfl, Option.bind_some]
  apply packRows_of_small
  rw [List.nil_append, dataSize_replicate, length_shortRow]
  exact hn

theorem occupied_longThenShort (n : ℕ) :
    occupied (List.replicate 7 longBlock ++ [List.replicate n shortRow]) =
      4096 + 7 * 260316 + (56 + n * 10 + 4 * n) := by
  rw [occupied_append, occupied_longBlocks, blockSize, dataSize_replicate, length_shortRow,
    List.length_replicate]

theorem length_of_mem_longThenShort {n : ℕ} {row : ObStoreRow} (h : row ∈ longThenShort n) :
    (encodeRow row).length < 4096 := by
  have hcases : row = longRow ∨ row = shortRow := by
    rcases List.mem_append.mp h with hlong | hshort
    · obtain ⟨block, hblock, hrow⟩ := List.mem_flatten.mp hlong
      rw [List.eq_of_mem_replicate hblock, longBlock, List.mem_append, List.mem_singleton] at hrow
      exact Or.inl (hrow.elim List.eq_of_mem_replicate id)
    · exact Or.inr (List.eq_of_mem_replicate hshort)
  rcases hcases with rfl | rfl
  · rw [length_longRow]
    decide
  · rw [length_shortRow]
    decide

theorem shortRows_dropped {n : ℕ} (hn : 56 + n * 10 + 4096 < defaultMicroBlockSize)
    (hlong : defaultMacroBlockSize < 4096 + 7 * 260316 + (56 + n * 10 + 4 * n)) :
    ∃ blocks w block seq w',
      appendAll (longThenShort n) (({} : ObMacroBlockWriter).openWriter {} 0).2 =
        some (blocks, w) ∧
      w.close = (0, [(block, seq)], w') ∧
      decodeMacroBlocks (blocks ++ [block]) ≠ some ((longThenShort n).map rowContent) := by
  obtain ⟨blocks, w, block, seq, w', happend, hclose, hiff⟩ :=
    run_of_packRows (by decide) (by decide) 0 (packRows_longThenShort hn)
  refine ⟨blocks, w, block, seq, w', happend, hclose, fun hdecode => ?_⟩
  rcases hiff.mp hdecode with hnil | hfits
  · have hzero : n = 0 := by simpa using hnil
    rw [hzero] at hlong
    exact absurd hlong (by decide)
  · rw [occupied_longThenShort] at hfits
    exact absurd hlong (not_lt.mpr hfits)

/-- If all appends return 0, the emitted blocks decode to the rows exactly when the last micro
block fits its macro block. -/
theorem rows_kept_iff_lastBlockFits (hmax : desc.macroBlockSize = defaultMacroBlockSize)
    (hmicro : desc.microBlockSize = defaultMicroBlockSize) (parallelIdx : ℤ)
    {rows : List ObStoreRow} {blocks : List Bytes} {w : ObMacroBlockWriter}
    (hrun : appendAll rows (({} : ObMacroBlockWriter).openWriter desc parallelIdx).2 =
      some (blocks, w)) :
    ∃ block seq w', w.close = (0, [(block, seq)], w') ∧
      (decodeMacroBlocks (blocks ++ [block]) = some (rows.map rowContent) ↔
        LastBlockFits desc rows) := by
  have hsize : HoldsMicro desc := by
    rw [HoldsMicro, hmax, hmicro]
    decide
  cases hpack : packRows desc rows {} with
  | none => cases (appendAll_of_not_packed hsize parallelIdx hpack).symm.trans hrun
  | some p =>
    obtain ⟨blocks', w₁, block, seq, w', happend, hclose, hiff⟩ :=
      run_of_packRows hsize (by rw [hmax]; decide) parallelIdx hpack
    cases happend.symm.trans hrun
    refine ⟨block, seq, w', hclose, hiff.trans ?_⟩
    constructor
    · intro hfits q hq
      cases hpack.symm.trans hq
      exact hfits
    · intro hlast
      exact hlast p hpack

/-- Seven full micro blocks and one with a single row. -/
theorem rows_kept_iff_lastBlockFits_example :
    ∃ blocks w block seq w',
      appendAll (longThenShort 1) (({} : ObMacroBlockWriter).openWriter {} 0).2 =
        some (blocks, w) ∧
      w.close = (0, [(block, seq)], w') ∧
      decodeMacroBlocks (blocks ++ [block]) = some ((longThenShort 1).map rowContent) := by
  have hpack : packRows {} (longThenShort 1) {} = _ := packRows_longThenShort (by decide)
  obtain ⟨blocks, w, -, -, -, happend, -⟩ := run_of_packRows (by decide) (by decide) 0 hpack
  obtain ⟨block, seq, w', hclose, hiff⟩ := rows_kept_iff_lastBlockFits rfl rfl 0 happend
  refine ⟨blocks, w, block, seq, w', happend, hclose, hiff.mpr fun p hp => Or.inr ?_⟩
  cases hpack.symm.trans hp
  rw [occupied_longThenShort]
  decide

/-- 19343 short rows: every call returns 0, and the rows are lost. -/
theorem short_rows_lost :
    (∀ row ∈ longThenShort 19343, (encodeRow row).length < 4096) ∧
    ∃ blocks w block seq w',
      appendAll (longThenShort 19343) (({} : ObMacroBlockWriter).openWriter {} 0).2 =
        some (blocks, w) ∧
      w.close = (0, [(block, seq)], w') ∧
      decodeMacroBlocks (blocks ++ [block]) ≠ some ((longThenShort 19343).map rowContent) :=
  ⟨fun _ => length_of_mem_longThenShort, shortRows_dropped (by decide) (by decide)⟩

end RowLoss

end MacroBlockRows
