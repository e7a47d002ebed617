import LsmStorage.MicroBlock
import Mathlib.Data.Fin.Basic

/-! # ObMacroBlock and ObMacroBlockWriter

A macro block collects micro blocks behind 4096 reserved bytes. The writer fills one of two
macro blocks; when less than a micro block's space remains, it emits the block with its two
headers in front and goes on with the other one. -/
namespace MacroBlock

open ByteCodec Memtable MicroBlock

structure ObMacroBlockCommonHeader where
  headerSize : ℕ := 0
  version : ℕ := 1
  magic : ℕ := 1001
  attr : ℕ := 1
  payloadSize : ℕ := 0
  payloadChecksum : ℕ := 0
  deriving DecidableEq, Repr

namespace ObMacroBlockCommonHeader

def words (h : ObMacroBlockCommonHeader) : List (ℕ × ℕ) :=
  [(4, h.headerSize), (4, h.version), (4, h.magic), (4, h.attr), (4, h.payloadSize),
    (4, h.payloadChecksum)]

def widths : List ℕ := (words {}).map Prod.fst

def getSerializeSize : ℕ := 24

def fieldBytes (h : ObMacroBlockCommonHeader) : Bytes := packLE h.words

def deserialize (buf : Bytes) : Option ObMacroBlockCommonHeader :=
  if buf.length < getSerializeSize then none
  else
    let word := fun i => (unpackLE widths buf).getD i 0
    some
      { headerSize := word 0
        version := word 1
        magic := word 2
        attr := word 3
        payloadSize := word 4
        payloadChecksum := word 5 }

theorem length_fieldBytes (h : ObMacroBlockCommonHeader) :
    h.fieldBytes.length = getSerializeSize := by
  simp [fieldBytes, length_packLE, words, getSerializeSize]

end ObMacroBlockCommonHeader

/-- `ObSSTableMacroBlockHeader::FixedHeader`, all that is serialized. -/
structure FixedHeader where
  headerSize : ℕ := 0
  version : ℕ := 0
  magic : ℕ := 0
  tabletId : ℕ := 0
  logicalVersion : ℕ := 0
  dataSeq : ℕ := 0
  columnCount : ℕ := 0
  rowkeyColumnCount : ℕ := 0
  rowStoreType : ℕ := 0
  rowCount : ℕ := 0
  occupySize : ℕ := 0
  microBlockCount : ℕ := 0
  microBlockDataOffset : ℕ := 0
  microBlockDataSize : ℕ := 0
  idxBlockOffset : ℕ := 0
  idxBlockSize : ℕ := 0
  metaBlockOffset : ℕ := 0
  metaBlockSize : ℕ := 0
  dataChecksum : ℕ := 0
  deriving DecidableEq, Repr

namespace FixedHeader

def words (h : FixedHeader) : List (ℕ × ℕ) :=
  [(4, h.headerSize), (2, h.version), (2, h.magic), (8, h.tabletId), (8, h.logicalVersion),
    (8, h.dataSeq), (4, h.columnCount), (4, h.rowkeyColumnCount), (4, h.rowStoreType),
    (4, h.rowCount), (4, h.occupySize), (4, h.microBlockCount), (4, h.microBlockDataOffset),
    (4, h.microBlockDataSize), (4, h.idxBlockOffset), (4, h.idxBlockSize),
    (4, h.metaBlockOffset), (4, h.metaBlockSize), (8, h.dataChecksum)]

def widths : List ℕ := (words {}).map Prod.fst

def getSerializeSize : ℕ := 88

def fieldBytes (h : FixedHeader) : Bytes := packLE h.words

def deserialize (buf : Bytes) : Option FixedHeader :=
  if buf.length < getSerializeSize then none
  else
    let word := fun i => (unpackLE widths buf).getD i 0
    some
      { headerSize := word 0
        version := word 1
        magic := word 2
        tabletId := word 3
        logicalVersion := word 4
        dataSeq := word 5
        columnCount := word 6
        rowkeyColumnCount := word 7
        rowStoreType := word 8
        rowCount := word 9
        occupySize := word 10
        microBlockCount := word 11
        microBlockDataOffset := word 12
        microBlockDataSize := word 13
        idxBlockOffset := word 14
        idxBlockSize := word 15
        metaBlockOffset := word 16
        metaBlockSize := word 17
        dataChecksum := word 18 }

theorem length_fieldBytes (h : FixedHeader) : h.fieldBytes.length = getSerializeSize := by
  simp [fieldBytes, length_packLE, words, getSerializeSize]

end FixedHeader

structure ObMacroBlock where
  dataBuf : Bytes := []
  macroSize : ℕ := 0
  dataSize : ℕ := 0
  curMacroSeq : ℤ := 0
  macroHeader : FixedHeader := {}
  commonHeader : ObMacroBlockCommonHeader := {}
  rowCount : ℕ := 0
  microBlockCount : ℕ := 0
  isInited : Bool := false

namespace ObMacroBlock

def headerReserve : ℕ := 4096

/-- The counts and sizes of the last use of the headers stay. -/
def init (spec : ObDataStoreDesc) (curMacroSeq : ℤ) (mb : ObMacroBlock) : ℤ × ObMacroBlock :=
  (0, { mb with
    curMacroSeq := curMacroSeq
    macroSize := spec.macroBlockSize
    dataSize := headerReserve
    rowCount := 0
    microBlockCount := 0
    dataBuf := List.replicate spec.macroBlockSize 0
    macroHeader := { mb.macroHeader with
      headerSize := FixedHeader.getSerializeSize
      version := 2
      magic := 1007
      tabletId := spec.tabletId
      columnCount := spec.columnCount % 2 ^ 32
      rowkeyColumnCount := spec.rowkeyColumnCount % 2 ^ 32
      rowStoreType := 0 }
    isInited := true })

def writeMicroBlock (microData : Bytes) (mb : ObMacroBlock) : ℤ × Option ℕ × ObMacroBlock :=
  if !mb.isInited then (-1, none, mb)
  else if mb.dataSize + microData.length > mb.macroSize then (-1, none, mb)
  else
    (0, some mb.dataSize, { mb with
      dataBuf := overwrite mb.dataBuf mb.dataSize microData
      dataSize := mb.dataSize + microData.length })

def getRemainSize (mb : ObMacroBlock) : ℤ := (mb.macroSize : ℤ) - mb.dataSize

def addRowCount (n : ℕ) (mb : ObMacroBlock) : ObMacroBlock :=
  { mb with rowCount := mb.rowCount + n }

def incMicroBlockCount (mb : ObMacroBlock) : ObMacroBlock :=
  { mb with microBlockCount := mb.microBlockCount + 1 }

def buildCommonHeader (mb : ObMacroBlock) : ObMacroBlock :=
  { mb with
    macroHeader := { mb.macroHeader with
      rowCount := mb.rowCount
      occupySize := mb.dataSize
      microBlockCount := mb.microBlockCount
      microBlockDataOffset := headerReserve
      microBlockDataSize := mb.dataSize - headerReserve }
    commonHeader :=
      { headerSize := ObMacroBlockCommonHeader.getSerializeSize
        version := 1
        magic := 1001
        attr := 1
        payloadSize := mb.dataSize
        payloadChecksum := 0 }
    isInited := false }

end ObMacroBlock

structure ObMacroBlockWriter where
  desc : ObDataStoreDesc := {}
  microWriter : ObMicroBlockWriter := {}
  macroBlocks : Fin 2 → ObMacroBlock := fun _ => {}
  currentMacroIdx : Fin 2 := 0
  macroSeq : ℤ := 0
  totalRowCount : ℕ := 0
  isOpened : Bool := false

namespace ObMacroBlockWriter

def new : ObMacroBlockWriter := {}

def current (w : ObMacroBlockWriter) : ObMacroBlock := w.macroBlocks w.currentMacroIdx

def setCurrent (mb : ObMacroBlock) (w : ObMacroBlockWriter) : ObMacroBlockWriter :=
  { w with macroBlocks := Function.update w.macroBlocks w.currentMacroIdx mb }

def openWriter (desc : ObDataStoreDesc) (parallelIdx : ℤ) (w : ObMacroBlockWriter) :
    ℤ × ObMacroBlockWriter :=
  let macroSeq := parallelIdx * 1000000 + 1
  (0, { w with
    desc := desc
    microWriter := (w.microWriter.init desc).2
    macroBlocks := fun i => ((w.macroBlocks i).init desc (macroSeq + i.val)).2
    currentMacroIdx := 0
    macroSeq := macroSeq + 2
    totalRowCount := 0
    isOpened := true })

def writeFullMicro (w : ObMacroBlockWriter) : ℤ × ObMacroBlockWriter :=
  let (ret, microData, micro) := w.microWriter.buildBlock
  let w := { w with microWriter := micro }
  if ret ≠ 0 then (ret, w)
  else
    let (ret, _, mb) := w.current.writeMicroBlock microData
    if ret ≠ 0 then (ret, w) else (0, w.setCurrent mb.incMicroBlockCount)

/-- The pending rows go into the macro block; what the write answers is not looked at. -/
def flushMicro (w : ObMacroBlockWriter) : ObMacroBlockWriter :=
  if w.microWriter.rowCount > 0 then
    let (_, microData, micro) := w.microWriter.buildBlock
    let w := { w with microWriter := micro }
    let (_, _, mb) := w.current.writeMicroBlock microData
    w.setCurrent mb.incMicroBlockCount
  else w

def flushCurrentMacro (w : ObMacroBlockWriter) : Bytes × ℤ × ObMacroBlockWriter :=
  let mb := w.current.buildCommonHeader
  let w := w.setCurrent mb
  let out := mb.commonHeader.fieldBytes ++ mb.macroHeader.fieldBytes ++ mb.dataBuf.take mb.dataSize
  let w := { w with currentMacroIdx := 1 - w.currentMacroIdx }
  (out, mb.curMacroSeq,
    { w.setCurrent (w.current.init w.desc w.macroSeq).2 with macroSeq := w.macroSeq + 1 })

/-- The end of `append_row`: the macro block goes out when too little space remains. -/
def emitIfFull (w : ObMacroBlockWriter) : ℤ × Option (Bytes × ℤ) × ObMacroBlockWriter :=
  if w.current.getRemainSize < w.desc.microBlockSize then
    let (block, seq, w) := w.flushMicro.flushCurrentMacro
    (0, some (block, seq), w)
  else (0, none, w)

def appendRow (row : ObStoreRow) (w : ObMacroBlockWriter) :
    ℤ × Option (Bytes × ℤ) × ObMacroBlockWriter :=
  if !w.isOpened then (-1, none, w)
  else
    let (ret, micro) := w.microWriter.appendRow row
    let w := { w with microWriter := micro }
    if ret ≠ 0 then (ret, none, w)
    else
      let w := { w with totalRowCount := w.totalRowCount + 1 }
      let w := w.setCurrent (w.current.addRowCount 1)
      let (ret, w) := if w.microWriter.isBlockFull then w.writeFullMicro else (0, w)
      if ret ≠ 0 then (ret, none, w) else w.emitIfFull

def close (w : ObMacroBlockWriter) : ℤ × List (Bytes × ℤ) × ObMacroBlockWriter :=
  if !w.isOpened then (-1, [], w)
  else
    let (block, seq, w) := w.flushMicro.flushCurrentMacro
    (0, [(block, seq)], { w with isOpened := false })

end ObMacroBlockWriter

end MacroBlock
