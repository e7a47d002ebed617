import LsmStorage.PalfLogStorage

/-! # PalfHandleImpl: one log stream

`init` opens the storage and walks the header chain to find the end of the log; `append`
writes a group header and the payload at `max_lsn_`. The walk has a budget, and an
append is undefined when it copies past the buffer it allocated. -/
namespace PalfHandle

open ByteCodec PosixFiles PalfLogEntry PalfLogStorage BoundedLoop LogGroupEntryHeader

variable {δ : Type*}

structure LogCache where
  buf : Bytes := []
  beginLsn : ℕ := 0
  endLsn : ℕ := 0
  isInited : Bool := false

def LogCache.get (c : LogCache) (lsn readSize : ℕ) : Option Bytes :=
  if !c.isInited then none
  else if c.beginLsn ≤ lsn ∧ lsn < c.endLsn then
    let remain := c.endLsn - lsn
    some (slice c.buf (lsn - c.beginLsn) (if readSize < remain then readSize else remain))
  else none

structure PalfHandleImpl (δ : Type*) where
  palfId : ℤ := -1
  epoch : ℤ := 0
  logDir : δ
  logStorage : LogStorage δ
  logCache : LogCache := {}
  endLsn : ℕ := 0
  maxLsn : ℕ := 0
  logId : ℤ := firstValidLogId
  proposalId : ℤ := 1
  role : ℤ := 1
  isInited : Bool := false

/-- What `malloc` and the storage calls answer during one append. Fresh memory holds
arbitrary bytes; `none` is a null pointer. -/
structure AppendEnv where
  malloc : Option (ℕ → UInt8)
  io : WriteIo

structure AppendResult where
  ret : ℤ
  lsn : Option ℕ
  scn : Option ℤ
  deriving DecidableEq, Repr

namespace PalfHandleImpl

def new (logDir : δ) : PalfHandleImpl δ := { logDir := logDir, logStorage := { logDir := logDir } }

def scanBufSize : ℕ := 4096

/-- One turn of the recovery scan over `scan_lsn` and `last_valid_lsn`. -/
def scanTurn (s : LogStorage δ) (disk : Disk δ) : ℕ × ℕ → Turn (ℕ × ℕ) ℕ
  | (scanLsn, lastValidLsn) =>
    match s.read disk scanLsn scanBufSize scanBufSize with
    | none => .stop lastValidLsn
    | some buf =>
      if buf.length < getSerializeSize then .stop lastValidLsn
      else
        match deserialize buf 0 with
        | none => .stop lastValidLsn
        | some (hdr, _) =>
          if !hdr.isValid then .stop lastValidLsn
          else if hdr.committedEndLsn ≤ scanLsn then .stop hdr.committedEndLsn
          else .again (hdr.committedEndLsn, hdr.committedEndLsn)

/-- One turn of the scan that `load` makes over `scan_lsn`. It is not asked to advance. -/
def loadTurn (s : LogStorage δ) (disk : Disk δ) (scanLsn : ℕ) : Turn ℕ ℕ :=
  match s.read disk scanLsn scanBufSize scanBufSize with
  | none => .stop scanLsn
  | some buf =>
    if buf.length < getSerializeSize then .stop scanLsn
    else
      match deserialize buf 0 with
      | none => .stop scanLsn
      | some (hdr, _) =>
        if !hdr.isValid then .stop scanLsn
        else if hdr.committedEndLsn ≤ 0 then .stop hdr.committedEndLsn
        else .again hdr.committedEndLsn

/-- Moves `end_lsn_` only; the next append still goes to `max_lsn_`. -/
def seek (lsn : ℕ) (h : PalfHandleImpl δ) : ℤ × PalfHandleImpl δ :=
  if !h.isInited then (-1, h) else (0, { h with endLsn := lsn })

def read (h : PalfHandleImpl δ) (disk : Disk δ) (lsn readSize bufLen : ℕ) : Option Bytes :=
  if !h.isInited then none
  else
    match h.logCache.get lsn readSize with
    | some out => some out
    | none => h.logStorage.read disk lsn readSize bufLen

variable [DecidableEq δ]

def init (fuel : ℕ) (palfId : ℤ) (logDir : δ) (h : PalfHandleImpl δ) (disk : Disk δ) :
    Option (ℤ × PalfHandleImpl δ × Disk δ) :=
  if h.isInited then some (-1, h, disk)
  else
    let h := { h with palfId := palfId, logDir := logDir, epoch := 1 }
    match h.logStorage.init fuel logDir palfBlockSize disk with
    | none => none
    | some (ret, storage, disk) =>
      if ret ≠ 0 then some (ret, { h with logStorage := storage }, disk)
      else
        let beginLsn := storage.getBeginLsn
        match run (scanTurn storage disk) fuel (beginLsn, beginLsn) with
        | none => none
        | some last =>
          some (0, { h with logStorage := storage, isInited := true, endLsn := last,
                            maxLsn := last,
                            logId := if 0 < last then 2 else firstValidLogId }, disk)

/-- A log of one block counts as empty, whatever the scan of `init` has found in it. -/
def load (fuel : ℕ) (palfId : ℤ) (logDir : δ) (h : PalfHandleImpl δ) (disk : Disk δ) :
    Option (ℤ × PalfHandleImpl δ × Disk δ) :=
  match h.init fuel palfId logDir disk with
  | none => none
  | some (ret, h, disk) =>
    if ret ≠ 0 then some (ret, h, disk)
    else
      let (minId, maxId) := h.logStorage.getBlockIdRange
      if minId = maxId ∧ minId = 0 ∧ h.logStorage.getBeginLsn = 0 then
        some (0, { h with endLsn := 0, maxLsn := 0 }, disk)
      else
        match run (loadTurn h.logStorage disk) fuel h.logStorage.getBeginLsn with
        | none => none
        | some scanLsn => some (0, { h with endLsn := scanLsn, maxLsn := scanLsn }, disk)

def groupHeader (h : PalfHandleImpl δ) (bufLen : ℕ) : LogGroupEntryHeader :=
  { logId := h.logId
    logProposalId := h.proposalId
    prevLsn := if 0 < h.endLsn then h.endLsn else 0
    committedEndLsn := (h.maxLsn + bufLen + getSerializeSize) % 2 ^ 64
    groupEntrySize := (getSerializeSize + bufLen) % 2 ^ 32 }

/-- `total_size` is the 32-bit `group_entry_size_`, so a payload near `2 ^ 32` bytes gets a
buffer too small for it: the copy is undefined behaviour, `none` here. -/
def doAppend (env : AppendEnv) (buf : Bytes) (h : PalfHandleImpl δ) (disk : Disk δ) :
    Option (ℤ × ℕ × PalfHandleImpl δ × Disk δ) :=
  let lsn := h.maxLsn
  let header := h.groupHeader buf.length
  let h := { h with logId := h.logId + 1 }
  let totalSize := header.groupEntrySize
  match env.malloc with
  | none => some (-1, lsn, h, disk)
  | some heap =>
    let fresh := (List.range totalSize).map heap
    let (writeBuf, pos) := (header.serialize fresh 0).getD (fresh, 0)
    if totalSize < pos + buf.length then none
    else
      let (ret, storage, disk) := h.logStorage.append env.io lsn (overwrite writeBuf pos buf) disk
      let h := { h with logStorage := storage }
      if ret ≠ 0 then some (ret, lsn, h, disk)
      else
        let endLsn := (lsn + totalSize) % 2 ^ 64
        some (0, lsn, { h with endLsn := endLsn, maxLsn := endLsn }, disk)

def append (env : AppendEnv) (buf : Bytes) (h : PalfHandleImpl δ) (disk : Disk δ) :
    Option (AppendResult × PalfHandleImpl δ × Disk δ) :=
  if !h.isInited then some (⟨-1, none, none⟩, h, disk)
  else
    match h.doAppend env buf disk with
    | none => none
    | some (ret, lsn, h, disk) =>
      some (⟨ret, some lsn, if ret = 0 then some (h.logId - 1) else none⟩, h, disk)

theorem lsn_append {env : AppendEnv} {buf : Bytes} {h h' : PalfHandleImpl δ} {disk disk' : Disk δ}
    {res : AppendResult} (hinit : h.isInited = true)
    (happ : h.append env buf disk = some (res, h', disk')) : res.lsn = some h.maxLsn := by
  simp only [append, hinit, Bool.not_true, Bool.false_eq_true, ↓reduceIte] at happ
  cases hdo : h.doAppend env buf disk with
  | none => simp [hdo] at happ
  | some out =>
    obtain ⟨ret, lsn, h₁, disk₁⟩ := out
    have hlsn : lsn = h.maxLsn := by
      simp only [doAppend] at hdo
      repeat' split at hdo
      all_goals simp_all
    simp only [hdo, Option.some.injEq, Prod.mk.injEq] at happ
    rw [← happ.1, hlsn]

end PalfHandleImpl

end PalfHandle
