import LsmStorage.PalfHandle

/-! # ObLogHandler and ObLogService

A log stream's handler puts a base header with the log type in front of every payload, and
`replay` hands a payload to the sub-handler registered for the type. A sub-handler is a
pointer `κ`; what its `replay` does to the state `σ` of all sub-handlers is a parameter.
The directory of log stream `id` below the service's directory `base` is `(some base, id)`;
before `init` the service's directory is the empty path, `none`. -/
namespace LogService

open ByteCodec PosixFiles PalfLogEntry PalfLogStorage PalfHandle BoundedLoop

variable {β κ σ : Type*}

inductive ObLogBaseType where
  | invalidLogBaseType
  | transServiceLogBaseType
  | tabletOpLogBaseType
  | storageSchemaLogBaseType
  | ddlLogBaseType
  | gcLsLogBaseType
  | majorFreezeLogBaseType
  | paddingLogBaseType
  | maxLogBaseType
  deriving DecidableEq, Repr

def ObLogBaseType.code : ObLogBaseType → ℤ
  | .invalidLogBaseType => 0
  | .transServiceLogBaseType => 1
  | .tabletOpLogBaseType => 2
  | .storageSchemaLogBaseType => 3
  | .ddlLogBaseType => 5
  | .gcLsLogBaseType => 9
  | .majorFreezeLogBaseType => 10
  | .paddingLogBaseType => 25
  | .maxLogBaseType => 26

structure ObLogBaseHeader where
  version : ℤ := 1
  logType : ℤ := ObLogBaseType.invalidLogBaseType.code
  flag : ℤ := 0
  replayHint : ℤ := 0
  deriving DecidableEq, Repr

namespace ObLogBaseHeader

def ofType (type : ObLogBaseType) : ObLogBaseHeader := { logType := type.code }

def getSerializeSize : ℕ := 16

/-- The bytes of the struct, which has no padding. -/
def fieldBytes (h : ObLogBaseHeader) : Bytes :=
  toLEInt 2 h.version ++ toLEInt 2 h.logType ++ toLEInt 4 h.flag ++ toLEInt 8 h.replayHint

def serialize (h : ObLogBaseHeader) (buf : Bytes) (pos : ℕ) : Option (Bytes × ℕ) :=
  if buf.length < pos + getSerializeSize then none
  else some (overwrite buf pos h.fieldBytes, pos + getSerializeSize)

def deserialize (buf : Bytes) (pos : ℕ) : Option (ObLogBaseHeader × ℕ) :=
  if buf.length < pos + getSerializeSize then none
  else
    some ({ version := ofLEInt (slice buf pos 2)
            logType := ofLEInt (slice buf (pos + 2) 2)
            flag := ofLEInt (slice buf (pos + 4) 4)
            replayHint := ofLEInt (slice buf (pos + 8) 8) }, pos + getSerializeSize)

theorem length_fieldBytes (h : ObLogBaseHeader) : h.fieldBytes.length = getSerializeSize := by
  simp [fieldBytes, getSerializeSize]

theorem deserialize_fieldBytes (type : ObLogBaseType) (payload : Bytes) :
    deserialize ((ofType type).fieldBytes ++ payload) 0 =
      some (ofType type, getSerializeSize) := by
  have hlen := length_fieldBytes (ofType type)
  have hslice : ∀ k n, k + n ≤ getSerializeSize →
      slice ((ofType type).fieldBytes ++ payload) k n = slice (ofType type).fieldBytes k n := by
    intro k n hk
    exact slice_append_of_le payload (by omega)
  unfold deserialize
  rw [if_neg (by rw [List.length_append]; omega), hslice 0 2 (by decide),
    hslice (0 + 2) 2 (by decide), hslice (0 + 4) 4 (by decide), hslice (0 + 8) 8 (by decide)]
  cases type <;> decide

end ObLogBaseHeader

/-- `palf_handle_` wraps `palf_handle_impl_`; the handler is the only user of the object. -/
structure ObLogHandler (δ κ : Type*) where
  lsId : ℤ := -1
  palfHandleImpl : Option (PalfHandleImpl δ) := none
  replayHandlers : ℤ → Option κ := fun _ => none
  isInited : Bool := false

structure LogAppendEnv where
  malloc : Option (ℕ → UInt8)
  palf : AppendEnv

namespace ObLogHandler

variable {δ : Type*}

def registerReplayHandler (type : ObLogBaseType) (handler : κ) (h : ObLogHandler δ κ) :
    ObLogHandler δ κ :=
  { h with replayHandlers := Function.update h.replayHandlers type.code (some handler) }

def replay (call : κ → Bytes → ℕ → ℤ → σ → ℤ × σ) (buf : Bytes) (lsn : ℕ) (scn : ℤ)
    (h : ObLogHandler δ κ) (st : σ) : ℤ × σ :=
  if buf = [] then (-1, st)
  else
    match ObLogBaseHeader.deserialize buf 0 with
    | none => (-1, st)
    | some (baseHeader, pos) =>
      match h.replayHandlers baseHeader.logType with
      | none => (0, st)
      | some handler => call handler (buf.drop pos) lsn scn st

variable [DecidableEq δ]

def append (env : LogAppendEnv) (buf : Bytes) (type : ObLogBaseType) (h : ObLogHandler δ κ)
    (disk : Disk δ) : Option (AppendResult × ObLogHandler δ κ × Disk δ) :=
  if !h.isInited then some (⟨-1, none, none⟩, h, disk)
  else if buf = [] then some (⟨-1, none, none⟩, h, disk)
  else
    let totalLen := ObLogBaseHeader.getSerializeSize + buf.length
    match env.malloc with
    | none => some (⟨-1, none, none⟩, h, disk)
    | some heap =>
      let fresh := (List.range totalLen).map heap
      let (logBuf, pos) := ((ObLogBaseHeader.ofType type).serialize fresh 0).getD (fresh, 0)
      let logBuf := overwrite logBuf pos buf
      match h.palfHandleImpl with
      | none => some (⟨-1, none, none⟩, h, disk)
      | some impl =>
        match impl.append env.palf logBuf disk with
        | none => none
        | some (res, impl, disk) => some (res, { h with palfHandleImpl := some impl }, disk)

end ObLogHandler

/-- `logDir` is `log_dir_` of the PALF environment; a handler is found by its log stream. -/
structure ObLogService (β κ : Type*) where
  logDir : Option β := none
  handlers : ℤ → Option (ObLogHandler (Option β × ℤ) κ) := fun _ => none
  isInited : Bool := false

namespace ObLogService

def new : ObLogService β κ := {}

def init (baseDir : β) (s : ObLogService β κ) : ℤ × ObLogService β κ :=
  if s.isInited then (-1, s)
  else (0, { s with logDir := some baseDir, isInited := true })

def setHandler (lsId : ℤ) (h : ObLogHandler (Option β × ℤ) κ) (s : ObLogService β κ) :
    ObLogService β κ :=
  { s with handlers := Function.update s.handlers lsId (some h) }

def readBufSize : ℕ := 4096

/-- One turn of the loop of `replay_ls` over `current`, the stack from `read_buf` on and the
sub-handlers' state. A payload is handed on as a pointer and a length, so one that is longer than
`read_buf` takes in what stands behind it. -/
def replayTurn (call : κ → Bytes → ℕ → ℤ → σ → ℤ × σ) (h : ObLogHandler (Option β × ℤ) κ)
    (impl : PalfHandleImpl (Option β × ℤ)) (disk : Disk (Option β × ℤ)) (beginLsn endLsn : ℕ) :
    ℕ × Bytes × σ → Turn (ℕ × Bytes × σ) σ
  | (current, readBuf, st) =>
    if ¬ current < endLsn then .stop st
    else
      match impl.read disk current readBufSize readBufSize with
      | none => .stop st
      | some out =>
        let readBuf := overwrite readBuf 0 out
        if out.length = 0 then .stop st
        else if out.length < LogGroupEntryHeader.getSerializeSize then .stop st
        else
          match LogGroupEntryHeader.deserialize out 0 with
          | none => .stop st
          | some (groupHeader, pos) =>
            if !groupHeader.isValid then .stop st
            else
              let payloadLen : ℤ := (groupHeader.groupEntrySize : ℤ) - pos
              let st :=
                if 0 < payloadLen then
                  (h.replay call (slice readBuf pos payloadLen.toNat) current 0 st).2
                else st
              let current := groupHeader.committedEndLsn
              if current ≤ beginLsn then .stop st else .again (current, readBuf, st)

/-- `readBuf` is what the stack holds from the buffer on, and `none` is the budget. -/
def replayLs (fuel : ℕ) (call : κ → Bytes → ℕ → ℤ → σ → ℤ × σ) (readBuf : Bytes) (lsId : ℤ)
    (s : ObLogService β κ) (disk : Disk (Option β × ℤ)) (st : σ) : Option (ℤ × σ) :=
  match s.handlers lsId with
  | none => some (-1, st)
  | some h =>
    match h.palfHandleImpl with
    | none => some (-1, st)
    | some impl =>
      let beginLsn := impl.logStorage.getBeginLsn
      (run (replayTurn call h impl disk beginLsn impl.endLsn) fuel (beginLsn, readBuf, st)).map
        fun st => (0, st)

variable [DecidableEq β]

/-- `ObLogHandler::init`: the PALF environment makes and opens the log stream's handle. -/
def initHandler (fuel : ℕ) (lsId : ℤ) (s : ObLogService β κ) (h : ObLogHandler (Option β × ℤ) κ)
    (disk : Disk (Option β × ℤ)) :
    Option (ℤ × ObLogHandler (Option β × ℤ) κ × Disk (Option β × ℤ)) :=
  if h.isInited then some (-1, h, disk)
  else
    let h := { h with lsId := lsId }
    let dir := (s.logDir, lsId)
    match PalfHandleImpl.init fuel lsId dir (PalfHandleImpl.new dir) disk with
    | none => none
    | some (ret, impl, disk) =>
      if ret ≠ 0 then some (ret, h, disk)
      else some (0, { h with palfHandleImpl := some impl, isInited := true }, disk)

def openLs (fuel : ℕ) (lsId : ℤ) (s : ObLogService β κ) (disk : Disk (Option β × ℤ)) :
    Option (ℤ × ObLogService β κ × Disk (Option β × ℤ)) :=
  match s.handlers lsId with
  | some _ => some (0, s, disk)
  | none =>
    match s.initHandler fuel lsId {} disk with
    | none => none
    | some (ret, h, disk) =>
      if ret ≠ 0 then some (ret, s, disk) else some (0, s.setHandler lsId h, disk)

end ObLogService

end LogService
