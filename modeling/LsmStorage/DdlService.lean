import LsmStorage.LogReplay
import LsmStorage.SchemaService
import LsmStorage.StorageLogger

/-! # ObDDLService

A CREATE DATABASE goes to the CLOG, then into the schema, then to the SLOG; after a start the
CLOG is replayed into an empty schema and the SLOG after it. A node is the two logs, which a
crash leaves as they are, and the process. Every log write is done whole or not at all. The
block file that `create_database` also writes is read by nothing. -/
namespace DdlService

open ByteCodec PosixFiles PalfLogEntry PalfLogStorage PalfHandle PalfRecovery LogService
open LogReplay SchemaService StorageLogger

variable {β : Type*}

def ddlLsId : ℤ := 1

def createDatabaseType : ℕ := 1

def createTableType : ℕ := 3

def payload (name : Bytes) : Bytes :=
  toLE 8 createDatabaseType ++ (toLE 8 name.length ++ name)

def cString (b : Bytes) : Bytes := b.takeWhile (· ≠ 0)

/-- `ObDDLService::replay`. A name that does not fit `name[256]`, and a record shorter than its
fields, make it leave its buffers; here the copy ends with them. -/
def replay (buffer : Bytes) (_lsn : ℕ) (_scn : ℤ) (s : ObSchemaService) : ℤ × ObSchemaService :=
  if buffer = [] then (-1, s)
  else
    let type := ofLE (slice buffer 0 8)
    let nameLen := ofLE (slice buffer 8 8)
    let name := cString ((overwrite (List.replicate 256 0) 0 (slice buffer 16 nameLen)).take 256)
    if type = createDatabaseType then (0, (ddlCreateDatabase name s).2.2)
    else if type = createTableType then
      let dbId := ofLE (slice buffer (16 + nameLen) 8)
      (0, (s.createTable { tableName := storedName name, databaseId := dbId }).2)
    else (0, s)

section Fields

variable (type : ℕ) (name rest : Bytes)

theorem slices_of_record :
    let record := toLE 8 type ++ (toLE 8 name.length ++ (name ++ rest))
    slice record 0 8 = toLE 8 type ∧ slice record 8 8 = toLE 8 name.length ∧
      slice record 16 name.length = name ∧ slice record (16 + name.length) 8 = rest.take 8 := by
  have hfront : (toLE 8 type ++ (toLE 8 name.length ++ name)).length = 16 + name.length := by
    simp only [List.length_append, length_toLE]
    omega
  refine ⟨by simp [slice], by simp [slice],
    by simp [slice, List.drop_append, List.drop_eq_nil_of_le], ?_⟩
  rw [slice, ← List.append_assoc (toLE 8 name.length), ← List.append_assoc (toLE 8 type),
    List.drop_left' hfront]

theorem length_payload : (payload name).length = 16 + name.length := by
  simp only [payload, List.length_append, length_toLE]
  omega

variable {name}

theorem nameBuffer_eq (h : name.length ≤ 256) :
    (overwrite (List.replicate 256 0) 0 name).take 256 =
      name ++ List.replicate (256 - name.length) 0 := by
  rw [overwrite, List.take_zero, List.nil_append, Nat.zero_add, List.drop_replicate,
    List.take_of_length_le]
  rw [List.length_append, List.length_replicate]
  omega

end Fields

def slogCreateDatabase : Int32 := 4

def slogParam (name : Bytes) : ObStorageLogParam :=
  { tenantId := 1, logType := slogCreateDatabase, data := name }

/-- The callback that `recover_schema` passes to the SLOG replay. -/
def replaySlogEntry (s : ObSchemaService) (entry : ObStorageLogEntry) : ObSchemaService :=
  if entry.logType = slogCreateDatabase then (ddlCreateDatabase (cString entry.data) s).2.2
  else s

/-- The service object and the schema of one process. That a DROP has met a database since
the process started is a ghost observation. -/
structure Process (β : Type*) where
  logService : ObLogService β Unit := .new
  schema : ObSchemaService := {}
  isInited : Bool := false
  dropped : Bool := false

/-- The acknowledged databases with their ids are a ghost observation. -/
structure Node (β : Type*) where
  clog : Disk (Option β × ℤ)
  slog : Slog := {}
  process : Process β := {}
  acked : List (ℕ × Bytes) := []

namespace Node

def crash (n : Node β) : Node β := { n with process := {}, slog := n.slog.crash none }

def updateSchema (name : Bytes) (n : Node β) : ℤ × Option ℕ × Node β :=
  let (ret, id, schema) := ddlCreateDatabase name n.process.schema
  (ret, id, { n with process := { n.process with schema } })

/-- The result of `write_log` is not looked at. -/
def writeSlog (name : Bytes) (slogOk : Bool) (n : Node β) : Node β :=
  let answer := if slogOk then some (slogParam name).image.length else none
  { n with slog := (n.slog.writeLog (slogParam name) answer).2 }

/-- `DropDatabaseExecutor::execute`: the schema only, and always a success. -/
def dropDatabase (name : Bytes) (n : Node β) : Node β :=
  let (ret, schema) := n.process.schema.dropDatabase name
  { n with process := { n.process with schema, dropped := n.process.dropped || ret == 0 } }

/-- The CLOG replay and then the SLOG replay; without the CLOG replay's success nothing more
is done. -/
def recoverSchema (fuel : ℕ) (readBuf : Bytes) (n : Node β) : Option (ℤ × Node β) :=
  if !n.process.isInited then some (0, n)
  else
    match n.process.logService.replayLs fuel (fun _ => replay) readBuf ddlLsId n.clog
      n.process.schema with
    | some (ret, schema) =>
      if ret ≠ 0 then some (0, { n with process := { n.process with schema } })
      else
        match StorageLogger.replay n.slog.file with
        | none => none
        | some entries =>
          some (0, { n with process := { n.process with
            schema := entries.foldl replaySlogEntry schema } })
    | none => none

variable [DecidableEq β]

def init (fuel : ℕ) (base : β) (n : Node β) : Option (ℤ × Node β) :=
  if n.process.isInited then some (0, n)
  else
    match mount fuel base ddlLsId .ddlLogBaseType () n.clog with
    | none => none
    | some (ret, logService, _, clog) =>
      let n := { n with clog, process := { n.process with logService } }
      if ret ≠ 0 then some (ret, n)
      else some (0, { n with
        slog := n.slog.init.2, process := { n.process with isInited := true } })

def appendRecord (record : Bytes) (malloc palfMalloc : Option (ℕ → UInt8)) (n : Node β) :
    Option (ℤ × Node β) :=
  if !n.process.isInited then some (-1, n)
  else
    match n.process.logService.handlers ddlLsId with
    | none => some (-1, n)
    | some h =>
      let call : LogCall := ⟨record, malloc, palfMalloc⟩
      match h.append call.env call.payload .ddlLogBaseType n.clog with
      | none => none
      | some (res, h, clog) =>
        some (res.ret, { n with
          clog
          process := { n.process with
            logService := n.process.logService.setHandler ddlLsId h } })

/-- The first part of `create_database`, up to the return of the CLOG append. -/
def appendClog (name : Bytes) (malloc palfMalloc : Option (ℕ → UInt8)) (n : Node β) :
    Option (ℤ × Node β) :=
  n.appendRecord (payload name) malloc palfMalloc

def createDatabase (name : Bytes) (malloc palfMalloc : Option (ℕ → UInt8)) (slogOk : Bool)
    (n : Node β) : Option (ℤ × Option ℕ × Node β) :=
  match n.appendClog name malloc palfMalloc with
  | none => none
  | some (ret, n) =>
    if ret ≠ 0 then some (ret, none, n)
    else
      let (ret, id, n) := n.updateSchema name
      if ret ≠ 0 then some (ret, none, n) else some (0, id, n.writeSlog name slogOk)

end Node

/-- Where inside `create_database` the process dies. -/
inductive CrashPoint where
  | beforeClog
  | afterClog
  | afterSchema
  | afterSlog
  deriving DecidableEq

/-- A restart is a new process with `init` and `recover_schema`; `stack` is what the read buffer
of the replay holds on entry. -/
inductive DdlEvent where
  | create (name : Bytes) (malloc palfMalloc : Option (ℕ → UInt8)) (slogOk : Bool)
  | crashInCreate (name : Bytes) (malloc palfMalloc : Option (ℕ → UInt8)) (point : CrashPoint)
  | crash
  | restart (stack : ℕ → UInt8)
  | drop (name : Bytes)

namespace Node

variable [DecidableEq β]

def createUntil (name : Bytes) (malloc palfMalloc : Option (ℕ → UInt8)) (point : CrashPoint)
    (n : Node β) : Option (Node β) :=
  match point with
  | .beforeClog => some n
  | .afterClog => (n.appendClog name malloc palfMalloc).map Prod.snd
  | .afterSchema => (n.appendClog name malloc palfMalloc).map fun r =>
      if r.1 ≠ 0 then r.2 else (r.2.updateSchema name).2.2
  | .afterSlog => (n.createDatabase name malloc palfMalloc true).map fun r => r.2.2

def create (name : Bytes) (malloc palfMalloc : Option (ℕ → UInt8)) (slogOk : Bool)
    (n : Node β) : Option (Node β) :=
  (n.createDatabase name malloc palfMalloc slogOk).map fun r =>
    if r.1 ≠ 0 then r.2.2
    else { r.2.2 with acked := r.2.2.acked ++ r.2.1.toList.map fun id => (id, name) }

def restart (fuel : ℕ) (base : β) (stack : ℕ → UInt8) (n : Node β) : Option (Node β) :=
  match n.crash.init fuel base with
  | none => none
  | some (_, n) =>
    (n.recoverSchema fuel ((List.range ObLogService.readBufSize).map stack)).map Prod.snd

def step (fuel : ℕ) (base : β) : DdlEvent → Node β → Option (Node β)
  | .create name malloc palfMalloc slogOk, n => n.create name malloc palfMalloc slogOk
  | .crashInCreate name malloc palfMalloc point, n =>
    (n.createUntil name malloc palfMalloc point).map crash
  | .crash, n => some n.crash
  | .restart stack, n => n.restart fuel base stack
  | .drop name, n => some (n.dropDatabase name)

def run (fuel : ℕ) (base : β) : List DdlEvent → Node β → Option (Node β)
  | [], n => some n
  | e :: es, n =>
    match n.step fuel base e with
    | none => none
    | some n => run fuel base es n

end Node

end DdlService
