import LsmStorage.MvccRow
import LsmStorage.RowkeyHash

/-! # ObMemtable, ObMvccEngine and ObQueryEngine

The query engine keeps two indexes from hash values to rows; the MVCC engine finds or makes
the row of a key and writes a version that is committed from the start. `set` builds a log
record first and hands it to the log handler, if one is installed, before it looks at the row.
The log handler is a pointer `η`, and what appending to it does to the log `L` is a parameter. -/
namespace Memtable

open ByteCodec MvccRow RowkeyHash ObMemtableKey

structure ObStoreRow where
  dmlFlag : ObDmlFlag := .dfMax
  transVersion : ℤ := 0
  transId : ℤ := obInvalidTransId
  rowkey : ObStoreRowkey := {}
  rowValue : Bytes := []
  isDeleted : Bool := false
  deriving DecidableEq, Repr

/-- Rows live at addresses that are never reused. -/
structure ObQueryEngine where
  keyhash : UInt64 → Option ℕ := fun _ => none
  btree : Std.TreeMap UInt64 ℕ := ∅
  rows : ℕ → Option ObMvccRow := fun _ => none
  fresh : ℕ := 0

namespace ObQueryEngine

def btreeSet (key : ObMemtableKey) (value : ℕ) (q : ObQueryEngine) : ObQueryEngine :=
  { q with btree := q.btree.insert key.hashVal value }

def modifyRow (value : ℕ) (f : ObMvccRow → ObMvccRow) (q : ObQueryEngine) : ObQueryEngine :=
  { q with rows := Function.update q.rows value ((q.rows value).map f) }

/-- `-1` when the hash table already has the hash, else the row goes into both indexes. -/
def set (key : ObMemtableKey) (value : ℕ) (q : ObQueryEngine) : ℤ × ObQueryEngine :=
  match q.keyhash key.wrapperHash with
  | some _ => (-1, q)
  | none =>
    let q := { q with keyhash := Function.update q.keyhash key.wrapperHash (some value) }
    let q := q.btreeSet key value
    (0, (q.modifyRow value ObMvccRow.setBtreeIndexed).modifyRow value ObMvccRow.setHashIndexed)

def ensure (key : ObMemtableKey) (value : ℕ) (q : ObQueryEngine) : ObQueryEngine :=
  if (q.rows value).any ObMvccRow.isBtreeIndexed then q
  else (q.btreeSet key value).modifyRow value ObMvccRow.setBtreeIndexed

/-- The returned key is never filled in. -/
def get (key : ObMemtableKey) (q : ObQueryEngine) : Option ℕ := q.keyhash key.wrapperHash

end ObQueryEngine

/-- `ObMvccEngine::create_kv`: the row of the key, made if it is missing; `none` is `-1`. -/
def createKv (key : ObMemtableKey) (q : ObQueryEngine) : Option ℕ × ObQueryEngine :=
  match q.get key with
  | some value => (some value, q)
  | none =>
    let value := q.fresh
    let q := { q with
      rows := Function.update q.rows value (some ObMvccRow.new)
      fresh := q.fresh + 1 }
    let (ret, q) := q.set key value
    if ret = -1 then (q.get key, { q with rows := Function.update q.rows value none })
    else (some value, q)

/-- The node is committed as version 1 before it is linked. -/
def buildTxNode (ctx : ObStoreCtx) (data : ObMemtableData) : ObMvccTransNode :=
  ObMvccTransNode.transCommit 1 { txId := ctx.txId, data := data }

/-- `ObMvccEngine::mvcc_write` on the row at an address. -/
def mvccWriteAt (ctx : ObStoreCtx) (value : ℕ) (data : ObMemtableData) (q : ObQueryEngine) :
    ℤ × ObQueryEngine :=
  match q.rows value with
  | none => (-1, q)
  | some row =>
    let (ret, writeConflict, row) := row.mvccWrite ctx (buildTxNode ctx data)
    if ret ≠ 0 then (if writeConflict then -1 else ret, q)
    else (0, { q with rows := Function.update q.rows value (some row) })

/-- `ObMemtable::mvcc_write_`. The stored key is never filled in, so `ensure` gets an empty
key. -/
def mvccWrite (ctx : ObStoreCtx) (key : ObMemtableKey) (data : ObMemtableData)
    (q : ObQueryEngine) : ℤ × ObQueryEngine :=
  match createKv key q with
  | (none, q) => (-1, q)
  | (some value, q) =>
    let (ret, q) := mvccWriteAt ctx value data q
    if ret ≠ 0 then (ret, q) else (0, q.ensure {} value)

def toStoreRow (n : ObMvccTransNode) : ObStoreRow where
  dmlFlag := n.data.dmlFlag
  transVersion := n.transVersion
  transId := n.txId
  rowValue := n.data.buf
  isDeleted := n.data.dmlFlag = .dfDelete

/-- Visible to a point read: committed inside the snapshot, or the reader's own. -/
def isVisible (ctx : ObStoreCtx) (n : ObMvccTransNode) : Bool :=
  if n.isCommitted then
    ctx.snapshotVersion == obInvalidVersion || decide (n.transVersion ≤ ctx.snapshotVersion)
  else if n.isAborted then false
  else n.txId == ctx.txId

/-- `ObMvccEngine::get`; `none` is `-1`. -/
def engineGet (ctx : ObStoreCtx) (key : ObMemtableKey) (q : ObQueryEngine) : Option ObStoreRow :=
  match (q.get key).bind q.rows with
  | none => none
  | some row => ((row.walk (isVisible ctx)).bind row.heap).map toStoreRow

/-- `ObQueryEngineBtreeIterator::next` until it returns `-1`, on the entries from the current
one on: it stops behind the end of the range and steps over empty rows. -/
def ObQueryEngine.iterate (endHash : UInt64) (endExclude : Bool) (q : ObQueryEngine) :
    List (UInt64 × ℕ) → List ℕ
  | [] => []
  | (hash, value) :: rest =>
    if hash > endHash then []
    else if endExclude && hash == endHash then []
    else if (q.rows value).any fun row => !row.isEmpty then
      value :: iterate endHash endExclude q rest
    else iterate endHash endExclude q rest

def maxHash : UInt64 := UInt64.ofNat (2 ^ 64 - 1)

/-- The rows that `ObQueryEngine::scan` iterates over. `start_exclude` is stored in the iterator
and not looked at. -/
def ObQueryEngine.scan (startKey : Option ObMemtableKey) (_startExclude : Bool)
    (endKey : Option ObMemtableKey) (endExclude : Bool) (q : ObQueryEngine) : List ℕ :=
  let startHash := (startKey.map hashVal).getD 0
  let endHash := (endKey.map hashVal).getD maxHash
  q.iterate endHash endExclude (q.btree.toList.dropWhile fun kv => kv.1 < startHash)

/-- `ObQueryEngineBtreeIterator`. `curr` is what the map holds from `curr_` on, nothing at
`end()`. -/
structure ObQueryEngineBtreeIterator where
  startHash : UInt64
  endHash : UInt64
  startExclude : Bool
  endExclude : Bool
  reverse : Bool
  curr : List (UInt64 × ℕ) := []
  isInit : Bool := false

namespace ObQueryEngineBtreeIterator

/-- The loop of `next_internal_`: to the first entry with a row that is not empty, or to
`end()`. -/
def settle (endHash : UInt64) (endExclude : Bool) (q : ObQueryEngine) :
    List (UInt64 × ℕ) → ℤ × List (UInt64 × ℕ)
  | [] => (-1, [])
  | (hash, value) :: rest =>
    if hash > endHash then (-1, [])
    else if endExclude && hash == endHash then (-1, [])
    else if (q.rows value).any fun row => !row.isEmpty then (0, (hash, value) :: rest)
    else settle endHash endExclude q rest

def next (q : ObQueryEngine) (iter : ObQueryEngineBtreeIterator) :
    ℤ × ObQueryEngineBtreeIterator :=
  let curr :=
    if !iter.isInit then q.btree.toList.dropWhile fun kv => kv.1 < iter.startHash
    else iter.curr.tail
  let (ret, curr) := settle iter.endHash iter.endExclude q curr
  (ret, { iter with curr := curr, isInit := true })

def getValue (iter : ObQueryEngineBtreeIterator) : Option ℕ := iter.curr.head?.map Prod.snd

end ObQueryEngineBtreeIterator

def ObQueryEngine.scanIter (startKey : Option ObMemtableKey) (startExclude : Bool)
    (endKey : Option ObMemtableKey) (endExclude : Bool) : ObQueryEngineBtreeIterator where
  startHash := (startKey.map hashVal).getD 0
  endHash := (endKey.map hashVal).getD maxHash
  startExclude := startExclude
  endExclude := endExclude
  reverse := false

/-- The loop of `scan_range`; the key of a result is left empty. -/
def ObQueryEngine.collect (endHash : UInt64) (endExclude : Bool) (q : ObQueryEngine) :
    List (UInt64 × ℕ) → List (ObMemtableKey × ℕ)
  | [] => []
  | (hash, value) :: rest =>
    if hash > endHash then []
    else if endExclude && hash == endHash then []
    else if (q.rows value).any fun row => !row.isEmpty then
      ({}, value) :: collect endHash endExclude q rest
    else collect endHash endExclude q rest

/-- `ObQueryEngine::scan_range`. An excluded start is stepped over. -/
def ObQueryEngine.scanRange (startKey : Option ObMemtableKey) (startExclude : Bool)
    (endKey : Option ObMemtableKey) (endExclude : Bool) (q : ObQueryEngine) :
    List (ObMemtableKey × ℕ) :=
  let startHash := (startKey.map hashVal).getD 0
  let endHash := (endKey.map hashVal).getD maxHash
  let entries := q.btree.toList.dropWhile fun kv => kv.1 < startHash
  let entries :=
    if startExclude && entries.head?.any (fun kv => kv.1 == startHash) then entries.tail
    else entries
  q.collect endHash endExclude entries

/-- Visible to a range read. The snapshot is part of the first test here, so a version that is
committed behind it comes to the test for the reader's own. -/
def isVisibleInScan (ctx : ObStoreCtx) (n : ObMvccTransNode) : Bool :=
  if n.isCommitted &&
      (ctx.snapshotVersion == obInvalidVersion ||
        decide (n.transVersion ≤ ctx.snapshotVersion)) then true
  else if n.isAborted then false
  else n.txId == ctx.txId

/-- The row that `ObMvccEngine::scan` pushes for one row of the iterator. -/
def engineScanRow (ctx : ObStoreCtx) (q : ObQueryEngine) (value : ℕ) : Option ObStoreRow :=
  match q.rows value with
  | none => none
  | some row =>
    if row.isEmpty then none
    else ((row.walk (isVisibleInScan ctx)).bind row.heap).map toStoreRow

/-- `ObMvccEngine::scan`; it always returns 0. -/
def engineScan (ctx : ObStoreCtx) (startKey : Option ObMemtableKey) (startExclude : Bool)
    (endKey : Option ObMemtableKey) (endExclude : Bool) (q : ObQueryEngine)
    (results : List ObStoreRow) : List ObStoreRow :=
  results ++
    (q.scan startKey startExclude endKey endExclude).filterMap (engineScanRow ctx q)

/-- `ObMvccEngine::check_row_locked`: the transaction that is said to hold the row. Only the
newest node is looked at. -/
def checkRowLocked (key : ObMemtableKey) (q : ObQueryEngine) : Option ℤ :=
  match (q.get key).bind q.rows with
  | none => none
  | some row =>
    match row.listHead.bind row.heap with
    | none => none
    | some head => if !head.isCommitted && !head.isAborted then some head.txId else none

structure ObMemtable (η : Type*) where
  tabletId : ℤ := 0
  isInited : Bool := false
  isFrozen : Bool := false
  rowCount : ℤ := 0
  occupySize : ℤ := 0
  snapshotVersion : ℤ := 0
  maxTransVersion : ℤ := 0
  queryEngine : ObQueryEngine := {}
  logHandler : Option η := none

namespace ObMemtable

variable {η L : Type*}

def init (tabletId : ℤ) (t : ObMemtable η) : ℤ × ObMemtable η :=
  (0, { t with tabletId := tabletId, isInited := true })

def create (tabletId : ℤ) : ObMemtable η := (init tabletId {}).2

def isEmpty (t : ObMemtable η) : Bool := t.rowCount == 0

def setFrozen (t : ObMemtable η) : ObMemtable η :=
  { t with isFrozen := true, snapshotVersion := t.maxTransVersion }

def getSnapshotVersion (t : ObMemtable η) : ℤ := t.snapshotVersion

def getMaxMergedTransVersion (t : ObMemtable η) : ℤ := t.maxTransVersion

def dmlByte : ObDmlFlag → UInt8
  | .dfNotSet => 0
  | .dfInsert => 1
  | .dfUpdate => 2
  | .dfDelete => 3
  | .dfLock => 4
  | .dfMax => 5

/-- The lengths are the low four bytes of 64-bit lengths. -/
def logRecord (row : ObStoreRow) : Bytes :=
  [dmlByte row.dmlFlag] ++ toLE 4 row.rowkey.getLength ++ row.rowkey.buf ++
    toLE 4 row.rowValue.length ++ row.rowValue

def apply (ctx : ObStoreCtx) (row : ObStoreRow) (t : ObMemtable η) : ℤ × ObMemtable η :=
  let key := ofRowkey row.rowkey
  let mtd : ObMemtableData := ⟨row.dmlFlag, row.rowValue⟩
  let (ret, q) := mvccWrite ctx key mtd t.queryEngine
  if ret ≠ 0 then (ret, { t with queryEngine := q })
  else
    (0, { t with
      queryEngine := q
      rowCount := t.rowCount + 1
      occupySize := t.occupySize + mtd.size
      maxTransVersion :=
        if ctx.snapshotVersion > t.maxTransVersion then ctx.snapshotVersion
        else t.maxTransVersion })

/-- `mallocOk` says whether there was memory for the log record. -/
def set (append : η → Bytes → L → ℤ × L) (mallocOk : Bool) (ctx : ObStoreCtx) (row : ObStoreRow)
    (t : ObMemtable η) (log : L) : ℤ × ObMemtable η × L :=
  if !t.isInited || t.isFrozen then (-1, t, log)
  else if !mallocOk then (-1, t, log)
  else
    match t.logHandler with
    | none =>
      let (ret, t) := t.apply ctx row
      (ret, t, log)
    | some handler =>
      let (ret, log) := append handler (logRecord row) log
      if ret ≠ 0 then (ret, t, log)
      else
        let (ret, t) := t.apply ctx row
        (ret, t, log)

/-- The rows are set one after another, each with the answer that `malloc` has for its log
record, up to the first that is refused. -/
def multiSet (append : η → Bytes → L → ℤ × L) (ctx : ObStoreCtx) :
    List (ObStoreRow × Bool) → ObMemtable η → L → ℤ × ObMemtable η × L
  | [], t, log => (0, t, log)
  | (row, mallocOk) :: rows, t, log =>
    let (ret, t, log) := t.set append mallocOk ctx row log
    if ret ≠ 0 then (ret, t, log) else multiSet append ctx rows t log

/-- `none` is `-1`; otherwise the row pushed to the results. -/
def get (ctx : ObStoreCtx) (rowkey : ObStoreRowkey) (t : ObMemtable η) : Option ObStoreRow :=
  engineGet ctx (ofRowkey rowkey) t.queryEngine

/-- The test of `scan`: committed, or the bit `F_INIT` is set. -/
def isScanned (n : ObMvccTransNode) : Bool :=
  n.isCommitted || n.flag &&& TransNodeFlag.fInit != 0

def scanRow (q : ObQueryEngine) (value : ℕ) : Option ObStoreRow :=
  match q.rows value with
  | none => none
  | some row =>
    if row.isEmpty then none else ((row.walk isScanned).bind row.heap).map toStoreRow

/-- The bounds, their flags and the context are not looked at. -/
def scan (t : ObMemtable η) (results : List ObStoreRow) : List ObStoreRow :=
  results ++ t.queryEngine.btree.toList.filterMap fun kv => scanRow t.queryEngine kv.2

/-- Only the enumerators are modelled. -/
def dmlOfByte (b : UInt8) : Option ObDmlFlag :=
  [ObDmlFlag.dfNotSet, .dfInsert, .dfUpdate, .dfDelete, .dfLock, .dfMax].find? fun f =>
    dmlByte f == b

/-- The row that `replay` decodes. Only the low four bytes of `key_len` and `val_len` are
copied from the record: `keyHigh` and `valHigh` are what the variables held before. A read
outside the record is undefined behaviour, `none`, and so is a negative key length, for which
`set` writes past the log buffer it allocates. -/
def parseRecord (keyHigh valHigh buf : Bytes) : Option ObStoreRow :=
  let keyLen := ofLEInt (slice buf 1 4 ++ keyHigh)
  if buf.length < 5 ∨ keyLen < 0 ∨ buf.length < 9 + keyLen.toNat then none
  else
    let valLen := ofLEInt (slice buf (5 + keyLen.toNat) 4 ++ valHigh)
    if valLen < 0 ∨ buf.length < 9 + keyLen.toNat + valLen.toNat then none
    else
      (buf.head?.bind dmlOfByte).map fun dml =>
        { dmlFlag := dml
          transVersion := 1
          rowkey := ⟨slice buf 5 keyLen.toNat⟩
          rowValue := slice buf (9 + keyLen.toNat) valLen.toNat }

/-- The row is set with a default context while the log handler is taken out. -/
def replay (keyHigh valHigh : Bytes) (mallocOk : Bool) (buf : Bytes) (t : ObMemtable η) :
    Option (ℤ × ObMemtable η) :=
  if buf = [] then some (-1, t)
  else
    match parseRecord keyHigh valHigh buf with
    | none => none
    | some row =>
      let savedHandler := t.logHandler
      let (ret, t, _) := set (fun (_ : η) _ (log : Unit) => (0, log)) mallocOk {} row
        { t with logHandler := none } ()
      some (ret, { t with logHandler := savedHandler })

/-- The memtable's part of `set_log_handler`; the handler also gets the memtable as the replay
handler of its type, `ObLogHandler.registerReplayHandler`. -/
def setLogHandler (handler : Option η) (t : ObMemtable η) : ObMemtable η :=
  { t with logHandler := handler }

end ObMemtable

end Memtable
