import LsmStorage.BoundedLoop
import LsmStorage.Memtable

/-! # ObMemTableMgr, ObTableStore and ObRecordScanner

The memtables of a tablet are an active one, made on demand, and the frozen ones, oldest first.
`ObTableStore` reads over all of them. A `std::mutex` is not recursive: a thread that asks for
one it already holds does not get on, `none`. -/
namespace TableStore

open ByteCodec MvccRow RowkeyHash Memtable BoundedLoop

variable {η α L : Type*}

structure ObMemTableMgr (η : Type*) where
  tabletId : ℤ := 0
  activeMemtable : Option (ObMemtable η) := none
  frozenMemtables : List (ObMemtable η) := []
  isInited : Bool := false
  mutexHeld : Bool := false

namespace ObMemTableMgr

def init (tabletId : ℤ) (mgr : ObMemTableMgr η) : ℤ × ObMemTableMgr η :=
  (0, { mgr with tabletId := tabletId, isInited := true })

def locked (body : ObMemTableMgr η → Option (α × ObMemTableMgr η)) (mgr : ObMemTableMgr η) :
    Option (α × ObMemTableMgr η) :=
  if mgr.mutexHeld then none
  else
    match body { mgr with mutexHeld := true } with
    | none => none
    | some (a, mgr) => some (a, { mgr with mutexHeld := false })

def getActiveMemtable : ObMemTableMgr η → Option (ObMemtable η × ObMemTableMgr η) :=
  locked fun mgr =>
    match mgr.activeMemtable with
    | some t => some (t, mgr)
    | none =>
      let t := ObMemtable.create mgr.tabletId
      some (t, { mgr with activeMemtable := some t })

def activeOrNew (mgr : ObMemTableMgr η) : ObMemtable η :=
  mgr.activeMemtable.getD (ObMemtable.create mgr.tabletId)

theorem getActiveMemtable_eq {mgr : ObMemTableMgr η} (h : mgr.mutexHeld = false) :
    mgr.getActiveMemtable =
      some (mgr.activeOrNew, { mgr with activeMemtable := some mgr.activeOrNew }) := by
  obtain ⟨tabletId, active, frozen, isInited, mutexHeld⟩ := mgr
  obtain rfl : mutexHeld = false := h
  cases active <;> rfl

def moveActive (t : ObMemtable η) (mgr : ObMemTableMgr η) : ObMemTableMgr η :=
  { mgr with
    frozenMemtables := mgr.frozenMemtables ++ [t.setFrozen]
    activeMemtable := none }

/-- The new active memtable is asked for under the lock. -/
def setIsTabletFreeze : ObMemTableMgr η → Option (ℤ × ObMemTableMgr η) :=
  locked fun mgr =>
    match mgr.activeMemtable with
    | none => some (0, mgr)
    | some t =>
      match (mgr.moveActive t).getActiveMemtable with
      | none => none
      | some (_, mgr) => some (0, mgr)

theorem setIsTabletFreeze_eq {mgr : ObMemTableMgr η} (h : mgr.mutexHeld = false) :
    mgr.setIsTabletFreeze = if mgr.activeMemtable.isSome then none else some (0, mgr) := by
  obtain ⟨tabletId, active, frozen, isInited, mutexHeld⟩ := mgr
  obtain rfl : mutexHeld = false := h
  cases active <;> rfl

def getTotalOccupiedSize : ObMemTableMgr η → Option (ℤ × ObMemTableMgr η) :=
  locked fun mgr =>
    let total := (mgr.activeMemtable.map ObMemtable.occupySize).getD 0
    some (mgr.frozenMemtables.foldl (fun total t => total + t.occupySize) total, mgr)

def totalSize (mgr : ObMemTableMgr η) : ℤ :=
  ((mgr.activeMemtable.toList ++ mgr.frozenMemtables).map ObMemtable.occupySize).sum

theorem getTotalOccupiedSize_eq {mgr : ObMemTableMgr η} (h : mgr.mutexHeld = false) :
    mgr.getTotalOccupiedSize = some (mgr.totalSize, mgr) := by
  have hsum : ∀ (ts : List (ObMemtable η)) (total : ℤ),
      ts.foldl (fun total t => total + t.occupySize) total =
        total + (ts.map ObMemtable.occupySize).sum := by
    intro ts
    induction ts with
    | nil => simp
    | cons t ts ih =>
      intro total
      rw [List.foldl_cons, ih, List.map_cons, List.sum_cons, add_assoc]
  obtain ⟨tabletId, active, frozen, isInited, mutexHeld⟩ := mgr
  obtain rfl : mutexHeld = false := h
  cases active <;> simp [getTotalOccupiedSize, locked, totalSize, hsum]

end ObMemTableMgr

structure ObTableStore (η : Type*) where
  tabletId : ℤ := 0
  memtableMgr : ObMemTableMgr η := {}
  logHandler : Option η := none
  isInited : Bool := false

namespace ObTableStore

def init (tabletId : ℤ) (s : ObTableStore η) : ℤ × ObTableStore η :=
  (0, { s with
    tabletId := tabletId
    memtableMgr := (s.memtableMgr.init tabletId).2
    isInited := true })

/-- The handler stays in the store; no memtable gets it. -/
def setLogHandler (handler : Option η) (s : ObTableStore η) : ObTableStore η :=
  { s with logHandler := handler }

def setActive (append : η → Bytes → L → ℤ × L) (mallocOk : Bool) (ctx : ObStoreCtx)
    (row : ObStoreRow) (s : ObTableStore η) (log : L) : Option (ℤ × ObTableStore η × L) :=
  match s.memtableMgr.getActiveMemtable with
  | none => none
  | some (active, mgr) =>
    let (ret, active, log) := active.set append mallocOk ctx row log
    some (ret, { s with memtableMgr := { mgr with activeMemtable := some active } }, log)

def getFrom (ctx : ObStoreCtx) (rowkey : ObStoreRowkey) : List (ObMemtable η) → Option ObStoreRow
  | [] => none
  | t :: ts =>
    if t.isEmpty then getFrom ctx rowkey ts
    else
      match t.get ctx rowkey with
      | some row => some row
      | none => getFrom ctx rowkey ts

/-- The inner `none` is `-1`. The loop over the SSTables has no effect. -/
def get (ctx : ObStoreCtx) (rowkey : ObStoreRowkey) (s : ObTableStore η) :
    Option (Option ObStoreRow × ObTableStore η) :=
  match s.memtableMgr.getActiveMemtable with
  | none => none
  | some (active, mgr) =>
    some (getFrom ctx rowkey (active :: mgr.frozenMemtables), { s with memtableMgr := mgr })

/-- Bounds and context only go to `ObMemtable::scan`, which ignores them. -/
def scan (s : ObTableStore η) : Option (List ObStoreRow × ObTableStore η) :=
  match s.memtableMgr.getActiveMemtable with
  | none => none
  | some (active, mgr) =>
    some (mgr.frozenMemtables.foldl (fun results t => results ++ t.scan []) (active.scan []),
      { s with memtableMgr := mgr })

end ObTableStore

inductive RC where
  | success
  | internal
  | recordEof
  deriving DecidableEq, Repr

structure ObRecordScanner where
  rowDataCache : List Bytes := []
  currentIdx : ℤ := -1
  isOpen : Bool := false

namespace ObRecordScanner

def isCached (row : ObStoreRow) : Bool := !row.isDeleted && !row.rowValue.isEmpty

/-- The scan of the store always returns 0. -/
def openScan (tableStore : Option (ObTableStore η)) (scanner : ObRecordScanner) :
    Option (RC × ObRecordScanner × Option (ObTableStore η)) :=
  match tableStore with
  | none => some (.internal, scanner, none)
  | some store =>
    match store.scan with
    | none => none
    | some (rows, store) =>
      some (.success,
        { rowDataCache := scanner.rowDataCache ++ (rows.filter isCached).map ObStoreRow.rowValue
          currentIdx := 0
          isOpen := true }, some store)

def nextRecord (scanner : ObRecordScanner) : RC × Option Bytes × ObRecordScanner :=
  if !scanner.isOpen then (.internal, none, scanner)
  else if (scanner.rowDataCache.length : ℤ) ≤ scanner.currentIdx then (.recordEof, none, scanner)
  else
    (.success, scanner.rowDataCache[scanner.currentIdx.toNat]?,
      { scanner with currentIdx := scanner.currentIdx + 1 })

def readTurn : ObRecordScanner × List Bytes → Turn (ObRecordScanner × List Bytes) (RC × List Bytes)
  | (scanner, records) =>
    match scanner.nextRecord with
    | (.success, record, scanner) => .again (scanner, records ++ record.toList)
    | (rc, _, _) => .stop (rc, records)

end ObRecordScanner

end TableStore
