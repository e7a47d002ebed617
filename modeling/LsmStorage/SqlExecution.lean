import LsmStorage.ByteCodec
import LsmStorage.SqlOperator

/-! # SqlResult, a result while it is sent to a client

A result owns the operators of its statement until it is closed. Closing it closes the operators,
drops them, and ends the transaction of a session that runs one statement at a time. -/
namespace SqlExecution

open ByteCodec ResultCode SqlOperator

variable {σ α : Type*}

/-- A tuple: what `cell_at` returns for each cell, with the text of the value. -/
abbrev Tuple := List (RC × Bytes)

def GoodCells (row : Tuple) : Prop := ∀ cell ∈ row, cell.1 = .success

/-- The root of an operator tree, over the state of the tree. A call of `next` that succeeds leaves
a tuple. -/
abbrev RootOperator (σ : Type*) := PhysicalOperator Unit σ Unit Tuple

def RootOperator.currentRow (op : RootOperator σ) (s : σ) : Tuple := (op.tupleNow s).getD []

def RootOperator.row (op : RootOperator σ) (s : σ) (n : ℕ) : Tuple :=
  op.currentRow (op.next (op.after s n)).2

inductive Call where
  | startIfNeed
  | openOperator
  | closeOperator
  | commit
  | rollback
  | destroyTrx
  deriving DecidableEq, Repr

structure Session where
  multiOperationMode : Bool
  commitCode : RC

structure TupleCellSpec where
  tableName : Bytes
  aliasName : Bytes

structure SqlResult (σ : Type*) where
  session : Session
  operator : Option σ := none
  tupleSchema : List TupleCellSpec := []
  returnCode : RC := .success
  stateString : Bytes := []
  calls : List Call := []

namespace SqlResult

variable (op : RootOperator σ)

def openResult (r : SqlResult σ) : RC × SqlResult σ :=
  match r.operator with
  | none => (.invalidArgument, r)
  | some s =>
    let (rc, s) := op.openWith () s
    (rc, { r with operator := some s, calls := r.calls ++ [.startIfNeed, .openOperator] })

def close (r : SqlResult σ) : RC × SqlResult σ :=
  match r.operator with
  | none => (.invalidArgument, r)
  | some s =>
    let (rc, _) := op.close s
    let calls := r.calls ++ [.closeOperator]
    if r.session.multiOperationMode then (rc, { r with operator := none, calls := calls })
    else if rc = .success then
      (r.session.commitCode,
        { r with operator := none, calls := calls ++ [.commit, .destroyTrx] })
    else (rc, { r with operator := none, calls := calls ++ [.rollback, .destroyTrx] })

/-- `none` is a call through the null pointer of a closed result. -/
def nextTuple (r : SqlResult σ) : Option (RC × Tuple × SqlResult σ) :=
  r.operator.map fun s =>
    let (rc, s) := op.next s
    (rc, op.currentRow s, { r with operator := some s })

structure Opened (r : SqlResult σ) : Prop where
  operator : r.operator.isSome
  closes : r.calls.count .closeOperator = 0
  commits : r.calls.count .commit = 0
  rollbacks : r.calls.count .rollback = 0

/-- The operators have been closed once, and outside of a transaction of several statements the
transaction has been ended once. -/
structure ClosedOnce (r : SqlResult σ) : Prop where
  closes : r.calls.count .closeOperator = 1
  ended : r.session.multiOperationMode = false →
    r.calls.count .commit + r.calls.count .rollback = 1

variable {op} {r : SqlResult σ}

theorem Opened.not_closedOnce (h : r.Opened) : ¬ r.ClosedOnce := by
  intro hclosed
  have hcloses := hclosed.closes
  rw [h.closes] at hcloses
  cases hcloses

theorem Opened.close (h : r.Opened) : (r.close op).2.ClosedOnce := by
  obtain ⟨s, hs⟩ := Option.isSome_iff_exists.mp h.operator
  cases hmode : r.session.multiOperationMode with
  | true => constructor <;> simp [SqlResult.close, hs, hmode, h.closes]
  | false =>
    by_cases hrc : (op.close s).1 = .success <;> constructor <;>
      simp [SqlResult.close, hs, hmode, hrc, h.closes, h.commits, h.rollbacks]

theorem Opened.next (h : r.Opened) (s : σ) : ({ r with operator := some s } : SqlResult σ).Opened :=
  ⟨rfl, h.closes, h.commits, h.rollbacks⟩

theorem ClosedOnce.setReturnCode (h : r.ClosedOnce) (rc : RC) :
    ({ r with returnCode := rc } : SqlResult σ).ClosedOnce :=
  ⟨h.closes, h.ended⟩

end SqlResult

/-- A connection that is written to. `answers` says what each call of `writen` returns; what a
successful call has been given is taken. -/
structure Writer (α : Type*) where
  answers : ℕ → RC
  calls : ℕ := 0
  taken : List α := []

def Writer.writen (x : α) (w : Writer α) : RC × Writer α :=
  let rc := w.answers w.calls
  (rc, { w with
    calls := w.calls + 1
    taken := if rc = .success then w.taken ++ [x] else w.taken })

theorem Writer.taken_writen (x : α) (w : Writer α) :
    (w.writen x).2.taken =
      w.taken ++ if w.answers w.calls = .success then [x] else [] := by
  unfold Writer.writen
  dsimp only
  split_ifs
  · rfl
  · rw [List.append_nil]

def Delivered (answers : ℕ → RC) (n : ℕ) : Prop := ∀ k < n, answers k = .success

theorem Delivered.succ {answers : ℕ → RC} {n : ℕ} (h : Delivered answers n)
    (hn : answers n = .success) : Delivered answers (n + 1) :=
  Nat.forall_lt_succ_right.mpr ⟨h, hn⟩

structure FirstFailure (answers : ℕ → RC) (n : ℕ) : Prop where
  before : Delivered answers n
  fails : answers n ≠ .success

theorem FirstFailure.le {answers : ℕ → RC} {n m : ℕ} (h : FirstFailure answers n)
    (hm : Delivered answers m) : m ≤ n := by
  by_contra hlt
  exact h.fails (hm n (Nat.lt_of_not_le hlt))

theorem FirstFailure.unique {answers : ℕ → RC} {n m : ℕ} (h : FirstFailure answers n)
    (h' : FirstFailure answers m) : n = m :=
  Nat.le_antisymm (h'.le h.before) (h.le h'.before)

end SqlExecution
