import LsmStorage.SqlOperator
import Mathlib.Data.List.ProdSigma

/-! # NestedLoopJoinPhysicalOperator

The operator steps its left child, opens the right child again for every left tuple and joins
the two current tuples. The loop of `next` has no exit for a pair: it goes on after a
successful `right_next`, so a call returns when the left child is at its end. -/
namespace NestedLoopJoin

open BoundedLoop ResultCode SqlOperator

variable {T σ ρ π τ : Type*}

structure NestedLoopJoinPhysicalOperator (T σ ρ π : Type*) where
  trx : T
  left : σ
  right : ρ
  leftTuple : Option π := none
  rightTuple : Option π := none
  joinedTuple : Option π × Option π := (none, none)
  roundDone : Bool := true
  rightClosed : Bool := true

namespace NestedLoopJoinPhysicalOperator

section Operator

variable (left : PhysicalOperator T σ π τ) (right : PhysicalOperator T ρ π τ)

def openWith (trx : T) (s : NestedLoopJoinPhysicalOperator T σ ρ π) :
    RC × NestedLoopJoinPhysicalOperator T σ ρ π :=
  let (rc, child) := left.openWith trx s.left
  (rc, { s with rightClosed := true, roundDone := true, left := child, trx := trx })

def leftNext (s : NestedLoopJoinPhysicalOperator T σ ρ π) :
    RC × NestedLoopJoinPhysicalOperator T σ ρ π :=
  let (rc, child) := left.next s.left
  let s := { s with left := child }
  if rc ≠ .success then (rc, s)
  else
    let tuple := left.currentTuple s.left
    (rc, { s with leftTuple := tuple, joinedTuple := (tuple, s.joinedTuple.2) })

/-- The start of a round: the right child is closed, if it is open, and opened. -/
def reopenRight (s : NestedLoopJoinPhysicalOperator T σ ρ π) :
    RC × NestedLoopJoinPhysicalOperator T σ ρ π :=
  let (rc, s) :=
    if !s.rightClosed then
      let (rc, child) := right.close s.right
      (rc, { s with right := child, rightClosed := true })
    else (.success, s)
  if rc ≠ .success then (rc, s)
  else
    let (rc, child) := right.openWith s.trx s.right
    let s := { s with right := child }
    if rc ≠ .success then (rc, s)
    else (.success, { s with rightClosed := false, roundDone := false })

def rightNext (s : NestedLoopJoinPhysicalOperator T σ ρ π) :
    RC × NestedLoopJoinPhysicalOperator T σ ρ π :=
  let (rc, s) := if s.roundDone then s.reopenRight right else (.success, s)
  if rc ≠ .success then (rc, s)
  else
    let (rc, child) := right.next s.right
    let s := { s with right := child }
    if rc ≠ .success then
      (rc, if rc = .recordEof then { s with roundDone := true } else s)
    else
      let tuple := right.currentTuple s.right
      (rc, { s with rightTuple := tuple, joinedTuple := (s.joinedTuple.1, tuple) })

/-- One turn of the loop of `next`. The loop runs while `rc` is `SUCCESS`, which it also is
behind a successful `right_next`. -/
def nextTurn (s : NestedLoopJoinPhysicalOperator T σ ρ π) :
    Turn (NestedLoopJoinPhysicalOperator T σ ρ π)
      (RC × NestedLoopJoinPhysicalOperator T σ ρ π) :=
  let (rc, s) := if s.leftTuple.isNone || s.roundDone then s.leftNext left else (.success, s)
  if rc ≠ .success then .stop (rc, s)
  else
    let (rc, s) := s.rightNext right
    if rc = .success then .again s
    else if rc = .recordEof then .again { s with roundDone := true }
    else .stop (rc, s)

def next (fuel : ℕ) (s : NestedLoopJoinPhysicalOperator T σ ρ π) :
    Option (RC × NestedLoopJoinPhysicalOperator T σ ρ π) :=
  run (nextTurn left right) fuel s

def close (s : NestedLoopJoinPhysicalOperator T σ ρ π) :
    RC × NestedLoopJoinPhysicalOperator T σ ρ π :=
  let (rc, child) := left.close s.left
  let s := { s with left := child }
  if !s.rightClosed then
    let (rc, child) := right.close s.right
    (rc, { s with right := child, rightClosed := decide (rc = .success) })
  else (rc, s)

def currentTuple (s : NestedLoopJoinPhysicalOperator T σ ρ π) : Option (τ × τ) :=
  match s.joinedTuple.1.bind (left.deref s.left), s.joinedTuple.2.bind (right.deref s.right) with
  | some l, some r => some (l, r)
  | _, _ => none

def drain (fuel : ℕ) (s : NestedLoopJoinPhysicalOperator T σ ρ π) :
    Option (RC × List (Option (τ × τ))) :=
  (SqlOperator.drain (next left right fuel) (currentTuple left right) fuel s).map
    fun (rc, tuples, _) => (rc, tuples)

end Operator

end NestedLoopJoinPhysicalOperator

section Rounds

open NestedLoopJoinPhysicalOperator

variable {left : PhysicalOperator T σ π τ} {right : PhysicalOperator T ρ π τ} {trx : T}
  {ls rs : List τ} (hl : ReopenableIterator left trx ls) (hr : ReopenableIterator right trx rs)

structure BetweenRounds (s : NestedLoopJoinPhysicalOperator T σ ρ π) (todo : List τ) : Prop where
  trx : s.trx = trx
  left : hl.rest s.left todo
  roundDone : s.roundDone = true
  right : if s.rightClosed then hr.closed s.right else hr.ended s.right

structure InRound (s : NestedLoopJoinPhysicalOperator T σ ρ π) (todo : List τ) (l : τ)
    (pairs : List τ) : Prop where
  trx : s.trx = trx
  leftTuple : s.leftTuple ≠ none
  joined : s.joinedTuple.1.bind (left.deref s.left) = some l
  left : hl.rest s.left todo
  roundDone : s.roundDone = false
  rightClosed : s.rightClosed = false
  right : hr.rest s.right pairs

variable {hl hr} {s : NestedLoopJoinPhysicalOperator T σ ρ π} {l r : τ} {todo pairs : List τ}

theorem leftNext_of_cons (h : BetweenRounds hl hr s (l :: todo)) :
    ∃ s', s.leftNext left = (.success, s') ∧ BetweenRounds hl hr s' todo ∧
      s'.leftTuple ≠ none ∧ s'.joinedTuple.1.bind (left.deref s'.left) = some l := by
  obtain ⟨hcode, hrest, htuple⟩ := hl.steps s.left (l :: todo) h.left
  refine ⟨{ s with
    left := (left.next s.left).2
    leftTuple := left.currentTuple (left.next s.left).2
    joinedTuple := (left.currentTuple (left.next s.left).2, s.joinedTuple.2) },
    by simp [leftNext, hcode], ⟨h.trx, hrest, h.roundDone, h.right⟩, fun hnone => ?_, htuple⟩
  rw [PhysicalOperator.tupleNow, show left.currentTuple (left.next s.left).2 = none from hnone]
    at htuple
  cases htuple

theorem leftNext_of_nil (h : BetweenRounds hl hr s []) :
    ∃ child, s.leftNext left = (.recordEof, { s with left := child }) ∧ hl.ended child := by
  obtain ⟨hcode, hended⟩ := hl.steps s.left [] h.left
  exact ⟨(left.next s.left).2, by simp [leftNext, hcode], hended⟩

/-- A round is opened by the first `right_next` behind a `left_next`. -/
theorem rightNext_of_between (h : BetweenRounds hl hr s todo) (htuple : s.leftTuple ≠ none)
    (hjoined : s.joinedTuple.1.bind (left.deref s.left) = some l) :
    ∃ s', InRound hl hr s' todo l rs ∧ s.rightNext right = s'.rightNext right := by
  obtain ⟨child, hrest, hopen⟩ : ∃ child, hr.rest child rs ∧ s.reopenRight right =
      (.success, { s with right := child, rightClosed := false, roundDone := false }) := by
    have hright := h.right
    cases hclosed : s.rightClosed with
    | true =>
      rw [hclosed, if_pos rfl] at hright
      obtain ⟨hcode, hrest⟩ := hr.opens s.right hright
      exact ⟨_, hrest, by simp [reopenRight, hclosed, h.trx, hcode]⟩
    | false =>
      rw [hclosed, if_neg Bool.false_ne_true] at hright
      obtain ⟨hclose, hshut⟩ := hr.closes s.right hright
      obtain ⟨hcode, hrest⟩ := hr.opens _ hshut
      exact ⟨_, hrest, by simp [reopenRight, hclosed, hclose, h.trx, hcode]⟩
  refine ⟨{ s with right := child, rightClosed := false, roundDone := false },
    ⟨h.trx, htuple, hjoined, h.left, rfl, rfl, hrest⟩, ?_⟩
  simp only [rightNext, h.roundDone, ↓reduceIte, hopen, Bool.false_eq_true]

theorem rightNext_of_cons (h : InRound hl hr s todo l (r :: pairs)) :
    ∃ s', s.rightNext right = (.success, s') ∧ InRound hl hr s' todo l pairs ∧
      s'.currentTuple left right = some (l, r) := by
  obtain ⟨hcode, hrest, hread⟩ := hr.steps s.right (r :: pairs) h.right
  refine ⟨{ s with
    right := (right.next s.right).2
    rightTuple := right.currentTuple (right.next s.right).2
    joinedTuple := (s.joinedTuple.1, right.currentTuple (right.next s.right).2) },
    by simp [rightNext, h.roundDone, hcode],
    ⟨h.trx, h.leftTuple, h.joined, h.left, h.roundDone, h.rightClosed, hrest⟩, ?_⟩
  rw [PhysicalOperator.tupleNow] at hread
  simp [NestedLoopJoinPhysicalOperator.currentTuple, h.joined, hread]

theorem rightNext_of_nil (h : InRound hl hr s todo l []) :
    ∃ s', s.rightNext right = (.recordEof, s') ∧ BetweenRounds hl hr s' todo := by
  obtain ⟨hcode, hended⟩ := hr.steps s.right [] h.right
  refine ⟨{ s with right := (right.next s.right).2, roundDone := true },
    by simp [rightNext, h.roundDone, hcode], h.trx, h.left, rfl, ?_⟩
  simp [h.rightClosed, hended]

theorem next_of_inRound
    (hbetween : ∀ s, BetweenRounds hl hr s todo →
      ∃ s', Yields (nextTurn left right) s (.recordEof, s'))
    (h : InRound hl hr s todo l pairs) :
    ∃ s', Yields (nextTurn left right) s (.recordEof, s') := by
  induction pairs generalizing s with
  | nil =>
    obtain ⟨s₁, hnext, hs₁⟩ := rightNext_of_nil h
    obtain ⟨s', hs'⟩ := hbetween { s₁ with roundDone := true } ⟨hs₁.trx, hs₁.left, rfl, hs₁.right⟩
    exact ⟨s', yields_again (by simp [nextTurn, h.leftTuple, h.roundDone, hnext]) hs'⟩
  | cons r pairs ih =>
    obtain ⟨s₁, hnext, hs₁, -⟩ := rightNext_of_cons h
    obtain ⟨s', hs'⟩ := ih hs₁
    exact ⟨s', yields_again (by simp [nextTurn, h.leftTuple, h.roundDone, hnext]) hs'⟩

theorem next_of_between (h : BetweenRounds hl hr s todo) :
    ∃ s', Yields (nextTurn left right) s (.recordEof, s') := by
  induction todo generalizing s with
  | nil =>
    obtain ⟨child, hleft, -⟩ := leftNext_of_nil h
    exact ⟨{ s with left := child }, yields_stop (by simp [nextTurn, h.roundDone, hleft])⟩
  | cons l todo ih =>
    obtain ⟨s₁, hleft, hs₁, htuple, hjoined⟩ := leftNext_of_cons h
    obtain ⟨s₂, hs₂, hsame⟩ := rightNext_of_between hs₁ htuple hjoined
    -- the turn goes on as one that starts within the round
    have hturn : nextTurn left right s = nextTurn left right s₂ := by
      simp [nextTurn, h.roundDone, hleft, hsame, hs₂.leftTuple, hs₂.roundDone]
    obtain ⟨s', n, hn⟩ := next_of_inRound (fun _ => ih) hs₂
    refine ⟨s', n, ?_⟩
    cases n with
    | zero => cases hn
    | succ n => rwa [run, hturn]

theorem drain_of_between (h : BetweenRounds hl hr s todo) :
    ∃ k, ∀ fuel, k ≤ fuel → s.drain left right fuel = some (.recordEof, []) := by
  obtain ⟨s', k, hk⟩ := next_of_between h
  refine ⟨k + 1, fun fuel hfuel => ?_⟩
  obtain ⟨n, rfl⟩ : ∃ n, fuel = n + 1 := ⟨fuel - 1, by omega⟩
  have hnext : s.next left right (n + 1) = some (.recordEof, s') := run_mono hk (by omega)
  simp [NestedLoopJoinPhysicalOperator.drain, SqlOperator.drain, run, drainTurn, hnext]

end Rounds

def EnumeratesProduct (left : PhysicalOperator T σ π τ) (right : PhysicalOperator T ρ π τ) (trx : T)
    (ls rs : List τ) (s : NestedLoopJoinPhysicalOperator T σ ρ π) : Prop :=
  ∃ s', s.openWith left trx = (.success, s') ∧
    ∃ k, ∀ fuel, k ≤ fuel →
      s'.drain left right fuel = some (.recordEof, (ls ×ˢ rs).map some)

/-- The join hands out no tuple at all, so it is right only where there is no pair. -/
theorem enumeratesProduct_iff {left : PhysicalOperator T σ π τ}
    {right : PhysicalOperator T ρ π τ} {trx : T} {ls rs : List τ}
    (hl : ReopenableIterator left trx ls) (hr : ReopenableIterator right trx rs)
    (s : NestedLoopJoinPhysicalOperator T σ ρ π) (hleft : hl.closed s.left)
    (hright : hr.closed s.right) :
    EnumeratesProduct left right trx ls rs s ↔ ls = [] ∨ rs = [] := by
  obtain ⟨hopen, hrest⟩ := hl.opens s.left hleft
  obtain ⟨s₁, hs₁, hbetween⟩ : ∃ s₁, s.openWith left trx = (.success, s₁) ∧
      BetweenRounds hl hr s₁ ls := by
    refine ⟨_, by simp only [NestedLoopJoinPhysicalOperator.openWith, hopen]; rfl, ?_⟩
    exact ⟨rfl, hrest, rfl, hright⟩
  obtain ⟨k, hk⟩ := drain_of_between hbetween
  have hempty : (ls ×ˢ rs).map some = [] ↔ ls = [] ∨ rs = [] := by
    cases ls <;> cases rs <;> simp
  rw [← hempty]
  constructor
  · rintro ⟨s₂, hs₂, hdrain⟩
    cases hs₁.symm.trans hs₂
    exact (Prod.mk.inj (BoundedLoop.eq_of_enough ⟨k, hk⟩ hdrain)).2.symm
  · intro hnone
    exact ⟨s₁, hs₁, k, fun fuel hfuel => by rw [hk fuel hfuel, hnone]⟩

def newJoin : NestedLoopJoinPhysicalOperator Unit (Option ℕ) (Option ℕ) Unit :=
  { trx := (), left := none, right := none }

theorem enumeratesProduct_iff_example :
    EnumeratesProduct (listScan [1, 2]) (listScan []) () [1, 2] [] newJoin :=
  (enumeratesProduct_iff (listScanIterates [1, 2]).toReopenableIterator
    (listScanIterates []).toReopenableIterator newJoin rfl rfl).mpr (Or.inr rfl)

/-- One row on each side: the only pair is passed over. -/
theorem single_pair_is_skipped :
    ¬ EnumeratesProduct (listScan [1]) (listScan [2]) () [1] [2] newJoin := by
  rintro ⟨s', hopen, k, hk⟩
  cases hopen
  have hdrain := hk (k + 5) (Nat.le_add_right k 5)
  simp [NestedLoopJoinPhysicalOperator.drain, SqlOperator.drain, run, drainTurn,
    NestedLoopJoinPhysicalOperator.next, NestedLoopJoinPhysicalOperator.nextTurn,
    NestedLoopJoinPhysicalOperator.leftNext, NestedLoopJoinPhysicalOperator.rightNext,
    NestedLoopJoinPhysicalOperator.reopenRight, listScan, newJoin] at hdrain

end NestedLoopJoin
