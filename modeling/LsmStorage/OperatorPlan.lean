import LsmStorage.HashGroupBy
import LsmStorage.NestedLoopJoin
import Mathlib.Algebra.GroupWithZero.Nat

/-! # Plans of physical operators

Filters, projections, joins and aggregations without keys over operators that can be opened again.
The join is that of `join_physical_operator.cpp`, which differs from `LsmStorage.NestedLoopJoin` in
`next` alone. A budget bounds the loops over a child. -/
namespace OperatorPlan

open BoundedLoop ResultCode SqlOperator NestedLoopJoin HashGroupBy

variable {T σ ρ S V A : Type*}

section Predicate

variable (child : PhysicalOperator T σ Unit (List V)) (expression : List V → RC × Bool)

def predicateTurn (s : σ) : Turn σ (RC × σ) :=
  let (rc, s) := child.next s
  if rc ≠ .success then .stop (rc, s)
  else
    match child.tupleNow s with
    | none => .stop (.internal, s)
    | some tuple =>
      let (rc, value) := expression tuple
      if rc ≠ .success then .stop (rc, s) else if value then .stop (rc, s) else .again s

def predicate (fuel : ℕ) : PhysicalOperator T σ Unit (List V) where
  openWith := child.openWith
  next s := (run (predicateTurn child expression) fuel s).getD (.internal, s)
  close s := (.success, (child.close s).2)
  currentTuple := child.currentTuple
  deref := child.deref

def project (expressions : List V → List V) : PhysicalOperator T σ Unit (List V) where
  openWith := child.openWith
  next := child.next
  close s := (.success, (child.close s).2)
  currentTuple _ := some ()
  deref s _ := (child.tupleNow s).map expressions

end Predicate

section Join

variable (left : PhysicalOperator T σ Unit (List V)) (right : PhysicalOperator T ρ Unit (List V))

/-- The end of `next`, where `left_need_step` is set. -/
def joinStep (s : NestedLoopJoinPhysicalOperator T σ ρ Unit) :
    RC × NestedLoopJoinPhysicalOperator T σ ρ Unit :=
  let (rc, s) := s.leftNext left
  if rc ≠ .success then (rc, s) else s.rightNext right

def joinNext (s : NestedLoopJoinPhysicalOperator T σ ρ Unit) :
    RC × NestedLoopJoinPhysicalOperator T σ ρ Unit :=
  if s.roundDone then joinStep left right s
  else
    let (rc, s) := s.rightNext right
    if rc = .recordEof then joinStep left right s else (rc, s)

def join : PhysicalOperator T (NestedLoopJoinPhysicalOperator T σ ρ Unit) Unit (List V) where
  openWith trx s := s.openWith left trx
  next := joinNext left right
  close s := s.close left right
  currentTuple _ := some ()
  deref s _ := (s.currentTuple left right).map fun p => p.1 ++ p.2

end Join

section ScalarGroupBy

variable (child : PhysicalOperator T σ Unit (List V)) (c : Clause (List V) Unit S V A)

structure ScalarGroupByPhysicalOperator (σ S V A : Type*) where
  child : σ
  groupValue : Option (GroupType (List V) Unit S V A) := none
  emitted : Bool := false

/-- In the source `create_aggregator` is a stub that returns null, and `aggregate` would follow it:
here every aggregate expression has an aggregator. -/
def addValue (t : List V) (groupValue : Option (GroupType (List V) Unit S V A)) :
    RC × Option (GroupType (List V) Unit S V A) :=
  let (rc, g) := match groupValue with
    | none =>
      let (rc, first) := c.make t
      (rc, (⟨(), c.createAggregatorList, [first]⟩ : GroupType (List V) Unit S V A))
    | some g => (.success, g)
  if rc ≠ .success then (rc, none)
  else
    let (rc, aggregators) := Clause.aggregate t g.aggregators
    (rc, some { g with aggregators })

/-- One turn of the loop over the child: it goes on, is left with a code (`ok`), or `open` returns
(`error`). -/
def gatherTurn (s : ScalarGroupByPhysicalOperator σ S V A) :
    Turn (ScalarGroupByPhysicalOperator σ S V A)
      (Except (RC × ScalarGroupByPhysicalOperator σ S V A)
        (RC × ScalarGroupByPhysicalOperator σ S V A)) :=
  let (rc, state) := child.next s.child
  let s := { s with child := state }
  if rc ≠ .success then .stop (.ok (rc, s))
  else
    match child.tupleNow state with
    | none => .stop (.error (.internal, s))
    | some t =>
      let (rc, groupValue) := addValue c t s.groupValue
      let s := { s with groupValue }
      if rc ≠ .success then .stop (.error (rc, s)) else .again s

def evaluateGroup (s : ScalarGroupByPhysicalOperator σ S V A) :
    RC × ScalarGroupByPhysicalOperator σ S V A :=
  match s.groupValue with
  | none => (.success, { s with emitted := false })
  | some g =>
    let (rc, _, g) := c.evaluate g
    (rc, { s with groupValue := some g, emitted := false })

def scalarGroupBy (fuel : ℕ) :
    PhysicalOperator T (ScalarGroupByPhysicalOperator σ S V A) Unit (List V) where
  openWith trx s :=
    let (rc, state) := child.openWith trx s.child
    let s := { s with child := state }
    if rc ≠ .success then (rc, s)
    else
      match run (gatherTurn child c) fuel s with
      | none => (.internal, s)
      | some (.error returned) => returned
      | some (.ok (rc, s)) =>
        let rc := if rc = .recordEof then .success else rc
        if rc ≠ .success then (rc, s) else evaluateGroup c s
  next s :=
    if s.groupValue.isNone || s.emitted then (.recordEof, s)
    else (.success, { s with emitted := true })
  close s := (.success, { child := (child.close s.child).2 })
  currentTuple s := s.groupValue.map fun _ => ()
  deref s _ := s.groupValue.map fun g => (read g.tuple).cells

end ScalarGroupBy

section Filter

variable {child : PhysicalOperator T σ Unit (List V)} {trx : T} {rows : List (List V)}
  {expression : List V → RC × Bool}

def kept (expression : List V → RC × Bool) (rows : List (List V)) : List (List V) :=
  rows.filter fun t => (expression t).2

def PredicateRest (h : Iterates child trx rows) (expression : List V → RC × Bool) (s : σ)
    (ts : List (List V)) : Prop :=
  ∃ us, h.rest s us ∧ us <:+ rows ∧ kept expression us = ts

theorem run_predicateTurn (fuel : ℕ) (h : Iterates child trx rows)
    (hok : ∀ t ∈ rows, (expression t).1 = .success) {n : ℕ} {us : List (List V)} {s : σ}
    (hrest : h.rest s us) (hus : us <:+ rows) (hn : us.length < n) :
    ∃ out, run (predicateTurn child expression) n s = some out ∧
      Answers (predicate child expression fuel).tupleNow (PredicateRest h expression)
        (PredicateRest h expression · []) out (kept expression us) := by
  induction us generalizing s n with
  | nil =>
    obtain ⟨n, rfl⟩ := Nat.exists_eq_succ_of_ne_zero (Nat.ne_zero_of_lt hn)
    obtain ⟨hcode, hend⟩ := h.steps s [] hrest
    refine ⟨(.recordEof, (child.next s).2), ?_, rfl, [], h.stays _ hend, hus, rfl⟩
    simp [run, predicateTurn, hcode]
  | cons u us ih =>
    obtain ⟨n, rfl⟩ := Nat.exists_eq_succ_of_ne_zero (Nat.ne_zero_of_lt hn)
    obtain ⟨hcode, hleft, htuple⟩ := h.steps s (u :: us) hrest
    have hu := hok u (hus.subset List.mem_cons_self)
    have hus' := (List.suffix_cons u us).trans hus
    cases hvalue : (expression u).2 with
    | true =>
      have hkeep : kept expression (u :: us) = u :: kept expression us :=
        List.filter_cons_of_pos hvalue
      rw [hkeep]
      refine ⟨(.success, (child.next s).2), ?_, rfl, ⟨us, hleft, hus', rfl⟩, htuple⟩
      simp [run, predicateTurn, hcode, htuple, hu, hvalue]
    | false =>
      have hskip : kept expression (u :: us) = kept expression us :=
        List.filter_cons_of_neg (by rw [hvalue]; exact Bool.false_ne_true)
      obtain ⟨out, hrun, hout⟩ := ih hleft hus' (Nat.lt_of_succ_lt_succ hn)
      refine ⟨out, ?_, hskip ▸ hout⟩
      simp [run, predicateTurn, hcode, htuple, hu, hvalue, hrun]

def iteratesPredicate (h : Iterates child trx rows)
    (hok : ∀ t ∈ rows, (expression t).1 = .success) {fuel : ℕ} (hfuel : rows.length < fuel) :
    Iterates (predicate child expression fuel) trx (kept expression rows) where
  closed := h.closed
  rest := PredicateRest h expression
  opens s hs := ⟨(h.opens s hs).1, rows, (h.opens s hs).2, List.suffix_rfl, rfl⟩
  steps s ts := by
    rintro ⟨us, hrest, hus, rfl⟩
    obtain ⟨out, hrun, hout⟩ :=
      run_predicateTurn fuel h hok hrest hus (hus.length_le.trans_lt hfuel)
    have hnext : (predicate child expression fuel).next s = out :=
      congrArg (Option.getD · _) hrun
    rwa [hnext]
  stays _ hended := hended
  stops s ts := by
    rintro ⟨us, hrest, -, -⟩
    exact ⟨rfl, (h.stops s us hrest).2⟩

def iteratesProject (h : Iterates child trx rows) (expressions : List V → List V) :
    Iterates (project child expressions) trx (rows.map expressions) where
  closed := h.closed
  rest s ts := ∃ us, h.rest s us ∧ us.map expressions = ts
  opens s hs := ⟨(h.opens s hs).1, rows, (h.opens s hs).2, rfl⟩
  steps s ts := by
    rintro ⟨us, hrest, rfl⟩
    have hstep := h.steps s us hrest
    cases us with
    | nil => exact ⟨hstep.1, [], h.stays _ hstep.2, rfl⟩
    | cons u us =>
      exact ⟨hstep.1, ⟨us, hstep.2.1, rfl⟩, congrArg (Option.map expressions) hstep.2.2⟩
  stays _ hended := hended
  stops s ts := by
    rintro ⟨us, hrest, -⟩
    exact ⟨rfl, (h.stops s us hrest).2⟩

end Filter

section Product

open NestedLoopJoinPhysicalOperator

variable {left : PhysicalOperator T σ Unit (List V)} {right : PhysicalOperator T ρ Unit (List V)}
  {trx : T} {ls rs : List (List V)} (hl : Iterates left trx ls) (hr : Iterates right trx rs)
  (s : NestedLoopJoinPhysicalOperator T σ ρ Unit)

def joined (ls rs : List (List V)) : List (List V) := ls.flatMap fun l => rs.map (l ++ ·)

def JoinRest (rows : List (List V)) : Prop :=
  (∃ todo, BetweenRounds hl.toReopenableIterator hr.toReopenableIterator s todo ∧
      joined todo rs = rows) ∨
    ∃ todo l ps, InRound hl.toReopenableIterator hr.toReopenableIterator s todo l ps ∧
      ps.map (l ++ ·) ++ joined todo rs = rows

variable {hl hr s} {l : List V} {todo rows ps : List (List V)}

theorem tupleNow_join {r : List V} (h : s.currentTuple left right = some (l, r)) :
    (join left right).tupleNow s = some (l ++ r) := by
  simp [PhysicalOperator.tupleNow, join, h]

/-- A step to the next left row hands out the first pair of its round. Without right rows the join
is at its end, wherever the left child is. -/
theorem joinStep_of_between
    (h : BetweenRounds hl.toReopenableIterator hr.toReopenableIterator s todo) :
    Answers (join left right).tupleNow (JoinRest hl hr) (JoinRest hl hr · [])
      (joinStep left right s) (joined todo rs) := by
  cases todo with
  | nil =>
    obtain ⟨child, hleft, hended⟩ := leftNext_of_nil h
    have hend : joinStep left right s = (.recordEof, { s with left := child }) := by
      simp [joinStep, hleft]
    rw [hend]
    exact ⟨rfl, .inl ⟨[], ⟨h.trx, hl.stays _ hended, h.roundDone, h.right⟩, rfl⟩⟩
  | cons l todo =>
    obtain ⟨s₁, hleft, hs₁, htuple, hjoined⟩ := leftNext_of_cons h
    obtain ⟨s₂, hs₂, hsame⟩ := rightNext_of_between hs₁ htuple hjoined
    have hnext : joinStep left right s = s₂.rightNext right := by
      simp [joinStep, hleft, hsame]
    rw [hnext]
    cases rs with
    | nil =>
      have hnone : ∀ todo : List (List V), joined todo [] = [] := fun todo => by simp [joined]
      obtain ⟨s', hright, hs'⟩ := rightNext_of_nil hs₂
      rw [hnone, hright]
      exact ⟨rfl, .inl ⟨todo, hs', hnone todo⟩⟩
    | cons r rs =>
      obtain ⟨s', hright, hs', hread⟩ := rightNext_of_cons hs₂
      rw [hright]
      exact ⟨rfl, .inr ⟨todo, l, rs, hs', rfl⟩, tupleNow_join hread⟩

theorem joinNext_of_rest (h : JoinRest hl hr s rows) :
    Answers (join left right).tupleNow (JoinRest hl hr) (JoinRest hl hr · [])
      (joinNext left right s) rows := by
  rcases h with ⟨todo, hs, rfl⟩ | ⟨todo, l, ps, hs, rfl⟩
  · rw [joinNext, if_pos hs.roundDone]
    exact joinStep_of_between hs
  · rw [joinNext, hs.roundDone, if_neg Bool.false_ne_true]
    cases ps with
    | nil =>
      obtain ⟨s', hright, hs'⟩ := rightNext_of_nil hs
      simp only [hright, ↓reduceIte]
      exact joinStep_of_between hs'
    | cons r ps =>
      obtain ⟨s', hright, hs', hread⟩ := rightNext_of_cons hs
      simp only [hright, reduceCtorEq, ↓reduceIte]
      exact ⟨rfl, .inr ⟨todo, l, ps, hs', rfl⟩, tupleNow_join hread⟩

theorem joinClose_of_rest (h : JoinRest hl hr s rows) : (s.close left right).1 = .success ∧
    hl.closed (s.close left right).2.left ∧ hr.closed (s.close left right).2.right := by
  obtain ⟨todo, hleft, hright⟩ : ∃ todo, hl.rest s.left todo ∧
      if s.rightClosed then hr.closed s.right else ∃ ts, hr.rest s.right ts := by
    rcases h with ⟨todo, hs, -⟩ | ⟨todo, l, ps, hs, -⟩
    · refine ⟨todo, hs.left, ?_⟩
      have hright := hs.right
      split_ifs at hright ⊢
      · exact hright
      · exact ⟨[], hr.stays _ hright⟩
    · exact ⟨todo, hs.left, by simpa [hs.rightClosed] using ⟨ps, hs.right⟩⟩
  obtain ⟨hclose, hshut⟩ := hl.stops s.left todo hleft
  rw [NestedLoopJoinPhysicalOperator.close]
  cases hclosed : s.rightClosed with
  | true =>
    rw [hclosed, if_pos rfl] at hright
    simp [hclose, hshut, hright]
  | false =>
    rw [hclosed, if_neg Bool.false_ne_true] at hright
    obtain ⟨ts, hts⟩ := hright
    obtain ⟨hclose', hshut'⟩ := hr.stops s.right ts hts
    simp [hclose', hshut, hshut']

def iteratesJoin (hl : Iterates left trx ls) (hr : Iterates right trx rs) :
    Iterates (join left right) trx (joined ls rs) where
  closed s := hl.closed s.left ∧ hr.closed s.right
  rest := JoinRest hl hr
  opens s hs :=
    ⟨(hl.opens s.left hs.1).1, .inl ⟨ls, ⟨rfl, (hl.opens s.left hs.1).2, rfl, hs.2⟩, rfl⟩⟩
  steps _ _ := joinNext_of_rest
  stays _ hended := hended
  stops _ _ := joinClose_of_rest

end Product

section Aggregate

variable {child : PhysicalOperator T σ Unit (List V)} {trx : T} {rows : List (List V)}
  {c : Clause (List V) Unit S V A}

def addValues (c : Clause (List V) Unit S V A) : List (List V) →
    Option (GroupType (List V) Unit S V A) → RC × Option (GroupType (List V) Unit S V A)
  | [], groupValue => (.success, groupValue)
  | t :: ts, groupValue =>
    let (rc, groupValue) := addValue c t groupValue
    if rc ≠ .success then (rc, groupValue) else addValues c ts groupValue

def groupOfAll (c : Clause (List V) Unit S V A) :
    List (List V) → Option (GroupType (List V) Unit S V A)
  | [] => none
  | t :: ts => some ⟨(), (t :: ts).foldl (fun l t => l.map (accumulated t)) c.createAggregatorList,
      [(c.make t).2]⟩

structure Aggregates (c : Clause (List V) Unit S V A) (rows : List (List V)) : Prop where
  adds : (addValues c rows none).1 = .success
  evaluates : ∀ g ∈ groupOfAll c rows, (c.evaluate g).1 = .success

/-- The only row, or none: the first row, and behind it the value of every aggregate over all of
them. -/
def aggregated (c : Clause (List V) Unit S V A) (rows : List (List V)) : List (List V) :=
  ((groupOfAll c rows).map fun g => (read (c.evaluate g).2.2.tuple).cells).toList

theorem addValues_cons {t : List V} {ts : List (List V)}
    {groupValue : Option (GroupType (List V) Unit S V A)}
    (h : (addValues c (t :: ts) groupValue).1 = .success) : (addValue c t groupValue).1 = .success ∧
      addValues c (t :: ts) groupValue = addValues c ts (addValue c t groupValue).2 := by
  rw [addValues] at h ⊢
  dsimp only at h ⊢
  split_ifs at h ⊢ with hcode
  · exact absurd h hcode
  · exact ⟨not_not.mp hcode, rfl⟩

theorem addValues_some {ts : List (List V)} {g : GroupType (List V) Unit S V A}
    (h : (addValues c ts (some g)).1 = .success) : (addValues c ts (some g)).2 =
      some { g with aggregators := ts.foldl (fun l t => l.map (accumulated t)) g.aggregators } := by
  induction ts generalizing g with
  | nil => rfl
  | cons t ts ih =>
    obtain ⟨hcode, hcons⟩ := addValues_cons h
    have hadd : (addValue c t (some g)).2 =
        some { g with aggregators := g.aggregators.map (accumulated t) } := by
      rw [← aggregate_of_success hcode]
      rfl
    rw [hcons, hadd] at h ⊢
    exact ih h

theorem addValues_none (h : (addValues c rows none).1 = .success) :
    (addValues c rows none).2 = groupOfAll c rows := by
  cases rows with
  | nil => rfl
  | cons t ts =>
    obtain ⟨hcode, hcons⟩ := addValues_cons h
    have hadd : (addValue c t none).2 =
        some ⟨(), c.createAggregatorList.map (accumulated t), [(c.make t).2]⟩ := by
      simp only [addValue] at hcode ⊢
      split_ifs at hcode ⊢ with hmake
      · exact absurd hcode hmake
      · rw [← aggregate_of_success hcode]
    rw [hcons, hadd] at h ⊢
    exact addValues_some h

theorem run_gatherTurn (h : Iterates child trx rows) {n : ℕ} {us : List (List V)}
    {s : ScalarGroupByPhysicalOperator σ S V A} (hrest : h.rest s.child us) (hn : us.length < n)
    (hadd : (addValues c us s.groupValue).1 = .success) :
    ∃ state, h.rest state [] ∧ run (gatherTurn child c) n s =
      some (.ok (.recordEof, ⟨state, (addValues c us s.groupValue).2, s.emitted⟩)) := by
  obtain ⟨n, rfl⟩ := Nat.exists_eq_succ_of_ne_zero (Nat.ne_zero_of_lt hn)
  have hstep := h.steps s.child us hrest
  induction us generalizing s n with
  | nil =>
    refine ⟨_, h.stays _ hstep.2, ?_⟩
    simp [run, gatherTurn, hstep.1, addValues]
  | cons u us ih =>
    obtain ⟨hcode, hleft, htuple⟩ := hstep
    obtain ⟨n, rfl⟩ := Nat.exists_eq_succ_of_ne_zero (Nat.ne_zero_of_lt (Nat.lt_of_succ_lt_succ hn))
    obtain ⟨hvalue, hcons⟩ := addValues_cons hadd
    rw [hcons] at hadd ⊢
    obtain ⟨state, hend, hrun⟩ := ih (s := ⟨_, (addValue c u s.groupValue).2, s.emitted⟩) hleft
      hadd n (Nat.lt_of_succ_lt_succ hn) (h.steps _ _ hleft)
    refine ⟨state, hend, ?_⟩
    rw [run, gatherTurn]
    simp [hcode, htuple, hvalue, hrun]

def ScalarRest (h : Iterates child trx rows) (s : ScalarGroupByPhysicalOperator σ S V A)
    (ts : List (List V)) : Prop :=
  h.rest s.child [] ∧
    ts = if s.emitted then [] else (s.groupValue.map fun g => (read g.tuple).cells).toList

def iteratesScalarGroupBy (h : Iterates child trx rows) (hc : Aggregates c rows) {fuel : ℕ}
    (hfuel : rows.length < fuel) :
    Iterates (scalarGroupBy child c fuel) trx (aggregated c rows) where
  closed s := h.closed s.child ∧ s.groupValue = none
  rest := ScalarRest h
  opens s hs := by
    obtain ⟨hcode, hrest⟩ := h.opens s.child hs.1
    have hadd := hc.adds
    rw [← hs.2] at hadd
    obtain ⟨state, hend, hrun⟩ := run_gatherTurn (c := c)
      (s := { s with child := (child.openWith trx s.child).2 }) h hrest hfuel hadd
    have hopen : (scalarGroupBy child c fuel).openWith trx s =
        evaluateGroup c ⟨state, groupOfAll c rows, s.emitted⟩ := by
      simp only [scalarGroupBy, hcode, ne_eq, not_true_eq_false, ↓reduceIte, hrun]
      rw [hs.2, addValues_none hc.adds]
    rw [hopen, evaluateGroup, aggregated]
    cases hgroup : groupOfAll c rows with
    | none => exact ⟨rfl, hend, rfl⟩
    | some g => exact ⟨hc.evaluates g hgroup, hend, rfl⟩
  steps s ts := by
    rintro ⟨hend, rfl⟩
    cases hgroup : s.groupValue with
    | none => simp [scalarGroupBy, Answers, ScalarRest, hgroup, hend]
    | some g =>
      cases hemitted : s.emitted with
      | true => simp [scalarGroupBy, Answers, ScalarRest, hgroup, hemitted, hend]
      | false =>
        simp [scalarGroupBy, Answers, ScalarRest, PhysicalOperator.tupleNow, hgroup,
          hemitted, hend]
  stays _ hended := hended
  stops s _ hs := ⟨rfl, (h.stops s.child [] hs.1).2, rfl⟩

end Aggregate

/-- An operator without children that can be opened again. -/
structure Scan (T V : Type) where
  State : Type
  op : PhysicalOperator T State Unit (List V)
  rows : List (List V)
  iterates : ∀ trx, Iterates op trx rows
  start : State
  closed : ∀ trx, (iterates trx).closed start

inductive Plan (T S V A : Type) : Type 1 where
  | scan (leaf : Scan T V)
  | predicate (expression : List V → RC × Bool) (child : Plan T S V A)
  | project (expressions : List V → List V) (child : Plan T S V A)
  | join (left right : Plan T S V A)
  | scalarGroupBy (c : Clause (List V) Unit S V A) (child : Plan T S V A)

namespace Plan

variable {T S V A : Type}

def State : Plan T S V A → Type
  | .scan leaf => leaf.State
  | .predicate _ child => child.State
  | .project _ child => child.State
  | .join left right => NestedLoopJoinPhysicalOperator T left.State right.State Unit
  | .scalarGroupBy _ child => ScalarGroupByPhysicalOperator child.State S V A

def operator (fuel : ℕ) : (p : Plan T S V A) → PhysicalOperator T p.State Unit (List V)
  | .scan leaf => leaf.op
  | .predicate expression child => OperatorPlan.predicate (child.operator fuel) expression fuel
  | .project expressions child => OperatorPlan.project (child.operator fuel) expressions
  | .join left right => OperatorPlan.join (left.operator fuel) (right.operator fuel)
  | .scalarGroupBy c child => OperatorPlan.scalarGroupBy (child.operator fuel) c fuel

def start (trx : T) : (p : Plan T S V A) → p.State
  | .scan leaf => leaf.start
  | .predicate _ child => child.start trx
  | .project _ child => child.start trx
  | .join left right => ({ trx, left := left.start trx, right := right.start trx } :
      NestedLoopJoinPhysicalOperator T left.State right.State Unit)
  | .scalarGroupBy _ child => ({ child := child.start trx } :
      ScalarGroupByPhysicalOperator child.State S V A)

/-- What the plan means. -/
def rows : Plan T S V A → List (List V)
  | .scan leaf => leaf.rows
  | .predicate expression child => kept expression child.rows
  | .project expressions child => child.rows.map expressions
  | .join left right => joined left.rows right.rows
  | .scalarGroupBy c child => aggregated c child.rows

/-- No expression fails for a row that it is evaluated for. -/
def Evaluates : Plan T S V A → Prop
  | .scan _ => True
  | .predicate expression child =>
    (∀ t ∈ child.rows, (expression t).1 = .success) ∧ child.Evaluates
  | .project _ child => child.Evaluates
  | .join left right => left.Evaluates ∧ right.Evaluates
  | .scalarGroupBy c child => Aggregates c child.rows ∧ child.Evaluates

def longest : Plan T S V A → ℕ
  | .scan leaf => leaf.rows.length
  | .predicate _ child | .project _ child | .scalarGroupBy _ child =>
    max child.rows.length child.longest
  | .join left right => max (joined left.rows right.rows).length (max left.longest right.longest)

/-- Every operator keeps to the contract when its children do. -/
theorem exists_iterates {fuel : ℕ} (trx : T) (p : Plan T S V A) (hp : p.Evaluates)
    (hfuel : p.longest < fuel) :
    ∃ h : Iterates (p.operator fuel) trx p.rows, h.closed (p.start trx) := by
  induction p with
  | scan leaf => exact ⟨leaf.iterates trx, leaf.closed trx⟩
  | predicate expression child ih =>
    obtain ⟨hrows, hchild⟩ := Nat.max_lt.mp hfuel
    obtain ⟨h, hclosed⟩ := ih hp.2 hchild
    exact ⟨iteratesPredicate h hp.1 hrows, hclosed⟩
  | project expressions child ih =>
    obtain ⟨h, hclosed⟩ := ih hp (Nat.max_lt.mp hfuel).2
    exact ⟨iteratesProject h expressions, hclosed⟩
  | join left right ihl ihr =>
    obtain ⟨-, hchildren⟩ := Nat.max_lt.mp hfuel
    obtain ⟨hl, hlclosed⟩ := ihl hp.1 (Nat.max_lt.mp hchildren).1
    obtain ⟨hr, hrclosed⟩ := ihr hp.2 (Nat.max_lt.mp hchildren).2
    exact ⟨iteratesJoin hl hr, hlclosed, hrclosed⟩
  | scalarGroupBy c child ih =>
    obtain ⟨hrows, hchild⟩ := Nat.max_lt.mp hfuel
    obtain ⟨h, hclosed⟩ := ih hp.2 hchild
    exact ⟨iteratesScalarGroupBy h hp.1 hrows, hclosed, rfl⟩

end Plan

section Executions

variable (op : PhysicalOperator T σ Unit (List V)) (trx : T)

def execute (fuel : ℕ) (s : σ) : Option (List RC × List (Option (List V)) × σ) :=
  let (opened, s) := op.openWith trx s
  (drain (fun s => some (op.next s)) op.tupleNow fuel s).map fun (drained, tuples, s) =>
    let (closed, s) := op.close s
    ([opened, drained, closed], tuples, s)

def executions (fuel : ℕ) : ℕ → σ → Option (List (List RC × List (Option (List V))))
  | 0, _ => some []
  | n + 1, s => (execute op trx fuel s).bind fun (codes, tuples, s) =>
    (executions fuel n s).map fun rest => (codes, tuples) :: rest

variable {op trx} {rows : List (List V)} {fuel : ℕ}

theorem executions_of_iterates (h : Iterates op trx rows) (hfuel : rows.length < fuel) (n : ℕ)
    {s : σ} (hs : h.closed s) : executions op trx fuel n s =
      some (List.replicate n ([.success, .recordEof, .success], rows.map some)) := by
  induction n generalizing s with
  | zero => rfl
  | succ n ih =>
    obtain ⟨hopen, hrest⟩ := h.opens s hs
    obtain ⟨s', hended, hdrain⟩ := drain_of_answers h.steps hrest hfuel
    obtain ⟨hclose, hshut⟩ := h.closes s' hended
    simp [executions, execute, hopen, hdrain, hclose, ih hshut, List.replicate_succ]

/-- However often a plan is opened, drained and closed, each time all calls succeed and its rows are
handed out. -/
theorem plan_executions {T S V A : Type} (p : Plan T S V A) (hp : p.Evaluates) (trx : T) (n : ℕ) :
    ∃ k, ∀ fuel, k ≤ fuel →
      executions (p.operator fuel) trx fuel n (p.start trx) =
        some (List.replicate n ([.success, .recordEof, .success], p.rows.map some)) := by
  refine ⟨max p.longest p.rows.length + 1, fun fuel hfuel => ?_⟩
  obtain ⟨h, hclosed⟩ := p.exists_iterates trx hp (lt_of_le_of_lt (le_max_left _ _) hfuel)
  exact executions_of_iterates h (lt_of_le_of_lt (le_max_right _ _) hfuel) n hclosed

end Executions

def rowScan (rows : List (List ℕ)) : Scan Unit ℕ where
  State := Option ℕ
  rows := rows
  start := none
  op := listScan rows
  iterates _ := listScanIterates rows
  closed _ := rfl

/-- A join of two rows with themselves, the pairs of equal ones, and the sum over them. -/
def sumOfPairs : Plan Unit ℕ ℕ ℕ :=
  .scalarGroupBy
    { keyOf _ := ()
      make t := (.success, ⟨t, []⟩)
      aggregates := [{
        spec := 0
        child t := (.success, t.sum)
        createAggregator := 0
        accumulate value sum := (.success, sum + value)
        evaluate sum := (.success, sum, sum) }] }
    (.project (·.take 1) (.predicate (fun t => (.success, t.head? == t.getLast?))
      (.join (.scan (rowScan [[1], [2]])) (.scan (rowScan [[1], [2]])))))

theorem plan_executions_sumOfPairs : sumOfPairs.rows = [[1, 3]] ∧
    ∃ k, ∀ fuel, k ≤ fuel → executions (sumOfPairs.operator fuel) () fuel 2 (sumOfPairs.start ()) =
      some (List.replicate 2 ([.success, .recordEof, .success], [some [1, 3]])) :=
  ⟨rfl, plan_executions sumOfPairs
    ⟨⟨rfl, by rintro g ⟨⟩; rfl⟩, fun _ _ => rfl, trivial, trivial⟩ () 2⟩

end OperatorPlan
