import LsmStorage.CascadeTermination
import Mathlib.Algebra.Order.Ring.Rat
import Mathlib.Tactic.NormNum
import Mathlib.Tactic.Positivity

/-! # The plan of the cascade optimizer

With the costs of the operators themselves the optimizer plans calculations below filters and
explains. The cost of a projection is its cardinality, and no group has properties to read it
from. -/
namespace Cascade

open BoundedLoop

section Returns

variable {C : Type} {cm : CostModel C} {memo : Memo C} {oper : LogicalOperator} {g : ℕ}

theorem Done.optimizes (h : Done cm memo oper g) (hends : Ends cm oper) :
    ∃ memo', Yields (turn cm) ([.optimizeGroup g], memo) (some memo') ∧ ∀ fuel, g < fuel →
      chooseBestPlan memo' fuel g = some ((bestCost cm oper).bind fun _ => physicalPlan oper) := by
  obtain ⟨memo', -, hsettled, hplanned, hreaches⟩ := h.1 hends
  refine ⟨memo', (Reaches.yields_iff (hreaches []) _).mpr (yields_stop rfl), fun fuel hfuel => ?_⟩
  cases hcost : bestCost cm oper with
  | some cost =>
    exact hplanned (by simp [hcost]) memo' ⟨fun _ _ => rfl, fun _ _ hi _ => hi⟩ fuel hfuel
  | none =>
    rw [hcost] at hsettled
    obtain ⟨group, hgroup, hwinner, -⟩ := hsettled
    obtain ⟨fuel, rfl⟩ := Nat.exists_eq_succ_of_ne_zero (Nat.ne_zero_of_lt hfuel)
    simp [chooseBestPlan, hgroup, hwinner]

/-- The optimizer returns exactly for the trees for which it empties its stack. The plan is the tree
with every operator implemented, or null where the root gets no winner. -/
theorem optimizes_iff (cm : CostModel C) (tree : LogicalOperator) (plan : Option PhysicalPlan) :
    Optimizes cm tree plan ↔ (∀ n ∈ tree.nodes, ¬ n.IsBinaryJoin) ∧ Ends cm tree ∧
      plan = (bestCost cm tree).bind fun _ => physicalPlan tree := by
  constructor
  · rintro ⟨g, memo, memo', hstart, hyields, hplan⟩
    have hends := (yields_iff_ends hstart).mp ⟨memo', hyields⟩
    obtain ⟨_, _, heq, hdone⟩ := start_done hstart
    cases heq
    obtain ⟨memo'', hyields', hchosen⟩ := hdone.optimizes hends
    cases hyields.unique hyields'
    exact ⟨exists_start_iff.mp ⟨_, hstart⟩, hends, eq_of_enough hplan ⟨g + 1, hchosen⟩⟩
  · rintro ⟨hjoins, hends, rfl⟩
    obtain ⟨s, hstart⟩ := exists_start_iff.mpr hjoins
    obtain ⟨g, memo, rfl, hdone⟩ := start_done hstart
    obtain ⟨memo', hyields, hchosen⟩ := hdone.optimizes hends
    exact ⟨g, memo, memo', hstart, hyields, g + 1, hchosen⟩

end Returns

section SourceCosts

/-- The greatest finite `double`. -/
def doubleMax : ℚ := (2 ^ 53 - 1) * 2 ^ 971

theorem doubleMax_pos : 0 < doubleMax := mul_pos (by norm_num) (by positivity)

/-- The costs of the source. A `double` is the rational number that it stands for: the only sums
that are computed are of zeros. -/
def sourceCosts : CostModel ℚ where
  zero := 0
  add a b := a + b
  lt a b := a < b
  max := doubleMax
  costLb := -1
  costLb_le := decide_eq_false (not_lt.mpr (le_trans (by norm_num) doubleMax_pos.le))
  calculateCost
    | .physical (.project _) _, prop, _ => prop.map fun p => 2 / 100000 * p.card
    | _, _, _ => some 0

theorem ownCost_eq_zero {type : PhysicalOperatorType}
    (h : ∀ expressions, type ≠ .project expressions) (children : List LogicalOperator) :
    ownCost sourceCosts type children = some 0 := by
  cases type <;> first | exact absurd rfl (h _) | exact congrArg some (add_zero (0 : ℚ))

theorem accept_zero : accept sourceCosts 0 = some 0 := if_pos (decide_eq_true doubleMax_pos)

theorem bestCost_above_zero {oper child : LogicalOperator} {rule : Rule}
    {type : PhysicalOperatorType} (hmade : implement oper = .made rule type)
    (hchild : oper.children = [child]) (htype : ∀ expressions, type ≠ .project expressions)
    (hcost : bestCost sourceCosts child = some 0) : bestCost sourceCosts oper = some 0 := by
  have hsum : sourceCosts.add 0 0 = 0 := add_zero (0 : ℚ)
  have hmuch : sourceCosts.lt sourceCosts.max 0 = false :=
    decide_eq_false (not_lt.mpr doubleMax_pos.le)
  rw [bestCost_of_made hmade, ownCost_eq_zero htype, Option.bind_some, hchild, List.map_singleton,
    hcost, totalCost, Option.bind_some, hsum, hmuch]
  exact accept_zero

/-- The plans of the trees in which explains and filters with a boolean expression stand over a
calculation. -/
inductive Plans : LogicalOperator → PhysicalPlan → Prop
  | ofCalc (expressions : List SqlExpression.Expression) :
    Plans (.mk .calc expressions []) ⟨.calc expressions, []⟩
  | ofExplain {expressions : List SqlExpression.Expression} {child : LogicalOperator}
    {plan : PhysicalPlan} (below : Plans child plan) :
    Plans (.mk .explain expressions [child]) ⟨.explain, [some plan]⟩
  | ofPredicate {expression : SqlExpression.Expression} {child : LogicalOperator}
    {plan : PhysicalPlan} (boolean : expression.valueType = .booleans)
    (below : Plans child plan) :
    Plans (.mk .predicate [expression] [child]) ⟨.predicate expression, [some plan]⟩

theorem Plans.planned {oper : LogicalOperator} {plan : PhysicalPlan} (h : Plans oper plan) :
    bestCost sourceCosts oper = some 0 ∧ physicalPlan oper = some plan := by
  induction h with
  | ofCalc expressions =>
    refine ⟨?_, by rw [physicalPlan]; rfl⟩
    rw [bestCost_of_made rfl, ownCost_eq_zero (by simp)]
    exact accept_zero
  | ofExplain below ih =>
    refine ⟨bestCost_above_zero rfl rfl (by simp) ih.1, ?_⟩
    rw [physicalPlan]
    simp only [implement, List.map_singleton, ih.2]
  | @ofPredicate expression child plan boolean below ih =>
    have hmade : implement (.mk .predicate [expression] [child]) =
        .made .logicalPredicateToPredicate (.predicate expression) := if_pos boolean
    refine ⟨bestCost_above_zero hmade rfl (by simp) ih.1, ?_⟩
    rw [physicalPlan, hmade, List.map_singleton, ih.2]

theorem plans_of_ends {oper : LogicalOperator} {rule : Rule} {type : PhysicalOperatorType}
    (hmade : implement oper = .made rule type) (hends : Ends sourceCosts oper) :
    ∃ plan, Plans oper plan := by
  induction oper using LogicalOperator.ind generalizing rule type with
  | mk operType expressions children ih =>
    obtain ⟨hown, hchildren⟩ := (ends_of_made hmade).mp hends
    -- a child that gets a winner is implemented, and its own child gets one
    have hbelow : ∀ c ∈ children, ∃ plan, Plans c plan := by
      intro c hc
      have hsome := hchildren c hc
      cases hc' : implement c with
      | unmatched => exact absurd (bestCost_of_not_made (by simp [hc'])) hsome
      | fails _ => exact absurd (bestCost_of_not_made (by simp [hc'])) hsome
      | made _ _ => exact ih c hc hc' (ends_of_bestCost hsome)
    rcases made_cases hmade with ⟨_, _, -, -, rfl⟩ | ⟨_, c, heq, -⟩ | ⟨_, heq, -⟩ |
      ⟨e, c, heq, hboolean, -⟩
    · exact absurd rfl hown
    · cases heq
      obtain ⟨plan, hplan⟩ := hbelow c (List.mem_singleton_self c)
      exact ⟨_, .ofExplain hplan⟩
    · cases heq
      exact ⟨_, .ofCalc _⟩
    · cases heq
      obtain ⟨plan, hplan⟩ := hbelow c (List.mem_singleton_self c)
      exact ⟨_, .ofPredicate hboolean hplan⟩

/-- With the costs of the source, the optimizer returns null for a tree whose root no rule matches,
and a plan for explains and boolean filters over a calculation. For no other tree does it return. -/
theorem optimize_returns_iff (tree : LogicalOperator) (plan : Option PhysicalPlan) :
    Optimizes sourceCosts tree plan ↔ (∀ n ∈ tree.nodes, ¬ n.IsBinaryJoin) ∧
      (implement tree = .unmatched ∧ plan = none ∨ ∃ p, Plans tree p ∧ plan = some p) := by
  rw [optimizes_iff]
  refine and_congr_right fun _ => ?_
  constructor
  · rintro ⟨hends, rfl⟩
    cases hmade : implement tree with
    | unmatched => exact .inl ⟨rfl, by rw [bestCost_of_not_made (by simp [hmade])]; rfl⟩
    | fails rule =>
      rw [Ends, hmade] at hends
      exact hends.elim
    | made rule type =>
      obtain ⟨p, hp⟩ := plans_of_ends hmade hends
      obtain ⟨hcost, hplan⟩ := hp.planned
      exact .inr ⟨p, hp, by rw [hcost, Option.bind_some, hplan]⟩
  · rintro (⟨hunmatched, rfl⟩ | ⟨p, hp, rfl⟩)
    · refine ⟨?_, by rw [bestCost_of_not_made (by simp [hunmatched])]; rfl⟩
      rw [Ends, hunmatched]
      trivial
    · obtain ⟨hcost, hplan⟩ := hp.planned
      exact ⟨ends_of_bestCost (by simp [hcost]), by rw [hcost, Option.bind_some, hplan]⟩

end SourceCosts

end Cascade
