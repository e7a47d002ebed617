import LsmStorage.HeapChain
import LsmStorage.LogicalRewriter

/-! # PhysicalPlanGenerator::create after rewriting

The generator asserts how many children and expressions an operator has. The elimination of a
constant filter takes it out together with what is below it, also where the operator above needs
a child. -/
namespace PhysicalPlan

open ResultCode SqlExpression LogicalRewriter LogicalOperator Rewriter LogicalOperator

mutual

/-- The code that is returned; `none` is an assertion that does not hold. -/
def create : LogicalOperator → Option RC
  | .mk .calc _ _ | .mk (.tableGet _) _ _ | .mk .insert _ _ => some .success
  | .mk .predicate expressions [child] =>
    (create child).bind fun rc =>
      if rc ≠ .success then some rc
      else if expressions.length = 1 then some .success else none
  | .mk .projection _ (child :: _) | .mk .delete _ (child :: _) => create child
  | .mk .projection _ [] | .mk .delete _ [] => some .success
  | .mk .explain _ children => createChildren children
  | .mk (.join _) _ children =>
    if children.length ≠ 2 then some .internal else createChildren children
  | .mk .groupBy _ [child] => create child
  | .mk .predicate _ _ | .mk .groupBy _ _ => none

def createChildren : List LogicalOperator → Option RC
  | [] => some .success
  | child :: children =>
    (create child).bind fun rc => if rc ≠ .success then some rc else createChildren children

end

def reached : LogicalOperatorType → List LogicalOperator → List LogicalOperator
  | .calc, _ | .tableGet _, _ | .insert, _ => []
  | .projection, children | .delete, children => children.take 1
  | .predicate, children | .explain, children | .join _, children | .groupBy, children => children

def Fits : LogicalOperatorType → ℕ → ℕ → Prop
  | .predicate, expressions, children => children = 1 ∧ expressions = 1
  | .groupBy, _, children => children = 1
  | .join _, _, children => children = 2
  | _, _, _ => True

inductive Throughout (reach : LogicalOperatorType → List LogicalOperator → List LogicalOperator) :
    LogicalOperator → Prop
  | mk {type : LogicalOperatorType} {expressions : List Expression}
      {children : List LogicalOperator} (hfits : Fits type expressions.length children.length)
      (hbelow : ∀ c ∈ reach type children, Throughout reach c) :
      Throughout reach (.mk type expressions children)

def WellFormed : LogicalOperator → Prop := Throughout fun _ children => children

def Implementable : LogicalOperator → Prop := Throughout reached

section Generator

variable {children : List LogicalOperator}

theorem mem_of_mem_reached {type : LogicalOperatorType} {c : LogicalOperator}
    (h : c ∈ reached type children) : c ∈ children := by
  cases type <;> first | exact h | exact List.mem_of_mem_take h | cases h

theorem reached_map (type : LogicalOperatorType) (f : LogicalOperator → LogicalOperator)
    (children : List LogicalOperator) :
    reached type (children.map f) = (reached type children).map f := by
  cases type <;> simp [reached]

theorem bind_success (o : Option RC) :
    (o.bind fun rc => if rc ≠ .success then some rc else some .success) = o := by
  cases o with
  | none => rfl
  | some rc =>
    rw [Option.bind_some]
    by_cases hrc : rc = .success
    · rw [if_neg (not_not.mpr hrc), hrc]
    · rw [if_pos hrc]

theorem createChildren_singleton (child : LogicalOperator) :
    createChildren [child] = create child := by
  rw [createChildren, createChildren, bind_success]

theorem create_of_fits {type : LogicalOperatorType} {expressions : List Expression}
    (h : Fits type expressions.length children.length) :
    create (.mk type expressions children) = createChildren (reached type children) := by
  cases type with
  | predicate =>
    obtain ⟨hchildren, hexpressions⟩ := h
    obtain ⟨child, rfl⟩ := List.length_eq_one_iff.mp hchildren
    rw [create, reached, createChildren_singleton]
    simp only [if_pos hexpressions]
    exact bind_success _
  | projection =>
    cases children with
    | nil => simp [create, reached, createChildren]
    | cons child rest =>
      rw [create, reached, List.take_succ_cons, List.take_zero, createChildren_singleton]
  | delete =>
    cases children with
    | nil => simp [create, reached, createChildren]
    | cons child rest =>
      rw [create, reached, List.take_succ_cons, List.take_zero, createChildren_singleton]
  | explain => rw [create, reached]
  | join =>
    have hlength : children.length = 2 := h
    rw [create, if_neg (not_not.mpr hlength), reached]
  | groupBy =>
    obtain ⟨child, rfl⟩ := List.length_eq_one_iff.mp h
    rw [create, reached, createChildren_singleton]
  | _ => rw [create, reached, createChildren]

theorem createChildren_success (h : ∀ c ∈ children, create c = some .success) :
    createChildren children = some .success := by
  induction children with
  | nil => rw [createChildren]
  | cons child children ih =>
    obtain ⟨hchild, hrest⟩ := List.forall_mem_cons.mp h
    rw [createChildren, hchild, Option.bind_some, if_neg (not_not.mpr rfl), ih hrest]

theorem createChildren_none (h : ∀ c ∈ children, create c = some .success ∨ create c = none)
    (hnone : ∃ c ∈ children, create c = none) : createChildren children = none := by
  induction children with
  | nil =>
    obtain ⟨c, hc, -⟩ := hnone
    cases hc
  | cons child children ih =>
    obtain ⟨hchild, hrest⟩ := List.forall_mem_cons.mp h
    rw [createChildren]
    rcases hchild with hchild | hchild
    · rw [hchild, Option.bind_some, if_neg (not_not.mpr rfl)]
      apply ih hrest
      obtain ⟨c, hc, hfails⟩ := hnone
      rcases List.mem_cons.mp hc with rfl | hc
      · rw [hchild] at hfails
        cases hfails
      · exact ⟨c, hc, hfails⟩
    · rw [hchild, Option.bind_none]

theorem create_of_implementable {plan : LogicalOperator} (h : Implementable plan) :
    create plan = some .success := by
  induction h with
  | mk hfits _ ih =>
    rw [create_of_fits hfits]
    exact createChildren_success ih

end Generator

section Rules

open PredicatePushdownRewriter SqlExpression.ExpressionRewriter

/-- What the rules do to the expression of a filter: they simplify it, or take out of it what can go
to the table. -/
inductive Turns : Expression → Expression → Prop
  | simplified (e : Expression) : Turns e (rewriteExpression e).1
  | pushed {e : Expression} {left : Option Expression} {moved : List Expression}
      (h : getExprsCanPushdown e = (.success, left, moved)) : Turns e (orTrue left)

def Become : List Expression → List Expression → Prop :=
  List.Forall₂ (Relation.ReflTransGen Turns)

end Rules

section Pass

variable {oper : LogicalOperator} {children : List LogicalOperator} {type : LogicalOperatorType}
  {n : ℕ}

/-- A pass comes to an operator that needs a child, and its only child filters by a constant that
is false. -/
inductive Starves : LogicalOperator → Prop
  | here {oper : LogicalOperator} {v : Value} {grandChildren : List LogicalOperator}
      (hneeds : oper.type = .predicate ∨ oper.type = .groupBy)
      (hfilter : (ExpressionRewriter.rewrite oper).1.children =
        [.mk .predicate [.value v] grandChildren])
      (hfalse : v.getBoolean = false) : Starves oper
  | child {oper c : LogicalOperator}
      (hc : c ∈ reached oper.type (applyRules oper).2.1.children)
      (h : Starves c) : Starves oper

theorem type_expressionRewriter (oper : LogicalOperator) :
    (ExpressionRewriter.rewrite oper).1.type = oper.type := by
  obtain ⟨type, expressions, children⟩ := oper
  rw [expressionRewriter_mk]
  rfl

theorem expressions_expressionRewriter (oper : LogicalOperator) :
    (ExpressionRewriter.rewrite oper).1.expressions =
      oper.expressions.map fun e => (SqlExpression.ExpressionRewriter.rewriteExpression e).1 := by
  obtain ⟨type, expressions, children⟩ := oper
  rw [expressionRewriter_mk]
  rfl

theorem Throughout.expressionRewriter
    {reach : LogicalOperatorType → List LogicalOperator → List LogicalOperator}
    (hmap : ∀ type (f : LogicalOperator → LogicalOperator) children,
      reach type (children.map f) = (reach type children).map f)
    (h : Throughout reach oper) : Throughout reach (ExpressionRewriter.rewrite oper).1 := by
  induction h with
  | mk hfits _ ih =>
    rw [expressionRewriter_mk]
    refine .mk ?_ ?_
    · rw [List.length_map, List.length_map]
      exact hfits
    · intro c hc
      rw [hmap] at hc
      obtain ⟨d, hd, rfl⟩ := List.mem_map.mp hc
      exact ih d hd

theorem pushdownRewriter_shape (oper : LogicalOperator) :
    (PredicatePushdownRewriter.rewrite oper).2.1.type = oper.type ∧
      (PredicatePushdownRewriter.rewrite oper).2.1.children = oper.children ∧
      ((PredicatePushdownRewriter.rewrite oper).1 = .success →
        Become oper.expressions (PredicatePushdownRewriter.rewrite oper).2.1.expressions) := by
  rcases pushdownRewriter_cases oper with
    heq | ⟨expr, table, exprs, children, rc, left, pushed, rfl, hget, heq⟩
  · rw [heq]
    exact ⟨rfl, rfl, fun _ => List.forall₂_same.mpr fun _ _ => .refl⟩
  · rw [heq]
    split_ifs with hrc
    · exact ⟨rfl, rfl, fun h => absurd h hrc⟩
    · obtain rfl := not_not.mp hrc
      exact ⟨rfl, rfl, fun _ => .cons (.single (.pushed hget)) .nil⟩

theorem predicateRewriteRule_shape (oper : LogicalOperator) :
    (PredicateRewriteRule.rewrite oper).1.type = oper.type ∧
      (PredicateRewriteRule.rewrite oper).1.expressions = oper.expressions := by
  rcases predicateRewriteRule_cases oper with heq | ⟨type, expressions, v, grand, rfl, heq⟩
  · rw [heq]
    exact ⟨rfl, rfl⟩
  · rw [heq]
    exact ⟨rfl, rfl⟩

theorem applyRules_shape (oper : LogicalOperator) :
    (applyRules oper).2.1.type = oper.type ∧
      (applyRules oper).2.1.children =
        (PredicateRewriteRule.rewrite (ExpressionRewriter.rewrite oper).1).1.children ∧
      ((applyRules oper).1 = .success →
        Become oper.expressions (applyRules oper).2.1.expressions) := by
  obtain ⟨hrc, hoper⟩ := applyRules_eq_pushdown oper
  obtain ⟨htype, hexpressions⟩ := predicateRewriteRule_shape (ExpressionRewriter.rewrite oper).1
  obtain ⟨htype', hchildren, hpushed⟩ :=
    pushdownRewriter_shape (PredicateRewriteRule.rewrite (ExpressionRewriter.rewrite oper).1).1
  rw [hrc, hoper]
  refine ⟨htype'.trans (htype.trans (type_expressionRewriter oper)), hchildren, fun h => ?_⟩
  have hbecome := hpushed h
  rw [hexpressions, expressions_expressionRewriter] at hbecome
  exact (List.forall₂_map_left_iff.mp hbecome).imp fun e _ hturns => .head (.simplified e) hturns

theorem reached_singleton (type : LogicalOperatorType) (c : LogicalOperator) :
    reached type [c] = [c] ∨
      (∀ children, reached type children = []) ∧ ∀ expressions children,
        Fits type expressions children := by
  cases type <;> simp [reached, Fits]

theorem fits_grandChildren {expressions filters : List Expression} {grand : List LogicalOperator}
    (hfits : Fits type expressions.length 1)
    (hbelow : ∀ c ∈ reached type [.mk .predicate filters grand], Implementable c) :
    Fits type expressions.length grand.length ∧ ∀ c ∈ reached type grand, Implementable c := by
  rcases reached_singleton type (.mk .predicate filters grand) with hon | ⟨hnone, hany⟩
  · rw [hon] at hbelow
    cases hbelow _ List.mem_cons_self with
    | mk hfilter hgrand =>
      rw [hfilter.1]
      exact ⟨hfits, fun c hc => hgrand c (mem_of_mem_reached hc)⟩
  · rw [hnone]
    exact ⟨hany _ _, List.forall_mem_nil _⟩

theorem Implementable.applyRules (h : Implementable oper) :
    ((oper.type = .predicate ∨ oper.type = .groupBy) ∧
      (∃ v grandChildren, (ExpressionRewriter.rewrite oper).1.children =
        [.mk .predicate [.value v] grandChildren] ∧ v.getBoolean = false) ∧
      (applyRules oper).2.1.children = []) ∨
    (Fits oper.type oper.expressions.length (applyRules oper).2.1.children.length ∧
      ∀ c ∈ reached oper.type (applyRules oper).2.1.children, Implementable c) := by
  have hsimplified := Throughout.expressionRewriter reached_map h
  have htype := type_expressionRewriter oper
  have hlength : (ExpressionRewriter.rewrite oper).1.expressions.length =
      oper.expressions.length := by rw [expressions_expressionRewriter, List.length_map]
  rw [(applyRules_shape oper).2.1, ← htype, ← hlength]
  generalize (ExpressionRewriter.rewrite oper).1 = oper' at hsimplified ⊢
  rcases predicateRewriteRule_cases oper' with heq | ⟨type, expressions, v, grand, rfl, heq⟩
  · rw [heq]
    cases hsimplified with
    | mk hfits hbelow => exact .inr ⟨hfits, hbelow⟩
  · rw [heq]
    dsimp only [LogicalOperator.type, LogicalOperator.expressions, LogicalOperator.children]
    cases hsimplified with
    | mk hfits hbelow =>
      cases hv : v.getBoolean with
      | true =>
        rw [if_pos rfl]
        exact .inr (fits_grandChildren hfits hbelow)
      | false =>
        rw [if_neg Bool.false_ne_true]
        cases type with
        | predicate => exact .inl ⟨.inl rfl, ⟨v, grand, rfl, hv⟩, rfl⟩
        | groupBy => exact .inl ⟨.inr rfl, ⟨v, grand, rfl, hv⟩, rfl⟩
        | join => cases hfits
        | _ => exact .inr ⟨trivial, fun c hc => absurd (mem_of_mem_reached hc) List.not_mem_nil⟩

theorem rewriteChildren_success (h : (rewriteChildren children).1 = .success) :
    (Rewriter.rewriteChildren children).2.1 = children.map (fun c => (Rewriter.rewrite c).2.1) ∧
      ∀ c ∈ children, (Rewriter.rewrite c).1 = .success := by
  induction children with
  | nil => simp [rewriteChildren]
  | cons c children ih =>
    rw [rewriteChildren] at h ⊢
    dsimp only at h ⊢
    split_ifs at h ⊢ with hrc
    · exact absurd h hrc
    · obtain ⟨hmap, hrest⟩ := ih h
      refine ⟨?_, List.forall_mem_cons.mpr ⟨not_not.mp hrc, hrest⟩⟩
      rw [List.map_cons, ← hmap]

theorem rewrite_success (h : (Rewriter.rewrite oper).1 = .success) :
    (applyRules oper).1 = .success ∧
      (Rewriter.rewrite oper).2.1 = .mk (Rewriter.applyRules oper).2.1.type
        (applyRules oper).2.1.expressions
        ((Rewriter.applyRules oper).2.1.children.map fun c => (Rewriter.rewrite c).2.1) ∧
      ∀ c ∈ (Rewriter.applyRules oper).2.1.children, (Rewriter.rewrite c).1 = .success := by
  rw [Rewriter.rewrite] at h ⊢
  dsimp only at h ⊢
  split_ifs at h ⊢ with hrc
  · exact absurd h hrc
  · obtain ⟨hmap, hrest⟩ := rewriteChildren_success h
    refine ⟨not_not.mp hrc, ?_, hrest⟩
    rw [hmap]

theorem create_childless (expressions : List Expression) (h : type = .predicate ∨ type = .groupBy) :
    create (.mk type expressions []) = none := by
  rcases h with rfl | rfl
  · simp [create]
  · simp [create]

theorem applyRules_children_of_false {v : Value} {grand : List LogicalOperator}
    (hfilter : (ExpressionRewriter.rewrite oper).1.children =
      [.mk .predicate [.value v] grand])
    (hfalse : v.getBoolean = false) : (applyRules oper).2.1.children = [] := by
  rw [(applyRules_shape oper).2.1]
  generalize (ExpressionRewriter.rewrite oper).1 = oper' at hfilter
  obtain ⟨type, expressions, children⟩ := oper'
  obtain rfl : children = _ := hfilter
  rw [PredicateRewriteRule.rewrite, if_neg (by rw [hfalse]; decide)]
  rfl

theorem Starves.below_of_fits (h : Starves oper)
    (hfits : Fits oper.type n (applyRules oper).2.1.children.length) :
    ∃ c ∈ reached oper.type (applyRules oper).2.1.children, Starves c := by
  cases h with
  | here hneeds hfilter hfalse =>
    rw [applyRules_children_of_false hfilter hfalse] at hfits
    rcases hneeds with htype | htype
    · rw [htype] at hfits
      cases hfits.1
    · rw [htype] at hfits
      cases hfits
  | child hc hchild => exact ⟨_, hc, hchild⟩

theorem Implementable.rewrite (h : Implementable oper)
    (hsuccess : (Rewriter.rewrite oper).1 = .success) :
    (¬ Starves oper ∧ Implementable (Rewriter.rewrite oper).2.1) ∨
      (Starves oper ∧ create (Rewriter.rewrite oper).2.1 = none) := by
  induction oper using Rewriter.ind with
  | step oper ih =>
    obtain ⟨hrules, hrewrite, hchildren⟩ := rewrite_success hsuccess
    obtain ⟨htype, -, hbecome⟩ := applyRules_shape oper
    rw [hrewrite, htype]
    rcases h.applyRules with ⟨hneeds, ⟨v, grand, hfilter, hfalse⟩, hnil⟩ | ⟨hfits, hbelow⟩
    · rw [hnil]
      exact .inr ⟨.here hneeds hfilter hfalse, create_childless _ hneeds⟩
    · rw [(hbecome hrules).length_eq] at hfits
      have hlater := fun c hc => ih c (mem_of_mem_reached hc) (hbelow c hc)
        (hchildren c (mem_of_mem_reached hc))
      have hfits' : Fits oper.type (Rewriter.applyRules oper).2.1.expressions.length
          ((Rewriter.applyRules oper).2.1.children.map fun c =>
            (Rewriter.rewrite c).2.1).length := by
        rw [List.length_map]
        exact hfits
      by_cases hstarves : ∃ c ∈ reached oper.type (Rewriter.applyRules oper).2.1.children, Starves c
      · obtain ⟨c, hc, hstarves⟩ := hstarves
        refine .inr ⟨.child hc hstarves, ?_⟩
        rw [create_of_fits hfits', reached_map]
        apply createChildren_none
        · intro d hd
          obtain ⟨e, he, rfl⟩ := List.mem_map.mp hd
          rcases hlater e he with ⟨-, hon⟩ | ⟨-, hnone⟩
          · exact .inl (create_of_implementable hon)
          · exact .inr hnone
        · refine ⟨_, List.mem_map_of_mem hc, ?_⟩
          rcases hlater c hc with ⟨hnot, -⟩ | ⟨-, hnone⟩
          · exact absurd hstarves hnot
          · exact hnone
      · refine .inl ⟨?_, .mk hfits' ?_⟩
        · exact fun hst => hstarves (hst.below_of_fits hfits)
        · intro d hd
          rw [reached_map] at hd
          obtain ⟨e, he, rfl⟩ := List.mem_map.mp hd
          rcases hlater e he with ⟨-, hon⟩ | ⟨hst, -⟩
          · exact hon
          · exact absurd ⟨e, he, hst⟩ hstarves

end Pass

section Nourished

variable {oper : LogicalOperator} {type : LogicalOperatorType} {expressions : List Expression}
  {children : List LogicalOperator}

def NeedsChild (type : LogicalOperatorType) : Prop := type = .predicate ∨ type = .groupBy

/-- A filter that the rules can make one by a constant that is false. -/
def FalseFilter (oper : LogicalOperator) : Prop :=
  oper.type = .predicate ∧ ∃ e ∈ oper.expressions, ∃ v, Relation.ReflTransGen Turns e (.value v) ∧
    v.getBoolean = false

/-- No filter and no group-by operator that the generator reaches stands directly over a filter that
the rules can make false. Below an operator that does without a child such a filter goes away with
all that is below it. -/
inductive Nourished : LogicalOperator → Prop
  | mk {type : LogicalOperatorType} {expressions : List Expression}
      {children : List LogicalOperator} (fed : NeedsChild type → ∀ c ∈ children, ¬ FalseFilter c)
      (below : ∀ c ∈ reached type children, Nourished c) :
      Nourished (.mk type expressions children)
  | cleared {type : LogicalOperatorType} {expressions : List Expression} {v : Value}
      {grandChildren : List LogicalOperator} (needless : ¬ NeedsChild type)
      (isFalse : v.getBoolean = false) :
      Nourished (.mk type expressions [.mk .predicate [.value v] grandChildren])

theorem falseFilter_of_become {oper' : LogicalOperator} (h : FalseFilter oper')
    (htype : oper'.type = oper.type) (hbecome : Become oper.expressions oper'.expressions) :
    FalseFilter oper := by
  obtain ⟨hfilter, e', he', v, hturns, hfalse⟩ := h
  obtain ⟨e, he, hbefore⟩ := HeapChain.exists_mem_of_forall₂ hbecome he'
  exact ⟨htype ▸ hfilter, e, he, v, hbefore.trans hturns, hfalse⟩

theorem falseFilter_of_rewrite (hsuccess : (Rewriter.rewrite oper).1 = .success)
    (h : FalseFilter (Rewriter.rewrite oper).2.1) : FalseFilter oper := by
  obtain ⟨hrules, hrewrite, -⟩ := rewrite_success hsuccess
  rw [hrewrite] at h
  exact falseFilter_of_become h (applyRules_shape oper).1 ((applyRules_shape oper).2.2 hrules)

theorem falseFilter_of_expressionRewriter (h : FalseFilter (ExpressionRewriter.rewrite oper).1) :
    FalseFilter oper := by
  refine falseFilter_of_become h (type_expressionRewriter oper) ?_
  rw [expressions_expressionRewriter, Become, List.forall₂_map_right_iff]
  exact List.forall₂_same.mpr fun e _ => .single (.simplified e)

theorem Nourished.expressionRewriter (h : Nourished oper) :
    Nourished (ExpressionRewriter.rewrite oper).1 := by
  induction h with
  | mk fed _ ih =>
    rw [expressionRewriter_mk]
    refine .mk (fun hneeds c hc hfalse => ?_) fun c hc => ?_
    · obtain ⟨d, hd, rfl⟩ := List.mem_map.mp hc
      exact fed hneeds d hd (falseFilter_of_expressionRewriter hfalse)
    · rw [reached_map] at hc
      obtain ⟨d, hd, rfl⟩ := List.mem_map.mp hc
      exact ih d hd
  | cleared needless isFalse =>
    rw [expressionRewriter_mk, List.map_singleton, expressionRewriter_mk, List.map_singleton,
      SqlExpression.ExpressionRewriter.rewriteExpression_value]
    exact .cleared needless isFalse

/-- What is needed of the operator that the rules leave, before its children are rewritten. -/
theorem Nourished.applyRules (h : Nourished oper) :
    (NeedsChild oper.type → ∀ c ∈ (applyRules oper).2.1.children, ¬ FalseFilter c) ∧
      ∀ c ∈ reached oper.type (applyRules oper).2.1.children, Nourished c := by
  rw [(applyRules_shape oper).2.1, ← type_expressionRewriter oper]
  have h := h.expressionRewriter
  generalize (ExpressionRewriter.rewrite oper).1 = oper' at h ⊢
  rcases predicateRewriteRule_cases oper' with heq | ⟨type, expressions, v, grand, rfl, heq⟩
  · rw [heq]
    cases h with
    | mk fed below => exact ⟨fed, below⟩
    | @cleared type expressions v grand needless isFalse =>
      rw [PredicateRewriteRule.rewrite] at heq
      split at heq
      · cases heq
      · cases heq
  · rw [heq]
    dsimp only [LogicalOperator.type, LogicalOperator.children]
    cases hv : v.getBoolean with
    | false =>
      rw [if_neg Bool.false_ne_true]
      exact ⟨fun _ c hc => absurd hc List.not_mem_nil,
        fun c hc => absurd (mem_of_mem_reached hc) List.not_mem_nil⟩
    | true =>
      rw [if_pos rfl]
      cases h with
      | cleared _ isFalse => cases hv.symm.trans isFalse
      | mk fed below =>
        rcases reached_singleton type (.mk .predicate [.value v] grand) with hon | ⟨hnone, -⟩
        · rw [hon] at below
          cases below _ List.mem_cons_self with
          | mk fed' below' =>
            exact ⟨fun _ => fed' (.inl rfl), fun c hc => below' c (mem_of_mem_reached hc)⟩
          | cleared needless => exact absurd (.inl rfl) needless
        · rw [hnone]
          refine ⟨fun hneeds => ?_, List.forall_mem_nil _⟩
          rcases hneeds with rfl | rfl
          · cases hnone [.mk .predicate [.value v] grand]
          · cases hnone [.mk .predicate [.value v] grand]

theorem Nourished.rewrite (h : Nourished oper) (hsuccess : (Rewriter.rewrite oper).1 = .success) :
    Nourished (Rewriter.rewrite oper).2.1 := by
  induction oper using Rewriter.ind with
  | step oper ih =>
    obtain ⟨-, hrewrite, hchildren⟩ := rewrite_success hsuccess
    obtain ⟨fed, below⟩ := h.applyRules
    rw [hrewrite, (applyRules_shape oper).1]
    refine .mk (fun hneeds c hc hfalse => ?_) fun c hc => ?_
    · obtain ⟨d, hd, rfl⟩ := List.mem_map.mp hc
      exact fed hneeds d hd (falseFilter_of_rewrite (hchildren d hd) hfalse)
    · rw [reached_map] at hc
      obtain ⟨d, hd, rfl⟩ := List.mem_map.mp hc
      have hd' := mem_of_mem_reached hd
      exact ih d hd' (below d hd) (hchildren d hd')

end Nourished

section Passes

variable {plan plan' : LogicalOperator} {n : ℕ}

def passes : ℕ → LogicalOperator → Option LogicalOperator
  | 0, plan => some plan
  | n + 1, plan =>
    if (Rewriter.rewrite plan).1 = .success then passes n (Rewriter.rewrite plan).2.1 else none

theorem passes_succ :
    passes (n + 1) plan = some plan' ↔
      (Rewriter.rewrite plan).1 = .success ∧ passes n (Rewriter.rewrite plan).2.1 = some plan' := by
  rw [passes]
  split_ifs with hrc <;> simp [hrc]

theorem Nourished.passes (h : Nourished plan) (hpasses : passes n plan = some plan') :
    Nourished plan' := by
  induction n generalizing plan with
  | zero =>
    cases hpasses
    exact h
  | succ n ih =>
    obtain ⟨hsuccess, hrest⟩ := passes_succ.mp hpasses
    exact ih (h.rewrite hsuccess) hrest

end Passes

end PhysicalPlan
