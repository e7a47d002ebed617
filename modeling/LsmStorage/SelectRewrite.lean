import LsmStorage.RewriteRows
import Mathlib.Data.List.Induction

/-! # The plans that are made for a SELECT

The generator puts the conditions of a `SELECT` as one `AND` over its joined tables. Over a
single table the rewriter moves all of them and drops them, so the rows are preserved exactly
when there is no condition, or not one table. -/
namespace SelectRewrite

open ResultCode SqlExpression LogicalRewriter LogicalOperator RewriteRows Rewriter LogicalOperator

abbrev getOf (table : ℕ) : LogicalOperator := .mk (.tableGet table) [] []

def addTable : Option LogicalOperator → ℕ → Option LogicalOperator
  | none, table => some (getOf table)
  | some oper, table => some (.mk (.join []) [] [oper, getOf table])

def tableOper (tables : List ℕ) : Option LogicalOperator := tables.foldl addTable none

/-- `LogicalPlanGenerator::create_plan` of a `SELECT` without groups, with the comparisons that
were made of its conditions. -/
def createPlan (queryExpressions cmpExprs : List Expression) (tables : List ℕ) :
    LogicalOperator :=
  let lastOper :=
    if cmpExprs.isEmpty then tableOper tables
    else some (.mk .predicate [.conjunction .and cmpExprs] (tableOper tables).toList)
  .mk .projection queryExpressions lastOper.toList

theorem createPlan_singleton (query : List Expression) {cmpExprs : List Expression}
    (hne : cmpExprs ≠ []) (table : ℕ) :
    createPlan query cmpExprs [table] =
      .mk .projection query [.mk .predicate [.conjunction .and cmpExprs] [getOf table]] := by
  rw [createPlan, if_neg (by simpa using hne)]
  rfl

inductive Operand : Expression → Prop where
  | atom {e} : isAtom e = true → Operand e
  | cast {e castType} : isAtom e = true → Operand (.cast e castType)

inductive Condition : Expression → Prop where
  | comparison {comp left right} : Operand left → Operand right →
    Condition (.comparison comp left right)

open SqlExpression.ExpressionRewriter in
theorem Operand.fixed {e : Expression} (h : Operand e) :
    Simplified true e ∧ rewriteExpression e = (e, false) := by
  cases h with
  | atom h => exact ⟨.atom h, rewriteExpression_atom h⟩
  | cast h =>
    refine ⟨.cast (.atom h), ?_⟩
    rw [rewriteExpression_eq, applyRules_eq]
    simp [ConjunctionSimplificationRule.rewrite, descend, rewriteExpression_atom h]

open SqlExpression.ExpressionRewriter in
theorem Condition.fixed {e : Expression} (h : Condition e) :
    Simplified false e ∧ rewriteExpression e = (e, false) := by
  cases h with
  | comparison hl hr =>
    refine ⟨.comparison hl.fixed.1 hr.fixed.1, ?_⟩
    rw [rewriteExpression_eq, applyRules_eq]
    simp [ConjunctionSimplificationRule.rewrite, descend, hl.fixed.2, hr.fixed.2]

/-- The expression of the filter, and what the rewriter makes of it. -/
inductive Where : Expression → Prop where
  | condition {e} (h : Condition e) : Where e
  | conjunction {children} (nonempty : children ≠ []) (all : ∀ c ∈ children, Condition c) :
    Where (.conjunction .and children)

theorem Condition.tryToGetBoolConstant {e : Expression} (h : Condition e) :
    e.tryToGetBoolConstant = none := by
  cases h
  rfl


open ConjunctionSimplificationRule SqlExpression.ExpressionRewriter in
theorem Where.rewriteExpression {e : Expression} (h : Where e) :
    Simplified false e ∧ Where (rewriteExpression e).1 := by
  cases h with
  | condition h =>
    rw [h.fixed.2]
    exact ⟨h.fixed.1, .condition h⟩
  | @conjunction children nonempty all =>
    have hundecided : Undecided .and children := by
      intro c hc
      simp [(all c hc).tryToGetBoolConstant]
    have hkept : kept .and children = children := by
      rw [kept, List.filter_eq_self]
      intro c hc
      simp [(all c hc).tryToGetBoolConstant]
    by_cases hone : children.length = 1
    · obtain ⟨child, rfl⟩ := List.length_eq_one_iff.mp hone
      rw [rewriteExpression_single hundecided hkept]
      exact ⟨.single hundecided hkept (by simp), .condition (all child List.mem_cons_self)⟩
    · have hfixed : children.map (fun c => (ExpressionRewriter.rewriteExpression c).1) =
          children := by
        conv_rhs => rw [← List.map_id children]
        exact List.map_congr_left fun c hc => by rw [(all c hc).fixed.2]; rfl
      rw [rewriteExpression_many hundecided (hkept.symm ▸ hone), hkept, hfixed]
      exact ⟨.conjunction hundecided (hkept.symm ▸ hone)
        (hkept.symm ▸ fun c hc => (all c hc).fixed.1), .conjunction nonempty all⟩

open PredicatePushdownRewriter in
theorem Where.pushdown {e : Expression} (h : Where e) :
    ∃ left pushdownExprs, getExprsCanPushdown e = (.success, left, pushdownExprs) ∧
      pushdownExprs ≠ [] ∧ orTrue left = .value (.booleans true) := by
  cases h with
  | condition h =>
    cases h
    exact ⟨none, _, by rw [getExprsCanPushdown], by simp, rfl⟩
  | @conjunction children nonempty all =>
    have hchildren : pushdownChildren children = (.success, [], children) := by
      clear nonempty
      induction children with
      | nil => rw [pushdownChildren]
      | cons c children ih =>
        have hrest := ih fun x hx => all x (List.mem_cons_of_mem _ hx)
        cases all c List.mem_cons_self
        rw [pushdownChildren, getExprsCanPushdown, hrest]
        rfl
    refine ⟨some (.conjunction .and []), children, ?_, nonempty, rfl⟩
    rw [getExprsCanPushdown, hchildren]

theorem expressionRewriter_getOf (table : ℕ) :
    ExpressionRewriter.rewrite (getOf table) = (getOf table, false) := by
  rw [expressionRewriter_mk]
  rfl

theorem rewriteChildren_singleton {c c' : LogicalOperator} {changed : Bool}
    (h : Rewriter.rewrite c = (.success, c', changed)) :
    rewriteChildren [c] = (.success, [c'], changed) := by
  simp [rewriteChildren, h]

theorem rewrite_of_rules {oper : LogicalOperator} {type : LogicalOperatorType}
    {exprs : List Expression} {children children' : List LogicalOperator} {changed changed' : Bool}
    (hrules : applyRules oper = (.success, .mk type exprs children, changed))
    (hchildren : rewriteChildren children = (.success, children', changed')) :
    Rewriter.rewrite oper = (.success, .mk type exprs children', changed || changed') := by
  rw [Rewriter.rewrite, hrules]
  simp [LogicalOperator.children, LogicalOperator.type, LogicalOperator.expressions, hchildren]

theorem rewrite_getOf (table : ℕ) :
    Rewriter.rewrite (getOf table) = (.success, getOf table, false) := by
  have hrules : applyRules (getOf table) = (.success, getOf table, false) := by
    rw [applyRules, expressionRewriter_getOf]
    rfl
  exact rewrite_of_rules hrules (by rw [rewriteChildren])

theorem rewrite_filter {e : Expression} (h : Where e) (table : ℕ) :
    Rewriter.rewrite (.mk .predicate [e] [getOf table]) =
      (.success, .mk .predicate [.value (.booleans true)] [getOf table], true) := by
  obtain ⟨left, pushed, hget, hne, htrue⟩ := h.rewriteExpression.2.pushdown
  have hpushed : (!pushed.isEmpty) = true := by
    cases pushed with
    | nil => exact absurd rfl hne
    | cons p ps => rfl
  have hrules : applyRules (.mk .predicate [e] [getOf table]) =
      (.success, .mk .predicate [.value (.booleans true)] [getOf table], true) := by
    rw [applyRules, expressionRewriter_mk]
    simp [expressionRewriter_getOf, PredicateRewriteRule.rewrite,
      PredicatePushdownRewriter.rewrite, hget, htrue, hpushed]
  exact rewrite_of_rules hrules (rewriteChildren_singleton (rewrite_getOf table))

theorem not_where_value (v : Value) : ¬ Where (.value v) := by
  intro h
  cases h with
  | condition h => cases h

/-- The second rule finds no filter by a constant. -/
theorem predicateRewriteRule_of_where (oper : LogicalOperator)
    (h : ∀ c ∈ oper.children, c.type = .predicate → ∀ e ∈ c.expressions, Where e) :
    PredicateRewriteRule.rewrite oper = (oper, false) ∧ ¬ JoinsBelowFilter oper := by
  have hconstant : ∀ v grand, .mk .predicate [.value v] grand ∉ oper.children :=
    fun v grand hc => not_where_value v (h _ hc rfl _ List.mem_cons_self)
  constructor
  · rcases predicateRewriteRule_cases oper with heq | ⟨type, exprs, v, grand, rfl, -⟩
    · exact heq
    · exact absurd List.mem_cons_self (hconstant v grand)
  · unfold JoinsBelowFilter
    split
    · exact absurd List.mem_cons_self (hconstant _ _)
    · exact not_false

section OneTable

open SqlExpression.ExpressionRewriter

variable {query : List Expression} {e : Expression}

theorem map_atoms (h : ∀ e ∈ query, isAtom e = true) :
    query.map (fun e => (rewriteExpression e).1) = query := by
  rw [List.map_congr_left fun e he => by rw [rewriteExpression_atom (h e he)], List.map_id']

theorem rewrite_projection_filter (hquery : ∀ e ∈ query, isAtom e = true) (h : Where e)
    (table : ℕ) :
    Rewriter.rewrite (.mk .projection query [.mk .predicate [e] [getOf table]]) =
      (.success, .mk .projection query
        [.mk .predicate [.value (.booleans true)] [getOf table]], true) := by
  have hwhere := h.rewriteExpression.2
  have hrule := (predicateRewriteRule_of_where (.mk .projection query
    [.mk .predicate [(rewriteExpression e).1] [getOf table]])
    (by simp [children, expressions, hwhere])).1
  obtain ⟨changed, hrules⟩ : ∃ changed,
      Rewriter.applyRules (.mk .projection query [.mk .predicate [e] [getOf table]]) =
        (.success, .mk .projection query [.mk .predicate [(rewriteExpression e).1] [getOf table]],
          changed) := by
    rw [Rewriter.applyRules, expressionRewriter_mk, map_atoms hquery]
    simp [expressionRewriter_mk, hrule, PredicatePushdownRewriter.rewrite]
  rw [rewrite_of_rules hrules (rewriteChildren_singleton (rewrite_filter hwhere table)),
    Bool.or_true]

theorem rewrite_projection_true (hquery : ∀ e ∈ query, isAtom e = true) (table : ℕ) :
    Rewriter.rewrite (.mk .projection query
        [.mk .predicate [.value (.booleans true)] [getOf table]]) =
      (.success, .mk .projection query [getOf table], true) := by
  have hrules : applyRules (.mk .projection query
      [.mk .predicate [.value (.booleans true)] [getOf table]]) =
        (.success, .mk .projection query [getOf table], true) := by
    rw [Rewriter.applyRules, expressionRewriter_mk, map_atoms hquery]
    simp [expressionRewriter_mk, rewriteExpression_value, PredicateRewriteRule.rewrite,
      Value.getBoolean, PredicatePushdownRewriter.rewrite]
  exact rewrite_of_rules hrules (rewriteChildren_singleton (rewrite_getOf table))

theorem optimizeStage_of_changed {oper oper' : LogicalOperator}
    (h : Rewriter.rewrite oper = (.success, oper', true)) :
    OptimizeStage.rewrite oper = OptimizeStage.rewrite oper' := by
  rw [OptimizeStage.rewrite, h]
  simp

/-- After two passes the filter is gone. -/
theorem optimizeStage_drops_filter (hquery : ∀ e ∈ query, isAtom e = true) (h : Where e)
    (table : ℕ) :
    OptimizeStage.rewrite (.mk .projection query [.mk .predicate [e] [getOf table]]) =
      OptimizeStage.rewrite (.mk .projection query [getOf table]) := by
  rw [optimizeStage_of_changed (rewrite_projection_filter hquery h table),
    optimizeStage_of_changed (rewrite_projection_true hquery table)]

end OneTable

def PreservesRows (oper : LogicalOperator) : Prop :=
  (OptimizeStage.rewrite oper).1 = .success ∧
    ∀ m db, rows m db (OptimizeStage.rewrite oper).2 = rows m db oper

theorem Condition.not_holds {e : Expression} (h : Condition e) (row : Row) :
    holds allFalse row e = false := by
  cases h
  rw [holds, eval]
  rfl

theorem Where.not_holds {e : Expression} (h : Where e) (row : Row) :
    holds allFalse row e = false := by
  cases h with
  | condition h => exact h.not_holds row
  | @conjunction children nonempty all =>
    obtain ⟨c, hc⟩ := List.exists_mem_of_ne_nil children nonempty
    have hmem : (!ConjunctionType.and.neutral) ∈ children.map (holds allFalse row) :=
      List.mem_map.mpr ⟨c, hc, (all c hc).not_holds row⟩
    rw [holds_conjunction, combine_of_mem hmem]
    rfl

section Quiet

variable {oper : LogicalOperator} {type : LogicalOperatorType} {exprs : List Expression}

def Ordinary : LogicalOperatorType → List Expression → Prop
  | .predicate, exprs => ∀ e ∈ exprs, Where e
  | .projection, exprs => ∀ e ∈ exprs, isAtom e = true
  | .tableGet _, exprs => exprs = []
  | _, _ => True

/-- The expressions are those of a `SELECT`, and no filter stands directly over a table. -/
inductive Quiet : LogicalOperator → Prop where
  | mk {type : LogicalOperatorType} {exprs : List Expression} {children : List LogicalOperator}
    (ordinary : Ordinary type exprs)
    (apart : type = .predicate → ∀ c ∈ children, ∀ table, c.type ≠ .tableGet table)
    (below : ∀ c ∈ children, Quiet c) : Quiet (.mk type exprs children)

theorem Ordinary.simplified (h : Ordinary type exprs) : ExprsSimplified type exprs := by
  cases type with
  | predicate => exact fun e he => (h e he).rewriteExpression.1
  | projection => exact fun e he => .atom (h e he)
  | tableGet table =>
    cases h
    exact List.forall_mem_nil _
  | _ => trivial

theorem Ordinary.rewriteExpression (h : Ordinary type exprs) : Ordinary type
    (exprs.map fun e => (SqlExpression.ExpressionRewriter.rewriteExpression e).1) := by
  cases type with
  | predicate => exact List.forall_mem_map.mpr fun e he => (h e he).rewriteExpression.2
  | projection =>
    rw [map_atoms h]
    exact h
  | tableGet table =>
    cases h
    rfl
  | _ => trivial

theorem Quiet.allSimplified (h : Quiet oper) : AllSimplified oper := by
  induction h with
  | mk ordinary _ _ ih => exact .mk ordinary.simplified ih

theorem Quiet.expressionRewriter (h : Quiet oper) : Quiet (ExpressionRewriter.rewrite oper).1 ∧
    (ExpressionRewriter.rewrite oper).1.type = oper.type := by
  induction h with
  | mk ordinary apart _ ih =>
    rw [expressionRewriter_mk]
    refine ⟨.mk ordinary.rewriteExpression (fun htype => List.forall_mem_map.mpr ?_)
      (List.forall_mem_map.mpr fun c hc => (ih c hc).1), rfl⟩
    intro c hc
    rw [(ih c hc).2]
    exact apart htype c hc

theorem Quiet.children (h : Quiet oper) : ∀ c ∈ oper.children, Quiet c := by
  cases h with
  | mk _ _ below => exact below

theorem Quiet.where_of_child (h : Quiet oper) :
    ∀ c ∈ oper.children, c.type = .predicate → ∀ e ∈ c.expressions, Where e := by
  intro c hc htype
  obtain ⟨ordinary, -, -⟩ := h.children c hc
  obtain rfl : _ = _ := htype
  exact ordinary

theorem Quiet.pushdownRewriter (h : Quiet oper) :
    PredicatePushdownRewriter.rewrite oper = (.success, oper, false) ∧ StaysOverTable oper := by
  constructor
  · rcases pushdownRewriter_cases oper with heq | ⟨_, table, _, _, _, _, _, rfl, -, -⟩
    · exact heq
    · cases h with
      | mk _ apart _ => exact absurd rfl (apart rfl _ List.mem_cons_self table)
  · unfold StaysOverTable
    split
    · cases h with
      | mk _ apart _ => exact absurd rfl (apart rfl _ List.mem_cons_self _)
    · trivial

theorem Quiet.applyRules (h : Quiet oper) :
    (applyRules oper).1 = .success ∧
      (applyRules oper).2.1 = (ExpressionRewriter.rewrite oper).1 := by
  obtain ⟨hsimplified, -⟩ := h.expressionRewriter
  obtain ⟨hrc, hoper⟩ := applyRules_eq_pushdown oper
  rw [(predicateRewriteRule_of_where _ hsimplified.where_of_child).1,
    hsimplified.pushdownRewriter.1] at hrc hoper
  exact ⟨hrc, hoper⟩

theorem Quiet.pass (h : Quiet oper) : Clean oper ∧ Quiet (Rewriter.rewrite oper).2.1 ∧
    (Rewriter.rewrite oper).2.1.type = oper.type := by
  induction oper using Rewriter.ind with
  | step oper ih =>
    obtain ⟨hsimplified, htype⟩ := h.expressionRewriter
    obtain ⟨hrc, hoper⟩ := h.applyRules
    obtain ⟨hrule, hjoined⟩ := predicateRewriteRule_of_where _ hsimplified.where_of_child
    have hbelow : ∀ c ∈ (Rewriter.applyRules oper).2.1.children, Quiet c :=
      hoper.symm ▸ hsimplified.children
    have hclean : Clean oper := .mk h.allSimplified hjoined
      (by rw [hrule]; exact hsimplified.pushdownRewriter.2) fun c hc => (ih c hc (hbelow c hc)).1
    obtain ⟨-, hrewrite⟩ := Rewriter.rewrite_of_success hrc fun c hc =>
      ((ih c hc (hbelow c hc)).1.rewrite allFalse fun _ => []).1
    rw [hrewrite]
    refine ⟨hclean, ?_, (congrArg type hoper).trans htype⟩
    rw [← hoper] at hsimplified
    generalize (Rewriter.applyRules oper).2.1 = oper' at hsimplified ih hbelow
    cases hsimplified with
    | mk ordinary apart _ =>
      refine .mk ordinary (fun htype => List.forall_mem_map.mpr fun c hc => ?_)
        (List.forall_mem_map.mpr fun c hc => (ih c hc (hbelow c hc)).2.1)
      rw [(ih c hc (hbelow c hc)).2.2]
      exact apart htype c hc

theorem Quiet.safe (h : Quiet oper) : Safe oper :=
  safe_of_invariant (fun _ h => h.pass.1) (fun _ h => h.pass.2.1) h

theorem quiet_getOf (table : ℕ) : Quiet (getOf table) :=
  .mk rfl (by simp) (List.forall_mem_nil _)

theorem foldl_addTable (tables : List ℕ) (h : Quiet oper) :
    ∃ oper', tables.foldl addTable (some oper) = some oper' ∧ Quiet oper' ∧
      (tables ≠ [] → ∀ table, oper'.type ≠ .tableGet table) := by
  induction tables using List.reverseRecOn with
  | nil => exact ⟨oper, rfl, h, fun hne => absurd rfl hne⟩
  | append_singleton tables table ih =>
    obtain ⟨oper', heq, hquiet, -⟩ := ih
    rw [List.foldl_append, heq]
    refine ⟨_, rfl, .mk trivial (by simp) ?_, fun _ _ => by simp [type]⟩
    simp [hquiet, quiet_getOf table]

theorem quiet_tableOper {tables : List ℕ} (h : oper ∈ (tableOper tables).toList) :
    Quiet oper ∧ (tables.length ≠ 1 → ∀ table, oper.type ≠ .tableGet table) := by
  cases tables with
  | nil => cases h
  | cons table tables =>
    obtain ⟨oper', heq, hquiet, hjoin⟩ := foldl_addTable tables (quiet_getOf table)
    have htable : tableOper (table :: tables) = some oper' := heq
    rw [htable, Option.toList_some, List.mem_singleton] at h
    rw [h]
    refine ⟨hquiet, fun hlength => hjoin ?_⟩
    rintro rfl
    exact hlength rfl

theorem safe_createPlan {query cmpExprs : List Expression} {tables : List ℕ}
    (hquery : ∀ e ∈ query, isAtom e = true) (hconds : ∀ c ∈ cmpExprs, Condition c)
    (h : cmpExprs = [] ∨ tables.length ≠ 1) : Safe (createPlan query cmpExprs tables) := by
  refine Quiet.safe (.mk hquery (by simp) fun c hc => ?_)
  split at hc
  · exact (quiet_tableOper hc).1
  · next hne =>
    rw [Option.toList_some, List.mem_singleton] at hc
    rw [hc]
    have hcond : cmpExprs ≠ [] := by simpa using hne
    exact .mk (List.forall_mem_singleton.mpr (.conjunction hcond hconds))
      (fun _ d hd => (quiet_tableOper hd).2 (h.resolve_left hcond))
      fun d hd => (quiet_tableOper hd).1

/-- What a filter over one table becomes is safe, and has the rows of the table. -/
theorem rows_dropped_filter {query : List Expression} {e : Expression}
    (hquery : ∀ e ∈ query, isAtom e = true) (h : Where e) (table : ℕ) (m : Meaning)
    (db : ℕ → List Row) :
    let plan := OptimizeStage.rewrite (.mk .projection query [.mk .predicate [e] [getOf table]])
    plan.1 = .success ∧ (rows m db plan.2).length = (db table).length := by
  have hsafe : Safe (.mk .projection query [getOf table]) :=
    Quiet.safe (.mk hquery (by simp) (List.forall_mem_singleton.mpr (quiet_getOf table)))
  dsimp only
  rw [optimizeStage_drops_filter hquery h table, (hsafe.optimizeStage m db).2]
  exact ⟨(hsafe.optimizeStage m db).1, by simp [rows_mk, denote]⟩

theorem not_preservesRows_filter {query : List Expression} {e : Expression}
    (hquery : ∀ e ∈ query, isAtom e = true) (h : Where e) (table : ℕ) :
    ¬ PreservesRows (.mk .projection query [.mk .predicate [e] [getOf table]]) := by
  rintro ⟨-, hrows⟩
  have hlength := (rows_dropped_filter hquery h table allFalse fun _ => [[]]).2
  rw [hrows] at hlength
  simp [rows_mk, denote, h.not_holds] at hlength

end Quiet

inductive Generated : LogicalOperator → Prop where
  | createPlan {query cmpExprs} (tables : List ℕ) : (∀ e ∈ query, isAtom e = true) →
    (∀ c ∈ cmpExprs, Condition c) → Generated (createPlan query cmpExprs tables)

/-- Rewriting preserves the rows of a safe plan, and of the plans that are made for a `SELECT`
those of no other. -/
theorem preservesRows_of_safe_and_iff (oper : LogicalOperator) :
    (Safe oper → PreservesRows oper) ∧
      (Generated oper → (PreservesRows oper ↔ Safe oper)) := by
  have hsafe : Safe oper → PreservesRows oper := by
    intro h
    exact ⟨(h.optimizeStage allFalse fun _ => []).1, fun m db => (h.optimizeStage m db).2⟩
  refine ⟨hsafe, fun hgenerated => ⟨?_, hsafe⟩⟩
  intro hpreserves
  obtain ⟨tables, hquery, hconds⟩ := hgenerated
  apply safe_createPlan hquery hconds
  by_contra hnot
  rw [not_or, not_not] at hnot
  obtain ⟨hne, hlength⟩ := hnot
  obtain ⟨table, rfl⟩ := List.length_eq_one_iff.mp hlength
  rw [createPlan_singleton _ hne table] at hpreserves
  exact not_preservesRows_filter hquery (.conjunction hne hconds) table hpreserves

def columnA : Expression := .field "t" "a" 0 .ints 4

def aEqualsFive : Expression := .comparison .equalTo columnA (.value (.ints 5))

theorem condition_aEqualsFive : Condition aEqualsFive := .comparison (.atom rfl) (.atom rfl)

theorem generated_example (tables : List ℕ) :
    Generated (createPlan [columnA] [aEqualsFive] tables) :=
  .createPlan tables (by simp [columnA, isAtom]) (by simp [condition_aEqualsFive])

theorem preservesRows_of_safe_and_iff_example :
    Safe (createPlan [columnA] [aEqualsFive] [0, 1]) ∧
    PreservesRows (createPlan [columnA] [aEqualsFive] [0, 1]) ∧
    ¬ Safe (createPlan [columnA] [aEqualsFive] [0]) := by
  have hsafe : Safe (createPlan [columnA] [aEqualsFive] [0, 1]) :=
    safe_createPlan (by simp [columnA, isAtom]) (by simp [condition_aEqualsFive])
      (Or.inr (by decide))
  have hcondition : Where (.conjunction .and [aEqualsFive]) :=
    .conjunction (by simp) (by simp [condition_aEqualsFive])
  exact ⟨hsafe, ((preservesRows_of_safe_and_iff _).2 (generated_example [0, 1])).mpr hsafe,
    fun h => not_preservesRows_filter (by simp [columnA, isAtom]) hcondition 0
      ((preservesRows_of_safe_and_iff _).1 h)⟩

def integers : Meaning where
  compare _ left right := left = right
  cast _ v := v
  other e row :=
    match e with
    | .field _ _ fieldIdx _ _ => row.getD fieldIdx.toNat .undefined
    | _ => .undefined

/-- `SELECT a FROM t WHERE a = 5` over a row with 1 has no row, and has one once rewritten. -/
theorem where_clause_is_dropped :
    let plan := createPlan [columnA] [aEqualsFive] [0]
    rows integers (fun _ => [[.ints 1]]) plan = [] ∧
    (OptimizeStage.rewrite plan).1 = .success ∧
    (rows integers (fun _ => [[.ints 1]]) (OptimizeStage.rewrite plan).2).length = 1 := by
  have hconds : ∀ c ∈ [aEqualsFive], Condition c := by simp [condition_aEqualsFive]
  have hne : [aEqualsFive] ≠ [] := by simp
  have hquery : ∀ e ∈ [columnA], isAtom e = true := by simp [columnA, isAtom]
  have hfalse : holds integers [.ints 1] (.conjunction .and [aEqualsFive]) = false := by
    decide
  dsimp only
  rw [createPlan_singleton _ hne]
  refine ⟨?_, rows_dropped_filter hquery (.conjunction hne hconds) 0 integers fun _ => _⟩
  simp [rows_mk, denote, hfalse]

end SelectRewrite
