import LsmStorage.LogicalRewriter

/-! # The rows of a logical plan, before and after rewriting

A plan denotes a list of rows. Two rules can change it: a comparison that is moved to a table
operator is dropped, and of a conjunction with a deciding constant the first child is kept. The
conditions here follow the rewriter from rule to rule, from child to child and from pass to pass,
and say of each rule that it does its part. -/
namespace RewriteRows

open ResultCode SqlExpression LogicalRewriter LogicalOperator ConjunctionSimplificationRule

abbrev Row := List Value

section Denotation

/-- Comparisons, casts and all expressions that the rules do not look into mean anything. -/
structure Meaning where
  compare : CompOp → Value → Value → Bool
  cast : AttrType → Value → Value
  other : Expression → Row → Value

/-- Every comparison is false. -/
def allFalse : Meaning := ⟨fun _ _ _ => false, fun _ v => v, fun _ _ => .undefined⟩

def combine : ConjunctionType → List Bool → Bool
  | .and, l => l.all id
  | .or, l => l.any id

mutual

def eval (m : Meaning) (row : Row) : Expression → Value
  | .value v => v
  | .cast child castType => m.cast castType (eval m row child)
  | .comparison comp left right =>
    .booleans (m.compare comp (eval m row left) (eval m row right))
  | .conjunction type children => .booleans (combine type (truths m row children))
  | e => m.other e row

def truths (m : Meaning) (row : Row) : List Expression → List Bool
  | [] => []
  | e :: es => (eval m row e).getBoolean :: truths m row es

end

def holds (m : Meaning) (row : Row) (e : Expression) : Bool := (eval m row e).getBoolean

/-- The rows of an operator from those of its children. A filter or a projection without a child
has no rows, nor has a join without its two children. -/
def denote (m : Meaning) (db : ℕ → List Row) :
    LogicalOperatorType → List Expression → List (List Row) → List Row
  | .tableGet table, exprs, _ => (db table).filter fun row => exprs.all (holds m row)
  | .predicate, exprs, input :: _ => input.filter fun row => exprs.all (holds m row)
  | .projection, exprs, input :: _ => input.map fun row => exprs.map (eval m row)
  | .join joinPredicates, _, [left, right] =>
    (left.flatMap fun l => right.map fun r => l ++ r).filter fun row =>
      joinPredicates.all (holds m row)
  | _, _, _ => []

def rows (m : Meaning) (db : ℕ → List Row) : LogicalOperator → List Row
  | .mk type exprs children => denote m db type exprs (children.map (rows m db))

theorem rows_mk (m : Meaning) (db : ℕ → List Row) (type : LogicalOperatorType)
    (exprs : List Expression) (children : List LogicalOperator) :
    rows m db (.mk type exprs children) = denote m db type exprs (children.map (rows m db)) := by
  rw [rows]

theorem eval_conjunction (m : Meaning) (row : Row) (type : ConjunctionType)
    (children : List Expression) :
    eval m row (.conjunction type children) =
      .booleans (combine type (children.map (holds m row))) := by
  have htruths : truths m row children = children.map (holds m row) := by
    induction children with
    | nil => rfl
    | cons e es ih => rw [truths, ih, List.map_cons, holds]
  rw [eval, htruths]

theorem holds_conjunction (m : Meaning) (row : Row) (type : ConjunctionType)
    (children : List Expression) :
    holds m row (.conjunction type children) =
      combine type (children.map (holds m row)) := by
  rw [holds, eval_conjunction]
  rfl

theorem combine_singleton (type : ConjunctionType) (b : Bool) : combine type [b] = b := by
  cases type <;> simp [combine]

theorem combine_of_mem {type : ConjunctionType} {l : List Bool} (h : (!type.neutral) ∈ l) :
    combine type l = !type.neutral := by
  cases type with
  | and => exact List.all_eq_false.mpr ⟨false, h, by simp⟩
  | or => exact List.any_eq_true.mpr ⟨true, h, rfl⟩

theorem combine_kept (m : Meaning) (row : Row) (type : ConjunctionType)
    (children : List Expression) :
    combine type ((kept type children).map (holds m row)) =
      combine type (children.map (holds m row)) := by
  induction children with
  | nil => rfl
  | cons c children ih =>
    have hcons : ∀ b l, combine type (b :: l) = combine type [b, combine type l] := by
      intro b l
      cases type <;> simp [combine]
    by_cases hc : c.tryToGetBoolConstant = some type.neutral
    · have hvalue := Expression.tryToGetBoolConstant_eq_some.mp hc
      have hneutral : holds m row c = type.neutral := by
        rw [hvalue]
        rfl
      rw [kept, List.filter_cons_of_neg (by simp [hc]),
        ← kept, ih, List.map_cons, hcons, hneutral]
      cases type <;> simp [combine, ConjunctionType.neutral]
    · rw [kept, List.filter_cons_of_pos (by simp [hc]),
        ← kept, List.map_cons, List.map_cons, hcons, ih, ← hcons]

end Denotation

section Expressions

open SqlExpression.ExpressionRewriter ConjunctionSimplificationRule

def isAtom : Expression → Bool
  | .cast _ _ | .comparison _ _ _ | .conjunction _ _ => false
  | _ => true

def isBool : Expression → Bool
  | .comparison _ _ _ | .conjunction _ _ | .value (.booleans _) => true
  | _ => false

/-- The rules keep what the expression means, where `asValue` says whether its value is used or
only whether it holds. A constant decides a conjunction only behind neutral ones; a child that
takes the place of a conjunction whose value is used has a boolean for its value. -/
inductive Simplified : Bool → Expression → Prop where
  | atom {asValue e} (leaf : isAtom e = true) : Simplified asValue e
  | cast {asValue child castType} (below : Simplified true child) :
    Simplified asValue (.cast child castType)
  | comparison {asValue comp left right} (hleft : Simplified true left)
    (hright : Simplified true right) : Simplified asValue (.comparison comp left right)
  | decided {asValue type pre post} (front : ∀ c ∈ pre, c = .value (.booleans type.neutral)) :
    Simplified asValue (.conjunction type (pre ++ .value (.booleans !type.neutral) :: post))
  | single {asValue type children child} (undecided : Undecided type children)
    (only : kept type children = [child]) (bool : asValue = true → isBool child = true) :
    Simplified asValue (.conjunction type children)
  | conjunction {asValue type children} (undecided : Undecided type children)
    (many : (kept type children).length ≠ 1)
    (below : ∀ c ∈ kept type children, Simplified false c) :
    Simplified asValue (.conjunction type children)

variable {m : Meaning} {row : Row} {type : ConjunctionType} {e : Expression}
  {children : List Expression}

theorem rewriteExpression_atom (h : isAtom e = true) : rewriteExpression e = (e, false) := by
  rw [rewriteExpression_eq, applyRules_eq]
  cases e with
  | cast child castType => cases h
  | comparison comp left right => cases h
  | conjunction type children => cases h
  | _ => rfl

theorem eval_of_isBool (h : isBool e = true) (m : Meaning) (row : Row) :
    eval m row e = .booleans (holds m row e) := by
  cases e with
  | comparison comp left right =>
    rw [holds, eval]
    rfl
  | conjunction type children => rw [holds_conjunction, eval_conjunction]
  | value v =>
    cases v with
    | booleans b => rfl
    | _ => cases h
  | _ => cases h

theorem rewriteExpression_decided {pre post : List Expression}
    (h : ∀ c ∈ pre, c = .value (.booleans type.neutral)) :
    (rewriteExpression (.conjunction type (pre ++ .value (.booleans !type.neutral) :: post))).1 =
      .value (.booleans !type.neutral) := by
  have hundecided : Undecided type pre := by
    intro c hc
    rw [h c hc]
    exact fun heq => Bool.not_ne_self _ (Option.some.inj heq).symm
  have hkept : kept type pre = [] := by
    rw [kept, List.filter_eq_nil_iff]
    intro c hc
    simp [h c hc, Expression.tryToGetBoolConstant]
  have hscan : scan type [] (pre ++ .value (.booleans !type.neutral) :: post) =
      .inr (([] ++ kept type pre).headD (.value (.booleans !type.neutral))) :=
    scan_of_decided hundecided rfl []
  rw [List.nil_append, hkept, List.headD_nil] at hscan
  rw [rewriteExpression_eq, applyRules_eq, rewrite, hscan]
  rfl

theorem rewriteExpression_single {child : Expression} (hundecided : Undecided type children)
    (h : kept type children = [child]) :
    rewriteExpression (.conjunction type children) = (child, true) := by
  rw [rewriteExpression_eq, applyRules_eq, rewrite, scan_of_undecided hundecided,
    List.nil_append, h]
  rfl

theorem rewriteExpression_many (hundecided : Undecided type children)
    (h : (kept type children).length ≠ 1) :
    (rewriteExpression (.conjunction type children)).1 =
      .conjunction type ((kept type children).map fun c => (rewriteExpression c).1) := by
  rw [rewriteExpression_eq, applyRules_eq, rewrite, scan_of_undecided hundecided,
    List.nil_append]
  cases hkept : kept type children with
  | nil => rfl
  | cons c cs =>
    cases cs with
    | nil => exact absurd (congrArg List.length hkept) h
    | cons d ds => rfl

/-- What holds and, where it is used, the value are kept. -/
structure Keeps (m : Meaning) (asValue : Bool) (e e' : Expression) : Prop where
  holds : ∀ row, holds m row e' = holds m row e
  eval : asValue = true → ∀ row, eval m row e' = eval m row e

theorem Keeps.of_eval {asValue : Bool} {e' : Expression}
    (h : ∀ row, RewriteRows.eval m row e' = RewriteRows.eval m row e) : Keeps m asValue e e' :=
  ⟨fun row => congrArg Value.getBoolean (h row), fun _ => h⟩

theorem Simplified.keeps {asValue : Bool} (h : Simplified asValue e) (m : Meaning) :
    Keeps m asValue e (rewriteExpression e).1 := by
  induction h with
  | atom leaf =>
    rw [rewriteExpression_atom leaf]
    exact .of_eval fun _ => rfl
  | cast _ ih =>
    rw [rewriteExpression_eq, applyRules_eq]
    refine .of_eval fun row => ?_
    show eval m row (.cast _ _) = _
    rw [eval, eval, ih.eval rfl]
  | comparison _ _ ihl ihr =>
    rw [rewriteExpression_eq, applyRules_eq]
    refine .of_eval fun row => ?_
    show eval m row (.comparison _ _ _) = _
    rw [eval, eval, ihl.eval rfl, ihr.eval rfl]
  | @decided _ type pre post front =>
    rw [rewriteExpression_decided front]
    refine .of_eval fun row => ?_
    rw [eval_conjunction, combine_of_mem, eval]
    exact List.mem_map.mpr ⟨_, List.mem_append_right _ List.mem_cons_self, rfl⟩
  | @single _ type children child undecided only bool =>
    rw [rewriteExpression_single undecided only]
    have hholds : ∀ row, holds m row child = holds m row (.conjunction type children) := by
      intro row
      rw [holds_conjunction, ← combine_kept, only, List.map_singleton, combine_singleton]
    refine ⟨hholds, fun hused row => ?_⟩
    rw [eval_of_isBool (bool hused), hholds, eval_of_isBool rfl]
  | @conjunction _ type children undecided many _ ih =>
    rw [rewriteExpression_many undecided many]
    refine .of_eval fun row => ?_
    rw [eval_conjunction, eval_conjunction, ← combine_kept m row type children, List.map_map]
    exact congrArg (fun l => Value.booleans (combine type l))
      (List.map_congr_left fun c hc => (ih c hc).holds row)

end Expressions

section Passes

variable {m : Meaning} {db : ℕ → List Row} {oper : LogicalOperator}

/-- What is asked of the expressions of an operator. The rows of a join do not depend on them. -/
def ExprsSimplified : LogicalOperatorType → List Expression → Prop
  | .tableGet _, exprs | .predicate, exprs => ∀ e ∈ exprs, Simplified false e
  | .projection, exprs => ∀ e ∈ exprs, Simplified true e
  | _, _ => True

inductive AllSimplified : LogicalOperator → Prop where
  | mk {type exprs children} (here : ExprsSimplified type exprs)
    (below : ∀ c ∈ children, AllSimplified c) : AllSimplified (.mk type exprs children)

theorem denote_congr {type : LogicalOperatorType} {exprs : List Expression}
    {f : Expression → Expression} (inputs : List (List Row))
    (h : ExprsSimplified type exprs)
    (hf : ∀ asValue, ∀ e ∈ exprs, Simplified asValue e → Keeps m asValue e (f e)) :
    denote m db type (exprs.map f) inputs = denote m db type exprs inputs := by
  have hall : (∀ e ∈ exprs, Simplified false e) → ∀ row,
      (exprs.map f).all (holds m row) = exprs.all (holds m row) := by
    intro hsimplified row
    have hmap : (exprs.map f).map (holds m row) = exprs.map (holds m row) := by
      rw [List.map_map]
      exact List.map_congr_left fun e he => (hf false e he (hsimplified e he)).holds row
    simpa [List.all_map, Function.comp_def] using congrArg (List.all · id) hmap
  cases type with
  | tableGet table => simp only [denote, hall h]
  | predicate =>
    cases inputs with
    | nil => rfl
    | cons input inputs => simp only [denote, hall h]
  | projection =>
    cases inputs with
    | nil => rfl
    | cons input inputs =>
      have hmap : ∀ row, (exprs.map f).map (eval m row) = exprs.map (eval m row) := by
        intro row
        rw [List.map_map]
        exact List.map_congr_left fun e he => (hf true e he (h e he)).eval rfl row
      simp only [denote, hmap]
  | join joinPredicates => rcases inputs with _ | ⟨left, _ | ⟨right, _ | ⟨third, inputs⟩⟩⟩ <;> rfl
  | _ => rfl

theorem rows_expressionRewriter (h : AllSimplified oper) :
    rows m db (ExpressionRewriter.rewrite oper).1 = rows m db oper := by
  induction h with
  | mk here _ ih =>
    rw [expressionRewriter_mk, rows_mk, rows_mk, List.map_map,
      denote_congr _ here fun _ e _ he => he.keeps m]
    exact congrArg _ (List.map_congr_left ih)

theorem denote_constant_filter (v : Value) (input : List Row) (inputs : List (List Row)) :
    denote m db .predicate [.value v] (input :: inputs) = if v.getBoolean then input else [] := by
  have hholds : ∀ row, [Expression.value v].all (holds m row) = v.getBoolean := by
    intro row
    simp [holds, eval]
  simp only [denote, hholds]
  cases v.getBoolean with
  | true => rw [List.filter_true, if_pos rfl]
  | false => rw [List.filter_false, if_neg (by simp)]

/-- A join whose only child is a filter with `TRUE` gets the two children of the filter. -/
def JoinsBelowFilter : LogicalOperator → Prop
  | .mk (.join _) _ [.mk .predicate [.value v] [_, _]] => v.getBoolean = true
  | _ => False

theorem rows_predicateRewriteRule (h : ¬ JoinsBelowFilter oper) :
    rows m db (PredicateRewriteRule.rewrite oper).1 = rows m db oper := by
  rcases predicateRewriteRule_cases oper with heq | ⟨type, exprs, v, grand, rfl, heq⟩
  · rw [heq]
  rw [heq, rows_mk, rows_mk, List.map_singleton, rows_mk]
  cases type with
  | join joinPredicates =>
    cases hv : v.getBoolean with
    | false => simp [denote]
    | true => rcases grand with _ | ⟨left, _ | ⟨right, _ | ⟨third, grand⟩⟩⟩ <;>
        first | exact absurd hv h | simp [denote]
  | predicate =>
    cases grand with
    | nil => cases v.getBoolean <;> simp [denote]
    | cons g gs =>
      rw [List.map_cons, denote_constant_filter]
      cases v.getBoolean <;> simp [denote]
  | projection =>
    cases grand with
    | nil => cases v.getBoolean <;> simp [denote]
    | cons g gs =>
      rw [List.map_cons, denote_constant_filter]
      cases v.getBoolean <;> simp [denote]
  | _ => simp [denote]

/-- The pushdown finds nothing to move and no `OR`. -/
def Stays (e : Expression) : Prop :=
  ∀ c ∈ conjuncts e, isOr c = false ∧ isComparison c = false

def StaysOverTable : LogicalOperator → Prop
  | .mk .predicate [expr] [.mk (.tableGet _) _ _] => Stays expr
  | _ => True

theorem getExprsCanPushdown_of_stays {e : Expression} (h : Stays e) :
    PredicatePushdownRewriter.getExprsCanPushdown e = (.success, some e, []) := by
  have hor : (conjuncts e).any isOr = false := List.any_eq_false.mpr fun c hc => by simp [h c hc]
  obtain ⟨hcode, hmoved⟩ := getExprsCanPushdown_spec e
  rw [hor, if_neg (by simp)] at hcode
  rw [List.filter_eq_nil_iff.mpr fun c hc => by simp [h c (List.takeWhile_subset _ hc)]] at hmoved
  exact Prod.ext hcode (Prod.ext (getExprsCanPushdown_left hmoved) hmoved)

theorem holds_orTrue {e : Expression} (h : Stays e) (row : Row) :
    holds m row (PredicatePushdownRewriter.orTrue (some e)) = holds m row e := by
  rw [PredicatePushdownRewriter.orTrue]
  split
  · next hempty =>
    cases e with
    | conjunction type children =>
      cases List.isEmpty_iff.mp hempty
      cases type with
      | and =>
        rw [holds_conjunction]
        rfl
      | or =>
        have hor := (h (.conjunction .or []) (by simp [conjuncts])).1
        cases hor
    | _ => cases hempty
  · rfl

theorem rows_pushdownRewriter (h : StaysOverTable oper) :
    (PredicatePushdownRewriter.rewrite oper).1 = .success ∧
      rows m db (PredicatePushdownRewriter.rewrite oper).2.1 = rows m db oper := by
  rcases pushdownRewriter_cases oper with
    heq | ⟨expr, table, exprs, children, rc, left, pushed, rfl, hget, heq⟩
  · rw [heq]
    exact ⟨rfl, rfl⟩
  cases (getExprsCanPushdown_of_stays h).symm.trans hget
  rw [heq, if_neg (by simp)]
  refine ⟨rfl, ?_⟩
  rw [rows_mk, rows_mk]
  simp only [denote, List.map_cons, List.all_cons, List.all_nil, Bool.and_true, holds_orTrue h]

/-- A pass over the plan comes to no rule that does not do its part. -/
inductive Clean : LogicalOperator → Prop where
  | mk {oper : LogicalOperator} (simplified : AllSimplified oper)
    (joined : ¬ JoinsBelowFilter (ExpressionRewriter.rewrite oper).1)
    (stays : StaysOverTable (PredicateRewriteRule.rewrite (ExpressionRewriter.rewrite oper).1).1)
    (below : ∀ c ∈ (Rewriter.applyRules oper).2.1.children, Clean c) : Clean oper

theorem rows_applyRules (hsimplified : AllSimplified oper)
    (hjoined : ¬ JoinsBelowFilter (ExpressionRewriter.rewrite oper).1)
    (hstays : StaysOverTable
      (PredicateRewriteRule.rewrite (ExpressionRewriter.rewrite oper).1).1) :
    (Rewriter.applyRules oper).1 = .success ∧
      rows m db (Rewriter.applyRules oper).2.1 = rows m db oper := by
  obtain ⟨hrc, hrows⟩ : _ ∧ rows m db _ = _ := rows_pushdownRewriter hstays
  rw [Rewriter.applyRules]
  dsimp only
  rw [if_neg (not_not.mpr hrc)]
  exact ⟨rfl, hrows.trans ((rows_predicateRewriteRule hjoined).trans
    (rows_expressionRewriter hsimplified))⟩

theorem Clean.rewrite (h : Clean oper) (m : Meaning) (db : ℕ → List Row) :
    (Rewriter.rewrite oper).1 = .success ∧
      rows m db (Rewriter.rewrite oper).2.1 = rows m db oper := by
  induction h with
  | @mk oper simplified joined stays _ ih =>
    obtain ⟨hrc, hrows⟩ : _ ∧ rows m db _ = _ := rows_applyRules simplified joined stays
    obtain ⟨hsuccess, heq⟩ := Rewriter.rewrite_of_success hrc fun c hc => (ih c hc).1
    refine ⟨hsuccess, ?_⟩
    rw [heq, ← hrows, rows_mk, List.map_map]
    generalize (Rewriter.applyRules oper).2.1 = oper' at ih
    obtain ⟨type, exprs, children⟩ := oper'
    rw [rows_mk]
    exact congrArg _ (List.map_congr_left fun c hc => (ih c hc).2)

/-- No pass of the loop comes to such a rule. -/
inductive Safe : LogicalOperator → Prop where
  | mk {oper : LogicalOperator} (clean : Clean oper)
    (again : (Rewriter.rewrite oper).2.2 = true → Safe (Rewriter.rewrite oper).2.1) : Safe oper

theorem Safe.optimizeStage (h : Safe oper) (m : Meaning) (db : ℕ → List Row) :
    (OptimizeStage.rewrite oper).1 = .success ∧
      rows m db (OptimizeStage.rewrite oper).2 = rows m db oper := by
  induction h with
  | @mk oper clean _ ih =>
    obtain ⟨hrc, hrows⟩ := clean.rewrite m db
    rw [OptimizeStage.rewrite, if_neg (not_not.mpr hrc)]
    split
    · next hchanged => exact ⟨(ih hchanged).1, (ih hchanged).2.trans hrows⟩
    · exact ⟨rfl, hrows⟩

/-- A set of plans that a pass is clean on and does not lead out of. -/
theorem safe_of_invariant {P : LogicalOperator → Prop} (hclean : ∀ oper, P oper → Clean oper)
    (hpass : ∀ oper, P oper → P (Rewriter.rewrite oper).2.1) (h : P oper) : Safe oper := by
  induction oper using OptimizeStage.rewrite.induct with
  | case1 oper hfail => exact absurd ((hclean oper h).rewrite allFalse fun _ => []).1 hfail
  | case2 oper _ _ ih => exact .mk (hclean oper h) fun _ => ih (hpass oper h)
  | case3 oper _ hsame => exact .mk (hclean oper h) fun hchanged => absurd hchanged hsame

end Passes

end RewriteRows
