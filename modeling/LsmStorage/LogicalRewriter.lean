import LsmStorage.BoundedLoop
import LsmStorage.ResultCode
import LsmStorage.SqlExpression

/-! # The rewriter of logical plans

`Rewriter::rewrite` applies three rules at an operator, in the order of its constructor, and
then goes on with the children that the operator has now. `OptimizeStage::rewrite` repeats it
while it reports a change. A reported change is a smaller plan, which bounds the loop. -/
namespace LogicalRewriter

open BoundedLoop ResultCode SqlExpression SqlExpression.ExpressionRewriter

/-- `LogicalOperatorType` with what tells two operators of one type apart. The table is the one
that the operator was made for: the class in the source drops the pointer. -/
inductive LogicalOperatorType where
  | calc
  | tableGet (table : ℕ)
  | predicate
  | projection
  | join (joinPredicates : List Expression)
  | insert
  | delete
  | explain
  | groupBy

inductive LogicalOperator where
  | mk (type : LogicalOperatorType) (expressions : List Expression)
    (children : List LogicalOperator)

namespace LogicalOperator

def type : LogicalOperator → LogicalOperatorType
  | mk type _ _ => type

def expressions : LogicalOperator → List Expression
  | mk _ expressions _ => expressions

def children : LogicalOperator → List LogicalOperator
  | mk _ _ children => children

def count : LogicalOperator → ℕ
  | mk _ _ children => 1 + (children.map count).sum

def size : LogicalOperator → ℕ
  | mk _ expressions children =>
    1 + (expressions.map Expression.size).sum + (children.map size).sum

theorem count_mk (type : LogicalOperatorType) (expressions : List Expression)
    (children : List LogicalOperator) :
    (mk type expressions children).count = 1 + (children.map count).sum := by
  rw [count]

theorem size_mk (type : LogicalOperatorType) (expressions : List Expression)
    (children : List LogicalOperator) :
    (mk type expressions children).size =
      1 + (expressions.map Expression.size).sum + (children.map size).sum := by
  rw [size]

@[elab_as_elim]
theorem ind {motive : LogicalOperator → Prop}
    (mk : ∀ type expressions children, (∀ c ∈ children, motive c) →
      motive (mk type expressions children)) : ∀ oper, motive oper
  | .mk type expressions children => mk type expressions children fun c _ => ind mk c

theorem count_pos (oper : LogicalOperator) : 0 < oper.count := by
  cases oper
  rw [count_mk]
  omega

end LogicalOperator

open LogicalOperator

namespace ExpressionRewriter

def rewrite : LogicalOperator → LogicalOperator × Bool
  | .mk type expressions children =>
    let exprs := expressions.map rewriteExpression
    let opers := children.map rewrite
    (.mk type (exprs.map Prod.fst) (opers.map Prod.fst),
      exprs.any Prod.snd || opers.any Prod.snd)

end ExpressionRewriter

namespace PredicateRewriteRule

/-- An only child that filters by a constant is replaced by its children, or by nothing. -/
def rewrite : LogicalOperator → LogicalOperator × Bool
  | .mk type expressions [.mk .predicate [.value v] grandChildren] =>
    if v.getBoolean then (.mk type expressions grandChildren, true)
    else (.mk type expressions [], true)
  | oper => (oper, false)

end PredicateRewriteRule

namespace PredicatePushdownRewriter

mutual

/-- What is left of the expression, `none` when it was moved, and what was moved. -/
def getExprsCanPushdown : Expression → RC × Option Expression × List Expression
  | .conjunction .or children => (.unimplemented, some (.conjunction .or children), [])
  | .conjunction .and children =>
    let (rc, children, pushdownExprs) := pushdownChildren children
    (rc, some (.conjunction .and children), pushdownExprs)
  | .comparison comp left right => (.success, none, [.comparison comp left right])
  | e => (.success, some e, [])

def pushdownChildren : List Expression → RC × List Expression × List Expression
  | [] => (.success, [], [])
  | child :: children =>
    let (rc, left, pushdownExprs) := getExprsCanPushdown child
    if rc ≠ .success then (rc, left.toList ++ children, pushdownExprs)
    else
      let (rc, rest, more) := pushdownChildren children
      (rc, left.toList ++ rest, pushdownExprs ++ more)

end

def isEmptyPredicate : Expression → Bool
  | .conjunction _ children => children.isEmpty
  | _ => false

def orTrue : Option Expression → Expression
  | none => .value (.booleans true)
  | some e => if isEmptyPredicate e then .value (.booleans true) else e

/-- What was moved is dropped: the table operator has no member for it yet. -/
def rewrite : LogicalOperator → RC × LogicalOperator × Bool
  | .mk .predicate [expr] [.mk (.tableGet table) tableExprs tableChildren] =>
    let child := LogicalOperator.mk (.tableGet table) tableExprs tableChildren
    let (rc, left, pushdownExprs) := getExprsCanPushdown expr
    if rc ≠ .success then (rc, .mk .predicate left.toList [child], false)
    else (.success, .mk .predicate [orTrue left] [child], !pushdownExprs.isEmpty)
  | oper => (.success, oper, false)

end PredicatePushdownRewriter

open PredicatePushdownRewriter

namespace Rewriter

def applyRules (oper : LogicalOperator) : RC × LogicalOperator × Bool :=
  let (oper, changed₁) := ExpressionRewriter.rewrite oper
  let (oper, changed₂) := PredicateRewriteRule.rewrite oper
  let (rc, oper, changed₃) := PredicatePushdownRewriter.rewrite oper
  if rc ≠ .success then (rc, oper, changed₁ || changed₂)
  else (.success, oper, changed₁ || changed₂ || changed₃)

end Rewriter

section Termination

theorem expressionRewriter_mk (type : LogicalOperatorType) (expressions : List Expression)
    (children : List LogicalOperator) :
    ExpressionRewriter.rewrite (.mk type expressions children) =
      (.mk type (expressions.map fun e =>
          (rewriteExpression e).1)
        (children.map fun c => (ExpressionRewriter.rewrite c).1),
      (expressions.any fun e => (rewriteExpression e).2) ||
        children.any fun c => (ExpressionRewriter.rewrite c).2) := by
  rw [ExpressionRewriter.rewrite]
  simp only [List.map_map, List.any_map]
  rfl

variable (oper : LogicalOperator)

theorem count_expressionRewriter :
    (ExpressionRewriter.rewrite oper).1.count = oper.count := by
  induction oper using LogicalOperator.ind with
  | mk type expressions children ih =>
    rw [expressionRewriter_mk, count_mk, count_mk, List.map_map]
    exact congrArg (fun l => 1 + List.sum l) (List.map_congr_left ih)

theorem predicateRewriteRule_cases :
    PredicateRewriteRule.rewrite oper = (oper, false) ∨
    ∃ type expressions v grandChildren,
      oper = .mk type expressions [.mk .predicate [.value v] grandChildren] ∧
      PredicateRewriteRule.rewrite oper =
        (.mk type expressions (if v.getBoolean then grandChildren else []), true) := by
  unfold PredicateRewriteRule.rewrite
  split
  · next type expressions v grandChildren =>
    refine Or.inr ⟨type, expressions, v, grandChildren, rfl, ?_⟩
    split
    · rfl
    · rfl
  · exact Or.inl rfl

theorem count_predicateRewriteRule :
    (PredicateRewriteRule.rewrite oper).1.count ≤ oper.count := by
  rcases predicateRewriteRule_cases oper with heq | ⟨type, expressions, v, grand, rfl, heq⟩
  · rw [heq]
  · rw [heq]
    simp only [count_mk, List.map_cons, List.map_nil, List.sum_cons, List.sum_nil]
    split
    · omega
    · simp

theorem pushdownRewriter_cases :
    PredicatePushdownRewriter.rewrite oper = (.success, oper, false) ∨
    ∃ expr table exprs children rc left pushdownExprs,
      oper = .mk .predicate [expr] [.mk (.tableGet table) exprs children] ∧
      getExprsCanPushdown expr = (rc, left, pushdownExprs) ∧
      PredicatePushdownRewriter.rewrite oper =
        if rc ≠ .success then
          (rc, .mk .predicate left.toList [.mk (.tableGet table) exprs children], false)
        else
          (.success, .mk .predicate [orTrue left]
            [.mk (.tableGet table) exprs children], !pushdownExprs.isEmpty) := by
  unfold PredicatePushdownRewriter.rewrite
  split
  · next expr table exprs children =>
    exact Or.inr ⟨expr, table, exprs, children, _, _, _, rfl, rfl, rfl⟩
  · exact Or.inl rfl

theorem count_pushdownRewriter :
    (PredicatePushdownRewriter.rewrite oper).2.1.count = oper.count := by
  rcases pushdownRewriter_cases oper with
    heq | ⟨expr, table, exprs, children, rc, left, pushed, rfl, -, heq⟩
  · rw [heq]
  · rw [heq]
    split
    · rw [count_mk, count_mk]
    · rw [count_mk, count_mk]

/-- The rules are tried one after the other, and only the last one can fail. -/
theorem applyRules_eq_pushdown :
    let simplified := (PredicateRewriteRule.rewrite (ExpressionRewriter.rewrite oper).1).1
    (Rewriter.applyRules oper).1 = (PredicatePushdownRewriter.rewrite simplified).1 ∧
      (Rewriter.applyRules oper).2.1 = (PredicatePushdownRewriter.rewrite simplified).2.1 := by
  rw [Rewriter.applyRules]
  dsimp only
  split_ifs with hrc
  · exact ⟨rfl, rfl⟩
  · exact ⟨(not_not.mp hrc).symm, rfl⟩

theorem count_applyRules :
    (Rewriter.applyRules oper).2.1.count ≤ oper.count := by
  rw [(applyRules_eq_pushdown oper).2, count_pushdownRewriter, ← count_expressionRewriter oper]
  exact count_predicateRewriteRule _

theorem sum_count_children_lt :
    ((Rewriter.applyRules oper).2.1.children.map count).sum < oper.count := by
  have hle := count_applyRules oper
  cases h : (Rewriter.applyRules oper).2.1 with
  | mk type expressions children =>
    rw [h, count_mk] at hle
    show (children.map count).sum < oper.count
    omega

end Termination

namespace Rewriter

mutual

def rewrite (oper : LogicalOperator) : RC × LogicalOperator × Bool :=
  let rules := applyRules oper
  if rules.1 ≠ .success then rules
  else
    let (rc, children, changed) := rewriteChildren rules.2.1.children
    (rc, .mk rules.2.1.type rules.2.1.expressions children, rules.2.2 || changed)
termination_by (oper.count, 0)
decreasing_by
  apply Prod.Lex.left
  exact sum_count_children_lt oper

def rewriteChildren : List LogicalOperator → RC × List LogicalOperator × Bool
  | [] => (.success, [], false)
  | child :: children =>
    let (rc, child, changed) := rewrite child
    if rc ≠ .success then (rc, child :: children, changed)
    else
      let (rc, children, changed') := rewriteChildren children
      (rc, child :: children, changed || changed')
termination_by children => ((children.map count).sum, 1)
decreasing_by
  · rw [List.map_cons, List.sum_cons]
    rcases Nat.eq_zero_or_pos (children.map count).sum with hzero | hpos
    · rw [hzero, Nat.add_zero]
      exact Prod.Lex.right _ Nat.zero_lt_one
    · exact Prod.Lex.left _ _ (by omega)
  · have := child.count_pos
    rw [List.map_cons, List.sum_cons]
    exact Prod.Lex.left _ _ (by omega)

end

theorem rewriteChildren_of_success {children : List LogicalOperator}
    (h : ∀ c ∈ children, (rewrite c).1 = .success) :
    (rewriteChildren children).1 = .success ∧
      (rewriteChildren children).2.1 = children.map fun c => (rewrite c).2.1 := by
  induction children with
  | nil => simp [rewriteChildren]
  | cons c children ih =>
    obtain ⟨hrc, hrest⟩ := ih fun d hd => h d (List.mem_cons_of_mem c hd)
    rw [rewriteChildren]
    dsimp only
    rw [if_neg (not_not.mpr (h c List.mem_cons_self))]
    exact ⟨hrc, by rw [hrest, List.map_cons]⟩

theorem rewrite_of_success {oper : LogicalOperator} (hrules : (applyRules oper).1 = .success)
    (h : ∀ c ∈ (applyRules oper).2.1.children, (rewrite c).1 = .success) :
    (rewrite oper).1 = .success ∧ (rewrite oper).2.1 = .mk (applyRules oper).2.1.type
      (applyRules oper).2.1.expressions
      ((applyRules oper).2.1.children.map fun c => (rewrite c).2.1) := by
  obtain ⟨hrc, hrest⟩ := rewriteChildren_of_success h
  rw [rewrite]
  dsimp only
  rw [if_neg (not_not.mpr hrules)]
  exact ⟨hrc, by rw [hrest]⟩

/-- Induction along the rewriter: the hypothesis is for the children that the rules leave. -/
@[elab_as_elim]
theorem ind {motive : LogicalOperator → Prop}
    (step : ∀ oper, (∀ c ∈ (applyRules oper).2.1.children, motive c) → motive oper)
    (oper : LogicalOperator) : motive oper := by
  induction hn : oper.count using Nat.strong_induction_on generalizing oper with
  | _ n ih =>
    apply step
    intro c hc
    have hle : c.count ≤ ((applyRules oper).2.1.children.map count).sum :=
      List.single_le_sum (by simp) _ (List.mem_map_of_mem hc)
    have hlt := sum_count_children_lt oper
    exact ih c.count (by omega) c rfl

end Rewriter

section Pushdown

/-- What the pushdown comes to, in its order: an `AND` stands for its children. -/
def conjuncts : Expression → List Expression
  | .conjunction .and children => (children.map conjuncts).flatten
  | e => [e]

def isOr : Expression → Bool
  | .conjunction .or _ => true
  | _ => false

def isComparison : Expression → Bool
  | .comparison _ _ _ => true
  | _ => false

def beforeOr (exprs : List Expression) : List Expression := exprs.takeWhile fun e => !isOr e

theorem beforeOr_append (a b : List Expression) :
    beforeOr (a ++ b) = beforeOr a ++ if a.any isOr then [] else beforeOr b := by
  induction a with
  | nil => rfl
  | cons e a ih =>
    cases h : isOr e with
    | true => simp [beforeOr, h]
    | false =>
      simp only [beforeOr] at ih ⊢
      simp [h, ih]

/-- A property of what the pushdown makes of an expression, and one of what it makes of the
children of an `AND`, that every branch of it keeps. -/
structure KeptByPushdown (P : Expression → RC × Option Expression × List Expression → Prop)
    (Q : List Expression → RC × List Expression × List Expression → Prop) : Prop where
  or : ∀ children, P (.conjunction .or children)
    (.unimplemented, some (.conjunction .or children), [])
  and : ∀ children r, Q children r →
    P (.conjunction .and children) (r.1, some (.conjunction .and r.2.1), r.2.2)
  comparison : ∀ comp left right, P (.comparison comp left right)
    (.success, none, [.comparison comp left right])
  other : ∀ e, isOr e = false → isComparison e = false → conjuncts e = [e] →
    P e (.success, some e, [])
  nil : Q [] (.success, [], [])
  fails : ∀ child children r, P child r → r.1 ≠ .success →
    Q (child :: children) (r.1, r.2.1.toList ++ children, r.2.2)
  cons : ∀ child children r r', P child r → r.1 = .success → Q children r' →
    Q (child :: children) (r'.1, r.2.1.toList ++ r'.2.1, r.2.2 ++ r'.2.2)

section KeptByPushdown

variable {P : Expression → RC × Option Expression × List Expression → Prop}
  {Q : List Expression → RC × List Expression × List Expression → Prop} (h : KeptByPushdown P Q)

include h

mutual

theorem KeptByPushdown.expression (e : Expression) : P e (getExprsCanPushdown e) := by
  cases e with
  | conjunction type children =>
    cases type with
    | or =>
      rw [getExprsCanPushdown]
      exact h.or children
    | and =>
      rw [getExprsCanPushdown]
      exact h.and children _ (KeptByPushdown.children children)
  | comparison comp left right =>
    rw [getExprsCanPushdown]
    exact h.comparison comp left right
  | _ =>
    simpa [getExprsCanPushdown] using h.other _ rfl rfl (by simp [conjuncts])

theorem KeptByPushdown.children (children : List Expression) :
    Q children (pushdownChildren children) := by
  cases children with
  | nil =>
    rw [pushdownChildren]
    exact h.nil
  | cons child children =>
    have hchild := KeptByPushdown.expression child
    rw [pushdownChildren]
    dsimp only
    split
    · next hrc => exact h.fails child children _ hchild hrc
    · next hrc =>
      exact h.cons child children _ _ hchild (not_not.mp hrc) (KeptByPushdown.children children)

end

end KeptByPushdown

end Pushdown

section Size

theorem toNat_or_le (a b : Bool) : (a || b).toNat ≤ a.toNat + b.toNat := by
  cases a <;> simp

theorem size_expressionRewriter (oper : LogicalOperator) :
    (ExpressionRewriter.rewrite oper).1.size + (ExpressionRewriter.rewrite oper).2.toNat ≤
      oper.size := by
  induction oper using LogicalOperator.ind with
  | mk type expressions children ih =>
    have hexprs := sum_map_add_any_le expressions Expression.size _ fun e _ =>
      size_rewriteExpression e
    have hopers := sum_map_add_any_le children size _ ih
    rw [expressionRewriter_mk, size_mk, size_mk]
    have hor := toNat_or_le
      (expressions.any fun e => (rewriteExpression e).2)
      (children.any fun c => (ExpressionRewriter.rewrite c).2)
    dsimp only
    omega

theorem size_predicateRewriteRule (oper : LogicalOperator) :
    (PredicateRewriteRule.rewrite oper).1.size + (PredicateRewriteRule.rewrite oper).2.toNat ≤
      oper.size := by
  rcases predicateRewriteRule_cases oper with heq | ⟨type, expressions, v, grand, rfl, heq⟩
  · rw [heq]
    exact le_refl _
  · rw [heq]
    simp only [size_mk, List.map_cons, List.map_nil, List.sum_cons, List.sum_nil,
      Bool.toNat_true]
    split
    · omega
    · rw [List.map_nil, List.sum_nil]
      omega

theorem size_getExprsCanPushdown (e : Expression) :
    ((getExprsCanPushdown e).2.1.toList.map Expression.size).sum +
      ((getExprsCanPushdown e).2.2.map Expression.size).sum ≤ e.size := by
  refine KeptByPushdown.expression
    (P := fun e r =>
      (r.2.1.toList.map Expression.size).sum + (r.2.2.map Expression.size).sum ≤ e.size)
    (Q := fun es r => (r.2.1.map Expression.size).sum + (r.2.2.map Expression.size).sum ≤
      (es.map Expression.size).sum) ?_ e
  constructor <;> intros <;> simp_all [Expression.size_conjunction] <;> omega

theorem size_of_mem_pushdown (e : Expression) :
    ∀ p ∈ (getExprsCanPushdown e).2.2, 3 ≤ p.size := by
  refine KeptByPushdown.expression (P := fun _ r => ∀ p ∈ r.2.2, 3 ≤ p.size)
    (Q := fun _ r => ∀ p ∈ r.2.2, 3 ≤ p.size) ?_ e
  constructor
  case comparison =>
    intro comp left right p hp
    have hl := left.size_pos
    have hr := right.size_pos
    rw [List.mem_singleton.mp hp, Expression.size]
    omega
  all_goals grind

theorem size_orTrue {left : Option Expression} {pushdownExprs : List Expression} {n : ℕ}
    (hpos : 0 < n) (hpushed : ∀ p ∈ pushdownExprs, 3 ≤ p.size)
    (hsize : (left.toList.map Expression.size).sum +
      (pushdownExprs.map Expression.size).sum ≤ n) :
    (orTrue left).size + (!pushdownExprs.isEmpty).toNat ≤ n := by
  have hsum : 3 * (!pushdownExprs.isEmpty).toNat ≤ (pushdownExprs.map Expression.size).sum := by
    cases pushdownExprs with
    | nil => simp
    | cons p ps =>
      have hp := hpushed p List.mem_cons_self
      simp only [List.isEmpty_cons, Bool.not_false, Bool.toNat_true, List.map_cons, List.sum_cons]
      omega
  have htrue : (Expression.value (.booleans true)).size = 1 := by simp [Expression.size]
  cases left with
  | none =>
    rw [orTrue, htrue]
    cases hempty : pushdownExprs.isEmpty with
    | true => exact hpos
    | false =>
      rw [hempty] at hsum
      simp only [Bool.not_false, Bool.toNat_true] at hsum ⊢
      omega
  | some e =>
    have he := e.size_pos
    simp only [Option.toList_some, List.map_cons, List.map_nil, List.sum_cons,
      List.sum_nil] at hsize
    rw [orTrue]
    split
    · rw [htrue]
      omega
    · omega

theorem size_pushdownRewriter (oper : LogicalOperator) :
    (PredicatePushdownRewriter.rewrite oper).2.1.size +
      (PredicatePushdownRewriter.rewrite oper).2.2.toNat ≤ oper.size := by
  rcases pushdownRewriter_cases oper with
    heq | ⟨expr, table, exprs, children, rc, left, pushed, rfl, hget, heq⟩
  · rw [heq]
    exact le_refl _
  · have hsize := size_getExprsCanPushdown expr
    have hpushed := size_of_mem_pushdown expr
    rw [hget] at hsize hpushed
    dsimp only at hsize hpushed
    rw [heq]
    simp only [size_mk, List.map_cons, List.map_nil, List.sum_cons, List.sum_nil]
    split
    · simp only [size_mk, List.map_cons, List.map_nil, List.sum_cons, List.sum_nil,
        Bool.toNat_false]
      omega
    · have htrue := size_orTrue expr.size_pos hpushed hsize
      simp only [size_mk, List.map_cons, List.map_nil, List.sum_cons, List.sum_nil]
      omega

theorem size_applyRules (oper : LogicalOperator) :
    (Rewriter.applyRules oper).2.1.size + (Rewriter.applyRules oper).2.2.toNat ≤ oper.size := by
  rw [Rewriter.applyRules]
  have h₁ := size_expressionRewriter oper
  generalize ExpressionRewriter.rewrite oper = r₁ at h₁ ⊢
  obtain ⟨oper₁, changed₁⟩ := r₁
  have h₂ := size_predicateRewriteRule oper₁
  dsimp only at h₁ ⊢
  generalize PredicateRewriteRule.rewrite oper₁ = r₂ at h₂ ⊢
  obtain ⟨oper₂, changed₂⟩ := r₂
  have h₃ := size_pushdownRewriter oper₂
  dsimp only at h₂ ⊢
  generalize PredicatePushdownRewriter.rewrite oper₂ = r₃ at h₃ ⊢
  obtain ⟨rc, oper₃, changed₃⟩ := r₃
  have hor := toNat_or_le changed₁ changed₂
  have hor' := toNat_or_le (changed₁ || changed₂) changed₃
  dsimp only at h₃ ⊢
  split
  · dsimp only
    omega
  · dsimp only
    omega

theorem size_rewriteChildren {children : List LogicalOperator}
    (h : ∀ c ∈ children, (Rewriter.rewrite c).2.1.size + (Rewriter.rewrite c).2.2.toNat ≤ c.size) :
    ((Rewriter.rewriteChildren children).2.1.map size).sum +
      (Rewriter.rewriteChildren children).2.2.toNat ≤ (children.map size).sum := by
  induction children with
  | nil => simp [Rewriter.rewriteChildren]
  | cons c children ih =>
    have hc := h c List.mem_cons_self
    have hrest := ih fun d hd => h d (List.mem_cons_of_mem c hd)
    rw [Rewriter.rewriteChildren]
    generalize Rewriter.rewrite c = r at hc ⊢
    generalize Rewriter.rewriteChildren children = r' at hrest ⊢
    obtain ⟨rc, c', changed⟩ := r
    obtain ⟨rc', rest, changed'⟩ := r'
    have hor := toNat_or_le changed changed'
    dsimp only at hc hrest ⊢
    split
    · simp only [List.map_cons, List.sum_cons]
      omega
    · simp only [List.map_cons, List.sum_cons]
      omega

theorem size_rewrite (oper : LogicalOperator) :
    (Rewriter.rewrite oper).2.1.size + (Rewriter.rewrite oper).2.2.toNat ≤ oper.size := by
  induction oper using Rewriter.ind with
  | step oper ih =>
    have hrules := size_applyRules oper
    have hchildren := size_rewriteChildren ih
    rw [Rewriter.rewrite]
    generalize Rewriter.applyRules oper = r at hrules hchildren ⊢
    obtain ⟨rc, ⟨type, expressions, children⟩, changed⟩ := r
    dsimp only [LogicalOperator.children] at hrules hchildren ⊢
    generalize Rewriter.rewriteChildren children = r' at hchildren ⊢
    obtain ⟨rc', rest, changed'⟩ := r'
    have hor := toNat_or_le changed changed'
    dsimp only at hchildren ⊢
    split
    · exact hrules
    · rw [size_mk] at hrules ⊢
      dsimp only [LogicalOperator.expressions]
      omega

end Size

section FailedPushdown

theorem getExprsCanPushdown_spec (e : Expression) :
    (getExprsCanPushdown e).1 = (if (conjuncts e).any isOr then .unimplemented else .success) ∧
      (getExprsCanPushdown e).2.2 = (beforeOr (conjuncts e)).filter isComparison := by
  let spec (es : List Expression) (rc : RC) (pushed : List Expression) :=
    rc = (if es.any isOr then .unimplemented else .success) ∧
      pushed = (beforeOr es).filter isComparison
  refine KeptByPushdown.expression (P := fun e r => spec (conjuncts e) r.1 r.2.2)
    (Q := fun es r => spec (es.map conjuncts).flatten r.1 r.2.2) ?_ e
  constructor
  case fails =>
    rintro child children r ⟨hcode, hmoved⟩ hrc
    have hor : (conjuncts child).any isOr = true := by grind
    simp only [spec, List.map_cons, List.flatten_cons, List.any_append, beforeOr_append, hcode,
      hmoved, hor, Bool.true_or, if_true, List.append_nil, and_self]
  case cons =>
    rintro child children r r' ⟨hcode, hmoved⟩ hrc ⟨hcode', hmoved'⟩
    have hor : (conjuncts child).any isOr = false := by grind
    simp only [spec, List.map_cons, List.flatten_cons, List.any_append, beforeOr_append, hcode',
      hmoved, hmoved', hor, Bool.false_or, Bool.false_eq_true, if_false, List.filter_append,
      and_self]
  all_goals
    intros
    simp_all [spec, conjuncts, isOr, isComparison, beforeOr, List.filter_cons]

theorem getExprsCanPushdown_left {e : Expression} (h : (getExprsCanPushdown e).2.2 = []) :
    (getExprsCanPushdown e).2.1 = some e := by
  revert h
  refine KeptByPushdown.expression (P := fun e r => r.2.2 = [] → r.2.1 = some e)
    (Q := fun es r => r.2.2 = [] → r.2.1 = es) ?_ e
  constructor <;> intros <;> simp_all

theorem getExprsCanPushdown_left_iff (e : Expression) :
    (getExprsCanPushdown e).2.1 = some e ↔ (getExprsCanPushdown e).2.2 = [] := by
  refine ⟨fun hsame => ?_, getExprsCanPushdown_left⟩
  have hsize := size_getExprsCanPushdown e
  have hpushed := size_of_mem_pushdown e
  rw [hsame] at hsize
  cases hmoved : (getExprsCanPushdown e).2.2 with
  | nil => rfl
  | cons p ps =>
    have hp := hpushed p (hmoved ▸ List.mem_cons_self)
    rw [hmoved] at hsize
    simp only [Option.toList_some, List.map_cons, List.map_nil, List.sum_cons,
      List.sum_nil] at hsize
    omega

theorem toList_eq_singleton {α : Type*} {o : Option α} {a : α} : o.toList = [a] ↔ o = some a := by
  cases o <;> simp

/-- A pushdown that fails leaves the filter as it was exactly where no comparison is in front of
the `OR` at which it fails. -/
theorem failed_pushdown_intact_iff (expr : Expression) (table : ℕ) (tableExprs : List Expression)
    (tableChildren : List LogicalOperator) :
    let oper := LogicalOperator.mk .predicate [expr]
      [.mk (.tableGet table) tableExprs tableChildren]
    ((PredicatePushdownRewriter.rewrite oper).1 ≠ .success →
      (PredicatePushdownRewriter.rewrite oper).2.1.expressions = [expr]) ↔
    ((conjuncts expr).any isOr → ∀ e ∈ beforeOr (conjuncts expr), ¬ isComparison e) := by
  intro oper
  obtain ⟨hcode, hmoved⟩ := getExprsCanPushdown_spec expr
  have hrewrite : PredicatePushdownRewriter.rewrite oper =
      if (getExprsCanPushdown expr).1 ≠ .success then
        ((getExprsCanPushdown expr).1, .mk .predicate (getExprsCanPushdown expr).2.1.toList
          [.mk (.tableGet table) tableExprs tableChildren], false)
      else (.success, .mk .predicate [orTrue (getExprsCanPushdown expr).2.1]
        [.mk (.tableGet table) tableExprs tableChildren],
        !(getExprsCanPushdown expr).2.2.isEmpty) := rfl
  rw [hrewrite]
  cases hor : (conjuncts expr).any isOr with
  | true =>
    rw [hor, if_pos rfl] at hcode
    have hfails : (getExprsCanPushdown expr).1 ≠ .success := by
      rw [hcode]
      decide
    rw [if_pos hfails]
    show (_ → (getExprsCanPushdown expr).2.1.toList = [expr]) ↔ _
    rw [imp_iff_right hfails, toList_eq_singleton, getExprsCanPushdown_left_iff,
      hmoved, List.filter_eq_nil_iff, imp_iff_right rfl]
  | false =>
    rw [hor, if_neg (by decide)] at hcode
    rw [if_neg (not_not.mpr hcode)]
    exact iff_of_true (fun h => absurd rfl h) fun h => absurd h (by decide)

/-- The comparison in front of the `OR` is lost, and the call fails. -/
theorem failed_pushdown_loses_comparison :
    let x : Expression := .field "t" "x" 0 .ints 4
    let one : Expression := .value (.ints 1)
    let comparison : Expression := .comparison .equalTo x one
    let either : Expression := .conjunction .or [comparison, .comparison .lessThan x one]
    let rewritten := PredicatePushdownRewriter.rewrite
      (.mk .predicate [.conjunction .and [comparison, either]] [.mk (.tableGet 0) [] []])
    rewritten.1 = .unimplemented ∧ rewritten.2.1.expressions = [.conjunction .and [either]] :=
  ⟨rfl, rfl⟩

end FailedPushdown

namespace OptimizeStage

/-- The loop ends: a change that is reported makes the plan smaller. -/
def rewrite (oper : LogicalOperator) : RC × LogicalOperator :=
  if (Rewriter.rewrite oper).1 ≠ .success then
    ((Rewriter.rewrite oper).1, (Rewriter.rewrite oper).2.1)
  else if _h : (Rewriter.rewrite oper).2.2 = true then rewrite (Rewriter.rewrite oper).2.1
  else (.success, (Rewriter.rewrite oper).2.1)
termination_by oper.size
decreasing_by
  have hsize := size_rewrite oper
  rw [_h, Bool.toNat_true] at hsize
  omega

def pass (oper : LogicalOperator) : Turn LogicalOperator (RC × LogicalOperator) :=
  let (rc, oper, changeMade) := Rewriter.rewrite oper
  if rc ≠ .success then .stop (rc, oper)
  else if changeMade then .again oper
  else .stop (.success, oper)

theorem size_lt_of_pass {oper next : LogicalOperator} (h : pass oper = .again next) :
    next.size < oper.size := by
  have hsize := size_rewrite oper
  unfold pass at h
  generalize Rewriter.rewrite oper = r at h hsize
  obtain ⟨rc, oper', changeMade⟩ := r
  dsimp only at h hsize
  split_ifs at h with hrc hchange
  cases h
  rw [hchange, Bool.toNat_true] at hsize
  omega

theorem rewrite_of_pass (oper : LogicalOperator) :
    match pass oper with
    | .again next => rewrite oper = rewrite next
    | .stop ended => rewrite oper = ended := by
  rw [rewrite, pass]
  by_cases hrc : (Rewriter.rewrite oper).1 ≠ .success
  · simp only [if_pos hrc]
  · cases hchange : (Rewriter.rewrite oper).2.2 <;> simp [hrc, hchange]

theorem run_pass {fuel : ℕ} (oper : LogicalOperator) (h : oper.size < fuel) :
    run pass fuel oper = some (rewrite oper) := by
  induction fuel generalizing oper with
  | zero => exact absurd h (Nat.not_lt_zero _)
  | succ fuel ih =>
    have hpass := rewrite_of_pass oper
    rw [run]
    cases hturn : pass oper with
    | again next =>
      have hlt := size_lt_of_pass hturn
      rw [hturn] at hpass
      rw [hpass]
      exact ih next (by omega)
    | stop ended =>
      rw [hturn] at hpass
      rw [hpass]

/-- The loop ends for every plan, after at most one pass more than the plan has nodes. -/
theorem rewrite_loop_ends (oper : LogicalOperator) :
    run pass (oper.size + 1) oper = some (rewrite oper) :=
  run_pass oper oper.size.lt_succ_self

end OptimizeStage

end LogicalRewriter
