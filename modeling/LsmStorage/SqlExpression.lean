import LsmStorage.ByteCodec
import Mathlib.Algebra.Order.BigOperators.Group.List
import Mathlib.Algebra.Order.Group.Nat

/-! # SQL expressions and their simplification

`ExpressionRewriter::rewrite_expression` applies two rules at an expression and, unless one of
them reports a change, goes on below it. Both rules answer `SUCCESS` always, so the code is left
out. The conjunction rule erases from a vector while it iterates: the iterator is taken to point
behind the erased element, as it does for the vectors of the library. -/
namespace SqlExpression

open ByteCodec

inductive AttrType where
  | undefined | chars | ints | floats | vectors | booleans
  deriving DecidableEq, Repr

/-- A string is the bytes behind its pointer, `none` for the null pointer. A float is its bit
pattern. -/
inductive Value where
  | undefined
  | chars (s : Option Bytes)
  | ints (n : ℤ)
  | floats (bits : UInt32)
  | vectors (data : Bytes)
  | booleans (b : Bool)
  deriving DecidableEq, Repr

namespace Value

def attrType : Value → AttrType
  | undefined => .undefined
  | chars _ => .chars
  | ints _ => .ints
  | floats _ => .floats
  | vectors _ => .vectors
  | booleans _ => .booleans

/-- For a string every path ends in the test of the pointer. `0x358637be` is the least float
that is not below `EPSILON`, and above `0x7f800000` are the patterns that are no numbers. -/
def getBoolean : Value → Bool
  | chars s => s.isSome
  | ints n => n ≠ 0
  | floats bits =>
    let magnitude := bits &&& 0x7fffffff
    0x358637be ≤ magnitude ∧ magnitude ≤ 0x7f800000
  | booleans b => b
  | undefined | vectors _ => false

end Value

inductive CompOp where
  | equalTo | lessEqual | notEqual | lessThan | greatEqual | greatThan | noOp
  deriving DecidableEq, Repr

inductive ConjunctionType where
  | and | or
  deriving DecidableEq, Repr

inductive ArithmeticType where
  | add | sub | mul | div | negative
  deriving DecidableEq, Repr

inductive AggregateType where
  | count | sum | avg | max | min
  deriving DecidableEq, Repr

/-- The right operand of `NEGATIVE` is a null pointer. Names and positions, which no rule reads,
are left out. -/
inductive Expression where
  | star (tableName : String)
  | unboundField (tableName fieldName : String)
  | unboundAggregation (aggregateName : String) (child : Expression)
  | field (tableName fieldName : String) (fieldIdx : ℤ) (type : AttrType) (len : ℤ)
  | value (value : Value)
  | cast (child : Expression) (castType : AttrType)
  | comparison (comp : CompOp) (left right : Expression)
  | conjunction (type : ConjunctionType) (children : List Expression)
  | arithmetic (type : ArithmeticType) (left : Expression) (right : Option Expression)
  | aggregation (type : AggregateType) (child : Expression)
  deriving Repr

theorem sum_map_add_any_le {α : Type*} (l : List α) (size : α → ℕ) (f : α → α × Bool)
    (h : ∀ a ∈ l, size (f a).1 + (f a).2.toNat ≤ size a) :
    ((l.map fun a => (f a).1).map size).sum + (l.any fun a => (f a).2).toNat ≤
      (l.map size).sum := by
  induction l with
  | nil => simp
  | cons a l ih =>
    have ha := h a List.mem_cons_self
    have hl := ih fun b hb => h b (List.mem_cons_of_mem a hb)
    have hor : ((f a).2 || l.any fun a => (f a).2).toNat ≤
        (f a).2.toNat + (l.any fun a => (f a).2).toNat := by
      cases (f a).2 <;> simp
    simp only [List.map_cons, List.sum_cons, List.any_cons]
    omega

namespace Expression

def valueType : Expression → AttrType
  | star _ | unboundField _ _ | arithmetic _ _ _ => .undefined
  | unboundAggregation _ child => child.valueType
  | field _ _ _ type _ => type
  | value v => v.attrType
  | cast _ castType => castType
  | comparison _ _ _ | conjunction _ _ => .booleans
  | aggregation .count _ => .ints
  | aggregation .avg _ => .floats
  | aggregation _ child => child.valueType

/-- Casts, arithmetic and comparisons answer `UNIMPLEMENTED`, as does the base class. -/
def tryGetValue : Expression → Option Value
  | value v => some v
  | _ => none

def tryToGetBoolConstant : Expression → Option Bool
  | value (.booleans b) => some b
  | _ => none

theorem tryToGetBoolConstant_eq_some {e : Expression} {b : Bool} :
    e.tryToGetBoolConstant = some b ↔ e = value (.booleans b) := by
  constructor
  · intro h
    unfold tryToGetBoolConstant at h
    split at h
    · rw [Option.some.inj h]
    · cases h
  · rintro rfl
    rfl

end Expression

namespace ComparisonSimplificationRule

def rewrite : Expression → Expression × Bool
  | .comparison comp left right =>
    match (Expression.comparison comp left right).tryGetValue with
    | some v => (.value v, true)
    | none => (.comparison comp left right, false)
  | e => (e, false)

theorem rewrite_eq (e : Expression) : rewrite e = (e, false) := by
  cases e <;> rfl

end ComparisonSimplificationRule

def ConjunctionType.neutral : ConjunctionType → Bool
  | .and => true
  | .or => false

namespace ConjunctionSimplificationRule

/-- The loop over the children with those that were kept so far. At the other constant it stops
with the first of the children that are left. -/
def scan (type : ConjunctionType) : List Expression → List Expression →
    List Expression ⊕ Expression
  | kept, [] => .inl kept
  | kept, child :: children =>
    match child.tryToGetBoolConstant with
    | none => scan type (kept ++ [child]) children
    | some constantValue =>
      if constantValue = type.neutral then scan type kept children
      else .inr (kept.headD child)

def rewrite : Expression → Expression × Bool
  | .conjunction type children =>
    match scan type [] children with
    | .inr front => (front, false)
    | .inl [child] => (child, true)
    | .inl kept => (.conjunction type kept, false)
  | e => (e, false)

def kept (type : ConjunctionType) (children : List Expression) : List Expression :=
  children.filter fun child => child.tryToGetBoolConstant ≠ some type.neutral

theorem kept_sublist (type : ConjunctionType) (children : List Expression) :
    (kept type children).Sublist children :=
  List.filter_sublist

def Undecided (type : ConjunctionType) (children : List Expression) : Prop :=
  ∀ child ∈ children, child.tryToGetBoolConstant ≠ some !type.neutral

theorem scan_append {type : ConjunctionType} {pre : List Expression} (h : Undecided type pre)
    (front rest : List Expression) :
    scan type front (pre ++ rest) = scan type (front ++ kept type pre) rest := by
  induction pre generalizing front with
  | nil => simp [kept]
  | cons child pre ih =>
    have hrest := ih fun c hc => h c (List.mem_cons_of_mem child hc)
    have hchild := h child List.mem_cons_self
    rw [List.cons_append, scan]
    cases hconst : child.tryToGetBoolConstant with
    | none =>
      dsimp only
      rw [hrest, kept, kept, List.filter_cons_of_pos (by simp [hconst])]
      simp
    | some b =>
      have hb : b = type.neutral := by
        rw [hconst] at hchild
        cases b <;> cases hn : type.neutral <;> simp_all
      dsimp only
      rw [if_pos hb, hrest, kept, kept, List.filter_cons_of_neg (by simp [hconst, hb])]

theorem scan_of_undecided {type : ConjunctionType} {children : List Expression}
    (h : Undecided type children) (front : List Expression) :
    scan type front children = .inl (front ++ kept type children) := by
  have hscan := scan_append h front []
  rwa [List.append_nil] at hscan

theorem scan_of_decided {type : ConjunctionType} {pre post : List Expression} {child : Expression}
    (hpre : Undecided type pre) (hchild : child.tryToGetBoolConstant = some !type.neutral)
    (front : List Expression) :
    scan type front (pre ++ child :: post) = .inr ((front ++ kept type pre).headD child) := by
  rw [scan_append hpre, scan, hchild]
  exact if_neg (Bool.not_ne_self _)

theorem undecided_or_split (type : ConjunctionType) (children : List Expression) :
    Undecided type children ∨ ∃ pre child post, children = pre ++ child :: post ∧
      Undecided type pre ∧ child.tryToGetBoolConstant = some !type.neutral := by
  induction children with
  | nil =>
    left
    intro c hc
    cases hc
  | cons c children ih =>
    by_cases hc : c.tryToGetBoolConstant = some !type.neutral
    · exact Or.inr ⟨[], c, children, rfl, fun d hd => absurd hd List.not_mem_nil, hc⟩
    rcases ih with hall | ⟨pre, child, post, rfl, hpre, hchild⟩
    · left
      intro d hd
      rcases List.mem_cons.mp hd with rfl | hd
      · exact hc
      · exact hall d hd
    · right
      refine ⟨c :: pre, child, post, rfl, ?_, hchild⟩
      intro d hd
      rcases List.mem_cons.mp hd with rfl | hd
      · exact hc
      · exact hpre d hd

/-- What the rule can do at a conjunction: it erases the neutral constants and leaves a single
child alone, or it meets a constant that decides and takes the first child that is left. -/
theorem rewrite_conjunction (type : ConjunctionType) (children : List Expression) :
    (Undecided type children ∧
      ((∃ child, kept type children = [child] ∧
          rewrite (.conjunction type children) = (child, true)) ∨
        rewrite (.conjunction type children) = (.conjunction type (kept type children), false))) ∨
    ∃ pre child post, children = pre ++ child :: post ∧ Undecided type pre ∧
      child.tryToGetBoolConstant = some (!type.neutral) ∧
      rewrite (.conjunction type children) = ((kept type pre).headD child, false) := by
  rcases undecided_or_split type children with hall | ⟨pre, child, post, rfl, hpre, hchild⟩
  · refine Or.inl ⟨hall, ?_⟩
    have hscan := scan_of_undecided hall []
    rw [List.nil_append] at hscan
    rw [rewrite, hscan]
    split
    · next h => cases h
    · next child h => exact Or.inl ⟨child, Sum.inl.inj h, rfl⟩
    · next kept _ h =>
      cases h
      exact Or.inr rfl
  · right
    refine ⟨pre, child, post, rfl, hpre, hchild, ?_⟩
    rw [rewrite, scan_of_decided hpre hchild, List.nil_append]

end ConjunctionSimplificationRule

namespace Expression

def size : Expression → ℕ
  | cast child _ => 1 + child.size
  | comparison _ left right => 1 + left.size + right.size
  | conjunction _ children => 1 + (children.map size).sum
  | _ => 1

theorem size_conjunction (type : ConjunctionType) (children : List Expression) :
    (conjunction type children).size = 1 + (children.map size).sum := by
  rw [size]

theorem size_pos (e : Expression) : 0 < e.size := by
  cases e <;> simp only [size] <;> omega

theorem size_le_of_mem {e : Expression} {l : List Expression} (h : e ∈ l) :
    e.size ≤ (l.map size).sum :=
  List.single_le_sum (by simp) _ (List.mem_map_of_mem h)

end Expression

theorem headD_mem_append (l : List Expression) (e : Expression) (l' : List Expression)
    {l₀ : List Expression} (h : l.Sublist l₀) : l.headD e ∈ l₀ ++ e :: l' := by
  cases l with
  | nil => simp
  | cons a l => exact List.mem_append_left _ (h.subset List.mem_cons_self)

namespace ConjunctionSimplificationRule

theorem size_rewrite (e : Expression) :
    (rewrite e).1.size + (rewrite e).2.toNat ≤ e.size := by
  cases e with
  | conjunction type children =>
    rw [Expression.size_conjunction]
    rcases rewrite_conjunction type children with
      ⟨-, ⟨child, hkept, heq⟩ | heq⟩ | ⟨pre, child, post, rfl, -, -, heq⟩
    · have hmem : child ∈ children :=
        List.mem_of_mem_filter (hkept ▸ List.mem_singleton_self child)
      have hle := Expression.size_le_of_mem hmem
      rw [heq]
      show child.size + 1 ≤ _
      omega
    · have hle := ((kept_sublist type children).map Expression.size).sum_le_sum (by simp)
      rw [heq]
      show (Expression.conjunction type (kept type children)).size + 0 ≤ _
      rw [Expression.size_conjunction]
      omega
    · have hle := Expression.size_le_of_mem (headD_mem_append (kept type pre) child post
        (kept_sublist type pre))
      rw [heq]
      show ((kept type pre).headD child).size + 0 ≤ _
      omega
  | _ => exact le_refl _

section Truth

def childTruth (assign : Expression → Bool) (child : Expression) : Bool :=
  child.tryToGetBoolConstant.getD (assign child)

def conjunctionTruth (assign : Expression → Bool) (type : ConjunctionType)
    (children : List Expression) : Bool :=
  match type with
  | .and => children.all (childTruth assign)
  | .or => children.any (childTruth assign)

open Classical in
noncomputable def leftTruth (assign : Expression → Bool) (children : List Expression)
    (left : Expression) : Bool :=
  if left ∈ children then childTruth assign left
  else
    match left with
    | .conjunction type kept => conjunctionTruth assign type kept
    | e => childTruth assign e

variable {assign : Expression → Bool} {type : ConjunctionType} {children : List Expression}

theorem conjunctionTruth_eq_neutral :
    conjunctionTruth assign type children = type.neutral ↔
      ∀ child ∈ children, childTruth assign child = type.neutral := by
  cases type with
  | and => simp [conjunctionTruth, ConjunctionType.neutral]
  | or => simp [conjunctionTruth, ConjunctionType.neutral]

variable {child : Expression}

theorem childTruth_of_constant {b : Bool} (h : child.tryToGetBoolConstant = some b) :
    childTruth assign child = b := by
  rw [childTruth, h, Option.getD_some]

theorem bool_eq_of_iff {a b c : Bool} (h : a = c ↔ b = c) : a = b := by
  cases a <;> cases b <;> cases c <;> simp_all

theorem conjunctionTruth_kept (assign : Expression → Bool) (type : ConjunctionType)
    (children : List Expression) :
    conjunctionTruth assign type (kept type children) = conjunctionTruth assign type children := by
  apply bool_eq_of_iff (c := type.neutral)
  rw [conjunctionTruth_eq_neutral, conjunctionTruth_eq_neutral]
  constructor
  · intro h child hchild
    by_cases hneutral : child.tryToGetBoolConstant = some type.neutral
    · exact childTruth_of_constant hneutral
    · exact h child (List.mem_filter.mpr ⟨hchild, decide_eq_true hneutral⟩)
  · intro h child hchild
    exact h child (List.mem_of_mem_filter hchild)

theorem conjunctionTruth_of_decided (hmem : child ∈ children)
    (hchild : child.tryToGetBoolConstant = some !type.neutral) :
    conjunctionTruth assign type children = !type.neutral := by
  rw [Bool.eq_not]
  intro hneutral
  have htruth := conjunctionTruth_eq_neutral.mp hneutral child hmem
  rw [childTruth_of_constant hchild] at htruth
  exact Bool.not_ne_self _ htruth

theorem leftTruth_of_mem {left : Expression} (h : left ∈ children) :
    leftTruth assign children left = childTruth assign left :=
  if_pos h

theorem leftTruth_kept (assign : Expression → Bool) (type : ConjunctionType)
    (children : List Expression) :
    leftTruth assign children (.conjunction type (kept type children)) =
      conjunctionTruth assign type (kept type children) := by
  refine if_neg fun hmem => ?_
  have hkept : Expression.conjunction type (kept type children) ∈ kept type children :=
    List.mem_filter.mpr ⟨hmem, rfl⟩
  have hsize := Expression.size_le_of_mem hkept
  rw [Expression.size_conjunction] at hsize
  omega

theorem leftTruth_of_undecided (assign : Expression → Bool) (h : Undecided type children) :
    leftTruth assign children (rewrite (.conjunction type children)).1 =
      conjunctionTruth assign type children := by
  rw [← conjunctionTruth_kept]
  rcases rewrite_conjunction type children with
    ⟨-, ⟨child, hkept, heq⟩ | heq⟩ | ⟨pre, child, post, rfl, -, hchild, -⟩
  · have hmem : child ∈ children :=
      List.mem_of_mem_filter (hkept ▸ List.mem_singleton_self child)
    rw [heq, leftTruth_of_mem hmem, hkept]
    cases type <;> simp [conjunctionTruth]
  · rw [heq, leftTruth_kept]
  · exact absurd hchild (h child (List.mem_append_right pre List.mem_cons_self))

theorem constant_none_of_mem_kept {pre : List Expression} (hpre : Undecided type pre)
    (hchild : child ∈ kept type pre) :
    child.tryToGetBoolConstant = none := by
  obtain ⟨hmem, hneutral⟩ := List.mem_filter.mp hchild
  have hundecided := hpre child hmem
  cases hconstant : child.tryToGetBoolConstant with
  | none => rfl
  | some b =>
    rw [hconstant] at hneutral hundecided
    cases b <;> cases hn : type.neutral <;> simp_all

def beforeDecision (type : ConjunctionType) (children : List Expression) : List Expression :=
  children.takeWhile fun child => child.tryToGetBoolConstant ≠ some !type.neutral

theorem beforeDecision_append {pre post : List Expression} (hpre : Undecided type pre)
    (hchild : child.tryToGetBoolConstant = some !type.neutral) :
    beforeDecision type (pre ++ child :: post) = pre := by
  rw [beforeDecision, List.takeWhile_append_of_pos fun c hc => decide_eq_true (hpre c hc),
    List.takeWhile_cons_of_neg (by simp [hchild]), List.append_nil]

/-- The rule keeps the truth for every assignment exactly where no child decides the conjunction,
or only neutral constants are in front of the first one that does. -/
theorem rewrite_keeps_truth_iff (type : ConjunctionType) (children : List Expression) :
    (∀ assign, leftTruth assign children (rewrite (.conjunction type children)).1 =
      conjunctionTruth assign type children) ↔
    Undecided type children ∨ kept type (beforeDecision type children) = [] := by
  rcases rewrite_conjunction type children with
    ⟨hall, -⟩ | ⟨pre, child, post, rfl, hpre, hchild, heq⟩
  · exact iff_of_true (fun assign => leftTruth_of_undecided assign hall) (.inl hall)
  have hmem : child ∈ pre ++ child :: post := List.mem_append_right pre List.mem_cons_self
  have hleft := headD_mem_append (kept type pre) child post (kept_sublist type pre)
  rw [beforeDecision_append hpre hchild]
  cases hkept : kept type pre with
  | nil =>
    refine iff_of_true (fun assign => ?_) (.inr rfl)
    rw [heq, leftTruth_of_mem hleft, hkept, conjunctionTruth_of_decided hmem hchild]
    exact childTruth_of_constant hchild
  | cons front rest =>
    have hfront : front ∈ kept type pre := hkept ▸ List.mem_cons_self
    have hopen := constant_none_of_mem_kept hpre hfront
    refine iff_of_false (fun hkeeps => ?_) ?_
    · -- the child that is left gets the neutral value
      have htruth := hkeeps fun _ => type.neutral
      rw [heq, leftTruth_of_mem hleft, conjunctionTruth_of_decided hmem hchild, hkept] at htruth
      rw [List.headD_cons, childTruth, hopen, Option.getD_none] at htruth
      exact Bool.not_ne_self _ htruth.symm
    · rintro (hall | hnil)
      · exact hall child hmem hchild
      · cases hnil

/-- `x AND FALSE` is left as `x`, and `x OR TRUE` as `x`. -/
theorem decided_conjunction_left_open :
    let x : Expression := .field "t" "x" 0 .booleans 4
    let constant (b : Bool) : Expression := .value (.booleans b)
    (rewrite (.conjunction .and [x, constant false])).1 = x ∧
    leftTruth (fun _ => true) [x, constant false] x = true ∧
    conjunctionTruth (fun _ => true) .and [x, constant false] = false ∧
    (rewrite (.conjunction .or [x, constant true])).1 = x ∧
    leftTruth (fun _ => false) [x, constant true] x = false ∧
    conjunctionTruth (fun _ => false) .or [x, constant true] = true :=
  ⟨rfl, leftTruth_of_mem List.mem_cons_self, rfl, rfl, leftTruth_of_mem List.mem_cons_self, rfl⟩

end Truth

end ConjunctionSimplificationRule

namespace ExpressionRewriter

open Expression

def applyRules (expr : Expression) : Expression × Bool :=
  let (expr, comparisonChanged) := ComparisonSimplificationRule.rewrite expr
  let (expr, conjunctionChanged) := ConjunctionSimplificationRule.rewrite expr
  (expr, comparisonChanged || conjunctionChanged)

theorem applyRules_eq (e : Expression) :
    applyRules e = ConjunctionSimplificationRule.rewrite e := by
  rw [applyRules, ComparisonSimplificationRule.rewrite_eq]
  simp

theorem size_applyRules (e : Expression) :
    (applyRules e).1.size + (applyRules e).2.toNat ≤ e.size := by
  rw [applyRules_eq]
  exact ConjunctionSimplificationRule.size_rewrite e

def rewriteExpression (expr : Expression) : Expression × Bool :=
  if (applyRules expr).2 then ((applyRules expr).1, true)
  else
    match _h : (applyRules expr).1 with
    | .cast child castType =>
      (.cast (rewriteExpression child).1 castType, (rewriteExpression child).2)
    | .comparison comp left right =>
      (.comparison comp (rewriteExpression left).1 (rewriteExpression right).1,
        (rewriteExpression left).2 || (rewriteExpression right).2)
    | .conjunction type children =>
      (.conjunction type (children.attach.map fun child => (rewriteExpression child.1).1),
        children.attach.any fun child => (rewriteExpression child.1).2)
    | e => (e, false)
termination_by expr.size
decreasing_by
  all_goals
    have hsize := size_applyRules expr
    rw [_h] at hsize
    simp only [size] at hsize
    first
    | omega
    | have := size_le_of_mem child.2
      omega

/-- The second step, at an expression that the rules did not change. -/
def descend (f : Expression → Expression × Bool) : Expression → Expression × Bool
  | .cast child castType => (.cast (f child).1 castType, (f child).2)
  | .comparison comp left right =>
    (.comparison comp (f left).1 (f right).1, (f left).2 || (f right).2)
  | .conjunction type children =>
    (.conjunction type (children.map fun child => (f child).1),
      children.any fun child => (f child).2)
  | e => (e, false)

theorem descend_of_leaf {f : Expression → Expression × Bool} {e : Expression}
    (hcast : ∀ child castType, e ≠ .cast child castType)
    (hcomparison : ∀ comp left right, e ≠ .comparison comp left right)
    (hconjunction : ∀ type children, e ≠ .conjunction type children) :
    descend f e = (e, false) := by
  cases e with
  | cast child castType => exact absurd rfl (hcast child castType)
  | comparison comp left right => exact absurd rfl (hcomparison comp left right)
  | conjunction type children => exact absurd rfl (hconjunction type children)
  | _ => rfl

theorem rewriteExpression_eq (e : Expression) :
    rewriteExpression e =
      if (applyRules e).2 then ((applyRules e).1, true)
      else descend rewriteExpression (applyRules e).1 := by
  rw [rewriteExpression]
  split
  · rfl
  split
  · next h => rw [h, descend]
  · next h => rw [h, descend]
  · next h =>
    rw [h, descend]
    simp
  · next hcast hcomparison hconjunction =>
    rw [descend_of_leaf hcast hcomparison hconjunction]

theorem rewriteExpression_value (v : Value) :
    rewriteExpression (.value v) = (.value v, false) := by
  rw [rewriteExpression_eq]
  rfl

/-- A relation between an expression, what it is rewritten to and the reported change holds of
the rewriter if it holds of the conjunction rule and passes to larger expressions. -/
theorem rewriteExpression_rel {R : Expression → Expression → Bool → Prop}
    (refl : ∀ e, R e e false)
    (trans : ∀ {e₁ e₂ e₃ changed}, R e₁ e₂ false → R e₂ e₃ changed → R e₁ e₃ changed)
    (rule : ∀ e, R e (ConjunctionSimplificationRule.rewrite e).1
      (ConjunctionSimplificationRule.rewrite e).2)
    (cast : ∀ {e e' changed} castType, R e e' changed →
      R (.cast e castType) (.cast e' castType) changed)
    (comparison : ∀ {l l' r r' lchanged rchanged} comp, R l l' lchanged → R r r' rchanged →
      R (.comparison comp l r) (.comparison comp l' r') (lchanged || rchanged))
    (conjunction : ∀ type (children : List Expression) (f : Expression → Expression × Bool),
      (∀ c ∈ children, R c (f c).1 (f c).2) →
      R (.conjunction type children) (.conjunction type (children.map fun c => (f c).1))
        (children.any fun c => (f c).2)) (e : Expression) :
    R e (rewriteExpression e).1 (rewriteExpression e).2 := by
  have hrule : ∀ e, R e (applyRules e).1 (applyRules e).2 := by
    intro e
    rw [applyRules_eq]
    exact rule e
  -- the rules at `e` reported no change, and the rest is about what they left
  have hbelow : ∀ e, ¬ (applyRules e).2 = true →
      R (applyRules e).1 (descend rewriteExpression (applyRules e).1).1
        (descend rewriteExpression (applyRules e).1).2 →
      R e (rewriteExpression e).1 (rewriteExpression e).2 := by
    intro e hsame hrel
    rw [rewriteExpression_eq, if_neg hsame]
    have hfirst := hrule e
    rw [Bool.not_eq_true] at hsame
    rw [hsame] at hfirst
    exact trans hfirst hrel
  induction e using rewriteExpression.induct with
  | case1 e hchanged =>
    have hfirst := hrule e
    rw [hchanged] at hfirst
    rw [rewriteExpression_eq, if_pos hchanged]
    exact hfirst
  | case2 e hsame child castType h ih =>
    apply hbelow e hsame
    rw [h]
    exact cast castType ih
  | case3 e hsame comp left right h ihl ihr =>
    apply hbelow e hsame
    rw [h]
    exact comparison comp ihl ihr
  | case4 e hsame type children h ih =>
    apply hbelow e hsame
    rw [h]
    exact conjunction type children rewriteExpression fun c hc => ih ⟨c, hc⟩
  | case5 e hsame hcast hcomparison hconjunction =>
    apply hbelow e hsame
    rw [descend_of_leaf hcast hcomparison hconjunction]
    exact refl _

theorem size_rewriteExpression (e : Expression) :
    (rewriteExpression e).1.size + (rewriteExpression e).2.toNat ≤ e.size := by
  apply rewriteExpression_rel (R := fun e e' changed => e'.size + changed.toNat ≤ e.size)
  · intro e
    exact le_refl _
  · intro e₁ e₂ e₃ changed h₁ h₂
    simp only [Bool.toNat_false] at h₁
    omega
  · exact ConjunctionSimplificationRule.size_rewrite
  · intro e e' changed castType h
    simp only [size]
    omega
  · intro l l' r r' lchanged rchanged comp hl hr
    have hor : (lchanged || rchanged).toNat ≤ lchanged.toNat + rchanged.toNat := by
      cases lchanged <;> simp
    simp only [size]
    omega
  · intro type children f h
    have hsum := sum_map_add_any_le children size f h
    rw [size_conjunction, size_conjunction]
    omega

end ExpressionRewriter

end SqlExpression
