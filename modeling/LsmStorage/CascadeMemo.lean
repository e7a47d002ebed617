import LsmStorage.HeapChain
import LsmStorage.SqlExpression
import Mathlib.Data.Finset.Insert

/-! # The memo of the cascade optimizer

A logical operator tree goes into the memo from the leaves up. An expression is looked up by the
types of the operators below it and by the groups of its children; what else an operator holds is
not compared. A failed assertion, as the default debug build has them, and a null pointer that is
followed are `none`. -/
namespace Cascade

open SqlExpression

inductive OpType where
  | undefined | leaf
  | logicalGet | logicalCalculate | logicalGroupBy | logicalProjection | logicalFilter
  | logicalInnerJoin | logicalInsert | logicalDelete | logicalUpdate | logicalLimit
  | logicalAnalyze | logicalExplain | logicalPhysicalDelimiter
  | explain | calculate | seqScan | indexScan | orderBy | limit | innerIndexJoin | innerNlJoin
  | innerHashJoin | projection | insert | delete | update | aggregate | hashGroupBy | analyze
  | filter | scalarGroupBy
  deriving DecidableEq

section Operators

/-- The classes of logical operators, with the members that only they have. A table is the one that
the operator was made for: the classes in the source drop the pointer. -/
inductive LogicalOperatorType where
  | calc
  | tableGet (table : ℕ)
  | predicate
  | projection
  | join (joinPredicates : List Expression)
  | insert (table : ℕ) (values : List Value)
  | delete (table : ℕ)
  | explain
  | groupBy (groupByExpressions aggregateExpressions : List Expression)

/-- Three of the classes do not say what they are. -/
def LogicalOperatorType.getOpType : LogicalOperatorType → OpType
  | .calc => .logicalCalculate
  | .tableGet _ | .insert _ _ | .delete _ => .undefined
  | .predicate => .logicalFilter
  | .projection => .logicalProjection
  | .join _ => .logicalInnerJoin
  | .explain => .logicalExplain
  | .groupBy _ _ => .logicalGroupBy

inductive LogicalOperator where
  | mk (type : LogicalOperatorType) (expressions : List Expression)
    (children : List LogicalOperator)

inductive PhysicalOperatorType where
  | tableScan (table : ℕ)
  | project (expressions : List Expression)
  | insert (table : ℕ) (values : List Value)
  | explain
  | calc (expressions : List Expression)
  | delete (table : ℕ)
  | predicate (expression : Expression)

def PhysicalOperatorType.getOpType : PhysicalOperatorType → OpType
  | .tableScan _ | .insert _ _ | .delete _ => .undefined
  | .project _ => .projection
  | .explain => .explain
  | .calc _ => .calculate
  | .predicate _ => .filter

/-- The general children of a physical operator are those of the logical operator that it
implements. -/
inductive OperatorNode where
  | logical (oper : LogicalOperator)
  | physical (type : PhysicalOperatorType) (generalChildren : List LogicalOperator)

namespace LogicalOperator

def type : LogicalOperator → LogicalOperatorType
  | mk type _ _ => type

def expressions : LogicalOperator → List Expression
  | mk _ expressions _ => expressions

def children : LogicalOperator → List LogicalOperator
  | mk _ _ children => children

@[elab_as_elim]
theorem ind {motive : LogicalOperator → Prop}
    (mk : ∀ type expressions children, (∀ c ∈ children, motive c) →
      motive (mk type expressions children)) : ∀ oper, motive oper
  | .mk type expressions children => mk type expressions children fun c _ => ind mk c

mutual

def equal : LogicalOperator → LogicalOperator → Bool
  | .mk type _ children, .mk type' _ children' =>
    if type.getOpType ≠ type'.getOpType then false
    else if children.length ≠ children'.length then false
    else equalAll children children'

def equalAll : List LogicalOperator → List LogicalOperator → Bool
  | child :: children, other :: others =>
    if equal child other = false then false else equalAll children others
  | _, _ => true

end

mutual

def nodes : LogicalOperator → List LogicalOperator
  | .mk type expressions children => nodesAll children ++ [.mk type expressions children]

def nodesAll : List LogicalOperator → List LogicalOperator
  | [] => []
  | child :: children => nodes child ++ nodesAll children

end

end LogicalOperator

namespace OperatorNode

def getOpType : OperatorNode → OpType
  | logical oper => oper.type.getOpType
  | physical type _ => type.getOpType

def isPhysical : OperatorNode → Bool
  | logical _ => false
  | physical _ _ => true

def getGeneralChildren : OperatorNode → List LogicalOperator
  | logical oper => oper.children
  | physical _ generalChildren => generalChildren

def equal (node other : OperatorNode) : Bool :=
  if node.getOpType ≠ other.getOpType then false
  else if node.getGeneralChildren.length ≠ other.getGeneralChildren.length then false
  else LogicalOperator.equalAll node.getGeneralChildren other.getGeneralChildren

end OperatorNode

structure LogicalProperty where
  card : ℤ

def comparesFields : Expression → Bool
  | .comparison .equalTo (.field ..) (.field ..) => true
  | _ => false

/-- The inner `none` is a null pointer. -/
def OperatorNode.findLogProp : OperatorNode → List (Option LogicalProperty) →
    Option (Option LogicalProperty)
  | .logical (.mk (.join joinPredicates) _ _), [left, right] => do
    let left ← left
    let right ← right
    let divide := fun card predicate =>
      if comparesFields predicate then card.tdiv (max (max left.card right.card) 1) else card
    some (some ⟨joinPredicates.foldl divide (left.card * right.card)⟩)
  | _, _ => some none

end Operators

inductive RuleType where
  | logicalPhysicalDelimiter
  | getToSeqScan | getToIndexScan | deleteToPhysical | updateToPhysical | insertToPhysical
  | aggregateToPhysical | innerJoinToNlJoin | innerJoinToHashJoin | implementLimit
  | projectionToPhysical | analyzeToPhysical | explainToPhysical | calcToPhysical
  | predicateToPhysical | groupByToPhysicalAggregation | groupByToPhysicalHashGroupBy
  deriving DecidableEq

/-- Costs are of any type with what the optimizer does to them: its `double`, with the greatest
finite one as the upper bound. The lower bound of a group is not above it. The cost of an operator
is `none` where it follows a null property. -/
structure CostModel (C : Type) where
  zero : C
  add : C → C → C
  lt : C → C → Bool
  max : C
  costLb : C
  costLb_le : lt max costLb = false
  calculateCost : OperatorNode → Option LogicalProperty → List (Option LogicalProperty) → Option C

structure Entry where
  contents : OperatorNode
  childGroups : List ℕ
  groupId : ℕ

structure GroupExpr (C : Type) extends Entry where
  ruleMask : Finset RuleType := ∅
  lowestCost : C

/-- `winner_` is a cost and a pointer. -/
structure Group (C : Type) where
  winnerCost : C
  winner : Option ℕ := none
  hasExplored : Bool := false
  logicalExpressions : List ℕ := []
  physicalExpressions : List ℕ := []
  logicalProp : Option LogicalProperty := none

/-- A pointer to an expression is its place among `group_expressions_`. -/
structure Memo (C : Type) where
  groupExpressions : List (GroupExpr C) := []
  groups : List (Group C) := []

def Entry.equal (contents : OperatorNode) (childGroups : List ℕ) (entry : Entry) : Bool :=
  entry.contents.equal contents && entry.childGroups == childGroups

def Group.addExpr {C : Type} (contents : OperatorNode) (expr : ℕ) (group : Group C) : Group C :=
  if contents.isPhysical then
    { group with physicalExpressions := group.physicalExpressions ++ [expr] }
  else { group with logicalExpressions := group.logicalExpressions ++ [expr] }

namespace Memo

variable {C : Type}

def entries (memo : Memo C) : List Entry := memo.groupExpressions.map GroupExpr.toEntry

/-- Equal expressions have equal hashes, so the hash is not looked at. -/
def find (entries : List Entry) (contents : OperatorNode) (childGroups : List ℕ) : Option ℕ :=
  entries.findIdx? (Entry.equal contents childGroups)

variable (cm : CostModel C)

def addNewGroup (contents : OperatorNode) (childGroups : List ℕ) (memo : Memo C) :
    Option (ℕ × List (Group C)) := do
  let inputProp ← childGroups.mapM fun id => memo.groups[id]?.map Group.logicalProp
  let logicalProp ← contents.findLogProp inputProp
  some (memo.groups.length, memo.groups ++ [{ winnerCost := cm.max, logicalProp }])

/-- The expression that is in the memo, and whether it is new. Without a target it gets a group of
its own. -/
def insertExpression (contents : OperatorNode) (childGroups : List ℕ) (targetGroup : Option ℕ)
    (memo : Memo C) : Option (ℕ × Bool × Memo C) :=
  match find memo.entries contents childGroups with
  | some expr => some (expr, false, memo)
  | none => do
    let (groupId, groups) ← match targetGroup with
      | none => memo.addNewGroup cm contents childGroups
      | some id => some (id, memo.groups)
    let group ← groups[groupId]?
    let expr := memo.groupExpressions.length
    some (expr, true, {
      groupExpressions :=
        memo.groupExpressions ++ [{ contents, childGroups, groupId, lowestCost := cm.max }]
      groups := groups.set groupId (group.addExpr contents expr) })

end Memo

section Record

variable {C : Type} (cm : CostModel C)

abbrev Assigned := List (LogicalOperator × ℕ)

mutual

/-- The loop of `make_group_expression`: the groups of the children. What was assigned on the way is
a ghost observation. -/
def recordChildren : List LogicalOperator → Memo C → Option (List ℕ × Assigned × Memo C)
  | [], memo => some ([], [], memo)
  | child :: children, memo => do
    let (group, assigned, memo) ← recordChild child memo
    let (groups, more, memo) ← recordChildren children memo
    some (group :: groups, assigned ++ more, memo)

def recordChild : LogicalOperator → Memo C → Option (ℕ × Assigned × Memo C)
  | .mk type expressions children, memo => do
    let (childGroups, assigned, memo) ← recordChildren children memo
    let (expr, _, memo) ←
      memo.insertExpression cm (.logical (.mk type expressions children)) childGroups none
    let gexpr ← memo.groupExpressions[expr]?
    some (gexpr.groupId, assigned ++ [(.mk type expressions children, gexpr.groupId)], memo)

end

/-- The expression and whether it is new, and what was assigned below it. -/
def recordNodeIntoGroup (node : OperatorNode) (targetGroup : Option ℕ) (memo : Memo C) :
    Option (ℕ × Bool × Assigned × Memo C) := do
  let (childGroups, assigned, memo) ← recordChildren cm node.getGeneralChildren memo
  let (expr, inserted, memo) ← memo.insertExpression cm node childGroups targetGroup
  some (expr, inserted, assigned, memo)

def assignGroups (tree : LogicalOperator) : Option Assigned := do
  let (expr, _, assigned, memo) ← recordNodeIntoGroup cm (.logical tree) none {}
  let gexpr ← memo.groupExpressions[expr]?
  some (assigned ++ [(tree, gexpr.groupId)])

end Record

section Shapes

/-- What `operator==` compares. -/
inductive Shape where
  | mk (opType : OpType) (children : List Shape)

def LogicalOperator.shape : LogicalOperator → Shape
  | .mk type _ children => .mk type.getOpType (children.map shape)

def OperatorNode.shape (node : OperatorNode) : Shape :=
  .mk node.getOpType (node.getGeneralChildren.map LogicalOperator.shape)

theorem LogicalOperator.shape_mk (type : LogicalOperatorType) (expressions : List Expression)
    (children : List LogicalOperator) :
    (LogicalOperator.mk type expressions children).shape =
      .mk type.getOpType (children.map shape) := by
  rw [shape]

theorem shape_logical (oper : LogicalOperator) :
    (OperatorNode.logical oper).shape = oper.shape := by
  cases oper
  rw [LogicalOperator.shape_mk]
  rfl

theorem equalAll_iff {children others : List LogicalOperator}
    (h : ∀ c ∈ children, ∀ other, c.equal other ↔ c.shape = other.shape)
    (hlength : children.length = others.length) :
    LogicalOperator.equalAll children others ↔
      children.map LogicalOperator.shape = others.map LogicalOperator.shape := by
  induction children generalizing others with
  | nil =>
    cases List.length_eq_zero_iff.mp hlength.symm
    simp [LogicalOperator.equalAll]
  | cons child children ih =>
    cases others with
    | nil => cases hlength
    | cons other others =>
      have hrest := ih (fun c hc => h c (List.mem_cons_of_mem child hc)) (Nat.succ.inj hlength)
      have hchild := h child List.mem_cons_self other
      rw [LogicalOperator.equalAll, List.map_cons, List.map_cons, List.cons.injEq, ← hrest,
        ← hchild]
      cases child.equal other <;> simp

theorem equal_test_iff {type type' : OpType} {children others : List LogicalOperator}
    (h : ∀ c ∈ children, ∀ other, c.equal other ↔ c.shape = other.shape) :
    (if type ≠ type' then false
      else if children.length ≠ others.length then false
      else LogicalOperator.equalAll children others) = true ↔
      Shape.mk type (children.map LogicalOperator.shape) =
        .mk type' (others.map LogicalOperator.shape) := by
  rw [Shape.mk.injEq]
  by_cases htype : type = type'
  · by_cases hlength : children.length = others.length
    · rw [if_neg (not_not.mpr htype), if_neg (not_not.mpr hlength), equalAll_iff h hlength]
      exact (and_iff_right htype).symm
    · rw [if_neg (not_not.mpr htype), if_pos hlength]
      refine ⟨fun hfalse => (Bool.false_ne_true hfalse).elim, fun hshape => absurd ?_ hlength⟩
      simpa using congrArg List.length hshape.2
  · rw [if_pos htype]
    exact ⟨fun hfalse => (Bool.false_ne_true hfalse).elim, fun hshape => absurd hshape.1 htype⟩

theorem LogicalOperator.equal_iff (oper other : LogicalOperator) :
    oper.equal other ↔ oper.shape = other.shape := by
  induction oper using LogicalOperator.ind generalizing other with
  | mk type expressions children ih =>
    obtain ⟨type', expressions', children'⟩ := other
    rw [equal, shape_mk, shape_mk]
    exact equal_test_iff ih

theorem Entry.equal_iff {contents : OperatorNode} {childGroups : List ℕ} {entry : Entry} :
    entry.equal contents childGroups ↔
      entry.contents.shape = contents.shape ∧ entry.childGroups = childGroups := by
  rw [Entry.equal, Bool.and_eq_true, beq_iff_eq]
  exact and_congr_left' (equal_test_iff fun c _ => c.equal_iff)

end Shapes

section Lookup

mutual

def lookupAll (entries : List Entry) : List LogicalOperator → Option (List ℕ)
  | [] => some []
  | child :: children => do
    let group ← lookup entries child
    let groups ← lookupAll entries children
    some (group :: groups)

def lookup (entries : List Entry) : LogicalOperator → Option ℕ
  | .mk type expressions children => do
    let childGroups ← lookupAll entries children
    let expr ← Memo.find entries (.logical (.mk type expressions children)) childGroups
    let entry ← entries[expr]?
    some entry.groupId

end

variable {entries entries' : List Entry}

theorem lookup_mk {type : LogicalOperatorType} {expressions : List Expression}
    {children : List LogicalOperator} {group : ℕ} :
    lookup entries (.mk type expressions children) = some group ↔
      ∃ childGroups expr entry, lookupAll entries children = some childGroups ∧
        Memo.find entries (.logical (.mk type expressions children)) childGroups = some expr ∧
        entries[expr]? = some entry ∧ entry.groupId = group := by
  simp only [lookup, Option.bind_eq_bind, Option.bind_eq_some_iff, Option.some.injEq]
  constructor
  · rintro ⟨childGroups, hchildren, expr, hfind, entry, hentry, hgroup⟩
    exact ⟨childGroups, expr, entry, hchildren, hfind, hentry, hgroup⟩
  · rintro ⟨childGroups, expr, entry, hchildren, hfind, hentry, hgroup⟩
    exact ⟨childGroups, hchildren, expr, hfind, entry, hentry, hgroup⟩

theorem lookupAll_iff {children : List LogicalOperator} {groups : List ℕ} :
    lookupAll entries children = some groups ↔
      List.Forall₂ (fun child group => lookup entries child = some group) children groups := by
  induction children generalizing groups with
  | nil =>
    rw [List.forall₂_nil_left_iff, lookupAll, Option.some.injEq, eq_comm]
  | cons child children ih =>
    simp only [lookupAll, Option.bind_eq_bind, Option.bind_eq_some_iff, Option.some.injEq,
      List.forall₂_cons_left_iff, ih]
    constructor
    · rintro ⟨group, hchild, rest, hchildren, rfl⟩
      exact ⟨group, rest, hchild, hchildren, rfl⟩
    · rintro ⟨group, rest, hchild, hchildren, rfl⟩
      exact ⟨group, hchild, rest, hchildren, rfl⟩

theorem find_congr_shape {node other : OperatorNode} (h : node.shape = other.shape)
    (childGroups : List ℕ) :
    Memo.find entries node childGroups = Memo.find entries other childGroups := by
  have hequal : Entry.equal node childGroups = Entry.equal other childGroups := by
    funext entry
    rw [Bool.eq_iff_iff, Entry.equal_iff, Entry.equal_iff, h]
  rw [Memo.find, Memo.find, hequal]

theorem lookupAll_congr {children others : List LogicalOperator}
    (h : List.Forall₂ (fun child other => lookup entries child = lookup entries other) children
      others) : lookupAll entries children = lookupAll entries others := by
  induction h with
  | nil => rfl
  | cons hchild _ ih => rw [lookupAll, lookupAll, hchild, ih]

theorem lookup_congr_shape {oper other : LogicalOperator} (h : oper.shape = other.shape) :
    lookup entries oper = lookup entries other := by
  induction oper using LogicalOperator.ind generalizing other with
  | mk type expressions children ih =>
    obtain ⟨type', expressions', children'⟩ := other
    have hfind (childGroups : List ℕ) :
        Memo.find entries (.logical (.mk type expressions children)) childGroups =
          Memo.find entries (.logical (.mk type' expressions' children')) childGroups :=
      find_congr_shape (by rw [shape_logical, shape_logical, h]) childGroups
    rw [LogicalOperator.shape_mk, LogicalOperator.shape_mk, Shape.mk.injEq] at h
    have hshapes : List.Forall₂ (fun c c' => c.shape = c'.shape) children children' := by
      rw [← List.forall₂_eq_eq_eq, List.forall₂_map_left_iff, List.forall₂_map_right_iff] at h
      exact h.2
    have hchildren : lookupAll entries children = lookupAll entries children' :=
      lookupAll_congr (((List.forall₂_and_left _ _).mpr ⟨ih, hshapes⟩).imp fun _ _ hc => hc.1 hc.2)
    simp only [lookup, hchildren, hfind]

theorem find_mono (h : entries <+: entries') {node : OperatorNode} {childGroups : List ℕ}
    {expr : ℕ} (hfind : Memo.find entries node childGroups = some expr) :
    Memo.find entries' node childGroups = some expr := by
  obtain ⟨more, rfl⟩ := h
  rw [Memo.find] at hfind ⊢
  rw [List.findIdx?_append, hfind]
  rfl

theorem getElem?_mono (h : entries <+: entries') {expr : ℕ} {entry : Entry}
    (hentry : entries[expr]? = some entry) : entries'[expr]? = some entry := by
  obtain ⟨more, rfl⟩ := h
  rw [List.getElem?_append_left (List.getElem?_eq_some_iff.mp hentry).1]
  exact hentry

theorem lookup_mono (h : entries <+: entries') {oper : LogicalOperator} {group : ℕ}
    (hlookup : lookup entries oper = some group) : lookup entries' oper = some group := by
  induction oper using LogicalOperator.ind generalizing group with
  | mk type expressions children ih =>
    obtain ⟨childGroups, expr, entry, hchildren, hfind, hentry, hgroup⟩ := lookup_mk.mp hlookup
    refine lookup_mk.mpr ⟨childGroups, expr, entry, ?_, find_mono h hfind,
      getElem?_mono h hentry, hgroup⟩
    rw [lookupAll_iff] at hchildren ⊢
    exact ((List.forall₂_and_left _ _).mpr ⟨ih, hchildren⟩).imp fun _ _ hc => hc.1 hc.2

end Lookup

section Recording

variable {C : Type} {cm : CostModel C} {memo memo' : Memo C}

theorem recordChildren_of_forall₂ {children : List LogicalOperator} {groups : List ℕ}
    (h : List.Forall₂ (fun child group =>
      ∃ assigned, recordChild cm child memo = some (group, assigned, memo)) children groups) :
    ∃ assigned, recordChildren cm children memo = some (groups, assigned, memo) := by
  induction h with
  | nil => exact ⟨[], rfl⟩
  | cons hchild _ ih =>
    obtain ⟨assigned, hchild⟩ := hchild
    obtain ⟨more, hchildren⟩ := ih
    refine ⟨assigned ++ more, ?_⟩
    simp only [recordChildren, hchild, hchildren, Option.bind_eq_bind, Option.bind_some]

variable {oper : LogicalOperator} {childGroups : List ℕ}

theorem recordChild_of_lookup {group : ℕ} (h : lookup memo.entries oper = some group) :
    ∃ assigned, recordChild cm oper memo = some (group, assigned, memo) := by
  induction oper using LogicalOperator.ind generalizing group with
  | mk type expressions children ih =>
    obtain ⟨childGroups, expr, entry, hchildren, hfind, hentry, rfl⟩ := lookup_mk.mp h
    rw [lookupAll_iff] at hchildren
    obtain ⟨assigned, hrecord⟩ := recordChildren_of_forall₂
      (((List.forall₂_and_left _ _).mpr ⟨ih, hchildren⟩).imp fun _ _ hc => hc.1 hc.2)
    rw [Memo.entries, List.getElem?_map, Option.map_eq_some_iff] at hentry
    obtain ⟨gexpr, hgexpr, rfl⟩ := hentry
    simp only [recordChild, hrecord, Memo.insertExpression, hfind, hgexpr, Option.bind_eq_bind,
      Option.bind_some]
    exact ⟨_, rfl⟩

def newGroup (cm : CostModel C) (expr : ℕ) : Group C :=
  { winnerCost := cm.max, logicalExpressions := [expr] }

def newExpr (cm : CostModel C) (oper : LogicalOperator) (childGroups : List ℕ) (groupId : ℕ) :
    GroupExpr C :=
  { contents := .logical oper, childGroups, groupId, lowestCost := cm.max }

def LogicalOperator.IsBinaryJoin (oper : LogicalOperator) : Prop :=
  oper.type.getOpType = .logicalInnerJoin ∧ oper.children.length = 2

instance (oper : LogicalOperator) : Decidable oper.IsBinaryJoin :=
  inferInstanceAs (Decidable (_ ∧ _))

theorem isBinaryJoin_congr {other : LogicalOperator} (h : oper.shape = other.shape) :
    oper.IsBinaryJoin ↔ other.IsBinaryJoin := by
  obtain ⟨type, expressions, children⟩ := oper
  obtain ⟨type', expressions', children'⟩ := other
  rw [LogicalOperator.shape_mk, LogicalOperator.shape_mk, Shape.mk.injEq] at h
  have hlength : children.length = children'.length := by
    simpa using congrArg List.length h.2
  simp only [LogicalOperator.IsBinaryJoin, LogicalOperator.type, LogicalOperator.children, h.1,
    hlength]

structure Recording (cm : CostModel C) (memo : Memo C) : Prop where
  groups : memo.groups = (List.range memo.groupExpressions.length).map (newGroup cm)
  exprs : ∀ i gexpr, memo.groupExpressions[i]? = some gexpr →
    ∃ oper childGroups, gexpr = newExpr cm oper childGroups i ∧ ¬ oper.IsBinaryJoin

theorem recording_empty : Recording cm {} :=
  ⟨rfl, fun i gexpr h => by simp at h⟩

theorem Recording.exists_of_lookup (h : Recording cm memo) {group : ℕ}
    (hlookup : lookup memo.entries oper = some group) :
    ∃ gexpr, memo.groupExpressions[group]? = some gexpr ∧ gexpr.contents.shape = oper.shape := by
  obtain ⟨type, expressions, children⟩ := oper
  obtain ⟨childGroups, expr, entry, -, hfind, hentry, rfl⟩ := lookup_mk.mp hlookup
  rw [Memo.entries, List.getElem?_map, Option.map_eq_some_iff] at hentry
  obtain ⟨gexpr, hgexpr, rfl⟩ := hentry
  obtain ⟨other, others, rfl, -⟩ := h.exprs expr gexpr hgexpr
  refine ⟨_, hgexpr, ?_⟩
  obtain ⟨hlt, hequal, -⟩ := List.findIdx?_eq_some_iff_getElem.mp hfind
  rw [← shape_logical, ← (Entry.equal_iff.mp hequal).1]
  simp only [Memo.entries, List.getElem_map]
  rw [(List.getElem?_eq_some_iff.mp hgexpr).2]

theorem Recording.lt_of_lookup (h : Recording cm memo) {group : ℕ}
    (hlookup : lookup memo.entries oper = some group) : group < memo.groupExpressions.length := by
  obtain ⟨gexpr, hgexpr, -⟩ := h.exists_of_lookup hlookup
  exact (List.getElem?_eq_some_iff.mp hgexpr).1

theorem Recording.lt_of_lookupAll (h : Recording cm memo) {children : List LogicalOperator}
    {groups : List ℕ} (hlookups : lookupAll memo.entries children = some groups) {group : ℕ}
    (hgroup : group ∈ groups) : group < memo.groupExpressions.length := by
  obtain ⟨child, -, hchild⟩ := HeapChain.exists_mem_of_forall₂ (lookupAll_iff.mp hlookups) hgroup
  exact h.lt_of_lookup hchild

theorem findLogProp_none (oper : LogicalOperator) :
    (OperatorNode.logical oper).findLogProp (List.replicate oper.children.length none) =
      if oper.IsBinaryJoin then none else some none := by
  obtain ⟨type, expressions, children⟩ := oper
  show (OperatorNode.logical _).findLogProp (List.replicate children.length none) =
    if type.getOpType = .logicalInnerJoin ∧ children.length = 2 then none else some none
  cases type with
  | join joinPredicates =>
    -- only two properties are looked into
    match children.length with
    | 0 | 1 | 2 => rfl
    | n + 3 =>
      rw [if_neg fun hjoin => by omega]
      rfl
  | _ =>
    rw [if_neg fun hjoin => by cases hjoin.1]
    rfl

theorem mapM_eq_replicate {α β : Type} {f : α → Option β} {b : β} {l : List α}
    (h : ∀ a ∈ l, f a = some b) : l.mapM f = some (List.replicate l.length b) := by
  induction l with
  | nil => rfl
  | cons a l ih =>
    rw [List.mapM_cons, h a List.mem_cons_self, ih fun a ha => h a (List.mem_cons_of_mem _ ha)]
    rfl

def Memo.withNew (cm : CostModel C) (oper : LogicalOperator) (childGroups : List ℕ)
    (memo : Memo C) : Memo C where
  groupExpressions :=
    memo.groupExpressions ++ [newExpr cm oper childGroups memo.groupExpressions.length]
  groups := memo.groups ++ [newGroup cm memo.groupExpressions.length]

theorem getElem?_withNew (oper : LogicalOperator) (childGroups : List ℕ) :
    (memo.withNew cm oper childGroups).groupExpressions[memo.groupExpressions.length]? =
      some (newExpr cm oper childGroups memo.groupExpressions.length) :=
  List.getElem?_concat_length

theorem entries_withNew (oper : LogicalOperator) (childGroups : List ℕ) :
    (memo.withNew cm oper childGroups).entries =
      memo.entries ++ [⟨.logical oper, childGroups, memo.groupExpressions.length⟩] :=
  List.map_append

theorem entries_le_withNew (cm : CostModel C) (memo : Memo C) (oper : LogicalOperator)
    (childGroups : List ℕ) : memo.entries <+: (memo.withNew cm oper childGroups).entries := by
  rw [entries_withNew]
  exact List.prefix_append _ _

theorem Recording.withNew (h : Recording cm memo) (hjoin : ¬ oper.IsBinaryJoin)
    (childGroups : List ℕ) :
    Recording cm (memo.withNew cm oper childGroups) := by
  refine ⟨?_, fun i gexpr hi => ?_⟩
  · show memo.groups ++ [_] = (List.range (memo.groupExpressions ++ [_]).length).map _
    rw [List.length_append, List.length_singleton, List.range_succ, List.map_append, ← h.groups]
    rfl
  · rcases lt_or_ge i memo.groupExpressions.length with hlt | hge
    · rw [Memo.withNew, List.getElem?_append_left hlt] at hi
      exact h.exprs i gexpr hi
    · rw [Memo.withNew, List.getElem?_append_right hge] at hi
      obtain ⟨hzero, hgexpr⟩ := List.getElem?_eq_some_iff.mp hi
      rw [List.length_singleton] at hzero
      have hi' : i = memo.groupExpressions.length := by omega
      subst hi'
      simp only [Nat.sub_self, List.getElem_cons_zero] at hgexpr
      exact ⟨oper, childGroups, hgexpr.symm, hjoin⟩

theorem Recording.insert_new (h : Recording cm memo)
    (hfind : Memo.find memo.entries (.logical oper) childGroups = none)
    (hlength : childGroups.length = oper.children.length)
    (hgroups : ∀ g ∈ childGroups, g < memo.groupExpressions.length) :
    memo.insertExpression cm (.logical oper) childGroups none =
      if oper.IsBinaryJoin then none
      else some (memo.groupExpressions.length, true, memo.withNew cm oper childGroups) := by
  have hlen : memo.groups.length = memo.groupExpressions.length := by
    rw [h.groups, List.length_map, List.length_range]
  have hprops : (childGroups.mapM fun id => memo.groups[id]?.map Group.logicalProp) =
      some (List.replicate oper.children.length none) := by
    rw [← hlength]
    refine mapM_eq_replicate fun g hg => ?_
    rw [h.groups, List.getElem?_map, List.getElem?_range (hgroups g hg)]
    rfl
  simp only [Memo.insertExpression, hfind, Memo.addNewGroup, hprops, findLogProp_none,
    Option.bind_eq_bind, Option.bind_some]
  by_cases hjoin : oper.IsBinaryJoin
  · rw [if_pos hjoin, if_pos hjoin]
    rfl
  · rw [if_neg hjoin, if_neg hjoin]
    simp [hlen, Group.addExpr, OperatorNode.isPhysical, newGroup, newExpr, Memo.withNew]

structure Adds (cm : CostModel C) (memo memo' : Memo C) (nodes : List LogicalOperator)
    (assigned : Assigned) : Prop where
  recording : Recording cm memo'
  extend : memo.entries <+: memo'.entries
  found : ∀ a ∈ assigned, lookup memo'.entries a.1 = some a.2
  opers : assigned.map Prod.fst = nodes
  origin : ∀ e ∈ memo'.entries, e ∈ memo.entries ∨ ∃ n ∈ nodes, e.contents = .logical n
  joins : ∀ n ∈ nodes, ¬ n.IsBinaryJoin

theorem Recording.adds_nil (h : Recording cm memo) : Adds cm memo memo [] [] :=
  ⟨h, List.prefix_rfl, by simp, rfl, fun e he => .inl he, by simp⟩

theorem Adds.trans {memo'' : Memo C} {nodes nodes' : List LogicalOperator}
    {assigned assigned' : Assigned} (h : Adds cm memo memo' nodes assigned)
    (h' : Adds cm memo' memo'' nodes' assigned') :
    Adds cm memo memo'' (nodes ++ nodes') (assigned ++ assigned') := by
  refine ⟨h'.recording, h.extend.trans h'.extend, fun a ha => ?_, ?_, fun e he => ?_,
    fun n hn => ?_⟩
  · rcases List.mem_append.mp ha with ha | ha
    · exact lookup_mono h'.extend (h.found a ha)
    · exact h'.found a ha
  · rw [List.map_append, h.opers, h'.opers]
  · rcases h'.origin e he with he | ⟨n, hn, hcontents⟩
    · rcases h.origin e he with he | ⟨n, hn, hcontents⟩
      · exact .inl he
      · exact .inr ⟨n, List.mem_append_left _ hn, hcontents⟩
    · exact .inr ⟨n, List.mem_append_right _ hn, hcontents⟩
  · rcases List.mem_append.mp hn with hn | hn
    · exact h.joins n hn
    · exact h'.joins n hn

theorem Recording.adds_found (h : Recording cm memo)
    (hchildren : lookupAll memo.entries oper.children = some childGroups) {expr : ℕ}
    (hfind : Memo.find memo.entries (.logical oper) childGroups = some expr) :
    ∃ gexpr, memo.groupExpressions[expr]? = some gexpr ∧
      Adds cm memo memo [oper] [(oper, gexpr.groupId)] := by
  have hlt := (List.findIdx?_eq_some_iff_getElem.mp hfind).1
  rw [Memo.entries, List.length_map] at hlt
  have hgexpr := List.getElem?_eq_getElem hlt
  have hlookup : lookup memo.entries oper = some memo.groupExpressions[expr].groupId := by
    obtain ⟨type, expressions, children⟩ := oper
    refine lookup_mk.mpr ⟨childGroups, expr, _, hchildren, hfind, ?_, rfl⟩
    rw [Memo.entries, List.getElem?_map, hgexpr, Option.map_some]
  obtain ⟨other, others, heq, hother⟩ := h.exprs expr _ hgexpr
  have hjoin : ¬ oper.IsBinaryJoin := by
    obtain ⟨gexpr, hgexpr', hshape⟩ := h.exists_of_lookup hlookup
    rw [heq] at hgexpr hgexpr'
    cases Option.some.inj (hgexpr'.symm.trans hgexpr)
    rw [← isBinaryJoin_congr ((shape_logical other).symm.trans hshape)]
    exact hother
  refine ⟨_, hgexpr, h, List.prefix_rfl, ?_, rfl, fun e he => .inl he, ?_⟩
  · simpa using hlookup
  · simpa using hjoin

theorem Recording.adds_new (h : Recording cm memo)
    (hchildren : lookupAll memo.entries oper.children = some childGroups)
    (hfind : Memo.find memo.entries (.logical oper) childGroups = none)
    (hjoin : ¬ oper.IsBinaryJoin) :
    Adds cm memo (memo.withNew cm oper childGroups) [oper]
      [(oper, memo.groupExpressions.length)] := by
  have hextend := entries_le_withNew cm memo oper childGroups
  have hlookup : lookup (memo.withNew cm oper childGroups).entries oper =
      some memo.groupExpressions.length := by
    obtain ⟨type, expressions, children⟩ := oper
    refine lookup_mk.mpr ⟨childGroups, memo.entries.length,
      ⟨.logical (.mk type expressions children), childGroups, _⟩, ?_, ?_, ?_, rfl⟩
    · exact lookupAll_iff.mpr
        ((lookupAll_iff.mp hchildren).imp fun _ _ hc => lookup_mono hextend hc)
    · rw [entries_withNew]
      rw [Memo.find] at hfind ⊢
      rw [List.findIdx?_append, hfind]
      simp [Entry.equal_iff]
    · rw [entries_withNew]
      exact List.getElem?_concat_length
  refine ⟨h.withNew hjoin childGroups, hextend, ?_, rfl, fun e he => ?_, ?_⟩
  · intro a ha
    cases List.mem_singleton.mp ha
    exact hlookup
  · rw [entries_withNew, List.mem_append, List.mem_singleton] at he
    exact he.imp_right fun heq => ⟨oper, List.mem_singleton_self oper, by rw [heq]⟩
  · simpa using hjoin

theorem Recording.insert (h : Recording cm memo)
    (hchildren : lookupAll memo.entries oper.children = some childGroups) :
    (memo.insertExpression cm (.logical oper) childGroups none = none ∧ oper.IsBinaryJoin) ∨
      ∃ expr inserted memo' gexpr,
        memo.insertExpression cm (.logical oper) childGroups none = some (expr, inserted, memo') ∧
        memo'.groupExpressions[expr]? = some gexpr ∧
        Adds cm memo memo' [oper] [(oper, gexpr.groupId)] := by
  cases hfind : Memo.find memo.entries (.logical oper) childGroups with
  | some expr =>
    obtain ⟨gexpr, hgexpr, hadds⟩ := h.adds_found hchildren hfind
    rw [Memo.insertExpression, hfind]
    exact .inr ⟨expr, false, memo, gexpr, rfl, hgexpr, hadds⟩
  | none =>
    rw [h.insert_new hfind (lookupAll_iff.mp hchildren).length_eq.symm fun g =>
      h.lt_of_lookupAll hchildren]
    by_cases hjoin : oper.IsBinaryJoin
    · rw [if_pos hjoin]
      exact .inl ⟨rfl, hjoin⟩
    · rw [if_neg hjoin]
      exact .inr ⟨_, _, _, _, rfl, getElem?_withNew oper childGroups,
        h.adds_new hchildren hfind hjoin⟩

theorem recordChildren_adds {children : List LogicalOperator} (h : Recording cm memo)
    (hchild : ∀ c ∈ children, ∀ memo, Recording cm memo →
      (recordChild cm c memo = none ∧ ∃ n ∈ c.nodes, n.IsBinaryJoin) ∨
        ∃ group assigned memo', recordChild cm c memo = some (group, assigned, memo') ∧
          Adds cm memo memo' c.nodes assigned ∧ lookup memo'.entries c = some group) :
    (recordChildren cm children memo = none ∧
        ∃ n ∈ LogicalOperator.nodesAll children, n.IsBinaryJoin) ∨
      ∃ groups assigned memo', recordChildren cm children memo = some (groups, assigned, memo') ∧
        Adds cm memo memo' (LogicalOperator.nodesAll children) assigned ∧
        lookupAll memo'.entries children = some groups := by
  induction children generalizing memo with
  | nil => exact .inr ⟨[], [], memo, rfl, h.adds_nil, rfl⟩
  | cons c children ih =>
    rw [recordChildren, LogicalOperator.nodesAll]
    rcases hchild c List.mem_cons_self memo h with
      ⟨hnone, n, hn, hjoin⟩ | ⟨group, assigned, memo₁, hsome, hadds, hlookup⟩
    · rw [hnone]
      exact .inl ⟨rfl, n, List.mem_append_left _ hn, hjoin⟩
    · rw [hsome]
      rcases ih hadds.recording (fun c hc => hchild c (List.mem_cons_of_mem _ hc)) with
        ⟨hnone, n, hn, hjoin⟩ | ⟨groups, more, memo₂, hsome', hadds', hlookups⟩
      · refine .inl ⟨?_, n, List.mem_append_right _ hn, hjoin⟩
        simp only [hnone, Option.bind_eq_bind, Option.bind_some, Option.bind_none]
      · refine .inr ⟨group :: groups, assigned ++ more, memo₂, ?_, hadds.trans hadds', ?_⟩
        · simp only [hsome', Option.bind_eq_bind, Option.bind_some]
        · rw [lookupAll, lookup_mono hadds'.extend hlookup, hlookups]
          rfl

theorem recordChild_adds (oper : LogicalOperator) (h : Recording cm memo) :
    (recordChild cm oper memo = none ∧ ∃ n ∈ oper.nodes, n.IsBinaryJoin) ∨
      ∃ group assigned memo', recordChild cm oper memo = some (group, assigned, memo') ∧
        Adds cm memo memo' oper.nodes assigned ∧ lookup memo'.entries oper = some group := by
  induction oper using LogicalOperator.ind generalizing memo with
  | mk type expressions children ih =>
    rw [recordChild, LogicalOperator.nodes]
    rcases recordChildren_adds h fun c hc memo h => ih c hc h with
      ⟨hnone, n, hn, hjoin⟩ | ⟨groups, assigned, memo₁, hsome, hadds, hlookups⟩
    · rw [hnone]
      exact .inl ⟨rfl, n, List.mem_append_left _ hn, hjoin⟩
    · rw [hsome]
      have hinsert := hadds.recording.insert (show lookupAll memo₁.entries
        (LogicalOperator.mk type expressions children).children = some groups from hlookups)
      rcases hinsert with
        ⟨hnone, hjoin⟩ | ⟨expr, inserted, memo₂, gexpr, hsome', hgexpr, hadds'⟩
      · refine .inl ⟨?_, _, List.mem_append_right _ (List.mem_singleton_self _), hjoin⟩
        simp only [hnone, Option.bind_eq_bind, Option.bind_some, Option.bind_none]
      · refine .inr ⟨gexpr.groupId, _, memo₂, ?_, hadds.trans hadds',
          hadds'.found _ (List.mem_singleton_self _)⟩
        simp only [hsome', hgexpr, Option.bind_eq_bind, Option.bind_some]

end Recording

section Soundness

variable {C : Type} {cm : CostModel C} {tree : LogicalOperator} {assigned : Assigned}

theorem assignGroups_eq (tree : LogicalOperator) :
    assignGroups cm tree = (recordChild cm tree {}).map fun r => r.2.1 := by
  obtain ⟨type, expressions, children⟩ := tree
  simp only [assignGroups, recordNodeIntoGroup, recordChild, OperatorNode.getGeneralChildren,
    LogicalOperator.children, Option.bind_eq_bind, Option.bind_assoc, Option.map_bind,
    Function.comp_def, Option.bind_some, Option.map_some]

theorem adds_of_assignGroups (h : assignGroups cm tree = some assigned) :
    ∃ memo, Adds cm {} memo tree.nodes assigned := by
  rw [assignGroups_eq, Option.map_eq_some_iff] at h
  obtain ⟨⟨group, assigned', memo⟩, hrecord, rfl⟩ := h
  have hempty : Recording cm {} := recording_empty
  rcases recordChild_adds tree hempty with
    ⟨hnone, -⟩ | ⟨group', assigned'', memo', hsome, hadds, -⟩
  · cases hrecord.symm.trans hnone
  · cases hrecord.symm.trans hsome
    exact ⟨memo, hadds⟩

theorem group_eq_iff_shape_eq (h : assignGroups cm tree = some assigned)
    {a b : LogicalOperator × ℕ} (ha : a ∈ assigned) (hb : b ∈ assigned) :
    a.2 = b.2 ↔ a.1.shape = b.1.shape := by
  obtain ⟨memo, hadds⟩ := adds_of_assignGroups h
  have hfoundA := hadds.found a ha
  have hfoundB := hadds.found b hb
  constructor
  · intro heq
    rw [heq] at hfoundA
    obtain ⟨gexpr, hgexpr, hshape⟩ := hadds.recording.exists_of_lookup hfoundA
    obtain ⟨gexpr', hgexpr', hshape'⟩ := hadds.recording.exists_of_lookup hfoundB
    cases Option.some.inj (hgexpr'.symm.trans hgexpr)
    exact hshape.symm.trans hshape'
  · intro heq
    rw [lookup_congr_shape heq, hfoundB] at hfoundA
    exact (Option.some.inj hfoundA).symm

/-- One group has operators of one query only, exactly where operators of one shape are the same
query. -/
theorem groups_sound_iff (cm : CostModel C) (tree : LogicalOperator) (assigned : Assigned)
    (hrecorded : assignGroups cm tree = some assigned) :
    assigned.map Prod.fst = tree.nodes ∧
      ((∀ a ∈ assigned, ∀ b ∈ assigned, a.2 = b.2 → a.1 = b.1) ↔
        ∀ n ∈ tree.nodes, ∀ m ∈ tree.nodes, n.shape = m.shape → n = m) := by
  obtain ⟨memo, hadds⟩ := adds_of_assignGroups hrecorded
  refine ⟨hadds.opers, ?_⟩
  rw [← hadds.opers]
  simp only [List.forall_mem_map]
  exact forall₂_congr fun a ha => forall₂_congr fun b hb => by
    rw [group_eq_iff_shape_eq hrecorded ha hb]

def flatCost : CostModel ℕ where
  zero := 0
  add := Nat.add
  lt a b := a < b
  max := 1
  costLb := 0
  costLb_le := rfl
  calculateCost _ _ _ := some 0

def calcOf (n : ℤ) : LogicalOperator := .mk .calc [.value (.ints n)] []

/-- The same calculation twice. -/
theorem groups_sound_same :
    let assigned : Assigned :=
      [(calcOf 1, 0), (calcOf 1, 0), (.mk .explain [] [calcOf 1, calcOf 1], 1)]
    assignGroups flatCost (.mk .explain [] [calcOf 1, calcOf 1]) = some assigned ∧
      ∀ a ∈ assigned, ∀ b ∈ assigned, a.2 = b.2 → a.1 = b.1 := by
  intro assigned
  obtain ⟨hnodes, hiff⟩ := groups_sound_iff flatCost (.mk .explain [] [calcOf 1, calcOf 1])
    assigned (by rfl)
  refine ⟨by rfl, hiff.mpr ?_⟩
  rw [← hnodes]
  simp [assigned, LogicalOperator.shape, calcOf]

/-- Two calculations of different values share a group. -/
theorem groups_mix_calculations :
    assignGroups flatCost (.mk .explain [] [calcOf 1, calcOf 2]) =
        some [(calcOf 1, 0), (calcOf 2, 0), (.mk .explain [] [calcOf 1, calcOf 2], 1)] ∧
      calcOf 1 ≠ calcOf 2 :=
  ⟨by rfl, by simp [calcOf]⟩

end Soundness

end Cascade
