import LsmStorage.BoundedLoop
import LsmStorage.CascadeMemo

/-! # The tasks of the cascade optimizer

`Optimizer::optimize` records the tree, puts a task for its group on a stack and performs what is
on the stack until nothing is left. A task that waits for a child is pushed again as a copy, which
does not know which child was waited for. -/
namespace Cascade

open BoundedLoop

section Rules

inductive Pattern where
  | mk (type : OpType) (children : List Pattern)

def Pattern.type : Pattern → OpType
  | mk type _ => type

def Pattern.children : Pattern → List Pattern
  | mk _ children => children

inductive Rule where
  | logicalProjectionToProjection
  | logicalGetToPhysicalSeqScan
  | logicalInsertToInsert
  | logicalExplainToExplain
  | logicalCalcToCalc
  | logicalDeleteToDelete
  | logicalPredicateToPredicate
  deriving DecidableEq

namespace Rule

def type : Rule → RuleType
  | logicalProjectionToProjection => .projectionToPhysical
  | logicalGetToPhysicalSeqScan => .getToSeqScan
  | logicalInsertToInsert => .insertToPhysical
  | logicalExplainToExplain => .explainToPhysical
  | logicalCalcToCalc => .calcToPhysical
  | logicalDeleteToDelete => .deleteToPhysical
  | logicalPredicateToPredicate => .predicateToPhysical

def matchPattern : Rule → Pattern
  | logicalProjectionToProjection => .mk .logicalProjection [.mk .leaf []]
  | logicalGetToPhysicalSeqScan => .mk .logicalGet []
  | logicalInsertToInsert => .mk .logicalInsert []
  | logicalExplainToExplain => .mk .logicalExplain [.mk .leaf []]
  | logicalCalcToCalc => .mk .logicalCalculate []
  | logicalDeleteToDelete => .mk .logicalDelete [.mk .leaf []]
  | logicalPredicateToPredicate => .mk .logicalFilter [.mk .leaf []]

/-- `none` is a failed assertion, of the rule or of the constructor that it calls, or a cast to a
class that the operator is not of. The expressions that are moved out of the operator are not read
again, as a rule is applied to it once. -/
def transform : Rule → OperatorNode → Option (List OperatorNode)
  | logicalProjectionToProjection, .logical (.mk .projection expressions children) =>
    if children.length = 1 then some [.physical (.project expressions) children] else none
  | logicalGetToPhysicalSeqScan, .logical (.mk (.tableGet table) _ _) =>
    some [.physical (.tableScan table) []]
  | logicalInsertToInsert, .logical (.mk (.insert table values) _ _) =>
    some [.physical (.insert table values) []]
  | logicalExplainToExplain, .logical (.mk .explain _ children) =>
    some [.physical .explain children]
  | logicalCalcToCalc, .logical (.mk .calc expressions _) =>
    some [.physical (.calc expressions) []]
  | logicalDeleteToDelete, .logical (.mk (.delete table) _ children) =>
    some [.physical (.delete table) children]
  | logicalPredicateToPredicate, .logical (.mk .predicate [expression] children) =>
    if expression.valueType = .booleans then some [.physical (.predicate expression) children]
    else none
  | _, _ => none

end Rule

/-- In the order of the constructor of `RuleSet`. -/
def ruleSet : List Rule :=
  [.logicalProjectionToProjection, .logicalGetToPhysicalSeqScan, .logicalInsertToInsert,
    .logicalExplainToExplain, .logicalCalcToCalc, .logicalDeleteToDelete,
    .logicalPredicateToPredicate]

end Rules

section Tasks

variable {C : Type}

inductive CascadeTask (C : Type) where
  | optimizeGroup (group : ℕ)
  | optimizeExpression (groupExpr : ℕ)
  | exploreGroup (group : ℕ)
  | applyRule (groupExpr : ℕ) (rule : Rule)
  | optimizeInputs (groupExpr : ℕ) (curTotalCost : C) (curChildIdx prevChildIdx : ℤ)

variable (cm : CostModel C)

/-- A new `OptimizeInputs`, which sets its cost when it is performed. -/
def newInputs (groupExpr : ℕ) : CascadeTask C := .optimizeInputs groupExpr cm.zero (-1) (-1)

def optimizeGroup (id : ℕ) (memo : Memo C) : Option (List (CascadeTask C) × Memo C) := do
  let group ← memo.groups[id]?
  if cm.lt cm.max cm.costLb then some ([], memo)
  else if group.winner ≠ none then some ([], memo)
  else
    let logical := if group.hasExplored then [] else group.logicalExpressions
    some (logical.map .optimizeExpression ++ group.physicalExpressions.map (newInputs cm),
      { memo with groups := memo.groups.set id { group with hasExplored := true } })

def exploreGroup (id : ℕ) (memo : Memo C) : Option (List (CascadeTask C) × Memo C) := do
  let group ← memo.groups[id]?
  if group.hasExplored then some ([], memo)
  else
    some (group.logicalExpressions.map .optimizeExpression,
      { memo with groups := memo.groups.set id { group with hasExplored := true } })

/-- All rules have the same promise, so that sorting leaves them in their order. -/
def validRules (gexpr : GroupExpr C) : List Rule :=
  ruleSet.filter fun rule => rule.type ∉ gexpr.ruleMask ∧
    gexpr.contents.getOpType = rule.matchPattern.type ∧
    gexpr.childGroups.length = rule.matchPattern.children.length

def optimizeExpression (expr : ℕ) (memo : Memo C) : Option (List (CascadeTask C) × Memo C) := do
  let gexpr ← memo.groupExpressions[expr]?
  let explore := fun (child : Pattern × ℕ) =>
    if child.1.children.length > 0 then some (CascadeTask.exploreGroup child.2) else none
  some ((validRules gexpr).flatMap fun rule =>
    .applyRule expr rule :: (rule.matchPattern.children.zip gexpr.childGroups).filterMap explore,
    memo)

/-- The loop of `ApplyRule::perform` over what the rule made. -/
def recordAll (groupId : ℕ) : List OperatorNode → Memo C →
    Option (List (CascadeTask C) × Memo C)
  | [], memo => some ([], memo)
  | node :: after, memo => do
    let (newGexpr, inserted, _, memo) ← recordNodeIntoGroup cm node (some groupId) memo
    let task := if node.isPhysical then newInputs cm newGexpr else .optimizeExpression newGexpr
    let (tasks, memo) ← recordAll groupId after memo
    some (if inserted then task :: tasks else tasks, memo)

def applyRule (expr : ℕ) (rule : Rule) (memo : Memo C) :
    Option (List (CascadeTask C) × Memo C) := do
  let gexpr ← memo.groupExpressions[expr]?
  if rule.type ∈ gexpr.ruleMask then some ([], memo)
  else
    let after ← rule.transform gexpr.contents
    let (tasks, memo) ← recordAll cm gexpr.groupId after memo
    let explored := fun (gexpr : GroupExpr C) =>
      { gexpr with ruleMask := insert rule.type gexpr.ruleMask }
    some (tasks, { memo with groupExpressions := memo.groupExpressions.modify expr explored })

def calculateCost (memo : Memo C) (gexpr : GroupExpr C) : Option C := do
  let group ← memo.groups[gexpr.groupId]?
  let childLogProps ← gexpr.childGroups.mapM fun id => memo.groups[id]?.map Group.logicalProp
  cm.calculateCost gexpr.contents group.logicalProp childLogProps

inductive Inputs (C : Type) where
  | all (curTotalCost : C)
  | tooMuch
  | waits (curTotalCost : C) (curChildIdx : ℤ) (childGroup : ℕ)

def inputsLoop (memo : Memo C) (prevChildIdx : ℤ) : List ℕ → ℤ → C → Option (Inputs C)
  | [], _, curTotalCost => some (.all curTotalCost)
  | childGroup :: rest, curChildIdx, curTotalCost => do
    let group ← memo.groups[childGroup]?
    match group.winner with
    | some childBestExpr =>
      let best ← memo.groupExpressions[childBestExpr]?
      let curTotalCost := cm.add curTotalCost best.lowestCost
      if cm.lt cm.max curTotalCost then some .tooMuch
      else inputsLoop memo prevChildIdx rest (curChildIdx + 1) curTotalCost
    | none =>
      if prevChildIdx ≠ curChildIdx then some (.waits curTotalCost curChildIdx childGroup)
      else inputsLoop memo prevChildIdx rest (curChildIdx + 1) curTotalCost

def setLocalCost (cost : C) (gexpr : GroupExpr C) : GroupExpr C :=
  if cm.lt cost gexpr.lowestCost then { gexpr with lowestCost := cost } else gexpr

def setExprCost (expr : ℕ) (cost : C) (group : Group C) : Group C :=
  if cm.lt cost group.winnerCost then { group with winnerCost := cost, winner := some expr }
  else group

/-- The copy that waits has lost `prev_child_idx_`. -/
def optimizeInputs (expr : ℕ) (curTotalCost : C) (curChildIdx prevChildIdx : ℤ) (memo : Memo C) :
    Option (List (CascadeTask C) × Memo C) := do
  let gexpr ← memo.groupExpressions[expr]?
  let (curTotalCost, curChildIdx) ←
    if curChildIdx = -1 then
      (calculateCost cm memo gexpr).map fun cost => (cm.add cm.zero cost, (0 : ℤ))
    else some (curTotalCost, curChildIdx)
  let inputs ← inputsLoop cm memo prevChildIdx (gexpr.childGroups.drop curChildIdx.toNat)
    curChildIdx curTotalCost
  match inputs with
  | .all curTotalCost =>
    let curGroup ← memo.groups[gexpr.groupId]?
    some ([], {
      groupExpressions := memo.groupExpressions.set expr (setLocalCost cm curTotalCost gexpr)
      groups := memo.groups.set gexpr.groupId (setExprCost cm expr curTotalCost curGroup) })
  | .tooMuch => some ([], memo)
  | .waits curTotalCost curChildIdx childGroup =>
    some ([.optimizeInputs expr curTotalCost curChildIdx (-1), .optimizeGroup childGroup], memo)

def perform : CascadeTask C → Memo C → Option (List (CascadeTask C) × Memo C)
  | .optimizeGroup group, memo => optimizeGroup cm group memo
  | .optimizeExpression groupExpr, memo => optimizeExpression groupExpr memo
  | .exploreGroup group, memo => exploreGroup group memo
  | .applyRule groupExpr rule, memo => applyRule cm groupExpr rule memo
  | .optimizeInputs groupExpr curTotalCost curChildIdx prevChildIdx, memo =>
    optimizeInputs cm groupExpr curTotalCost curChildIdx prevChildIdx memo

/-- One turn of `execute_task_stack`. -/
def turn : List (CascadeTask C) × Memo C → Turn (List (CascadeTask C) × Memo C) (Option (Memo C))
  | ([], memo) => .stop (some memo)
  | (task :: stack, memo) =>
    match perform cm task memo with
    | none => .stop none
    | some (pushed, memo) => .again (pushed.reverse ++ stack, memo)

/-- The stack that `optimize_loop` starts with. -/
def start (tree : LogicalOperator) : Option (List (CascadeTask C) × Memo C) := do
  let (expr, inserted, _, memo) ← recordNodeIntoGroup cm (.logical tree) none {}
  if inserted then
    let gexpr ← memo.groupExpressions[expr]?
    some ([.optimizeGroup gexpr.groupId], memo)
  else none

def Empties (tree : LogicalOperator) : Prop :=
  ∃ s memo, start cm tree = some s ∧ Yields (turn cm) s (some memo)

/-- A child may be a null pointer. -/
inductive PhysicalPlan where
  | mk (type : PhysicalOperatorType) (children : List (Option PhysicalPlan))

/-- The outer `none` is a failed assertion, a winner that is not physical or no end in time. -/
def chooseBestPlan (memo : Memo C) : ℕ → ℕ → Option (Option PhysicalPlan)
  | 0, _ => none
  | fuel + 1, id => do
    let group ← memo.groups[id]?
    match group.winner with
    | none => some none
    | some best =>
      let winner ← memo.groupExpressions[best]?
      match winner.contents with
      | .logical _ => none
      | .physical type _ =>
        (winner.childGroups.mapM (chooseBestPlan memo fuel)).map (some <| .mk type ·)

/-- `optimize` returns the plan. -/
def Optimizes (tree : LogicalOperator) (plan : Option PhysicalPlan) : Prop :=
  ∃ g memo memo', start cm tree = some ([.optimizeGroup g], memo) ∧
    Yields (turn cm) ([.optimizeGroup g], memo) (some memo') ∧
    ∃ k, ∀ fuel, k ≤ fuel → chooseBestPlan memo' fuel g = some plan

end Tasks

end Cascade
