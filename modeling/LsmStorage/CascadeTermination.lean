import LsmStorage.CascadeTasks

/-! # When the cascade optimizer ends

A rule makes a physical operator with at most one child, so that the optimizer goes down one path
of the tree. It comes back with a winner or without one; the task above a group without a winner
waits for it again and again. Where the root has a winner, so has every operator on the path, and
`choose_best_plan` goes down from winner to winner. -/
namespace Cascade

open BoundedLoop LogicalOperator

section Implement

inductive Implementation where
  | unmatched
  | fails (rule : Rule)
  | made (rule : Rule) (type : PhysicalOperatorType)

def Implementation.rules : Implementation → List Rule
  | unmatched => []
  | fails rule | made rule _ => [rule]

/-- The patterns for tables, inserts and deletes match no operator. A filter has to have one
expression of boolean type. -/
def implement : LogicalOperator → Implementation
  | .mk .projection expressions [_] => .made .logicalProjectionToProjection (.project expressions)
  | .mk .explain _ [_] => .made .logicalExplainToExplain .explain
  | .mk .calc expressions [] => .made .logicalCalcToCalc (.calc expressions)
  | .mk .predicate [expression] [_] =>
    if expression.valueType = .booleans then
      .made .logicalPredicateToPredicate (.predicate expression)
    else .fails .logicalPredicateToPredicate
  | .mk .predicate _ [_] => .fails .logicalPredicateToPredicate
  | _ => .unmatched

/-- Every operator of the tree as the physical one that its rule makes. -/
def physicalPlan : LogicalOperator → Option PhysicalPlan
  | .mk type expressions children =>
    match implement (.mk type expressions children) with
    | .made _ physical => some ⟨physical, children.map physicalPlan⟩
    | _ => none

variable {C : Type} {cm : CostModel C} {oper : LogicalOperator}

theorem validRules_newExpr {childGroups : List ℕ} (groupId : ℕ)
    (h : childGroups.length = oper.children.length) :
    validRules (newExpr cm oper childGroups groupId) = (implement oper).rules := by
  obtain ⟨type, expressions, children⟩ := oper
  rw [LogicalOperator.children] at h
  rcases children with _ | ⟨c, _ | ⟨c', children⟩⟩ <;> cases type <;>
    simp [validRules, ruleSet, newExpr, h, implement, OperatorNode.getOpType, Rule.matchPattern,
      Pattern.type, Pattern.children, type, LogicalOperatorType.getOpType,
      Implementation.rules]
  rcases expressions with _ | ⟨e, _ | ⟨e', expressions⟩⟩
  · rfl
  · by_cases htype : e.valueType = .booleans <;> simp [htype]
  · rfl

theorem transform_of_fails {rule : Rule} (h : implement oper = .fails rule) :
    rule.transform (.logical oper) = none := by
  unfold implement at h
  split at h
  case h_4 e c =>
    split at h
    · cases h
    · next htype =>
      cases h
      exact if_neg htype
  case h_5 expressions c hmany =>
    cases h
    rcases expressions with _ | ⟨e, _ | ⟨e', expressions⟩⟩
    · rfl
    · exact absurd rfl (hmany e)
    · rfl
  all_goals cases h

variable {type : PhysicalOperatorType}

theorem made_cases {rule : Rule} (h : implement oper = .made rule type) :
    (∃ expressions c, oper = .mk .projection expressions [c] ∧
      rule = .logicalProjectionToProjection ∧ type = .project expressions) ∨
    (∃ expressions c, oper = .mk .explain expressions [c] ∧ rule = .logicalExplainToExplain ∧
      type = .explain) ∨
    (∃ expressions, oper = .mk .calc expressions [] ∧ rule = .logicalCalcToCalc ∧
      type = .calc expressions) ∨
    ∃ e c, oper = .mk .predicate [e] [c] ∧ e.valueType = .booleans ∧
      rule = .logicalPredicateToPredicate ∧ type = .predicate e := by
  unfold implement at h
  split at h
  case h_1 expressions c =>
    cases h
    exact .inl ⟨expressions, c, rfl, rfl, rfl⟩
  case h_2 expressions c =>
    cases h
    exact .inr (.inl ⟨expressions, c, rfl, rfl, rfl⟩)
  case h_3 expressions =>
    cases h
    exact .inr (.inr (.inl ⟨expressions, rfl, rfl, rfl⟩))
  case h_4 e c =>
    split at h
    · next htype =>
      cases h
      exact .inr (.inr (.inr ⟨e, c, rfl, htype, rfl, rfl⟩))
    · cases h
  all_goals cases h

theorem transform_of_made {rule : Rule} (h : implement oper = .made rule type) :
    rule.transform (.logical oper) = some [.physical type oper.children] := by
  rcases made_cases h with ⟨_, _, rfl, rfl, rfl⟩ | ⟨_, _, rfl, rfl, rfl⟩ | ⟨_, rfl, rfl, rfl⟩ |
    ⟨e, _, rfl, htype, rfl, rfl⟩
  · rfl
  · rfl
  · rfl
  · exact if_pos htype

theorem getOpType_ne_of_made {rule : Rule} (h : implement oper = .made rule type)
    (other : LogicalOperatorType) :
    other.getOpType ≠ type.getOpType := by
  rcases made_cases h with ⟨_, _, -, -, rfl⟩ | ⟨_, _, -, -, rfl⟩ | ⟨_, -, -, rfl⟩ |
    ⟨_, _, -, -, -, rfl⟩ <;> cases other <;>
    simp [LogicalOperatorType.getOpType, PhysicalOperatorType.getOpType]

theorem length_children_of_made {rule : Rule} (h : implement oper = .made rule type) :
    oper.children.length ≤ 1 := by
  rcases made_cases h with ⟨_, _, rfl, -⟩ | ⟨_, _, rfl, -⟩ | ⟨_, rfl, -⟩ | ⟨_, _, rfl, -⟩ <;>
    simp [children]

theorem leaves_of_matchPattern (rule : Rule) :
    ∀ child ∈ rule.matchPattern.children, child.children = [] := by
  cases rule <;> simp [Rule.matchPattern, Pattern.children]

end Implement

section Costs

variable {C : Type} (cm : CostModel C)

def accept (total : C) : Option C := if cm.lt total cm.max then some total else none

def ownCost (type : PhysicalOperatorType) (children : List LogicalOperator) : Option C :=
  (cm.calculateCost (.physical type children) none
    (List.replicate children.length none)).map (cm.add cm.zero)

/-- The cost of the children is added child by child, and compared with the bound each time. -/
def totalCost : C → List (Option C) → Option C
  | total, [] => accept cm total
  | total, cost :: costs => cost.bind fun cost =>
    if cm.lt cm.max (cm.add total cost) then none else totalCost (cm.add total cost) costs

def bestCost : LogicalOperator → Option C
  | .mk type expressions children =>
    match implement (.mk type expressions children) with
    | .made _ physical => (ownCost cm physical children).bind fun own =>
      totalCost cm own (children.map bestCost)
    | _ => none

/-- No rule matches the operator, or the rule makes an operator that has a cost and whose child gets
a winner. -/
def Ends (oper : LogicalOperator) : Prop :=
  match implement oper with
  | .unmatched => True
  | .fails _ => False
  | .made _ physical => ownCost cm physical oper.children ≠ none ∧
      ∀ child ∈ oper.children, bestCost cm child ≠ none

variable {cm} {oper : LogicalOperator}

theorem ends_of_made {rule : Rule} {type : PhysicalOperatorType}
    (h : implement oper = .made rule type) :
    Ends cm oper ↔ ownCost cm type oper.children ≠ none ∧
      ∀ child ∈ oper.children, bestCost cm child ≠ none := by
  rw [Ends, h]

theorem bestCost_of_made {rule : Rule} {type : PhysicalOperatorType}
    (h : implement oper = .made rule type) :
    bestCost cm oper = (ownCost cm type oper.children).bind fun own =>
      totalCost cm own (oper.children.map (bestCost cm)) := by
  obtain ⟨operType, expressions, children⟩ := oper
  rw [bestCost, h]
  rfl

theorem bestCost_of_not_made (h : ∀ rule type, implement oper ≠ .made rule type) :
    bestCost cm oper = none := by
  obtain ⟨operType, expressions, children⟩ := oper
  rw [bestCost]
  split
  · next heq => exact absurd heq (h _ _)
  · rfl

theorem not_mem_of_totalCost {total : C} {costs : List (Option C)}
    (h : totalCost cm total costs ≠ none) : none ∉ costs := by
  induction costs generalizing total with
  | nil => exact List.not_mem_nil
  | cons cost costs ih =>
    cases cost with
    | none => exact absurd rfl h
    | some cost =>
      rw [totalCost, Option.bind_some] at h
      split at h
      · exact absurd rfl h
      · simp [ih h]

theorem ends_of_bestCost (h : bestCost cm oper ≠ none) : Ends cm oper := by
  cases hmade : implement oper with
  | unmatched => exact absurd (bestCost_of_not_made (by simp [hmade])) h
  | fails rule => exact absurd (bestCost_of_not_made (by simp [hmade])) h
  | made rule type =>
    rw [bestCost_of_made hmade] at h
    rw [ends_of_made hmade]
    cases hown : ownCost cm type oper.children with
    | none =>
      rw [hown] at h
      exact absurd rfl h
    | some own =>
      rw [hown, Option.bind_some] at h
      refine ⟨Option.some_ne_none own, fun child hchild hnone => not_mem_of_totalCost h ?_⟩
      exact List.mem_map.mpr ⟨child, hchild, hnone⟩

end Costs

section Memos

variable {C : Type} {cm : CostModel C} {memo memo' memo'' : Memo C} {oper : LogicalOperator} {g : ℕ}

def Shape.count : Shape → ℕ
  | .mk _ children => 1 + (children.map count).sum

def nodeCount (children : List LogicalOperator) : ℕ :=
  1 + (children.map fun c => c.shape.count).sum

theorem count_shape_node (node : OperatorNode) :
    node.shape.count = nodeCount node.getGeneralChildren := by
  rw [OperatorNode.shape, Shape.count, nodeCount, List.map_map]
  rfl

theorem count_shape (oper : LogicalOperator) : oper.shape.count = nodeCount oper.children := by
  rw [← shape_logical, count_shape_node]
  rfl

def Above (memo : Memo C) (n : ℕ) : Prop :=
  ∀ e ∈ memo.entries, e.contents.isPhysical → n < e.contents.shape.count

structure Framed (touched : ℕ → Prop) (memo memo' : Memo C) : Prop where
  groups : ∀ id, ¬ touched id → memo'.groups[id]? = memo.groups[id]?
  exprs : ∀ (i : ℕ) (gexpr : GroupExpr C), memo.groupExpressions[i]? = some gexpr →
    ¬ touched gexpr.groupId → memo'.groupExpressions[i]? = some gexpr

theorem Framed.mono {touched touched' : ℕ → Prop} (h : Framed touched memo memo')
    (himp : ∀ id, touched id → touched' id) : Framed touched' memo memo' :=
  ⟨fun id hid => h.groups id (mt (himp id) hid),
    fun i gexpr hi hid => h.exprs i gexpr hi (mt (himp _) hid)⟩

theorem Framed.trans {touched : ℕ → Prop} (h : Framed touched memo memo')
    (h' : Framed touched memo' memo'') : Framed touched memo memo'' :=
  ⟨fun id hid => (h'.groups id hid).trans (h.groups id hid),
    fun i gexpr hi hid => h'.exprs i gexpr (h.exprs i gexpr hi hid) hid⟩

/-- An operator in its group, before any task for the group. -/
structure Recorded (cm : CostModel C) (memo : Memo C) (oper : LogicalOperator)
    (childGroups : List ℕ) (g : ℕ) : Prop where
  gexpr : memo.groupExpressions[g]? = some (newExpr cm oper childGroups g)
  group : memo.groups[g]? = some (newGroup cm g)
  children : List.Forall₂ (fun c id => id < g ∧ lookup memo.entries c = some id)
    oper.children childGroups

/-- The path of only children from an operator down. -/
inductive Spine (cm : CostModel C) (memo : Memo C) : LogicalOperator → ℕ → Prop
  | mk {oper : LogicalOperator} {childGroups : List ℕ} {g : ℕ}
      (recorded : Recorded cm memo oper childGroups g)
      (only : ∀ c id, oper.children = [c] → childGroups = [id] → Spine cm memo c id) :
      Spine cm memo oper g

theorem Spine.mono {touched : ℕ → Prop} (h : Spine cm memo oper g)
    (hentries : memo.entries <+: memo'.entries) (hframed : Framed touched memo memo')
    (huntouched : ∀ id ≤ g, ¬ touched id) : Spine cm memo' oper g := by
  induction h with
  | @mk oper childGroups g recorded only ih =>
    obtain ⟨gexpr, group, children⟩ := recorded
    refine .mk ⟨hframed.exprs g _ gexpr (huntouched g le_rfl),
      (hframed.groups g (huntouched g le_rfl)).trans group,
      children.imp fun _ _ hc => ⟨hc.1, lookup_mono hentries hc.2⟩⟩ fun c id hc hid => ?_
    have hlt : id < g := by
      rw [hc, hid] at children
      cases children with
      | cons hc _ => exact hc.1
    exact ih c id hc hid fun id' hle => huntouched id' (hle.trans hlt.le)

end Memos

section Root

variable {C : Type} {cm : CostModel C}

theorem count_lt_of_mem_nodesAll {children : List LogicalOperator} {n : LogicalOperator}
    (h : n ∈ nodesAll children)
    (hchild : ∀ c ∈ children, ∀ n ∈ c.nodes, n.shape.count ≤ c.shape.count) :
    n.shape.count < nodeCount children := by
  induction children with
  | nil =>
    rw [nodesAll] at h
    cases h
  | cons c children ih =>
    rw [nodesAll, List.mem_append] at h
    rw [nodeCount, List.map_cons, List.sum_cons]
    rcases h with h | h
    · have := hchild c List.mem_cons_self n h
      omega
    · have := ih h fun c hc => hchild c (List.mem_cons_of_mem _ hc)
      rw [nodeCount] at this
      omega

theorem mem_nodes {oper n : LogicalOperator} :
    n ∈ oper.nodes ↔ n ∈ nodesAll oper.children ∨ n = oper := by
  cases oper
  rw [nodes, List.mem_append, List.mem_singleton]
  rfl

theorem count_le_of_mem_nodes {oper n : LogicalOperator} (h : n ∈ oper.nodes) :
    n.shape.count ≤ oper.shape.count := by
  induction oper using ind generalizing n with
  | mk type expressions children ih =>
    rcases mem_nodes.mp h with h | rfl
    · rw [count_shape (.mk type expressions children)]
      exact (count_lt_of_mem_nodesAll h fun c hc n hn => ih c hc hn).le
    · exact le_rfl

theorem find_root {oper : LogicalOperator} {memo : Memo C} {assigned : Assigned}
    (hadds : Adds cm {} memo (nodesAll oper.children) assigned)
    (childGroups : List ℕ) : Memo.find memo.entries (.logical oper) childGroups = none := by
  refine List.findIdx?_eq_none_iff.mpr fun e he => Bool.eq_false_iff.mpr fun hequal => ?_
  rcases hadds.origin e he with he | ⟨n, hn, hcontents⟩
  · cases he
  · have hshape := (Entry.equal_iff.mp hequal).1
    rw [hcontents, shape_logical, shape_logical] at hshape
    have hlt := count_lt_of_mem_nodesAll hn fun c _ n hn => count_le_of_mem_nodes hn
    rw [hshape, count_shape] at hlt
    exact lt_irrefl _ hlt

theorem record_root (oper : LogicalOperator) :
    (recordNodeIntoGroup cm (.logical oper) none {} = none ∧ ∃ n ∈ oper.nodes, n.IsBinaryJoin) ∨
      ∃ childGroups assigned memo,
        recordChildren cm oper.children {} = some (childGroups, assigned, memo) ∧
        recordNodeIntoGroup cm (.logical oper) none {} =
          some (memo.groupExpressions.length, true, assigned, memo.withNew cm oper childGroups) ∧
        Adds cm {} memo (nodesAll oper.children) assigned ∧
        lookupAll memo.entries oper.children = some childGroups ∧ ¬ oper.IsBinaryJoin := by
  have hempty : Recording cm {} := recording_empty
  rcases recordChildren_adds hempty fun c _ memo h => recordChild_adds c h with
    ⟨hnone, n, hn, hjoin⟩ | ⟨childGroups, assigned, memo, hsome, hadds, hlookups⟩
  · refine .inl ⟨?_, n, mem_nodes.mpr (.inl hn), hjoin⟩
    simp only [recordNodeIntoGroup, OperatorNode.getGeneralChildren, hnone, Option.bind_eq_bind,
      Option.bind_none]
  · have hinsert := hadds.recording.insert_new (find_root hadds childGroups)
      (lookupAll_iff.mp hlookups).length_eq.symm fun g => hadds.recording.lt_of_lookupAll hlookups
    by_cases hjoin : oper.IsBinaryJoin
    · refine .inl ⟨?_, oper, mem_nodes.mpr (.inr rfl), hjoin⟩
      rw [if_pos hjoin] at hinsert
      simp only [recordNodeIntoGroup, OperatorNode.getGeneralChildren, hsome, hinsert,
        Option.bind_eq_bind, Option.bind_some, Option.bind_none]
    · refine .inr ⟨childGroups, assigned, memo, hsome, ?_, hadds, hlookups, hjoin⟩
      rw [if_neg hjoin] at hinsert
      simp only [recordNodeIntoGroup, OperatorNode.getGeneralChildren, hsome, hinsert,
        Option.bind_eq_bind, Option.bind_some]

theorem framed_withNew {memo : Memo C} (oper : LogicalOperator) (childGroups : List ℕ)
    (hlength : memo.groups.length = memo.groupExpressions.length) :
    Framed (memo.groupExpressions.length ≤ ·) memo (memo.withNew cm oper childGroups) := by
  refine ⟨fun id hid => ?_, fun i gexpr hi _ => ?_⟩
  · rw [Memo.withNew, List.getElem?_append_left (by omega)]
  · rw [Memo.withNew, List.getElem?_append_left (List.getElem?_eq_some_iff.mp hi).1]
    exact hi

theorem recordChild_eq (oper : LogicalOperator) (memo : Memo C) :
    recordChild cm oper memo = (recordNodeIntoGroup cm (.logical oper) none memo).bind fun r =>
      r.2.2.2.groupExpressions[r.1]?.bind fun gexpr =>
        some (gexpr.groupId, r.2.2.1 ++ [(oper, gexpr.groupId)], r.2.2.2) := by
  cases oper
  simp only [recordChild, recordNodeIntoGroup, OperatorNode.getGeneralChildren,
    children, Option.bind_eq_bind, Option.bind_assoc, Option.bind_some]

theorem record_of_recordChild {oper : LogicalOperator} {group : ℕ} {assigned : Assigned}
    {memo : Memo C} (h : recordChild cm oper {} = some (group, assigned, memo)) :
    ∃ assigned', recordNodeIntoGroup cm (.logical oper) none {} =
      some (group, true, assigned', memo) := by
  rw [recordChild_eq] at h
  rcases record_root oper with ⟨hnone, -⟩ | ⟨childGroups, assigned', memo', -, hsome, -⟩
  · rw [hnone] at h
    cases h
  · rw [hsome, Option.bind_some, getElem?_withNew, Option.bind_some] at h
    cases h
    exact ⟨assigned', hsome⟩

theorem spine_of_record {oper : LogicalOperator} {expr : ℕ} {inserted : Bool}
    {assigned : Assigned} {memo : Memo C}
    (h : recordNodeIntoGroup cm (.logical oper) none {} = some (expr, inserted, assigned, memo)) :
    Spine cm memo oper expr := by
  induction oper using ind generalizing expr inserted assigned memo with
  | mk type expressions children ih =>
    rcases record_root (.mk type expressions children) with
      ⟨hnone, -⟩ | ⟨childGroups, assigned', memo', hchildren, hsome, hadds, hlookups, -⟩
    · cases h.symm.trans hnone
    · cases h.symm.trans hsome
      have hlength : memo'.groups.length = memo'.groupExpressions.length := by
        rw [hadds.recording.groups, List.length_map, List.length_range]
      have hextend := entries_le_withNew cm memo' (.mk type expressions children) childGroups
      refine .mk ⟨getElem?_withNew _ childGroups, ?_, ?_⟩ fun c id hc hid => ?_
      · rw [Memo.withNew, ← hlength]
        exact List.getElem?_concat_length
      · exact (lookupAll_iff.mp hlookups).imp fun _ _ hc =>
          ⟨hadds.recording.lt_of_lookup hc, lookup_mono hextend hc⟩
      · obtain rfl : children = [c] := hc
        subst hid
        -- the memo below an only child is the one that the child is recorded into
        have hchild : ∃ assigned, recordChild cm c {} = some (id, assigned, memo') := by
          simp only [children, recordChildren, Option.bind_eq_bind,
            Option.bind_eq_some_iff, Option.some.injEq] at hchildren
          obtain ⟨⟨id', assigned, memo''⟩, hchild, _, ⟨rfl, rfl, rfl⟩, heq⟩ := hchildren
          cases heq
          exact ⟨assigned, hchild⟩
        obtain ⟨assigned, hchild⟩ := hchild
        obtain ⟨assigned, hrecord⟩ := record_of_recordChild hchild
        have hid : id < memo'.groupExpressions.length :=
          hadds.recording.lt_of_lookupAll hlookups (List.mem_singleton_self id)
        exact (ih c (List.mem_singleton_self c) hrecord).mono hextend
          (framed_withNew _ _ hlength) fun id' hle => by omega

end Root

section Run

variable {C : Type} {cm : CostModel C} {memo memo' : Memo C} {oper : LogicalOperator}
  {childGroups : List ℕ} {g n : ℕ} {rule : Rule} {type : PhysicalOperatorType}

theorem reaches_task {task : CascadeTask C} {pushed : List (CascadeTask C)}
    (h : perform cm task memo = some (pushed, memo')) (rest : List (CascadeTask C)) :
    Reaches (turn cm) (task :: rest, memo) (pushed.reverse ++ rest, memo') := by
  refine Relation.ReflTransGen.single ?_
  rw [turn, h]

theorem not_yields_of_fails {task : CascadeTask C} (h : perform cm task memo = none)
    (rest : List (CascadeTask C)) (r : Memo C) :
    ¬ Yields (turn cm) (task :: rest, memo) (some r) := by
  intro hr
  have hstop : turn cm (task :: rest, memo) = .stop none := by rw [turn, h]
  cases hr.unique (yields_stop hstop)

theorem set_of_getElem? {α : Type} {l : List α} {i : ℕ} {a : α} (h : l[i]? = some a) :
    l.set i a = l := by
  obtain ⟨hlt, rfl⟩ := List.getElem?_eq_some_iff.mp h
  exact List.set_getElem_self hlt

def exploredGroup (cm : CostModel C) (g : ℕ) : Group C := { newGroup cm g with hasExplored := true }

def Memo.explored (cm : CostModel C) (g : ℕ) (memo : Memo C) : Memo C :=
  { memo with groups := memo.groups.set g (exploredGroup cm g) }

theorem perform_optimizeGroup (h : memo.groups[g]? = some (newGroup cm g)) :
    perform cm (.optimizeGroup g) memo = some ([.optimizeExpression g], memo.explored cm g) := by
  simp [perform, optimizeGroup, h, cm.costLb_le, newGroup, Memo.explored, exploredGroup]

theorem perform_optimizeGroup_explored (h : memo.groups[g]? = some (exploredGroup cm g)) :
    perform cm (.optimizeGroup g) memo = some ([], memo) := by
  have hset := set_of_getElem? h
  simp only [exploredGroup, newGroup] at h hset
  simp [perform, optimizeGroup, h, cm.costLb_le, hset]

theorem perform_optimizeExpression
    (h : memo.groupExpressions[g]? = some (newExpr cm oper childGroups g))
    (hlength : childGroups.length = oper.children.length) :
    perform cm (.optimizeExpression g) memo =
      some ((implement oper).rules.map (.applyRule g), memo) := by
  have hleaves (rule : Rule) : ((rule.matchPattern.children.zip childGroups).filterMap
      fun child : Pattern × ℕ => if child.1.children.length > 0 then
        some (CascadeTask.exploreGroup (C := C) child.2) else none) = [] := by
    refine List.filterMap_eq_nil_iff.mpr fun child hchild => ?_
    rw [leaves_of_matchPattern rule child.1 (List.of_mem_zip hchild).1]
    rfl
  simp only [perform, optimizeExpression, h, Option.bind_eq_bind, Option.bind_some,
    validRules_newExpr g hlength]
  simp only [newExpr, hleaves, List.map_eq_flatMap]

def physicalExpr (cm : CostModel C) (type : PhysicalOperatorType) (children : List LogicalOperator)
    (childGroups : List ℕ) (groupId : ℕ) : GroupExpr C :=
  { contents := .physical type children, childGroups, groupId, lowestCost := cm.max }

def openGroup (cm : CostModel C) (g n : ℕ) : Group C :=
  { exploredGroup cm g with physicalExpressions := [n] }

def Memo.opened (cm : CostModel C) (rule : Rule) (type : PhysicalOperatorType)
    (children : List LogicalOperator) (childGroups : List ℕ) (g : ℕ) (memo : Memo C) : Memo C where
  groupExpressions :=
    (memo.groupExpressions ++ [physicalExpr cm type children childGroups g]).modify g fun gexpr =>
      { gexpr with ruleMask := insert rule.type gexpr.ruleMask }
  groups := memo.groups.set g (openGroup cm g memo.groupExpressions.length)

theorem find_made (hmade : implement oper = .made rule type) (habove : Above memo oper.shape.count)
    (childGroups : List ℕ) :
    Memo.find memo.entries (.physical type oper.children) childGroups = none := by
  refine List.findIdx?_eq_none_iff.mpr fun e he => Bool.eq_false_iff.mpr fun hequal => ?_
  have hshape := (Entry.equal_iff.mp hequal).1
  cases hcontents : e.contents with
  | logical other =>
    rw [hcontents, OperatorNode.shape, OperatorNode.shape, Shape.mk.injEq] at hshape
    exact getOpType_ne_of_made hmade _ hshape.1
  | physical type' children =>
    have hlt := habove e he (by rw [hcontents]; rfl)
    rw [hshape, count_shape_node, count_shape] at hlt
    exact lt_irrefl _ hlt

theorem perform_applyRule (h : Recorded cm memo oper childGroups g)
    (hmade : implement oper = .made rule type) (habove : Above memo oper.shape.count) :
    perform cm (.applyRule g rule) (memo.explored cm g) =
      some ([newInputs cm memo.groupExpressions.length],
        memo.opened cm rule type oper.children childGroups g) := by
  have hchildren : List.Forall₂ (fun child group => ∃ assigned,
      recordChild cm child (memo.explored cm g) = some (group, assigned, memo.explored cm g))
      oper.children childGroups := by
    refine h.children.imp fun child group hc => ?_
    have hlookup : lookup (memo.explored cm g).entries child = some group := hc.2
    exact recordChild_of_lookup hlookup
  obtain ⟨assigned, hrecord⟩ := recordChildren_of_forall₂ hchildren
  have hgroup' : (memo.explored cm g).groups[g]? = some (exploredGroup cm g) :=
    List.getElem?_set_self (List.getElem?_eq_some_iff.mp h.group).1
  have hfind : Memo.find (memo.explored cm g).entries (.physical type oper.children) childGroups =
      none := find_made hmade habove childGroups
  have hgexpr' : (memo.explored cm g).groupExpressions[g]? =
      some (newExpr cm oper childGroups g) := h.gexpr
  simp only [perform, applyRule, hgexpr', Option.bind_eq_bind, Option.bind_some]
  rw [if_neg (by simp [newExpr])]
  have htransform : rule.transform (newExpr cm oper childGroups g).contents =
      some [.physical type oper.children] := transform_of_made hmade
  simp only [htransform, Option.bind_some, recordAll, recordNodeIntoGroup,
    OperatorNode.getGeneralChildren, hrecord, Memo.insertExpression, hfind, Option.bind_eq_bind]
  have hgroupId : (newExpr cm oper childGroups g).groupId = g := rfl
  simp only [Option.bind_some, hgroupId, hgroup']
  have hset : (memo.explored cm g).groups.set g (openGroup cm g memo.groupExpressions.length) =
      memo.groups.set g (openGroup cm g memo.groupExpressions.length) := List.set_set _
  rw [Memo.opened, ← hset]
  rfl

theorem framed_explored : Framed (· = g) memo (memo.explored cm g) :=
  ⟨fun _ hid => List.getElem?_set_ne (Ne.symm hid), fun _ _ hi _ => hi⟩

variable {children : List LogicalOperator}

theorem entries_opened :
    (memo.opened cm rule type children childGroups g).entries =
      memo.entries ++ [⟨.physical type children, childGroups, g⟩] := by
  rw [Memo.opened, Memo.entries, Memo.entries]
  have hmap : [(⟨.physical type children, childGroups, g⟩ : Entry)] =
      [physicalExpr cm type children childGroups g].map GroupExpr.toEntry := rfl
  rw [hmap, ← List.map_append]
  refine List.ext_getElem? fun i => ?_
  rw [List.getElem?_map, List.getElem?_modify, List.getElem?_map, Option.map_eq_map,
    Option.map_map]
  congr 1
  funext gexpr
  rw [Function.comp_apply]
  split <;> rfl

theorem framed_opened (hgexpr : memo.groupExpressions[g]? = some (newExpr cm oper childGroups g)) :
    Framed (· = g) memo (memo.opened cm rule type children childGroups g) := by
  refine ⟨fun _ hid => List.getElem?_set_ne (Ne.symm hid), fun i gexpr hi hid => ?_⟩
  have hne : g ≠ i := by
    rintro rfl
    cases hi.symm.trans hgexpr
    exact hid rfl
  refine (List.getElem?_modify_ne _ _ hne).trans ?_
  rw [List.getElem?_append_left (List.getElem?_eq_some_iff.mp hi).1, hi]

structure Open (cm : CostModel C) (memo : Memo C) (type : PhysicalOperatorType)
    (children : List LogicalOperator) (childGroups : List ℕ) (g n : ℕ) : Prop where
  gexpr : memo.groupExpressions[n]? = some (physicalExpr cm type children childGroups g)
  group : memo.groups[g]? = some (openGroup cm g n)

theorem open_opened (hgroup : g < memo.groups.length) (hgexpr : g < memo.groupExpressions.length) :
    Open cm (memo.opened cm rule type children childGroups g) type children childGroups g
      memo.groupExpressions.length := by
  refine ⟨?_, List.getElem?_set_self hgroup⟩
  exact (List.getElem?_modify_ne _ _ hgexpr.ne).trans List.getElem?_concat_length

namespace Open

variable {children : List LogicalOperator}

theorem framed {touched : ℕ → Prop} (h : Open cm memo type children childGroups g n)
    (hframed : Framed touched memo memo') (hg : ¬ touched g) :
    Open cm memo' type children childGroups g n :=
  ⟨hframed.exprs n _ h.gexpr hg, (hframed.groups g hg).trans h.group⟩

theorem perform_optimizeGroup (h : Open cm memo type children childGroups g n) :
    perform cm (.optimizeGroup g) memo = some ([newInputs cm n], memo) := by
  have hgroup := h.group
  have hset := set_of_getElem? hgroup
  simp only [openGroup, exploredGroup, newGroup] at hgroup hset
  simp [perform, optimizeGroup, hgroup, cm.costLb_le, hset]

/-- The task that has added the cost of its own operator. -/
def inputs (n : ℕ) (own : C) : CascadeTask C := .optimizeInputs n own 0 (-1)

theorem perform_newInputs (h : Open cm memo type children childGroups g n)
    (hlength : childGroups.length = children.length)
    (hprops : ∀ id ∈ childGroups, memo.groups[id]?.map Group.logicalProp = some none) :
    perform cm (newInputs cm n) memo =
      (ownCost cm type children).bind fun own => perform cm (inputs n own) memo := by
  have hcost : calculateCost cm memo (physicalExpr cm type children childGroups g) =
      cm.calculateCost (.physical type children) none (List.replicate children.length none) := by
    have hmap := mapM_eq_replicate hprops
    simp only [calculateCost, physicalExpr, h.group, hmap, hlength, Option.bind_eq_bind,
      Option.bind_some]
    rfl
  cases hown : cm.calculateCost (.physical type children) none
      (List.replicate children.length none) with
  | none => simp [perform, newInputs, optimizeInputs, h.gexpr, hcost, ownCost, hown]
  | some own => simp [perform, newInputs, inputs, optimizeInputs, h.gexpr, hcost, ownCost, hown]

def closed (cm : CostModel C) (memo : Memo C) (type : PhysicalOperatorType)
    (children : List LogicalOperator) (childGroups : List ℕ) (g n : ℕ) (total : C) : Memo C where
  groupExpressions := memo.groupExpressions.set n
    (setLocalCost cm total (physicalExpr cm type children childGroups g))
  groups := memo.groups.set g (setExprCost cm n total (openGroup cm g n))

def after (cm : CostModel C) (memo : Memo C) (type : PhysicalOperatorType)
    (children : List LogicalOperator) (childGroups : List ℕ) (g n : ℕ) :
    Inputs C → List (CascadeTask C) × Memo C
  | .all total => ([], closed cm memo type children childGroups g n total)
  | .tooMuch => ([], memo)
  | .waits total idx childGroup =>
    ([.optimizeInputs n total idx (-1), .optimizeGroup childGroup], memo)

theorem perform_inputs (h : Open cm memo type children childGroups g n) (own : C) {ended : Inputs C}
    (hloop : inputsLoop cm memo (-1) childGroups 0 own = some ended) :
    perform cm (inputs n own) memo =
      some (after cm memo type children childGroups g n ended) := by
  have hchildGroups : (physicalExpr cm type children childGroups g).childGroups = childGroups := rfl
  have hgroupId : (physicalExpr cm type children childGroups g).groupId = g := rfl
  simp only [perform, inputs, optimizeInputs, h.gexpr, Option.bind_eq_bind, Option.bind_some,
    hchildGroups, hgroupId, h.group]
  rw [if_neg (by decide)]
  simp only [Option.bind_some, Int.toNat_zero, List.drop_zero, hloop]
  cases ended <;> rfl

theorem framed_closed (h : Open cm memo type children childGroups g n) (total : C) :
    Framed (· = g) memo (closed cm memo type children childGroups g n total) := by
  refine ⟨fun _ hid => List.getElem?_set_ne (Ne.symm hid), fun i gexpr hi hid => ?_⟩
  have hne : n ≠ i := by
    rintro rfl
    cases hi.symm.trans h.gexpr
    exact hid rfl
  exact (List.getElem?_set_ne hne).trans hi

theorem closed_of_not_lt (h : Open cm memo type children childGroups g n) {total : C}
    (hlt : cm.lt total cm.max = false) :
    closed cm memo type children childGroups g n total = memo := by
  have hgexpr : setLocalCost cm total (physicalExpr cm type children childGroups g) =
      physicalExpr cm type children childGroups g := if_neg (by simp [physicalExpr, hlt])
  have hgroup : setExprCost cm n total (openGroup cm g n) = openGroup cm g n :=
    if_neg (by simp [openGroup, exploredGroup, newGroup, hlt])
  rw [closed, hgexpr, hgroup, set_of_getElem? h.gexpr, set_of_getElem? h.group]

end Open

def Settled (cm : CostModel C) (memo : Memo C) (g : ℕ) : Option C → Prop
  | some cost => ∃ group best gexpr, memo.groups[g]? = some group ∧ group.logicalProp = none ∧
      group.winner = some best ∧ memo.groupExpressions[best]? = some gexpr ∧
      gexpr.lowestCost = cost
  | none => ∃ group, memo.groups[g]? = some group ∧ group.winner = none ∧
      ∀ rest, Reaches (turn cm) (.optimizeGroup g :: rest, memo) (rest, memo)

namespace Open

variable {children : List LogicalOperator}

theorem settled_none (h : Open cm memo type children childGroups g n)
    (hperform : perform cm (newInputs cm n) memo = some ([], memo)) : Settled cm memo g none := by
  refine ⟨_, h.group, rfl, fun rest => ?_⟩
  exact (reaches_task h.perform_optimizeGroup rest).trans (reaches_task hperform rest)

theorem settled_closed (h : Open cm memo type children childGroups g n) {total : C}
    (hperform : perform cm (newInputs cm n) memo =
      some ([], closed cm memo type children childGroups g n total)) :
    Settled cm (closed cm memo type children childGroups g n total) g (accept cm total) := by
  rw [accept]
  by_cases hlt : cm.lt total cm.max
  · rw [if_pos hlt]
    refine ⟨_, n, _, List.getElem?_set_self (List.getElem?_eq_some_iff.mp h.group).1, ?_, ?_,
      List.getElem?_set_self (List.getElem?_eq_some_iff.mp h.gexpr).1, ?_⟩
    · simp [setExprCost, openGroup, exploredGroup, newGroup, hlt]
    · simp [setExprCost, openGroup, exploredGroup, newGroup, hlt]
    · simp [setLocalCost, physicalExpr, hlt]
  · have hclosed := h.closed_of_not_lt (Bool.eq_false_iff.mpr hlt)
    rw [if_neg hlt, hclosed]
    rw [hclosed] at hperform
    exact h.settled_none hperform

end Open

/-- The plan of the operator is chosen, whatever becomes of the groups above. -/
def Planned (memo : Memo C) (oper : LogicalOperator) (g : ℕ) : Prop :=
  ∀ memo', Framed (g < ·) memo memo' → ∀ fuel, g < fuel →
    chooseBestPlan memo' fuel g = some (physicalPlan oper)

theorem lt_of_accept {total : C} (h : accept cm total ≠ none) : cm.lt total cm.max := by
  rw [accept] at h
  exact (Option.ite_none_right_eq_some.mp (Option.ne_none_iff_exists'.mp h).choose_spec).1

theorem Open.planned_closed {total : C}
    (h : Open cm memo type oper.children childGroups g n) (hlt : cm.lt total cm.max)
    (hmade : implement oper = .made rule type)
    (hbelow : ∀ memo', Framed (g ≤ ·) memo memo' → ∀ fuel, g ≤ fuel →
      childGroups.mapM (chooseBestPlan memo' fuel) = some (oper.children.map physicalPlan)) :
    Planned (Open.closed cm memo type oper.children childGroups g n total) oper g := by
  have hplan : physicalPlan oper = some ⟨type, oper.children.map physicalPlan⟩ := by
    obtain ⟨operType, expressions, children⟩ := oper
    rw [physicalPlan, hmade]
    rfl
  intro memo' hframed fuel hfuel
  obtain ⟨fuel, rfl⟩ := Nat.exists_eq_succ_of_ne_zero (Nat.ne_zero_of_lt hfuel)
  have hgroup : memo'.groups[g]? = some (setExprCost cm n total (openGroup cm g n)) :=
    (hframed.groups g (lt_irrefl g)).trans
      (List.getElem?_set_self (List.getElem?_eq_some_iff.mp h.group).1)
  have hgexpr := hframed.exprs n _
    (List.getElem?_set_self (List.getElem?_eq_some_iff.mp h.gexpr).1)
    (by simp [setLocalCost, physicalExpr, hlt])
  have hmap := hbelow memo' (((h.framed_closed total).mono fun _ => ge_of_eq).trans
    (hframed.mono fun _ => le_of_lt)) fuel (Nat.lt_succ_iff.mp hfuel)
  simp [chooseBestPlan, hgroup, setExprCost, openGroup, exploredGroup, newGroup, hlt, hgexpr,
    setLocalCost, physicalExpr, hmap, hplan]

/-- What the tasks for a group come to: they end with a winner and its plan, end without one, or do
not end. -/
def Done (cm : CostModel C) (memo : Memo C) (oper : LogicalOperator) (g : ℕ) : Prop :=
  (Ends cm oper → ∃ memo', Framed (· ≤ g) memo memo' ∧ Settled cm memo' g (bestCost cm oper) ∧
    (bestCost cm oper ≠ none → Planned memo' oper g) ∧
    ∀ rest, Reaches (turn cm) (.optimizeGroup g :: rest, memo) (rest, memo')) ∧
  (¬ Ends cm oper → ∀ rest r, ¬ Yields (turn cm) (.optimizeGroup g :: rest, memo) (some r))

theorem reaches_rules (h : Recorded cm memo oper childGroups g) (rest : List (CascadeTask C)) :
    Reaches (turn cm) (.optimizeGroup g :: rest, memo)
      (((implement oper).rules.map (.applyRule g)).reverse ++ rest, memo.explored cm g) := by
  have hgexpr' : (memo.explored cm g).groupExpressions[g]? =
      some (newExpr cm oper childGroups g) := h.gexpr
  exact (reaches_task (perform_optimizeGroup h.group) rest).trans
    (reaches_task (perform_optimizeExpression hgexpr' h.children.length_eq.symm) rest)

theorem done_of_unmatched (h : Recorded cm memo oper childGroups g)
    (hunmatched : implement oper = .unmatched) : Done cm memo oper g := by
  have hends : Ends cm oper := by
    rw [Ends, hunmatched]
    trivial
  have hnone : bestCost cm oper = none := bestCost_of_not_made (by simp [hunmatched])
  refine ⟨fun _ => ⟨memo.explored cm g, framed_explored.mono fun _ => le_of_eq, ?_,
    fun hsome => absurd hnone hsome, fun rest => ?_⟩, fun hnot => absurd hends hnot⟩
  · have hexplored : (memo.explored cm g).groups[g]? = some (exploredGroup cm g) :=
      List.getElem?_set_self (List.getElem?_eq_some_iff.mp h.group).1
    rw [hnone]
    exact ⟨_, hexplored, rfl, reaches_task (perform_optimizeGroup_explored hexplored)⟩
  · have hreaches := reaches_rules h rest
    rw [hunmatched] at hreaches
    exact hreaches

theorem done_of_fails (h : Recorded cm memo oper childGroups g)
    (hfails : implement oper = .fails rule) : Done cm memo oper g := by
  have hends : ¬ Ends cm oper := by
    rw [Ends, hfails]
    exact id
  refine ⟨fun hdone => absurd hdone hends, fun _ rest r => ?_⟩
  have hreaches := reaches_rules h rest
  rw [hfails] at hreaches
  rw [hreaches.yields_iff]
  have hgexpr' : (memo.explored cm g).groupExpressions[g]? =
      some (newExpr cm oper childGroups g) := h.gexpr
  have htransform : rule.transform (newExpr cm oper childGroups g).contents = none :=
    transform_of_fails hfails
  refine not_yields_of_fails ?_ rest r
  simp only [perform, applyRule, hgexpr', Option.bind_eq_bind, Option.bind_some, htransform,
    Option.bind_none]
  exact if_neg (by simp [newExpr])

theorem reaches_newInputs (h : Recorded cm memo oper childGroups g)
    (hmade : implement oper = .made rule type) (habove : Above memo oper.shape.count)
    (rest : List (CascadeTask C)) :
    Reaches (turn cm) (.optimizeGroup g :: rest, memo)
      (newInputs cm memo.groupExpressions.length :: rest,
        memo.opened cm rule type oper.children childGroups g) := by
  have hreaches := reaches_rules h rest
  rw [hmade] at hreaches
  exact hreaches.trans (reaches_task (perform_applyRule h hmade habove) rest)

theorem above_opened {child : LogicalOperator} (habove : Above memo oper.shape.count)
    (hchild : oper.children = [child]) :
    Above (memo.opened cm rule type oper.children childGroups g) child.shape.count := by
  have hcount : child.shape.count < nodeCount oper.children := by
    rw [hchild, nodeCount, List.map_singleton, List.sum_singleton]
    omega
  intro e he hphysical
  rw [entries_opened, List.mem_append, List.mem_singleton] at he
  rcases he with he | rfl
  · have hlt := habove e he hphysical
    rw [count_shape] at hlt
    exact hcount.trans hlt
  · rw [count_shape_node]
    exact hcount

theorem inputsLoop_waits {id : ℕ} {total : C} {group : Group C}
    (hgroup : memo.groups[id]? = some group) (hwinner : group.winner = none) :
    inputsLoop cm memo (-1) [id] 0 total = some (.waits total 0 id) := by
  simp [inputsLoop, hgroup, hwinner]

theorem inputsLoop_settled {costs : List C}
    (h : List.Forall₂ (fun id cost => Settled cm memo id (some cost)) childGroups costs) (idx : ℤ)
    (total : C) :
    (∃ sum, inputsLoop cm memo (-1) childGroups idx total = some (.all sum) ∧
        totalCost cm total (costs.map some) = accept cm sum) ∨
      inputsLoop cm memo (-1) childGroups idx total = some .tooMuch ∧
        totalCost cm total (costs.map some) = none := by
  induction h generalizing idx total with
  | nil => exact .inl ⟨total, rfl, rfl⟩
  | cons hfirst _ ih =>
    obtain ⟨group, best, gexpr, hgroup, -, hwinner, hgexpr, rfl⟩ := hfirst
    simp only [inputsLoop, hgroup, hwinner, hgexpr, Option.bind_eq_bind, Option.bind_some,
      List.map_cons, totalCost]
    split
    · exact .inr ⟨rfl, rfl⟩
    · exact ih _ _

/-- The tasks for a child without a winner leave everything as it is, so that the copy of the task
that waits for it is the same task again. -/
theorem Open.not_yields_inputs {id : ℕ} {own : C} (hopen : Open cm memo type children [id] g n)
    (hsettled : Settled cm memo id none) (rest : List (CascadeTask C)) (r : Memo C) :
    ¬ Yields (turn cm) (Open.inputs n own :: rest, memo) (some r) := by
  obtain ⟨group, hgroup, hwinner, hagain⟩ := hsettled
  have hperform := hopen.perform_inputs own (inputsLoop_waits hgroup hwinner)
  refine not_yields_of_cycle ?_ (hagain _) _
  rw [turn, hperform]
  rfl

theorem done_of_no_cost (hmade : implement oper = .made rule type)
    (hown : ownCost cm type oper.children = none)
    (hnew : perform cm (newInputs cm n) memo' = none)
    (hreaches : ∀ rest, Reaches (turn cm) (.optimizeGroup g :: rest, memo)
      (newInputs cm n :: rest, memo')) : Done cm memo oper g := by
  refine ⟨fun hends => absurd hown ((ends_of_made hmade).mp hends).1, fun _ rest r => ?_⟩
  rw [(hreaches rest).yields_iff]
  exact not_yields_of_fails hnew rest r

/-- Where every child has a winner, so has the operator unless it costs too much. -/
theorem Open.exists_settled {own : C} {costs : List C} (hmade : implement oper = .made rule type)
    (hopen : Open cm memo type oper.children childGroups g n)
    (hown : ownCost cm type oper.children = some own)
    (hnew : perform cm (newInputs cm n) memo = perform cm (Open.inputs n own) memo)
    (hcosts : oper.children.map (bestCost cm) = costs.map some)
    (hsettled : List.Forall₂ (fun id cost => Settled cm memo id (some cost)) childGroups costs)
    (hbelow : ∀ memo', Framed (g ≤ ·) memo memo' → ∀ fuel, g ≤ fuel →
      childGroups.mapM (chooseBestPlan memo' fuel) = some (oper.children.map physicalPlan)) :
    ∃ memo', Framed (· = g) memo memo' ∧ Settled cm memo' g (bestCost cm oper) ∧
      (bestCost cm oper ≠ none → Planned memo' oper g) ∧
      perform cm (Open.inputs n own) memo = some ([], memo') := by
  rw [bestCost_of_made hmade, hown, Option.bind_some, hcosts]
  rcases inputsLoop_settled hsettled 0 own with ⟨sum, hloop, htotal⟩ | ⟨hloop, htotal⟩
  · have hperform := hopen.perform_inputs own hloop
    rw [htotal]
    exact ⟨_, hopen.framed_closed _, hopen.settled_closed (hnew.trans hperform),
      fun hsome => hopen.planned_closed (lt_of_accept hsome) hmade hbelow, hperform⟩
  · have hperform := hopen.perform_inputs own hloop
    rw [htotal]
    exact ⟨memo, ⟨fun _ _ => rfl, fun _ _ hi _ => hi⟩, hopen.settled_none (hnew.trans hperform),
      fun hsome => absurd rfl hsome, hperform⟩

theorem done_of_made_nil (hmade : implement oper = .made rule type)
    (hopen : Open cm memo' type oper.children [] g n) (hframed : Framed (· = g) memo memo')
    (hreaches : ∀ rest, Reaches (turn cm) (.optimizeGroup g :: rest, memo)
      (newInputs cm n :: rest, memo')) (hchildren : oper.children = []) : Done cm memo oper g := by
  have hnew := hopen.perform_newInputs (by rw [hchildren]; rfl) (by simp)
  cases hown : ownCost cm type oper.children with
  | none =>
    rw [hown, Option.bind_none] at hnew
    exact done_of_no_cost hmade hown hnew hreaches
  | some own =>
    rw [hown, Option.bind_some] at hnew
    have hends : Ends cm oper := by
      rw [ends_of_made hmade, hown, hchildren]
      simp
    obtain ⟨memo₂, hframed', hsettled, hplanned, hperform⟩ := hopen.exists_settled hmade hown hnew
      (show oper.children.map _ = [].map some by rw [hchildren]; rfl) .nil (by simp [hchildren])
    exact ⟨fun _ => ⟨memo₂, (hframed.trans hframed').mono fun _ => le_of_eq, hsettled, hplanned,
      fun rest => (hreaches rest).trans (reaches_task (hnew.trans hperform) rest)⟩,
      fun hnot => absurd hends hnot⟩

theorem done_of_made_only {child : LogicalOperator} {id : ℕ}
    (hmade : implement oper = .made rule type) (hchild : oper.children = [child])
    (hopen : Open cm memo' type oper.children [id] g n) (hframed : Framed (· = g) memo memo')
    (hreaches : ∀ rest, Reaches (turn cm) (.optimizeGroup g :: rest, memo)
      (newInputs cm n :: rest, memo'))
    (hlt : id < g) (hgroup : memo'.groups[id]? = some (newGroup cm id))
    (hdone : Done cm memo' child id) : Done cm memo oper g := by
  have hnew := hopen.perform_newInputs (by rw [hchild]; rfl) (by simp [hgroup, newGroup])
  cases hown : ownCost cm type oper.children with
  | none =>
    rw [hown, Option.bind_none] at hnew
    exact done_of_no_cost hmade hown hnew hreaches
  | some own =>
    rw [hown, Option.bind_some, hopen.perform_inputs own (inputsLoop_waits hgroup rfl)] at hnew
    have hwaits (rest : List (CascadeTask C)) : Reaches (turn cm) (.optimizeGroup g :: rest, memo)
        (.optimizeGroup id :: Open.inputs n own :: rest, memo') :=
      (hreaches rest).trans (reaches_task hnew rest)
    have hiff : Ends cm oper ↔ bestCost cm child ≠ none := by
      rw [ends_of_made hmade, hown, hchild]
      simp
    rw [Done, hiff]
    by_cases hends : Ends cm child
    · obtain ⟨memo'', hframed', hsettled, hplanned, hback⟩ := hdone.1 hends
      have hopen' := hopen.framed hframed' (by omega)
      cases hcost : bestCost cm child with
      | some cost =>
        rw [hcost] at hsettled hplanned
        have hnew' := hopen'.perform_newInputs (by rw [hchild]; rfl) (by
          obtain ⟨group, _, _, hgroup, hprop, -⟩ := hsettled
          simp [hgroup, hprop])
        rw [hown, Option.bind_some] at hnew'
        obtain ⟨memo₃, hframed'', hsettled', hplanned', hperform⟩ :=
          hopen'.exists_settled hmade hown hnew' (show oper.children.map _ = [cost].map some by
            rw [hchild, List.map_singleton, hcost]; rfl) (.cons hsettled .nil)
            fun memo' hframed fuel hfuel => by
              simp [hchild, hplanned (by simp) memo' (hframed.mono fun _ => hlt.trans_le) fuel
                (by omega)]
        refine ⟨fun _ => ⟨memo₃, ?_, hsettled', hplanned', fun rest => ?_⟩,
          fun hnot => absurd (by simp) hnot⟩
        · have hle : ∀ i, i = g → i ≤ g := fun _ => le_of_eq
          exact ((hframed.mono hle).trans (hframed'.mono fun i hi => by omega)).trans
            (hframed''.mono hle)
        · exact ((hwaits rest).trans (hback _)).trans (reaches_task hperform rest)
      | none =>
        refine ⟨fun hsome => absurd rfl hsome, fun _ rest r => ?_⟩
        rw [hcost] at hsettled
        rw [Reaches.yields_iff ((hwaits rest).trans (hback _))]
        exact hopen'.not_yields_inputs hsettled rest r
    · have hnone : bestCost cm child = none := by
        by_contra hsome
        exact hends (ends_of_bestCost hsome)
      refine ⟨fun hsome => absurd hnone hsome, fun _ rest r => ?_⟩
      rw [(hwaits rest).yields_iff]
      exact hdone.2 hends _ r

theorem Spine.done (h : Spine cm memo oper g) (habove : Above memo oper.shape.count) :
    Done cm memo oper g := by
  induction oper using ind generalizing memo g with
  | mk operType expressions children ih =>
    obtain ⟨hrecorded, honly⟩ := h
    cases hmade : implement (.mk operType expressions children) with
    | unmatched => exact done_of_unmatched hrecorded hmade
    | fails rule => exact done_of_fails hrecorded hmade
    | made rule type =>
      have hreaches := reaches_newInputs hrecorded hmade habove
      obtain ⟨hgexpr, hgroup, hchildren⟩ := hrecorded
      have hgexprs := (List.getElem?_eq_some_iff.mp hgexpr).1
      have hgroups := (List.getElem?_eq_some_iff.mp hgroup).1
      have hframed : Framed (· = g) memo (memo.opened cm rule type children _ g) :=
        framed_opened hgexpr
      have hone : children.length ≤ 1 := length_children_of_made hmade
      rcases children with _ | ⟨child, _ | ⟨other, children⟩⟩
      · cases hchildren
        exact done_of_made_nil hmade (open_opened hgroups hgexprs) hframed hreaches rfl
      · obtain ⟨id, _, ⟨hlt, hlookup⟩, hnil, rfl⟩ := List.forall₂_cons_left_iff.mp hchildren
        cases hnil
        have hentries : memo.entries <+:
            (memo.opened cm rule type [child] [id] g).entries := by
          rw [entries_opened]
          exact List.prefix_append _ _
        have hspine := (honly child id rfl rfl).mono hentries hframed (by omega)
        have hdone := ih child (List.mem_singleton_self child) hspine (above_opened habove rfl)
        obtain ⟨⟨-, hgroup', -⟩, -⟩ := hspine
        exact done_of_made_only hmade rfl (open_opened hgroups hgexprs) hframed hreaches hlt hgroup'
          hdone
      · simp at hone

end Run

section Optimize

variable {C : Type} {cm : CostModel C} {tree : LogicalOperator}
  {s : List (CascadeTask C) × Memo C}

theorem exists_start_iff :
    (∃ s, start cm tree = some s) ↔ ∀ n ∈ tree.nodes, ¬ n.IsBinaryJoin := by
  rcases record_root tree with
    ⟨hnone, n, hn, hjoin⟩ | ⟨childGroups, assigned, memo, -, hsome, hadds, -, hjoin⟩
  · refine ⟨?_, fun h => absurd hjoin (h n hn)⟩
    rintro ⟨s, hs⟩
    rw [start, hnone] at hs
    cases hs
  · refine ⟨fun _ n hn => ?_, fun _ => ?_⟩
    · rcases mem_nodes.mp hn with hn | rfl
      · exact hadds.joins n hn
      · exact hjoin
    · simp only [start, hsome, getElem?_withNew, Option.bind_eq_bind, Option.bind_some, if_true]
      exact ⟨_, rfl⟩

theorem start_done (h : start cm tree = some s) :
    ∃ g memo, s = ([.optimizeGroup g], memo) ∧ Done cm memo tree g := by
  rcases record_root tree with
    ⟨hnone, -⟩ | ⟨childGroups, assigned, memo, -, hsome, hadds, -, -⟩
  · rw [start, hnone] at h
    cases h
  · simp only [start, hsome, getElem?_withNew, Option.bind_eq_bind, Option.bind_some, if_true,
      Option.some.injEq] at h
    refine ⟨_, _, h.symm, (spine_of_record hsome).done fun e he hphysical => ?_⟩
    rw [entries_withNew, List.mem_append, List.mem_singleton] at he
    rcases he with he | rfl
    · rcases hadds.origin e he with he | ⟨n, -, hcontents⟩
      · cases he
      · rw [hcontents] at hphysical
        cases hphysical
    · cases hphysical

theorem yields_iff_ends (h : start cm tree = some s) :
    (∃ memo, Yields (turn cm) s (some memo)) ↔ Ends cm tree := by
  obtain ⟨g, memo, rfl, hdone⟩ := start_done h
  constructor
  · rintro ⟨r, hr⟩
    by_contra hends
    exact hdone.2 hends [] r hr
  · intro hends
    obtain ⟨memo', -, -, -, hreaches⟩ := hdone.1 hends
    exact ⟨memo', (Reaches.yields_iff (hreaches []) _).mpr (yields_stop rfl)⟩

/-- The optimizer empties its stack exactly for the trees without a join of two children whose root
is not implemented, or is implemented above a child that gets a winner. -/
theorem optimize_empties_iff (cm : CostModel C) (tree : LogicalOperator) :
    Empties cm tree ↔ (∀ n ∈ tree.nodes, ¬ n.IsBinaryJoin) ∧ Ends cm tree := by
  rw [← exists_start_iff]
  constructor
  · rintro ⟨s, memo, hstart, hyields⟩
    exact ⟨⟨s, hstart⟩, (yields_iff_ends hstart).mp ⟨memo, hyields⟩⟩
  · rintro ⟨⟨s, hstart⟩, hends⟩
    obtain ⟨memo, hyields⟩ := (yields_iff_ends hstart).mpr hends
    exact ⟨s, memo, hstart, hyields⟩

/-- No rule implements a table, so that the plan of a query waits for it without end. -/
theorem explain_waits_for_table :
    (start flatCost (.mk .explain [] [.mk (.tableGet 1) [] []])).isSome ∧
      ¬ Empties flatCost (.mk .explain [] [.mk (.tableGet 1) [] []]) := by
  refine ⟨rfl, ?_⟩
  rintro ⟨s, memo, hstart, hyields⟩
  have hends := (yields_iff_ends hstart).mp ⟨memo, hyields⟩
  have htable : bestCost flatCost (.mk (.tableGet 1) [] []) = none :=
    bestCost_of_not_made (by simp [implement])
  exact hends.2 _ (List.mem_singleton_self _) htable

end Optimize

end Cascade
