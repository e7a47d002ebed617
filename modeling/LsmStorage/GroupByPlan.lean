import LsmStorage.NodeTree
import LsmStorage.ResultCode
import LsmStorage.SqlExpression

/-! # LogicalPlanGenerator::create_group_by_plan

Three callbacks walk over the query expressions one after the other: the first marks what is a
group-by expression, the second looks for a field that is neither marked nor inside an aggregate,
the third collects the aggregates. They only share `pos_`, the mark of a node. Every callback
answers `SUCCESS`, so their codes are left out. -/
namespace GroupByPlan

open NodeTree ResultCode SqlExpression

/-- A call for a null pointer, and the assertion for the types that the iterator does not know. -/
inductive Fault where
  | nullChild
  | unknownType
  deriving DecidableEq, Repr

/-- The children that `iterate_child_expr` calls back for. -/
def childExprs : Expression → List (Option Expression)
  | .cast child _ => [some child]
  | .comparison _ left right => [some left, some right]
  | .conjunction _ children => children.map some
  | .arithmetic _ left right => [some left, right]
  | .aggregation _ child => [some child]
  | .star _ | .unboundField _ _ | .unboundAggregation _ _ | .field _ _ _ _ _ | .value _ => []

theorem sizeOf_childExprs {e c : Expression} (h : some c ∈ childExprs e) :
    sizeOf c < sizeOf e := by
  cases e with
  | conjunction type children =>
    have := List.sizeOf_lt_of_mem (show c ∈ children by simpa [childExprs] using h)
    simp only [Expression.conjunction.sizeOf_spec]
    omega
  | arithmetic type left right =>
    rcases List.mem_pair.mp h with hc | hc <;> cases hc <;> simp +arith
  | comparison comp left right =>
    rcases List.mem_pair.mp h with hc | hc <;> cases hc <;> simp +arith
  | cast child castType | aggregation type child => cases List.mem_singleton.mp h; simp +arith
  | _ => cases h

def tree : Shape Expression where
  children := childExprs
  wf := Subrelation.wf sizeOf_childExprs (measure sizeOf).wf

def isAggregation : Expression → Bool
  | .aggregation _ _ => true
  | _ => false

def isField : Expression → Bool
  | .field _ _ _ _ _ => true
  | _ => false

def isUnboundAggregation : Expression → Bool
  | .unboundAggregation _ _ => true
  | _ => false

/-- `Expression::equal`, over `Value::compare`. Fields are compared by their index alone, and all
other expressions are unequal; the one of aggregates is not called. -/
def equal (compare : Value → Value → ℤ) : Expression → Expression → Bool
  | .field _ _ fieldIdx _ _, .field _ _ fieldIdx' _ _ => fieldIdx = fieldIdx'
  | .value v, .value v' => compare v v' = 0
  | _, _ => false

/-- `pos_` of every node. -/
abbrev Marks := Path → ℤ

def setPos (path : Path) (pos : ℤ) (marks : Marks) : Marks := Function.update marks path pos

variable {σ : Type*}

def iterateChildExpr (expr : Expression) (next : σ → Except Fault σ) (s : σ) : Except Fault σ :=
  if isUnboundAggregation expr then .error .unknownType else next s

section Callbacks

variable (compare : Value → Value → ℤ)

def bindLoop (expr : Expression) (path : Path) (next : Marks → Except Fault Marks) :
    ℕ → List Expression → Marks → Except Fault Marks
  | _, [], marks => .ok marks
  | i, groupBy :: groupBys, marks =>
    if isAggregation expr then .ok marks
    else if equal compare expr groupBy then
      bindLoop expr path next (i + 1) groupBys (setPos path i marks)
    else (iterateChildExpr expr next marks).bind (bindLoop expr path next (i + 1) groupBys)

def bindGroupByExpr (groupBys : List Expression) :
    Expression → Path → Marks → Except Fault Marks :=
  tree.walk .nullChild fun expr path next => bindLoop compare expr path next 0 groupBys

def findUnboundColumn (marks : Marks) : Expression → Path → Bool → Except Fault Bool :=
  tree.walk .nullChild fun expr path next found =>
    if isAggregation expr then .ok found
    else if marks path ≠ -1 then .ok found
    else if isField expr then .ok true
    else iterateChildExpr expr next found

structure Collected where
  marks : Marks
  aggregateExpressions : List Path

def Collected.push (groupByNum : ℕ) (s : Collected) (path : Path) : Collected :=
  ⟨setPos path (s.aggregateExpressions.length + groupByNum) s.marks,
    s.aggregateExpressions ++ [path]⟩

def collector (groupByNum : ℕ) : Expression → Path → Collected → Except Fault Collected :=
  tree.walk .nullChild fun expr path next s =>
    iterateChildExpr expr next (if isAggregation expr then s.push groupByNum path else s)

structure Planned where
  rc : RC
  marks : Marks
  groupByOper : Option (List Path)

def forEach (callback : Expression → Path → σ → Except Fault σ) (queries : List Expression)
    (s : σ) : Except Fault σ :=
  callEach .nullChild [] 0 ((queries.map some).map (Option.map callback)) s

def createGroupByPlan (groupBys queries : List Expression) (marks : Marks) :
    Except Fault Planned := do
  let marks ← forEach (bindGroupByExpr compare groupBys) queries marks
  let foundUnboundColumn ← forEach (findUnboundColumn marks) queries false
  let s ← forEach (collector groupBys.length) queries ⟨marks, []⟩
  if groupBys.isEmpty && s.aggregateExpressions.isEmpty then .ok ⟨.success, s.marks, none⟩
  else if foundUnboundColumn then .ok ⟨.invalidArgument, s.marks, none⟩
  else .ok ⟨.success, s.marks, some s.aggregateExpressions⟩

end Callbacks

def Bound : Expression → Prop := tree.Throughout fun e => isUnboundAggregation e = false

theorem iterateChildExpr_of_bound {expr : Expression} (h : isUnboundAggregation expr = false)
    (next : σ → Except Fault σ) : iterateChildExpr expr next = next := by
  funext s
  rw [iterateChildExpr, if_neg (by rw [h]; decide)]

theorem forEach_of_effect (effect : Expression → Path → σ → σ)
    {callback : Expression → Path → σ → Except Fault σ} {queries : List Expression}
    (h : ∀ j q, queries[j]? = some q → ∀ s, callback q [j] s = .ok (effect q [j] s)) (s : σ) :
    forEach callback queries s = .ok (effectEach effect [] 0 queries s) := by
  refine callEach_of_effect effect (fun j q hq t => ?_) s
  rw [List.nil_append, Nat.zero_add]
  exact h j q hq t

section Binding

variable {compare : Value → Value → ℤ} {groupBys : List Expression} {expr : Expression}

def lastMatch (compare : Value → Value → ℤ) (expr : Expression) : ℕ → List Expression → Option ℤ
  | _, [] => none
  | i, groupBy :: groupBys =>
    (lastMatch compare expr (i + 1) groupBys).or
      (if equal compare expr groupBy then some (i : ℤ) else none)

def isGroupBy (compare : Value → Value → ℤ) (groupBys : List Expression) (expr : Expression) :
    Bool :=
  groupBys.any fun groupBy => equal compare expr groupBy

def bindMark (compare : Value → Value → ℤ) (groupBys : List Expression) :
    Expression → Path → Option ℤ
  | expr, [] => if isAggregation expr then none else lastMatch compare expr 0 groupBys
  | expr, j :: path =>
    if isAggregation expr || groupBys.all fun groupBy => equal compare expr groupBy then none
    else ((childExprs expr)[j]?.join).bind fun child => bindMark compare groupBys child path

def loopMark (compare : Value → Value → ℤ) (expr : Expression) (below : Path → Option ℤ) :
    ℕ → List Expression → Path → Option ℤ
  | _, [], _ => none
  | i, groupBy :: groupBys, path =>
    (loopMark compare expr below (i + 1) groupBys path).or
      (if equal compare expr groupBy then (if path = [] then some (i : ℤ) else none)
      else below path)

theorem setPos_eq (path : Path) (pos : ℤ) (marks : Marks) :
    setPos path pos marks =
      overlay (fun rest => if rest = [] then some pos else none) path marks := by
  refine marks_ext path (fun rest => ?_) fun place h => ?_
  · rw [overlay_append, setPos]
    cases rest with
    | nil => simp
    | cons j rest => simp [Function.update_of_ne]
  · rw [overlay_outside h, setPos, Function.update_of_ne]
    rintro rfl
    exact h List.prefix_rfl

theorem bindLoop_eq {path : Path} {next : Marks → Except Fault Marks} {below : Path → Option ℤ}
    (hexpr : isAggregation expr = false) (hbound : isUnboundAggregation expr = false)
    (hnext : ∀ marks, next marks = .ok (overlay below path marks)) (i : ℕ)
    (groupBys : List Expression) (marks : Marks) :
    bindLoop compare expr path next i groupBys marks =
      .ok (overlay (loopMark compare expr below i groupBys) path marks) := by
  induction groupBys generalizing i marks with
  | nil =>
    rw [bindLoop]
    exact congrArg _ (overlay_none path marks).symm
  | cons groupBy groupBys ih =>
    rw [bindLoop, if_neg (by rw [hexpr]; decide), iterateChildExpr_of_bound hbound]
    by_cases hequal : equal compare expr groupBy = true
    · rw [if_pos hequal, ih, setPos_eq, overlay_overlay]
      simp only [loopMark, if_pos hequal]
    · rw [if_neg hequal, hnext]
      show bindLoop compare expr path next (i + 1) groupBys _ = _
      rw [ih, overlay_overlay]
      simp only [loopMark, if_neg hequal]

theorem loopMark_nil {below : Path → Option ℤ} (hbelow : below [] = none) (i : ℕ)
    (groupBys : List Expression) :
    loopMark compare expr below i groupBys [] = lastMatch compare expr i groupBys := by
  induction groupBys generalizing i with
  | nil => rfl
  | cons groupBy groupBys ih =>
    rw [loopMark, lastMatch, ih, if_pos rfl, hbelow]

theorem loopMark_cons (expr : Expression) (below : Path → Option ℤ) (i : ℕ)
    (groupBys : List Expression) (j : ℕ) (path : Path) :
    loopMark compare expr below i groupBys (j :: path) =
      if groupBys.all fun groupBy => equal compare expr groupBy then none
      else below (j :: path) := by
  induction groupBys generalizing i with
  | nil => rfl
  | cons groupBy groupBys ih =>
    rw [loopMark, ih, if_neg (List.cons_ne_nil j path), List.all_cons]
    cases equal compare expr groupBy <;>
      cases (groupBys.all fun groupBy => equal compare expr groupBy) <;>
      cases below (j :: path) <;> rfl

theorem bindLoop_of_aggregation (hexpr : isAggregation expr = true) (path : Path)
    (next : Marks → Except Fault Marks) (i : ℕ) (groupBys : List Expression) (marks : Marks) :
    bindLoop compare expr path next i groupBys marks = .ok marks := by
  cases groupBys with
  | nil => rfl
  | cons groupBy groupBys => rw [bindLoop, if_pos hexpr]

theorem bindMark_of_aggregation (hexpr : isAggregation expr = true) :
    bindMark compare groupBys expr = fun _ => none := by
  funext path
  cases path <;> simp [bindMark, hexpr]

theorem loopMark_eq_bindMark {cs : List Expression} (hexpr : isAggregation expr = false)
    (hcs : childExprs expr = cs.map some) :
    loopMark compare expr (writtenEach (bindMark compare groupBys) 0 cs) 0 groupBys =
      bindMark compare groupBys expr := by
  funext path
  cases path with
  | nil => rw [loopMark_nil rfl, bindMark, if_neg (by rw [hexpr]; decide)]
  | cons j path =>
    have hchild : (childExprs expr)[j]?.join = cs[j]? := by
      rw [hcs, List.getElem?_map]
      cases cs[j]? <;> rfl
    rw [loopMark_cons, bindMark, hexpr, Bool.false_or, hchild]
    rfl

theorem bindGroupByExpr_eq (hcomplete : tree.Complete expr) (hbound : Bound expr) (path : Path)
    (marks : Marks) :
    bindGroupByExpr compare groupBys expr path marks =
      .ok (overlay (bindMark compare groupBys expr) path marks) := by
  induction hcomplete generalizing path marks with
  | @node expr here children ih =>
    obtain ⟨hexpr, hchildren⟩ := hbound
    obtain ⟨cs, hcs⟩ := exists_map_some here
    rw [bindGroupByExpr, tree.walk_eq, ← bindGroupByExpr]
    cases hagg : isAggregation expr with
    | true => rw [bindLoop_of_aggregation hagg, bindMark_of_aggregation hagg, overlay_none]
    | false =>
      have hcalls : ∀ j c, cs[j]? = some c → ∀ m : Marks,
          bindGroupByExpr compare groupBys c (path ++ [0 + j]) m =
            .ok (overlay (bindMark compare groupBys c) (path ++ [0 + j]) m) := by
        intro j c hc m
        have hmem : some c ∈ tree.children expr :=
          hcs ▸ List.mem_map_of_mem (List.mem_of_getElem? hc)
        exact ih c hmem (hchildren c hmem) _ m
      have hnext : ∀ m : Marks, callEach Fault.nullChild path 0
          ((tree.children expr).map (Option.map (bindGroupByExpr compare groupBys))) m =
            .ok (overlay (writtenEach (bindMark compare groupBys) 0 cs) path m) := by
        intro m
        rw [hcs, ← effectEach_overlay]
        exact callEach_of_effect _ hcalls m
      rw [bindLoop_eq hagg hexpr hnext, loopMark_eq_bindMark hagg hcs]

theorem forEach_bindGroupByExpr {queries : List Expression}
    (hcomplete : ∀ q ∈ queries, tree.Complete q) (hbound : ∀ q ∈ queries, Bound q)
    (marks : Marks) :
    forEach (bindGroupByExpr compare groupBys) queries marks =
      .ok (overlay (writtenEach (bindMark compare groupBys) 0 queries) [] marks) := by
  rw [← effectEach_overlay]
  refine forEach_of_effect _ (fun j q hq m => ?_) marks
  have hmem := List.mem_of_getElem? hq
  exact bindGroupByExpr_eq (hcomplete q hmem) (hbound q hmem) _ m

end Binding

section Search

variable {compare : Value → Value → ℤ} {groupBys : List Expression}

theorem lastMatch_nonneg {expr : Expression} {i : ℕ} {groupBys : List Expression} {pos : ℤ}
    (h : lastMatch compare expr i groupBys = some pos) : 0 ≤ pos := by
  induction groupBys generalizing i with
  | nil => cases h
  | cons groupBy groupBys ih =>
    rw [lastMatch] at h
    cases hrest : lastMatch compare expr (i + 1) groupBys with
    | some p =>
      rw [hrest] at h
      cases h
      exact ih hrest
    | none =>
      rw [hrest, Option.none_or] at h
      split_ifs at h
      cases h
      exact Int.natCast_nonneg i

theorem isSome_lastMatch (expr : Expression) (i : ℕ) (groupBys : List Expression) :
    (lastMatch compare expr i groupBys).isSome = isGroupBy compare groupBys expr := by
  induction groupBys generalizing i with
  | nil => rfl
  | cons groupBy groupBys ih =>
    rw [lastMatch, Option.isSome_or, ih, isGroupBy, isGroupBy, List.any_cons, Bool.or_comm]
    split_ifs with hequal <;> simp [hequal]

def isClosed (compare : Value → Value → ℤ) (groupBys : List Expression) (expr : Expression) :
    Bool :=
  isAggregation expr || isGroupBy compare groupBys expr

theorem mark_eq_neg_one_iff {expr : Expression} (hexpr : isAggregation expr = false) :
    (bindMark compare groupBys expr []).getD (-1) = -1 ↔
      isGroupBy compare groupBys expr = false := by
  rw [bindMark, if_neg (by rw [hexpr]; decide), ← isSome_lastMatch expr 0]
  cases hmatch : lastMatch compare expr 0 groupBys with
  | none => simp
  | some pos =>
    have hpos := lastMatch_nonneg hmatch
    simp only [Option.getD_some, Option.isSome_some, Bool.true_eq_false, iff_false]
    omega

theorem bindMark_nil_groupBys (expr : Expression) (path : Path) :
    bindMark compare [] expr path = none := by
  cases path <;> simp [bindMark, lastMatch]

theorem bindMark_of_open {expr child : Expression} {j : ℕ}
    (hexpr : isClosed compare groupBys expr = false)
    (hchild : (childExprs expr)[j]? = some (some child)) (path : Path) :
    bindMark compare groupBys expr (j :: path) = bindMark compare groupBys child path := by
  obtain ⟨hagg, hgroupBy⟩ := Bool.or_eq_false_iff.mp hexpr
  cases groupBys with
  | nil => rw [bindMark_nil_groupBys, bindMark_nil_groupBys]
  | cons groupBy groupBys =>
    rw [isGroupBy, List.any_cons, Bool.or_eq_false_iff] at hgroupBy
    rw [bindMark, hagg, Bool.false_or, List.all_cons, hgroupBy.1, Bool.false_and,
      if_neg (by decide), hchild]
    rfl

theorem effectEach_or (found : Expression → Bool) (path : Path) (k : ℕ) (cs : List Expression)
    (b : Bool) :
    effectEach (fun c _ b => b || found c) path k cs b = (b || cs.any found) := by
  induction cs generalizing k b with
  | nil => simp [effectEach]
  | cons c cs ih => rw [effectEach, ih, List.any_cons, Bool.or_assoc]

theorem findUnboundColumn_eq {expr : Expression} {marks : Marks} {path : Path}
    (hcomplete : tree.Complete expr) (hbound : Bound expr)
    (hmarks : ∀ rest, marks (path ++ rest) = (bindMark compare groupBys expr rest).getD (-1))
    (found : Bool) :
    findUnboundColumn marks expr path found =
      .ok (found || tree.reaches (isClosed compare groupBys) isField expr) := by
  induction hcomplete generalizing path found with
  | @node expr here children ih =>
    obtain ⟨hexpr, hchildren⟩ := hbound
    obtain ⟨cs, hcs⟩ := exists_map_some here
    have hmark := hmarks []
    rw [List.append_nil] at hmark
    rw [findUnboundColumn, tree.walk_eq, ← findUnboundColumn, tree.reaches_eq]
    cases hagg : isAggregation expr with
    | true => simp [isClosed, hagg]
    | false =>
      rw [if_neg (by decide), hmark]
      cases hgroupBy : isGroupBy compare groupBys expr with
      | true =>
        have hset : (bindMark compare groupBys expr []).getD (-1) ≠ -1 := by
          intro h
          rw [mark_eq_neg_one_iff hagg, hgroupBy] at h
          cases h
        rw [if_pos hset]
        simp [isClosed, hgroupBy]
      | false =>
        have hopen : isClosed compare groupBys expr = false := by
          rw [isClosed, hagg, hgroupBy]
          rfl
        rw [if_neg (not_not.mpr ((mark_eq_neg_one_iff hagg).mpr hgroupBy)), hopen]
        cases hfield : isField expr with
        | true => simp
        | false =>
          have hcalls : ∀ j c, cs[j]? = some c → ∀ b : Bool,
              findUnboundColumn marks c (path ++ [0 + j]) b =
                .ok (b || tree.reaches (isClosed compare groupBys) isField c) := by
            intro j c hc b
            have hj : (childExprs expr)[j]? = some (some c) := by
              show (tree.children expr)[j]? = _
              rw [hcs, List.getElem?_map, hc]
              rfl
            have hmem : some c ∈ tree.children expr := List.mem_of_getElem? hj
            refine ih c hmem (hchildren c hmem) (fun rest => ?_) b
            rw [← bindMark_of_open hopen hj, ← hmarks, Nat.zero_add, List.append_assoc]
            rfl
          rw [if_neg (by decide), iterateChildExpr_of_bound hexpr, hcs,
            callEach_of_effect (fun c _ b => b || _) hcalls, effectEach_or, List.any_map]
          rfl

theorem forEach_findUnboundColumn {queries : List Expression}
    (hcomplete : ∀ q ∈ queries, tree.Complete q) (hbound : ∀ q ∈ queries, Bound q) :
    forEach (findUnboundColumn
      (overlay (writtenEach (bindMark compare groupBys) 0 queries) [] fun _ => -1)) queries false =
        .ok (queries.any (tree.reaches (isClosed compare groupBys) isField)) := by
  rw [forEach_of_effect (fun q _ b => b || tree.reaches (isClosed compare groupBys) isField q),
    effectEach_or, Bool.false_or]
  intro j q hq b
  have hmem := List.mem_of_getElem? hq
  refine findUnboundColumn_eq (hcomplete q hmem) (hbound q hmem) (fun rest => ?_) b
  have hmark := overlay_append (writtenEach (bindMark compare groupBys) 0 queries) []
    (fun _ => -1) (j :: rest)
  rw [writtenEach, if_pos (Nat.zero_le j), Nat.sub_zero, hq] at hmark
  exact hmark

end Search

section Collection

variable {groupByNum : ℕ}

def aggregatePlaces (nodes : List (Path × Expression)) : List Path :=
  (nodes.filter fun node => isAggregation node.2).map Prod.fst

def aggregateNodes (queries : List Expression) : List Path :=
  aggregatePlaces (under 0 ((queries.map some).map (Option.map tree.preorder)))

theorem aggregatePlaces_append (a b : List (Path × Expression)) :
    aggregatePlaces (a ++ b) = aggregatePlaces a ++ aggregatePlaces b := by
  rw [aggregatePlaces, List.filter_append, List.map_append]
  rfl

theorem aggregatePlaces_map (k : ℕ) (nodes : List (Path × Expression)) :
    aggregatePlaces (nodes.map fun node => (k :: node.1, node.2)) =
      (aggregatePlaces nodes).map (k :: ·) := by
  rw [aggregatePlaces, List.filter_map, List.map_map, aggregatePlaces, List.map_map]
  rfl

def Collected.pushAll (groupByNum : ℕ) (s : Collected) (places : List Path) : Collected :=
  places.foldl (Collected.push groupByNum) s

def collectEffect (groupByNum : ℕ) (expr : Expression) (path : Path) (s : Collected) : Collected :=
  s.pushAll groupByNum ((aggregatePlaces (tree.preorder expr)).map (path ++ ·))

theorem effectEach_collect (path : Path) (k : ℕ) (cs : List Expression) (s : Collected) :
    effectEach (collectEffect groupByNum) path k cs s =
      s.pushAll groupByNum ((aggregatePlaces
        (under k ((cs.map some).map (Option.map tree.preorder)))).map (path ++ ·)) := by
  induction cs generalizing k s with
  | nil => rfl
  | cons c cs ih =>
    have hfirst : (aggregatePlaces (tree.preorder c)).map (path ++ [k] ++ ·) =
        (aggregatePlaces ((tree.preorder c).map fun node => (k :: node.1, node.2))).map
          (path ++ ·) := by
      rw [aggregatePlaces_map, List.map_map]
      refine List.map_congr_left fun place _ => ?_
      simp
    rw [effectEach, ih, collectEffect, hfirst]
    rw [List.map_cons, List.map_cons, Option.map_some, under, Option.getD_some,
      aggregatePlaces_append, List.map_append, Collected.pushAll, Collected.pushAll,
      Collected.pushAll, List.foldl_append]

theorem collector_eq {expr : Expression} (hcomplete : tree.Complete expr) (hbound : Bound expr)
    (path : Path) (s : Collected) :
    collector groupByNum expr path s = .ok (collectEffect groupByNum expr path s) := by
  induction hcomplete generalizing path s with
  | @node expr here children ih =>
    obtain ⟨hexpr, hchildren⟩ := hbound
    obtain ⟨cs, hcs⟩ := exists_map_some here
    have hcalls : ∀ j c, cs[j]? = some c → ∀ t : Collected,
        collector groupByNum c (path ++ [0 + j]) t =
          .ok (collectEffect groupByNum c (path ++ [0 + j]) t) := by
      intro j c hc t
      have hmem : some c ∈ tree.children expr :=
        hcs ▸ List.mem_map_of_mem (List.mem_of_getElem? hc)
      exact ih c hmem (hchildren c hmem) _ t
    rw [collector, tree.walk_eq, ← collector, iterateChildExpr_of_bound hexpr, hcs]
    rw [callEach_of_effect _ hcalls, effectEach_collect, collectEffect, tree.preorder_eq, hcs]
    cases hagg : isAggregation expr with
    | true => simp [aggregatePlaces, hagg, Collected.pushAll]
    | false => simp [aggregatePlaces, hagg]

theorem forEach_collector {queries : List Expression}
    (hcomplete : ∀ q ∈ queries, tree.Complete q) (hbound : ∀ q ∈ queries, Bound q)
    (s : Collected) :
    forEach (collector groupByNum) queries s =
      .ok (s.pushAll groupByNum (aggregateNodes queries)) := by
  rw [forEach_of_effect (collectEffect groupByNum), effectEach_collect]
  · simp [aggregateNodes]
  · intro j q hq t
    have hmem := List.mem_of_getElem? hq
    exact collector_eq (hcomplete q hmem) (hbound q hmem) _ t

theorem pushAll_aggregateExpressions (groupByNum : ℕ) (s : Collected) (places : List Path) :
    (s.pushAll groupByNum places).aggregateExpressions = s.aggregateExpressions ++ places := by
  induction places generalizing s with
  | nil => simp [Collected.pushAll]
  | cons place places ih =>
    have hstep := ih (s.push groupByNum place)
    rw [Collected.pushAll, List.foldl_cons]
    rw [Collected.pushAll] at hstep
    rw [hstep, Collected.push, List.append_assoc]
    rfl

theorem pushAll_marks (groupByNum : ℕ) {places : List Path} (hnodup : places.Nodup)
    (marks : Marks) (k : ℕ) (hk : k < places.length) :
    (Collected.pushAll groupByNum ⟨marks, []⟩ places).marks places[k] = k + groupByNum := by
  induction places using List.reverseRecOn generalizing k with
  | nil => exact absurd hk (Nat.not_lt_zero k)
  | append_singleton places place ih =>
    obtain ⟨hfront, -, hdisjoint⟩ := List.nodup_append.mp hnodup
    rw [Collected.pushAll, List.foldl_concat, Collected.push]
    show setPos place _ _ _ = _
    rw [← Collected.pushAll, pushAll_aggregateExpressions, List.nil_append, setPos]
    rcases Nat.lt_or_eq_of_le (Nat.le_of_lt_succ (by simpa using hk)) with hlt | rfl
    · have hne : places[k] ≠ place := hdisjoint _ (List.getElem_mem hlt) place List.mem_cons_self
      rw [List.getElem_append_left hlt, Function.update_of_ne hne]
      exact ih hfront k hlt
    · rw [List.getElem_concat_length rfl, Function.update_self]

theorem nodup_aggregateNodes (queries : List Expression) : (aggregateNodes queries).Nodup := by
  refine List.Nodup.sublist (List.filter_sublist.map _) (nodup_under ?_)
  intro nodes hnodes
  obtain ⟨q, hq, hmap⟩ := List.mem_map.mp hnodes
  obtain ⟨e, rfl, rfl⟩ := Option.map_eq_some_iff.mp hmap
  exact tree.nodup_preorder e

end Collection

section Results

variable {compare : Value → Value → ℤ} {groupBys queries : List Expression} {expr : Expression}

/-- The place of a field that is neither inside an aggregate nor inside of, or equal to, an
expression that is equal to a group-by expression. -/
def IsUnboundField (compare : Value → Value → ℤ) (groupBys : List Expression)
    (query : Expression) (path : Path) : Prop :=
  ∃ field, tree.nodeAt query path = some field ∧ isField field = true ∧
    ∀ front, front <+: path → ∀ expr, tree.nodeAt query front = some expr →
      isAggregation expr = false ∧ ∀ groupBy ∈ groupBys, equal compare expr groupBy = false

theorem isClosed_eq_false :
    isClosed compare groupBys expr = false ↔
      isAggregation expr = false ∧ ∀ groupBy ∈ groupBys, equal compare expr groupBy = false := by
  simp [isClosed, isGroupBy]

theorem reaches_isField_iff (query : Expression) :
    tree.reaches (isClosed compare groupBys) isField query = true ↔
      ∃ path, IsUnboundField compare groupBys query path := by
  rw [tree.reaches_iff]
  simp only [isClosed_eq_false, IsUnboundField]

theorem createGroupByPlan_eq (compare : Value → Value → ℤ) (groupBys : List Expression)
    (hcomplete : ∀ q ∈ queries, tree.Complete q) (hbound : ∀ q ∈ queries, Bound q) :
    createGroupByPlan compare groupBys queries (fun _ => -1) =
      let s := Collected.pushAll groupBys.length
        ⟨overlay (writtenEach (bindMark compare groupBys) 0 queries) [] fun _ => -1, []⟩
        (aggregateNodes queries)
      if groupBys.isEmpty && s.aggregateExpressions.isEmpty then .ok ⟨.success, s.marks, none⟩
      else if queries.any (tree.reaches (isClosed compare groupBys) isField) then
        .ok ⟨.invalidArgument, s.marks, none⟩
      else .ok ⟨.success, s.marks, some s.aggregateExpressions⟩ := by
  rw [createGroupByPlan, forEach_bindGroupByExpr hcomplete hbound]
  show (forEach _ queries false).bind _ = _
  rw [forEach_findUnboundColumn hcomplete hbound]
  show (forEach _ queries _).bind _ = _
  rw [forEach_collector hcomplete hbound]
  rfl

/-- The call fails exactly where a field is unbound; otherwise it collects the aggregates in the
order of the walk and numbers them behind the group-by expressions. -/
theorem group_by_validation_exact (compare : Value → Value → ℤ)
    (groupBys queries : List Expression) (hcomplete : ∀ q ∈ queries, tree.Complete q)
    (hbound : ∀ q ∈ queries, Bound q) (hsome : groupBys ≠ [] ∨ aggregateNodes queries ≠ []) :
    ∃ planned, createGroupByPlan compare groupBys queries (fun _ => -1) = .ok planned ∧
      (planned.rc ≠ .success ↔ ∃ q ∈ queries, ∃ path, IsUnboundField compare groupBys q path) ∧
      (planned.rc = .success → planned.groupByOper = some (aggregateNodes queries) ∧
        ∀ k (hk : k < (aggregateNodes queries).length),
          planned.marks (aggregateNodes queries)[k] = k + groupBys.length) := by
  have hcollected := pushAll_aggregateExpressions groupBys.length
    ⟨overlay (writtenEach (bindMark compare groupBys) 0 queries) [] fun _ => -1, []⟩
    (aggregateNodes queries)
  rw [List.nil_append] at hcollected
  have hmarks := pushAll_marks groupBys.length (nodup_aggregateNodes queries)
    (overlay (writtenEach (bindMark compare groupBys) 0 queries) [] fun _ => -1)
  have hpresent : (groupBys.isEmpty && (aggregateNodes queries).isEmpty) = false := by
    rw [Bool.and_eq_false_iff, List.isEmpty_eq_false_iff, List.isEmpty_eq_false_iff]
    exact hsome
  have hfound : queries.any (tree.reaches (isClosed compare groupBys) isField) = true ↔
      ∃ q ∈ queries, ∃ path, IsUnboundField compare groupBys q path := by
    rw [List.any_eq_true]
    simp only [reaches_isField_iff]
  rw [createGroupByPlan_eq compare groupBys hcomplete hbound]
  dsimp only
  rw [hcollected, hpresent, if_neg (by decide)]
  by_cases hunbound : queries.any (tree.reaches (isClosed compare groupBys) isField) = true
  · rw [if_pos hunbound]
    refine ⟨_, rfl, iff_of_true (fun h => ?_) (hfound.mp hunbound), fun h => ?_⟩
    · cases h
    · cases h
  · rw [if_neg hunbound]
    exact ⟨_, rfl, iff_of_false (not_not.mpr rfl) (mt hfound.mpr hunbound),
      fun _ => ⟨rfl, hmarks⟩⟩

theorem throughout_leaf {P : Expression → Prop} (h : childExprs expr = []) (hexpr : P expr) :
    tree.Throughout P expr := by
  refine .node hexpr fun c hc => ?_
  have hmem : some c ∈ childExprs expr := hc
  rw [h] at hmem
  cases hmem

def columnA : Expression := .field "t" "a" 0 .ints 4

def sumB : Expression := .aggregation .sum (.field "t" "b" 1 .ints 4)

theorem complete_and_bound_sumB : tree.Complete sumB ∧ Bound sumB := by
  have hchild : ∀ c, some c ∈ tree.children sumB → c = .field "t" "b" 1 .ints 4 := fun c hc =>
    Option.some.inj (List.mem_singleton.mp hc)
  refine ⟨.node (by simp [tree, childExprs, sumB]) fun c hc => ?_, .node rfl fun c hc => ?_⟩
  · rw [hchild c hc]
    exact throughout_leaf rfl List.not_mem_nil
  · rw [hchild c hc]
    exact throughout_leaf rfl rfl

/-- `SELECT a, SUM(b) ... GROUP BY a`. -/
theorem group_by_validation_sum :
    ∃ planned, createGroupByPlan (fun _ _ => 0) [columnA] [columnA, sumB] (fun _ => -1) =
        .ok planned ∧ planned.rc = .success ∧ planned.groupByOper = some [[1]] ∧
      planned.marks [1] = 1 := by
  obtain ⟨hcomplete, hbound⟩ := complete_and_bound_sumB
  obtain ⟨planned, heq, hfails, hplan⟩ := group_by_validation_exact (fun _ _ => 0) [columnA]
    [columnA, sumB] (List.forall_mem_cons.mpr
      ⟨throughout_leaf rfl List.not_mem_nil, by simpa using hcomplete⟩)
    (List.forall_mem_cons.mpr ⟨throughout_leaf rfl rfl, by simpa using hbound⟩)
    (.inl (List.cons_ne_nil _ []))
  have hrc : planned.rc = .success := by
    by_contra hne
    obtain ⟨q, hq, hpath⟩ := hfails.mp hne
    rw [← reaches_isField_iff, tree.reaches_eq] at hpath
    rcases List.mem_pair.mp hq with rfl | rfl
    · simp [columnA, isClosed, isGroupBy, equal] at hpath
    · simp [sumB, isClosed, isAggregation] at hpath
  have hnodes : aggregateNodes [columnA, sumB] = [[1]] := by
    have hchildren : tree.children = childExprs := rfl
    simp [aggregateNodes, aggregatePlaces, columnA, sumB, under, Shape.preorder_eq, hchildren,
      childExprs, isAggregation]
  obtain ⟨hoper, hmarks⟩ := hplan hrc
  rw [hnodes] at hoper hmarks
  exact ⟨planned, heq, hrc, hoper, hmarks 0 (by simp)⟩

section Faults

def AtNull (fault : Fault) : Prop := fault = .nullChild

def NullOnly : Except Fault σ → Prop := Within AtNull

theorem nullOnly_iterateChildExpr {next : σ → Except Fault σ}
    (hexpr : isUnboundAggregation expr = false) (hnext : ∀ s, NullOnly (next s)) (s : σ) :
    NullOnly (iterateChildExpr expr next s) := by
  rw [iterateChildExpr_of_bound hexpr]
  exact hnext s

theorem nullOnly_bindLoop {path : Path} {next : Marks → Except Fault Marks}
    (hexpr : isUnboundAggregation expr = false) (hnext : ∀ m, NullOnly (next m)) (i : ℕ)
    (groupBys : List Expression) (marks : Marks) :
    NullOnly (bindLoop compare expr path next i groupBys marks) := by
  induction groupBys generalizing i marks with
  | nil => exact trivial
  | cons groupBy groupBys ih =>
    rw [bindLoop]
    split_ifs
    · exact trivial
    · exact ih (i + 1) _
    · exact (nullOnly_iterateChildExpr hexpr hnext marks).bind fun m => ih (i + 1) m

theorem nullOnly_bindGroupByExpr (compare : Value → Value → ℤ) (groupBys : List Expression)
    (h : Bound expr) (path : Path) (marks : Marks) :
    NullOnly (bindGroupByExpr compare groupBys expr path marks) :=
  h.walk_within (P := AtNull) rfl
    (fun _ _ _ hexpr hnext m => nullOnly_bindLoop hexpr hnext 0 groupBys m) path marks

theorem nullOnly_findUnboundColumn (h : Bound expr) (marks : Marks) (path : Path) (found : Bool) :
    NullOnly (findUnboundColumn marks expr path found) := by
  refine h.walk_within (P := AtNull) rfl (fun e place next hexpr hnext b => ?_) path found
  split_ifs
  · exact trivial
  · exact trivial
  · exact trivial
  · exact nullOnly_iterateChildExpr hexpr hnext b

theorem nullOnly_collector (h : Bound expr) (groupByNum : ℕ) (path : Path) (s : Collected) :
    NullOnly (collector groupByNum expr path s) :=
  h.walk_within (P := AtNull) rfl
    (fun _ _ _ hexpr hnext _ => nullOnly_iterateChildExpr hexpr hnext _) path s

theorem nullOnly_forEach {callback : Expression → Path → σ → Except Fault σ}
    (h : ∀ q ∈ queries, ∀ path s, NullOnly (callback q path s)) (s : σ) :
    NullOnly (forEach callback queries s) := by
  refine callEach_within (P := AtNull) rfl (fun call hcall => ?_) [] 0 s
  obtain ⟨o, ho, hmap⟩ := List.mem_map.mp hcall
  obtain ⟨q, rfl, rfl⟩ := Option.map_eq_some_iff.mp hmap
  obtain ⟨q', hq, heq⟩ := List.mem_map.mp ho
  cases heq
  exact h q hq

theorem complete_of_collector {groupByNum : ℕ} {s s' : Collected}
    (h : forEach (collector groupByNum) queries s = .ok s') :
    ∀ q ∈ queries, tree.Complete q := by
  intro q hq
  obtain ⟨call, place, t, t', hcall, hok⟩ := mem_of_callEach_ok h
    (some (collector groupByNum q)) (List.mem_map_of_mem (List.mem_map_of_mem hq))
  cases hcall
  refine Shape.complete_of_walk_ok (fun e path next u u' hbody => ?_) hok
  unfold iterateChildExpr at hbody
  by_cases hunbound : isUnboundAggregation e = true
  · rw [if_pos hunbound] at hbody
    cases hbody
  · rw [if_neg hunbound] at hbody
    exact ⟨_, u', hbody⟩

theorem NullOnly.exists_ok {τ : Type*} {x : Except Fault σ} {f : σ → Except Fault τ}
    (h : NullOnly x) (hne : x.bind f ≠ .error .nullChild) :
    ∃ s, x = .ok s ∧ f s ≠ .error .nullChild := by
  cases x with
  | error fault =>
    cases h
    exact absurd rfl hne
  | ok s => exact ⟨s, rfl, hne⟩

theorem complete_of_createGroupByPlan (hbound : ∀ q ∈ queries, Bound q) (marks : Marks)
    (h : createGroupByPlan compare groupBys queries marks ≠ .error .nullChild) :
    ∀ q ∈ queries, tree.Complete q := by
  have hbind := nullOnly_forEach (fun q hq =>
    nullOnly_bindGroupByExpr compare groupBys (hbound q hq)) marks
  obtain ⟨marks', -, h⟩ := hbind.exists_ok h
  have hfind := nullOnly_forEach (fun q hq =>
    nullOnly_findUnboundColumn (hbound q hq) marks') false
  obtain ⟨found, -, h⟩ := hfind.exists_ok h
  have hcollect := nullOnly_forEach (fun q hq =>
    nullOnly_collector (hbound q hq) groupBys.length) ⟨marks', []⟩
  obtain ⟨s, hs, -⟩ := hcollect.exists_ok h
  exact complete_of_collector hs

theorem complete_iff :
    tree.Complete expr ↔
      ∀ path type left, tree.nodeAt expr path ≠ some (.arithmetic type left none) := by
  have hnull (e : Expression) :
      none ∈ tree.children e ↔ ∃ type left, e = .arithmetic type left none := by
    cases e with
    | arithmetic type left right => cases right <;> simp [tree, childExprs]
    | _ => simp [tree, childExprs]
  rw [Shape.Complete, Shape.throughout_iff]
  constructor
  · intro h path type left hnode
    exact h path _ hnode ((hnull _).mpr ⟨type, left, rfl⟩)
  · intro h path e hnode hmem
    obtain ⟨type, left, rfl⟩ := (hnull e).mp hmem
    exact h path type left hnode

/-- No callback is called for a null pointer exactly where every arithmetic expression has its
right operand, wherever it is. -/
theorem no_null_child_iff (compare : Value → Value → ℤ) (groupBys queries : List Expression)
    (hbound : ∀ q ∈ queries, Bound q) :
    createGroupByPlan compare groupBys queries (fun _ => -1) ≠ .error .nullChild ↔
      ∀ q ∈ queries, ∀ path type left,
        tree.nodeAt q path ≠ some (.arithmetic type left none) := by
  constructor
  · intro h q hq
    exact complete_iff.mp (complete_of_createGroupByPlan hbound _ h q hq)
  · intro h
    rw [createGroupByPlan_eq compare groupBys (fun q hq => complete_iff.mpr (h q hq)) hbound]
    dsimp only
    split_ifs <;> intro herror <;> cases herror

def unaryMinus : Expression := .arithmetic .negative (.field "t" "a" 0 .ints 4) none

theorem bound_unaryMinus : Bound unaryMinus := by
  refine .node rfl fun c hc => ?_
  have hleft : c = .field "t" "a" 0 .ints 4 := by
    rcases List.mem_cons.mp hc with hc | hc
    · exact Option.some.inj hc
    · cases List.mem_singleton.mp hc
  rw [hleft]
  exact throughout_leaf rfl rfl

theorem no_null_child_sum :
    createGroupByPlan (fun _ _ => 0) [] [sumB] (fun _ => -1) ≠ .error .nullChild :=
  (no_null_child_iff _ [] [sumB] (List.forall_mem_singleton.mpr complete_and_bound_sumB.2)).mpr
    (List.forall_mem_singleton.mpr (complete_iff.mp complete_and_bound_sumB.1))

/-- `SELECT -a` is called back for the operand that it does not have. -/
theorem unary_minus_meets_null :
    createGroupByPlan (fun _ _ => 0) [] [unaryMinus] (fun _ => -1) = .error .nullChild := by
  by_contra h
  have hcomplete := complete_of_createGroupByPlan
    (List.forall_mem_singleton.mpr bound_unaryMinus) _ h unaryMinus List.mem_cons_self
  exact complete_iff.mp hcomplete [] .negative _ rfl

end Faults

end Results

end GroupByPlan
