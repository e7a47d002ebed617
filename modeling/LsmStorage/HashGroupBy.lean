import LsmStorage.SqlOperator
import Mathlib.Data.List.Dedup

/-! # HashGroupByPhysicalOperator

`open` reads the child to its end, one group for each key, and evaluates the aggregators of every
group; `next` walks through the groups. The groups of a list of rows are those of its keys, in the
order of their first occurrence. -/
namespace HashGroupBy

open BoundedLoop ResultCode SqlOperator

variable {T σ π τ K S V A α β : Type*}

def forEach (call : α → RC × β × α) : List α → RC × List β × List α
  | [] => (.success, [], [])
  | a :: as =>
    let (rc, b, a) := call a
    if rc ≠ .success then (rc, [], a :: as)
    else
      let (rc, bs, as) := forEach call as
      (rc, b :: bs, a :: as)

structure AggregateExpr (τ S V A : Type*) where
  spec : S
  child : τ → RC × V
  createAggregator : A
  accumulate : V → A → RC × A
  evaluate : A → RC × V × A

structure ValueListTuple (S V : Type*) where
  cells : List V := []
  specs : List S := []
  deriving DecidableEq

/-- The cells and the specs of a `CompositeTuple`, one tuple behind the other. -/
def read (tuples : List (ValueListTuple S V)) : ValueListTuple S V :=
  ⟨tuples.flatMap (·.cells), tuples.flatMap (·.specs)⟩

/-- A group: its key, its aggregators, each with its expression, and its composite tuple. -/
structure GroupType (τ K S V A : Type*) where
  key : K
  aggregators : List (AggregateExpr τ S V A × A)
  tuple : List (ValueListTuple S V)

/-- What the operator is made for: the key of a tuple, the copy of a tuple with
`ValueListTuple::make`, and the aggregate expressions. -/
structure Clause (τ K S V A : Type*) where
  keyOf : τ → K
  make : τ → RC × ValueListTuple S V
  aggregates : List (AggregateExpr τ S V A)

namespace Clause

variable (c : Clause τ K S V A)

def createAggregatorList : List (AggregateExpr τ S V A × A) :=
  c.aggregates.map fun e => (e, e.createAggregator)

def findGroup [DecidableEq K] (t : τ) (groups : List (GroupType τ K S V A)) :
    RC × List (GroupType τ K S V A) × ℕ :=
  let found := groups.findIdx fun g => g.key = c.keyOf t
  if found < groups.length then (.success, groups, found)
  else
    let (rc, first) := c.make t
    if rc ≠ .success then (rc, groups, found)
    else (.success, groups ++ [⟨c.keyOf t, c.createAggregatorList, [first]⟩], found)

def aggregate (t : τ) (aggregators : List (AggregateExpr τ S V A × A)) :
    RC × List (AggregateExpr τ S V A × A) :=
  let (rc, _, aggregators) := forEach (fun (e, a) =>
    let (rc, value) := e.child t
    if rc ≠ .success then (rc, (), e, a)
    else
      let (rc, a) := e.accumulate value a
      (rc, (), e, a)) aggregators
  (rc, aggregators)

def addTuple [DecidableEq K] (t : τ) (groups : List (GroupType τ K S V A)) :
    RC × List (GroupType τ K S V A) :=
  let (rc, groups, found) := c.findGroup t groups
  if rc ≠ .success then (rc, groups)
  else
    match groups[found]? with
    | none => (.internal, groups)
    | some g =>
      let (rc, aggregators) := aggregate t g.aggregators
      (rc, groups.set found { g with aggregators })

def evaluate (g : GroupType τ K S V A) : RC × Unit × GroupType τ K S V A :=
  let (rc, values, aggregators) := forEach (fun (e, a) =>
    let (rc, value, a) := e.evaluate a
    (rc, value, e, a)) g.aggregators
  if rc ≠ .success then (rc, (), { g with aggregators })
  else (.success, (), { g with
    aggregators
    tuple := g.tuple ++ [⟨values, c.aggregates.map (·.spec)⟩] })

end Clause

/-- The operator over the state of its child. A position behind the last group is `end()`. -/
structure HashGroupByPhysicalOperator (σ τ K S V A : Type*) where
  child : σ
  groups : List (GroupType τ K S V A) := []
  currentGroup : ℕ := 0
  firstEmited : Bool := false

namespace HashGroupByPhysicalOperator

section Operator

variable (op : PhysicalOperator T σ π τ) (c : Clause τ K S V A) [DecidableEq K]

/-- One turn of the loop over the child: it goes on, is left with a code (`ok`), or `open` returns
(`error`). -/
def openTurn (s : HashGroupByPhysicalOperator σ τ K S V A) :
    Turn (HashGroupByPhysicalOperator σ τ K S V A)
      (Except (RC × HashGroupByPhysicalOperator σ τ K S V A)
        (RC × HashGroupByPhysicalOperator σ τ K S V A)) :=
  let (rc, child) := op.next s.child
  let s := { s with child }
  if rc ≠ .success then .stop (.ok (rc, s))
  else
    match op.tupleNow child with
    | none => .stop (.error (.internal, s))
    | some t =>
      let (rc, groups) := c.addTuple t s.groups
      let s := { s with groups }
      if rc ≠ .success then .stop (.error (rc, s)) else .again s

def evaluateGroups (s : HashGroupByPhysicalOperator σ τ K S V A) :
    RC × HashGroupByPhysicalOperator σ τ K S V A :=
  let (rc, _, groups) := forEach c.evaluate s.groups
  let s := { s with groups }
  if rc ≠ .success then (rc, s) else (.success, { s with currentGroup := 0, firstEmited := false })

def openWith (fuel : ℕ) (trx : T) (s : HashGroupByPhysicalOperator σ τ K S V A) :
    Option (RC × HashGroupByPhysicalOperator σ τ K S V A) :=
  let (rc, child) := op.openWith trx s.child
  let s := { s with child }
  if rc ≠ .success then some (rc, s)
  else
    (run (openTurn op c) fuel s).map fun
      | .error returned => returned
      | .ok (rc, s) =>
        let rc := if rc = .recordEof then .success else rc
        if rc ≠ .success then (rc, s) else s.evaluateGroups c

def next (s : HashGroupByPhysicalOperator σ τ K S V A) :
    RC × HashGroupByPhysicalOperator σ τ K S V A :=
  if s.currentGroup = s.groups.length then (.recordEof, s)
  else
    let s := if s.firstEmited then { s with currentGroup := s.currentGroup + 1 }
      else { s with firstEmited := true }
    if s.currentGroup = s.groups.length then (.recordEof, s) else (.success, s)

/-- The code of the child is not looked at. -/
def close (s : HashGroupByPhysicalOperator σ τ K S V A) :
    RC × HashGroupByPhysicalOperator σ τ K S V A :=
  (.success, { s with child := (op.close s.child).2 })

def currentTuple (s : HashGroupByPhysicalOperator σ τ K S V A) : Option (ValueListTuple S V) :=
  s.groups[s.currentGroup]?.map fun g => read g.tuple

def drain (fuel : ℕ) (s : HashGroupByPhysicalOperator σ τ K S V A) :
    Option (RC × List (Option (ValueListTuple S V)) × HashGroupByPhysicalOperator σ τ K S V A) :=
  SqlOperator.drain (fun s => some (next s)) currentTuple fuel s

end Operator

end HashGroupByPhysicalOperator

section Loops

variable {call : α → RC × β × α} {l : List α}

theorem forEach_success_iff : (forEach call l).1 = .success ↔ ∀ a ∈ l, (call a).1 = .success := by
  induction l with
  | nil => exact iff_of_true rfl (List.forall_mem_nil _)
  | cons a l ih =>
    rw [forEach, List.forall_mem_cons]
    dsimp only
    split_ifs with hcall
    · exact iff_of_false hcall fun h => hcall h.1
    · rw [ih]
      exact (and_iff_right (not_not.mp hcall)).symm

theorem forEach_of_success (h : ∀ a ∈ l, (call a).1 = .success) :
    forEach call l = (.success, l.map fun a => (call a).2.1, l.map fun a => (call a).2.2) := by
  induction l with
  | nil => rfl
  | cons a l ih =>
    obtain ⟨ha, hl⟩ := List.forall_mem_cons.mp h
    rw [forEach]
    dsimp only
    rw [if_neg (not_not.mpr ha), ih hl]
    rfl

theorem map_forEach {γ : Type*} {p : α → γ} (h : ∀ a, p (call a).2.2 = p a) :
    (forEach call l).2.2.map p = l.map p := by
  induction l with
  | nil => rfl
  | cons a l ih =>
    rw [forEach]
    dsimp only
    split_ifs
    · exact congrArg (· :: l.map p) (h a)
    · exact congrArg₂ List.cons (h a) ih

end Loops

section Groups

variable {c : Clause τ K S V A} {t : τ}

def accumulated (t : τ) (p : AggregateExpr τ S V A × A) : AggregateExpr τ S V A × A :=
  (p.1, (p.1.accumulate (p.1.child t).2 p.2).2)

theorem aggregate_fst (t : τ) (aggregators : List (AggregateExpr τ S V A × A)) :
    (Clause.aggregate t aggregators).2.map Prod.fst = aggregators.map Prod.fst := by
  refine map_forEach fun p => ?_
  dsimp only
  split_ifs <;> rfl

theorem aggregate_of_success {aggregators : List (AggregateExpr τ S V A × A)}
    (h : (Clause.aggregate t aggregators).1 = .success) :
    (Clause.aggregate t aggregators).2 = aggregators.map (accumulated t) := by
  have hall := forEach_success_iff.mp h
  unfold Clause.aggregate
  rw [forEach_of_success hall]
  refine List.map_congr_left fun p hp => ?_
  have hp := hall p hp
  dsimp only at hp ⊢
  split_ifs at hp ⊢ with hchild
  · exact absurd hp hchild
  · rfl

variable [DecidableEq K] {groups : List (GroupType τ K S V A)}

def position (k : K) (groups : List (GroupType τ K S V A)) : ℕ := groups.findIdx fun g => g.key = k

theorem addTuple_of_found (h : position (c.keyOf t) groups < groups.length) :
    c.addTuple t groups =
      ((Clause.aggregate t groups[position (c.keyOf t) groups].aggregators).1,
        groups.set (position (c.keyOf t) groups) {
          groups[position (c.keyOf t) groups] with
          aggregators :=
            (Clause.aggregate t groups[position (c.keyOf t) groups].aggregators).2 }) := by
  have hfind : c.findGroup t groups = (.success, groups, position (c.keyOf t) groups) :=
    if_pos h
  unfold Clause.addTuple
  rw [hfind]
  dsimp only
  rw [if_neg (not_not.mpr rfl), List.getElem?_eq_getElem h]

theorem addTuple_of_new (h : ¬ position (c.keyOf t) groups < groups.length) :
    c.addTuple t groups =
      if (c.make t).1 ≠ .success then ((c.make t).1, groups)
      else ((Clause.aggregate t c.createAggregatorList).1, groups ++
        [⟨c.keyOf t, (Clause.aggregate t c.createAggregatorList).2, [(c.make t).2]⟩]) := by
  have hend : position (c.keyOf t) groups = groups.length :=
    Nat.le_antisymm List.findIdx_le_length (Nat.le_of_not_lt h)
  have hfind : c.findGroup t groups =
      if (c.make t).1 ≠ .success then ((c.make t).1, groups, groups.length)
      else (.success, groups ++ [⟨c.keyOf t, c.createAggregatorList, [(c.make t).2]⟩],
        groups.length) := by
    rw [← hend]
    exact if_neg h
  unfold Clause.addTuple
  rw [hfind]
  split_ifs with hmake
  · dsimp only
    rw [if_pos hmake]
  · dsimp only
    rw [if_neg (not_not.mpr rfl), List.getElem?_concat_length]
    dsimp only
    rw [List.set_append_right _ _ (Nat.le_refl _), Nat.sub_self]
    rfl

def Shaped (c : Clause τ K S V A) (g : GroupType τ K S V A) : Prop :=
  g.aggregators.map Prod.fst = c.aggregates

theorem shaped_addTuple (h : ∀ g ∈ groups, Shaped c g) :
    ∀ g ∈ (c.addTuple t groups).2, Shaped c g := by
  by_cases hfound : position (c.keyOf t) groups < groups.length
  · rw [addTuple_of_found hfound]
    intro g hg
    rcases List.mem_or_eq_of_mem_set hg with hold | rfl
    · exact h g hold
    · exact (aggregate_fst t _).trans (h _ (List.getElem_mem hfound))
  · rw [addTuple_of_new hfound]
    split_ifs
    · exact h
    · intro g hg
      rcases List.mem_append.mp hg with hold | hnew
      · exact h g hold
      · rw [List.mem_singleton.mp hnew]
        refine (aggregate_fst t _).trans ?_
        rw [Clause.createAggregatorList, List.map_map]
        exact List.map_id _

theorem tuples_addTuple :
    groups.map GroupType.tuple <+: (c.addTuple t groups).2.map GroupType.tuple := by
  by_cases hfound : position (c.keyOf t) groups < groups.length
  · have hlength : position (c.keyOf t) groups < (groups.map GroupType.tuple).length := by
      rwa [List.length_map]
    have hsame := List.set_getElem_self hlength
    rw [List.getElem_map] at hsame
    have hkept : (c.addTuple t groups).2.map GroupType.tuple = groups.map GroupType.tuple := by
      rw [addTuple_of_found hfound, List.map_set, hsame]
    exact hkept ▸ List.prefix_rfl
  · rw [addTuple_of_new hfound]
    split_ifs
    · exact List.prefix_rfl
    · rw [List.map_append]
      exact List.prefix_append _ _

end Groups

section Grouping

variable [DecidableEq K] (c : Clause τ K S V A)

def distinctKeys (rows : List τ) : List K := (rows.map c.keyOf).reverse.dedup.reverse

def members (rows : List τ) (k : K) : List τ := rows.filter fun t => c.keyOf t = k

def groupOf (rows : List τ) (k : K) : GroupType τ K S V A where
  key := k
  aggregators := (members c rows k).foldl (fun aggregators t => aggregators.map (accumulated t))
    c.createAggregatorList
  tuple := (members c rows k).head?.toList.map fun t => (c.make t).2

def groupsOf (rows : List τ) : List (GroupType τ K S V A) :=
  (distinctKeys c rows).map (groupOf c rows)

variable {c} {rows : List τ} {t : τ} {k : K}

theorem nodup_distinctKeys (rows : List τ) : (distinctKeys c rows).Nodup :=
  List.nodup_reverse.mpr (List.nodup_dedup _)

theorem mem_distinctKeys : k ∈ distinctKeys c rows ↔ k ∈ rows.map c.keyOf := by
  rw [distinctKeys, List.mem_reverse, List.mem_dedup, List.mem_reverse]

theorem distinctKeys_concat (rows : List τ) (t : τ) :
    distinctKeys c (rows ++ [t]) = if c.keyOf t ∈ rows.map c.keyOf then distinctKeys c rows
      else distinctKeys c rows ++ [c.keyOf t] := by
  unfold distinctKeys
  rw [List.map_append, List.map_singleton, List.reverse_append, List.reverse_singleton,
    List.singleton_append]
  split_ifs with hold
  · rw [List.dedup_cons_of_mem (List.mem_reverse.mpr hold)]
  · rw [List.dedup_cons_of_notMem (mt List.mem_reverse.mp hold), List.reverse_cons]

theorem members_concat (rows : List τ) (t : τ) (k : K) :
    members c (rows ++ [t]) k = members c rows k ++ if c.keyOf t = k then [t] else [] := by
  rw [members, List.filter_append, List.filter_singleton]
  by_cases hkey : c.keyOf t = k <;> simp [hkey, members]

theorem members_ne_nil (h : k ∈ rows.map c.keyOf) : members c rows k ≠ [] := by
  obtain ⟨t, ht, rfl⟩ := List.mem_map.mp h
  exact List.ne_nil_of_mem (List.mem_filter.mpr ⟨ht, decide_eq_true rfl⟩)

theorem groupOf_concat_of_ne (rows : List τ) (h : k ≠ c.keyOf t) :
    groupOf c (rows ++ [t]) k = groupOf c rows k := by
  unfold groupOf
  rw [members_concat, if_neg h.symm, List.append_nil]

theorem groupOf_concat_of_mem (h : c.keyOf t ∈ rows.map c.keyOf) :
    groupOf c (rows ++ [t]) (c.keyOf t) = { groupOf c rows (c.keyOf t) with
      aggregators := (groupOf c rows (c.keyOf t)).aggregators.map (accumulated t) } := by
  unfold groupOf
  rw [members_concat, if_pos rfl, List.foldl_concat]
  cases hmembers : members c rows (c.keyOf t) with
  | nil => exact absurd hmembers (members_ne_nil h)
  | cons first rest => rfl

theorem groupOf_concat_of_new (h : c.keyOf t ∉ rows.map c.keyOf) :
    groupOf c (rows ++ [t]) (c.keyOf t) =
      ⟨c.keyOf t, c.createAggregatorList.map (accumulated t), [(c.make t).2]⟩ := by
  have hnone : members c rows (c.keyOf t) = [] := by
    refine List.filter_eq_nil_iff.mpr fun r hr hkey => h ?_
    exact List.mem_map.mpr ⟨r, hr, of_decide_eq_true hkey⟩
  unfold groupOf
  rw [members_concat, if_pos rfl, hnone]
  rfl

theorem position_map {f f' : K → GroupType τ K S V A} (hkey : ∀ k, (f k).key = k) {ks : List K}
    (hnodup : ks.Nodup) (hk : k ∈ ks) (hf : ∀ k', k' ≠ k → f' k' = f k') :
    (ks.map f)[position k (ks.map f)]? = some (f k) ∧
      (ks.map f).set (position k (ks.map f)) (f' k) = ks.map f' := by
  induction ks with
  | nil => cases hk
  | cons first ks ih =>
    obtain ⟨hfirst, hnodup⟩ := List.nodup_cons.mp hnodup
    unfold position
    rw [List.map_cons, List.findIdx_cons, hkey]
    by_cases heq : first = k
    · subst heq
      refine ⟨by simp, ?_⟩
      have hrest : ks.map f' = ks.map f :=
        List.map_congr_left fun k' hk' => hf k' fun hsame => hfirst (hsame ▸ hk')
      simp [hrest]
    · obtain ⟨hget, hset⟩ := ih hnodup ((List.mem_cons.mp hk).resolve_left (Ne.symm heq))
      rw [decide_eq_false heq]
      refine ⟨hget, ?_⟩
      exact congrArg₂ List.cons (hf first heq).symm hset

theorem position_lt_iff {f : K → GroupType τ K S V A} (hkey : ∀ k, (f k).key = k) {ks : List K} :
    position k (ks.map f) < (ks.map f).length ↔ k ∈ ks := by
  unfold position
  rw [List.findIdx_lt_length]
  simp [hkey]

theorem addTuple_groupsOf (h : (c.addTuple t (groupsOf c rows)).1 = .success) :
    (c.addTuple t (groupsOf c rows)).2 = groupsOf c (rows ++ [t]) := by
  have hkey : ∀ k, (groupOf c rows k).key = k := fun _ => rfl
  unfold groupsOf at h ⊢
  rw [distinctKeys_concat]
  by_cases hold : c.keyOf t ∈ rows.map c.keyOf
  · have hmem := mem_distinctKeys.mpr hold
    have hfound := (position_lt_iff hkey).mpr hmem
    obtain ⟨hget, hset⟩ := position_map hkey (nodup_distinctKeys rows) hmem
      fun k hk => groupOf_concat_of_ne rows hk
    rw [List.getElem?_eq_getElem hfound, Option.some_inj] at hget
    rw [addTuple_of_found hfound, hget] at h ⊢
    rw [if_pos hold, ← hset, groupOf_concat_of_mem hold, ← aggregate_of_success h]
  · have hnew : c.keyOf t ∉ distinctKeys c rows := mt mem_distinctKeys.mp hold
    rw [if_neg hold, List.map_append, List.map_singleton, groupOf_concat_of_new hold]
    rw [addTuple_of_new (mt (position_lt_iff hkey).mp hnew)] at h ⊢
    split_ifs at h ⊢ with hmake
    · exact absurd h hmake
    · rw [aggregate_of_success h]
      refine congrArg (· ++ _) (List.map_congr_left fun k hk => ?_)
      exact (groupOf_concat_of_ne rows fun hsame => hnew (hsame ▸ hk)).symm

end Grouping

section Adding

variable [DecidableEq K] {c : Clause τ K S V A} {rows : List τ}
  {groups : List (GroupType τ K S V A)}

def addAll (c : Clause τ K S V A) :
    List τ → List (GroupType τ K S V A) → RC × List (GroupType τ K S V A)
  | [], groups => (.success, groups)
  | t :: rows, groups =>
    if (c.addTuple t groups).1 ≠ .success then c.addTuple t groups
    else addAll c rows (c.addTuple t groups).2

theorem addAll_groupsOf (front : List τ) (h : (addAll c rows (groupsOf c front)).1 = .success) :
    (addAll c rows (groupsOf c front)).2 = groupsOf c (front ++ rows) := by
  induction rows generalizing front with
  | nil => rw [List.append_nil, addAll]
  | cons t rows ih =>
    rw [addAll] at h ⊢
    split_ifs at h ⊢ with hadd
    · exact absurd h hadd
    · rw [addTuple_groupsOf (not_not.mp hadd)] at h ⊢
      rw [ih _ h, List.append_assoc, List.singleton_append]

theorem shaped_addAll (rows : List τ) (h : ∀ g ∈ groups, Shaped c g) :
    ∀ g ∈ (addAll c rows groups).2, Shaped c g := by
  induction rows generalizing groups with
  | nil => exact h
  | cons t rows ih =>
    rw [addAll]
    split_ifs
    · exact shaped_addTuple h
    · exact ih (shaped_addTuple h)

theorem tuples_addAll (c : Clause τ K S V A) (rows : List τ)
    (groups : List (GroupType τ K S V A)) :
    groups.map GroupType.tuple <+: (addAll c rows groups).2.map GroupType.tuple := by
  induction rows generalizing groups with
  | nil => exact List.prefix_rfl
  | cons t rows ih =>
    rw [addAll]
    split_ifs
    · exact tuples_addTuple
    · exact tuples_addTuple.trans (ih _)

end Adding

end HashGroupBy
