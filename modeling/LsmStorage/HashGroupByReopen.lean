import LsmStorage.HashGroupBy

/-! # Opening a hash group-by again

Neither `open` nor `close` empties the groups, so a second `open` aggregates and evaluates in those
of the first one. -/
namespace HashGroupBy

open BoundedLoop ResultCode SqlOperator

variable {T σ π τ K S V A : Type*}

section Opening

variable {c : Clause τ K S V A} {op : PhysicalOperator T σ π τ} {trx : T} {rows : List τ}
  {s : HashGroupByPhysicalOperator σ τ K S V A}

open HashGroupByPhysicalOperator

theorem evaluateGroups_success_iff :
    (s.evaluateGroups c).1 = .success ↔ ∀ g ∈ s.groups, (c.evaluate g).1 = .success := by
  rw [← forEach_success_iff]
  unfold evaluateGroups
  dsimp only
  split_ifs with hfailed
  · exact iff_of_false hfailed hfailed
  · exact iff_of_true rfl (not_not.mp hfailed)

variable [DecidableEq K]

theorem openTurn_yields (h : ReopenableIterator op trx rows) {rest : List τ}
    (hrest : h.rest s.child rest) :
    ∃ child, if (addAll c rest s.groups).1 = .success then
        h.ended child ∧ Yields (openTurn op c) s
          (.ok (.recordEof, { s with child, groups := (addAll c rest s.groups).2 }))
      else Yields (openTurn op c) s (.error ((addAll c rest s.groups).1,
        { s with child, groups := (addAll c rest s.groups).2 })) := by
  induction rest generalizing s with
  | nil =>
    obtain ⟨hcode, hended⟩ := h.steps s.child [] hrest
    refine ⟨(op.next s.child).2, ?_⟩
    rw [addAll, if_pos rfl]
    refine ⟨hended, yields_stop ?_⟩
    simp only [openTurn, hcode]
    rfl
  | cons t rest ih =>
    obtain ⟨hcode, hrest', hread⟩ := h.steps s.child (t :: rest) hrest
    rw [addAll]
    by_cases hadd : (c.addTuple t s.groups).1 = .success
    · have hturn : openTurn op c s = .again
          { s with child := (op.next s.child).2, groups := (c.addTuple t s.groups).2 } := by
        simp only [openTurn, hcode, hread, hadd]
        rfl
      rw [if_neg (not_not.mpr hadd)]
      obtain ⟨child', hyields⟩ := ih (s := { s with
        child := (op.next s.child).2
        groups := (c.addTuple t s.groups).2 }) hrest'
      refine ⟨child', ?_⟩
      split_ifs at hyields ⊢
      · exact ⟨hyields.1, yields_again hturn hyields.2⟩
      · exact yields_again hturn hyields
    · rw [if_pos hadd]
      refine ⟨(op.next s.child).2, ?_⟩
      rw [if_neg hadd]
      refine yields_stop ?_
      simp only [openTurn, hcode, hread, ne_eq, hadd, not_false_eq_true, if_true]
      rfl

structure Gathers (c : Clause τ K S V A) (rows : List τ) (groups : List (GroupType τ K S V A)) :
    Prop where
  added : (addAll c rows groups).1 = .success
  evaluated : ∀ g ∈ (addAll c rows groups).2, (c.evaluate g).1 = .success

def gathered (c : Clause τ K S V A) (rows : List τ) (groups : List (GroupType τ K S V A)) :
    List (GroupType τ K S V A) :=
  (addAll c rows groups).2.map fun g => (c.evaluate g).2.2

structure Opened (h : ReopenableIterator op trx rows) (groups : List (GroupType τ K S V A))
    (s : HashGroupByPhysicalOperator σ τ K S V A) : Prop where
  groups : s.groups = groups
  current : s.currentGroup = 0
  first : s.firstEmited = false
  ended : h.ended s.child

theorem openWith_returns (c : Clause τ K S V A) (h : ReopenableIterator op trx rows)
    (hclosed : h.closed s.child) :
    ∃ fuel rc s', s.openWith op c fuel trx = some (rc, s') ∧
      (rc = .success ↔ Gathers c rows s.groups) ∧
      (rc = .success → Opened h (gathered c rows s.groups) s') := by
  obtain ⟨hopen, hrest⟩ := h.opens s.child hclosed
  obtain ⟨child', hloop⟩ :=
    openTurn_yields (c := c) (s := { s with child := (op.openWith trx s.child).2 }) h hrest
  let t : HashGroupByPhysicalOperator σ τ K S V A :=
    { s with child := child', groups := (addAll c rows s.groups).2 }
  by_cases hadd : (addAll c rows s.groups).1 = .success
  · rw [if_pos hadd] at hloop
    obtain ⟨hended, fuel, hrun⟩ := hloop
    refine ⟨fuel, (t.evaluateGroups c).1, (t.evaluateGroups c).2, ?_, ?_, fun hsuccess => ?_⟩
    · simp only [openWith, hopen, hrun]
      rfl
    · rw [evaluateGroups_success_iff]
      exact ⟨fun hevaluate => ⟨hadd, hevaluate⟩, fun hgathers => hgathers.evaluated⟩
    · rw [evaluateGroups, forEach_of_success (evaluateGroups_success_iff.mp hsuccess)]
      exact ⟨rfl, rfl, rfl, hended⟩
  · rw [if_neg hadd] at hloop
    obtain ⟨fuel, hrun⟩ := hloop
    refine ⟨fuel, (addAll c rows s.groups).1, t, ?_, ?_, fun hsuccess => absurd hsuccess hadd⟩
    · simp only [openWith, hopen, hrun]
      rfl
    · exact iff_of_false hadd fun hgathers => hadd hgathers.added

theorem openWith_unique {fuel fuel' : ℕ} {r r' : RC × HashGroupByPhysicalOperator σ τ K S V A}
    (h : s.openWith op c fuel trx = some r) (h' : s.openWith op c fuel' trx = some r') :
    r = r' := by
  unfold openWith at h h'
  dsimp only at h h'
  split_ifs at h h' with hopen
  · exact Option.some.inj (h.symm.trans h')
  · obtain ⟨ended, hrun, rfl⟩ := Option.map_eq_some_iff.mp h
    obtain ⟨ended', hrun', rfl⟩ := Option.map_eq_some_iff.mp h'
    rw [Yields.unique ⟨fuel, hrun⟩ ⟨fuel', hrun'⟩]

end Opening

section Draining

variable {s : HashGroupByPhysicalOperator σ τ K S V A} {groups : List (GroupType τ K S V A)}
  {child : σ} {ts : List (ValueListTuple S V)}

open HashGroupByPhysicalOperator

def shown (groups : List (GroupType τ K S V A)) : List (Option (ValueListTuple S V)) :=
  groups.map fun g => some (read g.tuple)

/-- Before the first `next` all tuples are to come, and then those behind the current group. -/
structure Reading (groups : List (GroupType τ K S V A)) (child : σ)
    (s : HashGroupByPhysicalOperator σ τ K S V A) (ts : List (ValueListTuple S V)) : Prop where
  rest : ts = (groups.drop (s.currentGroup + s.firstEmited.toNat)).map fun g => read g.tuple
  start : s.firstEmited = false → s.currentGroup = 0
  inside : s.firstEmited = true → s.currentGroup < groups.length
  child : s.child = child
  groups : s.groups = groups

theorem Reading.next (h : Reading groups child s ts) :
    Answers currentTuple (Reading groups child) (fun s => s.groups = groups ∧ s.child = child)
      s.next ts := by
  obtain ⟨rfl, hstart, hinside, rfl, rfl⟩ := h
  cases hfirst : s.firstEmited with
  | false =>
    rw [hstart hfirst, Bool.toNat_false, List.drop_zero]
    cases hgroups : s.groups with
    | nil =>
      have hnext : s.next = (.recordEof, s) := by
        simp [HashGroupByPhysicalOperator.next, hstart hfirst, hgroups]
      rw [hnext]
      exact ⟨rfl, hgroups, rfl⟩
    | cons g groups =>
      have hnext : s.next = (.success, { s with firstEmited := true }) := by
        simp [HashGroupByPhysicalOperator.next, hstart hfirst, hgroups, hfirst]
      rw [hnext]
      exact ⟨rfl, ⟨by simp [hstart hfirst], by simp, by simp [hstart hfirst], rfl, hgroups⟩,
        by simp [currentTuple, hstart hfirst, hgroups]⟩
  | true =>
    have hnext : s.next = if s.currentGroup + 1 = s.groups.length then
          (.recordEof, { s with currentGroup := s.currentGroup + 1 })
        else (.success, { s with currentGroup := s.currentGroup + 1 }) := by
      simp [HashGroupByPhysicalOperator.next, hfirst, (hinside hfirst).ne]
    rw [hnext, Bool.toNat_true]
    split_ifs with hend
    · rw [List.drop_eq_nil_of_le hend.ge]
      exact ⟨rfl, rfl, rfl⟩
    · have hmore : s.currentGroup + 1 < s.groups.length :=
        Nat.lt_of_le_of_ne (hinside hfirst) hend
      rw [List.drop_eq_getElem_cons hmore]
      exact ⟨rfl, ⟨by simp [hfirst], by simp [hfirst], fun _ => hmore, rfl, rfl⟩,
        by simp [currentTuple, List.getElem?_eq_getElem hmore]⟩

theorem Opened.drains {op : PhysicalOperator T σ π τ} {trx : T} {rows : List τ}
    {h : ReopenableIterator op trx rows} {groups : List (GroupType τ K S V A)}
    (hs : Opened h groups s) :
    ∃ fuel s', s.drain fuel = some (.recordEof, shown groups, s') ∧ s'.groups = groups ∧
      h.closed (s'.close op).2.child := by
  have hreading : Reading groups s.child s (groups.map fun g => read g.tuple) :=
    ⟨by simp [hs.current, hs.first], fun _ => hs.current, by simp [hs.first], rfl, hs.groups⟩
  obtain ⟨s', ⟨hgroups, hchild⟩, hdrain⟩ := drain_of_answers (fun _ _ => Reading.next) hreading
    (Nat.lt_succ_self _)
  rw [List.map_map] at hdrain
  exact ⟨_, s', hdrain, hgroups, (h.closes s'.child (hchild ▸ hs.ended)).2⟩

end Draining

section Reopening

variable {c : Clause τ K S V A} {rows : List τ} {g : GroupType τ K S V A}
  {groups : List (GroupType τ K S V A)}

def evaluatedTuple (c : Clause τ K S V A) (g : GroupType τ K S V A) : ValueListTuple S V :=
  ⟨g.aggregators.map fun p => (p.1.evaluate p.2).2.1, c.aggregates.map (·.spec)⟩

theorem evaluate_of_success (h : (c.evaluate g).1 = .success) :
    (c.evaluate g).2.2.tuple = g.tuple ++ [evaluatedTuple c g] := by
  unfold Clause.evaluate at h ⊢
  dsimp only at h ⊢
  split_ifs at h ⊢ with hfailed
  · exact absurd h hfailed
  · rw [forEach_of_success (forEach_success_iff.mp (not_not.mp hfailed))]
    rfl

theorem key_evaluate (c : Clause τ K S V A) (g : GroupType τ K S V A) :
    (c.evaluate g).2.2.key = g.key := by
  unfold Clause.evaluate
  dsimp only
  split_ifs <;> rfl

theorem Shaped.evaluate (h : Shaped c g) : Shaped c (c.evaluate g).2.2 := by
  refine Eq.trans ?_ h
  unfold Clause.evaluate
  dsimp only
  split_ifs <;> exact map_forEach fun _ => rfl

theorem read_append (tuples : List (ValueListTuple S V)) (last : ValueListTuple S V) :
    read (tuples ++ [last]) =
      ⟨(read tuples).cells ++ last.cells, (read tuples).specs ++ last.specs⟩ := by
  unfold read
  rw [List.flatMap_append, List.flatMap_append, List.flatMap_singleton, List.flatMap_singleton]

variable [DecidableEq K]

def tupleOf (c : Clause τ K S V A) (rows : List τ) (k : K) : ValueListTuple S V :=
  read ((groupOf c rows k).tuple ++ [evaluatedTuple c (groupOf c rows k)])

theorem addAll_new (h : (addAll c rows []).1 = .success) :
    (addAll c rows []).2 = groupsOf c rows :=
  addAll_groupsOf [] h

theorem shown_gathered_new (h : Gathers c rows []) :
    shown (gathered c rows []) = (distinctKeys c rows).map fun k => some (tupleOf c rows k) := by
  have hevaluated := h.evaluated
  unfold shown gathered
  rw [addAll_new h.added] at hevaluated ⊢
  unfold groupsOf at hevaluated ⊢
  rw [List.map_map, List.map_map]
  refine List.map_congr_left fun k hk => congrArg some (congrArg read ?_)
  exact evaluate_of_success (hevaluated _ (List.mem_map_of_mem hk))

theorem keys_gathered_new (h : Gathers c rows []) :
    (gathered c rows []).map GroupType.key = distinctKeys c rows := by
  unfold gathered
  rw [addAll_new h.added, groupsOf, List.map_map, List.map_map]
  exact (List.map_congr_left fun k _ => key_evaluate c (groupOf c rows k)).trans (List.map_id _)

theorem shaped_gathered (rows : List τ) (h : ∀ g ∈ groups, Shaped c g) :
    ∀ g ∈ gathered c rows groups, Shaped c g := by
  intro g hg
  obtain ⟨g', hg', rfl⟩ := List.mem_map.mp hg
  exact (shaped_addAll rows h g' hg').evaluate

theorem aggregates_nil_of_same (hshaped : ∀ g ∈ groups, Shaped c g) (hgroups : groups ≠ [])
    (h : Gathers c rows groups) (hsame : shown (gathered c rows groups) = shown groups) :
    c.aggregates = [] := by
  obtain ⟨g, rest, rfl⟩ := List.exists_cons_of_ne_nil hgroups
  have hprefix := tuples_addAll c rows (g :: rest)
  have hevaluated := h.evaluated
  have hshaped' := shaped_addAll rows hshaped
  unfold gathered at hsame
  cases hadd : (addAll c rows (g :: rest)).2 with
  | nil =>
    rw [hadd] at hprefix
    exact absurd (List.prefix_nil.mp hprefix) (List.cons_ne_nil _ _)
  | cons g' rest' =>
    rw [hadd] at hprefix hevaluated hshaped' hsame
    have htuple : g'.tuple = g.tuple := (List.cons_prefix_cons.mp hprefix).1.symm
    have hread : read (c.evaluate g').2.2.tuple = read g.tuple :=
      Option.some.inj (List.cons.inj hsame).1
    rw [evaluate_of_success (hevaluated g' List.mem_cons_self), htuple, read_append] at hread
    have hvalues := List.append_right_eq_self.mp (congrArg ValueListTuple.cells hread)
    rw [← hshaped' g' List.mem_cons_self, List.map_eq_nil_iff]
    exact List.map_eq_nil_iff.mp hvalues

theorem addAll_of_no_aggregates (hempty : ∀ g ∈ groups, g.aggregators = [])
    (hkeys : ∀ t ∈ rows, c.keyOf t ∈ groups.map GroupType.key) :
    addAll c rows groups = (.success, groups) := by
  induction rows with
  | nil => rfl
  | cons t rows ih =>
    obtain ⟨hkey, hkeys⟩ := List.forall_mem_cons.mp hkeys
    have hfound : position (c.keyOf t) groups < groups.length := by
      obtain ⟨g, hg, hgkey⟩ := List.mem_map.mp hkey
      exact List.findIdx_lt_length.mpr ⟨g, hg, decide_eq_true hgkey⟩
    have hadd : c.addTuple t groups = (.success, groups) := by
      have hnone := hempty _ (List.getElem_mem hfound)
      rw [addTuple_of_found hfound, hnone]
      refine congrArg (Prod.mk RC.success) ?_
      conv_rhs => rw [← List.set_getElem_self hfound]
      exact congrArg (groups.set _ ·) (congrArg (GroupType.mk _ · _) hnone.symm)
    rw [addAll, hadd, if_neg (not_not.mpr rfl)]
    exact ih hkeys

theorem shown_gathered_of_no_aggregates (hnone : c.aggregates = [])
    (hempty : ∀ g ∈ groups, g.aggregators = [])
    (hkeys : ∀ t ∈ rows, c.keyOf t ∈ groups.map GroupType.key) :
    Gathers c rows groups ∧ shown (gathered c rows groups) = shown groups := by
  have hadd := addAll_of_no_aggregates hempty hkeys
  have hevaluated : ∀ g ∈ groups, (c.evaluate g).1 = .success := by
    intro g hg
    unfold Clause.evaluate
    rw [hempty g hg]
    rfl
  refine ⟨⟨by rw [hadd], by rw [hadd]; exact hevaluated⟩, ?_⟩
  unfold shown gathered
  rw [hadd, List.map_map]
  refine List.map_congr_left fun g hg => congrArg some ?_
  show read (c.evaluate g).2.2.tuple = read g.tuple
  rw [evaluate_of_success (hevaluated g hg), read_append, evaluatedTuple, hempty g hg, hnone,
    List.map_nil, List.map_nil, List.append_nil, List.append_nil]

theorem reopened_iff (h : Gathers c rows []) :
    Gathers c rows (gathered c rows []) ∧
        shown (gathered c rows (gathered c rows [])) = shown (gathered c rows []) ↔
      rows = [] ∨ c.aggregates = [] := by
  have hshaped : ∀ g ∈ gathered c rows [], Shaped c g :=
    shaped_gathered rows (List.forall_mem_nil _)
  constructor
  · rintro ⟨hagain, hsame⟩
    by_cases hgroups : gathered c rows [] = []
    · have hkeys := keys_gathered_new h
      rw [hgroups, List.map_nil] at hkeys
      refine .inl (List.eq_nil_iff_forall_not_mem.mpr fun t ht => ?_)
      have hmem := mem_distinctKeys.mpr (List.mem_map_of_mem (f := c.keyOf) ht)
      rw [← hkeys] at hmem
      cases hmem
    · exact .inr (aggregates_nil_of_same hshaped hgroups hagain hsame)
  · rintro (rfl | hnone)
    · exact ⟨h, rfl⟩
    · refine shown_gathered_of_no_aggregates hnone (fun g hg => ?_) fun t ht => ?_
      · exact List.map_eq_nil_iff.mp ((hshaped g hg).trans hnone)
      · rw [keys_gathered_new h]
        exact mem_distinctKeys.mpr (List.mem_map_of_mem ht)

variable {op : PhysicalOperator T σ π τ} {trx : T}

open HashGroupByPhysicalOperator

theorem served_iff (h : ReopenableIterator op trx rows)
    {s : HashGroupByPhysicalOperator σ τ K S V A} (hclosed : h.closed s.child)
    (tuples : List (Option (ValueListTuple S V))) :
    (∃ fuel s₁ n s₂, s.openWith op c fuel trx = some (.success, s₁) ∧
        s₁.drain n = some (.recordEof, tuples, s₂)) ↔
      Gathers c rows s.groups ∧ shown (gathered c rows s.groups) = tuples := by
  obtain ⟨fuel, rc, s', hopen, hgathers, hopened⟩ := openWith_returns c h hclosed
  constructor
  · rintro ⟨fuel', s₁, n, s₂, hagain, hdrain⟩
    cases openWith_unique hopen hagain
    obtain ⟨m, s₃, hdrain', -⟩ := (hopened rfl).drains
    exact ⟨hgathers.mp rfl, (Prod.mk.inj (Prod.mk.inj (drain_unique hdrain' hdrain)).2).1⟩
  · rintro ⟨hgathered, rfl⟩
    have hsuccess := hgathers.mpr hgathered
    obtain ⟨n, s₂, hdrain, -⟩ := (hopened hsuccess).drains
    exact ⟨fuel, s', n, s₂, hsuccess ▸ hopen, hdrain⟩

/-- `open` returns. Where it succeeds, a caller gets one tuple for each key in the order of their
first occurrence; closed and opened again, the operator hands out the same tuples exactly when
there is no row or no aggregate. -/
theorem group_by_reopens_iff (c : Clause τ K S V A) (h : ReopenableIterator op trx rows)
    (s : HashGroupByPhysicalOperator σ τ K S V A) (hnew : s.groups = [])
    (hclosed : h.closed s.child) :
    (∃ fuel rc s₁, s.openWith op c fuel trx = some (rc, s₁)) ∧
    ∀ fuel s₁, s.openWith op c fuel trx = some (.success, s₁) →
      let tuples := (distinctKeys c rows).map fun k => some (tupleOf c rows k)
      ∃ n s₂, s₁.drain n = some (.recordEof, tuples, s₂) ∧
        ((∃ fuel' s₃ n' s₄, (s₂.close op).2.openWith op c fuel' trx = some (.success, s₃) ∧
            s₃.drain n' = some (.recordEof, tuples, s₄)) ↔
          rows = [] ∨ c.aggregates = []) := by
  obtain ⟨fuel, rc, s', hopen, hgathers, hopened⟩ := openWith_returns c h hclosed
  rw [hnew] at hgathers hopened
  refine ⟨⟨fuel, rc, s', hopen⟩, fun fuel₁ s₁ hsuccess => ?_⟩
  cases openWith_unique hopen hsuccess
  have hgathered := hgathers.mp rfl
  obtain ⟨n, s₂, hdrain, hgroups, hreclosed⟩ := (hopened rfl).drains
  rw [← shown_gathered_new hgathered]
  refine ⟨n, s₂, hdrain, (served_iff h hreclosed _).trans ?_⟩
  -- `close` leaves the groups of the first run
  have hkept : (s₂.close op).2.groups = gathered c rows [] := hgroups
  rw [hkept]
  exact reopened_iff hgathered

/-- `SumAggregator` over numbers: its value is not defined before the first one. -/
def sumOf (spec : ℕ) : AggregateExpr ℕ ℕ ℕ (Option ℕ) where
  spec := spec
  child t := (.success, t)
  createAggregator := none
  accumulate value sum := (.success, some (sum.getD 0 + value))
  evaluate sum := (.success, sum.getD 0, sum)

def byValue (aggregates : List (AggregateExpr ℕ ℕ ℕ (Option ℕ))) :
    Clause ℕ ℕ ℕ ℕ (Option ℕ) where
  keyOf := id
  make t := (.success, ⟨[t], [0]⟩)
  aggregates := aggregates

/-- Two groups without an aggregate. -/
theorem group_by_reopens_without_aggregates :
    let op := listScan [5, 7, 5]
    let s : HashGroupByPhysicalOperator (Option ℕ) ℕ ℕ ℕ ℕ (Option ℕ) := { child := none }
    let tuples := [some ⟨[5], [0]⟩, some ⟨[7], [0]⟩]
    ∃ s₁ n s₂ fuel s₃ n' s₄, s.openWith op (byValue []) 4 () = some (.success, s₁) ∧
      s₁.drain n = some (.recordEof, tuples, s₂) ∧
      (s₂.close op).2.openWith op (byValue []) fuel () = some (.success, s₃) ∧
      s₃.drain n' = some (.recordEof, tuples, s₄) := by
  intro op s tuples
  obtain ⟨n, s₂, hdrain, hagain⟩ := (group_by_reopens_iff (byValue [])
    (listScanIterates [5, 7, 5]).toReopenableIterator s rfl rfl).2 4 _ rfl
  obtain ⟨fuel, s₃, n', s₄, hopen, hdrain'⟩ := hagain.mpr (.inr rfl)
  exact ⟨_, n, s₂, fuel, s₃, n', s₄, rfl, hdrain, hopen, hdrain'⟩

/-- The sum of one row: the second time the group has two of them, and the row counts twice. -/
theorem reopened_group_sums_twice :
    let op := listScan [5]
    let s : HashGroupByPhysicalOperator (Option ℕ) ℕ ℕ ℕ ℕ (Option ℕ) := { child := none }
    let opened := s.openWith op (byValue [sumOf 1]) 2 ()
    let drained := opened.bind fun r => r.2.drain 2
    let reopened := drained.bind fun r => (r.2.2.close op).2.openWith op (byValue [sumOf 1]) 2 ()
    let redrained := reopened.bind fun r => r.2.drain 2
    opened.map Prod.fst = some .success ∧
      drained.map (fun r => (r.1, r.2.1)) = some (.recordEof, [some ⟨[5, 5], [0, 1]⟩]) ∧
      reopened.map Prod.fst = some .success ∧
      redrained.map (fun r => (r.1, r.2.1)) =
        some (.recordEof, [some ⟨[5, 5, 10], [0, 1, 1]⟩]) := by
  decide

end Reopening

end HashGroupBy
