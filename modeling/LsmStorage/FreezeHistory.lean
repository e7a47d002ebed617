import LsmStorage.Freezer
import LsmStorage.MemtableMap
import Mathlib.Algebra.Order.BigOperators.Group.List

/-! # Histories of writes and freezes

What `try_freeze` would do if `set_is_tablet_freeze` did its work. The sizes of the frozen
memtables count towards the threshold, so once it is reached every later call freezes, whether
or not a row has come in since. -/
namespace FreezeHistory

open ByteCodec MvccRow Memtable MemtableMap TableStore Freezer ObMemTableMgr

variable {η L : Type*}

def tryFreezeWith (freeze : ObMemTableMgr η → Option (ℤ × ObMemTableMgr η)) (f : ObFreezer η) :
    Option (Bool × ObFreezer η) :=
  if !f.isInited then some (false, f)
  else
    match f.mgr with
    | none => some (false, f)
    | some mgr =>
      match mgr.getTotalOccupiedSize with
      | none => none
      | some (total, mgr) =>
        if total ≥ f.threshold then
          match freeze mgr with
          | none => none
          | some (_, mgr) => some (true, { f with mgr := some mgr })
        else some (false, { f with mgr := some mgr })

theorem tryFreeze_eq_with (f : ObFreezer η) :
    f.tryFreeze = tryFreezeWith setIsTabletFreeze f := rfl

/-- `set_is_tablet_freeze` with its intended effect: the second request for the mutex is
granted. -/
def completedFreeze : ObMemTableMgr η → Option (ℤ × ObMemTableMgr η) :=
  locked fun mgr =>
    match mgr.activeMemtable with
    | none => some (0, mgr)
    | some t => some (0, refilled t mgr)

structure Tablet (η L : Type*) where
  store : ObTableStore η
  log : L

namespace Tablet

def mgr (s : Tablet η L) : ObMemTableMgr η := s.store.memtableMgr

def opened (tabletId : ℤ) (log : L) : Tablet η L :=
  ⟨((({} : ObTableStore η).init tabletId).2), log⟩

end Tablet

open Tablet

inductive Call where
  | set (call : SetCall)
  | tryFreeze

inductive Answer where
  | set (ret : ℤ)
  | tryFreeze (froze : Bool)
  deriving DecidableEq, Repr

def step (append : η → Bytes → L → ℤ × L) (threshold : ℤ) (s : Tablet η L) :
    Call → Option (Answer × Tablet η L)
  | .set c =>
    match s.store.setActive append c.mallocOk c.ctx c.row s.log with
    | none => none
    | some (ret, store, log) => some (.set ret, ⟨store, log⟩)
  | .tryFreeze =>
    let freezer := (ObFreezer.init (some s.mgr) threshold {}).2
    match tryFreezeWith completedFreeze freezer with
    | none => none
    | some (froze, freezer) =>
      some (.tryFreeze froze,
        { s with store := { s.store with memtableMgr := freezer.mgr.getD s.mgr } })

def run (append : η → Bytes → L → ℤ × L) (threshold : ℤ) :
    List Call → Tablet η L → Option (List Answer × Tablet η L)
  | [], s => some ([], s)
  | c :: cs, s =>
    match step append threshold s c with
    | none => none
    | some (a, s) => (run append threshold cs s).map fun r => (a :: r.1, r.2)

section Step

def size (ws : List Write) : ℤ := (ws.map fun w => w.data.size).sum

theorem size_nonneg (ws : List Write) : 0 ≤ size ws := by
  apply List.sum_nonneg
  intro n hn
  obtain ⟨w, -, rfl⟩ := List.mem_map.mp hn
  rw [ObMemtableData.size]
  omega

def frozenSize (mgr : ObMemTableMgr η) : ℤ := (mgr.frozenMemtables.map ObMemtable.occupySize).sum

/-- The active memtable holds the writes accepted since the last freeze, if there was one. What
one freeze has moved is enough for every later one. -/
structure Holds (threshold : ℤ) (mgr : ObMemTableMgr η) (ws : List Write) (froze : Bool) :
    Prop where
  idle : mgr.mutexHeld = false
  active : Contents mgr.activeOrNew ws
  first : froze = false → mgr.frozenMemtables = []
  later : froze = true → mgr.activeMemtable.isSome = true ∧ threshold ≤ frozenSize mgr

theorem holds_opened (threshold : ℤ) (tabletId : ℤ) (log : L) :
    Holds threshold (opened tabletId log : Tablet η L).mgr [] false :=
  ⟨rfl, contents_create tabletId, fun _ => rfl, nofun⟩

variable {threshold : ℤ} {mgr : ObMemTableMgr η} {ws : List Write} {froze : Bool}

theorem totalSize_of_holds (h : Holds threshold mgr ws froze) :
    mgr.totalSize = size ws + frozenSize mgr := by
  have hsize := h.active.occupySize
  rw [totalSize, List.map_append, List.sum_append, ← frozenSize, size, ← hsize,
    activeOrNew]
  cases mgr.activeMemtable with
  | none => rfl
  | some t => simp

theorem reached_iff (h : Holds threshold mgr ws froze) :
    threshold ≤ mgr.totalSize ↔ froze = true ∨ threshold ≤ size ws := by
  rw [totalSize_of_holds h]
  cases hfroze : froze with
  | false => simp [frozenSize, h.first hfroze]
  | true =>
    have hfrozen := (h.later hfroze).2
    have hpos := size_nonneg ws
    exact iff_of_true (by omega) (Or.inl rfl)

theorem isEmpty_of_holds (h : Holds threshold mgr ws froze) :
    mgr.activeOrNew.isEmpty = ws.isEmpty := by
  rw [ObMemtable.isEmpty, h.active.rowCount]
  cases ws with
  | nil => rfl
  | cons w ws =>
    rw [List.isEmpty_cons, beq_eq_false_iff_ne, List.length_cons]
    omega

variable (append : η → Bytes → L → ℤ × L)

theorem setActive_holds (c : SetCall) {s : Tablet η L} (h : Holds threshold s.mgr ws froze) :
    ∃ ret s', step append threshold s (.set c) = some (.set ret, s') ∧
      Holds threshold s'.mgr (if ret = 0 then c.write :: ws else ws) froze ∧
      s'.mgr.totalSize = s.mgr.totalSize + if ret = 0 then c.write.data.size else 0 := by
  have hget := getActiveMemtable_eq h.idle
  have hset := (set_contents append c.mallocOk h.active c.write s.log).1
  obtain ⟨ret, s', hstep, h', hfrozen⟩ : ∃ ret s',
      step append threshold s (.set c) = some (.set ret, s') ∧
      Holds threshold s'.mgr (if ret = 0 then c.write :: ws else ws) froze ∧
      frozenSize s'.mgr = frozenSize s.mgr := by
    simp only [step, ObTableStore.setActive]
    rw [← mgr, hget]
    exact ⟨_, _, rfl, ⟨h.idle, hset, h.first, fun hfroze => ⟨rfl, (h.later hfroze).2⟩⟩, rfl⟩
  refine ⟨ret, s', hstep, h', ?_⟩
  rw [totalSize_of_holds h', totalSize_of_holds h, hfrozen]
  split
  · rw [size, List.map_cons, List.sum_cons, ← size]
    ring
  · ring

theorem completedFreeze_eq (h : mgr.mutexHeld = false) {t : ObMemtable η}
    (ht : mgr.activeMemtable = some t) : completedFreeze mgr = some (0, refilled t mgr) := by
  obtain ⟨tabletId, active, frozen, isInited, mutexHeld⟩ := mgr
  obtain rfl : mutexHeld = false := h
  obtain rfl : active = some t := ht
  rfl

theorem frozenSize_refilled {t : ObMemtable η} (ht : mgr.activeMemtable = some t) :
    frozenSize (refilled t mgr) = mgr.totalSize := by
  simp [frozenSize, refilled, moveActive, totalSize, ht,
    ObMemtable.setFrozen, add_comm]

theorem totalSize_refilled {t : ObMemtable η} (ht : mgr.activeMemtable = some t) :
    (refilled t mgr).totalSize = mgr.totalSize := by
  rw [← frozenSize_refilled ht]
  simp [totalSize, refilled, frozenSize, ObMemtable.create, ObMemtable.init]

theorem holds_refilled {t : ObMemtable η} (h : Holds threshold mgr ws froze)
    (ht : mgr.activeMemtable = some t) (hreached : threshold ≤ mgr.totalSize) :
    Holds threshold (refilled t mgr) [] true := by
  refine ⟨h.idle, contents_create mgr.tabletId, nofun, fun _ => ⟨rfl, ?_⟩⟩
  rw [frozenSize_refilled ht]
  exact hreached

theorem activeMemtable_of_reached (hpos : 0 < threshold) (h : Holds threshold mgr ws froze)
    (hreached : threshold ≤ mgr.totalSize) : ∃ t, mgr.activeMemtable = some t := by
  apply Option.isSome_iff_exists.mp
  rcases (reached_iff h).mp hreached with hfroze | hsize
  · exact (h.later hfroze).1
  · -- without an active memtable there would be no row
    by_contra hnone
    have hsize' := h.active.occupySize
    rw [activeOrNew, Option.not_isSome_iff_eq_none.mp hnone] at hsize'
    have hzero : size ws = 0 := hsize'.symm
    omega

theorem tryFreeze_of_reached (hpos : 0 < threshold) {s : Tablet η L}
    (h : Holds threshold s.mgr ws froze) (hreached : threshold ≤ s.mgr.totalSize) :
    ∃ t s', step append threshold s .tryFreeze = some (.tryFreeze true, s') ∧
      s.mgr.activeMemtable = some t ∧ s'.mgr = refilled t s.mgr ∧
      Holds threshold s'.mgr [] true := by
  have htotal := getTotalOccupiedSize_eq h.idle
  obtain ⟨t, ht⟩ := activeMemtable_of_reached hpos h hreached
  refine ⟨t, { s with store := { s.store with memtableMgr := refilled t s.mgr } }, ?_, ht, rfl,
    holds_refilled h ht hreached⟩
  simp [step, ObFreezer.init, tryFreezeWith, htotal, hreached, completedFreeze_eq h.idle ht]

theorem tryFreeze_of_not_reached {s : Tablet η L} (h : Holds threshold s.mgr ws froze)
    (hreached : ¬ threshold ≤ s.mgr.totalSize) :
    step append threshold s .tryFreeze = some (.tryFreeze false, s) := by
  have htotal := getTotalOccupiedSize_eq h.idle
  simp [step, ObFreezer.init, tryFreezeWith, htotal, hreached]
  rfl

end Step

section Runs

variable {append : η → Bytes → L → ℤ × L} {threshold : ℤ} {s s' : Tablet η L}

def FreezesRow (append : η → Bytes → L → ℤ × L) (threshold : ℤ) (s : Tablet η L) : Prop :=
  ∀ s', step append threshold s .tryFreeze = some (.tryFreeze true, s') →
    ∃ t, s.mgr.activeMemtable = some t ∧ t.isEmpty = false

def AllFreezeRows (append : η → Bytes → L → ℤ × L) (threshold : ℤ) (calls : List Call)
    (s : Tablet η L) : Prop :=
  ∀ front rest as s', calls = front ++ .tryFreeze :: rest →
    run append threshold front s = some (as, s') → FreezesRow append threshold s'

def FreezeOnce (append : η → Bytes → L → ℤ × L) (threshold : ℤ) (calls : List Call)
    (s : Tablet η L) : Prop :=
  ∀ front n rest as s₁ bs s₂, calls = front ++ (List.replicate n .tryFreeze ++ rest) →
    run append threshold front s = some (as, s₁) →
    run append threshold (List.replicate n .tryFreeze) s₁ = some (bs, s₂) →
    s₂.mgr.frozenMemtables.length ≤ s₁.mgr.frozenMemtables.length + 1

/-- From the first `try_freeze` on at which the accepted rows amount to the threshold, a write is
accepted between any two calls. `total` is the size of the rows accepted so far, and `bare` says
whether none was since a call at which they amounted to it. The answers of `try_freeze` are not
looked at. -/
def Spaced (threshold : ℤ) : ℤ → Bool → List Call → List Answer → Prop
  | total, bare, .set c :: cs, .set ret :: as =>
    if ret = 0 then Spaced threshold (total + c.write.data.size) false cs as
    else Spaced threshold total bare cs as
  | total, bare, .tryFreeze :: cs, _ :: as =>
    (threshold ≤ total → bare = false) ∧
      Spaced threshold total (decide (threshold ≤ total)) cs as
  | _, _, _, _ => True

theorem run_cons {c : Call} {cs : List Call} {a : Answer}
    (h : step append threshold s c = some (a, s')) :
    run append threshold (c :: cs) s =
      (run append threshold cs s').map fun r => (a :: r.1, r.2) := by
  rw [run, h]

theorem run_append {front : List Call} (rest : List Call) {as : List Answer}
    (h : run append threshold front s = some (as, s')) :
    run append threshold (front ++ rest) s =
      (run append threshold rest s').map fun r => (as ++ r.1, r.2) := by
  induction front generalizing s as with
  | nil =>
    cases h
    simp
  | cons c front ih =>
    cases hstep : step append threshold s c with
    | none => simp [run, hstep] at h
    | some r =>
      obtain ⟨a, s₁⟩ := r
      rw [run_cons hstep] at h
      obtain ⟨⟨bs, s₂⟩, hrun, heq⟩ := Option.map_eq_some_iff.mp h
      cases heq
      rw [List.cons_append, run_cons hstep, ih hrun, Option.map_map]
      rfl

theorem AllFreezeRows.rest {front rest : List Call} {as : List Answer}
    (h : AllFreezeRows append threshold (front ++ rest) s)
    (hrun : run append threshold front s = some (as, s')) :
    AllFreezeRows append threshold rest s' := by
  intro front' rest' bs s₁ hsplit hrun'
  refine h (front ++ front') rest' (as ++ bs) s₁ (by rw [hsplit, List.append_assoc]) ?_
  rw [run_append front' hrun, hrun']
  rfl

theorem allFreezeRows_cons {c : Call} {cs : List Call} {a : Answer}
    (hstep : step append threshold s c = some (a, s')) :
    AllFreezeRows append threshold (c :: cs) s ↔
      (c = .tryFreeze → FreezesRow append threshold s) ∧
        AllFreezeRows append threshold cs s' := by
  have hone : run append threshold [c] s = some ([a], s') := by
    rw [run_cons hstep]
    rfl
  constructor
  · intro h
    have hsplit : AllFreezeRows append threshold ([c] ++ cs) s := h
    exact ⟨fun hc => h [] cs [] s (by rw [hc]; rfl) rfl, hsplit.rest hone⟩
  · rintro ⟨hhead, htail⟩ front rest as s₁ hsplit hrun
    cases front with
    | nil =>
      cases hrun
      exact hhead (List.cons.inj hsplit).1
    | cons c' front =>
      obtain ⟨rfl, rfl⟩ := List.cons.inj hsplit
      rw [run_cons hstep] at hrun
      obtain ⟨⟨bs, s₂⟩, hrun', heq⟩ := Option.map_eq_some_iff.mp hrun
      cases heq
      exact htail front rest bs s₂ rfl hrun'

variable {ws : List Write} {froze : Bool}

theorem freezesRow_iff (hpos : 0 < threshold) (h : Holds threshold s.mgr ws froze)
    (hreached : threshold ≤ s.mgr.totalSize) :
    FreezesRow append threshold s ↔ (froze && ws.isEmpty) = false := by
  obtain ⟨t, s', hstep, ht, -, -⟩ := tryFreeze_of_reached append hpos h hreached
  have hactive : s.mgr.activeOrNew = t := by rw [activeOrNew, ht, Option.getD_some]
  have hempty : t.isEmpty = ws.isEmpty := hactive ▸ isEmpty_of_holds h
  have hrow : FreezesRow append threshold s ↔ ws.isEmpty = false := by
    constructor
    · intro hrow
      obtain ⟨t', ht', hne⟩ := hrow s' hstep
      cases ht.symm.trans ht'
      rw [← hempty]
      exact hne
    · intro hne _ _
      exact ⟨t, ht, hempty.trans hne⟩
  rw [hrow]
  cases hfroze : froze with
  | true => simp
  | false =>
    -- the first freeze: the rows of the active memtable have reached the threshold
    have hsize := ((reached_iff h).mp hreached).resolve_left (by simp [hfroze])
    refine iff_of_true ?_ rfl
    rw [List.isEmpty_eq_false_iff]
    rintro rfl
    exact absurd hsize (not_le.mpr hpos)

theorem allFreezeRows_iff_spaced (append : η → Bytes → L → ℤ × L) {s : Tablet η L}
    (hpos : 0 < threshold) (calls : List Call)
    (h : Holds threshold s.mgr ws froze) :
    ∃ as s', run append threshold calls s = some (as, s') ∧
      (AllFreezeRows append threshold calls s ↔
        Spaced threshold s.mgr.totalSize (froze && ws.isEmpty) calls as) := by
  induction calls generalizing s ws froze with
  | nil => exact ⟨[], s, rfl, iff_of_true (by simp [AllFreezeRows]) trivial⟩
  | cons c calls ih =>
    cases c with
    | set c =>
      obtain ⟨ret, s₁, hstep, h₁, htotal⟩ := setActive_holds append c h
      obtain ⟨as, s₂, hrun, hiff⟩ := ih h₁
      refine ⟨.set ret :: as, s₂, by rw [run_cons hstep, hrun]; rfl, ?_⟩
      rw [allFreezeRows_cons hstep, hiff, htotal, Spaced]
      by_cases hret : ret = 0 <;> simp [hret]
    | tryFreeze =>
      by_cases hreached : threshold ≤ s.mgr.totalSize
      · obtain ⟨t, s₁, hstep, ht, hmgr, h₁⟩ := tryFreeze_of_reached append hpos h hreached
        obtain ⟨as, s₂, hrun, hiff⟩ := ih h₁
        refine ⟨.tryFreeze true :: as, s₂, by rw [run_cons hstep, hrun]; rfl, ?_⟩
        rw [allFreezeRows_cons hstep, hiff, freezesRow_iff hpos h hreached, hmgr,
          totalSize_refilled ht]
        simp [Spaced, hreached]
      · have hstep := tryFreeze_of_not_reached append h hreached
        obtain ⟨as, s₂, hrun, hiff⟩ := ih h
        refine ⟨.tryFreeze false :: as, s₂, by rw [run_cons hstep, hrun]; rfl, ?_⟩
        have hno : FreezesRow append threshold s := by
          intro s' hs'
          cases hstep.symm.trans hs'
        have hbare : (froze && ws.isEmpty) = false := by
          rw [reached_iff h, not_or, Bool.not_eq_true] at hreached
          rw [hreached.1, Bool.false_and]
        rw [allFreezeRows_cons hstep, hiff]
        simp [Spaced, hno, hreached, hbare]

theorem step_holds (append : η → Bytes → L → ℤ × L) {s : Tablet η L} (hpos : 0 < threshold)
    (h : Holds threshold s.mgr ws froze) (c : Call) :
    ∃ a s' ws' froze', step append threshold s c = some (a, s') ∧
      Holds threshold s'.mgr ws' froze' := by
  cases c with
  | set c =>
    obtain ⟨ret, s', hstep, h', -⟩ := setActive_holds append c h
    exact ⟨_, s', _, _, hstep, h'⟩
  | tryFreeze =>
    by_cases hreached : threshold ≤ s.mgr.totalSize
    · obtain ⟨t, s', hstep, -, -, h'⟩ := tryFreeze_of_reached append hpos h hreached
      exact ⟨_, s', _, _, hstep, h'⟩
    · exact ⟨_, s, _, _, tryFreeze_of_not_reached append h hreached, h⟩

theorem run_holds (hpos : 0 < threshold) {calls : List Call} {as : List Answer}
    (h : Holds threshold s.mgr ws froze) (hrun : run append threshold calls s = some (as, s')) :
    ∃ ws' froze', Holds threshold s'.mgr ws' froze' := by
  induction calls generalizing s ws froze as with
  | nil =>
    cases hrun
    exact ⟨ws, froze, h⟩
  | cons c calls ih =>
    obtain ⟨a, s₁, ws', froze', hstep, h₁⟩ := step_holds append hpos h c
    rw [run_cons hstep] at hrun
    obtain ⟨⟨bs, s₂⟩, hrun', heq⟩ := Option.map_eq_some_iff.mp hrun
    cases heq
    exact ih h₁ hrun'

theorem frozen_le_of_replicate (hpos : 0 < threshold) {n : ℕ} {as : List Answer}
    (h : Holds threshold s.mgr ws froze)
    (hrows : AllFreezeRows append threshold (List.replicate n .tryFreeze) s)
    (hrun : run append threshold (List.replicate n .tryFreeze) s = some (as, s')) :
    s'.mgr.frozenMemtables.length ≤ s.mgr.frozenMemtables.length + 1 := by
  induction n generalizing as with
  | zero =>
    cases hrun
    omega
  | succ n ih =>
    rw [List.replicate_succ] at hrows hrun
    by_cases hreached : threshold ≤ s.mgr.totalSize
    · obtain ⟨t, s₁, hstep, -, hmgr, h₁⟩ := tryFreeze_of_reached append hpos h hreached
      rw [allFreezeRows_cons hstep] at hrows
      rw [run_cons hstep] at hrun
      cases n with
      | zero =>
        cases hrun
        simp [hmgr, refilled, moveActive]
      | succ n =>
        -- the next call would freeze the memtable that this one has made
        have hnext := hrows.2 [] _ [] s₁ (List.replicate_succ ..) rfl
        rw [freezesRow_iff hpos h₁ ((reached_iff h₁).mpr (Or.inl rfl))] at hnext
        cases hnext
    · have hstep := tryFreeze_of_not_reached append h hreached
      rw [allFreezeRows_cons hstep] at hrows
      rw [run_cons hstep] at hrun
      obtain ⟨⟨bs, s₂⟩, hrun', heq⟩ := Option.map_eq_some_iff.mp hrun
      cases heq
      exact ih hrows.2 hrun'

theorem freezeOnce_of_allFreezeRows (hpos : 0 < threshold) {calls : List Call}
    (h : Holds threshold s.mgr ws froze) (hrows : AllFreezeRows append threshold calls s) :
    FreezeOnce append threshold calls s := by
  rintro front n rest as s₁ bs s₂ rfl hfront hrun
  obtain ⟨ws', froze', h₁⟩ := run_holds hpos h hfront
  refine frozen_le_of_replicate hpos h₁ (fun front' rest' cs s₃ hsplit => ?_) hrun
  exact hrows.rest hfront front' (rest' ++ rest) cs s₃ (by rw [hsplit]; simp)

end Runs

/-- Every freeze finds a row, and calls in a row freeze at most once, exactly when a write is
accepted between any two calls from the one on at which the accepted rows reach the threshold. -/
theorem no_empty_freezes_iff (append : η → Bytes → L → ℤ × L) {threshold : ℤ}
    (hpos : 0 < threshold) (tabletId : ℤ) (log : L) (calls : List Call) :
    ∃ as s', run append threshold calls (opened tabletId log) = some (as, s') ∧
      (AllFreezeRows append threshold calls (opened tabletId log) ∧
        FreezeOnce append threshold calls (opened tabletId log) ↔
          Spaced threshold 0 false calls as) := by
  have hstart : Holds threshold (opened tabletId log : Tablet η L).mgr [] false :=
    holds_opened threshold tabletId log
  obtain ⟨as, s', hrun, hiff⟩ := allFreezeRows_iff_spaced append hpos calls hstart
  refine ⟨as, s', hrun, ?_⟩
  rw [Bool.false_and] at hiff
  refine Iff.trans ?_ hiff
  exact ⟨And.left, fun hrows => ⟨hrows, freezeOnce_of_allFreezeRows hpos hstart hrows⟩⟩

def quiet (_ : Unit) (_ : Bytes) (log : Unit) : ℤ × Unit := (0, log)

def oneRow : Call := .set ⟨{}, { dmlFlag := .dfInsert }, true⟩

theorem no_empty_freezes_iff_example :
    AllFreezeRows quiet 10 [oneRow, .tryFreeze, oneRow, .tryFreeze] (opened 1 ()) ∧
      FreezeOnce quiet 10 [oneRow, .tryFreeze, oneRow, .tryFreeze] (opened 1 ()) := by
  obtain ⟨as, s', hrun, hiff⟩ := no_empty_freezes_iff quiet (show (0 : ℤ) < 10 by decide) 1 ()
    [oneRow, .tryFreeze, oneRow, .tryFreeze]
  have has : (run quiet 10 [oneRow, .tryFreeze, oneRow, .tryFreeze]
      (opened 1 ())).map Prod.fst =
        some [.set 0, .tryFreeze true, .set 0, .tryFreeze true] := by
    decide +kernel
  rw [hrun] at has
  cases has
  exact hiff.mpr (by simp [Spaced, oneRow])

/-- One row at a threshold of 10: the second call in a row freezes an empty memtable. -/
theorem second_freeze_is_empty :
    (run quiet 10 [oneRow, .tryFreeze, .tryFreeze] (opened 1 ())).map
        (fun r => (r.1, r.2.mgr.frozenMemtables.map ObMemtable.rowCount)) =
      some ([.set 0, .tryFreeze true, .tryFreeze true], [1, 0]) ∧
    ¬ AllFreezeRows quiet 10 [oneRow, .tryFreeze, .tryFreeze] (opened 1 ()) ∧
    ¬ FreezeOnce quiet 10 [oneRow, .tryFreeze, .tryFreeze] (opened 1 ()) := by
  have honce : ¬ FreezeOnce quiet 10 [oneRow, .tryFreeze, .tryFreeze] (opened 1 ()) := by
    have hcount : ((run quiet 10 [oneRow] (opened 1 ())).bind fun r =>
        (run quiet 10 (List.replicate 2 .tryFreeze) r.2).map fun r' =>
          (r.2.mgr.frozenMemtables.length, r'.2.mgr.frozenMemtables.length)) = some (0, 2) := by
      decide +kernel
    obtain ⟨⟨as, s₁⟩, hfront, hcount⟩ := Option.bind_eq_some_iff.mp hcount
    obtain ⟨⟨bs, s₂⟩, hrun, hlen⟩ := Option.map_eq_some_iff.mp hcount
    obtain ⟨h₁, h₂⟩ := Prod.mk.inj hlen
    dsimp only at h₁ h₂
    intro h
    have hle := h [oneRow] 2 [] as s₁ bs s₂ rfl hfront hrun
    omega
  refine ⟨by decide +kernel, fun hrows => honce ?_, honce⟩
  exact freezeOnce_of_allFreezeRows (by decide) (holds_opened 10 1 ()) hrows

end FreezeHistory
