import LsmStorage.TableStore

/-! # Freezing the active memtable

`set_is_tablet_freeze` asks for the new active memtable while it holds the mutex of the manager,
and `get_active_memtable` asks for that mutex again. With an active memtable in place the call
does not come back, and neither do the freezer and the store that make it. -/
namespace Freezer

open Memtable TableStore

variable {η : Type*}

/-- `mgr` is the manager that `mgr_` points to, the one in the table store of the tablet. -/
structure ObFreezer (η : Type*) where
  mgr : Option (ObMemTableMgr η) := none
  threshold : ℤ := 0
  isInited : Bool := false

namespace ObFreezer

def init (mgr : Option (ObMemTableMgr η)) (threshold : ℤ) (_ : ObFreezer η) : ℤ × ObFreezer η :=
  (0, { mgr := mgr, threshold := threshold, isInited := true })

/-- The code of `set_is_tablet_freeze` is not looked at. -/
def tryFreeze (f : ObFreezer η) : Option (Bool × ObFreezer η) :=
  if !f.isInited then some (false, f)
  else
    match f.mgr with
    | none => some (false, f)
    | some mgr =>
      match mgr.getTotalOccupiedSize with
      | none => none
      | some (total, mgr) =>
        if total ≥ f.threshold then
          match mgr.setIsTabletFreeze with
          | none => none
          | some (_, mgr) => some (true, { f with mgr := some mgr })
        else some (false, { f with mgr := some mgr })

end ObFreezer

/-- The tablets by name, in the order in which the map is iterated, each with what its freezer
sees of it. -/
structure ObStore (η : Type*) where
  tabletsByName : List (String × ObFreezer η) := []
  mutexHeld : Bool := false

namespace ObStore

/-- The loop of `try_freeze_all`; the answers of the freezers are not looked at. -/
def freezeEach : List (String × ObFreezer η) → Option (List (String × ObFreezer η))
  | [] => some []
  | (name, f) :: rest =>
    match f.tryFreeze with
    | none => none
    | some (_, f) =>
      match freezeEach rest with
      | none => none
      | some rest => some ((name, f) :: rest)

/-- Nothing in the loop asks for the mutex of the store. -/
def tryFreezeAll (s : ObStore η) : Option (ObStore η) :=
  if s.mutexHeld then none
  else
    match freezeEach s.tabletsByName with
    | none => none
    | some tablets => some { s with tabletsByName := tablets }

end ObStore

/-- What a freeze should leave behind: the old active memtable is the youngest frozen one and has
its rows, and there is a new active one, empty and writable. -/
structure Moved (t : ObMemtable η) (mgr mgr' : ObMemTableMgr η) : Prop where
  frozen : ∃ t', mgr'.frozenMemtables = mgr.frozenMemtables ++ [t'] ∧ t'.isFrozen = true ∧
    t'.queryEngine = t.queryEngine ∧ t'.rowCount = t.rowCount
  active : ∃ t', mgr'.activeMemtable = some t' ∧ t'.isEmpty = true ∧ t'.isFrozen = false

section Manager

variable {mgr : ObMemTableMgr η}

def refilled (t : ObMemtable η) (mgr : ObMemTableMgr η) : ObMemTableMgr η :=
  { mgr.moveActive t with activeMemtable := some (ObMemtable.create mgr.tabletId) }

theorem moved_refilled (t : ObMemtable η) (mgr : ObMemTableMgr η) : Moved t mgr (refilled t mgr) :=
  ⟨⟨t.setFrozen, rfl, rfl, rfl, rfl⟩, ⟨ObMemtable.create mgr.tabletId, rfl, rfl, rfl⟩⟩

def FreezeMoves (mgr : ObMemTableMgr η) : Prop :=
  ∀ t, mgr.activeMemtable = some t →
    ∃ mgr', mgr.setIsTabletFreeze = some (0, mgr') ∧ Moved t mgr mgr'

theorem freezeMoves_iff (h : mgr.mutexHeld = false) :
    FreezeMoves mgr ↔ mgr.activeMemtable = none := by
  unfold FreezeMoves
  rw [ObMemTableMgr.setIsTabletFreeze_eq h]
  cases mgr.activeMemtable with
  | none => simp
  | some t =>
    refine iff_of_false (fun hmoves => ?_) (by simp)
    obtain ⟨_, hnone, -⟩ := hmoves t rfl
    cases hnone

end Manager

section Freezers

variable {f : ObFreezer η}

namespace ObFreezer

def Idle (f : ObFreezer η) : Prop := ∀ mgr ∈ f.mgr, mgr.mutexHeld = false

def Reached (f : ObFreezer η) : Prop :=
  f.isInited = true ∧ ∃ mgr ∈ f.mgr, f.threshold ≤ mgr.totalSize

def Due (f : ObFreezer η) : Prop :=
  f.Reached ∧ ∃ mgr ∈ f.mgr, mgr.activeMemtable.isSome = true

instance (f : ObFreezer η) : Decidable f.Reached :=
  inferInstanceAs (Decidable (_ ∧ ∃ mgr ∈ f.mgr, _))

instance (f : ObFreezer η) : Decidable f.Due :=
  inferInstanceAs (Decidable (_ ∧ ∃ mgr ∈ f.mgr, _))

end ObFreezer

theorem tryFreeze_eq (h : f.Idle) :
    f.tryFreeze = if f.Due then none else some (decide f.Reached, f) := by
  obtain ⟨mgr, threshold, isInited⟩ := f
  cases isInited with
  | false => simp [ObFreezer.tryFreeze, ObFreezer.Due, ObFreezer.Reached]
  | true =>
    cases mgr with
    | none => simp [ObFreezer.tryFreeze, ObFreezer.Due, ObFreezer.Reached]
    | some mgr =>
      have hidle : mgr.mutexHeld = false := h mgr rfl
      simp only [ObFreezer.tryFreeze, ObMemTableMgr.getTotalOccupiedSize_eq hidle,
        ObMemTableMgr.setIsTabletFreeze_eq hidle, ObFreezer.Due, ObFreezer.Reached]
      by_cases hreached : threshold ≤ mgr.totalSize
      · cases hactive : mgr.activeMemtable <;> simp [hreached, hactive]
      · simp [hreached]

def TryFreezeMoves (f : ObFreezer η) : Prop :=
  ∀ mgr t, f.Reached → f.mgr = some mgr → mgr.activeMemtable = some t →
    ∃ mgr', f.tryFreeze = some (true, { f with mgr := some mgr' }) ∧ Moved t mgr mgr'

theorem tryFreezeMoves_iff (h : f.Idle) : TryFreezeMoves f ↔ ¬ f.Due := by
  constructor
  · rintro hmoves ⟨hreached, mgr, hmgr, hactive⟩
    obtain ⟨t, ht⟩ := Option.isSome_iff_exists.mp hactive
    obtain ⟨mgr', hfreeze, -⟩ := hmoves mgr t hreached hmgr ht
    rw [tryFreeze_eq h, if_pos ⟨hreached, mgr, hmgr, hactive⟩] at hfreeze
    cases hfreeze
  · intro hdue mgr t hreached hmgr ht
    exact absurd ⟨hreached, mgr, hmgr, by simp [ht]⟩ hdue

end Freezers

section Store

variable {s : ObStore η}

structure ObStore.Idle (s : ObStore η) : Prop where
  store : s.mutexHeld = false
  tablets : ∀ tablet ∈ s.tabletsByName, tablet.2.Idle

theorem freezeEach_eq {tablets : List (String × ObFreezer η)}
    (h : ∀ tablet ∈ tablets, tablet.2.Idle) :
    ObStore.freezeEach tablets =
      if ∃ tablet ∈ tablets, tablet.2.Due then none else some tablets := by
  induction tablets with
  | nil => simp [ObStore.freezeEach]
  | cons tablet rest ih =>
    obtain ⟨name, f⟩ := tablet
    have hrest := ih fun tablet ht => h tablet (List.mem_cons_of_mem _ ht)
    simp only [ObStore.freezeEach, tryFreeze_eq (h (name, f) List.mem_cons_self), hrest,
      List.exists_mem_cons_iff]
    by_cases hdue : f.Due
    · simp [hdue]
    · by_cases hlater : ∃ tablet ∈ rest, tablet.2.Due
      · simp [hdue, hlater]
      · simp [hdue, hlater]

theorem tryFreezeAll_eq (h : s.Idle) :
    s.tryFreezeAll = if ∃ tablet ∈ s.tabletsByName, tablet.2.Due then none else some s := by
  obtain ⟨tablets, mutexHeld⟩ := s
  obtain rfl : mutexHeld = false := h.store
  simp only [ObStore.tryFreezeAll, freezeEach_eq h.tablets]
  by_cases hdue : ∃ tablet ∈ tablets, tablet.2.Due
  · simp [hdue]
  · simp [hdue]

def TryFreezeAllMoves (s : ObStore η) : Prop :=
  ∃ s', s.tryFreezeAll = some s' ∧
    List.Forall₂ (fun tablet tablet' => tablet'.1 = tablet.1 ∧
      ∀ mgr t, tablet.2.Reached → tablet.2.mgr = some mgr → mgr.activeMemtable = some t →
        ∃ mgr', tablet'.2 = { tablet.2 with mgr := some mgr' } ∧ Moved t mgr mgr')
      s.tabletsByName s'.tabletsByName

theorem tryFreezeAllMoves_iff (h : s.Idle) :
    TryFreezeAllMoves s ↔ ∀ tablet ∈ s.tabletsByName, ¬ tablet.2.Due := by
  unfold TryFreezeAllMoves
  rw [tryFreezeAll_eq h]
  constructor
  · rintro ⟨s', hfreeze, -⟩ tablet ht hdue
    rw [if_pos ⟨tablet, ht, hdue⟩] at hfreeze
    cases hfreeze
  · intro hnone
    refine ⟨s, if_neg fun ⟨tablet, ht, hdue⟩ => hnone tablet ht hdue, ?_⟩
    refine List.forall₂_same.mpr fun tablet ht => ⟨rfl, fun mgr t hreached hmgr hactive => ?_⟩
    exact absurd ⟨hreached, mgr, hmgr, by simp [hactive]⟩ (hnone tablet ht)

end Store

/-- A freeze gets done exactly when there is nothing to freeze. -/
theorem freeze_completes_iff (mgr : ObMemTableMgr η) (f : ObFreezer η) (s : ObStore η)
    (hmgr : mgr.mutexHeld = false) (hf : f.Idle) (hs : s.Idle) :
    (FreezeMoves mgr ↔ mgr.activeMemtable = none) ∧ (TryFreezeMoves f ↔ ¬ f.Due) ∧
      (TryFreezeAllMoves s ↔ ∀ tablet ∈ s.tabletsByName, ¬ tablet.2.Due) :=
  ⟨freezeMoves_iff hmgr, tryFreezeMoves_iff hf, tryFreezeAllMoves_iff hs⟩

def busy : ObMemTableMgr Unit where
  activeMemtable := some ((ObMemtable.create 1).apply {} { dmlFlag := .dfInsert }).2

def tabletOf (threshold : ℤ) : String × ObFreezer Unit :=
  ("t", (ObFreezer.init (some busy) threshold {}).2)

theorem idle_tabletOf (threshold : ℤ) : (tabletOf threshold).2.Idle := by
  rintro _ ⟨⟩
  rfl

theorem freeze_completes_iff_example :
    FreezeMoves ({} : ObMemTableMgr Unit) ∧ TryFreezeMoves (tabletOf 100).2 ∧
      TryFreezeAllMoves ⟨[tabletOf 100], false⟩ := by
  have hdue : ¬ (tabletOf 100).2.Due := by decide +kernel
  obtain ⟨hmgr, hf, hs⟩ := freeze_completes_iff {} (tabletOf 100).2 ⟨[tabletOf 100], false⟩ rfl
    (idle_tabletOf 100) ⟨rfl, by simpa using idle_tabletOf 100⟩
  exact ⟨hmgr.mpr rfl, hf.mpr hdue, hs.mpr (by simpa using hdue)⟩

/-- A memtable with one row of 16 bytes, at a threshold of 10: no freeze of it comes back. -/
theorem freeze_of_active_hangs :
    busy.setIsTabletFreeze.isNone = true ∧ (tabletOf 10).2.tryFreeze.isNone = true ∧
      (ObStore.tryFreezeAll ⟨[tabletOf 10], false⟩).isNone = true ∧ ¬ FreezeMoves busy ∧
      ¬ TryFreezeMoves (tabletOf 10).2 ∧ ¬ TryFreezeAllMoves ⟨[tabletOf 10], false⟩ := by
  have hdue : (tabletOf 10).2.Due := by decide +kernel
  refine ⟨by decide +kernel, by decide +kernel, by decide +kernel, ?_, ?_, ?_⟩
  · rw [freezeMoves_iff rfl]
    simp [busy]
  · rw [tryFreezeMoves_iff (idle_tabletOf 10), not_not]
    exact hdue
  · rw [tryFreezeAllMoves_iff ⟨rfl, by simpa using idle_tabletOf 10⟩]
    simpa using hdue

end Freezer
