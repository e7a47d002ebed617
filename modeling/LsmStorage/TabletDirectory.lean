import LsmStorage.RunInvariant
import LsmStorage.Tablet
import Mathlib.Data.Finmap

/-! # The tablets of a store

A store finds a tablet by its name and by its id, in two maps. A create looks for the name only.
The maps hold addresses; an address is used once, so that one that is kept after `delete` would be
seen. -/
namespace TabletDirectory

open Tablet TableStore RunInvariant

structure ObStore where
  tabletsByName : Finmap (fun _ : String => ℕ) := ∅
  tabletsById : Finmap (fun _ : ℤ => ℕ) := ∅
  /-- The tablets that are not deleted. -/
  heap : Finmap (fun _ : ℕ => ObTablet) := ∅
  nextAddress : ℕ := 0

def newTablet (tabletId : ℤ) : ObTablet where
  tabletId := tabletId
  tableStore := (({} : ObTableStore ℤ).init tabletId).2
  isInited := true

theorem init_eq_newTablet {β κ : Type*} [DecidableEq β] (fuel : ℕ) (tabletId : ℤ)
    (disk : PalfLogStorage.Disk (Option β × ℤ)) :
    ObTablet.init fuel tabletId (none : Option (LogService.ObLogService β κ)) disk {} =
      some (0, newTablet tabletId, none, disk) := rfl

namespace ObStore

def createTablet (name : String) (tabletId : ℤ) (s : ObStore) : ℤ × ObStore :=
  if name ∈ s.tabletsByName then (-1, s)
  else (0, {
    tabletsByName := s.tabletsByName.insert name s.nextAddress
    tabletsById := s.tabletsById.insert tabletId s.nextAddress
    heap := s.heap.insert s.nextAddress (newTablet tabletId)
    nextAddress := s.nextAddress + 1 })

def getTablet (name : String) (s : ObStore) : Option ℕ := s.tabletsByName.lookup name

def getTabletById (tabletId : ℤ) (s : ObStore) : Option ℕ := s.tabletsById.lookup tabletId

/-- `none`: the id is read from a tablet that has been deleted. -/
def dropTablet (name : String) (s : ObStore) : Option (ℤ × ObStore) :=
  match s.tabletsByName.lookup name with
  | none => some (-1, s)
  | some t =>
    match s.heap.lookup t with
    | none => none
    | some tablet => some (0, { s with
        tabletsByName := s.tabletsByName.erase name
        tabletsById := s.tabletsById.erase tablet.tabletId
        heap := s.heap.erase t })

end ObStore

inductive StoreCall where
  | createTablet (name : String) (tabletId : ℤ)
  | dropTablet (name : String)

/-- `none` after undefined behaviour. -/
def step : Option ObStore → StoreCall → Option ObStore
  | none, _ => none
  | some s, .createTablet name tabletId => some (s.createTablet name tabletId).2
  | some s, .dropTablet name => (s.dropTablet name).map Prod.snd

/-- The maps refer to the live tablets and no others, and an id leads to a tablet that has it. -/
structure Agrees (s : ObStore) : Prop where
  byName : ∀ a, (∃ name, s.getTablet name = some a) ↔ a ∈ s.heap
  byId : ∀ a, (∃ tabletId, s.getTabletById tabletId = some a) ↔ a ∈ s.heap
  ids : ∀ tabletId a, s.getTabletById tabletId = some a →
    ∃ t, s.heap.lookup a = some t ∧ t.tabletId = tabletId

structure Sound (s : ObStore) : Prop where
  live : ∀ {name a}, s.tabletsByName.lookup name = some a → ∃ t, s.heap.lookup a = some t
  ids : ∀ {tabletId a}, s.tabletsById.lookup tabletId = some a →
    ∃ t, s.heap.lookup a = some t ∧ t.tabletId = tabletId
  named : ∀ {a t}, s.heap.lookup a = some t → ∃ name, s.tabletsByName.lookup name = some a
  distinct : ∀ {name name' a}, s.tabletsByName.lookup name = some a →
    s.tabletsByName.lookup name' = some a → name = name'
  below : ∀ {a t}, s.heap.lookup a = some t → a < s.nextAddress

def Indexed (s : ObStore) : Prop :=
  ∀ a t, s.heap.lookup a = some t → s.tabletsById.lookup t.tabletId = some a

section Invariant

variable {s : ObStore} {name : String} {tabletId : ℤ}

theorem mem_heap {a : ℕ} : a ∈ s.heap ↔ ∃ t, s.heap.lookup a = some t := by
  rw [← Finmap.lookup_isSome, Option.isSome_iff_exists]

theorem Sound.agrees_iff (h : Sound s) : Agrees s ↔ Indexed s := by
  constructor
  · intro hagrees a t ht
    obtain ⟨id, hid⟩ := (hagrees.byId a).mpr (mem_heap.mpr ⟨t, ht⟩)
    obtain ⟨t', ht', rfl⟩ := h.ids hid
    rw [Option.some.inj (ht.symm.trans ht')]
    exact hid
  · intro hindexed
    refine ⟨fun a => ?_, fun a => ?_, fun _ _ => h.ids⟩
    · rw [mem_heap]
      exact ⟨fun ⟨_, hname⟩ => h.live hname, fun ⟨_, ht⟩ => h.named ht⟩
    · rw [mem_heap]
      constructor
      · rintro ⟨id, hid⟩
        obtain ⟨t, ht, -⟩ := h.ids hid
        exact ⟨t, ht⟩
      · rintro ⟨t, ht⟩
        exact ⟨t.tabletId, hindexed a t ht⟩

theorem sound_new : Sound {} :=
  ⟨by simp, by simp, by simp, by simp, by simp⟩

theorem lookup_insert_eq_some {κ υ : Type*} [DecidableEq κ] {m : Finmap fun _ : κ => υ}
    {key k : κ} {value v : υ} : (m.insert key value).lookup k = some v ↔
      (k = key ∧ v = value) ∨ (k ≠ key ∧ m.lookup k = some v) := by
  by_cases hk : k = key
  · rw [hk, Finmap.lookup_insert]
    simp [eq_comm]
  · rw [Finmap.lookup_insert_of_ne _ hk]
    simp [hk]

theorem lookup_erase_eq_some {κ υ : Type*} [DecidableEq κ] {m : Finmap fun _ : κ => υ}
    {key k : κ} {v : υ} : (m.erase key).lookup k = some v ↔ k ≠ key ∧ m.lookup k = some v := by
  by_cases hk : k = key
  · rw [hk, Finmap.lookup_erase]
    simp
  · rw [Finmap.lookup_erase_ne hk]
    simp [hk]

theorem Sound.createTablet (h : Sound s) (name : String) (tabletId : ℤ) :
    Sound (s.createTablet name tabletId).2 := by
  unfold ObStore.createTablet
  split
  · exact h
  rename_i hname
  have hnone : s.tabletsByName.lookup name = none := Finmap.lookup_eq_none.mpr hname
  -- an address that was in use is not the new one
  have hold : ∀ {a t}, s.heap.lookup a = some t → a ≠ s.nextAddress :=
    fun ht => Nat.ne_of_lt (h.below ht)
  constructor
  · intro n a hn
    rcases lookup_insert_eq_some.mp hn with ⟨-, rfl⟩ | ⟨-, hn⟩
    · exact ⟨_, Finmap.lookup_insert _⟩
    · obtain ⟨t, ht⟩ := h.live hn
      exact ⟨t, lookup_insert_eq_some.mpr (Or.inr ⟨hold ht, ht⟩)⟩
  · intro id a hid
    rcases lookup_insert_eq_some.mp hid with ⟨rfl, rfl⟩ | ⟨-, hid⟩
    · exact ⟨_, Finmap.lookup_insert _, rfl⟩
    · obtain ⟨t, ht, hid⟩ := h.ids hid
      exact ⟨t, lookup_insert_eq_some.mpr (Or.inr ⟨hold ht, ht⟩), hid⟩
  · intro a t ht
    rcases lookup_insert_eq_some.mp ht with ⟨rfl, -⟩ | ⟨-, ht⟩
    · exact ⟨name, Finmap.lookup_insert _⟩
    · obtain ⟨n, hn⟩ := h.named ht
      refine ⟨n, lookup_insert_eq_some.mpr (Or.inr ⟨?_, hn⟩)⟩
      rintro rfl
      rw [hnone] at hn
      cases hn
  · intro n n' a hn hn'
    rcases lookup_insert_eq_some.mp hn with ⟨rfl, rfl⟩ | ⟨-, hbefore⟩
    · rcases lookup_insert_eq_some.mp hn' with ⟨rfl, -⟩ | ⟨-, hbefore'⟩
      · rfl
      · obtain ⟨t, ht⟩ := h.live hbefore'
        exact absurd rfl (hold ht)
    · rcases lookup_insert_eq_some.mp hn' with ⟨rfl, rfl⟩ | ⟨-, hbefore'⟩
      · obtain ⟨t, ht⟩ := h.live hbefore
        exact absurd rfl (hold ht)
      · exact h.distinct hbefore hbefore'
  · intro a t ht
    rcases lookup_insert_eq_some.mp ht with ⟨rfl, -⟩ | ⟨-, ht⟩
    · exact Nat.lt_succ_self _
    · exact Nat.lt_succ_of_lt (h.below ht)

theorem Sound.indexed_createTablet (h : Sound s) (hindexed : Indexed s) (name : String)
    (tabletId : ℤ) : Indexed (s.createTablet name tabletId).2 ↔
      (name ∉ s.tabletsByName → s.getTabletById tabletId = none) := by
  unfold ObStore.createTablet
  split
  · rename_i hname
    exact iff_of_true hindexed fun hnew => absurd hname hnew
  rename_i hname
  constructor
  · intro hafter _
    by_contra hfound
    obtain ⟨a, ha⟩ := Option.ne_none_iff_exists'.mp hfound
    obtain ⟨t, ht, rfl⟩ := h.ids ha
    have hne : a ≠ s.nextAddress := Nat.ne_of_lt (h.below ht)
    have hlost := hafter a t (lookup_insert_eq_some.mpr (Or.inr ⟨hne, ht⟩))
    rw [Finmap.lookup_insert] at hlost
    exact hne (Option.some.inj hlost).symm
  · intro hfree a t ht
    rcases lookup_insert_eq_some.mp ht with ⟨rfl, rfl⟩ | ⟨-, ht⟩
    · exact Finmap.lookup_insert _
    · have hfound := hindexed a t ht
      refine lookup_insert_eq_some.mpr (Or.inr ⟨?_, hfound⟩)
      rintro rfl
      have hnone := hfree hname
      rw [ObStore.getTabletById, hfound] at hnone
      cases hnone

theorem Sound.dropTablet_cases (h : Sound s) (name : String) :
    s.dropTablet name = some (-1, s) ∨ ∃ a t, s.tabletsByName.lookup name = some a ∧
      s.heap.lookup a = some t ∧ s.dropTablet name = some (0, { s with
        tabletsByName := s.tabletsByName.erase name
        tabletsById := s.tabletsById.erase t.tabletId
        heap := s.heap.erase a }) := by
  unfold ObStore.dropTablet
  cases hname : s.tabletsByName.lookup name with
  | none => exact Or.inl rfl
  | some a =>
    obtain ⟨t, ht⟩ := h.live hname
    exact Or.inr ⟨a, t, rfl, ht, by simp [ht]⟩

theorem Sound.erase (h : Sound s) {a : ℕ} {t : ObTablet}
    (hname : s.tabletsByName.lookup name = some a) (ht : s.heap.lookup a = some t) :
    Sound { s with
      tabletsByName := s.tabletsByName.erase name
      tabletsById := s.tabletsById.erase t.tabletId
      heap := s.heap.erase a } := by
  constructor
  · intro n b hn
    obtain ⟨hne, hbefore⟩ := lookup_erase_eq_some.mp hn
    obtain ⟨u, hu⟩ := h.live hbefore
    refine ⟨u, lookup_erase_eq_some.mpr ⟨?_, hu⟩⟩
    rintro rfl
    exact hne (h.distinct hbefore hname)
  · intro id b hid
    obtain ⟨hne, hid⟩ := lookup_erase_eq_some.mp hid
    obtain ⟨u, hu, rfl⟩ := h.ids hid
    refine ⟨u, lookup_erase_eq_some.mpr ⟨?_, hu⟩, rfl⟩
    rintro rfl
    exact hne (congrArg ObTablet.tabletId (Option.some.inj (hu.symm.trans ht)))
  · intro b u hu
    obtain ⟨hne, hu⟩ := lookup_erase_eq_some.mp hu
    obtain ⟨n, hn⟩ := h.named hu
    refine ⟨n, lookup_erase_eq_some.mpr ⟨?_, hn⟩⟩
    rintro rfl
    exact hne (Option.some.inj (hn.symm.trans hname))
  · intro n n' b hn hn'
    exact h.distinct (lookup_erase_eq_some.mp hn).2 (lookup_erase_eq_some.mp hn').2
  · intro b u hu
    exact h.below (lookup_erase_eq_some.mp hu).2

theorem Indexed.erase (hindexed : Indexed s) {a : ℕ} {t : ObTablet}
    (ht : s.heap.lookup a = some t) :
    Indexed { s with
      tabletsByName := s.tabletsByName.erase name
      tabletsById := s.tabletsById.erase t.tabletId
      heap := s.heap.erase a } := by
  intro b u hu
  obtain ⟨hne, hu⟩ := lookup_erase_eq_some.mp hu
  refine lookup_erase_eq_some.mpr ⟨?_, hindexed b u hu⟩
  -- two live tablets of one id would both be found under it
  intro heq
  have hb := hindexed b u hu
  rw [heq, hindexed a t ht] at hb
  exact hne (Option.some.inj hb).symm

end Invariant

section Histories

def Right (o : Option ObStore) : Prop := ∃ s, o = some s ∧ Agrees s

def FreeId : Option ObStore → StoreCall → Prop
  | some s, .createTablet name tabletId =>
    name ∉ s.tabletsByName → s.getTabletById tabletId = none
  | _, _ => True

theorem sound_step {o : Option ObStore} (h : ∃ s, o = some s ∧ Sound s) (call : StoreCall) :
    ∃ s, step o call = some s ∧ Sound s := by
  obtain ⟨s, rfl, hs⟩ := h
  cases call with
  | createTablet name tabletId => exact ⟨_, rfl, hs.createTablet name tabletId⟩
  | dropTablet name =>
    rcases hs.dropTablet_cases name with hdrop | ⟨a, t, hname, ht, hdrop⟩
    · exact ⟨s, by simp [step, hdrop], hs⟩
    · exact ⟨_, by simp [step, hdrop], hs.erase hname ht⟩

theorem right_some_iff {s : ObStore} (h : Sound s) : Right (some s) ↔ Indexed s := by
  rw [← h.agrees_iff]
  exact ⟨fun ⟨_, rfl, hs⟩ => hs, fun hs => ⟨s, rfl, hs⟩⟩

theorem right_step_iff {o : Option ObStore} (h : ∃ s, o = some s ∧ Sound s) (call : StoreCall)
    (hright : Right o) : Right (step o call) ↔ FreeId o call := by
  obtain ⟨s, rfl, hs⟩ := h
  have hindexed := (right_some_iff hs).mp hright
  cases call with
  | createTablet name tabletId =>
    rw [step, right_some_iff (hs.createTablet name tabletId)]
    exact hs.indexed_createTablet hindexed name tabletId
  | dropTablet name =>
    refine iff_of_true ?_ trivial
    rcases hs.dropTablet_cases name with hdrop | ⟨a, t, hname, ht, hdrop⟩
    · simpa [step, hdrop] using hright
    · rw [step, hdrop, Option.map_some, right_some_iff (hs.erase hname ht)]
      exact hindexed.erase ht

/-- The directories agree throughout a history exactly when every create that is accepted finds
no tablet under its id. -/
theorem directories_agree_iff (calls : List StoreCall) :
    Always step Right (some {}) calls ↔ Each step FreeId (some {}) calls :=
  always_iff_each (always_of_step ⟨{}, rfl, sound_new⟩ fun _ call h => sound_step h call)
    each_true ((right_some_iff sound_new).mpr (by simp [Indexed]))
    fun _ call h _ hright => right_step_iff h call hright

/-- Two names with one id: the first tablet is lost to the map of the ids, and its drop takes the
second one out of it. -/
theorem tablet_lost_by_id :
    let s := ((ObStore.createTablet "a" 1 {}).2.createTablet "b" 1).2
    (ObStore.createTablet "a" 1 {}).1 = 0 ∧ s.getTablet "a" = some 0 ∧ s.getTablet "b" = some 1 ∧
      s.getTabletById 1 = some 1 ∧
      (s.dropTablet "a").map (fun r => (r.2.getTablet "b", r.2.getTabletById 1)) =
        some (some 1, none) := by
  decide +kernel

end Histories

end TabletDirectory
