import Mathlib.Logic.Function.Basic

/-! # Things with one owner each

Every owner has at most one thing. The things that are there are the things that are owned, and no
two owners have the same one. -/
namespace ExclusiveOwners

variable {ι α : Type*} {owner : ι → Option α} {live live' : α → Prop} {i j : ι} {p : α}

structure Exclusive (owner : ι → Option α) (live : α → Prop) : Prop where
  live_of : ∀ i p, owner i = some p → live p
  unique : ∀ i j p, owner i = some p → owner j = some p → i = j
  owned : ∀ p, live p → ∃ i, owner i = some p

theorem exclusive_none (howner : ∀ i, owner i = none) (hlive : ∀ p, ¬ live p) :
    Exclusive owner live := by
  refine ⟨fun i p h => ?_, fun i j p h => ?_, fun p h => absurd h (hlive p)⟩
  · rw [howner i] at h
    cases h
  · rw [howner i] at h
    cases h

theorem Exclusive.not_live (h : Exclusive owner live) (hnone : ∀ i, owner i = none) (p : α) :
    ¬ live p := by
  intro hp
  obtain ⟨i, hi⟩ := h.owned p hp
  rw [hnone i] at hi
  cases hi

variable [DecidableEq ι]

theorem update_eq_some {o : Option α} {k : ι} (h : Function.update owner i o k = some p) :
    (k = i ∧ o = some p) ∨ (k ≠ i ∧ owner k = some p) := by
  by_cases hk : k = i
  · rw [hk, Function.update_self] at h
    exact .inl ⟨hk, h⟩
  · rw [Function.update_of_ne hk] at h
    exact .inr ⟨hk, h⟩

theorem Exclusive.giveUp (h : Exclusive owner live) (hi : owner i = some p)
    (hlive : ∀ q, live' q ↔ live q ∧ q ≠ p) : Exclusive (Function.update owner i none) live' := by
  refine ⟨fun k q hk => (hlive q).mpr ?_, fun k l q hk hl => ?_, fun q hq => ?_⟩
  · rcases update_eq_some hk with ⟨-, hnone⟩ | ⟨hki, hk⟩
    · cases hnone
    · exact ⟨h.live_of k q hk, fun hqp => hki (h.unique k i p (hqp ▸ hk) hi)⟩
  · rcases update_eq_some hk with ⟨-, hnone⟩ | ⟨-, hk⟩
    · cases hnone
    · rcases update_eq_some hl with ⟨-, hnone⟩ | ⟨-, hl⟩
      · cases hnone
      · exact h.unique k l q hk hl
  · obtain ⟨hold, hqp⟩ := (hlive q).mp hq
    obtain ⟨k, hk⟩ := h.owned q hold
    have hki : k ≠ i := by
      rintro rfl
      exact hqp (Option.some.inj (hk.symm.trans hi))
    exact ⟨k, by rw [Function.update_of_ne hki, hk]⟩

theorem Exclusive.take (h : Exclusive owner live) (hi : owner i = none) (hp : ¬ live p)
    (hlive : ∀ q, live' q ↔ live q ∨ q = p) :
    Exclusive (Function.update owner i (some p)) live' := by
  refine ⟨fun k q hk => (hlive q).mpr ?_, fun k l q hk hl => ?_, fun q hq => ?_⟩
  · rcases update_eq_some hk with ⟨-, hq⟩ | ⟨-, hk⟩
    · exact .inr (Option.some.inj hq).symm
    · exact .inl (h.live_of k q hk)
  · rcases update_eq_some hk with ⟨rfl, hq⟩ | ⟨-, hk⟩
    · rcases update_eq_some hl with ⟨rfl, -⟩ | ⟨-, hl⟩
      · rfl
      · exact absurd (h.live_of l q hl) (Option.some.inj hq ▸ hp)
    · rcases update_eq_some hl with ⟨-, hq⟩ | ⟨-, hl⟩
      · exact absurd (h.live_of k q hk) (Option.some.inj hq ▸ hp)
      · exact h.unique k l q hk hl
  · rcases (hlive q).mp hq with hold | rfl
    · obtain ⟨k, hk⟩ := h.owned q hold
      have hki : k ≠ i := by
        rintro rfl
        rw [hi] at hk
        cases hk
      exact ⟨k, by rw [Function.update_of_ne hki, hk]⟩
    · exact ⟨i, Function.update_self ..⟩

theorem Exclusive.transfer (h : Exclusive owner live) (hi : owner i = none) (hij : i ≠ j) :
    Exclusive (Function.update (Function.update owner i (owner j)) j none) live := by
  have hcases : ∀ k q, Function.update (Function.update owner i (owner j)) j none k = some q →
      (k = i ∧ owner j = some q) ∨ (k ≠ i ∧ k ≠ j ∧ owner k = some q) := by
    intro k q hk
    rcases update_eq_some hk with ⟨-, hnone⟩ | ⟨hkj, hk⟩
    · cases hnone
    · rcases update_eq_some hk with ⟨hki, hj⟩ | ⟨hki, hk⟩
      · exact .inl ⟨hki, hj⟩
      · exact .inr ⟨hki, hkj, hk⟩
  refine ⟨fun k q hk => ?_, fun k l q hk hl => ?_, fun q hq => ?_⟩
  · rcases hcases k q hk with ⟨-, hj⟩ | ⟨-, -, hk⟩
    · exact h.live_of j q hj
    · exact h.live_of k q hk
  · rcases hcases k q hk with ⟨hki, hj⟩ | ⟨-, hkj, hk'⟩
    · rcases hcases l q hl with ⟨hli, -⟩ | ⟨-, hlj, hl'⟩
      · exact hki.trans hli.symm
      · exact absurd (h.unique l j q hl' hj) hlj
    · rcases hcases l q hl with ⟨-, hj⟩ | ⟨-, -, hl'⟩
      · exact absurd (h.unique k j q hk' hj) hkj
      · exact h.unique k l q hk' hl'
  · obtain ⟨k, hk⟩ := h.owned q hq
    by_cases hkj : k = j
    · exact ⟨i, by rw [Function.update_of_ne hij, Function.update_self, ← hkj, hk]⟩
    · have hki : k ≠ i := by
        rintro rfl
        rw [hi] at hk
        cases hk
      exact ⟨k, by rw [Function.update_of_ne hkj, Function.update_of_ne hki, hk]⟩

/-- What an owner has without having taken or got it belongs to another one or is not there. -/
theorem Exclusive.not_exclusive (h : Exclusive owner live) (hi : owner i = none) (p : α) :
    ¬ Exclusive (Function.update owner i (some p)) live := by
  intro hafter
  have hself : Function.update owner i (some p) i = some p := Function.update_self ..
  obtain ⟨k, hk⟩ := h.owned p (hafter.live_of i p hself)
  have hki : k ≠ i := by
    rintro rfl
    rw [hi] at hk
    cases hk
  exact hki (hafter.unique k i p (by rw [Function.update_of_ne hki, hk]) hself)

end ExclusiveOwners
