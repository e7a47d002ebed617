import Mathlib.Data.Nat.Basic
import Mathlib.Logic.Relation
import Mathlib.Order.Basic

/-! # While loops with a step budget

A loop body either goes round again with a new state or stops with a result. The
budget makes the loop executable; a result does not depend on how much was left over. -/
namespace BoundedLoop

universe u v

inductive Turn (σ : Type u) (ρ : Type v) where
  | again (s : σ)
  | stop (r : ρ)

variable {σ : Type u} {ρ : Type v} {body : σ → Turn σ ρ}

/-- `none` means that the budget ran out before the loop stopped. -/
def run (body : σ → Turn σ ρ) : ℕ → σ → Option ρ
  | 0, _ => none
  | n + 1, s =>
    match body s with
    | .stop r => some r
    | .again t => run body n t

theorem run_chain {f : ℕ → σ} {k : ℕ} {r : ρ} (hagain : ∀ j < k, body (f j) = .again (f (j + 1)))
    (hstop : body (f k) = .stop r) : run body (k + 1) (f 0) = some r := by
  induction k generalizing f with
  | zero => rw [run, hstop]
  | succ k ih =>
    rw [run, hagain 0 (Nat.succ_pos k)]
    exact ih (fun j hj => hagain (j + 1) (Nat.succ_lt_succ hj)) hstop

def Yields (body : σ → Turn σ ρ) (s : σ) (r : ρ) : Prop := ∃ n, run body n s = some r

variable {s : σ}

theorem run_mono {n m : ℕ} {r : ρ} (h : run body n s = some r) (hnm : n ≤ m) :
    run body m s = some r := by
  induction n generalizing m s with
  | zero => simp [run] at h
  | succ n ih =>
    obtain ⟨k, rfl⟩ : ∃ k, m = k + 1 := ⟨m - 1, by omega⟩
    simp only [run] at h ⊢
    cases hb : body s with
    | stop q => simpa [hb] using h
    | again t =>
      rw [hb] at h
      exact ih h (by omega)

theorem yields_stop {r : ρ} (h : body s = .stop r) : Yields body s r :=
  ⟨1, by simp [run, h]⟩

theorem yields_again {t : σ} {r : ρ} (h : body s = .again t) (k : Yields body t r) :
    Yields body s r := by
  obtain ⟨n, hn⟩ := k
  exact ⟨n + 1, by simp [run, h, hn]⟩

theorem run_invariant {I : σ → Prop} {Q : ρ → Prop} (hagain : ∀ s t, I s → body s = .again t → I t)
    (hstop : ∀ s r, I s → body s = .stop r → Q r) {n : ℕ} {r : ρ} (hs : I s)
    (h : run body n s = some r) : Q r := by
  induction n generalizing s with
  | zero => simp [run] at h
  | succ n ih =>
    simp only [run] at h
    cases hb : body s with
    | stop q =>
      rw [hb] at h
      exact Option.some.inj h ▸ hstop s q hs hb
    | again t =>
      rw [hb] at h
      exact ih (hagain s t hs hb) h

/-- With any sufficient budget a computation comes to the same result. -/
theorem eq_of_enough {f : ℕ → Option ρ} {r r' : ρ} (h : ∃ k, ∀ n, k ≤ n → f n = some r)
    (h' : ∃ k, ∀ n, k ≤ n → f n = some r') : r = r' := by
  obtain ⟨k, hk⟩ := h
  obtain ⟨m, hm⟩ := h'
  exact Option.some.inj ((hk _ (le_max_left k m)).symm.trans (hm _ (le_max_right k m)))

theorem Yields.unique {r r' : ρ} (h : Yields body s r) (h' : Yields body s r') :
    r = r' := by
  obtain ⟨n, hn⟩ := h
  obtain ⟨m, hm⟩ := h'
  exact eq_of_enough ⟨n, fun _ => run_mono hn⟩ ⟨m, fun _ => run_mono hm⟩

theorem yields_iff_of_again {t : σ} (h : body s = .again t) (r : ρ) :
    Yields body s r ↔ Yields body t r := by
  refine ⟨?_, yields_again h⟩
  rintro ⟨n, hn⟩
  cases n with
  | zero => cases hn
  | succ n =>
    rw [run, h] at hn
    exact ⟨n, hn⟩

def Reaches (body : σ → Turn σ ρ) : σ → σ → Prop :=
  Relation.ReflTransGen fun s t => body s = .again t

def Halts (body : σ → Turn σ ρ) (s : σ) : Prop := ∃ r, Yields body s r

theorem halts_iff_run :
    Halts body s ↔ ∃ k, ∀ fuel, k ≤ fuel → (run body fuel s).isSome := by
  constructor
  · rintro ⟨r, k, hk⟩
    refine ⟨k, fun fuel hfuel => ?_⟩
    rw [run_mono hk hfuel]
    rfl
  · rintro ⟨k, hk⟩
    obtain ⟨r, hr⟩ := Option.isSome_iff_exists.mp (hk k le_rfl)
    exact ⟨r, k, hr⟩

theorem halts_of_measure {I : σ → Prop} (μ : σ → ℕ)
    (hdec : ∀ s t, I s → body s = .again t → I t ∧ μ t < μ s) (hs : I s) :
    Halts body s := by
  induction hn : μ s using Nat.strong_induction_on generalizing s with
  | _ n ih =>
    cases hb : body s with
    | stop r => exact ⟨r, yields_stop hb⟩
    | again t =>
      obtain ⟨ht, hlt⟩ := hdec s t hs hb
      obtain ⟨r, hr⟩ := ih (μ t) (hn ▸ hlt) ht rfl
      exact ⟨r, yields_again hb hr⟩

theorem Reaches.yields_iff {t : σ} (h : Reaches body s t) (r : ρ) :
    Yields body s r ↔ Yields body t r := by
  induction h with
  | refl => exact Iff.rfl
  | tail _ hturn ih => exact ih.trans (yields_iff_of_again hturn r)

theorem not_yields_of_invariant {I : σ → Prop} (hagain : ∀ s, I s → ∃ t, body s = .again t ∧ I t)
    (hs : I s) (r : ρ) :
    ¬ Yields body s r := by
  rintro ⟨n, hn⟩
  induction n generalizing s with
  | zero => cases hn
  | succ n ih =>
    obtain ⟨t, hturn, ht⟩ := hagain s hs
    rw [run, hturn] at hn
    exact ih ht hn

theorem not_yields_of_cycle {t : σ} (hturn : body s = .again t) (hback : Reaches body t s) (r : ρ) :
    ¬ Yields body s r := by
  refine not_yields_of_invariant (fun u hu => ?_) (I := fun u => Reaches body u s)
    Relation.ReflTransGen.refl r
  rcases Relation.ReflTransGen.cases_head hu with rfl | ⟨v, hv, hrest⟩
  · exact ⟨t, hturn, hback⟩
  · exact ⟨v, hv, hrest⟩

end BoundedLoop
