import Mathlib.Data.List.Infix
import Mathlib.Data.List.Induction

/-! # Properties of every state of a run

A machine takes one call after another. A property holds throughout a run when it holds at the
start and after every call; a condition on the calls holds throughout a run when every call meets
it in the state it is made in. -/
namespace RunInvariant

variable {σ α : Type*} {step : σ → α → σ} {start : σ} {calls : List α}

def Always (step : σ → α → σ) (P : σ → Prop) (start : σ) (calls : List α) : Prop :=
  ∀ front, front <+: calls → P (front.foldl step start)

def Each (step : σ → α → σ) (Ok : σ → α → Prop) (start : σ) (calls : List α) : Prop :=
  ∀ front call, front ++ [call] <+: calls → Ok (front.foldl step start) call

theorem always_of_each {P : σ → Prop} (Ok : σ → α → Prop) (hstart : P start)
    (hstep : ∀ s call, P s → Ok s call → P (step s call)) (h : Each step Ok start calls) :
    Always step P start calls := by
  intro front
  induction front using List.reverseRecOn with
  | nil => exact fun _ => hstart
  | append_singleton front call ih =>
    intro hpre
    rw [List.foldl_concat]
    exact hstep _ call (ih ((List.prefix_append _ _).trans hpre)) (h front call hpre)

theorem always_of_step {P : σ → Prop} (hstart : P start)
    (hstep : ∀ s call, P s → P (step s call)) : Always step P start calls :=
  always_of_each (fun _ _ => True) hstart (fun s call h _ => hstep s call h) fun _ _ _ => trivial

/-- Where a call does its part and keeps the property exactly when it meets a condition, all calls
of a run do their part and the property holds throughout exactly when every call meets it. -/
theorem each_and_always_iff {Inv P : σ → Prop} {Admissible Right Ok : σ → α → Prop}
    (hinv : Always step Inv start calls) (hadmissible : Each step Admissible start calls)
    (hstart : P start)
    (hstep : ∀ s call, Inv s → Admissible s call → P s →
      (Right s call ∧ P (step s call) ↔ Ok s call)) :
    (Each step Right start calls ∧ Always step P start calls) ↔ Each step Ok start calls := by
  constructor
  · rintro ⟨hright, h⟩ front call hpre
    have hfront : front <+: calls := (List.prefix_append _ _).trans hpre
    have hafter := h _ hpre
    rw [List.foldl_concat] at hafter
    exact (hstep _ call (hinv front hfront) (hadmissible front call hpre)
      (h front hfront)).mp ⟨hright front call hpre, hafter⟩
  · intro h
    have halways : Always step P start calls := by
      refine always_of_each (fun s call => Inv s ∧ Admissible s call ∧ Ok s call) hstart ?_ ?_
      · rintro s call hP ⟨hs, hcall, hok⟩
        exact ((hstep s call hs hcall hP).mpr hok).2
      · intro front call hpre
        exact ⟨hinv front ((List.prefix_append _ _).trans hpre),
          hadmissible front call hpre, h front call hpre⟩
    refine ⟨fun front call hpre => ?_, halways⟩
    have hfront : front <+: calls := (List.prefix_append _ _).trans hpre
    exact ((hstep _ call (hinv front hfront) (hadmissible front call hpre)
      (halways front hfront)).mpr (h front call hpre)).1

theorem always_true : Always step (fun _ => True) start calls := fun _ _ => trivial

theorem each_true : Each step (fun _ _ => True) start calls := fun _ _ _ => trivial

theorem always_iff_each {Inv P : σ → Prop} {Admissible Ok : σ → α → Prop}
    (hinv : Always step Inv start calls) (hadmissible : Each step Admissible start calls)
    (hstart : P start)
    (hstep : ∀ s call, Inv s → Admissible s call → P s → (P (step s call) ↔ Ok s call)) :
    Always step P start calls ↔ Each step Ok start calls :=
  (and_iff_right each_true).symm.trans (each_and_always_iff hinv hadmissible hstart
    fun s call hs hcall hP => (and_iff_right trivial).trans (hstep s call hs hcall hP))

section Lists

variable {P : σ → Prop} {Ok : σ → α → Prop} {call : α}

theorem each_nil : Each step Ok start [] := by
  intro front call hpre
  simp at hpre

theorem each_cons :
    Each step Ok start (call :: calls) ↔ Ok start call ∧ Each step Ok (step start call) calls := by
  constructor
  · intro h
    exact ⟨h [] call (List.cons_prefix_cons.mpr ⟨rfl, List.nil_prefix⟩), fun front next hfront =>
      h (call :: front) next (List.cons_prefix_cons.mpr ⟨rfl, hfront⟩)⟩
  · rintro ⟨hcall, h⟩ front next hpre
    cases front with
    | nil =>
      obtain ⟨rfl, -⟩ := List.cons_prefix_cons.mp hpre
      exact hcall
    | cons first front =>
      obtain ⟨rfl, hfront⟩ := List.cons_prefix_cons.mp hpre
      exact h front next hfront

instance decidableEach [∀ s call, Decidable (Ok s call)] :
    ∀ (start : σ) (calls : List α), Decidable (Each step Ok start calls)
  | _, [] => isTrue each_nil
  | start, call :: calls =>
    have := decidableEach (step start call) calls
    decidable_of_iff _ each_cons.symm

end Lists

end RunInvariant
