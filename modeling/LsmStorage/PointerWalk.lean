import LsmStorage.BoundedLoop
import Mathlib.Data.Fintype.Card
import Mathlib.Data.Set.Finite.Basic
import Mathlib.Order.WellFounded

/-! # Walks along pointers

`next` says where the pointer at a place leads, if anywhere. A walk is the only one from its
start, so with finitely many places to lead to it either ends or gets into a cycle. A loop
that follows the pointers halts exactly when its walk ends. -/
namespace PointerWalk

open Relation BoundedLoop ReflTransGen

variable {α : Type*} {next : α → Option α}

def Leads (next : α → Option α) (a b : α) : Prop := next a = some b

def Meets (next : α → Option α) : α → α → Prop := ReflTransGen (Leads next)

def Ends (next : α → Option α) (a : α) : Prop := ∃ b, Meets next a b ∧ next b = none

def Cyclic (next : α → Option α) (a : α) : Prop :=
  ∃ b, Meets next a b ∧ TransGen (Leads next) b b

theorem leads_rightUnique (next : α → Option α) : Relator.RightUnique (Leads next) := by
  intro a b c hb hc
  exact Option.some.inj (hb.symm.trans hc)

theorem eq_of_meets {a b : α} (h : Meets next a b) (ha : next a = none) : b = a := by
  rcases cases_head h with rfl | ⟨c, hc, -⟩
  · rfl
  · cases ha.symm.trans hc

theorem ends_of_leads {a b : α} (h : next a = some b) : Ends next a ↔ Ends next b := by
  constructor
  · rintro ⟨c, hc, hnone⟩
    rcases cases_head hc with rfl | ⟨d, hd, hrest⟩
    · cases hnone.symm.trans h
    · cases hd.symm.trans h
      exact ⟨c, hrest, hnone⟩
  · rintro ⟨c, hc, hnone⟩
    exact ⟨c, head h hc, hnone⟩

theorem forall_meets_iff {P : α → Prop} {a : α} :
    (∀ b, Meets next a b → P b) ↔ P a ∧ ∀ c, next a = some c → ∀ b, Meets next c b → P b := by
  constructor
  · intro h
    exact ⟨h a refl, fun c hc b hb => h b (head hc hb)⟩
  · rintro ⟨ha, hrest⟩ b hb
    rcases cases_head hb with rfl | ⟨c, hc, hcb⟩
    · exact ha
    · exact hrest c hc b hcb

theorem transGen_self_of_meets {a b : α} (h : Meets next a b) (ha : TransGen (Leads next) a a) :
    TransGen (Leads next) b b := by
  induction h with
  | refl => exact ha
  | @tail c d _ hcd ih =>
    obtain ⟨e, he, hback⟩ := TransGen.head'_iff.mp ih
    cases he.symm.trans hcd
    exact TransGen.tail' hback hcd

theorem not_cyclic_of_ends {a : α} (h : Ends next a) : ¬ Cyclic next a := by
  rintro ⟨c, hc, hcycle⟩
  obtain ⟨b, hb, hnone⟩ := h
  have hloop : TransGen (Leads next) b b := by
    rcases total_of_right_unique (leads_rightUnique next) hb hc with hbc | hcb
    · exact eq_of_meets hbc hnone ▸ hcycle
    · exact transGen_self_of_meets hcb hcycle
  obtain ⟨d, hd, -⟩ := TransGen.head'_iff.mp hloop
  cases hnone.symm.trans hd

/-- Without a cycle the places behind the start are well-founded, as they are finite in
number. -/
theorem ends_of_not_cyclic {a : α} (hfin : {b | ∃ c, next c = some b}.Finite)
    (h : ¬ Cyclic next a) : Ends next a := by
  let Met := {b // Meets next a b}
  let After : Met → Met → Prop := fun c b => TransGen (Leads next) b.1 c.1
  have hmet : {b | Meets next a b}.Finite := by
    refine (hfin.insert a).subset ?_
    intro b hb
    rcases cases_tail hb with rfl | ⟨c, -, hc⟩
    · exact Set.mem_insert _ _
    · exact Set.mem_insert_of_mem _ ⟨c, hc⟩
  have : Finite Met := hmet
  have : IsTrans Met After := ⟨fun _ _ _ hcb hba => TransGen.trans hba hcb⟩
  have : Std.Irrefl After := ⟨fun b hb => h ⟨b.1, b.2, hb⟩⟩
  have hwf : WellFounded After := Finite.wellFounded_of_trans_of_irrefl After
  have hall : ∀ b : Met, Ends next b.1 := by
    intro b
    induction b using hwf.induction with
    | _ b ih =>
      cases hb : next b.1 with
      | none => exact ⟨b.1, refl, hb⟩
      | some c =>
        have hc : Meets next a c := tail b.2 hb
        exact (ends_of_leads hb).mpr (ih ⟨c, hc⟩ (TransGen.single hb))
  exact hall ⟨a, refl⟩

theorem ends_iff_not_cyclic {a : α} (hfin : {b | ∃ c, next c = some b}.Finite) :
    Ends next a ↔ ¬ Cyclic next a :=
  ⟨not_cyclic_of_ends, ends_of_not_cyclic hfin⟩

section Loops

variable {σ ρ : Type*} {body : σ → Turn σ ρ} {place : σ → α}

/-- The loop goes round exactly when the pointer at its place leads on, and then to there. -/
structure Follows (body : σ → Turn σ ρ) (place : σ → α) (next : α → Option α) : Prop where
  again : ∀ s t, body s = .again t → next (place s) = some (place t)
  stop : ∀ s r, body s = .stop r → next (place s) = none

theorem Follows.of_turns
    (h : ∀ s, (∃ r, body s = .stop r ∧ next (place s) = none) ∨
      ∃ t, body s = .again t ∧ next (place s) = some (place t)) : Follows body place next := by
  constructor
  · intro s t hturn
    rcases h s with ⟨r, hr, -⟩ | ⟨u, hu, hnext⟩
    · cases hturn.symm.trans hr
    · cases hturn.symm.trans hu
      exact hnext
  · intro s r hturn
    rcases h s with ⟨q, -, hnone⟩ | ⟨u, hu, -⟩
    · exact hnone
    · cases hturn.symm.trans hu

theorem Follows.halts_iff (h : Follows body place next) (s : σ) :
    Halts body s ↔ Ends next (place s) := by
  constructor
  · rintro ⟨r, n, hn⟩
    induction n generalizing s with
    | zero => cases hn
    | succ n ih =>
      rw [run] at hn
      cases hb : body s with
      | stop q => exact ⟨place s, refl, h.stop s q hb⟩
      | again t =>
        rw [hb] at hn
        exact (ends_of_leads (h.again s t hb)).mpr (ih t hn)
  · rintro ⟨b, hb, hnone⟩
    generalize ha : place s = a at hb
    induction hb using head_induction_on generalizing s with
    | refl =>
      cases hturn : body s with
      | stop r => exact ⟨r, yields_stop hturn⟩
      | again t => cases (ha ▸ hnone).symm.trans (h.again s t hturn)
    | @head a c hac _ ih =>
      cases hturn : body s with
      | stop r => exact ⟨r, yields_stop hturn⟩
      | again t =>
        cases (ha ▸ h.again s t hturn).symm.trans hac
        obtain ⟨r, hr⟩ := ih t rfl
        exact ⟨r, yields_again hturn hr⟩

theorem Follows.meets_iff (h : Follows body place next) {s : σ} {b : α} :
    Meets next (place s) b ↔ ∃ t, Reaches body s t ∧ place t = b := by
  constructor
  · intro hb
    induction hb with
    | refl => exact ⟨s, refl, rfl⟩
    | @tail c d _ hcd ih =>
      obtain ⟨t, ht, rfl⟩ := ih
      cases hturn : body t with
      | stop r => cases (h.stop t r hturn).symm.trans hcd
      | again u =>
        cases (h.again t u hturn).symm.trans hcd
        exact ⟨u, tail ht hturn, rfl⟩
  · rintro ⟨t, ht, rfl⟩
    induction ht with
    | refl => exact refl
    | tail _ hturn ih => exact tail ih (h.again _ _ hturn)

end Loops

end PointerWalk
