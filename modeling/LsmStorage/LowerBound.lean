import LsmStorage.BoundedLoop
import Mathlib.Algebra.Order.Ring.Int
import Mathlib.Data.List.Basic

/-! # common::lower_bound

A binary search that leaves its loop as soon as it meets the value. Iterators are positions in the
sequence. The comparator tells by the sign of its result; what is searched for need not be of the
type of the elements. -/
namespace LowerBound

open BoundedLoop

variable {α τ : Type*}

/-- The loop over `first` and `last_count`. It ends with `first` and `found`; `none` is an iterator
that is followed where there is no element. -/
def searchTurn (comp : α → τ → ℤ) (l : List α) (val : τ) :
    ℕ × ℕ → Turn (ℕ × ℕ) (Option (ℕ × Bool))
  | (first, lastCount) =>
    if lastCount > 0 then
      let step := lastCount / 2
      let iter := first + step
      match l[iter]? with
      | none => .stop none
      | some element =>
        let result := comp element val
        if 0 = result then .stop (some (iter, true))
        else if result < 0 then .again (iter + 1, lastCount - (step + 1))
        else .again (first, step)
    else .stop (some (first, false))

def Returns (comp : α → τ → ℤ) (l : List α) (val : τ) (iter : ℕ) (found : Bool) : Prop :=
  Yields (searchTurn comp l val) (0, l.length) (some (iter, found))

section Search

def Splits (comp : α → τ → ℤ) (l : List α) (val : τ) : Prop :=
  l.Pairwise fun a b => 0 ≤ comp a val → 0 < comp b val

structure Brackets (comp : α → τ → ℤ) (l : List α) (val : τ) (s : ℕ × ℕ) : Prop where
  bound : s.1 + s.2 ≤ l.length
  before : ∀ i a, l[i]? = some a → i < s.1 → comp a val < 0
  behind : ∀ i a, l[i]? = some a → s.1 + s.2 ≤ i → 0 < comp a val

/-- The position of the first element that is not less than the value, and whether one is equal. -/
structure Finds (comp : α → τ → ℤ) (l : List α) (val : τ) (iter : ℕ) (found : Bool) : Prop where
  position : iter = l.findIdx fun a => decide (0 ≤ comp a val)
  found : found = true ↔ ∃ a ∈ l, comp a val = 0

variable {comp : α → τ → ℤ} {l : List α} {val : τ} {s t : ℕ × ℕ}

theorem brackets_all : Brackets comp l val (0, l.length) := by
  constructor
  · exact (Nat.zero_add _).le
  · intro i a ha hi
    exact absurd hi (Nat.not_lt_zero i)
  · intro i a ha hi
    have hlt := (List.getElem?_eq_some_iff.mp ha).1
    dsimp only at hi
    omega

theorem Splits.lt (h : Splits comp l val) {i j : ℕ} {a b : α} (ha : l[i]? = some a)
    (hb : l[j]? = some b) (hij : i < j) (hge : 0 ≤ comp a val) : 0 < comp b val := by
  obtain ⟨hi, rfl⟩ := List.getElem?_eq_some_iff.mp ha
  obtain ⟨hj, rfl⟩ := List.getElem?_eq_some_iff.mp hb
  exact List.pairwise_iff_getElem.mp h i j hi hj hij hge

theorem Splits.before (h : Splits comp l val) {i j : ℕ} {a b : α} (ha : l[i]? = some a)
    (hb : l[j]? = some b) (hij : i < j) (hle : comp b val ≤ 0) : comp a val < 0 := by
  by_contra hge
  have hlt := h.lt ha hb hij (Int.not_lt.mp hge)
  omega

theorem findIdx_eq {p : α → Bool} {iter : ℕ} (hle : iter ≤ l.length)
    (hbefore : ∀ i a, l[i]? = some a → i < iter → p a = false)
    (hat : ∀ a, l[iter]? = some a → p a = true) : iter = l.findIdx p := by
  rcases hle.lt_or_eq with hlt | rfl
  · symm
    rw [List.findIdx_eq hlt]
    constructor
    · exact hat _ (List.getElem?_eq_getElem hlt)
    · intro j hj
      exact hbefore j _ (List.getElem?_eq_getElem (hj.trans hlt)) hj
  · symm
    apply List.findIdx_eq_length.mpr
    intro a ha
    obtain ⟨i, hi, rfl⟩ := List.getElem_of_mem ha
    exact hbefore i _ (List.getElem?_eq_getElem hi) hi

theorem Splits.finds_met (h : Splits comp l val) {iter : ℕ} {a : α} (ha : l[iter]? = some a)
    (heq : comp a val = 0) : Finds comp l val iter true := by
  constructor
  · apply findIdx_eq (List.getElem?_eq_some_iff.mp ha).1.le
    · intro i b hb hi
      have hless := h.before hb ha hi heq.le
      exact decide_eq_false (by omega)
    · intro b hb
      cases hb.symm.trans ha
      exact decide_eq_true heq.ge
  · exact ⟨fun _ => ⟨a, List.mem_of_getElem? ha, heq⟩, fun _ => rfl⟩

theorem Brackets.finds_none {first : ℕ} (h : Brackets comp l val (first, 0)) :
    Finds comp l val first false := by
  constructor
  · apply findIdx_eq h.bound
    · intro i a ha hi
      have hless := h.before i a ha hi
      exact decide_eq_false (by omega)
    · intro a ha
      exact decide_eq_true (h.behind first a ha le_rfl).le
  · constructor
    · intro hfalse
      cases hfalse
    · rintro ⟨a, ha, heq⟩
      obtain ⟨i, hi, rfl⟩ := List.getElem_of_mem ha
      have hget := List.getElem?_eq_getElem hi
      rcases Nat.lt_or_ge i first with hlt | hge
      · have hless := h.before i _ hget hlt
        omega
      · have hgreater := h.behind i _ hget hge
        omega

section Halves

variable {first lastCount step : ℕ} {a : α}

theorem Brackets.behind_less (h : Brackets comp l val (first, lastCount))
    (hsplits : Splits comp l val) (hstep : step < lastCount) (hget : l[first + step]? = some a)
    (hless : comp a val < 0) :
    Brackets comp l val (first + step + 1, lastCount - (step + 1)) := by
  have hbound : first + lastCount ≤ l.length := h.bound
  constructor
  · dsimp only
    omega
  · intro i b hb hi
    rcases Nat.lt_or_eq_of_le (Nat.lt_succ_iff.mp hi) with hi | rfl
    · exact hsplits.before hb hget hi hless.le
    · cases hget.symm.trans hb
      exact hless
  · intro i b hb hi
    apply h.behind i b hb
    dsimp only at hi ⊢
    omega

theorem Brackets.before_greater (h : Brackets comp l val (first, lastCount))
    (hsplits : Splits comp l val) (hget : l[first + step]? = some a) (hgreater : 0 < comp a val) :
    Brackets comp l val (first, step) := by
  constructor
  · exact (List.getElem?_eq_some_iff.mp hget).1.le
  · exact h.before
  · intro i b hb hi
    rcases Nat.lt_or_eq_of_le hi with hi | rfl
    · exact hsplits.lt hget hb hi hgreater.le
    · cases hget.symm.trans hb
      exact hgreater

end Halves

theorem Brackets.turn (h : Brackets comp l val s) (hsplits : Splits comp l val) :
    (∃ t, searchTurn comp l val s = .again t ∧ Brackets comp l val t ∧ t.2 < s.2) ∨
      ∃ iter found, searchTurn comp l val s = .stop (some (iter, found)) ∧
        Finds comp l val iter found := by
  obtain ⟨first, lastCount⟩ := s
  by_cases hpos : lastCount > 0
  · have hbound : first + lastCount ≤ l.length := h.bound
    have hstep : lastCount / 2 < lastCount := by omega
    have hget := List.getElem?_eq_getElem (show first + lastCount / 2 < l.length by omega)
    simp only [searchTurn, hpos, if_true, hget]
    rcases Int.lt_trichotomy (comp l[first + lastCount / 2] val) 0 with hless | heq | hgreater
    · left
      rw [if_neg (by omega), if_pos hless]
      exact ⟨_, rfl, h.behind_less hsplits hstep hget hless, by dsimp only; omega⟩
    · right
      rw [if_pos heq.symm]
      exact ⟨_, _, rfl, hsplits.finds_met hget heq⟩
    · left
      rw [if_neg (by omega), if_neg (by omega)]
      exact ⟨_, rfl, h.before_greater hsplits hget hgreater, hstep⟩
  · right
    obtain rfl : lastCount = 0 := by omega
    exact ⟨first, false, rfl, h.finds_none⟩

theorem Brackets.yields (h : Brackets comp l val s) (hsplits : Splits comp l val) :
    ∃ iter found, Yields (searchTurn comp l val) s (some (iter, found)) ∧
      Finds comp l val iter found := by
  -- by induction on the length of the interval
  induction hn : s.2 using Nat.strong_induction_on generalizing s with
  | _ n ih =>
    rcases h.turn hsplits with ⟨t, hagain, ht, hlt⟩ | ⟨iter, found, hstop, hfinds⟩
    · obtain ⟨iter, found, hyields, hfinds⟩ := ih t.2 (hn ▸ hlt) ht rfl
      exact ⟨iter, found, yields_again hagain hyields, hfinds⟩
    · exact ⟨iter, found, yields_stop hstop, hfinds⟩

end Search

section TotalOrder

variable [LinearOrder α]

structure Consistent (comp : α → α → ℤ) : Prop where
  less : ∀ a b, comp a b < 0 ↔ a < b
  equal : ∀ a b, comp a b = 0 ↔ a = b

variable {comp : α → α → ℤ}

theorem Consistent.not_less (h : Consistent comp) (a b : α) : 0 ≤ comp a b ↔ b ≤ a := by
  rw [← Int.not_lt, h.less, not_lt]

theorem Consistent.greater (h : Consistent comp) (a b : α) : 0 < comp a b ↔ b < a := by
  have hless := h.less a b
  have hequal := h.equal a b
  constructor
  · intro hpos
    apply lt_of_le_of_ne ((h.not_less a b).mp hpos.le)
    intro heq
    have hzero := hequal.mpr heq.symm
    omega
  · intro hlt
    have hne : comp a b ≠ 0 := fun hzero => hlt.ne' (hequal.mp hzero)
    have hge := (h.not_less a b).mpr hlt.le
    omega

theorem Consistent.splits (h : Consistent comp) {l : List α}
    (hincreasing : l.Pairwise fun a b => comp a b < 0) (val : α) : Splits comp l val := by
  apply hincreasing.imp
  intro a b hab hge
  exact (h.greater b val).mpr (((h.not_less a val).mp hge).trans_lt ((h.less a b).mp hab))

/-- The search is right for every strictly increasing sequence and every value. -/
theorem lower_bound_correct (comp : α → α → ℤ) (hcomp : Consistent comp) (l : List α)
    (hincreasing : l.Pairwise fun a b => comp a b < 0) (val : α) :
    Returns comp l val (l.findIdx fun a => decide (val ≤ a)) (decide (val ∈ l)) := by
  obtain ⟨iter, found, hyields, hfinds⟩ := brackets_all.yields (hcomp.splits hincreasing val)
  have hposition : iter = l.findIdx fun a => decide (val ≤ a) := by
    rw [hfinds.position]
    congr 1
    funext a
    exact decide_eq_decide.mpr (hcomp.not_less a val)
  have hfound : found = decide (val ∈ l) := by
    rw [Bool.eq_iff_iff, hfinds.found, decide_eq_true_iff]
    constructor
    · rintro ⟨a, ha, hzero⟩
      exact (hcomp.equal a val).mp hzero ▸ ha
    · intro hmem
      exact ⟨val, hmem, (hcomp.equal val val).mpr rfl⟩
  rw [← hposition, ← hfound]
  exact hyields

def comparator (v1 v2 : α) : ℤ :=
  if v1 < v2 then -1
  else if v1 > v2 then 1
  else 0

theorem consistent_comparator : Consistent (comparator (α := α)) := by
  constructor
  · intro a b
    unfold comparator
    split_ifs with hlt hgt <;> simp [hlt]
  · intro a b
    unfold comparator
    split_ifs with hlt hgt
    · simp [hlt.ne]
    · simp [hgt.ne']
    · simp [le_antisymm (not_lt.mp hgt) (not_lt.mp hlt)]

end TotalOrder

/-- A value between two elements. -/
theorem lower_bound_between : Returns comparator [1, 3, 5, 7, 9] 4 2 false :=
  lower_bound_correct comparator consistent_comparator [1, 3, 5, 7, 9] (by decide) 4

end LowerBound
