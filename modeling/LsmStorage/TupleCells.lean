import LsmStorage.HashGroupBy
import LsmStorage.Int32Range

/-! # Tuples made of tuples

`CompositeTuple` and `JoinedTuple` over `ValueListTuple`. Numbers of cells and indices are `int`,
which wraps around here where the source leaves the sum undefined. -/
namespace TupleCells

open HashGroupBy (ValueListTuple)
open Int32Range ResultCode Int32

variable {S V α : Type*}

/-- A list of values has as many specs as cells. -/
inductive Tuple (S V : Type*) where
  | valueList (t : ValueListTuple S V) (aligned : t.specs.length = t.cells.length)
  | composite (tuples : List (Tuple S V))
  | joined (left right : Tuple S V)

namespace Tuple

@[elab_as_elim]
theorem ind {motive : Tuple S V → Prop}
    (valueList : ∀ t aligned, motive (.valueList t aligned))
    (composite : ∀ tuples, (∀ t ∈ tuples, motive t) → motive (.composite tuples))
    (joined : ∀ left right, motive left → motive right → motive (.joined left right)) :
    ∀ t, motive t
  | .valueList t aligned => valueList t aligned
  | .composite tuples => composite tuples fun t _ => ind valueList composite joined t
  | .joined left right =>
    joined left right (ind valueList composite joined left) (ind valueList composite joined right)

def cellNum : Tuple S V → Int32
  | .valueList t _ => ofNat t.cells.length
  | .composite tuples => (tuples.map cellNum).foldl (fun num n => num + n) 0
  | .joined left right => left.cellNum + right.cellNum

mutual

/-- `cell_at` and `spec_at`: the code, and the value where it is set. A read outside of the vector
of a list of values has no value. -/
def fetch (field : ValueListTuple S V → List α) : Tuple S V → Int32 → RC × Option α
  | .valueList t _, index =>
    if index < 0 ∨ index ≥ ofNat t.cells.length then (.notfound, none)
    else (.success, (field t)[index.toNatClampNeg]?)
  | .composite tuples, index => fetchIn field tuples index
  | .joined left right, index =>
    if index ≥ 0 ∧ index < left.cellNum then left.fetch field index
    else if index ≥ left.cellNum ∧ index < left.cellNum + right.cellNum then
      right.fetch field (index - left.cellNum)
    else (.notfound, none)

def fetchIn (field : ValueListTuple S V → List α) : List (Tuple S V) → Int32 → RC × Option α
  | [], _ => (.notfound, none)
  | t :: tuples, index =>
    if index < t.cellNum then t.fetch field index
    else fetchIn field tuples (index - t.cellNum)

end

def cellAt (t : Tuple S V) (index : Int32) : RC × Option V := t.fetch (·.cells) index

def specAt (t : Tuple S V) (index : Int32) : RC × Option S := t.fetch (·.specs) index

def makeFrom (t : Tuple S V) (i : Int32) (valueList : ValueListTuple S V) :
    RC × ValueListTuple S V :=
  if i < t.cellNum then
    let (rc, cell) := t.cellAt i
    if rc ≠ .success then (rc, valueList)
    else
      let (rc, spec) := t.specAt i
      if rc ≠ .success then (rc, valueList)
      else t.makeFrom (i + 1)
        ⟨valueList.cells ++ cell.toList, valueList.specs ++ spec.toList⟩
  else (.success, valueList)
termination_by (t.cellNum.toInt - i.toInt).toNat
decreasing_by
  have hlt := lt_iff_toInt_lt.mp ‹i < t.cellNum›
  have hlo := i.le_toInt
  have hhi := t.cellNum.toInt_lt
  have hone : toInt 1 = 1 := rfl
  rw [toInt_add_of_range (by omega) (by omega)]
  omega

def make (t : Tuple S V) : RC × ValueListTuple S V := t.makeFrom 0 {}

def flatten (field : ValueListTuple S V → List α) : Tuple S V → List α
  | .valueList t _ => field t
  | .composite tuples => (tuples.map (flatten field)).flatten
  | .joined left right => left.flatten field ++ right.flatten field

def cells (t : Tuple S V) : List V := t.flatten (·.cells)

def specs (t : Tuple S V) : List S := t.flatten (·.specs)

end Tuple

open TupleCells.Tuple

def elementAt (l : List α) (index : Int32) : RC × Option α :=
  if 0 ≤ index.toInt ∧ index.toInt < l.length then (.success, l[index.toNatClampNeg]?)
  else (.notfound, none)

/-- The tuple reads like the lists of values below it, one behind the other. -/
structure Flattens (t : Tuple S V) : Prop where
  cellNum : t.cellNum.toInt = t.cells.length
  cellAt : ∀ index, t.cellAt index = elementAt t.cells index
  specAt : ∀ index, t.specAt index = elementAt t.specs index
  make : t.make = (.success, ⟨t.cells, t.specs⟩)

section Fields

def PerCell (field : ValueListTuple S V → List α) : Prop :=
  ∀ t : ValueListTuple S V, t.specs.length = t.cells.length → (field t).length = t.cells.length

theorem perCell_cells : PerCell fun t : ValueListTuple S V => t.cells := fun _ _ => rfl

theorem perCell_specs : PerCell fun t : ValueListTuple S V => t.specs := fun _ h => h

variable {field : ValueListTuple S V → List α} {t : Tuple S V} {tuples : List (Tuple S V)}

theorem length_flatten (hfield : PerCell field) (t : Tuple S V) :
    (t.flatten field).length = t.cells.length := by
  induction t using Tuple.ind with
  | valueList t aligned =>
    rw [cells, flatten, flatten]
    exact hfield t aligned
  | composite tuples ih =>
    rw [cells, flatten, flatten, List.length_flatten, List.length_flatten, List.map_map,
      List.map_map]
    exact congrArg List.sum (List.map_congr_left ih)
  | joined left right ihl ihr =>
    rw [cells, flatten, flatten, List.length_append, List.length_append, ihl, ihr]
    rfl

theorem cells_valueList (t : ValueListTuple S V) (aligned : t.specs.length = t.cells.length) :
    (valueList t aligned).cells = t.cells := by
  rw [cells, flatten]

theorem cells_nil : (composite ([] : List (Tuple S V))).cells = [] := by
  rw [cells, flatten]
  rfl

theorem cells_cons (t : Tuple S V) (tuples : List (Tuple S V)) :
    (composite (t :: tuples)).cells = t.cells ++ (composite tuples).cells := by
  rw [cells, cells, cells, flatten, flatten, List.map_cons, List.flatten_cons]

theorem cells_joined (left right : Tuple S V) :
    (joined left right).cells = left.cells ++ right.cells := by
  rw [cells, flatten]
  rfl

end Fields

section Count

variable {t : Tuple S V} {tuples : List (Tuple S V)}

theorem counts_foldl (ih : ∀ t ∈ tuples, t.cells.length < 2 ^ 31 → Counts t.cellNum t.cells.length)
    {num : Int32} {n : ℕ} (hnum : Counts num n)
    (h : n + (composite tuples).cells.length < 2 ^ 31) :
    Counts ((tuples.map cellNum).foldl (fun num n => num + n) num)
      (n + (composite tuples).cells.length) := by
  induction tuples generalizing num n with
  | nil =>
    rw [cells_nil]
    exact hnum
  | cons t tuples ihl =>
    rw [cells_cons, List.length_append] at h ⊢
    have ht := ih t List.mem_cons_self (by omega)
    rw [← Nat.add_assoc]
    exact ihl (fun u hu => ih u (List.mem_cons_of_mem t hu)) (hnum.add ht (by omega)) (by omega)

theorem counts_cellNum (t : Tuple S V) (h : t.cells.length < 2 ^ 31) :
    Counts t.cellNum t.cells.length := by
  induction t using Tuple.ind with
  | valueList t aligned =>
    rw [cells_valueList] at h ⊢
    rw [cellNum]
    exact counts_ofNat h
  | composite tuples ih =>
    rw [cellNum]
    have hsum := counts_foldl ih counts_zero (by rw [Nat.zero_add]; exact h)
    rwa [Nat.zero_add] at hsum
  | joined left right ihl ihr =>
    rw [cells_joined, List.length_append] at h ⊢
    rw [cellNum]
    exact (ihl (by omega)).add (ihr (by omega)) h

end Count

section Read

variable {field : ValueListTuple S V → List α}

theorem elementAt_append_left {l l' : List α} {index : Int32} (h : index.toInt < l.length) :
    elementAt (l ++ l') index = elementAt l index := by
  rw [elementAt, elementAt, List.length_append]
  by_cases hnn : 0 ≤ index.toInt
  · have hlt : index.toNatClampNeg < l.length := by
      rw [← toNat_toInt]
      omega
    rw [if_pos ⟨hnn, by omega⟩, if_pos ⟨hnn, h⟩, List.getElem?_append_left hlt]
  · rw [if_neg fun hin => hnn hin.1, if_neg fun hin => hnn hin.1]

theorem elementAt_append_right {l l' : List α} {index : Int32} (index' : Int32)
    (h : index.toInt = l.length + index'.toInt) (hnn : 0 ≤ index'.toInt) :
    elementAt (l ++ l') index = elementAt l' index' := by
  have hnat : index.toNatClampNeg = l.length + index'.toNatClampNeg := by
    rw [← toNat_toInt, ← toNat_toInt]
    omega
  rw [elementAt, elementAt, List.length_append, hnat, List.getElem?_append_right (by omega),
    Nat.add_sub_cancel_left]
  by_cases hlt : index'.toInt < l'.length
  · rw [if_pos (by omega), if_pos ⟨hnn, hlt⟩]
  · rw [if_neg (by omega), if_neg fun hin => hlt hin.2]

theorem fetchIn_eq (hfield : PerCell field) {tuples : List (Tuple S V)}
    (ih : ∀ t ∈ tuples, t.cells.length < 2 ^ 31 →
      ∀ index, t.fetch field index = elementAt (t.flatten field) index)
    (h : (composite tuples).cells.length < 2 ^ 31) (index : Int32) :
    fetchIn field tuples index = elementAt ((composite tuples).flatten field) index := by
  induction tuples generalizing index with
  | nil =>
    rw [fetchIn, elementAt, flatten, if_neg]
    rintro ⟨hnn, hlt⟩
    exact absurd hlt (not_lt.mpr hnn)
  | cons t tuples ihl =>
    rw [cells_cons, List.length_append] at h
    have hnum := counts_cellNum t (by omega)
    have hlen := length_flatten hfield t
    rw [fetchIn, flatten, List.map_cons, List.flatten_cons, ← flatten]
    unfold Counts at hnum
    by_cases hlt : index < t.cellNum
    · rw [if_pos hlt, ih t List.mem_cons_self (by omega) index, elementAt_append_left]
      rw [lt_iff_toInt_lt] at hlt
      omega
    · rw [if_neg hlt, ihl (fun u hu => ih u (List.mem_cons_of_mem t hu)) (by omega)]
      rw [lt_iff_toInt_lt] at hlt
      have hhi := index.toInt_lt
      have hsub : (index - t.cellNum).toInt = index.toInt - t.cellNum.toInt :=
        toInt_sub_of_range (by omega) (by omega)
      rw [elementAt_append_right (index - t.cellNum) (by omega) (by omega)]

theorem fetch_eq (hfield : PerCell field) (t : Tuple S V) (h : t.cells.length < 2 ^ 31)
    (index : Int32) : t.fetch field index = elementAt (t.flatten field) index := by
  induction t using Tuple.ind generalizing index with
  | valueList t aligned =>
    rw [cells_valueList] at h
    have hlen : (field t).length = t.cells.length := hfield t aligned
    have hnum : (ofNat t.cells.length).toInt = t.cells.length := counts_ofNat h
    have hzero : toInt 0 = 0 := rfl
    rw [fetch, flatten, elementAt, hlen]
    simp only [ge_iff_le, lt_iff_toInt_lt, le_iff_toInt_le, hnum, hzero]
    by_cases hin : 0 ≤ index.toInt ∧ index.toInt < t.cells.length
    · rw [if_pos hin, if_neg (by omega)]
    · rw [if_neg hin, if_pos (by omega)]
  | composite tuples ih =>
    rw [fetch]
    exact fetchIn_eq hfield ih h index
  | joined left right ihl ihr =>
    rw [cells_joined, List.length_append] at h
    have hleft := counts_cellNum left (by omega)
    have hsum := hleft.add (counts_cellNum right (by omega)) h
    have hlen := length_flatten hfield left
    have hlen' := length_flatten hfield right
    have hzero : toInt 0 = 0 := rfl
    unfold Counts at hleft hsum
    rw [fetch, flatten]
    simp only [ge_iff_le, lt_iff_toInt_lt, le_iff_toInt_le, hleft, hsum, hzero]
    by_cases hl : 0 ≤ index.toInt ∧ index.toInt < left.cells.length
    · rw [if_pos hl, ihl (by omega), elementAt_append_left (by omega)]
    rw [if_neg hl]
    by_cases hr : (left.cells.length : ℤ) ≤ index.toInt ∧
        index.toInt < (left.cells.length + right.cells.length : ℕ)
    · have hhi := index.toInt_lt
      have hsub : (index - left.cellNum).toInt = index.toInt - left.cellNum.toInt :=
        toInt_sub_of_range (by omega) (by omega)
      rw [if_pos hr, ihr (by omega),
        elementAt_append_right (index - left.cellNum) (by omega) (by omega)]
    · rw [if_neg hr, elementAt, if_neg]
      rw [List.length_append]
      omega

end Read

section Make

variable {t : Tuple S V}

theorem makeFrom_eq (hlt : t.cells.length < 2 ^ 31) {i : Int32} {n : ℕ} (hi : Counts i n)
    (hle : n ≤ t.cells.length) :
    t.makeFrom i ⟨t.cells.take n, t.specs.take n⟩ = (.success, ⟨t.cells, t.specs⟩) := by
  have hspecs : t.specs.length = t.cells.length := length_flatten perCell_specs t
  induction hleft : t.cells.length - n generalizing i n with
  | zero =>
    have hdone : ¬ i < t.cellNum := by
      rw [hi.lt_iff (counts_cellNum t hlt)]
      omega
    rw [makeFrom, if_neg hdone, List.take_of_length_le (by omega),
      List.take_of_length_le (by omega)]
  | succ left ih =>
    have hmore : i < t.cellNum := by
      rw [hi.lt_iff (counts_cellNum t hlt)]
      omega
    have hin : n < t.cells.length := by omega
    have hval : i.toInt = n := hi
    have hcell : t.cellAt i = (.success, t.cells[n]?) := by
      rw [cellAt, fetch_eq perCell_cells t hlt, elementAt, hi.toNat]
      exact if_pos ⟨by omega, by show i.toInt < t.cells.length; omega⟩
    have hspec : t.specAt i = (.success, t.specs[n]?) := by
      rw [specAt, fetch_eq perCell_specs t hlt, elementAt, hi.toNat]
      exact if_pos ⟨by omega, by show i.toInt < t.specs.length; omega⟩
    rw [makeFrom, if_pos hmore, hcell, hspec]
    dsimp only
    rw [if_neg (by decide), if_neg (by decide), ← List.take_add_one, ← List.take_add_one]
    exact ih (hi.add (n := 1) rfl (by omega)) hin (by omega)

theorem make_eq (hlt : t.cells.length < 2 ^ 31) : t.make = (.success, ⟨t.cells, t.specs⟩) :=
  makeFrom_eq hlt counts_zero (Nat.zero_le _)

end Make

/-- The lists are read back exactly where an `int` can count the cells. -/
theorem tuple_flattens_iff (t : Tuple S V) : Flattens t ↔ t.cells.length < 2 ^ 31 := by
  constructor
  · intro h
    have hnum := h.cellNum
    have hhi := t.cellNum.toInt_lt
    omega
  · intro h
    exact ⟨counts_cellNum t h, fetch_eq perCell_cells t h, fetch_eq perCell_specs t h, make_eq h⟩

section SelfJoin

def selfJoin : ℕ → Tuple S V → Tuple S V
  | 0, t => t
  | n + 1, t => .joined (selfJoin n t) (selfJoin n t)

theorem length_cells_selfJoin (n : ℕ) (t : Tuple S V) :
    (selfJoin n t).cells.length = 2 ^ n * t.cells.length := by
  induction n with
  | zero => rw [selfJoin, Nat.pow_zero, Nat.one_mul]
  | succ n ih =>
    rw [selfJoin, cells_joined, List.length_append, ih, Nat.pow_succ, Nat.mul_right_comm,
      Nat.mul_two]

/-- One cell, joined with itself 31 times, is more than an `int` counts. -/
theorem selfJoin_overflows :
    ¬ Flattens (selfJoin 31 (.valueList ⟨[0], ["a"]⟩ rfl) : Tuple String ℕ) := by
  intro h
  have hnum := h.cellNum
  have hhi := (selfJoin 31 (.valueList ⟨[0], ["a"]⟩ rfl) : Tuple String ℕ).cellNum.toInt_lt
  rw [length_cells_selfJoin, cells_valueList] at hnum
  rw [hnum] at hhi
  exact absurd hhi (by decide)

end SelfJoin

section Groups

variable {leaves : List {t : ValueListTuple S V // t.specs.length = t.cells.length}}

theorem flatten_leaves (field : ValueListTuple S V → List α) :
    (composite (leaves.map fun t => valueList t.1 t.2)).flatten field =
      (leaves.map Subtype.val).flatMap field := by
  rw [flatten, List.flatMap_map, List.map_map, List.flatMap_def]
  congr 1
  refine List.map_congr_left fun t _ => ?_
  rw [Function.comp_apply, flatten]

/-- The composite tuple of a group is copied as `HashGroupBy.read` says. -/
theorem make_composite (h : (HashGroupBy.read (leaves.map Subtype.val)).cells.length < 2 ^ 31) :
    (composite (leaves.map fun t => valueList t.1 t.2)).make =
      (.success, HashGroupBy.read (leaves.map Subtype.val)) := by
  have hcells : (composite (leaves.map fun t => valueList t.1 t.2)).cells =
      (HashGroupBy.read (leaves.map Subtype.val)).cells := flatten_leaves _
  have hspecs : (composite (leaves.map fun t => valueList t.1 t.2)).specs =
      (HashGroupBy.read (leaves.map Subtype.val)).specs := flatten_leaves _
  rw [make_eq (by rw [hcells]; exact h), hcells, hspecs]

end Groups

end TupleCells
