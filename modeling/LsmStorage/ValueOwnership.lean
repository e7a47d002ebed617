import LsmStorage.DdlService
import LsmStorage.ExclusiveOwners
import LsmStorage.RunInvariant
import LsmStorage.SqlExpression

/-! # The memory of a Value

A `Value` has a union with a number or the pointer of a string, and a flag that says whether it owns
what the pointer points to. The flag, the length and the pointer of a copy are set one after the
other: an empty string is not copied, and then the pointer stays what it was. -/
namespace ValueOwnership

open ByteCodec ExclusiveOwners RunInvariant
open DdlService (cString)
open SqlExpression (AttrType)

abbrev Word := BitVec 64

/-- The blocks that have been allocated and not released, under their addresses. -/
abbrev Heap := Word → Option Bytes

/-- The object as it lies in memory; `word` is the union. -/
structure Value where
  attrType : AttrType := .undefined
  length : ℕ := 0
  word : Word := 0
  ownData : Bool := false
  deriving DecidableEq

def Value.Owns (v : Value) : Prop := v.attrType = .chars ∧ v.ownData = true ∧ v.word ≠ 0

instance (v : Value) : Decidable v.Owns :=
  inferInstanceAs (Decidable (v.attrType = .chars ∧ v.ownData = true ∧ v.word ≠ 0))

def writeLow {w : ℕ} (val : BitVec w) (word : Word) : Word := word >>> w <<< w ||| val.setWidth 64

/-- Several objects; `faulted` says that something was released that is no block. -/
structure State (ι : Type*) where
  values : ι → Value := fun _ => {}
  heap : Heap := fun _ => none
  faulted : Bool := false

variable {ι : Type*} [DecidableEq ι]

namespace State

def put (i : ι) (v : Value) (s : State ι) : State ι :=
  { s with values := Function.update s.values i v }

def store (address : Word) (block : Bytes) (s : State ι) : State ι :=
  { s with heap := Function.update s.heap address (some block) }

def release (address : Word) (s : State ι) : State ι :=
  { s with
    heap := Function.update s.heap address none
    faulted := s.faulted || (s.heap address).isNone }

/-- The union is cleared only together with a block. -/
def reset (i : ι) (s : State ι) : State ι :=
  if (s.values i).Owns then (s.release (s.values i).word).put i {}
  else s.put i { word := (s.values i).word }

/-- `set_int`, `set_float` and `set_boolean`: the number is a member of the union. -/
def setNumber {w : ℕ} (attrType : AttrType) (val : BitVec w) (length : ℕ) (i : ι) (s : State ι) :
    State ι :=
  let s := s.reset i
  s.put i { attrType, length, word := writeLow val (s.values i).word }

def setInt (val : BitVec 32) : ι → State ι → State ι := setNumber .ints val 4

def setFloat (bits : BitVec 32) : ι → State ι → State ι := setNumber .floats bits 4

def setBoolean (val : Bool) : ι → State ι → State ι :=
  setNumber .booleans ((BitVec.ofBool val).setWidth 8) 1

def putString (body : Bytes) (address : Word) (i : ι) (s : State ι) : State ι :=
  (s.store address (body ++ [0])).put i
    { attrType := .chars, length := body.length, word := address, ownData := true }

/-- `none` is the null pointer. -/
def setString (str : Option Bytes) (len : ℤ) (address : Word) (i : ι) (s : State ι) : State ι :=
  let s := s.reset i
  match str with
  | none => s.put i { attrType := .chars }
  | some str =>
    s.putString (if 0 < len then (cString str).take len.toNat else cString str) address i

def setEmptyString (len : ℕ) (address : Word) (i : ι) (s : State ι) : State ι :=
  (s.reset i).putString (List.replicate len 0) address i

/-- The pointer is set only where there is something to copy. -/
def setStringFromOther (other : Value) (address : Word) (i : ι) (s : State ι) : State ι :=
  let v := s.values i
  if v.ownData = true ∧ other.word ≠ 0 ∧ v.length ≠ 0 then
    (s.store address (((s.heap other.word).getD []).take v.length ++ [0])).put i
      { v with word := address }
  else s

/-- What the copy constructor and the copy assignment have in common. -/
def copyFrom (j : ι) (address : Word) (i : ι) (s : State ι) : State ι :=
  let other := s.values j
  let v := { other with word := (s.values i).word }
  if other.attrType = .chars then (s.put i v).setStringFromOther other address i
  else s.put i { v with word := other.word }

def copyAssign (j : ι) (address : Word) (i : ι) (s : State ι) : State ι :=
  if i = j then s else (s.reset i).copyFrom j address i

def copyConstruct (j : ι) (address : Word) (i : ι) (s : State ι) : State ι :=
  ((s.reset i).put i {}).copyFrom j address i

/-- What the move constructor and the move assignment have in common. -/
def moveFrom (j i : ι) (s : State ι) : State ι :=
  let other := s.values j
  (s.put i other).put j { other with ownData := false, length := 0 }

def moveAssign (j i : ι) (s : State ι) : State ι :=
  if i = j then s else (s.reset i).moveFrom j i

def moveConstruct (j i : ι) (s : State ι) : State ι := ((s.reset i).put i {}).moveFrom j i

end State

/-- The calls on the object `i`. A constructor is one behind the destructor of what was there. -/
inductive Call (ι : Type*) where
  | reset (i : ι)
  | setInt (i : ι) (val : BitVec 32)
  | setFloat (i : ι) (bits : BitVec 32)
  | setBoolean (i : ι) (val : Bool)
  | setString (i : ι) (str : Option Bytes) (len : ℤ) (address : Word)
  | setEmptyString (i : ι) (len : ℕ) (address : Word)
  | copyAssign (i j : ι) (address : Word)
  | copyConstruct (i j : ι) (address : Word)
  | moveAssign (i j : ι)
  | moveConstruct (i j : ι)

namespace State

def step (s : State ι) : Call ι → State ι
  | .reset i => s.reset i
  | .setInt i val => s.setInt val i
  | .setFloat i bits => s.setFloat bits i
  | .setBoolean i val => s.setBoolean val i
  | .setString i str len address => s.setString str len address i
  | .setEmptyString i len address => s.setEmptyString len address i
  | .copyAssign i j address => s.copyAssign j address i
  | .copyConstruct i j address => s.copyConstruct j address i
  | .moveAssign i j => s.moveAssign j i
  | .moveConstruct i j => s.moveConstruct j i

end State

open State

section Ownership

variable {s : State ι} {i j : ι} {v : Value} {address : Word}

def Value.owned (v : Value) : Option Word := if v.Owns then some v.word else none

/-- Only strings are owned, and a string that is not empty is. -/
structure Value.Formed (v : Value) : Prop where
  string : v.ownData = true → v.attrType = .chars
  bytes : v.attrType = .chars → v.length ≠ 0 → v.Owns

def Value.Filled (heap : Heap) (v : Value) : Prop :=
  ∃ body, heap v.word = some (body ++ [0]) ∧ body.length = v.length

/-- The blocks are those that the objects own, each of them its own, and nothing has been released
twice. -/
structure Sound (s : State ι) : Prop where
  formed : ∀ i, (s.values i).Formed
  filled : ∀ i, (s.values i).Owns → (s.values i).Filled s.heap
  exclusive : Exclusive (fun i => (s.values i).owned) fun p => s.heap p ≠ none
  clean : s.faulted = false

theorem not_owns_of_ownData (h : v.ownData = false) : ¬ v.Owns := by
  rintro ⟨-, hown, -⟩
  rw [h] at hown
  cases hown

theorem formed_of_ownData (hown : v.ownData = false)
    (hempty : v.attrType = .chars → v.length = 0) : v.Formed := by
  refine ⟨fun h => ?_, fun hchars hbytes => absurd (hempty hchars) hbytes⟩
  rw [hown] at h
  cases h

omit [DecidableEq ι] in
theorem sound_new : Sound ({} : State ι) := by
  have hnone : ¬ ({} : Value).Owns := by decide
  refine ⟨fun i => formed_of_ownData rfl fun _ => rfl, fun i h => absurd h hnone, ?_, rfl⟩
  exact exclusive_none (fun i => if_neg hnone) fun p => not_not.mpr rfl

theorem owned_of_owns (h : v.Owns) : v.owned = some v.word := if_pos h

theorem owned_of_not_owns (h : ¬ v.Owns) : v.owned = none := if_neg h

@[simp] theorem values_put_self (i : ι) (v : Value) (s : State ι) : (s.put i v).values i = v :=
  Function.update_self ..

theorem values_put_of_ne (h : j ≠ i) (v : Value) (s : State ι) :
    (s.put i v).values j = s.values j :=
  Function.update_of_ne h ..

theorem owned_put (i : ι) (v : Value) (s : State ι) :
    (fun k => ((s.put i v).values k).owned) =
      Function.update (fun k => (s.values k).owned) i v.owned := by
  funext k
  by_cases hk : k = i
  · rw [hk, values_put_self, Function.update_self]
  · rw [values_put_of_ne hk, Function.update_of_ne hk]

theorem formed_put (h : ∀ k, (s.values k).Formed) (hv : v.Formed) (i k : ι) :
    ((s.put i v).values k).Formed := by
  by_cases hk : k = i
  · rw [hk, values_put_self]
    exact hv
  · rw [values_put_of_ne hk]
    exact h k

theorem Sound.put (h : Sound s) (hi : ¬ (s.values i).Owns) (hformed : v.Formed) (hv : ¬ v.Owns) :
    Sound (s.put i v) := by
  refine ⟨formed_put h.formed hformed i, fun k hk => ?_, ?_, h.clean⟩
  · by_cases hki : k = i
    · rw [hki, values_put_self] at hk
      exact absurd hk hv
    · rw [values_put_of_ne hki] at hk ⊢
      exact h.filled k hk
  · rw [owned_put, owned_of_not_owns hv, ← owned_of_not_owns hi, Function.update_eq_self]
    exact h.exclusive

theorem Sound.putString (h : Sound s) (hi : ¬ (s.values i).Owns) (haddress : address ≠ 0)
    (hfresh : s.heap address = none) (body : Bytes) : Sound (s.putString body address i) := by
  have howns : Value.Owns ⟨.chars, body.length, address, true⟩ := ⟨rfl, rfl, haddress⟩
  refine ⟨?_, fun k hk => ?_, ?_, h.clean⟩
  · exact formed_put h.formed ⟨fun _ => rfl, fun _ _ => howns⟩ i
  · by_cases hki : k = i
    · rw [hki, State.putString, values_put_self]
      exact ⟨body, Function.update_self .., rfl⟩
    · rw [State.putString, values_put_of_ne hki] at hk ⊢
      obtain ⟨old, hold, hlength⟩ := h.filled k hk
      refine ⟨old, ?_, hlength⟩
      have hne : (s.values k).word ≠ address := by
        intro heq
        rw [heq, hfresh] at hold
        cases hold
      exact (Function.update_of_ne hne ..).trans hold
  · rw [State.putString, owned_put, owned_of_owns howns]
    refine h.exclusive.take (owned_of_not_owns hi) (not_not.mpr hfresh) fun q => ?_
    show Function.update s.heap address (some (body ++ [0])) q ≠ none ↔ _
    by_cases hq : q = address
    · rw [hq, Function.update_self]
      exact iff_of_true (Option.some_ne_none _) (.inr rfl)
    · rw [Function.update_of_ne hq, or_iff_left hq]

theorem Sound.reset (h : Sound s) (i : ι) : Sound (s.reset i) := by
  unfold State.reset
  split_ifs with howns
  · have hnone : ¬ ({} : Value).Owns := by decide
    have hself := owned_of_owns howns
    refine ⟨formed_put h.formed (formed_of_ownData rfl fun _ => rfl) i, fun k hk => ?_, ?_, ?_⟩
    · by_cases hki : k = i
      · rw [hki, values_put_self] at hk
        exact absurd hk hnone
      · rw [values_put_of_ne hki] at hk ⊢
        obtain ⟨body, hbody, hlength⟩ := h.filled k hk
        refine ⟨body, (Function.update_of_ne (fun heq => hki ?_) ..).trans hbody, hlength⟩
        exact h.exclusive.unique k i _ ((owned_of_owns hk).trans (congrArg some heq)) hself
    · rw [owned_put, owned_of_not_owns hnone]
      refine h.exclusive.giveUp hself fun q => ?_
      show Function.update s.heap (s.values i).word none q ≠ none ↔ _
      by_cases hq : q = (s.values i).word
      · rw [hq, Function.update_self]
        exact iff_of_false (not_not.mpr rfl) fun hlive => hlive.2 rfl
      · rw [Function.update_of_ne hq, and_iff_left hq]
    · show (s.faulted || (s.heap (s.values i).word).isNone) = false
      rw [h.clean, Bool.false_or, Option.isNone_eq_false_iff, Option.isSome_iff_ne_none]
      exact h.exclusive.live_of i _ hself
  · have hown : ¬ Value.Owns { word := (s.values i).word } := not_owns_of_ownData rfl
    exact h.put howns (formed_of_ownData rfl fun _ => rfl) hown

theorem not_owns_reset (i : ι) (s : State ι) : ¬ ((s.reset i).values i).Owns := by
  unfold State.reset
  split_ifs
  · rw [values_put_self]
    exact not_owns_of_ownData rfl
  · rw [values_put_self]
    exact not_owns_of_ownData rfl

theorem values_reset_of_ne (h : j ≠ i) (s : State ι) : (s.reset i).values j = s.values j := by
  unfold State.reset
  split_ifs
  · exact values_put_of_ne h ..
  · exact values_put_of_ne h ..

theorem Sound.heap_reset (h : Sound s) (hij : j ≠ i) (hj : (s.values j).Owns) :
    (s.reset i).heap (s.values j).word = s.heap (s.values j).word := by
  unfold State.reset
  split_ifs with hi
  · refine Function.update_of_ne (fun heq => hij ?_) ..
    exact h.exclusive.unique j i _ ((owned_of_owns hj).trans (congrArg some heq))
      (owned_of_owns hi)
  · rfl

theorem Sound.foldl_reset (objects : List ι) (h : Sound s) :
    Sound (objects.foldl (fun s i => s.reset i) s) ∧
      ∀ i, (i ∈ objects ∨ ¬ (s.values i).Owns) →
        ¬ ((objects.foldl (fun s i => s.reset i) s).values i).Owns := by
  induction objects generalizing s with
  | nil => exact ⟨h, fun i hi => hi.elim (absurd · List.not_mem_nil) id⟩
  | cons first objects ih =>
    obtain ⟨hsound, hnone⟩ := ih (h.reset first)
    refine ⟨hsound, fun i hi => hnone i ?_⟩
    by_cases hfirst : i = first
    · exact .inr (hfirst ▸ not_owns_reset i s)
    · rw [values_reset_of_ne hfirst]
      exact hi.imp_left fun hmem => (List.mem_cons.mp hmem).resolve_left hfirst

theorem Sound.resets (h : Sound s) {objects : List ι} (hall : ∀ i, i ∈ objects) :
    (objects.foldl (fun s i => s.reset i) s).faulted = false ∧
      ∀ p, (objects.foldl (fun s i => s.reset i) s).heap p = none := by
  obtain ⟨hsound, hnone⟩ := h.foldl_reset objects
  refine ⟨hsound.clean, fun p => not_not.mp ?_⟩
  exact hsound.exclusive.not_live (fun i => owned_of_not_owns (hnone i (.inl (hall i)))) p

theorem Sound.moveFrom (h : Sound s) (hij : i ≠ j) (hi : ¬ (s.values i).Owns) :
    Sound (s.moveFrom j i) := by
  have hleft : ¬ Value.Owns { s.values j with ownData := false, length := 0 } :=
    not_owns_of_ownData rfl
  refine ⟨?_, fun k hk => ?_, ?_, h.clean⟩
  · exact formed_put (formed_put h.formed (h.formed j) i) (formed_of_ownData rfl fun _ => rfl) j
  · unfold State.moveFrom at hk ⊢
    by_cases hkj : k = j
    · rw [hkj, values_put_self] at hk
      exact absurd hk hleft
    · rw [values_put_of_ne hkj] at hk ⊢
      by_cases hki : k = i
      · rw [hki, values_put_self] at hk ⊢
        exact h.filled j hk
      · rw [values_put_of_ne hki] at hk ⊢
        exact h.filled k hk
  · unfold State.moveFrom
    rw [owned_put, owned_put, owned_of_not_owns hleft]
    exact h.exclusive.transfer (owned_of_not_owns hi) hij

end Ownership

section Copies

variable {s t : State ι} {i j : ι} {address : Word}

/-- What `to_string` prints: the bytes up to a NUL, and nothing for the null pointer; `none` where
no block is. -/
def textAt (heap : Heap) (p : Word) : Option Bytes :=
  if p = 0 then some [] else (heap p).map cString

def dataAt (heap : Heap) (p : Word) (n : ℕ) : Option Bytes :=
  if n = 0 then some [] else (heap p).map (·.take n)

inductive Content where
  | number (word : Word)
  | string (data text : Option Bytes)
  deriving DecidableEq

def content (heap : Heap) (v : Value) : Content :=
  if v.attrType = .chars then .string (dataAt heap v.word v.length) (textAt heap v.word)
  else .number v.word

theorem content_of_owns {heap : Heap} {v : Value} {block : Bytes} (howns : v.Owns)
    (hbytes : v.length ≠ 0) (hblock : heap v.word = some block) :
    content heap v = .string (some (block.take v.length)) (some (cString block)) := by
  unfold content dataAt textAt
  rw [if_pos howns.1, if_neg hbytes, if_neg howns.2.2, hblock]
  rfl

structure Copied (s t : State ι) (i j : ι) : Prop where
  attrType : (t.values i).attrType = (s.values j).attrType
  length : (t.values i).length = (s.values j).length
  content : content t.heap (t.values i) = content s.heap (s.values j)

theorem put_store_put (i : ι) (v v' : Value) (address : Word) (block : Bytes) (s : State ι) :
    ((s.put i v).store address block).put i v' = (s.store address block).put i v' := by
  unfold State.put State.store
  dsimp only
  rw [Function.update_idem]

theorem copyFrom_of_number (h : (s.values j).attrType ≠ .chars) :
    s.copyFrom j address i = s.put i (s.values j) :=
  if_neg h

theorem copyFrom_of_empty (hchars : (s.values j).attrType = .chars)
    (hempty : (s.values j).length = 0) :
    s.copyFrom j address i = s.put i { s.values j with word := (s.values i).word } := by
  unfold copyFrom
  dsimp only
  rw [if_pos hchars]
  unfold setStringFromOther
  rw [values_put_self]
  exact if_neg fun h => h.2.2 hempty

theorem copyFrom_of_bytes (howns : (s.values j).Owns) (hbytes : (s.values j).length ≠ 0)
    {body : Bytes} (hblock : s.heap (s.values j).word = some (body ++ [0]))
    (hlength : body.length = (s.values j).length) :
    s.copyFrom j address i = s.putString body address i := by
  have hload : ((s.heap (s.values j).word).getD []).take (s.values j).length = body := by
    rw [hblock, ← hlength]
    exact List.take_left
  unfold copyFrom
  dsimp only
  rw [if_pos howns.1]
  unfold setStringFromOther
  rw [values_put_self]
  dsimp only
  rw [if_pos ⟨howns.2.1, howns.2.2, hbytes⟩, put_store_put]
  show (s.store address (((s.heap (s.values j).word).getD []).take _ ++ [0])).put i _ = _
  rw [hload, howns.1, howns.2.1, ← hlength]
  rfl

/-- Where a string is not copied, what is left over in the union must be right as it is: nothing for
a string that is owned, and otherwise a pointer with the same text. -/
def Leaves (before after : Heap) (leftover : Word) (other : Value) : Prop :=
  other.attrType = .chars → other.length = 0 →
    if other.ownData then leftover = 0 else textAt after leftover = textAt before other.word

omit [DecidableEq ι] in
theorem Sound.textAt_of_empty (h : Sound s) (hchars : (s.values j).attrType = .chars)
    (hown : (s.values j).ownData = true) (hempty : (s.values j).length = 0) :
    textAt s.heap (s.values j).word = some [] := by
  unfold textAt
  split_ifs with hnull
  · rfl
  · obtain ⟨body, hblock, hlength⟩ := h.filled j ⟨hchars, hown, hnull⟩
    rw [hblock, List.length_eq_zero_iff.mp (hlength.trans hempty)]
    rfl

theorem copied_empty_iff {word : Word} (hchars : (s.values j).attrType = .chars)
    (hempty : (s.values j).length = 0) :
    Copied s (t.put i { s.values j with word }) i j ↔
      textAt t.heap word = textAt s.heap (s.values j).word := by
  have hbefore : content s.heap (s.values j) =
      .string (some []) (textAt s.heap (s.values j).word) := by
    unfold content dataAt
    rw [if_pos hchars, if_pos hempty]
  have hafter : content (t.put i { s.values j with word }).heap
      ((t.put i { s.values j with word }).values i) = .string (some []) (textAt t.heap word) := by
    unfold content dataAt
    rw [values_put_self, if_pos hchars, if_pos hempty]
    rfl
  constructor
  · intro h
    have hcontent := h.content
    rw [hbefore, hafter] at hcontent
    exact (Content.string.inj hcontent).2
  · intro htext
    refine ⟨by rw [values_put_self], by rw [values_put_self], ?_⟩
    rw [hbefore, hafter, htext]

theorem copyFrom_empty_iff (hs : Sound s) (ht : Sound t) (hi : ¬ (t.values i).Owns)
    (hj : t.values j = s.values j) (hchars : (s.values j).attrType = .chars)
    (hempty : (s.values j).length = 0) :
    (Copied s (t.copyFrom j address i) i j ∧ Sound (t.copyFrom j address i)) ↔
      if (s.values j).ownData then (t.values i).word = 0
      else textAt t.heap (t.values i).word = textAt s.heap (s.values j).word := by
  rw [copyFrom_of_empty (by rw [hj, hchars]) (by rw [hj, hempty]), hj,
    copied_empty_iff hchars hempty]
  split_ifs with hown
  · constructor
    · rintro ⟨-, hsound⟩
      by_contra hword
      have howns : Value.Owns { s.values j with word := (t.values i).word } :=
        ⟨hchars, hown, hword⟩
      have hexclusive := hsound.exclusive
      rw [owned_put, owned_of_owns howns] at hexclusive
      exact ht.exclusive.not_exclusive (owned_of_not_owns hi) _ hexclusive
    · intro hword
      rw [hword]
      refine ⟨(hs.textAt_of_empty hchars hown hempty).symm, ht.put hi ?_ fun h => h.2.2 rfl⟩
      exact ⟨fun _ => hchars, fun _ hbytes => absurd hempty hbytes⟩
  · refine and_iff_left (ht.put hi ?_ ?_)
    · exact formed_of_ownData (Bool.eq_false_of_not_eq_true hown) fun _ => hempty
    · exact not_owns_of_ownData (Bool.eq_false_of_not_eq_true hown)

theorem copyFrom_iff (hs : Sound s) (ht : Sound t) (hi : ¬ (t.values i).Owns)
    (hj : t.values j = s.values j) (haddress : address ≠ 0) (hfresh : t.heap address = none)
    (hheap : (s.values j).Owns → t.heap (s.values j).word = s.heap (s.values j).word) :
    (Copied s (t.copyFrom j address i) i j ∧ Sound (t.copyFrom j address i)) ↔
      Leaves s.heap t.heap (t.values i).word (s.values j) := by
  by_cases hchars : (s.values j).attrType = .chars
  · by_cases hempty : (s.values j).length = 0
    · rw [copyFrom_empty_iff hs ht hi hj hchars hempty]
      exact ⟨fun h _ _ => h, fun h => h hchars hempty⟩
    · have howns := (hs.formed j).bytes hchars hempty
      obtain ⟨body, hblock, hlength⟩ := hs.filled j howns
      have hcopy : t.copyFrom j address i = t.putString body address i :=
        copyFrom_of_bytes (hj ▸ howns) (hj ▸ hempty) (by rw [hj, hheap howns, hblock])
          (hj ▸ hlength)
      rw [hcopy]
      refine iff_of_true ⟨⟨?_, ?_, ?_⟩, ht.putString hi haddress hfresh body⟩
        fun _ hnone => absurd hnone hempty
      all_goals unfold putString; rw [values_put_self]
      · exact hchars.symm
      · exact hlength
      · have hbytes : body.length ≠ 0 := hlength ▸ hempty
        have hself : Function.update t.heap address (some (body ++ [0])) address =
          some (body ++ [0]) := Function.update_self ..
        rw [content_of_owns howns hempty hblock, ← hlength]
        exact content_of_owns ⟨rfl, rfl, haddress⟩ hbytes hself
  · have hnot : ¬ (s.values j).Owns := fun h => hchars h.1
    rw [copyFrom_of_number (by rwa [hj]), hj]
    refine iff_of_true ⟨⟨?_, ?_, ?_⟩, ht.put hi (hs.formed j) hnot⟩ fun h => absurd h hchars
    · rw [values_put_self]
    · rw [values_put_self]
    · unfold content
      rw [values_put_self, if_neg hchars, if_neg hchars]

end Copies

section Histories

variable {s : State ι}

/-- The address of a `new` is not null and not in use; a new object is no copy of itself. -/
def Admissible (s : State ι) : Call ι → Prop
  | .setString i _ _ address | .setEmptyString i _ address | .copyAssign i _ address =>
    address ≠ 0 ∧ (s.reset i).heap address = none
  | .copyConstruct i j address => i ≠ j ∧ address ≠ 0 ∧ (s.reset i).heap address = none
  | .moveConstruct i j => i ≠ j
  | _ => True

instance (s : State ι) : DecidablePred (Admissible s) := fun call => by
  cases call <;> simp only [Admissible] <;> infer_instance

def Copies (s : State ι) : Call ι → Prop
  | .copyAssign i j address => Copied s (s.step (.copyAssign i j address)) i j
  | .copyConstruct i j address => Copied s (s.step (.copyConstruct i j address)) i j
  | _ => True

/-- What is left over in the union is right where it is not overwritten: behind a reset, or in a
new object. -/
def Ok (s : State ι) : Call ι → Prop
  | .copyAssign i j _ =>
    i = j ∨ Leaves s.heap (s.reset i).heap ((s.reset i).values i).word (s.values j)
  | .copyConstruct i j _ => Leaves s.heap (s.reset i).heap 0 (s.values j)
  | _ => True

instance (s : State ι) : DecidablePred (Ok s) := fun call => by
  cases call <;> simp only [Ok, Leaves] <;> infer_instance

theorem Sound.setNumber (h : Sound s) {w : ℕ} {attrType : AttrType} (hattr : attrType ≠ .chars)
    (val : BitVec w) (length : ℕ) (i : ι) : Sound (s.setNumber attrType val length i) :=
  (h.reset i).put (not_owns_reset i s) (formed_of_ownData rfl fun hchars => absurd hchars hattr)
    (not_owns_of_ownData rfl)

theorem Sound.setString (h : Sound s) (str : Option Bytes) (len : ℤ) {address : Word} {i : ι}
    (haddress : address ≠ 0) (hfresh : (s.reset i).heap address = none) :
    Sound (s.setString str len address i) := by
  cases str with
  | none =>
    exact (h.reset i).put (not_owns_reset i s) (formed_of_ownData rfl fun _ => rfl)
      (not_owns_of_ownData rfl)
  | some str => exact (h.reset i).putString (not_owns_reset i s) haddress hfresh _

theorem Sound.renew (h : Sound s) (i : ι) : Sound ((s.reset i).put i {}) :=
  (h.reset i).put (not_owns_reset i s) (formed_of_ownData rfl fun _ => rfl)
    (not_owns_of_ownData rfl)

theorem ok_iff (h : Sound s) (call : Call ι) (hcall : Admissible s call) :
    Copies s call ∧ Sound (s.step call) ↔ Ok s call := by
  cases call with
  | reset i => exact iff_of_true ⟨trivial, h.reset i⟩ trivial
  | setInt i val => exact iff_of_true ⟨trivial, h.setNumber (by decide) val 4 i⟩ trivial
  | setFloat i bits => exact iff_of_true ⟨trivial, h.setNumber (by decide) bits 4 i⟩ trivial
  | setBoolean i val => exact iff_of_true ⟨trivial, h.setNumber (by decide) _ 1 i⟩ trivial
  | setString i str len address =>
    exact iff_of_true ⟨trivial, h.setString str len hcall.1 hcall.2⟩ trivial
  | setEmptyString i len address =>
    exact iff_of_true
      ⟨trivial, (h.reset i).putString (not_owns_reset i s) hcall.1 hcall.2 _⟩ trivial
  | copyAssign i j address =>
    unfold Copies Ok State.step State.copyAssign
    dsimp only
    by_cases hij : i = j
    · rw [if_pos hij]
      subst hij
      exact iff_of_true ⟨⟨rfl, rfl, rfl⟩, h⟩ (.inl rfl)
    · rw [if_neg hij, or_iff_right hij]
      exact copyFrom_iff h (h.reset i) (not_owns_reset i s)
        (values_reset_of_ne (Ne.symm hij) s) hcall.1 hcall.2 (h.heap_reset (Ne.symm hij))
  | copyConstruct i j address =>
    obtain ⟨hij, haddress, hfresh⟩ := hcall
    have hj : ((s.reset i).put i {}).values j = s.values j :=
      (values_put_of_ne (Ne.symm hij) ..).trans (values_reset_of_ne (Ne.symm hij) s)
    have hi : ((s.reset i).put i {}).values i = {} := values_put_self ..
    have hnew : ¬ (((s.reset i).put i {}).values i).Owns := by
      rw [hi]
      exact not_owns_of_ownData rfl
    have hcopy := copyFrom_iff h (h.renew i) hnew hj haddress hfresh (h.heap_reset (Ne.symm hij))
    rw [hi] at hcopy
    exact hcopy
  | moveAssign i j =>
    refine iff_of_true ⟨trivial, ?_⟩ trivial
    show Sound (if i = j then s else (s.reset i).moveFrom j i)
    split_ifs with hij
    · exact h
    · exact (h.reset i).moveFrom hij (not_owns_reset i s)
  | moveConstruct i j =>
    refine iff_of_true ⟨trivial, (h.renew i).moveFrom hcall ?_⟩ trivial
    rw [values_put_self]
    exact not_owns_of_ownData rfl

/-- From any state where every object has its own block: every copy copies and the ownership stays
sound throughout a history exactly when no copy takes over what is left in the union; and where it
is sound, resets of the objects release every block once. -/
theorem value_copies_iff (start : State ι) (hstart : Sound start) (calls : List (Call ι))
    (hcalls : Each State.step Admissible start calls) :
    ((Each State.step Copies start calls ∧ Always State.step Sound start calls) ↔
      Each State.step Ok start calls) ∧
    ∀ s : State ι, Sound s → ∀ objects : List ι, (∀ i, i ∈ objects) →
      (objects.foldl (fun s i => s.reset i) s).faulted = false ∧
        ∀ p, (objects.foldl (fun s i => s.reset i) s).heap p = none := by
  refine ⟨?_, fun s hs objects hall => hs.resets hall⟩
  exact each_and_always_iff always_true hcalls hstart
    fun s call _ hcall hs => ok_iff hs call hcall

/-- A string that is copied over a string, and then over a number. -/
theorem value_copies_string :
    let calls : List (Call (Fin 2)) := [.setString 0 (some [97, 98]) 0 16,
      .setString 1 (some [99]) 0 32, .copyAssign 1 0 48, .setInt 1 7, .copyAssign 1 0 32]
    Sound ({} : State (Fin 2)) ∧ Each State.step Copies {} calls ∧
      Always State.step Sound {} calls := by
  intro calls
  refine ⟨sound_new, (value_copies_iff {} sound_new calls ?_).1.mpr ?_⟩
  · decide
  · decide

/-- An empty string is assigned to an integer, which becomes a pointer that is owned; and to a
string that has been moved, which then owns the block of another one. -/
theorem leftover_pointer_is_owned :
    let overNumber : State (Fin 3) :=
      [.setString 2 (some []) 0 32, .setInt 0 7, .copyAssign 0 2 48].foldl State.step {}
    let overMoved : State (Fin 3) := [.setString 0 (some [97, 98]) 0 16, .moveAssign 1 0,
      .setString 2 (some []) 0 32, .copyAssign 0 2 48].foldl State.step {}
    (overNumber.values 0 = ⟨.chars, 0, 7, true⟩ ∧ overNumber.heap 7 = none ∧
      (overNumber.reset 0).faulted = true) ∧
    (overMoved.values 0 = ⟨.chars, 0, 16, true⟩ ∧ overMoved.values 1 = ⟨.chars, 2, 16, true⟩ ∧
      (overMoved.reset 0).faulted = false ∧ ((overMoved.reset 0).reset 1).faulted = true) := by
  decide

end Histories

end ValueOwnership
