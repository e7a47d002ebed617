import LsmStorage.BoundedLoop
import LsmStorage.ByteCodec
import Mathlib.Data.List.DropRight

/-! # common::strip

`strip(string &)` looks for the first character that is no white space from the front, and for the
last one from the back with an unsigned index. Characters are read up to the terminator; a read
behind it is undefined. `strip(char *)` has the same loops, but stops the second one at the first
character. -/
namespace StringStrip

open BoundedLoop ByteCodec

section Trim

variable {α : Type*} {p : α → Bool} {l pre mid post : List α}

def trim (p : α → Bool) (l : List α) : List α := (l.dropWhile p).rdropWhile p

structure Split (p : α → Bool) (l pre mid post : List α) : Prop where
  parts : l = pre ++ mid ++ post
  before : ∀ a ∈ pre, p a = true
  behind : ∀ a ∈ post, p a = true
  first : ∀ a, mid.head? = some a → p a = false
  last : ∀ a, mid.getLast? = some a → p a = false

theorem Split.length (h : Split p l pre mid post) :
    l.length = pre.length + mid.length + post.length := by
  rw [h.parts, List.length_append, List.length_append]

theorem Split.take_drop (h : Split p l pre mid post) :
    (l.drop pre.length).take mid.length = mid := by
  rw [h.parts, List.append_assoc, List.drop_left, List.take_left]

theorem split_trim (p : α → Bool) (l : List α) :
    Split p l (l.takeWhile p) (trim p l) ((l.dropWhile p).rtakeWhile p) := by
  constructor
  · rw [trim, List.append_assoc, List.rdropWhile_append_rtakeWhile, List.takeWhile_append_dropWhile]
  · intro a ha
    exact List.mem_takeWhile_imp ha
  · intro a ha
    exact List.mem_rtakeWhile_imp ha
  · intro a ha
    obtain ⟨rest, hrest⟩ := List.rdropWhile_prefix p (l.dropWhile p)
    have hhead : (l.dropWhile p).head? = some a := by
      rw [← hrest, List.head?_append, show ((l.dropWhile p).rdropWhile p).head? = some a from ha]
      rfl
    have hnot := List.head?_dropWhile_not p l
    rw [hhead] at hnot
    exact hnot
  · intro a ha
    have hne : trim p l ≠ [] := by
      intro hnil
      rw [hnil] at ha
      cases ha
    rw [List.getLast?_eq_some_getLast hne] at ha
    cases ha
    exact Bool.eq_false_iff.mpr (List.rdropWhile_last_not p (l.dropWhile p) hne)

theorem trim_ne_nil (h : ∃ a ∈ l, p a = false) : trim p l ≠ [] := by
  intro hnil
  obtain ⟨a, ha, hfalse⟩ := h
  have hsplit := split_trim p l
  rw [hsplit.parts, hnil, List.append_nil, List.mem_append] at ha
  rcases ha with ha | ha
  · exact absurd (hsplit.before a ha) (hfalse ▸ Bool.false_ne_true)
  · exact absurd (hsplit.behind a ha) (hfalse ▸ Bool.false_ne_true)

theorem cut_first [DecidableEq α] {a : α} (h : a ∈ l) :
    l = l.takeWhile (· != a) ++ a :: (l.dropWhile (· != a)).tail := by
  have hnot := List.head?_dropWhile_not (· != a) l
  have happend := List.takeWhile_append_dropWhile (p := (· != a)) (l := l)
  cases hdrop : l.dropWhile (· != a) with
  | nil =>
    rw [hdrop, List.append_nil] at happend
    rw [← happend] at h
    have hne := List.mem_takeWhile_imp h
    simp at hne
  | cons b rest =>
    rw [hdrop] at hnot happend
    have hb : b = a := by simpa using hnot
    rw [hb] at happend
    exact happend.symm

end Trim

/-- White space of the C locale. A `char` from `0x80` on is negative and none of it. -/
def isspace (c : UInt8) : Bool := c = 0x20 ∨ (0x09 ≤ c ∧ c ≤ 0x0d)

inductive Fault where
  | undefined (index : UInt64)
  | thrown
  | unfinished
  deriving DecidableEq

/-- A `std::string`; its length is a `ptrdiff_t` as well as a `size_t`. -/
@[ext]
structure Str where
  chars : Bytes
  fits : chars.length < 2 ^ 63
  deriving DecidableEq

namespace Str

variable (str : Str)

def size : UInt64 := UInt64.ofNat str.chars.length

/-- `str[i]`, where `str[str.size()]` is the terminator. -/
def charAt (i : UInt64) : Except Fault UInt8 :=
  match (str.chars ++ [0])[i.toNat]? with
  | some c => .ok c
  | none => .error (.undefined i)

def substr (pos n : UInt64) : Except Fault Str :=
  if pos > str.size then .error .thrown
  else .ok ⟨(str.chars.drop pos.toNat).take n.toNat, by
    have hfits := str.fits
    simp only [List.length_take, List.length_drop]
    omega⟩

def NotBlank : Prop := ∃ c ∈ str.chars, isspace c = false

instance : Decidable str.NotBlank :=
  inferInstanceAs (Decidable (∃ c ∈ str.chars, isspace c = false))

def trimmed : Str where
  chars := trim isspace str.chars
  fits := by
    have hlength := (split_trim isspace str.chars).length
    have hfits := str.fits
    omega

end Str

section Loops

def headTurn (str : Str) (head : UInt64) : Turn UInt64 (Except Fault UInt64) :=
  match str.charAt head with
  | .error fault => .stop (.error fault)
  | .ok c => if isspace c then .again (head + 1) else .stop (.ok head)

def tailTurn (str : Str) (head tail : UInt64) : Turn UInt64 (Except Fault UInt64) :=
  match str.charAt tail with
  | .error fault => .stop (.error fault)
  | .ok c => if isspace c ∧ tail ≠ head then .again (tail - 1) else .stop (.ok tail)

def loop (body : UInt64 → Turn UInt64 (Except Fault UInt64)) (turns : ℕ) (i : UInt64) :
    Except Fault UInt64 :=
  (run body turns i).getD (.error .unfinished)

/-- `strip(string &)`: what it leaves in its argument. -/
def strip (str : Str) : Except Fault Str := do
  let head ← loop (headTurn str) (str.chars.length + 1) 0
  let tail ← loop (tailTurn str head) (str.chars.length + 1) (str.size - 1)
  str.substr head (tail - head + 1)

end Loops

section Reads

variable {str : Str} {i : UInt64}

def npos : UInt64 := -1

theorem Str.toNat_size (str : Str) : str.size.toNat = str.chars.length :=
  UInt64.toNat_ofNat_of_lt' (str.fits.trans (by decide))

theorem charAt_of_getElem? {c : UInt8} (h : str.chars[i.toNat]? = some c) :
    str.charAt i = .ok c := by
  have hlt := (List.getElem?_eq_some_iff.mp h).1
  rw [Str.charAt, List.getElem?_append_left hlt, h]

theorem charAt_length (h : i.toNat = str.chars.length) : str.charAt i = .ok 0 := by
  rw [Str.charAt, h, List.getElem?_concat_length]

theorem charAt_outside (h : str.chars.length < i.toNat) :
    str.charAt i = .error (.undefined i) := by
  have hnone : (str.chars ++ [0])[i.toNat]? = none := by
    apply List.getElem?_eq_none
    rw [List.length_append, List.length_singleton]
    omega
  rw [Str.charAt, hnone]

end Reads

section Indices

variable (str : Str)

def fromBack (j : ℕ) : UInt64 := str.size - 1 - UInt64.ofNat j

theorem fromBack_zero : fromBack str 0 = str.size - 1 := UInt64.sub_zero _

theorem fromBack_succ (j : ℕ) : fromBack str (j + 1) = fromBack str j - 1 := by
  have hone : (1 : UInt64).toNat = 1 := rfl
  apply UInt64.toNat_inj.mp
  simp only [fromBack, UInt64.ofNat_add, UInt64.toNat_sub, UInt64.toNat_add, UInt64.toNat_ofNat',
    hone]
  omega

theorem toNat_fromBack {j : ℕ} (h : j < str.chars.length) :
    (fromBack str j).toNat = str.chars.length - 1 - j := by
  have hfits := str.fits
  have hone : (1 : UInt64).toNat = 1 := rfl
  simp only [fromBack, UInt64.toNat_sub, str.toNat_size, UInt64.toNat_ofNat', hone]
  omega

theorem fromBack_length : fromBack str str.chars.length = npos := by
  have hfits := str.fits
  have hone : (1 : UInt64).toNat = 1 := rfl
  have hnpos : npos.toNat = 2 ^ 64 - 1 := rfl
  apply UInt64.toNat_inj.mp
  simp only [fromBack, UInt64.toNat_sub, str.toNat_size, UInt64.toNat_ofNat', hone, hnpos]
  omega

end Indices

section Strip

variable {str : Str} {pre mid post : Bytes}

theorem loop_chain {body : UInt64 → Turn UInt64 (Except Fault UInt64)} {f : ℕ → UInt64}
    {k turns : ℕ} {r : Except Fault UInt64} (hagain : ∀ j < k, body (f j) = .again (f (j + 1)))
    (hstop : body (f k) = .stop r) (hturns : k < turns) : loop body turns (f 0) = r := by
  rw [loop, run_mono (run_chain hagain hstop) hturns]
  rfl

theorem headTurn_blank {i : UInt64} {c : UInt8} (h : str.chars[i.toNat]? = some c)
    (hc : isspace c = true) : headTurn str i = .again (i + 1) := by
  rw [headTurn, charAt_of_getElem? h]
  exact if_pos hc

theorem tailTurn_blank {head i : UInt64} {c : UInt8} (h : str.chars[i.toNat]? = some c)
    (hc : isspace c = true) (hne : i ≠ head) : tailTurn str head i = .again (i - 1) := by
  rw [tailTurn, charAt_of_getElem? h]
  exact if_pos ⟨hc, hne⟩

theorem toNat_ofNat_of_le (str : Str) {j : ℕ} (h : j ≤ str.chars.length) :
    (UInt64.ofNat j).toNat = j := by
  have hfits := str.fits
  apply UInt64.toNat_ofNat_of_lt'
  exact lt_of_le_of_lt h (hfits.trans (by decide))

theorem head_loop (h : Split isspace str.chars pre mid post) (hend : mid = [] → post = []) :
    loop (headTurn str) (str.chars.length + 1) 0 = .ok (UInt64.ofNat pre.length) := by
  have hlength := h.length
  apply loop_chain (f := UInt64.ofNat) (k := pre.length)
  · intro j hj
    have hget : str.chars[j]? = some pre[j] := by
      rw [h.parts, List.append_assoc, List.getElem?_append_left hj, List.getElem?_eq_getElem hj]
    rw [UInt64.ofNat_add]
    apply headTurn_blank (c := pre[j])
    · rw [toNat_ofNat_of_le str (by omega)]
      exact hget
    · exact h.before _ (List.getElem_mem hj)
  · have htoNat := toNat_ofNat_of_le str (show pre.length ≤ str.chars.length by omega)
    cases hmid : mid with
    | nil =>
      have hpost := hend hmid
      rw [headTurn, charAt_length]
      · rfl
      · rw [htoNat, h.parts, hmid, hpost, List.append_nil, List.append_nil]
    | cons c rest =>
      have hget : str.chars[(UInt64.ofNat pre.length).toNat]? = some c := by
        rw [htoNat, h.parts, hmid, List.append_assoc, List.getElem?_append_right le_rfl,
          Nat.sub_self]
        rfl
      have hc : isspace c = false := h.first c (by rw [hmid]; rfl)
      rw [headTurn, charAt_of_getElem? hget]
      exact if_neg (by rw [hc]; exact Bool.false_ne_true)
  · omega

theorem tailTurn_fromBack {head : UInt64} {j : ℕ} (hj : j < str.chars.length)
    (hblank : ∀ c, str.chars[str.chars.length - 1 - j]? = some c → isspace c = true)
    (hne : str.chars.length - 1 - j ≠ head.toNat) :
    tailTurn str head (fromBack str j) = .again (fromBack str (j + 1)) := by
  have htoNat := toNat_fromBack str hj
  have hlt : str.chars.length - 1 - j < str.chars.length := by omega
  have hget := List.getElem?_eq_getElem hlt
  rw [fromBack_succ]
  apply tailTurn_blank
  · rw [htoNat]
    exact hget
  · exact hblank _ hget
  · intro heq
    apply hne
    rw [← htoNat, heq]

theorem tail_loop (h : Split isspace str.chars pre mid post) (hmid : mid ≠ []) {head : UInt64}
    (hhead : head.toNat ≤ pre.length) :
    loop (tailTurn str head) (str.chars.length + 1) (str.size - 1) =
      .ok (fromBack str post.length) := by
  have hlength := h.length
  have hpos := List.length_pos_iff.mpr hmid
  rw [← fromBack_zero]
  apply loop_chain (k := post.length)
  · intro j hj
    apply tailTurn_fromBack
    · omega
    · intro c hc
      rw [h.parts, List.getElem?_append_right (by simp only [List.length_append]; omega)] at hc
      exact h.behind c (List.mem_of_getElem? hc)
    · omega
  · have hindex : (fromBack str post.length).toNat = (pre ++ mid).length - 1 := by
      rw [toNat_fromBack str (by omega), List.length_append]
      omega
    have hget : str.chars[(fromBack str post.length).toNat]? = mid.getLast? := by
      rw [hindex, h.parts, List.getElem?_append_left (by rw [List.length_append]; omega),
        ← List.getLast?_eq_getElem?, List.getLast?_append_of_ne_nil pre hmid]
    rw [List.getLast?_eq_some_getLast hmid] at hget
    have hc := h.last _ (List.getLast?_eq_some_getLast hmid)
    rw [tailTurn, charAt_of_getElem? hget]
    exact if_neg (by rw [hc]; simp)
  · omega

theorem substr_of_le {str part : Str} {pos n : UInt64} (hpos : pos.toNat ≤ str.chars.length)
    (hpart : (str.chars.drop pos.toNat).take n.toNat = part.chars) :
    str.substr pos n = .ok part := by
  have hle : ¬ pos > str.size := by
    rw [gt_iff_lt, UInt64.lt_iff_toNat_lt, str.toNat_size]
    omega
  rw [Str.substr, if_neg hle]
  exact congrArg Except.ok (Str.ext hpart)

theorem toNat_count (h : Split isspace str.chars pre mid post) (hmid : mid ≠ []) :
    (fromBack str post.length - UInt64.ofNat pre.length + 1).toNat = mid.length := by
  have hlength := h.length
  have hfits := str.fits
  have hpos := List.length_pos_iff.mpr hmid
  have htail := toNat_fromBack str (show post.length < str.chars.length by omega)
  have hhead := toNat_ofNat_of_le str (show pre.length ≤ str.chars.length by omega)
  have hone : (1 : UInt64).toNat = 1 := rfl
  rw [UInt64.toNat_add, UInt64.toNat_sub, htail, hhead, hone]
  omega

theorem strip_of_notBlank (h : str.NotBlank) :
    strip str = .ok str.trimmed := by
  have hsplit := split_trim isspace str.chars
  have hmid := trim_ne_nil h
  rw [strip, head_loop hsplit fun hnil => absurd hnil hmid]
  have hlength := hsplit.length
  have hhead := toNat_ofNat_of_le str
    (show (str.chars.takeWhile isspace).length ≤ str.chars.length by omega)
  show (loop _ _ _ >>= _) = _
  rw [tail_loop hsplit hmid hhead.le]
  apply substr_of_le
  · omega
  · rw [hhead, toNat_count hsplit hmid]
    exact hsplit.take_drop

theorem Str.isspace_of_blank (hblank : ¬ str.NotBlank) : ∀ c ∈ str.chars, isspace c = true := by
  intro c hc
  by_contra hnot
  exact hblank ⟨c, hc, Bool.eq_false_iff.mpr hnot⟩

theorem split_blank {p : UInt8 → Bool} {l : Bytes} (h : ∀ c ∈ l, p c = true) :
    Split p l l [] [] := by
  constructor
  · rw [List.append_nil, List.append_nil]
  · exact h
  all_goals
    intro a ha
    cases ha

/-- The index goes below the first character of a blank string and of an empty one. -/
theorem strip_of_blank (hblank : ¬ str.NotBlank) : strip str = .error (.undefined npos) := by
  have h := Str.isspace_of_blank hblank
  have hsplit := split_blank h
  have hfits := str.fits
  have hhead := toNat_ofNat_of_le str (le_refl str.chars.length)
  rw [strip, head_loop hsplit fun _ => rfl]
  show (loop _ _ _ >>= _) = _
  have htail : loop (tailTurn str (UInt64.ofNat str.chars.length)) (str.chars.length + 1)
      (str.size - 1) = .error (.undefined npos) := by
    rw [← fromBack_zero]
    apply loop_chain (k := str.chars.length)
    · intro j hj
      apply tailTurn_fromBack hj
      · intro c hc
        exact h c (List.mem_of_getElem? hc)
      · omega
    · rw [fromBack_length, tailTurn, charAt_outside]
      show str.chars.length < 2 ^ 64 - 1
      omega
    · omega
  rw [htail]
  rfl

theorem strip_eq_ok_iff (str : Str) : strip str = .ok str.trimmed ↔ str.NotBlank := by
  constructor
  · intro hok
    by_contra hblank
    cases (strip_of_blank hblank).symm.trans hok
  · exact strip_of_notBlank

end Strip

section CString

/-- A `char *`: the characters before the terminator. -/
structure CStr extends Str where
  noNul : 0 ∉ chars

def pointed (buf : Bytes) (i : UInt64) : Bytes := (buf.drop i.toNat).takeWhile (· != 0)

/-- `strip(char *)`: the buffer afterwards, and the index of the result in it. -/
def stripChars (str : CStr) : Except Fault (Bytes × UInt64) :=
  if str.chars = [] then .ok (str.chars ++ [0], 0)
  else do
    let head ← loop (headTurn str.toStr) (str.chars.length + 1) 0
    let last ← loop (tailTurn str.toStr 0) (str.chars.length + 1) (str.size - 1)
    .ok ((str.chars ++ [0]).set (last + 1).toNat 0, head)

variable {buf : Bytes} {i : UInt64}

theorem pointed_terminator (h : buf[i.toNat]? = some 0) : pointed buf i = [] := by
  obtain ⟨hlt, hget⟩ := List.getElem?_eq_some_iff.mp h
  rw [pointed, List.drop_eq_getElem_cons hlt, hget]
  rfl

theorem pointed_append {pre mid post : Bytes} (hi : i.toNat = pre.length) (hmid : 0 ∉ mid) :
    pointed (pre ++ (mid ++ 0 :: post)) i = mid := by
  have hall : ∀ c ∈ mid, (c != 0) = true := by
    intro c hc
    simp only [bne_iff_ne]
    rintro rfl
    exact hmid hc
  rw [pointed, hi, List.drop_left, List.takeWhile_append_of_pos hall]
  exact List.append_nil mid

theorem pointed_split {str : CStr} {pre mid post : Bytes}
    (h : Split isspace str.chars pre mid post) :
    pointed ((str.chars ++ [0]).set (pre ++ mid).length 0) (UInt64.ofNat pre.length) = mid := by
  have hlength := h.length
  have hnul : 0 ∉ mid := by
    intro hmem
    apply str.noNul
    rw [h.parts]
    exact List.mem_append_left _ (List.mem_append_right _ hmem)
  obtain ⟨c, rest, hend⟩ := List.exists_cons_of_ne_nil (List.concat_ne_nil 0 post)
  rw [h.parts, List.append_assoc (pre ++ mid), hend, List.set_append_right _ _ le_rfl,
    Nat.sub_self, List.set_cons_zero, List.append_assoc]
  exact pointed_append (toNat_ofNat_of_le str.toStr (by omega)) hnul

theorem stripChars_split {str : CStr} {pre mid post : Bytes}
    (h : Split isspace str.chars pre mid post) (hmid : mid ≠ []) :
    stripChars str =
      .ok ((str.chars ++ [0]).set (pre ++ mid).length 0, UInt64.ofNat pre.length) := by
  have hlength := h.length
  have hpos := List.length_pos_iff.mpr hmid
  have hfits := str.fits
  have hne : str.chars ≠ [] := List.length_pos_iff.mp (by omega)
  have hlast : (fromBack str.toStr post.length + 1).toNat = (pre ++ mid).length := by
    have hone : (1 : UInt64).toNat = 1 := rfl
    rw [UInt64.toNat_add, toNat_fromBack str.toStr (by omega), hone, List.length_append]
    omega
  rw [stripChars, if_neg hne, head_loop h fun hnil => absurd hnil hmid]
  show (loop _ _ _ >>= _) = _
  rw [tail_loop h hmid (Nat.zero_le _), ← hlast]
  rfl

theorem stripChars_blank {str : CStr} (h : ∀ c ∈ str.chars, isspace c = true)
    (hne : str.chars ≠ []) :
    stripChars str = .ok ((str.chars ++ [0]).set 1 0, UInt64.ofNat str.chars.length) := by
  have hpos := List.length_pos_iff.mpr hne
  have hfirst : fromBack str.toStr (str.chars.length - 1) = 0 := by
    apply UInt64.toNat_inj.mp
    rw [toNat_fromBack str.toStr (by omega)]
    exact Nat.sub_self _
  have htail : loop (tailTurn str.toStr 0) (str.chars.length + 1) (str.size - 1) = .ok 0 := by
    rw [← fromBack_zero]
    apply loop_chain (k := str.chars.length - 1)
    · intro j hj
      apply tailTurn_fromBack (by omega)
      · intro c hc
        exact h c (List.mem_of_getElem? hc)
      · show str.chars.length - 1 - j ≠ 0
        omega
    · rw [hfirst, tailTurn, charAt_of_getElem? (List.getElem?_eq_getElem hpos)]
      exact if_neg fun hboth => hboth.2 rfl
    · omega
  rw [stripChars, if_neg hne, head_loop (split_blank h) fun _ => rfl]
  show (loop _ _ _ >>= _) = _
  rw [htail]
  rfl

/-- Every string is trimmed, blank ones as well. -/
theorem stripChars_trims (str : CStr) :
    ∃ buf head, stripChars str = .ok (buf, head) ∧ pointed buf head = trim isspace str.chars := by
  have hsplit := split_trim isspace str.chars
  by_cases hmid : trim isspace str.chars = []
  · have hblank : ¬ str.NotBlank := fun h => trim_ne_nil h hmid
    rw [hmid]
    by_cases hne : str.chars = []
    · refine ⟨_, _, if_pos hne, ?_⟩
      rw [hne]
      rfl
    · refine ⟨_, _, stripChars_blank (Str.isspace_of_blank hblank) hne, ?_⟩
      apply pointed_terminator
      rw [toNat_ofNat_of_le str.toStr le_rfl, List.getElem?_set]
      split_ifs with hone hlt
      · rfl
      · rw [List.length_append, List.length_singleton] at hlt
        omega
      · exact List.getElem?_concat_length
  · refine ⟨_, _, stripChars_split hsplit hmid, ?_⟩
    exact pointed_split hsplit

end CString

end StringStrip
