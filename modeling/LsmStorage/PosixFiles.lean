import LsmStorage.ByteCodec
import Mathlib.Data.Finset.Card
import Mathlib.Logic.Function.Basic

/-! # Files, directory entries and descriptors

A directory maps names to inode numbers and a descriptor is an inode number, so an
unlinked file stays writable through a descriptor that is already open. Bytes past the
end of a file are kept at zero, which is what a later hole or extension reads. -/
namespace PosixFiles

open ByteCodec

structure File where
  size : ℕ
  byte : ℕ → UInt8
  zero_past : ∀ i, size ≤ i → byte i = 0

def File.empty : File := ⟨0, fun _ => 0, fun _ _ => rfl⟩

/-- `ftruncate`: cut the tail off, or extend the file by a hole. -/
def File.truncate (f : File) (n : ℕ) : File where
  size := n
  byte i := if i < n then f.byte i else 0
  zero_past i h := by simp [Nat.not_lt.mpr h]

/-- `lseek` to `off` and `write`; nothing happens when there is nothing to write. -/
def File.pwrite (f : File) (off : ℕ) (src : Bytes) : File where
  size := if src = [] then f.size else max f.size (off + src.length)
  byte i := if off ≤ i ∧ i < off + src.length then src.getD (i - off) 0 else f.byte i
  zero_past i h := by
    by_cases hs : src = []
    · subst src
      simp only [↓reduceIte] at h
      simp [f.zero_past i h]
    · rw [if_neg hs] at h
      have h₁ : f.size ≤ i := le_trans (le_max_left _ _) h
      have h₂ : off + src.length ≤ i := le_trans (le_max_right _ _) h
      simp [Nat.not_lt.mpr h₂, f.zero_past i h₁]

/-- `lseek` to `off` and `read`: at most `n` bytes, and none past the end. -/
def File.pread (f : File) (off n : ℕ) : Bytes :=
  (List.range (min n (f.size - off))).map fun i => f.byte (off + i)

@[simp] theorem length_pread (f : File) (off n : ℕ) :
    (f.pread off n).length = min n (f.size - off) := by
  simp [File.pread]

theorem getElem?_pread (f : File) (off n i : ℕ) :
    (f.pread off n)[i]? = if i < min n (f.size - off) then some (f.byte (off + i)) else none := by
  by_cases h : i < min n (f.size - off)
  · rw [if_pos h, File.pread, List.getElem?_map, List.getElem?_range h]
    rfl
  · rw [if_neg h, List.getElem?_eq_none (by rw [length_pread]; omega)]

def File.Holds (f : File) (off : ℕ) (src : Bytes) : Prop :=
  off + src.length ≤ f.size ∧ ∀ i, i < src.length → src[i]? = some (f.byte (off + i))

theorem holds_pwrite (f : File) (off : ℕ) {src : Bytes} (h : src ≠ []) :
    (f.pwrite off src).Holds off src := by
  refine ⟨by simp [File.pwrite, h], ?_⟩
  intro i hi
  simp [File.pwrite, hi, List.getD_eq_getElem?_getD]

theorem File.Holds.pwrite_of_disjoint {f : File} {off pos : ℕ} {src new : Bytes}
    (h : f.Holds off src) (hd : off + src.length ≤ pos ∨ pos + new.length ≤ off) :
    (f.pwrite pos new).Holds off src := by
  refine ⟨?_, ?_⟩
  · have := h.1
    simp only [File.pwrite]
    split
    · exact this
    · exact le_trans this (le_max_left _ _)
  · intro i hi
    rw [h.2 i hi]
    simp only [File.pwrite]
    rw [if_neg (by omega)]

theorem File.Holds.left {f : File} {off : ℕ} {a b : Bytes} (h : f.Holds off (a ++ b)) :
    f.Holds off a := by
  have hl := h.1
  rw [List.length_append] at hl
  refine ⟨by omega, ?_⟩
  intro i hi
  rw [← h.2 i (by rw [List.length_append]; omega), List.getElem?_append_left hi]

theorem File.Holds.right {f : File} {off : ℕ} {a b : Bytes} (h : f.Holds off (a ++ b)) :
    f.Holds (off + a.length) b := by
  have hl := h.1
  rw [List.length_append] at hl
  refine ⟨by omega, ?_⟩
  intro i hi
  have hb := h.2 (a.length + i) (by rw [List.length_append]; omega)
  rw [List.getElem?_append_right (by omega), Nat.add_sub_cancel_left] at hb
  rw [hb, Nat.add_assoc]

theorem File.holds_nil (f : File) : f.Holds 0 [] := ⟨Nat.zero_le _, by simp⟩

theorem File.Holds.pwrite_append {f : File} {a : Bytes} (h : f.Holds 0 a) (b : Bytes) :
    (f.pwrite a.length b).Holds 0 (a ++ b) := by
  have hl := h.1
  constructor
  · rw [List.length_append]
    simp only [File.pwrite]
    split
    · rename_i hb
      simpa [hb] using hl
    · rw [Nat.zero_add]
      exact le_max_right _ _
  · intro i hi
    rw [List.length_append] at hi
    simp only [File.pwrite, Nat.zero_add]
    rcases Nat.lt_or_ge i a.length with hold | hnew
    · rw [if_neg (by omega), List.getElem?_append_left hold, h.2 i hold, Nat.zero_add]
    · rw [if_pos ⟨hnew, hi⟩, List.getElem?_append_right hnew, List.getD_eq_getElem?_getD,
        List.getElem?_eq_getElem (show i - a.length < b.length by omega), Option.getD_some]

theorem File.size_pwrite_append {f : File} {a : Bytes} (h : f.size = a.length) (b : Bytes) :
    (f.pwrite a.length b).size = (a ++ b).length := by
  simp only [File.pwrite, List.length_append, h]
  split
  · rename_i hb
    simp [hb]
  · exact max_eq_right (Nat.le_add_right _ _)

theorem File.truncate_zero (f : File) : f.truncate 0 = .empty := by
  simp [File.truncate, File.empty]

theorem File.Holds.take_pread {f : File} {off n : ℕ} {src : Bytes} (h : f.Holds off src)
    (hn : src.length ≤ n) : (f.pread off n).take src.length = src := by
  have hs := h.1
  apply List.ext_getElem?
  intro i
  by_cases hi : i < src.length
  · rw [List.getElem?_take_of_lt hi, getElem?_pread, if_pos (by omega), h.2 i hi]
  · rw [List.getElem?_eq_none (by rw [List.length_take]; omega),
      List.getElem?_eq_none (by omega)]

theorem File.Holds.pread_eq {f : File} {off : ℕ} {src : Bytes} (h : f.Holds off src) :
    f.pread off src.length = src := by
  have htake := h.take_pread le_rfl
  rwa [List.take_of_length_le (by rw [length_pread]; exact min_le_left _ _)] at htake

/-- Names are distinct files: an inode has one directory entry at most. -/
structure FileSystem (ν : Type*) where
  entry : ν → Option ℕ
  inode : ℕ → File
  fresh : ℕ
  entry_lt : ∀ p i, entry p = some i → i < fresh
  entry_inj : ∀ p q i, entry p = some i → entry q = some i → p = q

variable {ν : Type*}

namespace FileSystem

def blank : FileSystem ν :=
  ⟨fun _ => none, fun _ => .empty, 0, by simp, by simp⟩

def file? (fs : FileSystem ν) (p : ν) : Option File := (fs.entry p).map fs.inode

theorem file?_eq_none {fs : FileSystem ν} {p : ν} : fs.file? p = none ↔ fs.entry p = none := by
  simp [file?]

def modify (fs : FileSystem ν) (fd : ℕ) (g : File → File) : FileSystem ν :=
  { fs with inode := Function.update fs.inode fd (g (fs.inode fd)) }

@[simp] theorem entry_modify (fs : FileSystem ν) (fd : ℕ) (g : File → File) (p : ν) :
    (fs.modify fd g).entry p = fs.entry p := rfl

theorem file?_modify_self {fs : FileSystem ν} {p : ν} {fd : ℕ} (h : fs.entry p = some fd)
    (g : File → File) : (fs.modify fd g).file? p = some (g (fs.inode fd)) := by
  simp [file?, modify, h]

theorem file?_modify_of_ne {fs : FileSystem ν} {p q : ν} {fd : ℕ} (h : fs.entry p = some fd)
    (hq : q ≠ p) (g : File → File) : (fs.modify fd g).file? q = fs.file? q := by
  unfold file?
  rw [entry_modify]
  cases hi : fs.entry q with
  | none => rfl
  | some i =>
    have hne : i ≠ fd := fun he => hq (fs.entry_inj q p i hi (he ▸ h))
    simp [modify, Function.update_of_ne hne]

variable (fs : FileSystem ν)

theorem exists_entry_eq_none {name : ℕ → ν} (hname : Function.Injective name) :
    ∃ n, fs.entry (name n) = none := by
  by_contra hall
  push Not at hall
  choose i hi using fun n => Option.ne_none_iff_exists'.mp (hall n)
  obtain ⟨m, -, n, -, hne, hmn⟩ := Finset.exists_ne_map_eq_of_card_lt_of_maps_to
    (s := Finset.range (fs.fresh + 1)) (t := Finset.range fs.fresh) (f := i) (by simp)
    (fun n _ => Finset.mem_coe.mpr (Finset.mem_range.mpr (fs.entry_lt _ _ (hi n))))
  exact hne (hname (fs.entry_inj _ _ _ (hi m) (hmn ▸ hi n)))

variable [DecidableEq ν]

/-- `open` with `O_CREAT`: an existing file is opened as it is. -/
def openCreat (fs : FileSystem ν) (p : ν) : ℕ × FileSystem ν :=
  match h : fs.entry p with
  | some i => (i, fs)
  | none =>
    (fs.fresh,
      { entry := Function.update fs.entry p (some fs.fresh)
        inode := Function.update fs.inode fs.fresh .empty
        fresh := fs.fresh + 1
        entry_lt := by
          intro q i hq
          by_cases hp : q = p
          · subst q; simp at hq; omega
          · rw [Function.update_of_ne hp] at hq
            exact Nat.lt_succ_of_lt (fs.entry_lt q i hq)
        entry_inj := by
          intro q r i hq hr
          by_cases hqp : q = p <;> by_cases hrp : r = p
          · rw [hqp, hrp]
          · subst q
            rw [Function.update_of_ne hrp] at hr
            simp only [Function.update_self, Option.some.injEq] at hq
            exact absurd (fs.entry_lt r i hr) (by omega)
          · subst r
            rw [Function.update_of_ne hqp] at hq
            simp only [Function.update_self, Option.some.injEq] at hr
            exact absurd (fs.entry_lt q i hq) (by omega)
          · rw [Function.update_of_ne hqp] at hq
            rw [Function.update_of_ne hrp] at hr
            exact fs.entry_inj q r i hq hr })

/-- `open` with `O_CREAT` and `O_TRUNC`: the file is empty afterwards. -/
def openTrunc (fs : FileSystem ν) (p : ν) : ℕ × FileSystem ν :=
  ((fs.openCreat p).1, (fs.openCreat p).2.modify (fs.openCreat p).1 (·.truncate 0))

/-- `unlink`: the name goes, an open descriptor keeps the content. -/
def unlink (fs : FileSystem ν) (p : ν) : FileSystem ν where
  entry := Function.update fs.entry p none
  inode := fs.inode
  fresh := fs.fresh
  entry_lt q i hq := by
    by_cases hp : q = p
    · subst q; simp at hq
    · rw [Function.update_of_ne hp] at hq
      exact fs.entry_lt q i hq
  entry_inj q r i hq hr := by
    by_cases hqp : q = p
    · subst q; simp at hq
    · by_cases hrp : r = p
      · subst r; simp at hr
      · rw [Function.update_of_ne hqp] at hq
        rw [Function.update_of_ne hrp] at hr
        exact fs.entry_inj q r i hq hr

theorem entry_unlink (p q : ν) :
    (fs.unlink p).entry q = if q = p then none else fs.entry q := by
  by_cases hq : q = p
  · subst hq
    simp [unlink]
  · simp [unlink, hq]

theorem entry_foldl_unlink (ps : List ν) (fs : FileSystem ν) (q : ν) :
    (ps.foldl unlink fs).entry q = if q ∈ ps then none else fs.entry q := by
  induction ps generalizing fs with
  | nil => simp
  | cons p ps ih =>
    rw [List.foldl_cons, ih, entry_unlink]
    by_cases hp : q = p <;> by_cases hps : q ∈ ps <;> simp [hp, hps]

theorem entry_openCreat_self (p : ν) :
    (fs.openCreat p).2.entry p = some (fs.openCreat p).1 := by
  unfold openCreat
  split
  · assumption
  · simp

theorem file?_openCreat_self (p : ν) :
    (fs.openCreat p).2.file? p = some ((fs.file? p).getD .empty) := by
  unfold openCreat
  split
  · next i h => simp [file?, h]
  · next h => simp [file?, h]

theorem file?_openCreat_of_ne {p q : ν} (hq : q ≠ p) :
    (fs.openCreat p).2.file? q = fs.file? q := by
  unfold openCreat
  split
  · rfl
  · simp only [file?, Function.update_of_ne hq]
    cases hi : fs.entry q with
    | none => rfl
    | some i =>
      have hne : i ≠ fs.fresh := Nat.ne_of_lt (fs.entry_lt q i hi)
      simp [Function.update_of_ne hne]

theorem entry_openCreat_ne_none_iff (p q : ν) :
    (fs.openCreat p).2.entry q ≠ none ↔ q = p ∨ fs.entry q ≠ none := by
  by_cases hq : q = p
  · subst hq
    simp [entry_openCreat_self]
  · have hfile := file?_openCreat_of_ne fs hq
    rw [Ne, Ne, ← file?_eq_none, ← file?_eq_none, hfile]
    simp [hq]

theorem entry_openTrunc_self (p : ν) :
    (fs.openTrunc p).2.entry p = some (fs.openTrunc p).1 :=
  entry_openCreat_self fs p

theorem file?_openTrunc_self (p : ν) :
    (fs.openTrunc p).2.file? p = some .empty := by
  rw [openTrunc, file?_modify_self (entry_openCreat_self fs p), File.truncate_zero]

theorem file?_openTrunc_of_ne {p q : ν} (hq : q ≠ p) :
    (fs.openTrunc p).2.file? q = fs.file? q := by
  rw [openTrunc, file?_modify_of_ne (entry_openCreat_self fs p) hq, file?_openCreat_of_ne fs hq]

end FileSystem

end PosixFiles
