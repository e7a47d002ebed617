import Mathlib.Data.Nat.ModEq
import Mathlib.Data.List.Basic
import Mathlib.Tactic.Ring

/-! # Little-endian words and byte buffers

Buffers are lists of bytes. A word of `w` bytes is read and written least
significant byte first, and a copy into a buffer keeps every byte outside its range.
Nothing here knows about a particular file format. -/
namespace ByteCodec

abbrev Bytes := List UInt8

def toLE : ℕ → ℕ → Bytes
  | 0, _ => []
  | w + 1, n => UInt8.ofNat n :: toLE w (n / 256)

def ofLE : Bytes → ℕ
  | [] => 0
  | b :: bs => b.toNat + 256 * ofLE bs

def toLEInt (w : ℕ) (i : ℤ) : Bytes := toLE w (i % (256 ^ w : ℕ)).toNat

/-- Two's complement load: the upper half of the range is negative. -/
def ofLEInt (bs : Bytes) : ℤ :=
  if 2 * ofLE bs < 256 ^ bs.length then ofLE bs else (ofLE bs : ℤ) - (256 ^ bs.length : ℕ)

def asciiBytes (s : String) : Bytes := s.toList.map fun c => UInt8.ofNat c.toNat

def asInt32 (n : ℕ) : ℤ := (BitVec.ofNat 32 n).toInt

@[simp] theorem length_toLE (w n : ℕ) : (toLE w n).length = w := by
  induction w generalizing n with
  | zero => rfl
  | succ w ih => simp [toLE, ih]

@[simp] theorem length_toLEInt (w : ℕ) (i : ℤ) : (toLEInt w i).length = w := by
  simp [toLEInt]

theorem ofLE_toLE (w n : ℕ) : ofLE (toLE w n) = n % 256 ^ w := by
  induction w generalizing n with
  | zero => simp [toLE, ofLE, Nat.mod_one]
  | succ w ih =>
    have hb : (UInt8.ofNat n).toNat = n % 256 := by simp
    rw [toLE, ofLE, ih, hb, pow_succ', Nat.mod_mul]

theorem ofLE_toLE_of_lt {w n : ℕ} (h : n < 256 ^ w) : ofLE (toLE w n) = n := by
  rw [ofLE_toLE, Nat.mod_eq_of_lt h]

theorem ofLE_append (as bs : Bytes) : ofLE (as ++ bs) = ofLE as + 256 ^ as.length * ofLE bs := by
  induction as with
  | nil => simp [ofLE]
  | cons a as ih =>
    rw [List.cons_append, ofLE, ih, ofLE, List.length_cons]
    ring

theorem toLE_add (v w n : ℕ) : toLE (v + w) n = toLE v n ++ toLE w (n / 256 ^ v) := by
  induction v generalizing n with
  | zero => simp [toLE]
  | succ v ih =>
    rw [Nat.succ_add, toLE, ih, toLE, List.cons_append, Nat.div_div_eq_div_mul, ← pow_succ']

theorem ofLE_lt (bs : Bytes) : ofLE bs < 256 ^ bs.length := by
  induction bs with
  | nil => simp [ofLE]
  | cons b bs ih =>
    have hb : b.toNat < 256 := UInt8.toNat_lt b
    rw [ofLE, List.length_cons, pow_succ']
    omega

theorem ofLEInt_inj {as bs : Bytes} (hlen : as.length = bs.length) :
    ofLEInt as = ofLEInt bs ↔ ofLE as = ofLE bs := by
  have ha := ofLE_lt as
  have hb := ofLE_lt bs
  unfold ofLEInt
  rw [hlen] at ha ⊢
  constructor
  · intro heq
    split at heq <;> split at heq <;> omega
  · intro heq
    rw [heq]

theorem ofLEInt_toLEInt {w : ℕ} {i : ℤ} (hlo : -(256 ^ w : ℕ) ≤ 2 * i)
    (hhi : 2 * i < (256 ^ w : ℕ)) : ofLEInt (toLEInt w i) = i := by
  have hpos : (0 : ℤ) < (256 ^ w : ℕ) := Int.natCast_pos.mpr (Nat.pow_pos (by decide))
  have hword : ofLE (toLEInt w i) = (i % (256 ^ w : ℕ)).toNat := by
    have hlt := Int.emod_lt_of_pos i hpos
    have hnn := Int.emod_nonneg i hpos.ne'
    exact ofLE_toLE_of_lt (by omega)
  rw [ofLEInt, length_toLEInt, hword]
  rcases lt_or_ge i 0 with hneg | hnn
  · have hmod : i % (256 ^ w : ℕ) = i + (256 ^ w : ℕ) := by
      rw [← Int.add_emod_right, Int.emod_eq_of_lt (by omega) (by omega)]
    rw [hmod, if_neg (by omega)]
    omega
  · rw [Int.emod_eq_of_lt hnn (by omega), if_pos (by omega)]
    omega

theorem asInt32_of_lt {n : ℕ} (h : n < 2 ^ 31) : asInt32 n = n := by
  rw [asInt32, BitVec.toInt_eq_toNat_of_lt] <;> rw [BitVec.toNat_ofNat, Nat.mod_eq_of_lt] <;> omega

theorem asInt32_emod (n : ℕ) : (asInt32 n % 2 ^ 32).toNat = n % 2 ^ 32 := by
  rw [asInt32, BitVec.toInt_eq_toNat_cond, BitVec.toNat_ofNat]
  split <;> omega

theorem asInt32_mod (n : ℕ) : asInt32 (n % 2 ^ 32) = asInt32 n := by
  have hsame : BitVec.ofNat 32 (n % 2 ^ 32) = BitVec.ofNat 32 n := BitVec.eq_of_toNat_eq (by simp)
  rw [asInt32, hsame, asInt32]

theorem toNat_asInt32_lt {n : ℕ} (h : 2 ^ 31 ≤ n) : (asInt32 n).toNat < n := by
  have hmod : n % 2 ^ 32 ≤ n := Nat.mod_le _ _
  rw [asInt32, BitVec.toInt_eq_toNat_cond, BitVec.toNat_ofNat]
  split <;> omega

theorem toNat_asInt32_le (n : ℕ) : (asInt32 n).toNat ≤ n := by
  by_cases h : n < 2 ^ 31
  · rw [asInt32_of_lt h, Int.toNat_natCast]
  · exact Nat.le_of_lt (toNat_asInt32_lt (Nat.le_of_not_lt h))

theorem ofLE_eq_zero {bs : Bytes} (h : ∀ b ∈ bs, b = 0) : ofLE bs = 0 := by
  induction bs with
  | nil => rfl
  | cons b bs ih =>
    rw [ofLE, ih (fun c hc => h c (List.mem_cons_of_mem _ hc)), h b List.mem_cons_self]
    rfl

theorem ofLE_eq_zero_iff {bs : Bytes} : ofLE bs = 0 ↔ ∀ b ∈ bs, b = 0 := by
  refine ⟨fun h => ?_, ofLE_eq_zero⟩
  induction bs with
  | nil => simp
  | cons b bs ih =>
    rw [ofLE] at h
    refine List.forall_mem_cons.mpr ⟨UInt8.toNat_inj.mp (by simp; omega), ih (by omega)⟩

def packLE (l : List (ℕ × ℕ)) : Bytes := l.flatMap fun p => toLE p.1 p.2

def unpackLE : List ℕ → Bytes → List ℕ
  | [], _ => []
  | w :: ws, bs => ofLE (bs.take w) :: unpackLE ws (bs.drop w)

theorem length_packLE (l : List (ℕ × ℕ)) : (packLE l).length = (l.map Prod.fst).sum := by
  induction l with
  | nil => rfl
  | cons p l ih =>
    rw [packLE, List.flatMap_cons, List.length_append, length_toLE, List.map_cons, List.sum_cons,
      ← ih]
    rfl

theorem unpackLE_packLE_mod (l : List (ℕ × ℕ)) (rest : Bytes) :
    unpackLE (l.map Prod.fst) (packLE l ++ rest) = l.map fun p => p.2 % 256 ^ p.1 := by
  induction l with
  | nil => rfl
  | cons p l ih =>
    have hsplit : packLE (p :: l) ++ rest = toLE p.1 p.2 ++ (packLE l ++ rest) := by
      rw [packLE, List.flatMap_cons, List.append_assoc]
      rfl
    have htake : (toLE p.1 p.2 ++ (packLE l ++ rest)).take p.1 = toLE p.1 p.2 :=
      List.take_left' (length_toLE p.1 p.2)
    have hdrop : (toLE p.1 p.2 ++ (packLE l ++ rest)).drop p.1 = packLE l ++ rest :=
      List.drop_left' (length_toLE p.1 p.2)
    rw [List.map_cons, List.map_cons, unpackLE, hsplit, htake, hdrop, ih, ofLE_toLE]

theorem unpackLE_packLE {l : List (ℕ × ℕ)} (h : ∀ p ∈ l, p.2 < 256 ^ p.1) (rest : Bytes) :
    unpackLE (l.map Prod.fst) (packLE l ++ rest) = l.map Prod.snd := by
  rw [unpackLE_packLE_mod]
  exact List.map_congr_left fun p hp => Nat.mod_eq_of_lt (h p hp)

def slice (b : Bytes) (pos len : ℕ) : Bytes := (b.drop pos).take len

def overwrite (b : Bytes) (pos : ℕ) (src : Bytes) : Bytes :=
  b.take pos ++ src ++ b.drop (pos + src.length)

theorem getElem?_slice (b : Bytes) (pos len i : ℕ) :
    (slice b pos len)[i]? = if i < len then b[pos + i]? else none := by
  simp [slice, List.getElem?_take, List.getElem?_drop]

theorem slice_add (b : Bytes) (pos m n : ℕ) :
    slice b pos (m + n) = slice b pos m ++ slice b (pos + m) n := by
  simp only [slice, List.take_add, List.drop_drop]

variable {pos : ℕ} {b : Bytes}

theorem slice_slice (b : Bytes) {len k n : ℕ} (h : k + n ≤ len) :
    slice (slice b pos len) k n = slice b (pos + k) n := by
  rw [slice, slice, slice, List.drop_take, List.take_take, List.drop_drop,
    Nat.min_eq_left (by omega)]

theorem slice_append_of_le {a : Bytes} (b : Bytes) {len : ℕ} (h : pos + len ≤ a.length) :
    slice (a ++ b) pos len = slice a pos len := by
  rw [slice, slice, List.drop_append_of_le_length (by omega),
    List.take_append_of_le_length (by rw [List.length_drop]; omega)]

theorem slice_middle (a b c : Bytes) : slice (a ++ b ++ c) a.length b.length = b := by
  rw [slice, List.append_assoc, List.drop_left, List.take_left]

theorem slice_take {len n : ℕ} (h : pos + len ≤ n) :
    slice (b.take n) pos len = slice b pos len := by
  rw [slice, slice, List.drop_take, List.take_take, Nat.min_eq_left (by omega)]

theorem slice_flatMap {α : Type*} {f : α → Bytes} {w : ℕ} (hf : ∀ a, (f a).length = w)
    (rest : Bytes) {l : List α} {i : ℕ} {a : α} (h : l[i]? = some a) :
    slice (l.flatMap f ++ rest) (w * i) w = f a := by
  induction l generalizing i with
  | nil => cases h
  | cons b l ih =>
    rw [List.flatMap_cons, List.append_assoc]
    cases i with
    | zero =>
      cases h
      rw [Nat.mul_zero, slice, List.drop_zero, List.take_left' (hf a)]
    | succ i =>
      have hrest := ih h
      rw [slice] at hrest ⊢
      rw [Nat.mul_succ, Nat.add_comm, ← List.drop_drop, List.drop_left' (hf b), hrest]

theorem length_overwrite {src : Bytes} (h : pos + src.length ≤ b.length) :
    (overwrite b pos src).length = b.length := by
  simp only [overwrite, List.length_append, List.length_take, List.length_drop]
  omega

theorem take_overwrite (src : Bytes) (h : pos ≤ b.length) :
    (overwrite b pos src).take (pos + src.length) = b.take pos ++ src := by
  apply List.take_left'
  rw [List.length_append, List.length_take, Nat.min_eq_left h]

theorem overwrite_append (src src' : Bytes) (h : pos ≤ b.length) :
    overwrite (overwrite b pos src) (pos + src.length) src' = overwrite b pos (src ++ src') := by
  have hfront : (b.take pos ++ src).length = pos + src.length := by
    rw [List.length_append, List.length_take, Nat.min_eq_left h]
  have hdrop : (overwrite b pos src).drop (pos + src.length + src'.length) =
      b.drop (pos + (src ++ src').length) := by
    rw [overwrite, ← List.drop_drop, List.drop_left' hfront, List.drop_drop, List.length_append,
      Nat.add_assoc]
  rw [overwrite, take_overwrite src h, hdrop, overwrite, List.append_assoc (b.take pos)]

theorem getElem?_overwrite {src : Bytes} (h : pos + src.length ≤ b.length) (i : ℕ) :
    (overwrite b pos src)[i]? =
      if pos ≤ i ∧ i < pos + src.length then src[i - pos]? else b[i]? := by
  have htake : (b.take pos).length = pos := by
    rw [List.length_take]
    omega
  rcases lt_or_ge i pos with hlt | hge
  · rw [if_neg (by omega), overwrite, List.append_assoc,
      List.getElem?_append_left (by omega), List.getElem?_take_of_lt hlt]
  rcases lt_or_ge i (pos + src.length) with hin | hout
  · rw [if_pos ⟨hge, hin⟩, overwrite, List.getElem?_append_left
      (by rw [List.length_append]; omega), List.getElem?_append_right (by omega), htake]
  · rw [if_neg (by omega), overwrite, List.getElem?_append_right
      (by rw [List.length_append]; omega), List.getElem?_drop]
    congr 1
    rw [List.length_append]
    omega

theorem slice_overwrite_within {src : Bytes} {k len : ℕ} (h : pos + src.length ≤ b.length)
    (hk : k + len ≤ src.length) : slice (overwrite b pos src) (pos + k) len = slice src k len := by
  apply List.ext_getElem?
  intro i
  rw [getElem?_slice, getElem?_slice, getElem?_overwrite h]
  by_cases hi : i < len
  · rw [if_pos hi, if_pos hi, if_pos (by omega)]
    congr 1
    omega
  · rw [if_neg hi, if_neg hi]

theorem slice_overwrite_of_disjoint {src : Bytes} {q len : ℕ} (h : pos + src.length ≤ b.length)
    (hd : q + len ≤ pos ∨ pos + src.length ≤ q) :
    slice (overwrite b pos src) q len = slice b q len := by
  apply List.ext_getElem?
  intro i
  rw [getElem?_slice, getElem?_slice, getElem?_overwrite h]
  by_cases hi : i < len
  · rw [if_pos hi, if_pos hi, if_neg (by omega)]
  · rw [if_neg hi, if_neg hi]

end ByteCodec
