import Mathlib.Data.BitVec
import Mathlib.Order.Bounds.Basic

/-! # common::Bitmap

The two searches walk over the bytes and skip a byte that has no bit of the wanted kind; in the
first byte they begin inside it. `char` is signed, so a byte of ones is `-1`. The structure says
that the array holds every bit, which leaves up to seven bits of padding of any content. -/
namespace Bitmap

section Search

/-- The least index of a range with a property, or `-1` where there is none. -/
def FirstIn (P : ℕ → Prop) (lo hi : ℕ) (r : ℤ) : Prop :=
  (∃ i : ℕ, r = i ∧ IsLeast {i | lo ≤ i ∧ i < hi ∧ P i} i) ∨
    (r = -1 ∧ ∀ i, lo ≤ i → i < hi → ¬ P i)

variable {P : ℕ → Prop} {lo mid hi : ℕ} {r : ℤ}

theorem firstIn_none (h : ∀ i, lo ≤ i → i < hi → ¬ P i) : FirstIn P lo hi (-1) := .inr ⟨rfl, h⟩

theorem firstIn_here (hlt : lo < hi) (h : P lo) : FirstIn P lo hi lo :=
  .inl ⟨lo, rfl, ⟨le_rfl, hlt, h⟩, fun _ hi => hi.1⟩

theorem FirstIn.of_none (hle : lo ≤ mid) (hnone : ∀ i, lo ≤ i → i < mid → ¬ P i)
    (h : FirstIn P mid hi r) : FirstIn P lo hi r := by
  rcases h with ⟨i, rfl, ⟨hmid, hhi, hP⟩, hleast⟩ | ⟨rfl, hrest⟩
  · refine .inl ⟨i, rfl, ⟨le_trans hle hmid, hhi, hP⟩, ?_⟩
    rintro j ⟨hlo, hj, hPj⟩
    rcases Nat.lt_or_ge j mid with hlt | hge
    · exact absurd hPj (hnone j hlo hlt)
    · exact hleast ⟨hge, hj, hPj⟩
  · refine firstIn_none fun i hlo hi => ?_
    rcases Nat.lt_or_ge i mid with hlt | hge
    · exact hnone i hlo hlt
    · exact hrest i hge hi

theorem FirstIn.of_found (hle : mid ≤ hi) (hr : 0 ≤ r) (h : FirstIn P lo mid r) :
    FirstIn P lo hi r := by
  rcases h with ⟨i, rfl, ⟨hlo, hmid, hP⟩, hleast⟩ | ⟨rfl, -⟩
  · refine .inl ⟨i, rfl, ⟨hlo, lt_of_lt_of_le hmid hle, hP⟩, ?_⟩
    rintro j ⟨hj, -, hPj⟩
    rcases Nat.lt_or_ge j mid with hlt | hge
    · exact hleast ⟨hj, hlt, hPj⟩
    · exact le_trans (le_of_lt hmid) hge
  · cases hr

theorem FirstIn.congr {Q : ℕ → Prop} (h : FirstIn P lo hi r)
    (hiff : ∀ i, lo ≤ i → i < hi → (P i ↔ Q i)) : FirstIn Q lo hi r := by
  rcases h with ⟨i, rfl, ⟨hlo, hhi, hP⟩, hleast⟩ | ⟨rfl, hnone⟩
  · refine .inl ⟨i, rfl, ⟨hlo, hhi, (hiff i hlo hhi).mp hP⟩, ?_⟩
    rintro j ⟨hjlo, hjhi, hQ⟩
    exact hleast ⟨hjlo, hjhi, (hiff j hjlo hjhi).mpr hQ⟩
  · exact firstIn_none fun i hlo hhi hQ => hnone i hlo hhi ((hiff i hlo hhi).mpr hQ)

theorem FirstIn.clamp (hle : hi ≤ mid) (h : FirstIn P lo mid r) :
    FirstIn P lo hi (if (hi : ℤ) ≤ r then -1 else r) := by
  rcases h with ⟨i, rfl, ⟨hlo, hmid, hP⟩, hleast⟩ | ⟨rfl, hnone⟩
  · rcases Nat.lt_or_ge i hi with hlt | hge
    · rw [if_neg (by omega)]
      refine .inl ⟨i, rfl, ⟨hlo, hlt, hP⟩, ?_⟩
      rintro j ⟨hj, hjhi, hPj⟩
      exact hleast ⟨hj, lt_of_lt_of_le hjhi hle, hPj⟩
    · rw [if_pos (by omega)]
      refine firstIn_none fun j hj hjhi hPj => ?_
      have hij := hleast ⟨hj, by omega, hPj⟩
      omega
  · rw [if_neg (by omega)]
    exact firstIn_none fun i hlo hi => hnone i hlo (by omega)

end Search

section Bytes

/-- `byte & (1 << i)`, where the byte is converted to an `int`. -/
def bitOf (byte : BitVec 8) (i : ℕ) : Bool := (byte.signExtend 32 &&& 1#32 <<< i) != 0#32

def findFirst (found : Bool) (byte : BitVec 8) (i : ℕ) : ℤ :=
  if i < 8 then
    if bitOf byte i = found then i else findFirst found byte (i + 1)
  else -1
termination_by 8 - i

def findFirstZero (byte : BitVec 8) (start : ℕ) : ℤ := findFirst false byte start

def findFirstSetted (byte : BitVec 8) (start : ℕ) : ℤ := findFirst true byte start

def bytes (size : ℕ) : ℕ := if size % 8 = 0 then size / 8 else size / 8 + 1

theorem findFirst_spec (found : Bool) (byte : BitVec 8) (i : ℕ) :
    FirstIn (fun j => bitOf byte j = found) i 8 (findFirst found byte i) := by
  fun_induction findFirst found byte i with
  | case1 i hlt hbit => exact firstIn_here hlt hbit
  | case2 i hlt hbit ih =>
    refine ih.of_none (Nat.le_succ i) fun j hj hji => ?_
    obtain rfl : j = i := by omega
    exact hbit
  | case3 i hge => exact firstIn_none fun j hj hj8 => absurd hj8 (by omega)

theorem le_eight_mul_bytes (size : ℕ) : size ≤ 8 * bytes size := by
  unfold bytes
  split <;> omega

theorem div_lt_bytes {size i : ℕ} (h : i < size) : i / 8 < bytes size := by
  unfold bytes
  split <;> omega

end Bytes

end Bitmap

/-- The array is not owned; `size` counts bits. -/
structure Bitmap where
  bitmap : List (BitVec 8)
  size : ℕ
  room : Bitmap.bytes size ≤ bitmap.length

namespace Bitmap

variable (b : Bitmap)

def byteAt (iter : ℕ) (h : iter < bytes b.size) : BitVec 8 :=
  b.bitmap.get ⟨iter, lt_of_lt_of_le h b.room⟩

def getBit (index : ℕ) (h : index < b.size) : Bool :=
  bitOf (b.byteAt (index / 8) (div_lt_bytes h)) (index % 8)

/-- The loop of the two searches. A byte of the value `skipped` has no bit of the kind. -/
def scan (find : BitVec 8 → ℕ → ℤ) (skipped : ℤ) (iter startInByte : ℕ) : ℤ :=
  if h : iter < bytes b.size then
    let byte := b.byteAt iter h
    if byte.toInt ≠ skipped ∧ 0 ≤ find byte startInByte then
      iter * 8 + find byte startInByte
    else scan find skipped (iter + 1) 0
  else -1
termination_by bytes b.size - iter

def nextBit (find : BitVec 8 → ℕ → ℤ) (skipped : ℤ) (start : ℕ) : ℤ :=
  let ret := b.scan find skipped (start / 8) (start % 8)
  if (b.size : ℤ) ≤ ret then -1 else ret

def nextUnsettedBit (start : ℕ) : ℤ := b.nextBit findFirstZero (-1) start

def nextSettedBit (start : ℕ) : ℤ := b.nextBit findFirstSetted 0x00 start

def IsBit (found : Bool) (i : ℕ) : Prop :=
  ∃ h : i / 8 < bytes b.size, bitOf (b.byteAt (i / 8) h) (i % 8) = found

variable {b} {found : Bool} {skipped : ℤ}

theorem isBit_iff {iter i : ℕ} (h : iter < bytes b.size) (hlo : 8 * iter ≤ i)
    (hhi : i < 8 * iter + 8) :
    b.IsBit found i ↔ bitOf (b.byteAt iter h) (i - 8 * iter) = found := by
  have hdiv : i / 8 = iter := by omega
  have hmod : i % 8 = i - 8 * iter := by omega
  rw [← hmod]
  subst hdiv
  exact ⟨fun ⟨_, hbit⟩ => hbit, fun hbit => ⟨h, hbit⟩⟩

theorem firstIn_byte {iter k : ℕ} (h : iter < bytes b.size) {r : ℤ} (hr : 0 ≤ r)
    (hfirst : FirstIn (fun j => bitOf (b.byteAt iter h) j = found) k 8 r) :
    FirstIn (b.IsBit found) (8 * iter + k) (8 * iter + 8) (iter * 8 + r) := by
  rcases hfirst with ⟨j, rfl, ⟨hk, hj, hbit⟩, hleast⟩ | ⟨rfl, -⟩
  · refine .inl ⟨8 * iter + j, by omega, ⟨by omega, by omega, ?_⟩, ?_⟩
    · rw [isBit_iff h (by omega) (by omega), Nat.add_sub_cancel_left]
      exact hbit
    · rintro i ⟨hlo, hhi, hi⟩
      rw [isBit_iff h (by omega) hhi] at hi
      have := hleast ⟨by omega, by omega, hi⟩
      omega
  · cases hr

theorem scan_spec (hskip : ∀ byte : BitVec 8, byte.toInt = skipped → ∀ i < 8, bitOf byte i ≠ found)
    (iter startInByte : ℕ) (hstart : startInByte < 8) :
    FirstIn (b.IsBit found) (8 * iter + startInByte) (8 * bytes b.size)
      (b.scan (findFirst found) skipped iter startInByte) := by
  fun_induction scan b (findFirst found) skipped iter startInByte with
  | case1 iter startInByte h byte hfound =>
    have hbyte := firstIn_byte h hfound.2 (findFirst_spec found byte startInByte)
    exact hbyte.of_found (by omega) (by omega)
  | case2 iter startInByte h byte hnot ih =>
    refine (ih (by decide)).of_none (by omega) fun i hlo hhi hbit => ?_
    rw [isBit_iff h (by omega) (by omega)] at hbit
    by_cases hbyte : byte.toInt = skipped
    · exact hskip byte hbyte _ (by omega) hbit
    · have hneg : findFirst found byte startInByte < 0 :=
        not_le.mp fun hle => hnot ⟨hbyte, hle⟩
      rcases findFirst_spec found byte startInByte with ⟨j, hj, -⟩ | ⟨-, hnone⟩
      · omega
      · exact hnone _ (by omega) (by omega) hbit
  | case3 iter startInByte h =>
    exact firstIn_none fun i hlo hhi => absurd hhi (by omega)

theorem nextBit_spec
    (hskip : ∀ byte : BitVec 8, byte.toInt = skipped → ∀ i < 8, bitOf byte i ≠ found)
    (start : ℕ) :
    FirstIn (fun i => ∃ h : i < b.size, b.getBit i h = found) start b.size
      (b.nextBit (findFirst found) skipped start) := by
  have hscan := scan_spec (b := b) hskip (start / 8) (start % 8) (Nat.mod_lt _ (by decide))
  rw [Nat.div_add_mod] at hscan
  refine (hscan.clamp (le_eight_mul_bytes b.size)).congr fun i _ hi => ?_
  exact ⟨fun ⟨_, hbit⟩ => ⟨hi, hbit⟩, fun ⟨_, hbit⟩ => ⟨div_lt_bytes hi, hbit⟩⟩

/-- Both searches find the first bit of their kind that is not before the start and not behind the
end, or none, whatever stands in the padding. -/
theorem bit_searches_exact (b : Bitmap) (start : ℕ) :
    FirstIn (fun i => ∃ h : i < b.size, b.getBit i h = false) start b.size
      (b.nextUnsettedBit start) ∧
    FirstIn (fun i => ∃ h : i < b.size, b.getBit i h = true) start b.size
      (b.nextSettedBit start) := by
  constructor
  · refine nextBit_spec (fun byte hbyte i hi => ?_) start
    obtain rfl : byte = -1#8 := BitVec.toInt_inj.mp hbyte
    revert i
    decide
  · refine nextBit_spec (fun byte hbyte i hi => ?_) start
    obtain rfl : byte = 0#8 := BitVec.toInt_inj.mp hbyte
    revert i
    decide

/-- The last of nine bits is clear and the padding behind it too. -/
example : (⟨[0xff#8, 0x00#8], 9, by decide⟩ : Bitmap).nextUnsettedBit 3 = 8 := by
  simp [nextUnsettedBit, nextBit, scan, findFirstZero, findFirst, bytes, byteAt, bitOf]

end Bitmap
