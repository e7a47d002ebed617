import LsmStorage.ByteCodec

/-! # The store functions of the MySQL protocol

`store_lenenc_int` writes a first byte that announces how many bytes follow. Its thresholds are
`2UL << 16` and `2UL << 24`, which are twice what two and three bytes can hold. A store function
returns the bytes that it writes; their number is what the source returns. -/
namespace MysqlStore

open ByteCodec

/-- `store_int1` to `store_int8`: the low `w` bytes. -/
def storeInt (w : ℕ) (value : ℤ) : Bytes := toLEInt w value

def storeLenencInt (value : UInt64) : Bytes :=
  if value.toNat < 251 then [UInt8.ofNat value.toNat]
  else if value.toNat < 2 <<< 16 then 0xFC :: toLE 2 value.toNat
  else if value.toNat < 2 <<< 24 then 0xFD :: toLE 3 value.toNat
  else 0xFE :: toLE 8 value.toNat

/-- The first `len` bytes of `s`; `none`: a negative `len` is a huge size for `memcpy`. -/
def storeFixLengthString (s : Bytes) (len : ℤ) : Option Bytes :=
  if len < 0 then none else some (s.take len.toNat)

/-- `s` is what is in front of the terminating zero. -/
def storeLenencString (s : Bytes) : Option Bytes :=
  let len := asInt32 s.length
  (storeFixLengthString s len).map (storeLenencInt (UInt64.ofInt len) ++ ·)

/-- The rule of the protocol: a small first byte is the value, the others announce 2, 3 or 8
bytes. What is behind the integer is returned with it. -/
def decodeLenencInt : Bytes → Option (ℕ × Bytes)
  | [] => none
  | first :: rest =>
    if first.toNat < 251 then some (first.toNat, rest)
    else
      let width := if first = 0xFC then 2 else if first = 0xFD then 3
        else if first = 0xFE then 8 else 0
      if width = 0 ∨ rest.length < width then none
      else some (ofLE (rest.take width), rest.drop width)

def decodeLenencString (b : Bytes) : Option (Bytes × Bytes) :=
  match decodeLenencInt b with
  | none => none
  | some (n, rest) => if rest.length < n then none else some (rest.take n, rest.drop n)

section Integers

def decoded (value : ℕ) : ℕ :=
  if value < 251 then value
  else if value < 2 <<< 16 then value % 256 ^ 2
  else if value < 2 <<< 24 then value % 256 ^ 3
  else value

theorem decode_marker (first : UInt8) (width : ℕ) (hfirst : ¬ first.toNat < 251)
    (hwidth : width = if first = 0xFC then 2 else if first = 0xFD then 3
      else if first = 0xFE then 8 else 0) (hpos : width ≠ 0) (value : ℕ) (rest : Bytes) :
    decodeLenencInt ((first :: toLE width value) ++ rest) = some (value % 256 ^ width, rest) := by
  rw [List.cons_append, decodeLenencInt, if_neg hfirst]
  dsimp only
  rw [← hwidth, if_neg (by simp [hpos]), List.take_left' (length_toLE _ _),
    List.drop_left' (length_toLE _ _), ofLE_toLE]

theorem decode_storeLenencInt (value : UInt64) (rest : Bytes) :
    decodeLenencInt (storeLenencInt value ++ rest) = some (decoded value.toNat, rest) := by
  have hlt := value.toNat_lt
  unfold storeLenencInt decoded
  by_cases hone : value.toNat < 251
  · have hbyte : (UInt8.ofNat value.toNat).toNat = value.toNat := by
      rw [UInt8.toNat_ofNat', Nat.mod_eq_of_lt (by omega)]
    rw [if_pos hone, if_pos hone, List.singleton_append, decodeLenencInt, hbyte, if_pos hone]
  by_cases htwo : value.toNat < 2 <<< 16
  · rw [if_neg hone, if_pos htwo, if_neg hone, if_pos htwo]
    exact decode_marker 0xFC 2 (by decide) (by decide) (by decide) _ rest
  by_cases hthree : value.toNat < 2 <<< 24
  · rw [if_neg hone, if_neg htwo, if_pos hthree, if_neg hone, if_neg htwo, if_pos hthree]
    exact decode_marker 0xFD 3 (by decide) (by decide) (by decide) _ rest
  · rw [if_neg hone, if_neg htwo, if_neg hthree, if_neg hone, if_neg htwo, if_neg hthree]
    have height := decode_marker 0xFE 8 (by decide) (by decide) (by decide) value.toNat rest
    rwa [Nat.mod_eq_of_lt (by omega)] at height

def TooWide (value : ℕ) : Prop :=
  (2 ^ 16 ≤ value ∧ value < 2 ^ 17) ∨ (2 ^ 24 ≤ value ∧ value < 2 ^ 25)

instance : DecidablePred TooWide := fun _ => inferInstanceAs (Decidable (_ ∨ _))

theorem decoded_eq_iff (value : ℕ) : decoded value = value ↔ ¬ TooWide value := by
  unfold decoded TooWide
  split_ifs <;> omega

theorem decoded_le (value : ℕ) : decoded value ≤ value := by
  unfold decoded
  split_ifs
  · exact Nat.le_refl _
  · exact Nat.mod_le _ _
  · exact Nat.mod_le _ _
  · exact Nat.le_refl _

theorem length_storeLenencInt_le (value : UInt64) : (storeLenencInt value).length ≤ 9 := by
  unfold storeLenencInt
  split_ifs <;> simp

end Integers

section Strings

theorem toNat_ofInt_natCast {n : ℕ} (h : n < 2 ^ 64) : (UInt64.ofInt n).toNat = n := by
  simp [UInt64.ofInt]
  omega

theorem storeLenencString_of_neg {s : Bytes} (h : asInt32 s.length < 0) :
    storeLenencString s = none := by
  rw [storeLenencString, storeFixLengthString, if_pos h, Option.map_none]

theorem storeLenencString_of_nonneg {s : Bytes} (h : ¬ asInt32 s.length < 0) :
    storeLenencString s = some (storeLenencInt (UInt64.ofInt (asInt32 s.length)) ++
      s.take (asInt32 s.length).toNat) := by
  rw [storeLenencString, storeFixLengthString, if_neg h, Option.map_some]

theorem storeLenencString_eq_some {s stored : Bytes} (h : storeLenencString s = some stored) :
    ∃ len ≤ s.length, stored = storeLenencInt (UInt64.ofInt len) ++ s.take len ∧ len < 2 ^ 31 := by
  by_cases hneg : asInt32 s.length < 0
  · rw [storeLenencString_of_neg hneg] at h
    cases h
  · obtain ⟨len, hlen⟩ := Int.eq_ofNat_of_zero_le (Int.not_lt.mp hneg)
    have hlt := BitVec.toInt_lt (x := BitVec.ofNat 32 s.length)
    have hle := toNat_asInt32_le s.length
    rw [storeLenencString_of_nonneg hneg, hlen] at h
    rw [← asInt32, hlen] at hlt
    rw [hlen] at hle
    exact ⟨len, hle, (Option.some.inj h).symm, by omega⟩

theorem decode_storeLenencString {s : Bytes} {len : ℕ} (hle : len ≤ s.length) (hlt : len < 2 ^ 31)
    (rest : Bytes) :
    decodeLenencString (storeLenencInt (UInt64.ofInt len) ++ s.take len ++ rest) =
      some (s.take (decoded len), (s.take len).drop (decoded len) ++ rest) := by
  have hcut : decoded len ≤ (s.take len).length := by
    rw [List.length_take, Nat.min_eq_left hle]
    exact decoded_le len
  rw [decodeLenencString, List.append_assoc, decode_storeLenencInt,
    toNat_ofInt_natCast (by omega)]
  dsimp only
  rw [if_neg (by rw [List.length_append]; omega), List.take_append_of_le_length hcut,
    List.drop_append_of_le_length hcut, List.take_take, Nat.min_eq_left (decoded_le len)]

end Strings

def IntDecodes (value : UInt64) : Prop :=
  ∀ rest, decodeLenencInt (storeLenencInt value ++ rest) = some (value.toNat, rest)

def StringDecodes (s : Bytes) : Prop :=
  ∃ stored, storeLenencString s = some stored ∧
    ∀ rest, decodeLenencString (stored ++ rest) = some (s, rest)

theorem intDecodes_iff (value : UInt64) : IntDecodes value ↔ ¬ TooWide value.toNat := by
  rw [← decoded_eq_iff]
  constructor
  · intro h
    have hnil := h []
    rw [decode_storeLenencInt] at hnil
    exact congrArg Prod.fst (Option.some.inj hnil)
  · intro h rest
    rw [decode_storeLenencInt, h]

theorem stringDecodes_iff (s : Bytes) :
    StringDecodes s ↔ s.length < 2 ^ 31 ∧ ¬ TooWide s.length := by
  rw [← decoded_eq_iff]
  constructor
  · rintro ⟨stored, hstored, h⟩
    obtain ⟨len, hle, rfl, hsmall⟩ := storeLenencString_eq_some hstored
    have hnil := h []
    rw [decode_storeLenencString hle hsmall] at hnil
    have htake : s.take (decoded len) = s := congrArg Prod.fst (Option.some.inj hnil)
    -- all of the string came back, so nothing was cut off on the way
    have hlength : min (decoded len) s.length = s.length := by
      rw [← List.length_take, htake]
    have hcut := decoded_le len
    obtain rfl : len = s.length := by omega
    exact ⟨hsmall, by omega⟩
  · rintro ⟨hsmall, hdecoded⟩
    have hstored : storeLenencString s =
        some (storeLenencInt (UInt64.ofInt s.length) ++ s.take s.length) := by
      rw [storeLenencString_of_nonneg] <;> rw [asInt32_of_lt hsmall]
      · rfl
      · omega
    refine ⟨_, hstored, fun rest => ?_⟩
    rw [decode_storeLenencString (Nat.le_refl _) hsmall, hdecoded, List.take_length,
      List.drop_length, List.nil_append]

/-- A length-encoded integer is read back exactly when it is outside of the two ranges where its
first byte announces too few bytes; a string, when its length is, and is an `int`. -/
theorem lenenc_decodes_iff (value : UInt64) (s : Bytes) :
    (IntDecodes value ↔ ¬ TooWide value.toNat) ∧
      (StringDecodes s ↔ s.length < 2 ^ 31 ∧ ¬ TooWide s.length) :=
  ⟨intDecodes_iff value, stringDecodes_iff s⟩

/-- 65536 is announced as two bytes and read back as 0. -/
theorem two_bytes_too_few :
    storeLenencInt 65536 = [0xFC, 0, 0] ∧
      decodeLenencInt (storeLenencInt 65536) = some (0, []) := by
  decide +kernel

end MysqlStore
