import LsmStorage.ByteCodec

/-! # PALF constants, log sequence numbers and the group entry header

`get_serialize_size` is `sizeof` the struct: 44 bytes of fields padded to 48. An LSN is
a `uint64_t`; the places that add to one reduce modulo `2 ^ 64`. -/
namespace PalfLogEntry

open ByteCodec

def maxInfoBlockSize : ℕ := 4 * 1024
def palfPhyBlockSize : ℕ := 2 ^ 26
def palfBlockSize : ℕ := palfPhyBlockSize - maxInfoBlockSize

def logMaxBlockId : ℕ := (2 ^ 64 - 1) / palfBlockSize - 1
def logInvalidBlockId : ℕ := logMaxBlockId + 1

def firstValidLogId : ℤ := 1

def lsn2Block (lsn : ℕ) (blockSize : ℕ) : ℕ := lsn / blockSize
def lsn2Offset (lsn : ℕ) (blockSize : ℕ) : ℕ := lsn % blockSize

def groupMagic : ℕ := 0x4752

structure LogGroupEntryHeader where
  magic : ℕ := groupMagic
  version : ℕ := 1
  groupEntrySize : ℕ := 0
  logId : ℤ := 0
  logProposalId : ℤ := 1
  prevLsn : ℕ := 0
  committedEndLsn : ℕ := 0
  dataChecksum : ℕ := 0
  deriving DecidableEq, Repr

namespace LogGroupEntryHeader

def getSerializeSize : ℕ := 48

def isValid (h : LogGroupEntryHeader) : Bool := h.magic == groupMagic

/-- The stores through the advancing pointers, from `magic_` to `committed_end_lsn_`. -/
def fieldBytes (h : LogGroupEntryHeader) : Bytes :=
  toLE 2 h.magic ++ toLE 2 h.version ++ toLE 4 h.groupEntrySize ++ toLEInt 8 h.logId ++
    toLEInt 8 h.logProposalId ++ toLE 8 h.prevLsn ++ toLE 8 h.committedEndLsn

/-- The last store goes through `pu32`, which still points behind `group_entry_size_`:
the checksum lands on the low half of `log_id_` and the bytes of its own field keep what
the buffer held before. -/
def serialize (h : LogGroupEntryHeader) (buf : Bytes) (pos : ℕ) : Option (Bytes × ℕ) :=
  if buf.length < pos + getSerializeSize then none
  else
    let b := overwrite buf pos h.fieldBytes
    some (overwrite b (pos + 8) (toLE 4 h.dataChecksum), pos + getSerializeSize)

def deserialize (buf : Bytes) (pos : ℕ) : Option (LogGroupEntryHeader × ℕ) :=
  if buf.length < pos + getSerializeSize then none
  else
    some ({ magic := ofLE (slice buf pos 2)
            version := ofLE (slice buf (pos + 2) 2)
            groupEntrySize := ofLE (slice buf (pos + 4) 4)
            logId := ofLEInt (slice buf (pos + 8) 8)
            logProposalId := ofLEInt (slice buf (pos + 16) 8)
            prevLsn := ofLE (slice buf (pos + 24) 8)
            committedEndLsn := ofLE (slice buf (pos + 32) 8)
            dataChecksum := ofLE (slice buf (pos + 40) 4) }, pos + getSerializeSize)

theorem length_fieldBytes (h : LogGroupEntryHeader) : h.fieldBytes.length = 40 := by
  simp [fieldBytes]

theorem length_serialize {h : LogGroupEntryHeader} {buf out : Bytes} {pos q : ℕ}
    (hs : h.serialize buf pos = some (out, q)) :
    out.length = buf.length ∧ q = pos + getSerializeSize := by
  unfold serialize at hs
  split at hs
  · cases hs
  · next hroom =>
    simp only [getSerializeSize, Nat.not_lt] at hroom
    simp only [Option.some.injEq, Prod.mk.injEq] at hs
    obtain ⟨rfl, rfl⟩ := hs
    have hroom : pos + h.fieldBytes.length ≤ buf.length := by rw [length_fieldBytes]; omega
    have hl := length_overwrite hroom
    refine ⟨?_, rfl⟩
    rw [length_overwrite (by rw [hl, length_toLE]; omega), hl]

private theorem slice_fieldBytes (h : LogGroupEntryHeader) :
    slice h.fieldBytes 0 2 = toLE 2 h.magic ∧ slice h.fieldBytes 2 2 = toLE 2 h.version ∧
    slice h.fieldBytes 4 4 = toLE 4 h.groupEntrySize ∧
    slice h.fieldBytes 12 4 = slice (toLEInt 8 h.logId) 4 4 ∧
    slice h.fieldBytes 16 8 = toLEInt 8 h.logProposalId ∧
    slice h.fieldBytes 24 8 = toLE 8 h.prevLsn ∧
    slice h.fieldBytes 32 8 = toLE 8 h.committedEndLsn := by
  refine ⟨?_, ?_, ?_, ?_, ?_, ?_, ?_⟩ <;>
    simp [slice, fieldBytes, List.drop_append, List.drop_eq_nil_of_le, List.take_of_length_le]

/-- What comes back from the written bytes. Every field is its own value at its own width,
except that the low half of `log_id_` is the checksum and the checksum is old memory. -/
theorem deserialize_serialize {h : LogGroupEntryHeader} {buf out : Bytes} {pos q : ℕ}
    (hs : h.serialize buf pos = some (out, q)) :
    deserialize out pos = some
      ({ magic := h.magic % 256 ^ 2
         version := h.version % 256 ^ 2
         groupEntrySize := h.groupEntrySize % 256 ^ 4
         logId := ofLEInt (toLE 4 h.dataChecksum ++ slice (toLEInt 8 h.logId) 4 4)
         logProposalId := ofLEInt (toLEInt 8 h.logProposalId)
         prevLsn := h.prevLsn % 256 ^ 8
         committedEndLsn := h.committedEndLsn % 256 ^ 8
         dataChecksum := ofLE (slice buf (pos + 40) 4) }, q) := by
  obtain ⟨hlen, rfl⟩ := length_serialize hs
  obtain ⟨hmagic, hversion, hsize, hid, hproposal, hprev, hend⟩ := slice_fieldBytes h
  unfold serialize at hs
  split at hs
  · cases hs
  next hroom =>
  simp only [getSerializeSize, Nat.not_lt] at hroom
  simp only [Option.some.injEq, Prod.mk.injEq, and_true] at hs
  have hfield : pos + h.fieldBytes.length ≤ buf.length := by rw [length_fieldBytes]; omega
  have hsum : pos + 8 + (toLE 4 h.dataChecksum).length ≤
      (overwrite buf pos h.fieldBytes).length := by
    rw [length_overwrite hfield, length_toLE]
    omega
  have field : ∀ k n, k + n ≤ 40 → k + n ≤ 8 ∨ 12 ≤ k →
      slice out (pos + k) n = slice h.fieldBytes k n := by
    intro k n hk hd
    rw [← hs, slice_overwrite_of_disjoint hsum (by rw [length_toLE]; omega),
      slice_overwrite_within hfield (by rw [length_fieldBytes]; omega)]
  have checksum : slice out (pos + 8) 4 = toLE 4 h.dataChecksum := by
    rw [← hs]
    have hw := slice_overwrite_within hsum
      (show 0 + 4 ≤ (toLE 4 h.dataChecksum).length by rw [length_toLE])
    rw [Nat.add_zero] at hw
    rw [hw, slice, List.drop_zero, List.take_of_length_le (by rw [length_toLE])]
  have padding : slice out (pos + 40) 4 = slice buf (pos + 40) 4 := by
    rw [← hs, slice_overwrite_of_disjoint hsum (by rw [length_toLE]; omega),
      slice_overwrite_of_disjoint hfield (by rw [length_fieldBytes]; omega)]
  have logId : slice out (pos + 8) 8 =
      toLE 4 h.dataChecksum ++ slice (toLEInt 8 h.logId) 4 4 := by
    rw [slice_add out (pos + 8) 4 4, checksum, ← hid, ← field 12 4 (by omega) (by omega)]
  have start := field 0 2 (by omega) (by omega)
  rw [Nat.add_zero] at start
  simp only [deserialize, getSerializeSize, hlen, Nat.not_lt.mpr hroom, ↓reduceIte, start, hmagic,
    field 2 2 (by omega) (by omega), hversion,
    field 4 4 (by omega) (by omega), hsize, logId, field 16 8 (by omega) (by omega), hproposal,
    field 24 8 (by omega) (by omega), hprev, field 32 8 (by omega) (by omega), hend, padding,
    ofLE_toLE]

theorem deserialize_append {buf : Bytes} (tail : Bytes) (h : getSerializeSize ≤ buf.length) :
    deserialize (buf ++ tail) 0 = deserialize buf 0 := by
  simp only [getSerializeSize] at h
  have keep : ∀ k n, k + n ≤ 48 → slice (buf ++ tail) k n = slice buf k n := by
    intro k n hk
    exact slice_append_of_le tail (by omega)
  simp only [deserialize, getSerializeSize, List.length_append, Nat.zero_add, keep 0 2 (by omega),
    keep 2 2 (by omega), keep 4 4 (by omega), keep 8 8 (by omega), keep 16 8 (by omega),
    keep 24 8 (by omega), keep 32 8 (by omega), keep 40 4 (by omega)]
  rw [if_neg (by omega), if_neg (by omega)]

structure InRange (h : LogGroupEntryHeader) : Prop where
  magic : h.magic < 2 ^ 16
  version : h.version < 2 ^ 16
  groupEntrySize : h.groupEntrySize < 2 ^ 32
  logId : -2 ^ 63 ≤ h.logId ∧ h.logId < 2 ^ 63
  logProposalId : -2 ^ 63 ≤ h.logProposalId ∧ h.logProposalId < 2 ^ 63
  prevLsn : h.prevLsn < 2 ^ 64
  committedEndLsn : h.committedEndLsn < 2 ^ 64
  dataChecksum : h.dataChecksum < 2 ^ 32

/-- `deserialize` gives back the header that `serialize` wrote, and both calls advance the
position by the size of a header. -/
def RoundTrips (h : LogGroupEntryHeader) (buf : Bytes) (pos : ℕ) : Prop :=
  ∃ out, h.serialize buf pos = some (out, pos + getSerializeSize) ∧
    deserialize out pos = some (h, pos + getSerializeSize)

theorem ofLEInt_low_half_eq_iff {id : ℤ} {sum : ℕ} (hid : -2 ^ 63 ≤ id ∧ id < 2 ^ 63)
    (hsum : sum < 2 ^ 32) :
    ofLEInt (toLE 4 sum ++ slice (toLEInt 8 id) 4 4) = id ↔ id % 2 ^ 32 = sum := by
  have hword : (id % (256 ^ 8 : ℕ)).toNat < 2 ^ 64 := by omega
  have hsplit : toLEInt 8 id = toLE 4 (id % (256 ^ 8 : ℕ)).toNat ++
      toLE 4 ((id % (256 ^ 8 : ℕ)).toNat / 256 ^ 4) := toLE_add 4 4 _
  have hhigh : slice (toLEInt 8 id) 4 4 = toLE 4 ((id % (256 ^ 8 : ℕ)).toNat / 256 ^ 4) := by
    rw [hsplit, slice, List.drop_left' (length_toLE 4 _),
      List.take_of_length_le (by rw [length_toLE])]
  have hself : ofLEInt (toLEInt 8 id) = id := ofLEInt_toLEInt (by omega) (by omega)
  have hlen : (toLE 4 sum ++ slice (toLEInt 8 id) 4 4).length = (toLEInt 8 id).length := by
    rw [hhigh, List.length_append, length_toLE, length_toLE, length_toLEInt]
  calc ofLEInt (toLE 4 sum ++ slice (toLEInt 8 id) 4 4) = id
      ↔ ofLEInt (toLE 4 sum ++ slice (toLEInt 8 id) 4 4) = ofLEInt (toLEInt 8 id) := by
        rw [hself]
    _ ↔ ofLE (toLE 4 sum ++ slice (toLEInt 8 id) 4 4) = ofLE (toLEInt 8 id) := ofLEInt_inj hlen
    _ ↔ id % 2 ^ 32 = sum := by
        rw [hhigh, hsplit, ofLE_append, ofLE_append, length_toLE, length_toLE, ofLE_toLE,
          ofLE_toLE, ofLE_toLE]
        omega

/-- The header comes back from its bytes exactly when its checksum is the low half of its log
id and already stood in the buffer at the place of the checksum. -/
theorem roundTrips_iff_checksum_in_place {h : LogGroupEntryHeader} (hr : h.InRange) (buf : Bytes)
    (pos : ℕ) (hroom : pos + getSerializeSize ≤ buf.length) :
    h.RoundTrips buf pos ↔
      h.logId % 2 ^ 32 = h.dataChecksum ∧ ofLE (slice buf (pos + 40) 4) = h.dataChecksum := by
  obtain ⟨out, hout⟩ : ∃ out, h.serialize buf pos = some (out, pos + getSerializeSize) := by
    unfold serialize
    rw [if_neg (by omega)]
    exact ⟨_, rfl⟩
  have hback := deserialize_serialize hout
  have hproposal : ofLEInt (toLEInt 8 h.logProposalId) = h.logProposalId :=
    ofLEInt_toLEInt (by have := hr.logProposalId; omega) (by have := hr.logProposalId; omega)
  rw [Nat.mod_eq_of_lt (show h.magic < 256 ^ 2 from hr.magic),
    Nat.mod_eq_of_lt (show h.version < 256 ^ 2 from hr.version),
    Nat.mod_eq_of_lt (show h.groupEntrySize < 256 ^ 4 from hr.groupEntrySize),
    Nat.mod_eq_of_lt (show h.prevLsn < 256 ^ 8 from hr.prevLsn),
    Nat.mod_eq_of_lt (show h.committedEndLsn < 256 ^ 8 from hr.committedEndLsn),
    hproposal] at hback
  rw [← ofLEInt_low_half_eq_iff hr.logId hr.dataChecksum]
  constructor
  · rintro ⟨out', hout', hdes⟩
    have hsame := Option.some.inj (hout.symm.trans hout')
    rw [← (Prod.mk.inj hsame).1, hback] at hdes
    have heq := (Prod.mk.inj (Option.some.inj hdes)).1
    have hid := congrArg logId heq
    have hsum := congrArg dataChecksum heq
    dsimp only at hid hsum
    exact ⟨hid, hsum⟩
  · rintro ⟨hid, hsum⟩
    refine ⟨out, hout, ?_⟩
    rw [hback, hid, hsum]

/-- A zeroed buffer and a log id whose low half is the checksum 0. -/
theorem roundTrips_iff_checksum_in_place_example :
    ({ logId := 2 ^ 32 } : LogGroupEntryHeader).RoundTrips (List.replicate 48 0) 0 :=
  (roundTrips_iff_checksum_in_place
    ⟨by decide, by decide, by decide, by decide, by decide, by decide, by decide, by decide⟩
    (List.replicate 48 0) 0 (by decide)).mpr (by decide)

/-- The header of a first entry, in a zeroed buffer: its log id 1 comes back as 0. -/
theorem log_id_overwritten :
    ¬ ({ logId := 1 } : LogGroupEntryHeader).RoundTrips (List.replicate 48 0) 0 := by
  rintro ⟨out, hout, hdes⟩
  cases hout
  exact absurd hdes (by decide)

end LogGroupEntryHeader

end PalfLogEntry
