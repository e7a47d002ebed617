import LsmStorage.PalfLogEntry

/-! # Log entries one behind the other

`LogEntry::serialize` moves the position behind the payload, `LogEntry::deserialize` only behind
the header. The fields of the header have the widths of the source, so it has no padding.
Allocations succeed here. -/
namespace PalfLogEntry

open ByteCodec

structure LogEntryHeader where
  magic : UInt16 := 0x4C48
  version : UInt16 := 1
  dataLen : UInt32 := 0
  dataChecksum : UInt32 := 0
  deriving DecidableEq, Repr

namespace LogEntryHeader

def getSerializeSize : ℕ := 12

def bytes (h : LogEntryHeader) : Bytes :=
  toLE 2 h.magic.toNat ++ toLE 2 h.version.toNat ++ toLE 4 h.dataLen.toNat ++
    toLE 4 h.dataChecksum.toNat

def serialize (h : LogEntryHeader) (buf : Bytes) (pos : ℕ) : Option (Bytes × ℕ) :=
  if buf.length < pos + getSerializeSize then none
  else some (overwrite buf pos h.bytes, pos + getSerializeSize)

/-- `dataLen` is the argument `data_len`, the end of the readable part. -/
def deserialize (buf : Bytes) (dataLen pos : ℕ) : Option (LogEntryHeader × ℕ) :=
  if dataLen < pos + getSerializeSize then none
  else
    some ({ magic := UInt16.ofNat (ofLE (slice buf pos 2))
            version := UInt16.ofNat (ofLE (slice buf (pos + 2) 2))
            dataLen := UInt32.ofNat (ofLE (slice buf (pos + 4) 4))
            dataChecksum := UInt32.ofNat (ofLE (slice buf (pos + 8) 4)) }, pos + getSerializeSize)

theorem length_bytes (h : LogEntryHeader) : h.bytes.length = 12 := by
  simp [bytes]

theorem slice_bytes (h : LogEntryHeader) :
    slice h.bytes 0 2 = toLE 2 h.magic.toNat ∧ slice h.bytes 2 2 = toLE 2 h.version.toNat ∧
      slice h.bytes 4 4 = toLE 4 h.dataLen.toNat ∧
      slice h.bytes 8 4 = toLE 4 h.dataChecksum.toNat := by
  refine ⟨?_, ?_, ?_, ?_⟩ <;>
    simp [slice, bytes, List.drop_append, List.drop_eq_nil_of_le, List.take_of_length_le]

theorem deserialize_of_slice {h : LogEntryHeader} {buf : Bytes} {dataLen pos : ℕ}
    (hroom : pos + getSerializeSize ≤ dataLen) (hbytes : slice buf pos 12 = h.bytes) :
    deserialize buf dataLen pos = some (h, pos + getSerializeSize) := by
  obtain ⟨hmagic, hversion, hlen, hsum⟩ := slice_bytes h
  have field : ∀ k n, k + n ≤ 12 → slice buf (pos + k) n = slice h.bytes k n := by
    intro k n hk
    rw [← hbytes, slice_slice buf hk]
  have start := field 0 2 (by omega)
  rw [Nat.add_zero] at start
  rw [deserialize, if_neg (by omega), start, field 2 2 (by omega), field 4 4 (by omega),
    field 8 4 (by omega), hmagic, hversion, hlen, hsum,
    ofLE_toLE_of_lt (w := 2) (UInt16.toNat_lt _), ofLE_toLE_of_lt (w := 2) (UInt16.toNat_lt _),
    ofLE_toLE_of_lt (w := 4) (UInt32.toNat_lt _), ofLE_toLE_of_lt (w := 4) (UInt32.toNat_lt _),
    UInt16.ofNat_toNat, UInt16.ofNat_toNat, UInt32.ofNat_toNat, UInt32.ofNat_toNat]

end LogEntryHeader

/-- `buf_len_` is the length of the payload. -/
structure LogEntry where
  header : LogEntryHeader := {}
  buf : Bytes := []
  deriving DecidableEq

namespace LogEntry

open LogEntryHeader (getSerializeSize)

def init (data : Bytes) : LogEntry where
  header := { dataLen := UInt32.ofNat data.length }
  buf := data

def serialize (e : LogEntry) (buf : Bytes) (pos : ℕ) : Option (Bytes × ℕ) := do
  let (buf, pos) ← e.header.serialize buf pos
  if buf.length < pos + e.buf.length then none
  else some (overwrite buf pos e.buf, pos + e.buf.length)

/-- The position stays where the header ends. -/
def deserialize (buf : Bytes) (dataLen pos : ℕ) : Option (LogEntry × ℕ) := do
  let (header, pos) ← LogEntryHeader.deserialize buf dataLen pos
  if dataLen < pos + header.dataLen.toNat then none
  else some (init (slice buf pos header.dataLen.toNat), pos)

def serializeAll : List LogEntry → Bytes → ℕ → Option (Bytes × ℕ)
  | [], buf, pos => some (buf, pos)
  | e :: entries, buf, pos => do
    let (buf, pos) ← e.serialize buf pos
    serializeAll entries buf pos

variable {buf : Bytes}

theorem deserialize_pos {dataLen pos pos' : ℕ} {e : LogEntry}
    (h : deserialize buf dataLen pos = some (e, pos')) :
    pos' = pos + getSerializeSize ∧ pos' ≤ dataLen := by
  obtain ⟨⟨header, p⟩, hheader, h⟩ := Option.bind_eq_some_iff.mp h
  rw [LogEntryHeader.deserialize] at hheader
  split at hheader
  · cases hheader
  · next hroom =>
    cases hheader
    dsimp only at h
    split at h
    · cases h
    · cases h
      exact ⟨rfl, Nat.le_of_not_lt hroom⟩

/-- `deserialize` with the running position until it reaches the end; `none` where a call fails. -/
def deserializeAll (buf : Bytes) (dataLen pos : ℕ) : Option (List LogEntry) :=
  if pos < dataLen then
    match _h : deserialize buf dataLen pos with
    | none => none
    | some (e, pos') => (deserializeAll buf dataLen pos').map (e :: ·)
  else some []
termination_by dataLen - pos
decreasing_by
  have hpos := deserialize_pos ‹_›
  unfold getSerializeSize at hpos
  omega

def bytes (e : LogEntry) : Bytes := e.header.bytes ++ e.buf

theorem length_bytes (e : LogEntry) : e.bytes.length = getSerializeSize + e.buf.length := by
  rw [bytes, List.length_append, LogEntryHeader.length_bytes]
  rfl

theorem serialize_eq (e : LogEntry) {pos : ℕ} (h : pos + e.bytes.length ≤ buf.length) :
    e.serialize buf pos = some (overwrite buf pos e.bytes, pos + e.bytes.length) := by
  have hheader : pos + e.header.bytes.length ≤ buf.length := by
    rw [bytes, List.length_append] at h
    omega
  have hsize : e.header.bytes.length = getSerializeSize := e.header.length_bytes
  rw [length_bytes] at h
  have hfirst : e.header.serialize buf pos =
      some (overwrite buf pos e.header.bytes, pos + e.header.bytes.length) := by
    rw [LogEntryHeader.serialize, if_neg (by omega), hsize]
  rw [serialize, hfirst, Option.bind_eq_bind, Option.bind_some]
  dsimp only
  rw [length_overwrite hheader, if_neg (by omega), overwrite_append _ _ (by omega), length_bytes,
    hsize, Nat.add_assoc]
  rfl

theorem serializeAll_eq {entries : List LogEntry} {pos : ℕ}
    (h : pos + (entries.flatMap bytes).length ≤ buf.length) :
    serializeAll entries buf pos = some (overwrite buf pos (entries.flatMap bytes),
      pos + (entries.flatMap bytes).length) := by
  induction entries generalizing buf pos with
  | nil => simp [serializeAll, overwrite]
  | cons e entries ih =>
    rw [List.flatMap_cons, List.length_append] at h ⊢
    have hfits : pos + e.bytes.length ≤ buf.length := by omega
    rw [serializeAll, serialize_eq e hfits, Option.bind_eq_bind, Option.bind_some]
    dsimp only
    rw [ih (by rw [length_overwrite hfits]; omega), overwrite_append _ _ (by omega), Nat.add_assoc]

theorem length_of_deserializeAll {dataLen pos : ℕ} {entries : List LogEntry}
    (h : deserializeAll buf dataLen pos = some entries) (hle : pos ≤ dataLen) :
    dataLen = pos + getSerializeSize * entries.length := by
  fun_induction deserializeAll buf dataLen pos generalizing entries with
  | case1 pos hlt hnone => cases h
  | case2 pos hlt e pos' hsome ih =>
    obtain ⟨rest, hrest, rfl⟩ := Option.map_eq_some_iff.mp h
    obtain ⟨rfl, hle'⟩ := deserialize_pos hsome
    have hlen := ih hrest hle'
    rw [List.length_cons, Nat.mul_succ]
    omega
  | case3 pos hge =>
    cases h
    rw [List.length_nil, Nat.mul_zero]
    omega

theorem length_flatMap_bytes (payloads : List Bytes) :
    ((payloads.map init).flatMap bytes).length =
      getSerializeSize * payloads.length + payloads.flatten.length := by
  induction payloads with
  | nil => rfl
  | cons p payloads ih =>
    rw [List.map_cons, List.flatMap_cons, List.length_append, length_bytes, ih, List.length_cons,
      List.flatten_cons, List.length_append, Nat.mul_succ]
    show getSerializeSize + p.length + _ = _
    omega

theorem deserialize_empty {dataLen pos : ℕ} (hroom : pos + getSerializeSize ≤ dataLen)
    (hbytes : slice buf pos 12 = (init []).bytes) :
    deserialize buf dataLen pos = some (init [], pos + getSerializeSize) := by
  have hheader := LogEntryHeader.deserialize_of_slice (h := {}) hroom hbytes
  rw [deserialize, hheader, Option.bind_eq_bind, Option.bind_some]
  dsimp only
  exact if_neg (Nat.not_lt.mpr hroom)

theorem deserializeAll_empty {dataLen pos n : ℕ} (hend : dataLen = pos + getSerializeSize * n)
    (hbytes : ∀ i < n, slice buf (pos + getSerializeSize * i) 12 = (init []).bytes) :
    deserializeAll buf dataLen pos = some (List.replicate n (init [])) := by
  induction n generalizing pos with
  | zero =>
    rw [deserializeAll, if_neg (by omega)]
    rfl
  | succ n ih =>
    rw [Nat.mul_succ] at hend
    have hfirst : deserialize buf dataLen pos = some (init [], pos + getSerializeSize) :=
      deserialize_empty (by omega) (hbytes 0 (Nat.succ_pos n))
    have hrest : deserializeAll buf dataLen (pos + getSerializeSize) =
        some (List.replicate n (init [])) := by
      refine ih (by omega) fun i hi => ?_
      have hnext := hbytes (i + 1) (Nat.succ_lt_succ hi)
      rw [Nat.mul_succ, Nat.add_comm (getSerializeSize * i), ← Nat.add_assoc] at hnext
      exact hnext
    have hlt : pos < dataLen := by
      unfold getSerializeSize at hend
      omega
    rw [deserializeAll, if_pos hlt]
    split
    · next hnone => cases hfirst.symm.trans hnone
    · next e pos' hsome =>
      cases hfirst.symm.trans hsome
      rw [hrest]
      rfl

theorem slice_replicate (n : ℕ) (rest : Bytes) {i : ℕ} (hi : i < n) :
    slice ((List.replicate n (init [])).flatMap bytes ++ rest) (getSerializeSize * i) 12 =
      (init []).bytes := by
  have hconst : (List.replicate n (init [])).flatMap bytes =
      (List.replicate n ()).flatMap fun _ => (init []).bytes := by
    rw [List.flatMap_replicate, List.flatMap_replicate]
  rw [hconst]
  exact slice_flatMap (f := fun _ : Unit => (init []).bytes)
    (fun _ => length_bytes (init [])) rest
    (by rw [List.getElem?_replicate, if_pos hi])

/-- Entries that were written one behind the other are read back with the running position exactly
where none of them has a payload. -/
theorem entries_decode_iff (payloads : List Bytes) (buf : Bytes)
    (hroom : ((payloads.map init).flatMap bytes).length ≤ buf.length) :
    (∃ out dataLen, serializeAll (payloads.map init) buf 0 = some (out, dataLen) ∧
        deserializeAll out dataLen 0 = some (payloads.map init)) ↔
      ∀ p ∈ payloads, p = [] := by
  rw [← Nat.zero_add (List.length _)] at hroom
  rw [serializeAll_eq hroom]
  constructor
  · rintro ⟨out, dataLen, heq, hall⟩
    cases heq
    have hcount := length_of_deserializeAll hall (Nat.zero_le _)
    rw [length_flatMap_bytes, List.length_map] at hcount
    have hempty : payloads.flatten = [] := List.length_eq_zero_iff.mp (by omega)
    exact List.flatten_eq_nil_iff.mp hempty
  · intro hempty
    obtain ⟨n, rfl⟩ : ∃ n, payloads = List.replicate n [] :=
      ⟨_, List.eq_replicate_of_mem hempty⟩
    refine ⟨_, _, rfl, ?_⟩
    rw [List.map_replicate]
    apply deserializeAll_empty
    · have hcount := length_flatMap_bytes (List.replicate n [])
      rw [List.map_replicate, List.length_replicate, List.flatten_replicate_nil] at hcount
      rw [hcount]
      rfl
    · intro i hi
      rw [Nat.zero_add]
      exact slice_replicate n _ hi

/-- Two entries without payload. -/
theorem entries_decode_empty :
    ∃ out dataLen, serializeAll ([[], []].map init) (List.replicate 24 0) 0 = some (out, dataLen) ∧
      deserializeAll out dataLen 0 = some ([[], []].map init) :=
  (entries_decode_iff [[], []] (List.replicate 24 0) (by decide)).mpr (by decide)

/-- After an entry with one byte the position is on that byte, which is no header. -/
theorem payload_not_skipped :
    ¬ ∃ out dataLen, serializeAll ([[7]].map init) (List.replicate 13 0) 0 = some (out, dataLen) ∧
      deserializeAll out dataLen 0 = some ([[7]].map init) := by
  rintro ⟨out, dataLen, hserialize, hall⟩
  have hend : dataLen = 13 := by
    cases hserialize
    rfl
  have hcount := length_of_deserializeAll hall (Nat.zero_le _)
  rw [hend] at hcount
  exact absurd hcount (by decide)

end LogEntry

end PalfLogEntry
