import LsmStorage.ByteCodec
import Mathlib.Data.Vector.Basic

/-! # LogMetaEntry

`serialize` and `deserialize` set the position where they should add to it: the body of the entry
goes to byte 12 of the buffer, wherever the header stands, and the position ends at the size of the
entry, or at the end of the data. Of the meta only a part of the configuration is written.
`sizeof` is that of the 64-bit layout: 4152 bytes for the configuration, 16 for the snapshot, 16
for the mode and 8 for an LSN. -/
namespace PalfMetaEntry

open ByteCodec

structure LogConfigVersion where
  configVersion : Int64 := 0
  configSeq : Int64 := 0
  deriving DecidableEq

structure LogConfigMeta where
  proposalId : Int64 := 0
  prevLsn : UInt64 := 0
  prevLogProposalId : Int64 := 0
  prevModePid : Int64 := 0
  configVersion : LogConfigVersion := {}
  memberCount : Int32 := 0
  memberData : List.Vector UInt8 4096 := List.Vector.replicate 4096 0
  deriving DecidableEq

structure LogSnapshotMeta where
  snapshotLsn : UInt64 := 0
  snapshotVersion : Int64 := 0
  deriving DecidableEq

structure LogModeMeta where
  proposalId : Int64 := 0
  accessMode : Int32 := 0
  isAppliedModeMeta : Bool := false
  deriving DecidableEq

structure LogMeta where
  configMeta : LogConfigMeta := {}
  snapshotMeta : LogSnapshotMeta := {}
  modeMeta : LogModeMeta := {}
  logSnapshotLsn : UInt64 := 0
  deriving DecidableEq

def LogMeta.getSerializeSize : ℕ := 4152 + 16 + 16 + 8

structure LogMetaEntryHeader where
  magic : UInt32 := 0x4D48
  metaSize : UInt32 := 0
  checksum : UInt32 := 0

def LogMetaEntryHeader.size : ℕ := 12

structure LogMetaEntry where
  header : LogMetaEntryHeader := {}
  content : LogMeta := {}

namespace LogMetaEntry

def init (content : LogMeta) : LogMetaEntry where
  header := { metaSize := UInt32.ofNat LogMeta.getSerializeSize }
  content

def getSerializeSize (e : LogMetaEntry) : ℕ := LogMetaEntryHeader.size + e.header.metaSize.toNat

def headerBytes (h : LogMetaEntryHeader) : Bytes :=
  toLE 4 h.magic.toNat ++ toLE 4 h.metaSize.toNat ++ toLE 4 h.checksum.toNat

def bodyBytes (cm : LogConfigMeta) : Bytes :=
  toLEInt 8 cm.proposalId.toInt ++ toLE 8 cm.prevLsn.toNat ++
    toLEInt 8 cm.prevLogProposalId.toInt ++ toLEInt 8 cm.prevModePid.toInt ++
    toLEInt 8 cm.configVersion.configVersion.toInt ++ toLEInt 8 cm.configVersion.configSeq.toInt ++
    toLEInt 4 cm.memberCount.toInt

/-- The position is set to 12 and then to the size. -/
def serialize (e : LogMetaEntry) (buf : Bytes) (pos : ℕ) : Option (Bytes × ℕ) :=
  if buf.length < pos + e.getSerializeSize then none
  else
    let buf := overwrite buf pos (headerBytes e.header)
    let pos := LogMetaEntryHeader.size
    some (overwrite buf pos (bodyBytes e.content.configMeta), e.getSerializeSize)

def readBody (buf : Bytes) (pos : ℕ) (cm : LogConfigMeta) : LogConfigMeta :=
  { cm with
    proposalId := Int64.ofInt (ofLEInt (slice buf pos 8))
    prevLsn := UInt64.ofNat (ofLE (slice buf (pos + 8) 8))
    prevLogProposalId := Int64.ofInt (ofLEInt (slice buf (pos + 16) 8))
    prevModePid := Int64.ofInt (ofLEInt (slice buf (pos + 24) 8))
    configVersion :=
      { configVersion := Int64.ofInt (ofLEInt (slice buf (pos + 32) 8))
        configSeq := Int64.ofInt (ofLEInt (slice buf (pos + 40) 8)) }
    memberCount := Int32.ofInt (ofLEInt (slice buf (pos + 48) 4)) }

/-- Into a meta that the caller has; the position ends at the end of the data. -/
def deserialize (buf : Bytes) (dataLen pos : ℕ) (target : LogMeta) : Option (LogMeta × ℕ) :=
  if dataLen < pos + LogMetaEntryHeader.size then none
  else
    let magic := UInt32.ofNat (ofLE (slice buf pos 4))
    let metaSize := UInt32.ofNat (ofLE (slice buf (pos + 4) 4))
    let pos := LogMetaEntryHeader.size
    if magic ≠ 0x4D48 then none
    else if dataLen < pos + metaSize.toNat then none
    else some ({ target with configMeta := readBody buf pos target.configMeta }, dataLen)

/-- What the two functions should do: `serialize` writes inside the entry and moves the position
behind it, and `deserialize` brings back the meta and the position. -/
def RoundTrips (content : LogMeta) (buf : Bytes) (pos dataLen : ℕ) (target : LogMeta) : Prop :=
  ∃ out, (init content).serialize buf pos = some (out, pos + (init content).getSerializeSize) ∧
    (∀ i, ¬ (pos ≤ i ∧ i < pos + (init content).getSerializeSize) → out[i]? = buf[i]?) ∧
    deserialize out dataLen pos target = some (content, pos + (init content).getSerializeSize)

structure SameRest (a b : LogMeta) : Prop where
  memberData : a.configMeta.memberData = b.configMeta.memberData
  snapshotMeta : a.snapshotMeta = b.snapshotMeta
  modeMeta : a.modeMeta = b.modeMeta
  logSnapshotLsn : a.logSnapshotLsn = b.logSnapshotLsn

theorem SameRest.restore {target content : LogMeta} (h : SameRest target content) :
    { target with configMeta :=
      { content.configMeta with memberData := target.configMeta.memberData } } = content := by
  rw [h.memberData, h.snapshotMeta, h.modeMeta, h.logSnapshotLsn]

theorem getSerializeSize_init (content : LogMeta) : (init content).getSerializeSize = 4204 := by
  simp [getSerializeSize, init, LogMeta.getSerializeSize, LogMetaEntryHeader.size]

theorem length_headerBytes (h : LogMetaEntryHeader) : (headerBytes h).length = 12 := by
  simp [headerBytes]

theorem length_bodyBytes (cm : LogConfigMeta) : (bodyBytes cm).length = 52 := by
  simp [bodyBytes]

theorem ofLEInt_int64 (x : Int64) : Int64.ofInt (ofLEInt (toLEInt 8 x.toInt)) = x := by
  have hlo := x.le_toInt
  have hhi := x.toInt_lt
  rw [ofLEInt_toLEInt (by omega) (by omega), Int64.ofInt_toInt]

theorem ofLEInt_int32 (x : Int32) : Int32.ofInt (ofLEInt (toLEInt 4 x.toInt)) = x := by
  have hlo := x.le_toInt
  have hhi := x.toInt_lt
  rw [ofLEInt_toLEInt (by omega) (by omega), Int32.ofInt_toInt]

theorem slice_fields {a b c d e f g t : Bytes} (ht : t = a ++ b ++ c ++ d ++ e ++ f ++ g)
    (ha : a.length = 8) (hb : b.length = 8) (hc : c.length = 8) (hd : d.length = 8)
    (he : e.length = 8) (hf : f.length = 8) (hg : g.length = 4) :
    slice t 0 8 = a ∧ slice t 8 8 = b ∧ slice t 16 8 = c ∧ slice t 24 8 = d ∧
      slice t 32 8 = e ∧ slice t 40 8 = f ∧ slice t 48 4 = g := by
  subst ht
  refine ⟨?_, ?_, ?_, ?_, ?_, ?_, ?_⟩ <;>
    simp [slice, List.drop_append, List.drop_eq_nil_of_le, List.take_of_length_le, ha, hb, hc, hd,
      he, hf, hg]

theorem slice_bodyBytes (cm : LogConfigMeta) :
    slice (bodyBytes cm) 0 8 = toLEInt 8 cm.proposalId.toInt ∧
    slice (bodyBytes cm) 8 8 = toLE 8 cm.prevLsn.toNat ∧
    slice (bodyBytes cm) 16 8 = toLEInt 8 cm.prevLogProposalId.toInt ∧
    slice (bodyBytes cm) 24 8 = toLEInt 8 cm.prevModePid.toInt ∧
    slice (bodyBytes cm) 32 8 = toLEInt 8 cm.configVersion.configVersion.toInt ∧
    slice (bodyBytes cm) 40 8 = toLEInt 8 cm.configVersion.configSeq.toInt ∧
    slice (bodyBytes cm) 48 4 = toLEInt 4 cm.memberCount.toInt :=
  slice_fields rfl (length_toLEInt 8 _) (length_toLE 8 _) (length_toLEInt 8 _) (length_toLEInt 8 _)
    (length_toLEInt 8 _) (length_toLEInt 8 _) (length_toLEInt 4 _)

theorem readBody_of_slice {buf : Bytes} {pos : ℕ} {cm : LogConfigMeta} (target : LogConfigMeta)
    (hbytes : slice buf pos 52 = bodyBytes cm) :
    readBody buf pos target = { cm with memberData := target.memberData } := by
  obtain ⟨hproposal, hlsn, hlog, hmode, hversion, hseq, hcount⟩ := slice_bodyBytes cm
  have field : ∀ k n, k + n ≤ 52 → slice buf (pos + k) n = slice (bodyBytes cm) k n := by
    intro k n hk
    rw [← hbytes, slice_slice buf hk]
  have start := field 0 8 (by omega)
  rw [Nat.add_zero] at start
  rw [readBody, start, field 8 8 (by omega), field 16 8 (by omega), field 24 8 (by omega),
    field 32 8 (by omega), field 40 8 (by omega), field 48 4 (by omega), hproposal, hlsn, hlog,
    hmode, hversion, hseq, hcount, ofLEInt_int64, ofLEInt_int64, ofLEInt_int64, ofLEInt_int64,
    ofLEInt_int64, ofLEInt_int32, ofLE_toLE_of_lt (w := 8) (UInt64.toNat_lt _),
    UInt64.ofNat_toNat]

section RoundTrip

variable {content target : LogMeta} {buf : Bytes} {pos dataLen : ℕ}

theorem deserialize_keeps {out : Bytes} {m : LogMeta} {fin : ℕ}
    (h : deserialize out dataLen pos target = some (m, fin)) :
    SameRest target m ∧ fin = dataLen := by
  rw [deserialize] at h
  split at h
  · cases h
  · dsimp only at h
    split at h
    · cases h
    · split at h
      · cases h
      · cases h
        exact ⟨⟨rfl, rfl, rfl, rfl⟩, rfl⟩

theorem serialize_pos {out : Bytes} {fin : ℕ}
    (h : (init content).serialize buf pos = some (out, fin)) :
    fin = (init content).getSerializeSize := by
  rw [serialize] at h
  split at h
  · cases h
  · cases h
    rfl

def entryBytes (content : LogMeta) : Bytes :=
  headerBytes (init content).header ++ bodyBytes content.configMeta

theorem length_entryBytes (content : LogMeta) : (entryBytes content).length = 64 := by
  rw [entryBytes, List.length_append, length_headerBytes, length_bodyBytes]

theorem serialize_zero (hroom : (init content).getSerializeSize ≤ buf.length) :
    (init content).serialize buf 0 =
      some (overwrite buf 0 (entryBytes content), (init content).getSerializeSize) := by
  have happend := overwrite_append (b := buf) (headerBytes (init content).header)
    (bodyBytes content.configMeta) (Nat.zero_le _)
  rw [length_headerBytes, Nat.zero_add] at happend
  rw [serialize, if_neg (by omega)]
  exact congrArg (fun b => some (b, (init content).getSerializeSize)) happend

theorem slice_headerBytes (h : LogMetaEntryHeader) :
    slice (headerBytes h) 0 4 = toLE 4 h.magic.toNat ∧
      slice (headerBytes h) 4 4 = toLE 4 h.metaSize.toNat := by
  refine ⟨?_, ?_⟩ <;> simp [slice, headerBytes, List.drop_append]

theorem uint32_of_bytes (x : UInt32) : UInt32.ofNat (ofLE (toLE 4 x.toNat)) = x := by
  rw [ofLE_toLE_of_lt (w := 4) (UInt32.toNat_lt _), UInt32.ofNat_toNat]

theorem slice_written (content : LogMeta) (hbuf : 64 ≤ buf.length) {k n : ℕ} (hk : k + n ≤ 64) :
    slice (overwrite buf 0 (entryBytes content)) k n = slice (entryBytes content) k n := by
  have hsrc := length_entryBytes content
  have hfits : 0 + (entryBytes content).length ≤ buf.length := by omega
  have hwithin := slice_overwrite_within hfits (show k + n ≤ _ by omega)
  rw [Nat.zero_add] at hwithin
  exact hwithin

theorem slice_written_header (content : LogMeta) (hbuf : 64 ≤ buf.length) {k n : ℕ}
    (hk : k + n ≤ 12) :
    slice (overwrite buf 0 (entryBytes content)) k n =
      slice (headerBytes (init content).header) k n := by
  rw [slice_written content hbuf (by omega)]
  exact slice_append_of_le _ (by rw [length_headerBytes]; exact hk)

theorem slice_written_body (content : LogMeta) (hbuf : 64 ≤ buf.length) :
    slice (overwrite buf 0 (entryBytes content)) 12 52 = bodyBytes content.configMeta := by
  rw [slice_written content hbuf (by omega), entryBytes, slice,
    List.drop_left' (length_headerBytes _), List.take_of_length_le (by rw [length_bodyBytes])]

theorem deserialize_zero (hroom : (init content).getSerializeSize ≤ dataLen)
    (hlen : dataLen ≤ buf.length) :
    deserialize (overwrite buf 0 (entryBytes content)) dataLen 0 target =
        some ({ target with configMeta :=
          { content.configMeta with memberData := target.configMeta.memberData } }, dataLen) := by
  rw [getSerializeSize_init] at hroom
  have hbuf : 64 ≤ buf.length := by omega
  obtain ⟨hmagic, hsize⟩ := slice_headerBytes (init content).header
  have hread := readBody_of_slice target.configMeta (slice_written_body content hbuf)
  have hfull : ¬ dataLen < LogMetaEntryHeader.size + (init content).header.metaSize.toNat := by
    have hsize : LogMetaEntryHeader.size + (init content).header.metaSize.toNat = 4204 :=
      getSerializeSize_init content
    omega
  rw [deserialize, if_neg (by unfold LogMetaEntryHeader.size; omega)]
  dsimp only
  rw [slice_written_header content hbuf (by omega), hmagic, uint32_of_bytes,
    if_neg (show ¬ (init content).header.magic ≠ 0x4D48 from fun h => h rfl),
    slice_written_header content hbuf (by omega), Nat.zero_add, hsize, uint32_of_bytes,
    if_neg hfull]
  exact congrArg (fun cm => some ({ target with configMeta := cm }, dataLen)) hread

/-- The codec does its work only from the start of the buffer, for data of exactly one entry, and
into a meta that already has the parts that are not written. -/
theorem meta_roundTrips_iff (content : LogMeta) (buf : Bytes) (pos dataLen : ℕ) (target : LogMeta)
    (hroom : pos + (init content).getSerializeSize ≤ dataLen) (hlen : dataLen ≤ buf.length) :
    RoundTrips content buf pos dataLen target ↔
      pos = 0 ∧ dataLen = (init content).getSerializeSize ∧ SameRest target content := by
  constructor
  · rintro ⟨out, hserialize, -, hdeserialize⟩
    have hend := serialize_pos hserialize
    obtain ⟨hrest, hfin⟩ := deserialize_keeps hdeserialize
    exact ⟨by omega, by omega, hrest⟩
  · rintro ⟨rfl, hexact, hrest⟩
    rw [Nat.zero_add] at hroom
    have hserialize := serialize_zero (hroom.trans hlen)
    refine ⟨_, by rw [hserialize, Nat.zero_add], ?_, ?_⟩
    · intro i hi
      have hsrc := length_entryBytes content
      rw [getSerializeSize_init] at *
      rw [getElem?_overwrite (by omega), if_neg (by omega)]
    · rw [deserialize_zero hroom hlen, Nat.zero_add, hrest.restore, hexact]

/-- A buffer of one entry and a new meta on both sides. -/
theorem meta_roundTrips_fresh :
    RoundTrips { configMeta := { proposalId := 3 } } (List.replicate 4204 0) 0 4204 {} :=
  (meta_roundTrips_iff _ _ 0 4204 {} (Nat.le_of_eq (by rw [getSerializeSize_init]))
    (Nat.le_of_eq (List.length_replicate).symm)).mpr
    ⟨rfl, (getSerializeSize_init _).symm, rfl, rfl, rfl, rfl⟩

/-- The mode does not come back, from a buffer of one entry. -/
theorem mode_not_written :
    ¬ RoundTrips { modeMeta := { accessMode := 1 } } (List.replicate 4204 0) 0 4204 {} := by
  rintro ⟨out, -, -, hdeserialize⟩
  have hmode := (deserialize_keeps hdeserialize).1.modeMeta
  exact absurd (congrArg LogModeMeta.accessMode hmode) (by decide)

end RoundTrip

end LogMetaEntry

end PalfMetaEntry
