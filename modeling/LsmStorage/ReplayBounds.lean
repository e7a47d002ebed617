import LsmStorage.DdlService
import LsmStorage.MemtableLog

/-! # What the replay handlers touch

Every length in a record is taken from the record. The model lists the ranges that a replay
reads and writes, in the order of the source, and a replay is robust when all of them are
inside their objects. Memory behind the record is arbitrary: a length that is read there does
not help, because that read is already outside. -/
namespace ReplayBounds

open ByteCodec Memtable MemtableLog LogReplay DdlService SchemaService ObMemtable

variable {η : Type*}

/-- The record, the array `name[256]` and the log buffer that `set` allocates. -/
inductive Region where
  | record
  | name
  | logBuf
  deriving DecidableEq, Repr

structure Access where
  region : Region
  off : ℤ
  len : ℤ
  deriving DecidableEq, Repr

/-- A range of negative length is not inside anything. -/
def Access.Within (size : Region → ℤ) (a : Access) : Prop :=
  0 ≤ a.off ∧ 0 ≤ a.len ∧ a.off + a.len ≤ size a.region

instance (size : Region → ℤ) (a : Access) : Decidable (a.Within size) :=
  inferInstanceAs (Decidable (_ ∧ _ ∧ _))

def bytesAt (mem : ℤ → UInt8) (off : ℤ) (n : ℕ) : Bytes :=
  (List.range n).map fun i : ℕ => mem (off + (i : ℤ))

/-- `mem` is the memory around the record, seen from its first byte. -/
def Backs (mem : ℤ → UInt8) (record : Bytes) : Prop :=
  ∀ i : ℕ, i < record.length → record[i]? = some (mem i)

theorem Backs.bytesAt_eq_slice {mem : ℤ → UInt8} {record : Bytes} (h : Backs mem record)
    {off n : ℕ} (hle : off + n ≤ record.length) : bytesAt mem off n = slice record off n := by
  apply List.ext_getElem?
  intro i
  rw [getElem?_slice, bytesAt, List.getElem?_map]
  by_cases hi : i < n
  · rw [List.getElem?_range hi, if_pos hi, h (off + i) (by omega)]
    simp
  · rw [if_neg hi, List.getElem?_eq_none (by simpa using hi)]
    rfl

section MemtableRecord

variable {mem : ℤ → UInt8} {keyHigh valHigh record : Bytes}

def keyLen (mem : ℤ → UInt8) (keyHigh : Bytes) : ℤ := ofLEInt (bytesAt mem 1 4 ++ keyHigh)

/-- `val_len` is read behind the key, wherever `key_len` puts that. -/
def valLen (mem : ℤ → UInt8) (keyHigh valHigh : Bytes) : ℤ :=
  ofLEInt (bytesAt mem (5 + keyLen mem keyHigh) 4 ++ valHigh)

def recordReads (key val : ℤ) : List Access :=
  [⟨.record, 0, 1⟩, ⟨.record, 1, 4⟩] ++ (if 0 < key then [⟨.record, 5, key⟩] else []) ++
    [⟨.record, 5 + key, 4⟩, ⟨.record, 9 + key, val⟩]

/-- `set` builds the record again, in a buffer of `1 + 4 + key_len + 4 + val_len` bytes. The
position is not moved by a negative `key_len`. -/
def logBufWrites (key val : ℤ) : List Access :=
  [⟨.logBuf, 0, 1⟩, ⟨.logBuf, 1, 4⟩] ++ (if 0 < key then [⟨.logBuf, 5, key⟩] else []) ++
    [⟨.logBuf, 5 + max key 0, 4⟩] ++ (if 0 < val then [⟨.logBuf, 9 + max key 0, val⟩] else [])

def setWrites (t : ObMemtable η) (mallocOk : Bool) : Bool := t.isInited && !t.isFrozen && mallocOk

def memtableAccesses (mem : ℤ → UInt8) (keyHigh valHigh : Bytes) (nbytes : ℕ) (t : ObMemtable η)
    (mallocOk : Bool) : List Access :=
  if nbytes = 0 then []
  else
    let key := keyLen mem keyHigh
    let val := valLen mem keyHigh valHigh
    recordReads key val ++ if setWrites t mallocOk then logBufWrites key val else []

def memtableSize (nbytes : ℕ) (key val : ℤ) : Region → ℤ
  | .record => nbytes
  | .name => 256
  | .logBuf => 9 + key + val

/-- `ObMemtable::replay` stays inside the record and inside the buffer of `set`. -/
def MemtableRobust (mem : ℤ → UInt8) (keyHigh valHigh : Bytes) (nbytes : ℕ) (t : ObMemtable η)
    (mallocOk : Bool) : Prop :=
  ∀ a ∈ memtableAccesses mem keyHigh valHigh nbytes t mallocOk,
    a.Within (memtableSize nbytes (keyLen mem keyHigh) (valLen mem keyHigh valHigh))

/-- The lengths in a record of a memtable agree with its size; `key` and `val` are what the
length variables hold. -/
def LengthsFit (nbytes : ℕ) (key val : ℤ) : Prop :=
  5 ≤ nbytes ∧ 0 ≤ 5 + key ∧ 0 ≤ val ∧ 9 + key ≤ nbytes ∧ 9 + key + val ≤ nbytes

theorem recordReads_within_iff (nbytes : ℕ) (key val : ℤ) :
    (∀ a ∈ recordReads key val, a.Within (memtableSize nbytes key val)) ↔
      LengthsFit nbytes key val := by
  by_cases hkey : 0 < key <;>
    simp only [recordReads, hkey, ↓reduceIte, List.cons_append, List.nil_append,
      List.forall_mem_cons, List.not_mem_nil, false_implies, implies_true, and_true,
      Access.Within, memtableSize, LengthsFit] <;> omega

theorem logBufWrites_within_iff {nbytes : ℕ} {key val : ℤ} (hval : 0 ≤ val) :
    (∀ a ∈ logBufWrites key val, a.Within (memtableSize nbytes key val)) ↔ 0 ≤ key := by
  by_cases hkey : 0 < key <;> by_cases hpos : 0 < val
  all_goals
    simp only [logBufWrites, hkey, hpos, ↓reduceIte, List.cons_append, List.nil_append,
      List.forall_mem_cons, List.not_mem_nil, Access.Within, memtableSize]
    simp
    omega

theorem memtableRobust_iff_mem (t : ObMemtable η) (mallocOk : Bool) {nbytes : ℕ}
    (hpos : 1 ≤ nbytes) :
    MemtableRobust mem keyHigh valHigh nbytes t mallocOk ↔
      LengthsFit nbytes (keyLen mem keyHigh) (valLen mem keyHigh valHigh) ∧
        (setWrites t mallocOk = true → 0 ≤ keyLen mem keyHigh) := by
  have hne : nbytes ≠ 0 := by omega
  simp only [MemtableRobust, memtableAccesses, hne, ↓reduceIte, List.forall_mem_append,
    recordReads_within_iff]
  refine and_congr_right fun hfit => ?_
  by_cases hset : setWrites t mallocOk
  · simp only [hset, ↓reduceIte, logBufWrites_within_iff hfit.2.2.1, forall_const]
  · simp [hset]

/-- `key_len` and `val_len` when they are read inside the record. -/
def recordKeyLen (keyHigh record : Bytes) : ℤ := ofLEInt (slice record 1 4 ++ keyHigh)

def recordValLen (keyHigh valHigh record : Bytes) : ℤ :=
  ofLEInt (slice record (5 + recordKeyLen keyHigh record).toNat 4 ++ valHigh)

theorem keyLen_of_backs (hb : Backs mem record) (h : 5 ≤ record.length) :
    keyLen mem keyHigh = recordKeyLen keyHigh record := by
  have hslice := hb.bytesAt_eq_slice (show 1 + 4 ≤ record.length from h)
  rw [keyLen, recordKeyLen, ← hslice]
  rfl

theorem valLen_of_backs (hb : Backs mem record) (h : 5 ≤ record.length)
    (hlo : 0 ≤ 5 + recordKeyLen keyHigh record)
    (hhi : 9 + recordKeyLen keyHigh record ≤ record.length) :
    valLen mem keyHigh valHigh = recordValLen keyHigh valHigh record := by
  have hslice := hb.bytesAt_eq_slice
    (show (5 + recordKeyLen keyHigh record).toNat + 4 ≤ record.length by omega)
  rw [Int.toNat_of_nonneg hlo] at hslice
  rw [valLen, recordValLen, keyLen_of_backs hb h, hslice]

/-- The replay of a memtable is robust exactly when the lengths in the record agree with its
size, and the key length is not negative unless `set` refuses the row before it uses it. -/
theorem memtableRobust_iff (hb : Backs mem record) (hpos : 1 ≤ record.length)
    (t : ObMemtable η) (mallocOk : Bool) :
    MemtableRobust mem keyHigh valHigh record.length t mallocOk ↔
      LengthsFit record.length (recordKeyLen keyHigh record)
          (recordValLen keyHigh valHigh record) ∧
        (setWrites t mallocOk = true → 0 ≤ recordKeyLen keyHigh record) := by
  rw [memtableRobust_iff_mem t mallocOk hpos]
  unfold LengthsFit
  by_cases h : 5 ≤ record.length
  swap
  · simp [h]
  rw [keyLen_of_backs hb h]
  by_cases hlo : 0 ≤ 5 + recordKeyLen keyHigh record
  swap
  · simp [hlo]
  by_cases hhi : 9 + recordKeyLen keyHigh record ≤ record.length
  · rw [valLen_of_backs hb h hlo hhi]
  · simp [hhi]

theorem parseRecord_isSome_iff :
    (parseRecord keyHigh valHigh record).isSome ↔
      (LengthsFit record.length (recordKeyLen keyHigh record)
        (recordValLen keyHigh valHigh record) ∧ 0 ≤ recordKeyLen keyHigh record) ∧
        (record.head?.bind dmlOfByte).isSome := by
  have hkeyLen : ofLEInt (slice record 1 4 ++ keyHigh) = recordKeyLen keyHigh record := rfl
  simp only [parseRecord, hkeyLen]
  by_cases hkey : record.length < 5 ∨ recordKeyLen keyHigh record < 0 ∨
      record.length < 9 + (recordKeyLen keyHigh record).toNat
  · rw [if_pos hkey]
    simp only [Option.isSome_none, Bool.false_eq_true, false_iff, LengthsFit]
    omega
  have hvalLen : ofLEInt (slice record (5 + (recordKeyLen keyHigh record).toNat) 4 ++ valHigh) =
      recordValLen keyHigh valHigh record := by
    rw [recordValLen, Int.toNat_add (by decide) (by omega)]
    rfl
  rw [if_neg hkey, hvalLen]
  by_cases hval : recordValLen keyHigh valHigh record < 0 ∨ record.length <
      9 + (recordKeyLen keyHigh record).toNat + (recordValLen keyHigh valHigh record).toNat
  · rw [if_pos hval]
    simp only [Option.isSome_none, Bool.false_eq_true, false_iff, LengthsFit]
    omega
  · have hfit : LengthsFit record.length (recordKeyLen keyHigh record)
        (recordValLen keyHigh valHigh record) ∧ 0 ≤ recordKeyLen keyHigh record := by
      unfold LengthsFit
      omega
    rw [if_neg hval, Option.isSome_map]
    simp [hfit]

/-- Where `set` works, the model of `replay` has a result exactly for the robust replays of
records with a known flag. -/
theorem replay_isSome_iff_robust (hb : Backs mem record) (hpos : 1 ≤ record.length)
    {t : ObMemtable η}
    (hset : setWrites t true = true) :
    (t.replay keyHigh valHigh true record).isSome ↔
      MemtableRobust mem keyHigh valHigh record.length t true ∧
        (record.head?.bind dmlOfByte).isSome := by
  have hparse : (t.replay keyHigh valHigh true record).isSome =
      (parseRecord keyHigh valHigh record).isSome := by
    rw [ObMemtable.replay, if_neg (List.ne_nil_of_length_pos hpos)]
    cases parseRecord keyHigh valHigh record <;> rfl
  rw [hparse, parseRecord_isSome_iff, memtableRobust_iff hb hpos]
  simp [hset]

end MemtableRecord

section DdlRecord

variable {mem : ℤ → UInt8} {record : Bytes}

def ddlType (mem : ℤ → UInt8) : ℕ := ofLE (bytesAt mem 0 8)

def nameLen (mem : ℤ → UInt8) : ℕ := ofLE (bytesAt mem 8 8)

def nameArray (mem : ℤ → UInt8) : Bytes :=
  (overwrite (List.replicate 256 0) 0 (bytesAt mem 16 (nameLen mem))).take 256

def textLen (mem : ℤ → UInt8) : ℤ := (cString (nameArray mem)).length + 1

/-- What `ObDDLService::replay` touches. The schema looks at 128 bytes of the name at most; the
message that is printed when `infoOn` is set goes on to the end of the string. -/
def ddlAccesses (mem : ℤ → UInt8) (nbytes : ℕ) (infoOn : Bool) : List Access :=
  if nbytes = 0 then []
  else
    [⟨.record, 0, 8⟩, ⟨.record, 8, 8⟩, ⟨.record, 16, nameLen mem⟩, ⟨.name, 0, nameLen mem⟩] ++
      (if ddlType mem = createDatabaseType then
        ⟨.name, 0, min (textLen mem) 128⟩ :: if infoOn then [⟨.name, 0, textLen mem⟩] else []
      else if ddlType mem = createTableType then
        [⟨.record, 16 + nameLen mem, 8⟩, ⟨.name, 0, min (textLen mem) 127⟩] ++
          if infoOn then [⟨.name, 0, textLen mem⟩] else []
      else [])

def ddlSize (nbytes : ℕ) : Region → ℤ
  | .record => nbytes
  | .name => 256
  | .logBuf => 0

def DdlRobust (mem : ℤ → UInt8) (nbytes : ℕ) (infoOn : Bool) : Prop :=
  ∀ a ∈ ddlAccesses mem nbytes infoOn, a.Within (ddlSize nbytes)

def recordType (record : Bytes) : ℕ := ofLE (slice record 0 8)

def recordNameLen (record : Bytes) : ℕ := ofLE (slice record 8 8)

def recordName (record : Bytes) : Bytes := slice record 16 (recordNameLen record)

structure NameFits (record : Bytes) (infoOn : Bool) : Prop where
  header : 16 ≤ record.length
  inRecord : 16 + recordNameLen record ≤ record.length
  inArray : recordNameLen record ≤ 256
  databaseId : recordType record = createTableType → 24 + recordNameLen record ≤ record.length
  terminated : infoOn = true →
    recordType record = createDatabaseType ∨ recordType record = createTableType →
    recordNameLen record < 256 ∨ 0 ∈ recordName record

theorem length_cString_lt_iff {b : Bytes} : (cString b).length < b.length ↔ 0 ∈ b := by
  induction b with
  | nil => simp [cString]
  | cons c b ih =>
    unfold cString at ih ⊢
    by_cases hc : c = 0
    · simp [hc]
    · rw [List.takeWhile_cons_of_pos (by simpa using hc), List.length_cons, List.length_cons,
        Nat.add_lt_add_iff_right, ih]
      simp [Ne.symm hc]

theorem nameArray_eq (h : nameLen mem ≤ 256) : nameArray mem =
    bytesAt mem 16 (nameLen mem) ++ List.replicate (256 - nameLen mem) 0 := by
  have hlen : (bytesAt mem 16 (nameLen mem)).length = nameLen mem := by simp [bytesAt]
  rw [nameArray, nameBuffer_eq (hlen.trans_le h), hlen]

theorem length_nameArray (h : nameLen mem ≤ 256) : (nameArray mem).length = 256 := by
  simp [nameArray_eq h, bytesAt, h]

theorem zero_mem_nameArray_iff (h : nameLen mem ≤ 256) :
    0 ∈ nameArray mem ↔ nameLen mem < 256 ∨ 0 ∈ bytesAt mem 16 (nameLen mem) := by
  rw [nameArray_eq h, List.mem_append, List.mem_replicate, or_comm]
  refine or_congr_left ⟨fun hpos => by omega, fun hlt => ⟨by omega, rfl⟩⟩

theorem textLen_le_iff (h : nameLen mem ≤ 256) :
    textLen mem ≤ 256 ↔ nameLen mem < 256 ∨ 0 ∈ bytesAt mem 16 (nameLen mem) := by
  rw [← zero_mem_nameArray_iff h, ← length_cString_lt_iff, length_nameArray h, textLen]
  omega

theorem nameCopy_within_iff (nbytes n : ℕ) :
    (∀ a ∈ ([⟨.record, 0, 8⟩, ⟨.record, 8, 8⟩, ⟨.record, 16, n⟩, ⟨.name, 0, n⟩] : List Access),
      a.Within (ddlSize nbytes)) ↔ 16 + n ≤ nbytes ∧ n ≤ 256 := by
  simp only [List.forall_mem_cons, List.not_mem_nil, false_implies, implies_true, and_true,
    Access.Within, ddlSize]
  omega

theorem nameReads_within_iff (nbytes : ℕ) {text b : ℤ} (infoOn : Bool) (htext : 0 ≤ text)
    (hb : 0 ≤ b) (hsmall : b ≤ 256) :
    (∀ a ∈ (⟨.name, 0, min text b⟩ :: if infoOn then [⟨.name, 0, text⟩] else [] : List Access),
      a.Within (ddlSize nbytes)) ↔ (infoOn = true → text ≤ 256) := by
  have hfirst : Access.Within (ddlSize nbytes) ⟨.name, 0, min text b⟩ := by
    simp only [Access.Within, ddlSize]
    omega
  have hsecond : Access.Within (ddlSize nbytes) ⟨.name, 0, text⟩ ↔ text ≤ 256 := by
    simp only [Access.Within, ddlSize]
    omega
  cases infoOn <;>
    simp only [List.forall_mem_cons, List.not_mem_nil, hfirst, hsecond, false_implies,
      implies_true, and_true, true_and, Bool.false_eq_true, ↓reduceIte, forall_const]

theorem ddlRobust_iff_mem (infoOn : Bool) {nbytes : ℕ} (hpos : 1 ≤ nbytes) :
    DdlRobust mem nbytes infoOn ↔
      16 + nameLen mem ≤ nbytes ∧ nameLen mem ≤ 256 ∧
        (ddlType mem = createTableType → 24 + nameLen mem ≤ nbytes) ∧
        (infoOn = true → ddlType mem = createDatabaseType ∨ ddlType mem = createTableType →
          textLen mem ≤ 256) := by
  have htext : 0 ≤ textLen mem := by
    unfold textLen
    omega
  have hne : createDatabaseType ≠ createTableType := by decide
  have hreads := fun b => nameReads_within_iff (b := b) nbytes infoOn htext
  unfold DdlRobust ddlAccesses
  rw [if_neg (by omega), List.forall_mem_append, nameCopy_within_iff]
  by_cases hdb : ddlType mem = createDatabaseType
  · rw [if_pos hdb, hreads 128 (by decide) (by decide)]
    simp only [hdb, hne, false_implies, true_or, forall_const, true_and, and_assoc]
  rw [if_neg hdb]
  by_cases htable : ddlType mem = createTableType
  · rw [if_pos htable, List.cons_append, List.forall_mem_cons, List.singleton_append,
      hreads 127 (by decide) (by decide)]
    have hsize : Access.Within (ddlSize nbytes) ⟨.record, 16 + nameLen mem, 8⟩ ↔
        24 + nameLen mem ≤ nbytes := by
      simp only [Access.Within, ddlSize]
      omega
    simp only [htable, hsize, or_true, forall_const, and_assoc]
  · rw [if_neg htable]
    simp only [hdb, htable, or_self, false_implies, implies_true, and_true, List.not_mem_nil]

theorem ddlRobust_iff (hb : Backs mem record) (hpos : 1 ≤ record.length) (infoOn : Bool) :
    DdlRobust mem record.length infoOn ↔ NameFits record infoOn := by
  have htype : 16 ≤ record.length → ddlType mem = recordType record := by
    intro hle
    exact congrArg ofLE (hb.bytesAt_eq_slice (show 0 + 8 ≤ record.length by omega))
  have hlen : 16 ≤ record.length → nameLen mem = recordNameLen record := by
    intro hle
    exact congrArg ofLE (hb.bytesAt_eq_slice (show 8 + 8 ≤ record.length from hle))
  have hname : ∀ n, 16 + n ≤ record.length → bytesAt mem 16 n = slice record 16 n :=
    fun n hle => hb.bytesAt_eq_slice hle
  rw [ddlRobust_iff_mem infoOn hpos]
  constructor
  · rintro ⟨hrecord, harray, hid, hend⟩
    rw [htype (by omega), hlen (by omega)] at hid
    rw [htype (by omega), textLen_le_iff harray, hname _ hrecord, hlen (by omega)] at hend
    rw [hlen (by omega)] at hrecord harray
    exact ⟨by omega, hrecord, harray, hid, hend⟩
  · intro hfit
    have hlen' := hlen hfit.header
    rw [htype hfit.header, hlen']
    refine ⟨hfit.inRecord, hfit.inArray, hfit.databaseId, fun hinfo hkind => ?_⟩
    rw [textLen_le_iff (hlen' ▸ hfit.inArray), hlen', hname _ hfit.inRecord]
    exact hfit.terminated hinfo hkind

/-- In a robust replay the model, which cuts what leaves a buffer, does what the copies do. -/
theorem replay_eq_of_robust (hb : Backs mem record) (hpos : 1 ≤ record.length) {infoOn : Bool}
    (hrobust : DdlRobust mem record.length infoOn) (lsn : ℕ) (scn : ℤ) (s : ObSchemaService) :
    DdlService.replay record lsn scn s =
      if ddlType mem = createDatabaseType then
        (0, (ddlCreateDatabase (cString (nameArray mem)) s).2.2)
      else if ddlType mem = createTableType then
        (0, (s.createTable { tableName := storedName (cString (nameArray mem))
                             databaseId := ofLE (bytesAt mem (16 + nameLen mem) 8) }).2)
      else (0, s) := by
  obtain ⟨hname, -, hid, -⟩ := (ddlRobust_iff_mem infoOn hpos).mp hrobust
  have htypeField := hb.bytesAt_eq_slice (show 0 + 8 ≤ record.length by omega)
  have hlenField := hb.bytesAt_eq_slice (show 8 + 8 ≤ record.length by omega)
  have hnameField := hb.bytesAt_eq_slice hname
  have htype : ofLE (slice record 0 8) = ddlType mem := congrArg ofLE htypeField.symm
  have hlen : ofLE (slice record 8 8) = nameLen mem := congrArg ofLE hlenField.symm
  rw [DdlService.replay, if_neg (List.ne_nil_of_length_pos hpos)]
  simp only [htype, hlen, ← hnameField]
  by_cases htable : ddlType mem = createTableType
  · have hidField := hb.bytesAt_eq_slice
      (show 16 + nameLen mem + 8 ≤ record.length by have := hid htable; omega)
    rw [← hidField]
    rfl
  · simp only [htable, ↓reduceIte]
    rfl

def tablePayload (name : Bytes) (dbId : ℕ) : Bytes :=
  toLE 8 createTableType ++ (toLE 8 name.length ++ (name ++ toLE 8 dbId))

theorem fields_of_record (type : ℕ) (name rest : Bytes) (htype : type < 2 ^ 64)
    (hname : name.length < 2 ^ 64) :
    let record := toLE 8 type ++ (toLE 8 name.length ++ (name ++ rest))
    record.length = 16 + name.length + rest.length ∧ recordType record = type ∧
      recordNameLen record = name.length ∧ recordName record = name := by
  intro record
  have hlen : record.length = 16 + name.length + rest.length := by
    simp only [record, List.length_append, length_toLE]
    omega
  obtain ⟨htypeField, hlenField, hnameField, -⟩ := slices_of_record type name rest
  have hnameLen : recordNameLen record = name.length := by
    rw [recordNameLen, hlenField, ofLE_toLE_of_lt (by simpa using hname)]
  refine ⟨hlen, ?_, hnameLen, ?_⟩
  · rw [recordType, htypeField, ofLE_toLE_of_lt (by simpa using htype)]
  · rw [recordName, hnameLen, hnameField]

/-- A database name is replayed safely exactly when it leaves room for its end in `name`, or
fills `name` and no message is printed. -/
theorem nameFits_payload_iff {name : Bytes} (infoOn : Bool) (hname : name.length < 2 ^ 64)
    (hzero : 0 ∉ name) :
    NameFits (payload name) infoOn ↔ name.length + (if infoOn then 1 else 0) ≤ 256 := by
  obtain ⟨hlen, htype, hnameLen, hbytes⟩ :=
    fields_of_record createDatabaseType name [] (by decide) hname
  rw [List.append_nil] at hlen htype hnameLen hbytes
  rw [List.length_nil, Nat.add_zero] at hlen
  have hrecord : payload name = toLE 8 createDatabaseType ++ (toLE 8 name.length ++ name) := rfl
  rw [← hrecord] at hlen htype hnameLen hbytes
  constructor
  · intro hfit
    have harray := hfit.inArray
    have hend := hfit.terminated
    rw [hnameLen] at harray hend
    rw [htype, hbytes] at hend
    cases infoOn with
    | false => simpa using harray
    | true =>
      have hlt := hend rfl (Or.inl rfl)
      simp only [hzero, or_false] at hlt
      simp only [↓reduceIte]
      omega
  · intro hle
    refine ⟨by omega, by omega, ?_, ?_, ?_⟩
    · rw [hnameLen]
      split at hle <;> omega
    · intro htable
      rw [htype] at htable
      exact absurd htable (by decide)
    · intro hinfo _
      rw [if_pos hinfo] at hle
      exact Or.inl (by omega)

theorem nameFits_tablePayload (name : Bytes) (dbId : ℕ) (infoOn : Bool) :
    NameFits (tablePayload (storedName name) dbId) infoOn := by
  have hstored : (storedName name).length ≤ 127 := List.length_take_le _ _
  obtain ⟨hlen, -, hnameLen, -⟩ := fields_of_record createTableType (storedName name)
    (toLE 8 dbId) (by decide) (by omega)
  rw [length_toLE] at hlen
  change (tablePayload (storedName name) dbId).length = _ at hlen
  change recordNameLen (tablePayload (storedName name) dbId) = _ at hnameLen
  refine ⟨?_, ?_, ?_, ?_, ?_⟩
  · omega
  · omega
  · omega
  · intro _
    omega
  · intro _ _
    left
    omega

end DdlRecord

/-- Both handlers touch only their record and their own memory exactly when the lengths in the
record fit. A database name that the write path accepts may be too long, a table name not. -/
theorem replay_robust_iff (mem : ℤ → UInt8) (record : Bytes) (hb : Backs mem record)
    (hpos : 1 ≤ record.length) :
    (∀ (keyHigh valHigh : Bytes) (t : ObMemtable η) (mallocOk : Bool),
      MemtableRobust mem keyHigh valHigh record.length t mallocOk ↔
        LengthsFit record.length (recordKeyLen keyHigh record)
            (recordValLen keyHigh valHigh record) ∧
          (setWrites t mallocOk = true → 0 ≤ recordKeyLen keyHigh record)) ∧
    (∀ infoOn, DdlRobust mem record.length infoOn ↔ NameFits record infoOn) ∧
    (∀ infoOn name, record = payload name → name.length < 2 ^ 64 → 0 ∉ name →
      (DdlRobust mem record.length infoOn ↔
        name.length + (if infoOn then 1 else 0) ≤ 256)) ∧
    ∀ infoOn name dbId, record = tablePayload (storedName name) dbId →
      DdlRobust mem record.length infoOn := by
  refine ⟨?_, ?_, ?_, ?_⟩
  · intro keyHigh valHigh t mallocOk
    exact memtableRobust_iff hb hpos t mallocOk
  · exact ddlRobust_iff hb hpos
  · rintro infoOn name rfl hname hzero
    rw [ddlRobust_iff hb hpos, nameFits_payload_iff infoOn hname hzero]
  · rintro infoOn name dbId rfl
    exact (ddlRobust_iff hb hpos infoOn).mpr (nameFits_tablePayload name dbId infoOn)

def memOf (record : Bytes) (i : ℤ) : UInt8 := if 0 ≤ i then record.getD i.toNat 0 else 0

theorem backs_memOf (record : Bytes) : Backs (memOf record) record := by
  intro i hi
  simp [memOf, hi, List.getD_eq_getElem?_getD]

/-- The record of a row with the key 7 and no value. -/
theorem replay_robust_iff_example :
    MemtableRobust (memOf [1, 1, 0, 0, 0, 7, 0, 0, 0, 0]) [0, 0, 0, 0] [0, 0, 0, 0] 10
      (ObMemtable.create 1 : ObMemtable Unit) true := by
  refine ((replay_robust_iff _ [1, 1, 0, 0, 0, 7, 0, 0, 0, 0] (backs_memOf _) (by decide)).1
    [0, 0, 0, 0] [0, 0, 0, 0] _ true).mpr ⟨?_, fun _ => by decide⟩
  unfold LengthsFit
  decide

def longName : Bytes := List.replicate 257 97

/-- A memtable record of one byte is read behind its end. A database name of 257 bytes is
accepted by the log and overruns `name` in the replay. -/
theorem accepted_name_overruns_array :
    ¬ MemtableRobust (memOf [1]) [0, 0, 0, 0] [0, 0, 0, 0] 1
      (ObMemtable.create 1 : ObMemtable Unit) true ∧
    (∃ s h disk₀ res h' disk',
      Mounts () ddlLsId .ddlLogBaseType () PosixFiles.FileSystem.blank s h disk₀ ∧
      h.append ⟨some fun _ => 0, some fun _ => 0, .faithful⟩ (payload longName) .ddlLogBaseType
        disk₀ = some (res, h', disk') ∧ res.ret = 0) ∧
    ¬ DdlRobust (memOf (payload longName)) (payload longName).length false := by
  have hlen : longName.length = 257 := List.length_replicate
  have hpayload := length_payload longName
  rw [hlen] at hpayload
  refine ⟨?_, ?_, ?_⟩
  · intro hrobust
    have hfit := (memtableRobust_iff (backs_memOf [1]) (by decide) _ _).mp hrobust
    exact absurd hfit.1.1 (by decide)
  · obtain ⟨s, h, disk₀, hmount, hready⟩ := mounts_empty () ddlLsId .ddlLogBaseType ()
      PosixFiles.FileSystem.blank fun _ => rfl
    have hc : (LogCall.mk (payload longName) (some fun _ => 0) (some fun _ => 0)).accepted? =
        some (payload longName) := by
      rw [LogCall.accepted?, if_neg (List.ne_nil_of_length_pos (by rw [hpayload]; decide))]
      rfl
    have hsize : PalfRecovery.entrySize (logBuf .ddlLogBaseType (payload longName)) = 337 := by
      rw [PalfRecovery.entrySize, length_logBuf, hpayload]
      rfl
    obtain ⟨res, h', disk', happ, hret, -⟩ := append_accepted hready hc
      (by rw [hsize]; decide) (by rw [hsize]; decide)
    exact ⟨s, h, disk₀, res, h', disk', hmount, happ, hret⟩
  · have hzero : 0 ∉ longName := fun hmem => absurd (List.eq_of_mem_replicate hmem) (by decide)
    rw [ddlRobust_iff (backs_memOf _) (by rw [hpayload]; decide),
      nameFits_payload_iff false (by rw [hlen]; decide) hzero, hlen]
    decide

end ReplayBounds
