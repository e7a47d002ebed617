import LsmStorage.DdlRecovery

/-! # The codec of a table schema

`serialize` and `deserialize` copy to and from `buf + pos` and move `pos` behind every copy, so
what a call touches are the bytes from its first position to its last. The buffer is the first
part of a memory; what is behind it is arbitrary. A name is the string that its array holds, and
an array that holds no zero byte is read to its end. -/
namespace TableSchemaCodec

open ByteCodec SchemaService

def nameArray (name : Bytes) : Bytes :=
  storedName name ++ List.replicate (128 - (storedName name).length) 0

def load (mem : ℕ → UInt8) (pos n : ℕ) : Bytes := (List.range n).map fun i => mem (pos + i)

def FitsInt (w : ℕ) (i : ℤ) : Prop := -(256 ^ w : ℕ) ≤ 2 * i ∧ 2 * i < (256 ^ w : ℕ)

instance (w : ℕ) (i : ℤ) : Decidable (FitsInt w i) := inferInstanceAs (Decidable (_ ∧ _))

end TableSchemaCodec

namespace SchemaService

open ByteCodec TableSchemaCodec
open DdlService (cString)
open DdlRecovery (NameOk)

namespace ObColumnSchemaV2

structure WellFormed (c : ObColumnSchemaV2) : Prop where
  columnId : c.columnId < 256 ^ 8
  columnName : NameOk c.columnName
  dataType : FitsInt 4 c.dataType
  dataLength : FitsInt 8 c.dataLength

/-- `sizeof(ObColumnSchemaV2)`: four bytes of padding are in front of the length. -/
def getSerializeSize (_ : ObColumnSchemaV2) : ℕ := 8 + 128 + 4 + 4 + 8

def image (padding : ℕ) (c : ObColumnSchemaV2) : Bytes :=
  toLE 8 c.columnId ++ (nameArray c.columnName ++ (toLEInt 4 c.dataType ++ (toLE 4 padding ++
    toLEInt 8 c.dataLength)))

def serialize (padding bufLen pos : ℕ) (c : ObColumnSchemaV2) : ℤ × Bytes :=
  if (bufLen : ℤ) - pos < c.getSerializeSize then (-1, []) else (0, c.image padding)

def ofImage (mem : ℕ → UInt8) (pos : ℕ) : ObColumnSchemaV2 where
  columnId := ofLE (load mem pos 8)
  columnName := cString (load mem (pos + 8) 128)
  dataType := ofLEInt (load mem (pos + 136) 4)
  dataLength := ofLEInt (load mem (pos + 144) 8)

def deserialize (mem : ℕ → UInt8) (dataLen pos : ℕ) (c : ObColumnSchemaV2) :
    ℤ × ObColumnSchemaV2 × ℕ :=
  if (dataLen : ℤ) - pos < c.getSerializeSize then (-1, c, pos)
  else (0, ofImage mem pos, pos + c.getSerializeSize)

end ObColumnSchemaV2

namespace ObTableSchema

structure WellFormed (t : ObTableSchema) : Prop where
  tableId : t.tableId < 256 ^ 8
  tableName : NameOk t.tableName
  databaseId : t.databaseId < 256 ^ 8
  schemaVersion : FitsInt 8 t.schemaVersion
  columnCount : t.columnCount = t.columns.length
  countFits : FitsInt 8 t.columnCount
  columns : ∀ c ∈ t.columns, c.WellFormed

def addColumn (c : ObColumnSchemaV2) (t : ObTableSchema) : ObTableSchema :=
  { t with columns := t.columns ++ [c], columnCount := t.columns.length + 1 }

def getSerializeSize (t : ObTableSchema) : ℕ :=
  t.columns.foldl (fun sz c => sz + c.getSerializeSize) (5 * 8)

def fixedPart (t : ObTableSchema) : Bytes :=
  toLE 8 t.tableId ++ (nameArray t.tableName ++ (toLE 8 t.databaseId ++
    (toLEInt 8 t.schemaVersion ++ toLEInt 8 t.columnCount)))

/-- The loop of `serialize`; `padding` is what the objects hold between their fields. -/
def serializeColumns (padding : ℕ → ℕ) (bufLen : ℕ) : ℕ → List ObColumnSchemaV2 → ℤ × Bytes
  | _, [] => (0, [])
  | pos, c :: columns =>
    let (ret, out) := c.serialize (padding pos) bufLen pos
    if ret ≠ 0 then (-1, out)
    else
      let (ret, rest) := serializeColumns padding bufLen (pos + out.length) columns
      (ret, out ++ rest)

def serialize (padding : ℕ → ℕ) (bufLen pos : ℕ) (t : ObTableSchema) : ℤ × Bytes :=
  if (bufLen : ℤ) - pos < t.getSerializeSize then (-1, [])
  else
    let (ret, out) := serializeColumns padding bufLen (pos + t.fixedPart.length)
      (t.columns.take t.columnCount.toNat)
    (ret, t.fixedPart ++ out)

def deserializeColumns (mem : ℕ → UInt8) (dataLen : ℕ) :
    ℕ → ℕ → ℤ × List ObColumnSchemaV2 × ℕ
  | 0, pos => (0, [], pos)
  | count + 1, pos =>
    let (ret, c, pos) := ObColumnSchemaV2.deserialize mem dataLen pos {}
    if ret ≠ 0 then (-1, [], pos)
    else
      let (ret, columns, pos) := deserializeColumns mem dataLen count pos
      (ret, c :: columns, pos)

def deserialize (mem : ℕ → UInt8) (dataLen pos : ℕ) (t : ObTableSchema) :
    ℤ × ObTableSchema × ℕ :=
  if (dataLen : ℤ) - pos < 5 * 8 then (-1, t, pos)
  else
    let columnCount := ofLEInt (load mem (pos + 152) 8)
    let (ret, columns, end_) := deserializeColumns mem dataLen columnCount.toNat (pos + 160)
    (ret, { tableId := ofLE (load mem pos 8)
            tableName := cString (load mem (pos + 8) 128)
            databaseId := ofLE (load mem (pos + 136) 8)
            schemaVersion := ofLEInt (load mem (pos + 144) 8)
            columnCount, columns }, end_)

end ObTableSchema

end SchemaService

namespace TableSchemaCodec

open ByteCodec SchemaService
open DdlService (cString)
open DdlRecovery (NameOk cString_append_zeros)

section Sizes

@[simp] theorem length_nameArray (name : Bytes) : (nameArray name).length = 128 := by
  have hle : (storedName name).length ≤ 127 := List.length_take_le _ _
  rw [nameArray, List.length_append, List.length_replicate]
  omega

theorem cString_nameArray {name : Bytes} (h : NameOk name) : cString (nameArray name) = name := by
  rw [nameArray, storedName_of_le h.2]
  exact cString_append_zeros h.1 _

@[simp] theorem length_image (padding : ℕ) (c : ObColumnSchemaV2) :
    (c.image padding).length = 152 := by
  simp [ObColumnSchemaV2.image]

@[simp] theorem length_fixedPart (t : ObTableSchema) : t.fixedPart.length = 160 := by
  simp [ObTableSchema.fixedPart]

theorem getSerializeSize_eq (t : ObTableSchema) :
    t.getSerializeSize = 40 + 152 * t.columns.length := by
  suffices hfold : ∀ (columns : List ObColumnSchemaV2) (sz : ℕ),
      columns.foldl (fun sz c => sz + c.getSerializeSize) sz = sz + 152 * columns.length from
    hfold t.columns 40
  intro columns
  induction columns with
  | nil => exact fun _ => rfl
  | cons c columns ih =>
    intro sz
    rw [List.foldl_cons, ih, ObColumnSchemaV2.getSerializeSize, List.length_cons]
    omega

end Sizes

section Write

def images (padding : ℕ → ℕ) : ℕ → List ObColumnSchemaV2 → Bytes
  | _, [] => []
  | pos, c :: columns => c.image (padding pos) ++ images padding (pos + 152) columns

variable {padding : ℕ → ℕ} {bufLen pos : ℕ}

theorem length_images (columns : List ObColumnSchemaV2) :
    (images padding pos columns).length = 152 * columns.length := by
  induction columns generalizing pos with
  | nil => rfl
  | cons c columns ih =>
    rw [images, List.length_append, length_image, ih, List.length_cons]
    omega

theorem column_serialize_of_fits (n : ℕ) (c : ObColumnSchemaV2) (h : pos + 152 ≤ bufLen) :
    c.serialize n bufLen pos = (0, c.image n) := by
  rw [ObColumnSchemaV2.serialize, ObColumnSchemaV2.getSerializeSize, if_neg]
  omega

theorem column_serialize_of_not_fits (n : ℕ) (c : ObColumnSchemaV2) (h : ¬ pos + 152 ≤ bufLen) :
    c.serialize n bufLen pos = (-1, []) := by
  rw [ObColumnSchemaV2.serialize, ObColumnSchemaV2.getSerializeSize, if_pos]
  omega

theorem serializeColumns_of_fits {columns : List ObColumnSchemaV2}
    (h : pos + 152 * columns.length ≤ bufLen) :
    ObTableSchema.serializeColumns padding bufLen pos columns =
      (0, images padding pos columns) := by
  induction columns generalizing pos with
  | nil => rfl
  | cons c columns ih =>
    rw [List.length_cons] at h
    rw [ObTableSchema.serializeColumns, column_serialize_of_fits _ c (by omega)]
    dsimp only
    rw [if_neg (by decide), length_image, ih (by omega)]
    rfl

theorem fits_of_serializeColumns {columns : List ObColumnSchemaV2} (hne : columns ≠ [])
    (h : (ObTableSchema.serializeColumns padding bufLen pos columns).1 = 0) :
    pos + 152 * columns.length ≤ bufLen := by
  induction columns generalizing pos with
  | nil => exact absurd rfl hne
  | cons c columns ih =>
    rw [ObTableSchema.serializeColumns] at h
    by_cases hfits : pos + 152 ≤ bufLen
    · rw [column_serialize_of_fits _ c hfits] at h
      dsimp only at h
      rw [if_neg (by decide), length_image] at h
      cases columns with
      | nil => simpa using hfits
      | cons d columns =>
        have hrest := ih (List.cons_ne_nil d columns) h
        rw [List.length_cons]
        omega
    · rw [column_serialize_of_not_fits _ c hfits] at h
      dsimp only at h
      rw [if_pos (by decide)] at h
      exact absurd h (by decide)

variable {t : ObTableSchema}

theorem take_columns (hcount : t.columnCount = t.columns.length) :
    t.columns.take t.columnCount.toNat = t.columns := by
  rw [hcount, Int.toNat_natCast, List.take_length]

theorem serialize_of_fits (hcount : t.columnCount = t.columns.length)
    (h : 160 + 152 * t.columns.length ≤ bufLen) :
    t.serialize padding bufLen 0 = (0, t.fixedPart ++ images padding 160 t.columns) := by
  rw [ObTableSchema.serialize, if_neg (by rw [getSerializeSize_eq]; omega), take_columns hcount,
    length_fixedPart, serializeColumns_of_fits (by omega)]

theorem fits_of_serialize (hcount : t.columnCount = t.columns.length)
    (hret : (t.serialize padding bufLen 0).1 = 0)
    (hinside : (t.serialize padding bufLen 0).2.length ≤ bufLen) :
    160 + 152 * t.columns.length ≤ bufLen := by
  rw [ObTableSchema.serialize] at hret hinside
  split at hret
  · exact absurd hret (by decide)
  · next hroom =>
    rw [if_neg hroom, take_columns hcount, length_fixedPart, List.length_append,
      length_fixedPart] at hinside
    rw [take_columns hcount, length_fixedPart] at hret
    by_cases hnil : t.columns = []
    · rw [hnil, List.length_nil]
      omega
    · have hfits := fits_of_serializeColumns hnil hret
      omega

end Write

section Read

def store (mem : ℕ → UInt8) (pos : ℕ) (bytes : Bytes) : ℕ → UInt8 := fun i =>
  if pos ≤ i then bytes.getD (i - pos) (mem i) else mem i

def Loads (mem : ℕ → UInt8) (pos : ℕ) (bytes : Bytes) : Prop := load mem pos bytes.length = bytes

variable {mem : ℕ → UInt8} {pos : ℕ}

theorem loads_store (bytes : Bytes) : Loads (store mem pos bytes) pos bytes := by
  apply List.ext_getElem
  · simp [load]
  · intro i hi hi'
    simp [load, store, hi']

theorem load_add (m n : ℕ) : load mem pos (m + n) = load mem pos m ++ load mem (pos + m) n := by
  rw [load, List.range_add, List.map_append, List.map_map]
  simp only [load, Function.comp_def, Nat.add_assoc]

theorem loads_append {as bs : Bytes} :
    Loads mem pos (as ++ bs) ↔ Loads mem pos as ∧ Loads mem (pos + as.length) bs := by
  rw [Loads, List.length_append, load_add]
  constructor
  · intro h
    exact List.append_inj h (by simp [load])
  · rintro ⟨ha, hb⟩
    rw [ha, hb]

theorem wellFormed_addColumn {t : ObTableSchema} (ht : t.WellFormed) {c : ObColumnSchemaV2}
    (hc : c.WellFormed) (hcount : FitsInt 8 (t.columns.length + 1)) :
    (t.addColumn c).WellFormed where
  tableId := ht.tableId
  tableName := ht.tableName
  databaseId := ht.databaseId
  schemaVersion := ht.schemaVersion
  columnCount := by simp [ObTableSchema.addColumn]
  countFits := hcount
  columns := by
    intro d hd
    rcases List.mem_append.mp hd with hold | hnew
    · exact ht.columns d hold
    · rw [List.mem_singleton.mp hnew]
      exact hc

theorem ofImage_of_loads {padding : ℕ} {c : ObColumnSchemaV2} (hc : c.WellFormed)
    (h : Loads mem pos (c.image padding)) : ObColumnSchemaV2.ofImage mem pos = c := by
  simp only [ObColumnSchemaV2.image, loads_append, length_toLE, length_nameArray, length_toLEInt,
    Nat.add_assoc, Nat.reduceAdd] at h
  simp only [Loads, length_toLE, length_nameArray, length_toLEInt] at h
  obtain ⟨hid, hname, htype, -, hlength⟩ := h
  rw [ObColumnSchemaV2.ofImage, hid, hname, htype, hlength, ofLE_toLE_of_lt hc.columnId,
    cString_nameArray hc.columnName, ofLEInt_toLEInt hc.dataType.1 hc.dataType.2,
    ofLEInt_toLEInt hc.dataLength.1 hc.dataLength.2]

variable {dataLen : ℕ}

theorem column_deserialize_of_fits (c : ObColumnSchemaV2) (h : pos + 152 ≤ dataLen) :
    c.deserialize mem dataLen pos = (0, ObColumnSchemaV2.ofImage mem pos, pos + 152) := by
  rw [ObColumnSchemaV2.deserialize, ObColumnSchemaV2.getSerializeSize, if_neg (by omega)]

theorem column_deserialize_of_not_fits (c : ObColumnSchemaV2) (h : ¬ pos + 152 ≤ dataLen) :
    c.deserialize mem dataLen pos = (-1, c, pos) := by
  rw [ObColumnSchemaV2.deserialize, ObColumnSchemaV2.getSerializeSize, if_pos (by omega)]

theorem deserializeColumns_of_loads {padding : ℕ → ℕ} {columns : List ObColumnSchemaV2}
    (hcolumns : ∀ c ∈ columns, c.WellFormed) (h : Loads mem pos (images padding pos columns))
    (hlen : pos + 152 * columns.length ≤ dataLen) :
    ObTableSchema.deserializeColumns mem dataLen columns.length pos =
      (0, columns, pos + 152 * columns.length) := by
  induction columns generalizing pos with
  | nil => rfl
  | cons c columns ih =>
    rw [images, loads_append, length_image] at h
    rw [List.length_cons] at hlen ⊢
    rw [ObTableSchema.deserializeColumns, column_deserialize_of_fits {} (by omega)]
    dsimp only
    rw [if_neg (by decide), ofImage_of_loads (hcolumns c List.mem_cons_self) h.1,
      ih (fun d hd => hcolumns d (List.mem_cons_of_mem c hd)) h.2 (by omega)]
    simp only [Prod.mk.injEq, true_and]
    omega

theorem deserialize_of_loads {padding : ℕ → ℕ} {t : ObTableSchema} (ht : t.WellFormed)
    (h : Loads mem 0 (t.fixedPart ++ images padding 160 t.columns))
    (hlen : 160 + 152 * t.columns.length ≤ dataLen) (old : ObTableSchema) :
    old.deserialize mem dataLen 0 = (0, t, 160 + 152 * t.columns.length) := by
  rw [loads_append, length_fixedPart] at h
  obtain ⟨hfixed, hcolumns⟩ := h
  simp only [ObTableSchema.fixedPart, loads_append, length_toLE, length_nameArray, length_toLEInt,
    Nat.reduceAdd] at hfixed
  simp only [Loads, length_toLE, length_nameArray, length_toLEInt] at hfixed
  obtain ⟨hid, hname, hdatabase, hversion, hcount⟩ := hfixed
  rw [ObTableSchema.deserialize, if_neg (by omega)]
  simp only [Nat.zero_add, hid, hname, hdatabase, hversion, hcount]
  rw [ofLE_toLE_of_lt ht.tableId, cString_nameArray ht.tableName, ofLE_toLE_of_lt ht.databaseId,
    ofLEInt_toLEInt ht.schemaVersion.1 ht.schemaVersion.2,
    ofLEInt_toLEInt ht.countFits.1 ht.countFits.2, ht.columnCount, Int.toNat_natCast,
    deserializeColumns_of_loads ht.columns hcolumns hlen]
  dsimp only
  rw [← ht.columnCount]

theorem deserializeColumns_pos (mem : ℕ → UInt8) (dataLen count pos : ℕ) :
    pos ≤ (ObTableSchema.deserializeColumns mem dataLen count pos).2.2 ∧
      (pos ≤ dataLen →
        (ObTableSchema.deserializeColumns mem dataLen count pos).2.2 ≤ dataLen) := by
  induction count generalizing pos with
  | zero => exact ⟨le_rfl, fun h => h⟩
  | succ count ih =>
    rw [ObTableSchema.deserializeColumns]
    by_cases hfits : pos + 152 ≤ dataLen
    · rw [column_deserialize_of_fits {} hfits]
      have hrest := ih (pos + 152)
      exact ⟨Nat.le_trans (Nat.le_add_right _ _) hrest.1, fun _ => hrest.2 hfits⟩
    · rw [column_deserialize_of_not_fits {} hfits]
      exact ⟨le_rfl, fun h => h⟩

theorem deserialize_pos (mem : ℕ → UInt8) (h : 40 ≤ dataLen) (old : ObTableSchema) :
    (old.deserialize mem dataLen 0).2.2 = (ObTableSchema.deserializeColumns mem dataLen
      (ofLEInt (load mem 152 8)).toNat 160).2.2 := by
  rw [ObTableSchema.deserialize, if_neg (by omega), Nat.zero_add, Nat.zero_add]

end Read

section Codec

structure Codes (padding : ℕ → ℕ) (mem : ℕ → UInt8) (bufLen : ℕ) (t : ObTableSchema) : Prop where
  succeeds : (t.serialize padding bufLen 0).1 = 0
  inside : (t.serialize padding bufLen 0).2.length ≤ bufLen
  roundTrip : ∀ old : ObTableSchema, ∃ pos,
    old.deserialize (store mem 0 (t.serialize padding bufLen 0).2) bufLen 0 = (0, t, pos)

def ReadsInside (mem : ℕ → UInt8) (dataLen : ℕ) : Prop :=
  ∀ old : ObTableSchema, (old.deserialize mem dataLen 0).2.2 ≤ dataLen

theorem codes_iff (padding : ℕ → ℕ) (mem : ℕ → UInt8) (bufLen : ℕ) {t : ObTableSchema}
    (ht : t.WellFormed) : Codes padding mem bufLen t ↔ t.getSerializeSize + 120 ≤ bufLen := by
  rw [getSerializeSize_eq]
  constructor
  · intro h
    have hfits := fits_of_serialize ht.columnCount h.succeeds h.inside
    omega
  · intro h
    have hfits : 160 + 152 * t.columns.length ≤ bufLen := by omega
    have hout : t.serialize padding bufLen 0 = _ := serialize_of_fits ht.columnCount hfits
    refine ⟨by rw [hout], ?_, fun old => ?_⟩
    · rw [hout, List.length_append, length_fixedPart, length_images]
      exact hfits
    · rw [hout]
      exact ⟨_, deserialize_of_loads ht (loads_store _) hfits old⟩

theorem readsInside_iff (mem : ℕ → UInt8) (dataLen : ℕ) :
    ReadsInside mem dataLen ↔ dataLen < 40 ∨ 160 ≤ dataLen := by
  by_cases hroom : 40 ≤ dataLen
  · have hpos := deserializeColumns_pos mem dataLen (ofLEInt (load mem 152 8)).toNat 160
    simp only [ReadsInside, deserialize_pos mem hroom]
    constructor
    · intro h
      exact Or.inr (Nat.le_trans hpos.1 (h {}))
    · intro h _
      exact hpos.2 (h.resolve_left (Nat.not_lt.mpr hroom))
  · refine iff_of_true (fun old => ?_) (Or.inl (Nat.lt_of_not_le hroom))
    rw [ObTableSchema.deserialize, if_pos (by omega)]
    exact Nat.zero_le _

/-- The declared size is 120 bytes short of what is written, for every schema: a buffer of that
size is left behind its end when there are no columns, and the last column fails otherwise. The
check of `deserialize` is short by the same 120 bytes. -/
theorem table_schema_codec_iff (padding : ℕ → ℕ) (mem : ℕ → UInt8) (t : ObTableSchema)
    (ht : t.WellFormed) :
    (∀ bufLen, Codes padding mem bufLen t ↔ t.getSerializeSize + 120 ≤ bufLen) ∧
      ¬ Codes padding mem t.getSerializeSize t ∧
      ∀ mem dataLen, ReadsInside mem dataLen ↔ dataLen < 40 ∨ 160 ≤ dataLen := by
  refine ⟨fun bufLen => codes_iff padding mem bufLen ht, ?_, readsInside_iff⟩
  rw [codes_iff padding mem _ ht]
  omega

def oneColumn : ObTableSchema :=
  ObTableSchema.addColumn
    { columnId := 1, columnName := [105, 100], dataType := 1, dataLength := 8 }
    { tableId := 1, tableName := [116], databaseId := 1, schemaVersion := 1 }

theorem wellFormed_oneColumn : oneColumn.WellFormed :=
  wellFormed_addColumn
    ⟨by decide, by decide, by decide, by decide, rfl, by decide, by simp⟩
    ⟨by decide, by decide, by decide, by decide⟩ (by decide)

theorem table_schema_codec_iff_example :
    oneColumn.getSerializeSize = 192 ∧
      ¬ Codes (fun _ => 0) (fun _ => 0) oneColumn.getSerializeSize oneColumn ∧
      Codes (fun _ => 0) (fun _ => 0) 312 oneColumn := by
  have h := table_schema_codec_iff (fun _ => 0) (fun _ => 0) oneColumn wellFormed_oneColumn
  exact ⟨rfl, h.2.1, (h.1 312).mpr (by decide)⟩

/-- A schema without columns asks for 40 bytes and writes 160, and a buffer of 40 bytes is read
to its 160th byte; with a column, the buffer of 192 bytes is refused. -/
theorem schema_written_outside :
    ObTableSchema.getSerializeSize {} = 40 ∧
      (ObTableSchema.serialize (fun _ => 0) 40 0 {}).1 = 0 ∧
      (ObTableSchema.serialize (fun _ => 0) 40 0 {}).2.length = 160 ∧
      (ObTableSchema.deserialize (fun _ => 0) 40 0 {}).2.2 = 160 ∧
      (oneColumn.serialize (fun _ => 0) 192 0).1 = -1 := by
  decide +kernel

end Codec

end TableSchemaCodec
