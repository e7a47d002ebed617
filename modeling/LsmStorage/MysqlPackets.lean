import LsmStorage.DdlService
import LsmStorage.MysqlStore
import LsmStorage.ResultCode
import LsmStorage.SqlExecution
import Mathlib.Data.List.TakeWhile

/-! # The packet encoders of the MySQL protocol

An encoder resizes a vector, stores one field behind the other through a running position, and
puts the length in front at the end. What it stores is kept with the offset it is stored at; no
store function looks at the size of the vector. -/
namespace MysqlPackets

open ByteCodec MysqlStore ResultCode
open DdlService (cString)
open SqlExecution (TupleCellSpec)

def clientProtocol41 : UInt32 := 512
def clientTransactions : UInt32 := 8192
def clientSessionTrack : UInt32 := UInt32.ofNat (1 <<< 23)
def clientDeprecateEof : UInt32 := UInt32.ofNat (1 <<< 24)
def clientOptionalResultsetMetadata : UInt32 := UInt32.ofNat (1 <<< 25)

def hasFlag (capabilities flag : UInt32) : Bool := capabilities &&& flag ≠ 0

/-- The running position and what has been stored, each with its offset. -/
structure Fill where
  pos : ℕ := 0
  stores : List (ℕ × Bytes) := []

namespace Fill

def skip (n : ℕ) (f : Fill) : Fill := { f with pos := f.pos + n }

/-- `pos += store(buf + pos, ...)`. -/
def put (bytes : Bytes) (f : Fill) : Fill :=
  ⟨f.pos + bytes.length, f.stores ++ [(f.pos, bytes)]⟩

def putString (s : Bytes) (f : Fill) : Option Fill := (storeLenencString s).map fun b => f.put b

/-- `store_int3(buf, pos - 4)`. -/
def finish (f : Fill) : Fill :=
  { f with stores := f.stores ++ [(0, storeInt 3 ((f.pos : ℤ) - 4))] }

end Fill

/-- Every store is inside a vector of `n` bytes; a copy of a negative length is not. -/
def Inside (n : ℕ) : Option Fill → Prop
  | none => False
  | some f => ∀ s ∈ f.stores, s.1 + s.2.length ≤ n

instance (n : ℕ) : DecidablePred (Inside n)
  | none => inferInstanceAs (Decidable False)
  | some f => inferInstanceAs (Decidable (∀ s ∈ f.stores, s.1 + s.2.length ≤ n))

structure OkPacket where
  sequenceId : ℤ := 0
  header : ℤ := 0
  affectedRows : ℤ := 0
  lastInsertId : ℤ := 0
  statusFlags : ℤ := 0x22
  warnings : ℤ := 0
  info : Bytes := []
  deriving DecidableEq

structure EofPacket where
  sequenceId : ℤ := 0
  header : ℤ := 0xFE
  warnings : ℤ := 0
  statusFlags : ℤ := 0x22
  deriving DecidableEq

structure ErrPacket where
  sequenceId : ℤ := 0
  header : ℤ := 0xFF
  errorCode : ℤ := 0
  sqlStateMarker : UInt8 := 35
  sqlState : Vector UInt8 5 := #v[72, 89, 48, 48, 48]
  errorMessage : Bytes := []

/-- The vector has 100 bytes. -/
def OkPacket.encode (capabilities : UInt32) (p : OkPacket) : Option Fill :=
  let f := ((Fill.skip 3 {}).put (storeInt 1 p.sequenceId)).put (storeInt 1 p.header)
  let f := f.put (storeLenencInt (UInt64.ofInt p.affectedRows))
  let f := f.put (storeLenencInt (UInt64.ofInt p.lastInsertId))
  let f := if hasFlag capabilities clientProtocol41 then
      (f.put (storeInt 2 p.statusFlags)).put (storeInt 2 p.warnings)
    else if hasFlag capabilities clientTransactions then f.put (storeInt 2 p.statusFlags)
    else f
  let f := if hasFlag capabilities clientSessionTrack then f.putString (cString p.info) else some f
  f.map Fill.finish

/-- The vector has 10 bytes. -/
def EofPacket.encode (capabilities : UInt32) (p : EofPacket) : Fill :=
  let f := ((Fill.skip 3 {}).put (storeInt 1 p.sequenceId)).put (storeInt 1 p.header)
  let f := if hasFlag capabilities clientProtocol41 then
      (f.put (storeInt 2 p.warnings)).put (storeInt 2 p.statusFlags)
    else f
  f.finish

/-- The vector has 1000 bytes. -/
def ErrPacket.encode (capabilities : UInt32) (p : ErrPacket) : Option Fill :=
  let f := ((Fill.skip 3 {}).put (storeInt 1 p.sequenceId)).put (storeInt 1 p.header)
  let f := f.put (storeInt 2 p.errorCode)
  let f := if hasFlag capabilities clientProtocol41 then
      (f.put [p.sqlStateMarker]).put p.sqlState.toList
    else f
  let message := storeFixLengthString p.errorMessage (asInt32 p.errorMessage.length)
  let f := message.map fun b => f.put b
  f.map Fill.finish

/-- The packet with the number of columns; the vector has 1024 bytes. -/
def columnCount (capabilities : UInt32) (sequenceId : ℤ) (cellNum : ℕ) : Fill :=
  let f := (Fill.skip 3 {}).put (storeInt 1 sequenceId)
  let f := if hasFlag capabilities clientOptionalResultsetMetadata then f.put (storeInt 1 1) else f
  (f.put (storeLenencInt (UInt64.ofInt cellNum))).finish

/-- The packet of one column; the vector has 1024 bytes. -/
def columnDefinition (sequenceId : ℤ) (spec : TupleCellSpec) : Option Fill :=
  let f := (Fill.skip 3 {}).put (storeInt 1 sequenceId)
  let f := f.putString [100, 101, 102]
  let f := f.bind (Fill.putString [115, 121, 115])
  let f := f.bind (Fill.putString spec.tableName)
  let f := f.bind (Fill.putString spec.tableName)
  let f := f.bind (Fill.putString spec.aliasName)
  let f := f.bind (Fill.putString spec.aliasName)
  f.map fun f =>
    let f := f.put (storeLenencInt 0x0c)
    let f := ((f.put (storeInt 2 33)).put (storeInt 4 16384)).put (storeInt 1 253)
    (((f.put (storeInt 2 0)).put (storeInt 1 0x1f)).put (storeInt 2 0)).finish

def columnPackets (capabilities : UInt32) (sequenceId : ℤ) (cells : List TupleCellSpec) :
    List (Option Fill) :=
  if cells = [] then []
  else some (columnCount capabilities sequenceId cells.length) ::
    cells.zipIdx.map fun c => columnDefinition (sequenceId + 1 + c.2) c.1

/-- What `write_state` prints into its buffer of 2048 bytes. -/
def stateMessage (rc : RC) (stateString : Bytes) : Bytes :=
  let text := if stateString = [] then asciiBytes rc.strrc
    else asciiBytes rc.strrc ++ (asciiBytes " > " ++ cString stateString)
  text.take 2047

def ErrPacket.ofState (sequenceId : ℤ) (rc : RC) (message : Bytes) : ErrPacket :=
  { sequenceId, errorCode := rc.code, errorMessage := message }

def writeState (capabilities : UInt32) (sequenceId : ℤ) (rc : RC) (stateString : Bytes) :
    ℕ × Option Fill :=
  if rc = .success then
    (100, OkPacket.encode capabilities { sequenceId, info := stateMessage rc stateString })
  else
    (1000, ErrPacket.encode capabilities (.ofState sequenceId rc (stateMessage rc stateString)))

section Bounds

structure Tight (f : Fill) : Prop where
  bounded : ∀ s ∈ f.stores, s.1 + s.2.length ≤ f.pos
  reached : ∃ s ∈ f.stores, s.1 + s.2.length = f.pos

@[simp] theorem pos_put (b : Bytes) (f : Fill) : (f.put b).pos = f.pos + b.length := rfl

theorem tight_first (b : Bytes) : Tight ((Fill.skip 3 {}).put b) := by
  refine ⟨?_, (3, b), List.mem_append_right _ List.mem_cons_self, rfl⟩
  intro s hs
  obtain rfl := List.mem_singleton.mp hs
  exact Nat.le_refl _

theorem Tight.put {f : Fill} (h : Tight f) (b : Bytes) : Tight (f.put b) := by
  refine ⟨?_, (f.pos, b), List.mem_append_right _ List.mem_cons_self, rfl⟩
  intro s hs
  rcases List.mem_append.mp hs with hold | hnew
  · exact Nat.le_trans (h.bounded s hold) (Nat.le_add_right _ _)
  · rw [List.mem_singleton.mp hnew]
    exact Nat.le_refl _

theorem Tight.inside_finish {f : Fill} (h : Tight f) {n : ℕ} (hn : 3 ≤ n) :
    Inside n (some f.finish) ↔ f.pos ≤ n := by
  constructor
  · intro hinside
    obtain ⟨s, hs, hend⟩ := h.reached
    rw [← hend]
    exact hinside s (List.mem_append_left _ hs)
  · intro hpos s hs
    rcases List.mem_append.mp hs with hold | hlength
    · exact Nat.le_trans (h.bounded s hold) hpos
    · rw [List.mem_singleton.mp hlength]
      simpa [storeInt] using hn

/-- Where a string of `n` bytes ends that is stored at `pos`, unless `n` is negative as an
`int`. -/
def afterString (n pos : ℕ) : Option ℕ :=
  if asInt32 n < 0 then none
  else some (pos + (storeLenencInt (UInt64.ofInt (asInt32 n))).length + (asInt32 n).toNat)

def Fits (n : ℕ) (end_ : Option ℕ) : Prop := ∃ pos, end_ = some pos ∧ pos ≤ n

inductive Ends : Option Fill → Option ℕ → Prop
  | failed : Ends none none
  | reaches {f : Fill} (h : Tight f) : Ends (some f) (some f.pos)

theorem ends_putString {f : Fill} (h : Tight f) (s : Bytes) :
    Ends (f.putString s) (afterString s.length f.pos) := by
  unfold Fill.putString afterString
  by_cases hneg : asInt32 s.length < 0
  · rw [storeLenencString_of_neg hneg, if_pos hneg]
    exact .failed
  · rw [storeLenencString_of_nonneg hneg, if_neg hneg]
    have htight := h.put (storeLenencInt (UInt64.ofInt (asInt32 s.length)) ++
      s.take (asInt32 s.length).toNat)
    have hends := Ends.reaches htight
    rwa [pos_put, List.length_append, List.length_take,
      Nat.min_eq_left (toNat_asInt32_le s.length), ← Nat.add_assoc] at hends

theorem Ends.putString {o : Option Fill} {e : Option ℕ} (h : Ends o e) (s : Bytes) :
    Ends (o.bind (Fill.putString s)) (e.bind (afterString s.length)) := by
  cases h with
  | failed => exact .failed
  | reaches h => exact ends_putString h s

theorem Ends.inside_iff {o : Option Fill} {e : Option ℕ} (h : Ends o e) {n : ℕ} (hn : 3 ≤ n) :
    Inside n (o.map Fill.finish) ↔ Fits n e := by
  cases h with
  | failed => simp [Inside, Fits]
  | reaches h =>
    rw [Option.map_some, h.inside_finish hn]
    simp [Fits]

end Bounds

section Packets

def OkPacket.end_ (capabilities : UInt32) (p : OkPacket) : Option ℕ :=
  let pos := 5 + (storeLenencInt (UInt64.ofInt p.affectedRows)).length +
    (storeLenencInt (UInt64.ofInt p.lastInsertId)).length +
    if hasFlag capabilities clientProtocol41 then 4
    else if hasFlag capabilities clientTransactions then 2 else 0
  if hasFlag capabilities clientSessionTrack then afterString (cString p.info).length pos
  else some pos

def ErrPacket.end_ (capabilities : UInt32) (p : ErrPacket) : Option ℕ :=
  let len := asInt32 p.errorMessage.length
  if len < 0 then none
  else some (7 + (if hasFlag capabilities clientProtocol41 then 6 else 0) + len.toNat)

def columnEnd (spec : TupleCellSpec) : Option ℕ :=
  let e := (afterString spec.tableName.length 12).bind (afterString spec.tableName.length)
  let e := (e.bind (afterString spec.aliasName.length)).bind (afterString spec.aliasName.length)
  e.map (· + 13)

@[simp] theorem length_storeInt (w : ℕ) (value : ℤ) : (storeInt w value).length = w :=
  length_toLEInt w value

@[simp] theorem pos_start : (Fill.skip 3 {}).pos = 3 := rfl

def TightAt (f : Fill) (pos : ℕ) : Prop := Tight f ∧ f.pos = pos

theorem tightAt_ite {f g : Fill} {k m n : ℕ} (p : Prop) [Decidable p] (hg : TightAt g (k + m))
    (hf : TightAt f (k + n)) : TightAt (if p then g else f) (k + if p then m else n) := by
  split_ifs
  · exact hg
  · exact hf

theorem TightAt.ends {f : Fill} {pos : ℕ} (h : TightAt f pos) : Ends (some f) (some pos) := by
  obtain ⟨h, rfl⟩ := h
  exact .reaches h

theorem TightAt.putString {f : Fill} {pos : ℕ} (h : TightAt f pos) (s : Bytes) :
    Ends (f.putString s) (afterString s.length pos) := by
  obtain ⟨h, rfl⟩ := h
  exact ends_putString h s

variable (capabilities : UInt32)

theorem OkPacket.inside_iff (p : OkPacket) :
    Inside 100 (p.encode capabilities) ↔ Fits 100 (p.end_ capabilities) := by
  have hfront := (((tight_first (storeInt 1 p.sequenceId)).put (storeInt 1 p.header)).put
    (storeLenencInt (UInt64.ofInt p.affectedRows))).put
    (storeLenencInt (UInt64.ofInt p.lastInsertId))
  have hshort := hfront.put (storeInt 2 p.statusFlags)
  have hlong := hshort.put (storeInt 2 p.warnings)
  have hbody := tightAt_ite (hasFlag capabilities clientProtocol41 = true)
    (k := 5 + (storeLenencInt (UInt64.ofInt p.affectedRows)).length +
      (storeLenencInt (UInt64.ofInt p.lastInsertId)).length) (m := 4) ⟨hlong, by simp⟩
    (tightAt_ite (hasFlag capabilities clientTransactions = true) (m := 2) (n := 0)
      ⟨hshort, by simp⟩ ⟨hfront, by simp⟩)
  refine Ends.inside_iff ?_ (by decide)
  rw [OkPacket.end_]
  by_cases htrack : hasFlag capabilities clientSessionTrack = true
  · rw [if_pos htrack, if_pos htrack]
    exact hbody.putString (cString p.info)
  · rw [if_neg htrack, if_neg htrack]
    exact hbody.ends

theorem EofPacket.inside (p : EofPacket) :
    Inside 10 (some (p.encode capabilities)) := by
  have hfront := (tight_first (storeInt 1 p.sequenceId)).put (storeInt 1 p.header)
  have hstatus := (hfront.put (storeInt 2 p.warnings)).put (storeInt 2 p.statusFlags)
  have hbody := tightAt_ite (k := 5) (m := 4) (n := 0)
    (hasFlag capabilities clientProtocol41 = true) ⟨hstatus, by simp⟩ ⟨hfront, by simp⟩
  refine (hbody.1.inside_finish (by decide)).mpr ?_
  rw [hbody.2]
  split_ifs <;> decide

theorem OkPacket.inside_of_info_nil {p : OkPacket} (h : p.info = []) :
    Inside 100 (p.encode capabilities) := by
  have hrows := length_storeLenencInt_le (UInt64.ofInt p.affectedRows)
  have hid := length_storeLenencInt_le (UInt64.ofInt p.lastInsertId)
  have hinfo (pos : ℕ) : afterString (cString p.info).length pos = some (pos + 1) := by
    rw [h]
    rfl
  rw [OkPacket.inside_iff, OkPacket.end_, hinfo]
  by_cases htrack : hasFlag capabilities clientSessionTrack = true
  · rw [if_pos htrack]
    refine ⟨_, rfl, ?_⟩
    split_ifs <;> omega
  · rw [if_neg htrack]
    refine ⟨_, rfl, ?_⟩
    split_ifs <;> omega

theorem ErrPacket.inside_iff (p : ErrPacket) :
    Inside 1000 (p.encode capabilities) ↔ Fits 1000 (p.end_ capabilities) := by
  have hfront := ((tight_first (storeInt 1 p.sequenceId)).put (storeInt 1 p.header)).put
    (storeInt 2 p.errorCode)
  have hstate := (hfront.put [p.sqlStateMarker]).put p.sqlState.toList
  have hbody := tightAt_ite (k := 7) (m := 6) (n := 0)
    (hasFlag capabilities clientProtocol41 = true) ⟨hstate, by simp⟩ ⟨hfront, by simp⟩
  unfold ErrPacket.encode ErrPacket.end_ storeFixLengthString
  dsimp only
  by_cases hneg : asInt32 p.errorMessage.length < 0
  · rw [if_pos hneg, if_pos hneg]
    exact Ends.failed.inside_iff (by decide)
  · rw [if_neg hneg, if_neg hneg]
    refine Ends.inside_iff (TightAt.ends ⟨hbody.1.put _, ?_⟩) (by decide)
    rw [pos_put, hbody.2, List.length_take, Nat.min_eq_left (toNat_asInt32_le _)]

theorem columnCount_inside (sequenceId : ℤ) (cellNum : ℕ) :
    Inside 1024 (some (columnCount capabilities sequenceId cellNum)) := by
  have hfront := tight_first (storeInt 1 sequenceId)
  have hbody := tightAt_ite (hasFlag capabilities clientOptionalResultsetMetadata = true)
    (k := 4) (m := 1) (n := 0) ⟨hfront.put (storeInt 1 1), by simp⟩ ⟨hfront, by simp⟩
  have hcount := length_storeLenencInt_le (UInt64.ofInt cellNum)
  refine ((hbody.1.put _).inside_finish (by decide)).mpr ?_
  rw [pos_put, hbody.2]
  split_ifs <;> omega

theorem Ends.tail_inside_iff {o : Option Fill} {e : Option ℕ} (h : Ends o e) :
    Inside 1024 (o.map fun f =>
      let f := f.put (storeLenencInt 0x0c)
      let f := ((f.put (storeInt 2 33)).put (storeInt 4 16384)).put (storeInt 1 253)
      (((f.put (storeInt 2 0)).put (storeInt 1 0x1f)).put (storeInt 2 0)).finish) ↔
      Fits 1024 (e.map (· + 13)) := by
  have hlenenc : (storeLenencInt 0x0c).length = 1 := by decide
  cases h with
  | failed => simp [Inside, Fits]
  | reaches h =>
    rw [Option.map_some, ((((((((h.put _).put _).put _).put _).put _).put _).put _).inside_finish
      (by decide))]
    simp only [pos_put, length_storeInt, hlenenc, Option.map_some]
    simp [Fits]

theorem columnDefinition_inside_iff (sequenceId : ℤ) (spec : TupleCellSpec) :
    Inside 1024 (columnDefinition sequenceId spec) ↔ Fits 1024 (columnEnd spec) := by
  have hfront : TightAt ((Fill.skip 3 {}).put (storeInt 1 sequenceId)) 4 :=
    ⟨tight_first _, by simp⟩
  have hfixed : Ends _ ((afterString 3 4).bind (afterString 3)) :=
    (hfront.putString [100, 101, 102]).putString [115, 121, 115]
  have hstart : (afterString 3 4).bind (afterString 3) = some 12 := by decide
  rw [hstart] at hfixed
  have hnames := (((hfixed.putString spec.tableName).putString spec.tableName).putString
    spec.aliasName).putString spec.aliasName
  exact hnames.tail_inside_iff

theorem columnPackets_inside_iff (sequenceId : ℤ) (cells : List TupleCellSpec) :
    (∀ packet ∈ columnPackets capabilities sequenceId cells, Inside 1024 packet) ↔
      ∀ spec ∈ cells, Fits 1024 (columnEnd spec) := by
  unfold columnPackets
  split_ifs with hcells
  · simp [hcells]
  · rw [List.forall_mem_cons, List.forall_mem_map]
    simp only [columnCount_inside, true_and, columnDefinition_inside_iff]
    conv_rhs => rw [← List.zipIdx_map_fst 0 cells, List.forall_mem_map]

theorem afterString_of_short {n : ℕ} (h : n < 2048) (pos : ℕ) :
    afterString n pos = some (pos + (if n < 251 then 1 else 3) + n) := by
  have hint : asInt32 n = n := asInt32_of_lt (by omega)
  have hword : (UInt64.ofInt n).toNat = n := toNat_ofInt_natCast (by omega)
  rw [afterString, hint, if_neg (by omega), storeLenencInt, hword, Int.toNat_natCast]
  split_ifs
  · rfl
  · rw [List.length_cons, length_toLE]
  · omega
  · omega

theorem cString_of_notMem {s : Bytes} (h : 0 ∉ s) : cString s = s := by
  rw [cString, List.takeWhile_eq_self_iff]
  intro b hb
  simp only [ne_eq, decide_not, Bool.not_eq_eq_eq_not, Bool.not_true, decide_eq_false_iff_not]
  rintro rfl
  exact h hb

theorem zero_notMem_cString (s : Bytes) : 0 ∉ cString s := by
  intro h
  have hne := List.mem_takeWhile_imp h
  simp at hne

theorem zero_notMem_strrc (rc : RC) : 0 ∉ asciiBytes rc.strrc := by
  have hnames : ∀ name ∈ "unknown" :: RC.names, 0 ∉ asciiBytes name := by decide +kernel
  apply hnames
  rw [RC.strrc, List.getD_eq_getElem?_getD]
  cases hname : RC.names[rc.code]? with
  | none => exact List.mem_cons_self
  | some name => exact List.mem_cons_of_mem _ (List.mem_of_getElem? hname)

theorem cString_stateMessage (rc : RC) (stateString : Bytes) :
    cString (stateMessage rc stateString) = stateMessage rc stateString := by
  apply cString_of_notMem
  intro hzero
  have htext := List.mem_of_mem_take hzero
  split_ifs at htext
  · exact zero_notMem_strrc rc htext
  · rcases List.mem_append.mp htext with hname | hstate
    · exact zero_notMem_strrc rc hname
    · rcases List.mem_append.mp hstate with harrow | hstate
      · exact absurd harrow (by decide)
      · exact zero_notMem_cString stateString hstate

def StateFits (capabilities : UInt32) (rc : RC) (n : ℕ) : Prop :=
  if rc = .success then hasFlag capabilities clientSessionTrack = true →
    7 + (if hasFlag capabilities clientProtocol41 then 4
      else if hasFlag capabilities clientTransactions then 2 else 0) +
      (if n < 251 then 1 else 3) + n ≤ 100
  else 7 + (if hasFlag capabilities clientProtocol41 then 6 else 0) + n ≤ 1000

theorem writeState_inside_iff (sequenceId : ℤ) (rc : RC) (stateString : Bytes) :
    Inside (writeState capabilities sequenceId rc stateString).1
        (writeState capabilities sequenceId rc stateString).2 ↔
      StateFits capabilities rc (stateMessage rc stateString).length := by
  have hlen : (stateMessage rc stateString).length < 2048 := by
    rw [stateMessage, List.length_take]
    omega
  have hzero : (storeLenencInt (UInt64.ofInt 0)).length = 1 := by decide
  unfold writeState StateFits
  by_cases hrc : rc = .success
  · rw [if_pos hrc, if_pos hrc]
    refine (OkPacket.inside_iff capabilities _).trans ?_
    rw [OkPacket.end_]
    dsimp only
    rw [hzero, cString_stateMessage, afterString_of_short hlen]
    by_cases htrack : hasFlag capabilities clientSessionTrack = true
    · rw [if_pos htrack]
      simp [Fits, htrack]
    · rw [if_neg htrack]
      refine iff_of_true ⟨_, rfl, ?_⟩ fun h => absurd h htrack
      split_ifs <;> decide
  · rw [if_neg hrc, if_neg hrc]
    refine (ErrPacket.inside_iff capabilities _).trans ?_
    have hint : asInt32 (stateMessage rc stateString).length =
        (stateMessage rc stateString).length := asInt32_of_lt (by omega)
    rw [ErrPacket.end_, ErrPacket.ofState, hint, if_neg (by omega), Int.toNat_natCast]
    simp [Fits]

/-- An encoder stays inside its vector exactly when the packet ends there: for any OK and error
packet, for the columns of any result, and for the state that `write_state` sends. -/
theorem packets_inside_iff (capabilities : UInt32) (sequenceId : ℤ) (ok : OkPacket)
    (err : ErrPacket) (cells : List TupleCellSpec) (rc : RC) (stateString : Bytes) :
    (Inside 100 (ok.encode capabilities) ↔ Fits 100 (ok.end_ capabilities)) ∧
      (Inside 1000 (err.encode capabilities) ↔ Fits 1000 (err.end_ capabilities)) ∧
      ((∀ packet ∈ columnPackets capabilities sequenceId cells, Inside 1024 packet) ↔
        ∀ spec ∈ cells, Fits 1024 (columnEnd spec)) ∧
      (Inside (writeState capabilities sequenceId rc stateString).1
          (writeState capabilities sequenceId rc stateString).2 ↔
        StateFits capabilities rc (stateMessage rc stateString).length) :=
  ⟨ok.inside_iff capabilities, err.inside_iff capabilities,
    columnPackets_inside_iff capabilities sequenceId cells,
    writeState_inside_iff capabilities sequenceId rc stateString⟩

/-- A state string of 80 bytes after a success, one of 1000 bytes after an error, and a table name
of 600 bytes. -/
theorem packets_outside :
    let tracked := clientProtocol41 ||| clientSessionTrack
    ¬ Inside 100 (writeState tracked 0 .success (List.replicate 80 97)).2 ∧
      ¬ Inside 1000 (writeState clientProtocol41 0 .internal (List.replicate 1000 97)).2 ∧
      ¬ Inside 1024 (columnDefinition 0 ⟨List.replicate 600 97, [97]⟩) := by
  refine ⟨?_, ?_, ?_⟩
  · decide +kernel
  · decide +kernel
  · decide +kernel

end Packets

end MysqlPackets
