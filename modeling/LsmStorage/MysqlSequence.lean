import LsmStorage.MysqlResult

/-! # MysqlCommunicator::write_result and the sequence ids

A result is answered by one packet with its state, or by the packets of its columns and rows. Five
functions count the packets in `sequence_id_`, an `int8_t` that `read_event` has set. -/
namespace MysqlSequence

open BoundedLoop ByteCodec ResultCode SqlExecution MysqlStore MysqlPackets MysqlReadEvent
open MysqlResult
open DdlService (cString)
open SocketReads (Answer deliveries)
open MysqlResult (Packet Sending start RowFits)

variable {σ α β : Type*}

/-- The packets of a response: those of the columns, an error, and those that follow the columns. -/
inductive Response where
  | columnCount (sequenceId : ℤ) (cellNum : ℕ)
  | columnDefinition (sequenceId : ℤ) (spec : TupleCellSpec)
  | err (packet : ErrPacket)
  | result (packet : Packet)

def packetId : Packet → ℤ
  | .row sequenceId _ => sequenceId
  | .ok packet => packet.sequenceId
  | .eof packet => packet.sequenceId

namespace Response

def sequenceId : Response → ℤ
  | columnCount sequenceId _ => sequenceId
  | columnDefinition sequenceId _ => sequenceId
  | err packet => packet.sequenceId
  | result packet => packetId packet

def encode (capabilities : UInt32) : Response → Option Fill
  | columnCount sequenceId cellNum =>
    some (MysqlPackets.columnCount capabilities sequenceId cellNum)
  | columnDefinition sequenceId spec => MysqlPackets.columnDefinition sequenceId spec
  | err packet => packet.encode capabilities
  | result packet => packet.encode capabilities

def capacity : Response → ℕ
  | columnCount _ _ | columnDefinition _ _ => 1024
  | err _ => 1000
  | result packet => packet.capacity

end Response

def restOf (w : Writer α) : Writer β := { answers := fun k => w.answers (w.calls + k) }

def resume (f : β → α) (w : Writer α) (rest : Writer β) : Writer α :=
  { w with calls := w.calls + rest.calls, taken := w.taken ++ rest.taken.map f }

structure Responding (σ : Type*) where
  communicator : MysqlCommunicator
  result : SqlResult σ
  writer : Writer Response
  needDisconnect : Bool := true

namespace Responding

def nextId (m : Responding σ) : ℤ := m.communicator.sequenceId.toNat

/-- A packet is stored with `sequence_id_++` and written; `none` is a store outside of its
vector. -/
def send (packet : Response) (m : Responding σ) : Option (RC × Responding σ) :=
  let communicator := { m.communicator with sequenceId := m.communicator.sequenceId + 1 }
  if Inside packet.capacity (packet.encode communicator.clientCapabilitiesFlag) then
    let (rc, writer) := m.writer.writen packet
    some (rc, { m with communicator, writer })
  else none

def statePacket (m : Responding σ) : Response :=
  let text := stateMessage m.result.returnCode m.result.stateString
  if m.result.returnCode = .success then .result (.ok { sequenceId := m.nextId, info := text })
  else .err (.ofState m.nextId m.result.returnCode text)

def writeState (m : Responding σ) : Option (RC × Responding σ) :=
  (m.send m.statePacket).map fun (rc, m) => (rc, { m with needDisconnect := rc ≠ .success })

def sendColumns : List TupleCellSpec → Responding σ → Option (RC × Responding σ)
  | [], m => some (.success, m)
  | spec :: specs, m =>
    match m.send (.columnDefinition m.nextId spec) with
    | none => none
    | some (rc, m) =>
      if rc ≠ .success then some (rc, { m with needDisconnect := true }) else sendColumns specs m

/-- The EOF packet behind the columns. A failed write is not reported. -/
def endColumns (m : Responding σ) : Option (RC × Responding σ) :=
  if hasFlag m.communicator.clientCapabilitiesFlag clientDeprecateEof then
    some (.success, { m with needDisconnect := false })
  else (m.send (.result (.eof { sequenceId := m.nextId, statusFlags := 0x02 }))).map fun (_, m) =>
    (.success, { m with needDisconnect := false })

def sendColumnDefinition (m : Responding σ) : Option (RC × Responding σ) :=
  if m.result.tupleSchema = [] then some (.success, m)
  else
    match m.send (.columnCount m.nextId m.result.tupleSchema.length) with
    | none => none
    | some (rc, m) =>
      if rc ≠ .success then some (rc, { m with needDisconnect := true })
      else
        match sendColumns m.result.tupleSchema m with
        | none => none
        | some (rc, m) => if rc ≠ .success then some (rc, m) else m.endColumns

variable (op : RootOperator σ)

def sendResultRows (fuel : ℕ) (noColumnDef : Bool) (m : Responding σ) :
    Option (RC × Responding σ) :=
  let rows := start m.communicator m.result (restOf m.writer : Writer Packet).answers
  (rows.sendResultRows op fuel noColumnDef).map fun (rc, rows) => (rc, {
    communicator := rows.communicator
    result := rows.result
    writer := resume .result m.writer rows.writer
    needDisconnect := rows.needDisconnect })

/-- What follows a successful `open`. The code of the rows is lost: the variable that it is assigned
to hides the one that is returned. -/
def writeOpened (fuel : ℕ) (m : Responding σ) : Option (RC × Responding σ) :=
  match m.sendColumnDefinition with
  | none => none
  | some (rc, m) =>
    if rc ≠ .success then some (rc, { m with result := (m.result.close op).2 })
    else
      (m.sendResultRows op fuel (m.result.tupleSchema = [])).map fun (_, m) =>
        ((m.result.close op).1, { m with result := (m.result.close op).2 })

def writeResult (fuel : ℕ) (m : Responding σ) : Option (RC × Responding σ) :=
  let m := { m with needDisconnect := true }
  if m.result.returnCode ≠ .success ∨ m.result.operator.isNone then m.writeState
  else
    let (rc, result) := m.result.openResult op
    if rc ≠ .success then writeState { m with result := { result with returnCode := rc } }
    else writeOpened op fuel { m with result }

end Responding

section Counting

structure Numbered (first : ℕ) (ids : List ℤ) (next : UInt8) : Prop where
  consecutive : ids = (List.range ids.length).map fun i => (((first + i) % 256 : ℕ) : ℤ)
  upTo : next.toNat = (first + ids.length) % 256

variable {first : ℕ} {ids ids' : List ℤ} {next next' : UInt8}

theorem numbered_nil (next : UInt8) : Numbered next.toNat [] next :=
  ⟨rfl, (Nat.mod_eq_of_lt next.toNat_lt).symm⟩

theorem numbered_singleton (next : UInt8) : Numbered next.toNat [(next.toNat : ℤ)] (next + 1) := by
  refine ⟨?_, UInt8.toNat_add next 1⟩
  show [(next.toNat : ℤ)] = [(((next.toNat + 0) % 256 : ℕ) : ℤ)]
  rw [Nat.add_zero, Nat.mod_eq_of_lt next.toNat_lt]

theorem Numbered.append (h : Numbered first ids next) (h' : Numbered next.toNat ids' next') :
    Numbered first (ids ++ ids') next' := by
  have hnext := h.upTo
  refine ⟨?_, ?_⟩
  · rw [List.length_append, List.range_add, List.map_append, ← h.consecutive, List.map_map]
    conv_lhs => rw [h'.consecutive]
    refine congrArg (ids ++ ·) (List.map_congr_left fun i _ => ?_)
    show _ = (((first + (ids.length + i)) % 256 : ℕ) : ℤ)
    rw [hnext, Nat.mod_add_mod, Nat.add_assoc]
  · rw [h'.upTo, hnext, Nat.mod_add_mod, List.length_append, Nat.add_assoc]

structure Counted (id : α → ℤ) (first : ℕ) (c : MysqlCommunicator) (w : Writer α) : Prop where
  succeeds : ∀ k, w.answers k = .success
  numbered : Numbered first (w.taken.map id) c.sequenceId

variable {id : α → ℤ} {c : MysqlCommunicator} {w : Writer α}

theorem counted_start (id : α → ℤ) (c : MysqlCommunicator) {answers : ℕ → RC}
    (h : ∀ k, answers k = .success) : Counted id c.sequenceId.toNat c ({ answers } : Writer α) :=
  ⟨h, numbered_nil c.sequenceId⟩

theorem Counted.writen (h : Counted id first c w) {packet : α}
    (hpacket : id packet = c.sequenceId.toNat) :
    (w.writen packet).1 = .success ∧
      Counted id first { c with sequenceId := c.sequenceId + 1 } (w.writen packet).2 := by
  have hgood := h.succeeds w.calls
  refine ⟨hgood, h.succeeds, ?_⟩
  rw [Writer.taken_writen, if_pos hgood, List.map_append, List.map_singleton, hpacket]
  exact h.numbered.append (numbered_singleton c.sequenceId)

end Counting

section Rows

variable {op : RootOperator σ} {first : ℕ} {m m' : Sending σ}

abbrev RowsCounted (first : ℕ) (m : Sending σ) : Prop :=
  Counted packetId first m.communicator m.writer

theorem rowsCounted_send {c : MysqlCommunicator} (packet : Packet)
    (h : Counted packetId first c m.writer)
    (hm : m.communicator = { c with sequenceId := c.sequenceId + 1 })
    (hpacket : packetId packet = c.sequenceId.toNat) :
    m.send packet = none ∨ ∃ m', m.send packet = some (.success, m') ∧ RowsCounted first m' := by
  obtain ⟨hcode, hcounted⟩ := h.writen hpacket
  unfold Sending.send
  by_cases hinside : Inside packet.capacity (packet.encode m.communicator.clientCapabilitiesFlag)
  · rw [if_pos hinside]
    dsimp only
    rw [hcode]
    refine .inr ⟨_, rfl, ?_⟩
    show Counted packetId first m.communicator _
    rw [hm]
    exact hcounted
  · exact .inl (if_neg hinside)

/-- A turn of the loop over the rows goes on counting. -/
def KeepsCounted (first : ℕ) : Turn (Sending σ) (Option (RC × Sending σ)) → Prop
  | .again m => RowsCounted first m
  | .stop ended => ∀ rc m, ended = some (rc, m) → RowsCounted first m

theorem RowsCounted.sendRow (h : RowsCounted first m) (tuple : Tuple) :
    KeepsCounted first (m.sendRow tuple) := by
  unfold Sending.sendRow
  dsimp only
  generalize (if (storedCells tuple).2 ≠ .success then
    { m.result with returnCode := (storedCells tuple).2 } else m.result) = result
  have hsend : _ ∨ _ := rowsCounted_send (m := { m.nextSequenceId with result })
    (.row m.communicator.sequenceId.toNat (storedCells tuple).1) h rfl rfl
  rcases hsend with hnone | ⟨m', hsome, hcounted⟩
  · rw [hnone]
    rintro _ _ ⟨⟩
  · rw [hsome]
    dsimp only
    rw [if_neg (not_not.mpr rfl)]
    exact hcounted

theorem RowsCounted.rowTurn (h : RowsCounted first m) : KeepsCounted first (m.rowTurn op) := by
  unfold Sending.rowTurn
  cases hnext : m.result.nextTuple op with
  | none => rintro _ _ ⟨⟩
  | some answer =>
    obtain ⟨rc, tuple, result⟩ := answer
    dsimp only
    split_ifs
    · rintro _ _ ⟨⟩
      exact h
    · exact h
    · exact RowsCounted.sendRow (m := { m with result, affectedRows := m.affectedRows + 1 }) h tuple

theorem RowsCounted.writeTupleResult {fuel : ℕ} {rc : RC} (h : RowsCounted first m)
    (hrun : m.writeTupleResult op fuel = some (rc, m')) : RowsCounted first m' := by
  have hended := run_invariant (I := RowsCounted first)
    (Q := fun ended => ∀ rc m', ended = some (rc, m') → RowsCounted first m') ?_ ?_ h
    (Option.join_eq_some_iff.mp hrun)
  · exact hended rc m' rfl
  · intro s t hs hagain
    have hturn : KeepsCounted first (s.rowTurn op) := hs.rowTurn
    rwa [hagain] at hturn
  · intro s ended hs hstop
    have hturn : KeepsCounted first (s.rowTurn op) := hs.rowTurn
    rwa [hstop] at hturn

theorem packetId_terminator (noColumnDef : Bool) (m : Sending σ) :
    packetId (m.terminator noColumnDef) = m.communicator.sequenceId.toNat := by
  unfold Sending.terminator
  dsimp only
  split_ifs <;> rfl

theorem RowsCounted.sendResultRows {fuel : ℕ} {rc : RC} {noColumnDef : Bool}
    (h : RowsCounted first m) (hrun : m.sendResultRows op fuel noColumnDef = some (rc, m')) :
    RowsCounted first m' := by
  cases hrows : { m with affectedRows := 0 }.writeTupleResult op fuel with
  | none =>
    rw [sendResultRows_of_none noColumnDef hrows] at hrun
    cases hrun
  | some ended =>
    obtain ⟨code, t⟩ := ended
    rw [sendResultRows_of_rows noColumnDef hrows] at hrun
    cases hrun
    have ht := RowsCounted.writeTupleResult (m := { m with affectedRows := 0 }) h hrows
    exact (Counted.writen ht (packetId_terminator noColumnDef t)).2

end Rows

section Response

variable {op : RootOperator σ} {first : ℕ} {m m' : Responding σ} {capabilities : UInt32}

structure ResponseCounted (first : ℕ) (capabilities : UInt32) (m : Responding σ) : Prop where
  counted : Counted Response.sequenceId first m.communicator m.writer
  client : m.communicator.clientCapabilitiesFlag = capabilities

def Steps (first : ℕ) (capabilities : UInt32) (m : Responding σ) (inside : Prop)
    (r : Option (RC × Responding σ)) : Prop :=
  (r = none ∧ ¬ inside) ∨
    ∃ m', r = some (.success, m') ∧ ResponseCounted first capabilities m' ∧ m'.result = m.result

theorem ResponseCounted.withResult (h : ResponseCounted first capabilities m)
    (result : SqlResult σ) (needDisconnect : Bool) :
    ResponseCounted first capabilities { m with result, needDisconnect } :=
  ⟨h.counted, h.client⟩

theorem ResponseCounted.send (h : ResponseCounted first capabilities m) (packet : Response)
    (hpacket : packet.sequenceId = m.nextId) :
    Steps first capabilities m (Inside packet.capacity (packet.encode capabilities))
      (m.send packet) := by
  obtain ⟨hbefore, rfl⟩ := h
  obtain ⟨hcode, hcounted⟩ := hbefore.writen hpacket
  unfold Responding.send
  dsimp only
  by_cases hinside :
      Inside packet.capacity (packet.encode m.communicator.clientCapabilitiesFlag)
  · rw [if_pos hinside, hcode]
    exact .inr ⟨_, rfl, ⟨hcounted, rfl⟩, rfl⟩
  · rw [if_neg hinside]
    exact .inl ⟨rfl, hinside⟩

theorem ResponseCounted.writeState (h : ResponseCounted first capabilities m) :
    Steps first capabilities m
      (StateFits capabilities m.result.returnCode
        (stateMessage m.result.returnCode m.result.stateString).length) m.writeState := by
  have hid : m.statePacket.sequenceId = m.nextId := by
    unfold Responding.statePacket
    dsimp only
    split_ifs <;> rfl
  have hinside : Inside m.statePacket.capacity (m.statePacket.encode capabilities) ↔
      StateFits capabilities m.result.returnCode
        (stateMessage m.result.returnCode m.result.stateString).length := by
    rw [← writeState_inside_iff capabilities m.nextId]
    unfold Responding.statePacket MysqlPackets.writeState
    dsimp only
    split_ifs <;> exact Iff.rfl
  rcases h.send m.statePacket hid with ⟨hnone, houtside⟩ | ⟨m', hsome, hcounted, hresult⟩
  · refine .inl ⟨?_, mt hinside.mpr houtside⟩
    rw [Responding.writeState, hnone]
    rfl
  · refine .inr ⟨{ m' with needDisconnect := false }, ?_,
      ⟨hcounted.counted, hcounted.client⟩, hresult⟩
    rw [Responding.writeState, hsome]
    rfl

theorem ResponseCounted.sendColumns (h : ResponseCounted first capabilities m)
    (specs : List TupleCellSpec) :
    Steps first capabilities m (∀ spec ∈ specs, Fits 1024 (columnEnd spec))
      (m.sendColumns specs) := by
  induction specs generalizing m with
  | nil => exact .inr ⟨m, rfl, h, rfl⟩
  | cons spec specs ih =>
    unfold Responding.sendColumns
    rcases h.send (.columnDefinition m.nextId spec) rfl with
      ⟨hnone, houtside⟩ | ⟨m₁, hsome, hcounted, hresult⟩
    · rw [hnone]
      refine .inl ⟨rfl, fun hall => houtside ?_⟩
      exact (columnDefinition_inside_iff m.nextId spec).mpr (hall spec List.mem_cons_self)
    · rw [hsome]
      dsimp only
      rw [if_neg (not_not.mpr rfl)]
      rcases ih hcounted with ⟨hnone, houtside⟩ | ⟨m₂, hrest, hcounted₂, hresult₂⟩
      · exact .inl ⟨hnone, fun hall => houtside fun s hs => hall s (List.mem_cons_of_mem spec hs)⟩
      · exact .inr ⟨m₂, hrest, hcounted₂, hresult₂.trans hresult⟩

theorem ResponseCounted.endColumns (h : ResponseCounted first capabilities m) :
    Steps first capabilities m True m.endColumns := by
  unfold Responding.endColumns
  split_ifs
  · exact .inr ⟨_, rfl, ⟨h.counted, h.client⟩, rfl⟩
  · rcases h.send (.result (.eof { sequenceId := m.nextId, statusFlags := 0x02 })) rfl
      with ⟨-, houtside⟩ | ⟨m', hsome, hcounted, hresult⟩
    · exact absurd (EofPacket.inside capabilities _) houtside
    · rw [hsome]
      exact .inr ⟨_, rfl, ⟨hcounted.counted, hcounted.client⟩, hresult⟩

theorem ResponseCounted.sendColumnDefinition (h : ResponseCounted first capabilities m) :
    Steps first capabilities m (∀ spec ∈ m.result.tupleSchema, Fits 1024 (columnEnd spec))
      m.sendColumnDefinition := by
  unfold Responding.sendColumnDefinition
  split_ifs
  · exact .inr ⟨m, rfl, h, rfl⟩
  rcases h.send (.columnCount m.nextId m.result.tupleSchema.length) rfl with
    ⟨-, houtside⟩ | ⟨m₁, hsome, hcounted, hresult⟩
  · exact absurd (columnCount_inside capabilities _ _) houtside
  rw [hsome]
  dsimp only
  rw [if_neg (not_not.mpr rfl), hresult]
  rcases hcounted.sendColumns m.result.tupleSchema with
    ⟨hnone, houtside⟩ | ⟨m₂, hcolumns, hcounted₂, hresult₂⟩
  · rw [hnone]
    exact .inl ⟨rfl, houtside⟩
  rw [hcolumns]
  dsimp only
  rw [if_neg (not_not.mpr rfl)]
  rcases hcounted₂.endColumns with ⟨-, houtside⟩ | ⟨m₃, hend, hcounted₃, hresult₃⟩
  · exact absurd trivial houtside
  · exact .inr ⟨m₃, hend, hcounted₃, hresult₃.trans (hresult₂.trans hresult)⟩

theorem ResponseCounted.sendResultRows {fuel : ℕ} {rc : RC} {noColumnDef : Bool}
    (h : ResponseCounted first capabilities m)
    (hrun : m.sendResultRows op fuel noColumnDef = some (rc, m')) :
    Counted Response.sequenceId first m'.communicator m'.writer := by
  obtain ⟨⟨code, rows⟩, hrows, hended⟩ := Option.map_eq_some_iff.mp hrun
  cases hended
  have hcounted := RowsCounted.sendResultRows
    (counted_start packetId m.communicator fun k => h.counted.succeeds (m.writer.calls + k)) hrows
  refine ⟨h.counted.succeeds, ?_⟩
  show Numbered first ((m.writer.taken ++ rows.writer.taken.map Response.result).map
    Response.sequenceId) _
  rw [List.map_append, List.map_map]
  exact h.counted.numbered.append hcounted.numbered

theorem ResponseCounted.writeOpened {fuel : ℕ} {rc : RC} (h : ResponseCounted first capabilities m)
    (hrun : m.writeOpened op fuel = some (rc, m')) :
    Counted Response.sequenceId first m'.communicator m'.writer := by
  unfold Responding.writeOpened at hrun
  rcases h.sendColumnDefinition with ⟨hnone, -⟩ | ⟨m₁, hsome, hcounted, -⟩
  · rw [hnone] at hrun
    cases hrun
  · rw [hsome] at hrun
    dsimp only at hrun
    rw [if_neg (not_not.mpr rfl)] at hrun
    obtain ⟨⟨code, m₂⟩, hrows, hended⟩ := Option.map_eq_some_iff.mp hrun
    cases hended
    have hrest := hcounted.sendResultRows hrows
    exact ⟨hrest.succeeds, hrest.numbered⟩

theorem Steps.counted {inside : Prop} {r : Option (RC × Responding σ)} {rc : RC}
    (h : Steps first capabilities m inside r) (hr : r = some (rc, m')) :
    Counted Response.sequenceId first m'.communicator m'.writer := by
  rcases h with ⟨hnone, -⟩ | ⟨m₁, hsome, hcounted, -⟩
  · rw [hnone] at hr
    cases hr
  · rw [hsome] at hr
    cases hr
    exact hcounted.counted

theorem ResponseCounted.writeResult {fuel : ℕ} {rc : RC} (h : ResponseCounted first capabilities m)
    (hrun : m.writeResult op fuel = some (rc, m')) :
    Counted Response.sequenceId first m'.communicator m'.writer := by
  unfold Responding.writeResult at hrun
  dsimp only at hrun
  split_ifs at hrun
  · exact (h.withResult m.result true).writeState.counted hrun
  · exact (h.withResult _ true).writeState.counted hrun
  · exact (h.withResult _ true).writeOpened hrun

end Response

section Returns

variable {op : RootOperator σ} {first : ℕ} {m : Responding σ} {capabilities : UInt32}

structure Storable (op : RootOperator σ) (capabilities : UInt32) (r : SqlResult σ) : Prop where
  state : ∀ rc, StateFits capabilities rc (stateMessage rc r.stateString).length
  columns : ∀ spec ∈ r.tupleSchema, Fits 1024 (columnEnd spec)
  rows : ∀ s j, RowFits op s j
  ends : ∀ s, ∃ n, op.answer s n ≠ .success

theorem Steps.returns {inside : Prop} {r : Option (RC × Responding σ)}
    (h : Steps first capabilities m inside r) (hinside : inside) : ∃ rc m', r = some (rc, m') := by
  rcases h with ⟨-, houtside⟩ | ⟨m', hsome, -, -⟩
  · exact absurd hinside houtside
  · exact ⟨.success, m', hsome⟩

theorem sendResultRows_returns {s : σ} (hoperator : m.result.operator = some s)
    (hends : ∃ n, op.answer s n ≠ .success) (hfits : ∀ j, RowFits op s j) (noColumnDef : Bool) :
    ∃ fuel rc m', m.sendResultRows op fuel noColumnDef = some (rc, m') := by
  obtain ⟨n, hn⟩ := hends
  have hstart := progress_start op m.communicator m.result s
    (restOf m.writer : Writer Packet).answers
  rw [← hoperator] at hstart
  obtain ⟨fuel, code, rows, hrows⟩ := hstart.writeTupleResult_returns (d := n)
    (by rwa [Nat.zero_add]) hfits
  have hsent := sendResultRows_of_rows
    (m := start m.communicator m.result (restOf m.writer : Writer Packet).answers) noColumnDef hrows
  exact ⟨fuel, _, _, Option.map_eq_some_iff.mpr ⟨_, hsent, rfl⟩⟩

theorem ResponseCounted.writeOpened_returns (h : ResponseCounted first capabilities m)
    (hstorable : Storable op capabilities m.result) {s : σ}
    (hoperator : m.result.operator = some s) :
    ∃ fuel rc m', m.writeOpened op fuel = some (rc, m') := by
  rcases h.sendColumnDefinition with ⟨-, houtside⟩ | ⟨m₁, hsome, -, hresult⟩
  · exact absurd hstorable.columns houtside
  · obtain ⟨fuel, code, m₂, hrows⟩ := sendResultRows_returns (m := m₁)
      ((congrArg SqlResult.operator hresult).trans hoperator) (hstorable.ends s)
      (hstorable.rows s) (m₁.result.tupleSchema = [])
    refine ⟨fuel, (m₂.result.close op).1, { m₂ with result := (m₂.result.close op).2 }, ?_⟩
    unfold Responding.writeOpened
    rw [hsome]
    dsimp only
    rw [if_neg (not_not.mpr rfl), hrows]
    rfl

theorem Storable.openResult {r : SqlResult σ} (h : Storable op capabilities r) (s : σ)
    (hoperator : r.operator = some s) :
    Storable op capabilities (r.openResult op).2 ∧
      (r.openResult op).2.operator = some (op.openWith () s).2 := by
  unfold SqlResult.openResult
  rw [hoperator]
  exact ⟨⟨h.state, h.columns, h.rows, h.ends⟩, rfl⟩

theorem ResponseCounted.writeResult_returns (h : ResponseCounted first capabilities m)
    (hstorable : Storable op capabilities m.result) :
    ∃ fuel rc m', m.writeResult op fuel = some (rc, m') := by
  unfold Responding.writeResult
  dsimp only
  by_cases hstate : m.result.returnCode ≠ .success ∨ m.result.operator.isNone
  · simp only [if_pos hstate]
    exact ⟨0, (h.withResult m.result true).writeState.returns (hstorable.state _)⟩
  simp only [if_neg hstate]
  obtain ⟨-, hsome⟩ := not_or.mp hstate
  obtain ⟨s, hoperator⟩ := Option.ne_none_iff_exists'.mp (mt Option.isNone_iff_eq_none.mpr hsome)
  obtain ⟨hopened, hoperator'⟩ := hstorable.openResult s hoperator
  split_ifs
  · exact ⟨0, (h.withResult _ true).writeState.returns (hopened.state _)⟩
  · exact (h.withResult _ true).writeOpened_returns hopened hoperator'

end Returns

section Wire

/-- The byte with the sequence id is stored at position 3, and no other store touches it. -/
structure Carries (id : ℤ) (f : Fill) : Prop where
  beyond : 4 ≤ f.pos
  stored : ∃ rest, f.stores = (3, storeInt 1 id) :: rest ∧
    ∀ s ∈ rest, 4 ≤ s.1 ∨ s.1 + s.2.length ≤ 3

variable {id : ℤ} {f : Fill} {o : Option Fill}

theorem carries_first (id : ℤ) : Carries id ((Fill.skip 3 {}).put (storeInt 1 id)) :=
  ⟨by simp, [], rfl, List.forall_mem_nil _⟩

theorem Carries.append (h : Carries id f) {pos : ℕ} (hpos : 4 ≤ pos) {store : ℕ × Bytes}
    (hstore : 4 ≤ store.1 ∨ store.1 + store.2.length ≤ 3) :
    Carries id { f with pos, stores := f.stores ++ [store] } := by
  obtain ⟨rest, hstores, hrest⟩ := h.stored
  refine ⟨hpos, rest ++ [store], by rw [hstores]; rfl, ?_⟩
  intro s hs
  rcases List.mem_append.mp hs with hold | hnew
  · exact hrest s hold
  · rw [List.mem_singleton.mp hnew]
    exact hstore

theorem Carries.put (h : Carries id f) (b : Bytes) : Carries id (f.put b) :=
  h.append (h.beyond.trans (Nat.le_add_right _ _)) (.inl h.beyond)

theorem Carries.finish (h : Carries id f) : Carries id f.finish :=
  h.append h.beyond (.inr (by simp))

theorem Carries.ite (p : Prop) [Decidable p] {f' : Fill} (h : Carries id f)
    (h' : Carries id f') : Carries id (if p then f else f') := by
  split_ifs
  · exact h
  · exact h'

def MayCarry (id : ℤ) (o : Option Fill) : Prop := ∀ f, o = some f → Carries id f

theorem MayCarry.bind (h : MayCarry id o) {g : Fill → Option Fill}
    (hg : ∀ f, Carries id f → MayCarry id (g f)) : MayCarry id (o.bind g) := by
  intro f hf
  obtain ⟨f₀, ho, hgf⟩ := Option.bind_eq_some_iff.mp hf
  exact hg f₀ (h f₀ ho) f hgf

theorem MayCarry.map (h : MayCarry id o) {g : Fill → Fill}
    (hg : ∀ f, Carries id f → Carries id (g f)) : MayCarry id (o.map g) := by
  intro f hf
  obtain ⟨f₀, ho, rfl⟩ := Option.map_eq_some_iff.mp hf
  exact hg f₀ (h f₀ ho)

theorem MayCarry.ite (p : Prop) [Decidable p] {o' : Option Fill} (h : MayCarry id o)
    (h' : MayCarry id o') : MayCarry id (if p then o else o') := by
  split_ifs
  · exact h
  · exact h'

theorem Carries.may (h : Carries id f) : MayCarry id (some f) := by
  rintro _ ⟨⟩
  exact h

theorem Carries.putString (h : Carries id f) (s : Bytes) : MayCarry id (f.putString s) := by
  intro f' hf'
  obtain ⟨b, -, rfl⟩ := Option.map_eq_some_iff.mp hf'
  exact h.put b

theorem MayCarry.putString (h : MayCarry id o) (s : Bytes) :
    MayCarry id (o.bind (Fill.putString s)) :=
  h.bind fun _ hf => hf.putString s

theorem carries_okPacket (capabilities : UInt32) (p : OkPacket) :
    MayCarry p.sequenceId (p.encode capabilities) := by
  have hfront := ((carries_first p.sequenceId).put (storeInt 1 p.header)).put
    (storeLenencInt (UInt64.ofInt p.affectedRows))
  have hcounts := hfront.put (storeLenencInt (UInt64.ofInt p.lastInsertId))
  have hflags := Carries.ite (hasFlag capabilities clientProtocol41 = true)
    ((hcounts.put (storeInt 2 p.statusFlags)).put (storeInt 2 p.warnings))
    (Carries.ite (hasFlag capabilities clientTransactions = true)
      (hcounts.put (storeInt 2 p.statusFlags)) hcounts)
  have hinfo := MayCarry.ite (hasFlag capabilities clientSessionTrack = true)
    (hflags.putString (cString p.info)) hflags.may
  exact hinfo.map fun _ => Carries.finish

theorem carries_eofPacket (capabilities : UInt32) (p : EofPacket) :
    Carries p.sequenceId (p.encode capabilities) := by
  have hfront := (carries_first p.sequenceId).put (storeInt 1 p.header)
  have hflags := Carries.ite (hasFlag capabilities clientProtocol41 = true)
    ((hfront.put (storeInt 2 p.warnings)).put (storeInt 2 p.statusFlags)) hfront
  exact hflags.finish

theorem carries_errPacket (capabilities : UInt32) (p : ErrPacket) :
    MayCarry p.sequenceId (p.encode capabilities) := by
  have hfront := ((carries_first p.sequenceId).put (storeInt 1 p.header)).put
    (storeInt 2 p.errorCode)
  have hstate := Carries.ite (hasFlag capabilities clientProtocol41 = true)
    ((hfront.put [p.sqlStateMarker]).put p.sqlState.toList) hfront
  unfold ErrPacket.encode
  dsimp only
  rw [Option.map_map]
  intro f hf
  obtain ⟨message, -, rfl⟩ := Option.map_eq_some_iff.mp hf
  exact (hstate.put message).finish

theorem carries_columnCount (capabilities : UInt32) (sequenceId : ℤ) (cellNum : ℕ) :
    Carries sequenceId (MysqlPackets.columnCount capabilities sequenceId cellNum) := by
  have hfront := carries_first sequenceId
  have hmetadata := Carries.ite (hasFlag capabilities clientOptionalResultsetMetadata = true)
    (hfront.put (storeInt 1 1)) hfront
  exact (hmetadata.put (storeLenencInt (UInt64.ofInt cellNum))).finish

theorem carries_columnDefinition (sequenceId : ℤ) (spec : TupleCellSpec) :
    MayCarry sequenceId (MysqlPackets.columnDefinition sequenceId spec) := by
  have hfixed := ((carries_first sequenceId).putString [100, 101, 102]).putString [115, 121, 115]
  have htable := (hfixed.putString spec.tableName).putString spec.tableName
  have hnames := (htable.putString spec.aliasName).putString spec.aliasName
  refine hnames.map fun f hf => ?_
  have htype := (((hf.put (storeLenencInt 0x0c)).put (storeInt 2 33)).put (storeInt 4 16384)).put
    (storeInt 1 253)
  exact (((htype.put (storeInt 2 0)).put (storeInt 1 0x1f)).put (storeInt 2 0)).finish

theorem carries_row (sequenceId : ℤ) (cells : List Bytes) :
    MayCarry sequenceId (Packet.encodeRow sequenceId cells) := by
  -- the cells are stored one behind the other, so the induction is for any packet so far
  have hcells : ∀ o, MayCarry sequenceId o → MayCarry sequenceId
      (cells.foldl (fun f text => f.bind (Fill.putString (cString text))) o) := by
    induction cells with
    | nil => exact fun _ h => h
    | cons text cells ih => exact fun _ h => ih _ (h.putString (cString text))
  exact (hcells _ (carries_first sequenceId).may).map fun _ => Carries.finish

theorem Response.encode_carries (capabilities : UInt32) (packet : Response) :
    MayCarry packet.sequenceId (packet.encode capabilities) := by
  cases packet with
  | columnCount sequenceId cellNum =>
    exact (carries_columnCount capabilities sequenceId cellNum).may
  | columnDefinition sequenceId spec => exact carries_columnDefinition sequenceId spec
  | err packet => exact carries_errPacket capabilities packet
  | result packet =>
    cases packet with
    | row sequenceId cells => exact carries_row sequenceId cells
    | ok packet => exact carries_okPacket capabilities packet
    | eof packet => exact (carries_eofPacket capabilities packet).may

end Wire

section Request

theorem handlePayload_sequenceId {answer : RC} {buf rest : Bytes} {c : MysqlCommunicator}
    {e : ReadEvent} (h : handlePayload answer buf rest c = .returned e) :
    e.communicator.sequenceId = c.sequenceId := by
  unfold handlePayload at h
  cases buf with
  | nil =>
    dsimp only at h
    split_ifs at h
    cases h
    rfl
  | cons command text =>
    dsimp only at h
    split_ifs at h <;> cases h <;> rfl

theorem readEvent_sequenceId {reads : List Answer} (hreads : Healthy reads) {answer : RC}
    {request : UInt8} {payload rest : Bytes} (hlen : payload.length < 2 ^ 24)
    (henough : 4 + payload.length ≤ deliveries reads) {c : MysqlCommunicator} {e : ReadEvent}
    (h : readEvent reads answer (packet request payload ++ rest) c = some (.returned e)) :
    e.communicator.sequenceId = request + 1 := by
  rw [readEvent_packet hreads answer request hlen rest henough c] at h
  split_ifs at h
  · exact handlePayload_sequenceId (Option.some.inj h)
  · cases h

/-- The packets of a response are numbered one by one from the id behind the one of the request,
modulo 256, whatever the result is; the call returns where they are inside of their vectors and the
operator comes to an end. -/
theorem response_ids_consecutive (op : RootOperator σ) (c : MysqlCommunicator)
    (request : UInt8) (result : SqlResult σ) {answers : ℕ → RC}
    (hanswers : ∀ k, answers k = .success) :
    let m : Responding σ :=
      { communicator := { c with sequenceId := request + 1 }, result, writer := { answers } }
    (∀ reads answer payload rest e, Healthy reads → payload.length < 2 ^ 24 →
      4 + payload.length ≤ deliveries reads →
      readEvent reads answer (packet request payload ++ rest) c = some (.returned e) →
      e.communicator.sequenceId = m.communicator.sequenceId) ∧
    (∀ fuel rc m', m.writeResult op fuel = some (rc, m') →
      m'.writer.taken.map Response.sequenceId = (List.range m'.writer.taken.length).map
        fun i => (((request.toNat + 1 + i) % 256 : ℕ) : ℤ)) ∧
    (∀ packet f, Response.encode c.clientCapabilitiesFlag packet = some f →
      Carries packet.sequenceId f) ∧
    (Storable op c.clientCapabilitiesFlag result →
      ∃ fuel rc m', m.writeResult op fuel = some (rc, m')) := by
  intro m
  have hstart : ResponseCounted (request + 1).toNat c.clientCapabilitiesFlag m :=
    ⟨counted_start Response.sequenceId m.communicator hanswers, rfl⟩
  refine ⟨?_, ?_, Response.encode_carries c.clientCapabilitiesFlag, hstart.writeResult_returns⟩
  · intro reads answer payload rest e hreads hlen henough hread
    exact readEvent_sequenceId hreads hlen henough hread
  · intro fuel rc m' hrun
    have hids := (hstart.writeResult hrun).numbered.consecutive
    rw [List.length_map] at hids
    rw [hids]
    refine List.map_congr_left fun i _ => ?_
    have hfirst : (request + 1).toNat = (request.toNat + 1) % 256 := UInt8.toNat_add request 1
    rw [hfirst, Nat.mod_add_mod]

/-- The response to request 253 with a column and two rows: the counter passes 255. -/
theorem response_ids_wrap :
    let m : Responding (List Tuple × Tuple) := {
      communicator := { sequenceId := 253 + 1 }
      result := {
        session := ⟨false, .success⟩
        operator := some ([[(.success, [49])], [(.success, [50])]], [])
        tupleSchema := [⟨[116], [97]⟩] }
      writer := { answers := fun _ => .success } }
    ∃ rc m', m.writeResult (listing .recordEof) 4 = some (rc, m') ∧
      m'.writer.taken.length = 6 ∧
      m'.writer.taken.map Response.sequenceId = [254, 255, 0, 1, 2, 3] := by
  intro m
  have hsix : (m.writeResult (listing .recordEof) 4).map
      (fun r => r.2.writer.taken.length) = some 6 := by decide
  obtain ⟨⟨rc, m'⟩, hrun, hcount⟩ := Option.map_eq_some_iff.mp hsix
  have hlength : m'.writer.taken.length = 6 := hcount
  have hids := (response_ids_consecutive (listing .recordEof) {} 253 m.result
    fun _ => rfl).2.1 4 rc m' hrun
  rw [hlength] at hids
  exact ⟨rc, m', hrun, hlength, hids⟩

end Request

end MysqlSequence
