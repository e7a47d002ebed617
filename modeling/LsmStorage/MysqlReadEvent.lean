import LsmStorage.MysqlPackets
import LsmStorage.SocketReads

/-! # MysqlCommunicator::read_event

The length of a packet is a signed field of 24 bits. It sizes the buffer, and after the payload is
read the first bytes of the buffer are looked at, whatever its size. -/
namespace MysqlReadEvent

open ByteCodec ResultCode SocketReads MysqlPackets

/-- `common::readn`: the return value, the bytes, the rest of the stream and of the answers;
`none` while it waits for an answer. -/
def readn : List Answer → ℕ → Bytes → Option (ℤ × Bytes × Bytes × List Answer)
  | answers, 0, input => some (0, [], input, answers)
  | [], _ + 1, _ => none
  | answer :: answers, size + 1, input =>
    match read answer (size + 1) input with
    | .error .eagain | .error .eintr => readn answers (size + 1) input
    | .error (.other code) => some (code, [], input, answers)
    | .ok ([], rest) => some (-1, [], rest, answers)
    | .ok (got, rest) =>
      (readn answers (size + 1 - got.length) rest).map fun r => (r.1, got ++ r.2.1, r.2.2)

structure MysqlCommunicator where
  authed : Bool := false
  sequenceId : UInt8 := 0
  clientCapabilitiesFlag : UInt32 := 0

/-- What a call returns and leaves behind: the query that it decodes, the query of the event that
it makes, the OK packet that it sends, and the stream behind what it has read. -/
structure ReadEvent where
  rc : RC
  query : Option Bytes := none
  event : Option Bytes := none
  sent : Option OkPacket := none
  communicator : MysqlCommunicator
  rest : Bytes

inductive Outcome where
  /-- The vector of a negative size throws. -/
  | lengthError (rest : Bytes)
  /-- The payload is read behind its end. -/
  | outside (rest : Bytes)
  | returned (e : ReadEvent)

def versionComment : Bytes := asciiBytes "select @@version_comment"

/-- A payload that has been received. `answer` is what the one thing that is sent returns. -/
def handlePayload (answer : RC) (buf rest : Bytes) (c : MysqlCommunicator) : Outcome :=
  if !c.authed then
    if buf.length < 4 then .outside rest
    else
      let clientFlag := UInt32.ofNat (ofLE (buf.take 4))
      .returned {
        rc := answer
        sent := some { sequenceId := c.sequenceId.toNat }
        communicator := { c with
          authed := true
          clientCapabilitiesFlag := clientFlag &&& ~~~ clientDeprecateEof }
        rest }
  else
    match buf with
    | [] => .outside rest
    | command :: text =>
      if command = 3 then
        let query := text ++ [59]
        if versionComment <:+: query then
          .returned { rc := answer, query := some query, communicator := c, rest }
        else
          .returned {
            rc := .success
            query := some query
            event := some query
            communicator := c
            rest }
      else
        .returned {
          rc := answer
          sent := some { sequenceId := c.sequenceId.toNat }
          communicator := c
          rest }

def readEvent (answers : List Answer) (answer : RC) (input : Bytes) (c : MysqlCommunicator) :
    Option Outcome :=
  match readn answers 4 input with
  | none => none
  | some (ret, header, input, answers) =>
    if ret ≠ 0 then some (.returned { rc := .ioerrRead, communicator := c, rest := input })
    else
      let c := { c with sequenceId := header.getD 3 0 + 1 }
      let payloadLength := ofLEInt (header.take 3)
      if payloadLength < 0 then some (.lengthError input)
      else
        match readn answers payloadLength.toNat input with
        | none => none
        | some (ret, buf, input, _) =>
          if ret ≠ 0 then some (.returned { rc := .ioerrRead, communicator := c, rest := input })
          else some (handlePayload answer buf input c)

def packet (sequenceId : UInt8) (payload : Bytes) : Bytes :=
  toLE 3 payload.length ++ sequenceId :: payload

/-- The packet is consumed, nothing outside of it is read, and a COM_QUERY gives its text, as an
event unless it asks for the version comment. -/
def Handled (c : MysqlCommunicator) (payload rest : Bytes) : Option Outcome → Prop
  | some (.returned e) => e.rest = rest ∧
      (c.authed = true → payload.head? = some 3 → e.query = some (payload.tail ++ [59]) ∧
        (¬ versionComment <:+: payload.tail ++ [59] → e.event = e.query))
  | _ => False

def Healthy (answers : List Answer) : Prop :=
  ∀ a ∈ answers, a = .fail .eagain ∨ a = .fail .eintr ∨ a.delivers = true

instance : DecidablePred Healthy := fun answers =>
  inferInstanceAs (Decidable (∀ a ∈ answers, a = .fail .eagain ∨ a = .fail .eintr ∨
    a.delivers = true))

/-- `readn` gathers its bytes, however the stream is split, and uses up no more than one delivery
a byte. -/
theorem readn_eq {answers : List Answer} (hanswers : Healthy answers) {size : ℕ} {input : Bytes}
    (hinput : size ≤ input.length) (henough : size ≤ deliveries answers) :
    ∃ more, readn answers size input = some (0, input.take size, input.drop size, more) ∧
      Healthy more ∧ deliveries answers ≤ deliveries more + size := by
  induction answers generalizing size input with
  | nil =>
    obtain rfl : size = 0 := by simpa [deliveries] using henough
    exact ⟨[], rfl, hanswers, Nat.le_refl _⟩
  | cons answer answers ih =>
    have hrest : Healthy answers := fun a ha => hanswers a (List.mem_cons_of_mem answer ha)
    cases size with
    | zero => exact ⟨answer :: answers, rfl, hanswers, Nat.le_refl _⟩
    | succ size =>
      cases answer with
      | fail errno =>
        rw [deliveries_fail] at henough ⊢
        obtain ⟨more, hmore, hhealthy, hleft⟩ := ih hrest hinput henough
        refine ⟨more, ?_, hhealthy, hleft⟩
        rcases hanswers _ List.mem_cons_self with h | h | h
        · cases h
          exact hmore
        · cases h
          exact hmore
        · cases h
      | deliver k =>
        rw [deliveries_deliver] at henough ⊢
        have hne : input ≠ [] := by
          rintro rfl
          simp at hinput
        obtain ⟨got, rest, hread, rfl, hgot, hfits⟩ :=
          read_deliver (k := k) (Nat.succ_pos size) hne
        obtain ⟨first, tail, rfl⟩ := List.exists_cons_of_ne_nil hgot
        rw [List.length_append] at hinput
        have hpos : 0 < (first :: tail).length := List.length_pos_iff.mpr hgot
        have hleftInput : size + 1 - (first :: tail).length ≤ rest.length := by omega
        have hleftEnough : size + 1 - (first :: tail).length ≤ deliveries answers := by omega
        obtain ⟨more, hmore, hhealthy, hleft⟩ := ih hrest hleftInput hleftEnough
        refine ⟨more, ?_, hhealthy, by omega⟩
        rw [readn, hread]
        dsimp only
        rw [hmore, Option.map_some, List.take_append, List.drop_append,
          List.take_of_length_le hfits, List.drop_eq_nil_of_le hfits, List.nil_append]

theorem payloadLength_packet {n : ℕ} (h : n < 2 ^ 24) :
    ofLEInt (toLE 3 n) = if n < 2 ^ 23 then (n : ℤ) else (n : ℤ) - 2 ^ 24 := by
  rw [ofLEInt, length_toLE, ofLE_toLE_of_lt (by omega)]
  split_ifs <;> omega

theorem readEvent_packet {answers : List Answer} (hanswers : Healthy answers) (answer : RC)
    (sequenceId : UInt8) {payload : Bytes} (hlen : payload.length < 2 ^ 24) (rest : Bytes)
    (henough : 4 + payload.length ≤ deliveries answers) (c : MysqlCommunicator) :
    readEvent answers answer (packet sequenceId payload ++ rest) c =
      if payload.length < 2 ^ 23 then
        some (handlePayload answer payload rest { c with sequenceId := sequenceId + 1 })
      else some (.lengthError (payload ++ rest)) := by
  have hsplit : packet sequenceId payload ++ rest =
      (toLE 3 payload.length ++ [sequenceId]) ++ (payload ++ rest) := by
    simp [packet]
  have hfour : (toLE 3 payload.length ++ [sequenceId]).length = 4 := by simp
  have hfits : 4 ≤ (packet sequenceId payload ++ rest).length := by
    rw [hsplit, List.length_append, hfour]
    omega
  obtain ⟨more, hheader, hmore, hleft⟩ := readn_eq hanswers hfits (by omega)
  rw [hsplit, List.take_left' hfour, List.drop_left' hfour] at hheader
  have htake : (toLE 3 payload.length ++ [sequenceId]).take 3 = toLE 3 payload.length :=
    List.take_left' (length_toLE _ _)
  have hget : (toLE 3 payload.length ++ [sequenceId]).getD 3 0 = sequenceId := by simp [toLE]
  rw [hsplit, readEvent, hheader]
  dsimp only
  rw [if_neg (by simp), htake, hget, payloadLength_packet hlen]
  by_cases hsmall : payload.length < 2 ^ 23
  · have hdelivered : payload.length ≤ (payload ++ rest).length := by simp
    obtain ⟨_, hpayload, -, -⟩ := readn_eq hmore hdelivered (by omega)
    rw [List.take_left, List.drop_left] at hpayload
    rw [if_pos hsmall, if_neg (by omega), if_pos hsmall, Int.toNat_natCast, hpayload]
    dsimp only
    rw [if_neg (by simp)]
  · rw [if_neg hsmall, if_pos (by omega), if_neg hsmall]

theorem handled_handlePayload_iff (answer : RC) (payload rest : Bytes) (c : MysqlCommunicator) :
    Handled c payload rest (some (handlePayload answer payload rest c)) ↔
      (if c.authed then 1 else 4) ≤ payload.length := by
  unfold handlePayload
  cases hauthed : c.authed with
  | false =>
    by_cases hshort : payload.length < 4
    · simp [hshort, Handled]
    · simp [hshort, Handled, hauthed, Nat.le_of_not_lt hshort]
  | true =>
    cases payload with
    | nil => simp [Handled]
    | cons command text =>
      refine iff_of_true ?_ (by simp)
      by_cases hquery : command = 3
      · by_cases hversion : versionComment <:+: text ++ [59]
        · simp [hquery, hversion, Handled]
        · simp [hquery, hversion, Handled]
      · simp [hquery, Handled]

/-- A packet is handled exactly when its length is below 2^23 and it is not too short for the
state of the connection. -/
theorem client_framing_iff (answers : List Answer) (answer : RC) (sequenceId : UInt8)
    (payload rest : Bytes) (c : MysqlCommunicator) (hlen : payload.length < 2 ^ 24)
    (hanswers : Healthy answers) (henough : 4 + payload.length ≤ deliveries answers) :
    Handled c payload rest (readEvent answers answer (packet sequenceId payload ++ rest) c) ↔
      payload.length < 2 ^ 23 ∧ (if c.authed then 1 else 4) ≤ payload.length := by
  rw [readEvent_packet hanswers answer sequenceId hlen rest henough]
  by_cases hsmall : payload.length < 2 ^ 23
  · rw [if_pos hsmall]
    have hiff := handled_handlePayload_iff answer payload rest
      { c with sequenceId := sequenceId + 1 }
    exact hiff.trans ⟨fun h => ⟨hsmall, h⟩, And.right⟩
  · rw [if_neg hsmall]
    exact iff_of_false id fun h => hsmall h.1

theorem client_framing_iff_example :
    Handled { authed := true } [3, 97] [] (readEvent (List.replicate 6 (.deliver 0)) .success
      (packet 0 [3, 97] ++ []) { authed := true }) :=
  (client_framing_iff (List.replicate 6 (.deliver 0)) .success 0 [3, 97] [] { authed := true }
    (by decide) (by decide) (by decide)).mpr (by decide)

/-- An empty packet after the handshake, a short one in it, and a packet of 2^23 bytes. -/
theorem packets_not_handled :
    readEvent (List.replicate 4 (.deliver 0)) .success (packet 0 []) { authed := true } =
        some (.outside []) ∧
      readEvent (List.replicate 7 (.deliver 0)) .success (packet 0 [1, 2, 3]) {} =
        some (.outside []) ∧
      readEvent (List.replicate (4 + 2 ^ 23) (.deliver 0)) .success
          (packet 0 (List.replicate (2 ^ 23) 3) ++ []) { authed := true } =
        some (.lengthError (List.replicate (2 ^ 23) 3 ++ [])) := by
  refine ⟨rfl, rfl, ?_⟩
  have hhealthy : Healthy (List.replicate (4 + 2 ^ 23) (.deliver 0)) := by
    intro a ha
    rw [List.eq_of_mem_replicate ha]
    exact Or.inr (Or.inr rfl)
  have henough : 4 + (List.replicate (2 ^ 23) (3 : UInt8)).length ≤
      deliveries (List.replicate (4 + 2 ^ 23) (.deliver 0)) := by
    have hdelivers : (Answer.deliver 0).delivers = true := rfl
    rw [List.length_replicate, deliveries, List.countP_replicate, if_pos hdelivers]
  rw [readEvent_packet hhealthy .success 0 (by rw [List.length_replicate]; omega) [] henough,
    if_neg (by rw [List.length_replicate]; omega)]

end MysqlReadEvent
