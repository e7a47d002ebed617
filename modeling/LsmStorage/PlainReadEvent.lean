import LsmStorage.DdlService
import LsmStorage.ResultCode
import LsmStorage.SocketReads

/-! # PlainCommunicator::read_event

The loop reads into a buffer of 8192 bytes until a zero byte has come. Once the buffer is full the
read is asked for nothing, and what it returns then is taken for the end of the connection. -/
namespace PlainReadEvent

open ByteCodec ResultCode SocketReads
open DdlService (cString)

def maxPacketSize : ℕ := 8192

structure ReadEvent where
  rc : RC
  event : Option Bytes
  deriving DecidableEq

def event (query : Bytes) : ReadEvent := ⟨.success, some query⟩

def failed (rc : RC) : ReadEvent := ⟨rc, none⟩

/-- The loop with the bytes that are in the buffer; `none`: it waits for the next answer. -/
def readLoop : List Answer → Bytes → Bytes → Option ReadEvent
  | [], _, _ => none
  | answer :: answers, data, input =>
    match read answer (maxPacketSize - data.length) input with
    | .error .eagain => readLoop answers data input
    | .error _ => some (failed .ioerrRead)
    | .ok ([], _) => some (failed .ioerrClose)
    | .ok (got, rest) =>
      if got.length + data.length > maxPacketSize then some (failed .ioerrTooLong)
      else if 0 ∈ got then some (event (cString (data ++ got)))
      else readLoop answers (data ++ got) rest

def readEvent (answers : List Answer) (input : Bytes) : Option ReadEvent :=
  readLoop answers [] input

def Healthy (answers : List Answer) : Prop := ∀ a ∈ answers, a = .fail .eagain ∨ a.delivers = true

instance : DecidablePred Healthy := fun answers =>
  inferInstanceAs (Decidable (∀ a ∈ answers, a = .fail .eagain ∨ a.delivers = true))

def expected (input : Bytes) : ReadEvent :=
  if 0 ∈ input.take maxPacketSize then event (cString input)
  else if maxPacketSize ≤ input.length then failed .ioerrTooLong
  else failed .ioerrClose

def outcome (input : Bytes) : ReadEvent :=
  if 0 ∈ input.take maxPacketSize then event (cString input) else failed .ioerrClose

theorem cString_cons {x : UInt8} (hx : x ≠ 0) (a : Bytes) : cString (x :: a) = x :: cString a := by
  simp [cString, hx]

theorem cString_append {a b : Bytes} (h : 0 ∈ a) : cString (a ++ b) = cString a := by
  induction a with
  | nil => simp at h
  | cons x a ih =>
    by_cases hx : x = 0
    · simp [cString, hx]
    · have hmem : 0 ∈ a := (List.mem_cons.mp h).resolve_left fun h0 => hx h0.symm
      rw [List.cons_append, cString_cons hx, cString_cons hx, ih hmem]

theorem outcome_of_zero {front : Bytes} (h : 0 ∈ front) (hlen : front.length ≤ maxPacketSize)
    (rest : Bytes) : outcome (front ++ rest) = event (cString front) := by
  rw [outcome, if_pos, cString_append h]
  rw [List.take_append, List.take_of_length_le hlen]
  exact List.mem_append_left _ h

theorem outcome_of_no_zero {front rest : Bytes} (h : 0 ∉ front)
    (hall : front.length = maxPacketSize ∨ (front.length ≤ maxPacketSize ∧ rest = [])) :
    outcome (front ++ rest) = failed .ioerrClose := by
  rw [outcome, if_neg]
  rcases hall with hfull | ⟨hle, rfl⟩
  · rwa [List.take_left' hfull]
  · rwa [List.append_nil, List.take_of_length_le hle]

theorem readLoop_eq {answers : List Answer} (hanswers : Healthy answers) {data input : Bytes}
    (hdata : 0 ∉ data) (hlen : data.length ≤ maxPacketSize)
    (henough : min input.length (maxPacketSize - data.length) < deliveries answers) :
    readLoop answers data input = some (outcome (data ++ input)) := by
  induction answers generalizing data input with
  | nil => simp [deliveries] at henough
  | cons answer answers ih =>
    have hrest : Healthy answers := fun a ha => hanswers a (List.mem_cons_of_mem answer ha)
    cases answer with
    | fail errno =>
      obtain rfl : errno = .eagain := by
        rcases hanswers _ List.mem_cons_self with h | h
        · cases h
          rfl
        · cases h
      rw [deliveries_fail] at henough
      exact ih hrest hdata hlen henough
    | deliver k =>
      rw [deliveries_deliver] at henough
      rw [readLoop]
      by_cases hfull : data.length = maxPacketSize
      · -- the read is asked for nothing
        rw [hfull, Nat.sub_self, read_deliver_zero, outcome_of_no_zero hdata (Or.inl hfull)]
      by_cases hinput : input = []
      · rw [hinput, read_deliver_nil, outcome_of_no_zero hdata (Or.inr ⟨hlen, rfl⟩)]
      obtain ⟨got, rest, hread, rfl, hgot, hfits⟩ :=
        read_deliver (k := k) (Nat.sub_pos_of_lt (Nat.lt_of_le_of_ne hlen hfull)) hinput
      rw [hread]
      obtain ⟨first, more, rfl⟩ := List.exists_cons_of_ne_nil hgot
      have hshort : (data ++ first :: more).length ≤ maxPacketSize := by
        rw [List.length_append]
        omega
      dsimp only
      rw [if_neg (by omega), ← List.append_assoc]
      by_cases hzero : 0 ∈ first :: more
      · rw [if_pos hzero, outcome_of_zero (List.mem_append_right data hzero) hshort]
      · rw [if_neg hzero]
        refine ih hrest (by simp [hdata, hzero]) hshort ?_
        rw [List.length_append] at henough
        rw [List.length_append, List.length_cons] at *
        omega

/-- However the operating system splits the stream, the call does what the stream calls for
exactly when a zero byte comes within the first 8192 bytes or fewer bytes come at all. -/
theorem plain_framing_iff (answers : List Answer) (input : Bytes) (hanswers : Healthy answers)
    (henough : min input.length maxPacketSize < deliveries answers) :
    readEvent answers input = some (expected input) ↔
      0 ∈ input.take maxPacketSize ∨ input.length < maxPacketSize := by
  have hread : readEvent answers input = some (outcome input) :=
    readLoop_eq hanswers (by simp) (Nat.zero_le _) henough
  rw [hread, Option.some.injEq, outcome, expected]
  by_cases hzero : 0 ∈ input.take maxPacketSize
  · rw [if_pos hzero, if_pos hzero]
    exact iff_of_true rfl (Or.inl hzero)
  · rw [if_neg hzero, if_neg hzero]
    by_cases hlong : maxPacketSize ≤ input.length
    · rw [if_pos hlong]
      exact iff_of_false (by decide) (by simp [hzero, hlong])
    · rw [if_neg hlong]
      exact iff_of_true rfl (Or.inr (Nat.lt_of_not_le hlong))

/-- Two bytes, one by one. -/
theorem plain_framing_iff_example :
    readEvent [.deliver 0, .fail .eagain, .deliver 5, .deliver 0] [97, 0] = some (event [97]) :=
  (plain_framing_iff [.deliver 0, .fail .eagain, .deliver 5, .deliver 0] [97, 0] (by decide)
    (by decide)).mpr (Or.inl (by decide))

theorem readEvent_of_full {input : Bytes} (hlen : maxPacketSize ≤ input.length)
    (hzero : 0 ∉ input.take maxPacketSize) (k : ℕ) (answers : List Answer) :
    readEvent (.deliver 8191 :: .deliver k :: answers) input = some (failed .ioerrClose) := by
  have hread : read (.deliver 8191) (maxPacketSize - 0) input =
      .ok (input.take maxPacketSize, input.drop maxPacketSize) := rfl
  have hfull : (input.take maxPacketSize).length = maxPacketSize := List.length_take_of_le hlen
  obtain ⟨first, more, hgot⟩ : ∃ first more, input.take maxPacketSize = first :: more :=
    List.exists_cons_of_length_pos (by rw [hfull]; decide)
  rw [hgot] at hread hfull hzero
  rw [readEvent, readLoop, List.length_nil, hread]
  dsimp only
  rw [if_neg (by simp [hfull]), if_neg hzero, readLoop, List.nil_append, hfull, Nat.sub_self,
    read_deliver_zero]

/-- The buffer is full, and the connection is reported as closed. -/
theorem full_buffer_closed :
    readEvent [.deliver 8191, .deliver 0] (List.replicate 8193 97) = some (failed .ioerrClose) ∧
      expected (List.replicate 8193 97) = failed .ioerrTooLong := by
  have hlen : maxPacketSize ≤ (List.replicate 8193 (97 : UInt8)).length := by
    rw [List.length_replicate]
    decide
  have hzero : 0 ∉ (List.replicate 8193 (97 : UInt8)).take maxPacketSize := by
    intro hmem
    have heq := List.eq_of_mem_replicate (List.mem_of_mem_take hmem)
    cases heq
  exact ⟨readEvent_of_full hlen hzero 0 [], by rw [expected, if_neg hzero, if_pos hlen]⟩

end PlainReadEvent
