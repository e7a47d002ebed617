import LsmStorage.RingBuffer

/-! # BufferedWriter

The writer over its ring buffer and a descriptor. The operating system is the list of its
answers to `::write`; a call that comes to the end of the list waits for the next answer.
The event log is a ghost observation: no function reads it. -/
namespace Net

open ByteCodec ResultCode RingBuffer

/-- An answer of `::write`: a count of bytes, EAGAIN or EINTR, or another error. -/
inductive WriteAnswer where
  | accepts (n : ℕ)
  | again
  | fails

inductive Event where
  | took (bytes : Bytes)
  | sent (bytes : Bytes)

def Event.tookBytes : Event → Bytes
  | .took bytes => bytes
  | .sent _ => []

def Event.sentBytes : Event → Bytes
  | .took _ => []
  | .sent bytes => bytes

def taken (events : List Event) : Bytes := events.flatMap Event.tookBytes

def sent (events : List Event) : Bytes := events.flatMap Event.sentBytes

structure BufferedWriter where
  fd : ℤ
  buffer : RingBuffer

structure Channel where
  writer : BufferedWriter
  events : List Event

/-- A call that makes no progress in a round of its loop spins. -/
inductive Outcome where
  | returned (rc : RC) (c : Channel) (rest : List WriteAnswer)
  | waiting (c : Channel)
  | spinning (c : Channel)

def Outcome.channel : Outcome → Channel
  | .returned _ c _ => c
  | .waiting c => c
  | .spinning c => c

namespace Channel

def new (fd : ℤ) (capacity : ℕ) (h : 0 < capacity) : Channel :=
  ⟨⟨fd, RingBuffer.new capacity h⟩, []⟩

def size (c : Channel) : ℕ := c.writer.buffer.size

def send (k : ℕ) (c : Channel) : Channel where
  writer := { c.writer with buffer := (c.writer.buffer.forward k).2 }
  events := c.events ++ [.sent (c.writer.buffer.view.take k)]

def take (data : Bytes) (c : Channel) : Channel where
  writer := { c.writer with buffer := (c.writer.buffer.write data).2 }
  events := c.events ++ [.took (data.take (c.writer.buffer.write data).1)]

/-- Both loops of `flush_internal`. The inner one asks again with the same bytes, and a turn
of the outer one on an unchanged buffer does the same. -/
def flushLoop (size : ℕ) (writeSize : ℕ) (c : Channel) (answers : List WriteAnswer) : Outcome :=
  if 0 < c.size ∧ writeSize < size then
    match answers with
    | [] => .waiting c
    | .again :: rest => flushLoop size writeSize c rest
    | .fails :: rest => .returned .ioerrWrite c rest
    | .accepts n :: rest =>
      let k := min n c.writer.buffer.bufferRange.2
      if k = 0 then flushLoop size writeSize c rest
      else flushLoop size (writeSize + k) (c.send k) rest
  else .returned .success c answers

def flushInternal (size : ℕ) (c : Channel) (answers : List WriteAnswer) : Outcome :=
  if c.writer.fd < 0 then .returned .invalidArgument c answers
  else flushLoop size 0 c answers

/-- The outcome and `write_size`. -/
def write (data : Bytes) (c : Channel) (answers : List WriteAnswer) : Outcome × ℕ :=
  if c.writer.fd < 0 then (.returned .invalidArgument c answers, 0)
  else if c.writer.buffer.remain = 0 then
    match flushInternal data.length c answers with
    | .returned .success c' rest =>
      (.returned .success (c'.take data) rest, (c'.writer.buffer.write data).1)
    | o => (o, 0)
  else (.returned .success (c.take data) answers, (c.writer.buffer.write data).1)

def writenLoop (data : Bytes) (c : Channel) (answers : List WriteAnswer) : Outcome :=
  if data = [] then .returned .success c answers
  else
    match write data c answers with
    | (.returned .success c' rest, n) =>
      if 0 < n then writenLoop (data.drop n) c' rest else .spinning c'
    | (o, _) => o
termination_by data.length
decreasing_by
  have := List.length_pos_iff.mpr ‹¬ data = []›
  rw [List.length_drop]
  omega

def writen (data : Bytes) (c : Channel) (answers : List WriteAnswer) : Outcome :=
  if c.writer.fd < 0 then .returned .invalidArgument c answers
  else writenLoop data c answers

def flushAll (c : Channel) (answers : List WriteAnswer) : Outcome :=
  if c.size = 0 then .returned .success c answers
  else
    match flushInternal c.size c answers with
    | .returned .success c' rest => if c'.size < c.size then flushAll c' rest else .spinning c'
    | o => o
termination_by c.size

def flush (c : Channel) (answers : List WriteAnswer) : Outcome :=
  if c.writer.fd < 0 then .returned .invalidArgument c answers
  else flushAll c answers

def close (c : Channel) (answers : List WriteAnswer) : Outcome :=
  if c.writer.fd < 0 then .returned .success c answers
  else
    match c.flush answers with
    | .returned .success c' rest =>
      .returned .success { c' with writer := { c'.writer with fd := -1 } } rest
    | o => o

end Channel

inductive Call where
  | writen (data : Bytes)
  | flush
  | close

def Call.run : Call → Channel → List WriteAnswer → Outcome
  | .writen data, c, answers => c.writen data answers
  | .flush, c, answers => c.flush answers
  | .close, c, answers => c.close answers

def runCalls : List Call → Channel → List WriteAnswer → Outcome
  | [], c, answers => .returned .success c answers
  | call :: calls, c, answers =>
    match call.run c answers with
    | .returned _ c' rest => runCalls calls c' rest
    | o => o

theorem taken_append (es fs : List Event) : taken (es ++ fs) = taken es ++ taken fs :=
  List.flatMap_append

theorem sent_append (es fs : List Event) : sent (es ++ fs) = sent es ++ sent fs :=
  List.flatMap_append

namespace Channel

variable {c c' : Channel} {answers rest : List WriteAnswer} {data : Bytes} {n size writeSize : ℕ}

/-- What was taken in has been sent or is still in the buffer, and at no earlier moment had
more been sent than taken in. -/
structure Exact (c : Channel) : Prop where
  split : taken c.events = sent c.events ++ c.writer.buffer.contents
  always : ∀ es, es <+: c.events → sent es <+: taken es

theorem exact_new (fd : ℤ) {capacity : ℕ} (h : 0 < capacity) : Exact (new fd capacity h) where
  split := rfl
  always := by
    intro es hes
    rw [List.prefix_nil.mp hes]
    exact List.prefix_rfl

theorem Exact.of_append (hc : Exact c) {d : Channel} {e : Event}
    (hevents : d.events = c.events ++ [e])
    (hsplit : taken d.events = sent d.events ++ d.writer.buffer.contents) : Exact d where
  split := hsplit
  always := by
    intro es hes
    rw [hevents] at hes
    rcases List.prefix_concat_iff.mp hes with hall | hold
    · rw [hall, ← hevents, hsplit]
      exact List.prefix_append _ _
    · exact hc.always es hold

theorem Exact.send (hc : Exact c) {k : ℕ} (hk : 0 < k) (hle : k ≤ c.writer.buffer.bufferRange.2)
    (hsize : 0 < c.size) : Exact (c.send k) := by
  obtain ⟨-, -, hrange, -⟩ := bufferRange_spec hsize
  have hview : c.writer.buffer.view.take k = c.writer.buffer.contents.take k := by
    rw [view_eq_take hsize, List.take_take, min_eq_left hle]
  have hrest := (forward_spec hk (le_trans hle hrange)).1
  refine hc.of_append rfl ?_
  show taken (c.events ++ [.sent _]) = sent (c.events ++ [.sent _]) ++ _
  rw [taken_append, sent_append, hc.split]
  show _ ++ [] = _ ++ (c.writer.buffer.view.take k ++ []) ++ (c.writer.buffer.forward k).2.contents
  rw [hview, hrest, List.append_nil, List.append_nil, List.append_assoc, List.take_append_drop]

theorem Exact.take (hc : Exact c) (data : Bytes) : Exact (c.take data) := by
  have hwrite := (write_spec data c.writer.buffer).2.1
  refine hc.of_append rfl ?_
  show taken (c.events ++ [.took _]) = sent (c.events ++ [.took _]) ++ _
  rw [taken_append, sent_append, hc.split]
  show _ ++ (data.take _ ++ []) = _ ++ [] ++ (c.writer.buffer.write data).2.contents
  rw [hwrite, List.append_nil, List.append_nil, List.append_assoc]

structure Sound (o : Outcome) : Prop where
  isExact : Exact o.channel
  ends : ∀ d, o ≠ .spinning d

theorem sound_returned (hc : Exact c) (rc : RC) (rest : List WriteAnswer) :
    Sound (.returned rc c rest) :=
  ⟨hc, fun _ => Outcome.noConfusion⟩

theorem flushLoop_sound (hc : Exact c) : Sound (flushLoop size writeSize c answers) := by
  fun_induction flushLoop size writeSize c answers with
  | case1 writeSize c h => exact ⟨hc, fun _ => Outcome.noConfusion⟩
  | case2 writeSize c h rest ih => exact ih hc
  | case3 writeSize c h rest => exact sound_returned hc _ _
  | case4 writeSize c h n rest k hk ih => exact ih hc
  | case5 writeSize c h n rest k hk ih =>
    exact ih (hc.send (Nat.pos_of_ne_zero hk) (min_le_right _ _) h.1)
  | case6 writeSize c answers h => exact sound_returned hc _ _

theorem flushLoop_success (h : flushLoop size writeSize c answers = .returned .success c' rest) :
    c'.writer.buffer.capacity = c.writer.buffer.capacity ∧ c'.size ≤ c.size ∧
      (c'.size = 0 ∨ size ≤ writeSize + (c.size - c'.size)) := by
  fun_induction flushLoop size writeSize c answers with
  | case1 writeSize c hgo => cases h
  | case2 writeSize c hgo rest' ih => exact ih h
  | case3 writeSize c hgo rest' => cases h
  | case4 writeSize c hgo n rest' k hk ih => exact ih h
  | case5 writeSize c hgo n rest' k hk ih =>
    obtain ⟨hcap, hle, hdone⟩ := ih h
    obtain ⟨-, -, hrange, -⟩ := bufferRange_spec hgo.1
    have hkle : k ≤ c.size := le_trans (min_le_right _ _) hrange
    obtain ⟨-, hcap', hsize⟩ := forward_spec (Nat.pos_of_ne_zero hk) hkle
    have hsend : (c.send k).size = c.size - k := hsize
    rw [hsend] at hle hdone
    exact ⟨hcap.trans hcap', by omega, by omega⟩
  | case6 writeSize c answers hstop =>
    cases h
    refine ⟨rfl, le_rfl, ?_⟩
    omega

theorem flushInternal_sound (hc : Exact c) : Sound (flushInternal size c answers) := by
  unfold flushInternal
  split
  · exact sound_returned hc _ _
  · exact flushLoop_sound hc

theorem flushInternal_success (h : flushInternal size c answers = .returned .success c' rest) :
    c'.writer.buffer.capacity = c.writer.buffer.capacity ∧ c'.size ≤ c.size ∧
      (c'.size = 0 ∨ size ≤ c.size - c'.size) := by
  unfold flushInternal at h
  split at h
  · cases h
  · simpa using flushLoop_success h

theorem write_sound (hc : Exact c) : Sound (write data c answers).1 := by
  have hflush : Sound (flushInternal data.length c answers) := flushInternal_sound hc
  unfold write
  split
  · exact sound_returned hc _ _
  · split
    · split
      · rename_i c' rest heq
        rw [heq] at hflush
        exact sound_returned (hflush.isExact.take data) _ _
      · exact hflush
    · exact sound_returned (hc.take data) _ _

theorem write_takes_some (hdata : data ≠ [])
    (h : write data c answers = (.returned .success c' rest, n)) : 0 < n := by
  unfold write at h
  split at h
  · cases h
  · split at h
    · rename_i hfull
      split at h
      · rename_i d rest' heq
        obtain ⟨hcap, hle, hsent⟩ := flushInternal_success heq
        have hlen := List.length_pos_iff.mpr hdata
        have hpos := Nat.zero_lt_of_lt c.writer.buffer.pos_lt
        obtain ⟨-, rfl⟩ := Prod.mk.inj h
        refine write_takes_some hdata ?_
        unfold remain at hfull ⊢
        rw [hcap]
        unfold size at hle hsent
        have hcapPos : 0 < c.writer.buffer.capacity := hpos
        have hfits : c.writer.buffer.size ≤ c.writer.buffer.capacity := c.writer.buffer.size_le
        omega
      · rename_i hne
        exact absurd (Prod.mk.inj h).1 (hne _ _)
    · rename_i hroom
      obtain ⟨-, rfl⟩ := Prod.mk.inj h
      exact write_takes_some hdata (Nat.pos_of_ne_zero hroom)

theorem writenLoop_sound (hc : Exact c) : Sound (writenLoop data c answers) := by
  fun_induction writenLoop data c answers with
  | case1 c answers => exact sound_returned hc _ _
  | case2 data c answers hdata c' rest n heq hn ih =>
    have hwrite : Sound (write data c answers).1 := write_sound hc
    rw [heq] at hwrite
    exact ih hwrite.isExact
  | case3 data c answers hdata c' rest n heq hn => exact absurd (write_takes_some hdata heq) hn
  | case4 data c answers hdata o n hne heq =>
    have hwrite : Sound (write data c answers).1 := write_sound hc
    rw [heq] at hwrite
    exact hwrite

theorem flushAll_sound (hc : Exact c) : Sound (flushAll c answers) := by
  fun_induction flushAll c answers with
  | case1 c answers h => exact sound_returned hc _ _
  | case2 c answers hpos c' rest heq hlt ih =>
    have hflush : Sound (flushInternal c.size c answers) := flushInternal_sound hc
    rw [heq] at hflush
    exact ih hflush.isExact
  | case3 c answers hpos c' rest heq hlt =>
    obtain ⟨-, hle, hsent⟩ := flushInternal_success heq
    omega
  | case4 c answers hpos hne => exact flushInternal_sound hc

theorem flushAll_success (h : flushAll c answers = .returned .success c' rest) : c'.size = 0 := by
  fun_induction flushAll c answers with
  | case1 c answers hempty =>
    cases h
    exact hempty
  | case2 c answers hpos d rest' heq hlt ih => exact ih h
  | case3 c answers hpos d rest' heq hlt => cases h
  | case4 c answers hpos hne => exact absurd h (hne _ _)

theorem flush_sound (hc : Exact c) : Sound (c.flush answers) := by
  unfold flush
  split
  · exact sound_returned hc _ _
  · exact flushAll_sound hc

theorem flush_success (hc : Exact c) (h : c.flush answers = .returned .success c' rest) :
    sent c'.events = taken c'.events := by
  have hsound : Sound (c.flush answers) := flush_sound hc
  unfold flush at h hsound
  split at h
  · cases h
  · rename_i hopen
    rw [if_neg hopen, h] at hsound
    have hempty : c'.writer.buffer.contents = [] := by
      rw [← List.length_eq_zero_iff, length_contents]
      exact flushAll_success h
    have hsplit : taken c'.events = sent c'.events ++ c'.writer.buffer.contents :=
      hsound.isExact.split
    rw [hsplit, hempty, List.append_nil]

theorem writen_sound (hc : Exact c) : Sound (c.writen data answers) := by
  unfold writen
  split
  · exact sound_returned hc _ _
  · exact writenLoop_sound hc

theorem close_sound (hc : Exact c) : Sound (c.close answers) := by
  have hflush : Sound (c.flush answers) := flush_sound hc
  unfold close
  split
  · exact sound_returned hc _ _
  · split
    · rename_i c' rest heq
      rw [heq] at hflush
      have hexact : Exact c' := hflush.isExact
      exact ⟨⟨hexact.split, hexact.always⟩, fun _ => Outcome.noConfusion⟩
    · exact hflush

theorem run_sound {call : Call} (hc : Exact c) : Sound (call.run c answers) := by
  cases call with
  | writen data => exact writen_sound hc
  | flush => exact flush_sound hc
  | close => exact close_sound hc

theorem runCalls_sound {calls : List Call} (hc : Exact c) : Sound (runCalls calls c answers) := by
  induction calls generalizing c answers with
  | nil => exact sound_returned hc _ _
  | cons call calls ih =>
    have hcall : Sound (call.run c answers) := run_sound hc
    unfold runCalls
    split
    · rename_i rc c' rest heq
      rw [heq] at hcall
      exact ih hcall.isExact
    · exact hcall

theorem taken_flushLoop (size writeSize : ℕ) (c : Channel) (answers : List WriteAnswer) :
    taken (flushLoop size writeSize c answers).channel.events = taken c.events := by
  fun_induction flushLoop size writeSize c answers with
  | case1 | case3 | case6 => rfl
  | case2 writeSize c h rest ih => exact ih
  | case4 writeSize c h n rest k hk ih => exact ih
  | case5 writeSize c h n rest k hk ih =>
    rw [ih, send, taken_append]
    exact List.append_nil _

theorem taken_flushInternal (size : ℕ) (c : Channel) (answers : List WriteAnswer) :
    taken (flushInternal size c answers).channel.events = taken c.events := by
  unfold flushInternal
  split
  · rfl
  · exact taken_flushLoop _ _ _ _

theorem taken_take (data : Bytes) (c : Channel) :
    taken (c.take data).events = taken c.events ++ data.take (c.writer.buffer.write data).1 := by
  rw [take, taken_append]
  exact congrArg _ (List.append_nil _)

theorem taken_write (h : write data c answers = (.returned .success c' rest, n)) :
    taken c'.events = taken c.events ++ data.take n := by
  unfold write at h
  split at h
  · cases h
  · split at h
    · split at h
      · rename_i d rest' heq
        have hd := taken_flushInternal data.length c answers
        rw [heq] at hd
        cases h
        rw [taken_take]
        exact congrArg (· ++ _) hd
      · rename_i hne
        exact absurd (Prod.mk.inj h).1 (hne _ _)
    · cases h
      exact taken_take data c

theorem taken_writenLoop (h : writenLoop data c answers = .returned .success c' rest) :
    taken c'.events = taken c.events ++ data := by
  fun_induction writenLoop data c answers with
  | case1 c answers =>
    cases h
    exact (List.append_nil _).symm
  | case2 data c answers hdata d rest' n heq hn ih =>
    rw [ih h, taken_write heq, List.append_assoc, List.take_append_drop]
  | case3 data c answers hdata d rest' n heq hn => cases h
  | case4 data c answers hdata o n hne heq => exact absurd h (hne _ _)

/-- A `writen` that succeeds has taken in all of its bytes. -/
theorem taken_writen (h : c.writen data answers = .returned .success c' rest) :
    taken c'.events = taken c.events ++ data := by
  unfold writen at h
  split at h
  · cases h
  · exact taken_writenLoop h

theorem taken_flush (h : c.flush answers = .returned .success c' rest) :
    taken c'.events = taken c.events := by
  unfold flush at h
  split at h
  · cases h
  · next hfd =>
    clear hfd
    fun_induction flushAll c answers with
    | case1 c answers hempty =>
      cases h
      rfl
    | case2 c answers hpos d rest' heq hlt ih =>
      have hd := taken_flushInternal c.size c answers
      rw [heq] at hd
      exact (ih h).trans hd
    | case3 c answers hpos d rest' heq hlt => cases h
    | case4 c answers hpos hne => exact absurd h (hne _ _)

/-- The calls for an answer up to the first that fails, and the flush behind them. -/
def sendAll : List Bytes → Channel → List WriteAnswer → Outcome
  | [], c, answers => c.flush answers
  | data :: messages, c, answers =>
    match c.writen data answers with
    | .returned .success c' rest => sendAll messages c' rest
    | o => o

theorem sent_of_sendAll {messages : List Bytes} (hc : Exact c)
    (h : sendAll messages c answers = .returned .success c' rest) :
    sent c'.events = taken c.events ++ messages.flatten := by
  induction messages generalizing c answers with
  | nil =>
    rw [flush_success hc h, taken_flush h]
    exact (List.append_nil _).symm
  | cons data messages ih =>
    have hsound : Sound (c.writen data answers) := writen_sound hc
    unfold sendAll at h
    split at h
    · next d rest' heq =>
      rw [heq] at hsound
      have hd : Exact d := hsound.isExact
      rw [ih hd h, taken_writen heq, List.flatten_cons, List.append_assoc]
    · next hne => exact absurd h (hne _ _)

/-- Messages that are sent with success are what the operating system has accepted, byte for byte,
however it has cut them. The bounds are those up to which the `int32_t` counters of the buffer and
of `writen` count as naturals do. -/
theorem messages_arrive (fd : ℤ) {capacity : ℕ} (hcap : 0 < capacity) (_hmax : capacity ≤ 2 ^ 30)
    (messages : List Bytes) (_hsize : ∀ data ∈ messages, data.length < 2 ^ 31)
    (answers : List WriteAnswer) (c : Channel) (rest : List WriteAnswer)
    (h : sendAll messages (new fd capacity hcap) answers = .returned .success c rest) :
    sent c.events = messages.flatten :=
  sent_of_sendAll (exact_new fd hcap) h

theorem messages_arrive_cut : ∃ c rest,
    sendAll [[1, 2], [3]] (new 5 2 (by decide)) [.accepts 1, .again, .accepts 1, .accepts 7] =
      .returned .success c rest ∧ sent c.events = [1, 2, 3] := by
  have hcode : (match sendAll [[1, 2], [3]] (new 5 2 (by decide))
      [.accepts 1, .again, .accepts 1, .accepts 7] with
    | .returned rc _ _ => rc
    | _ => .internal) = .success := by decide +kernel
  split at hcode
  · next rc c rest h =>
    rw [hcode] at h
    exact ⟨c, rest, h, messages_arrive 5 _ (by decide) [[1, 2], [3]] (by decide) _ c rest h⟩
  · cases hcode

/-- After any calls and any answers of the operating system: the last call has returned or
waits for an answer, at every moment the accepted bytes began the bytes taken in, and a flush
that now returns success leaves the two equal. -/
theorem output_is_exact_stream (fd : ℤ) {capacity : ℕ} (hcap : 0 < capacity) (calls : List Call)
    (answers : List WriteAnswer) :
    (∀ c, runCalls calls (new fd capacity hcap) answers ≠ .spinning c) ∧
      (∀ es, es <+: (runCalls calls (new fd capacity hcap) answers).channel.events →
        sent es <+: taken es) ∧
      ∀ rc c rest c' rest', runCalls calls (new fd capacity hcap) answers = .returned rc c rest →
        c.flush rest = .returned .success c' rest' → sent c'.events = taken c'.events := by
  have hrun : Sound (runCalls calls (new fd capacity hcap) answers) :=
    runCalls_sound (exact_new fd hcap)
  refine ⟨hrun.ends, hrun.isExact.always, ?_⟩
  intro rc c rest c' rest' hret hflush
  rw [hret] at hrun
  exact flush_success hrun.isExact hflush

/-- Three bytes through a buffer of two, with a partial write and an interrupted one. -/
theorem output_is_exact_stream_example :
    let o := runCalls [.writen [1, 2, 3], .flush] (new 5 2 (by decide))
      [.accepts 1, .accepts 0, .accepts 1, .again, .accepts 7]
    sent o.channel.events = [1, 2, 3] ∧ ∀ es, es <+: o.channel.events → sent es <+: taken es :=
  ⟨by decide +kernel, (output_is_exact_stream 5 (by decide) _ _).2.1⟩

end Channel

end Net
