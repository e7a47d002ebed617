import LsmStorage.DdlService
import LsmStorage.SqlExecution

/-! # PlainCommunicator::write_result_internal

The header and the rows of a result are written piece by piece, and most of the returns on the way
close the result first. Two do not: the one behind a failed delimiter between two column names,
and the one behind a failed `next`. -/
namespace PlainResult

open ByteCodec BoundedLoop ResultCode SqlExecution
open DdlService (cString)

variable {σ : Type*}

structure PlainCommunicator (σ : Type*) where
  result : SqlResult σ
  writer : Writer Bytes
  needDisconnect : Bool := false

def delimiter : Bytes := asciiBytes " | "

def newline : Bytes := asciiBytes "\n"

namespace PlainCommunicator

def stateText (r : SqlResult σ) : Bytes :=
  let text := if r.stateString = [] then
      asciiBytes (if r.returnCode = .success then "SUCCESS" else "FAILURE") ++ newline
    else asciiBytes r.returnCode.strrc ++ (asciiBytes " > " ++ (cString r.stateString ++ newline))
  text.take 2047

def writeState (c : PlainCommunicator σ) : RC × PlainCommunicator σ :=
  let (rc, writer) := c.writer.writen (stateText c.result)
  if rc ≠ .success then (.ioerrWrite, { c with writer, needDisconnect := true })
  else (.success, { c with writer, needDisconnect := false })

/-- A write. Where it fails the caller returns, after what it does to the result first. -/
def send (cleanup : SqlResult σ → SqlResult σ) (bytes : Bytes) (c : PlainCommunicator σ) :
    Except (RC × PlainCommunicator σ) (PlainCommunicator σ) :=
  let (rc, writer) := c.writer.writen bytes
  if rc ≠ .success then .error (rc, { c with result := cleanup c.result, writer })
  else .ok { c with writer }

variable (op : RootOperator σ)

/-- `sql_result->close()` where its code is not looked at. -/
def closing (r : SqlResult σ) : SqlResult σ := (r.close op).2

def delimit (cleanup : SqlResult σ → SqlResult σ) (i : ℕ) (c : PlainCommunicator σ) :
    Except (RC × PlainCommunicator σ) (PlainCommunicator σ) :=
  if i ≠ 0 then c.send cleanup delimiter else .ok c

/-- The items of a line from number `i` on, where `cleanup` follows a failed delimiter. -/
def writeItems (cleanup : SqlResult σ → SqlResult σ) : ℕ → Tuple → PlainCommunicator σ →
    Except (RC × PlainCommunicator σ) (PlainCommunicator σ)
  | _, [], c => .ok c
  | i, (rc, text) :: items, c => do
    let c ← c.delimit cleanup i
    if rc ≠ .success then .error (rc, { c with result := closing op c.result })
    else do
      let c ← c.send (closing op) text
      writeItems cleanup (i + 1) items c

/-- The names of the columns, empty ones too: the test in front of a name is true of any pointer.
A failed delimiter does not close the result. -/
def writeColumns (specs : List TupleCellSpec) :
    PlainCommunicator σ → Except (RC × PlainCommunicator σ) (PlainCommunicator σ) :=
  writeItems op id 0 (specs.map fun spec => (.success, spec.aliasName))

def writeHeader (c : PlainCommunicator σ) :
    Except (RC × PlainCommunicator σ) (PlainCommunicator σ) := do
  let c ← c.writeColumns op c.result.tupleSchema
  if 0 < c.result.tupleSchema.length then c.send (closing op) newline else .ok c

def writeRow (tuple : Tuple) (c : PlainCommunicator σ) :
    Except (RC × PlainCommunicator σ) (PlainCommunicator σ) := do
  let c ← c.writeItems op (closing op) 0 tuple
  c.send (closing op) newline

/-- One turn of the loop of `write_tuple_result`. `RECORD_EOF` is a success only where it ends the
loop. -/
def tupleTurn (c : PlainCommunicator σ) :
    Turn (PlainCommunicator σ) (Option (RC × PlainCommunicator σ)) :=
  match c.result.nextTuple op with
  | none => .stop none
  | some (rc, tuple, result) =>
    let c := { c with result }
    if rc = .success then
      match writeRow op tuple c with
      | .ok c => .again c
      | .error returned => .stop (some returned)
    else .stop (some (if rc = .recordEof then .success else rc, c))

def writeTupleResult (fuel : ℕ) (c : PlainCommunicator σ) : Option (RC × PlainCommunicator σ) :=
  (run (tupleTurn op) fuel c).join

def finish (c : PlainCommunicator σ) : RC × PlainCommunicator σ :=
  let (rc, result) := c.result.close op
  if c.result.tupleSchema.length = 0 then
    writeState { c with result := { result with returnCode := rc } }
  else (rc, { c with result, needDisconnect := false })

def writeOpened (fuel : ℕ) (c : PlainCommunicator σ) : Option (RC × PlainCommunicator σ) :=
  match writeHeader op c with
  | .error returned => some returned
  | .ok c =>
    match writeTupleResult op fuel c with
    | none => none
    | some (rc, c) => if rc ≠ .success then some (rc, c) else some (finish op c)

def writeResultInternal (fuel : ℕ) (c : PlainCommunicator σ) : Option (RC × PlainCommunicator σ) :=
  let c := { c with needDisconnect := true }
  if c.result.returnCode ≠ .success ∨ c.result.operator.isNone then some c.writeState
  else
    let (rc, result) := c.result.openResult op
    if rc ≠ .success then
      some (writeState { c with result := { closing op result with returnCode := rc } })
    else writeOpened op fuel { c with result }

end PlainCommunicator

open PlainCommunicator

def rowWrites (row : Tuple) : ℕ := 2 * row.length - 1 + 1

def rowsWrites (op : RootOperator σ) (s : σ) (n : ℕ) : ℕ :=
  ((List.range n).map fun j => rowWrites (op.row s j)).sum

def DelimiterFails (answers : ℕ → RC) (cellNum : ℕ) : Prop :=
  ∃ i, 0 < i ∧ i < cellNum ∧ FirstFailure answers (2 * i - 1)

/-- Some call of `next` fails with a code other than `RECORD_EOF`, after rows that are written
completely behind the first `sent` writes. -/
def NextFails (op : RootOperator σ) (s : σ) (answers : ℕ → RC) (sent : ℕ) : Prop :=
  ∃ n, op.answer s n ≠ .success ∧ op.answer s n ≠ .recordEof ∧
    (∀ j < n, op.answer s j = .success ∧ GoodCells (op.row s j)) ∧
    Delivered answers (sent + rowsWrites op s n)

section Returns

universe u v

variable {σ τ : Type u} {ρ : Type v} {Q : σ → Prop} {Q' : τ → Prop} {R : ρ → Prop}

/-- A stretch of code hands a state on to the next one or has returned already. -/
def Ensures (Q : σ → Prop) (R : ρ → Prop) : Except ρ σ → Prop
  | .ok s => Q s
  | .error r => R r

theorem Ensures.bind {x : Except ρ σ} (h : Ensures Q R x) {f : σ → Except ρ τ}
    (hf : ∀ s, Q s → Ensures Q' R (f s)) : Ensures Q' R (x >>= f) := by
  cases x with
  | ok s => exact hf s h
  | error r => exact h

theorem Ensures.mono {Q₁ : σ → Prop} {R₁ : ρ → Prop} {x : Except ρ σ} (h : Ensures Q R x)
    (hgo : ∀ s, Q s → Q₁ s) (hreturn : ∀ r, R r → R₁ r) : Ensures Q₁ R₁ x := by
  cases x with
  | ok s => exact hgo s h
  | error r => exact hreturn r h

end Returns

section Writes

structure Going (answers : ℕ → RC) (r : SqlResult σ) (n : ℕ) (c : PlainCommunicator σ) : Prop where
  delivered : Delivered answers n
  result : c.result = r
  writer : c.writer.answers = answers
  calls : c.writer.calls = n

variable {op : RootOperator σ} {answers : ℕ → RC} {r : SqlResult σ} {n : ℕ}
  {c : PlainCommunicator σ}

structure Left (r : SqlResult σ) (returned : RC × PlainCommunicator σ) : Prop where
  code : returned.1 ≠ .success
  result : returned.2.result = r

theorem Going.send (h : Going answers r n c) (cleanup : SqlResult σ → SqlResult σ) (bytes : Bytes) :
    Ensures (Going answers r (n + 1))
      (fun returned => FirstFailure answers n ∧ Left (cleanup r) returned)
      (c.send cleanup bytes) := by
  have hcode : c.writer.answers c.writer.calls = answers n := by rw [h.writer, h.calls]
  by_cases hgood : answers n = .success
  · simp only [PlainCommunicator.send, Writer.writen, hcode, hgood, ne_eq, not_true_eq_false,
      ↓reduceIte]
    exact ⟨h.delivered.succ hgood, h.result, h.writer, congrArg (· + 1) h.calls⟩
  · simp only [PlainCommunicator.send, Writer.writen, hcode, hgood, ne_eq, not_false_eq_true,
      ↓reduceIte]
    exact ⟨⟨h.delivered, hgood⟩, hgood, congrArg cleanup h.result⟩

theorem Going.delimit {i : ℕ} (h : Going answers r (n + (2 * i - 1)) c)
    (cleanup : SqlResult σ → SqlResult σ) :
    Ensures (Going answers r (n + 2 * i))
      (fun returned => 0 < i ∧ FirstFailure answers (n + (2 * i - 1)) ∧ Left (cleanup r) returned)
      (c.delimit cleanup i) := by
  rcases Nat.eq_zero_or_pos i with rfl | hpos
  · exact h
  · rw [PlainCommunicator.delimit, if_pos hpos.ne']
    refine (h.send cleanup delimiter).mono ?_ (fun returned hreturned => ⟨hpos, hreturned⟩)
    intro c hc
    rwa [show n + (2 * i - 1) + 1 = n + 2 * i by omega] at hc

/-- A line has returned: from a delimiter, from an item whose value fails, or from the write of
an item. Items `0` to `k` are those of the line. -/
inductive LineLeft (op : RootOperator σ) (cleanup : SqlResult σ → SqlResult σ)
    (answers : ℕ → RC) (r : SqlResult σ) (n k : ℕ) (items : Tuple)
    (returned : RC × PlainCommunicator σ) : Prop
  | delimiter (i : ℕ) (hpos : 0 < i) (hi : i < k) (hfails : FirstFailure answers (n + (2 * i - 1)))
      (hleft : Left (cleanup r) returned)
  | item (i : ℕ) (hi : i < k) (hfails : FirstFailure answers (n + 2 * i))
      (hleft : Left (closing op r) returned)
  | value (hbad : ¬ GoodCells items) (hleft : Left (closing op r) returned)

theorem Going.writeItems {i : ℕ} (h : Going answers r (n + (2 * i - 1)) c)
    (op : RootOperator σ) (cleanup : SqlResult σ → SqlResult σ) (items : Tuple) :
    Ensures
      (fun c => Going answers r (n + (2 * (i + items.length) - 1)) c ∧ GoodCells items)
      (LineLeft op cleanup answers r n (i + items.length) items)
      (c.writeItems op cleanup i items) := by
  induction items generalizing i c with
  | nil => exact ⟨h, List.forall_mem_nil _⟩
  | cons item items ih =>
    obtain ⟨rc, text⟩ := item
    have hi : i < i + ((rc, text) :: items).length := by simp
    refine ((h.delimit cleanup).mono (fun _ => id) ?_).bind fun c hc => ?_
    · rintro returned ⟨hpos, hfails, hleft⟩
      exact .delimiter i hpos hi hfails hleft
    by_cases hrc : rc = .success
    · rw [if_neg (not_not.mpr hrc)]
      refine ((hc.send (closing op) text).mono (fun _ => id) ?_).bind fun c hc => ?_
      · rintro returned ⟨hfails, hleft⟩
        exact .item i hi hfails hleft
      rw [Nat.add_assoc, show 2 * i + 1 = 2 * (i + 1) - 1 by omega] at hc
      have hlength : i + ((rc, text) :: items).length = i + 1 + items.length := by
        rw [List.length_cons, Nat.add_assoc, Nat.add_comm 1]
      rw [hlength]
      refine (ih hc).mono ?_ ?_
      · rintro c ⟨hc, hgood⟩
        exact ⟨hc, List.forall_mem_cons.mpr ⟨hrc, hgood⟩⟩
      · rintro returned (⟨j, hpos, hj, hfails, hleft⟩ | ⟨j, hj, hfails, hleft⟩ | ⟨hbad, hleft⟩)
        · exact .delimiter j hpos hj hfails hleft
        · exact .item j hj hfails hleft
        · exact .value (fun hgood => hbad (List.forall_mem_cons.mp hgood).2) hleft
    · rw [if_pos hrc]
      exact .value (fun hgood => hrc (List.forall_mem_cons.mp hgood).1)
        ⟨hrc, congrArg (closing op) hc.result⟩

inductive HeaderLeft (op : RootOperator σ) (answers : ℕ → RC) (r : SqlResult σ) (cellNum : ℕ)
    (returned : RC × PlainCommunicator σ) : Prop
  | opened (hfails : DelimiterFails answers cellNum) (hleft : Left r returned)
  | closed (hnot : ¬ DelimiterFails answers cellNum) (hshort : ¬ Delivered answers (2 * cellNum))
      (hleft : Left (closing op r) returned)

theorem HeaderLeft.of_failure {cellNum p : ℕ} {returned : RC × PlainCommunicator σ}
    (h : FirstFailure answers p) (hlt : p < 2 * cellNum)
    (hp : ∀ i, 0 < i → i < cellNum → p ≠ 2 * i - 1) (hleft : Left (closing op r) returned) :
    HeaderLeft op answers r cellNum returned := by
  refine .closed ?_ (fun hdelivered => Nat.not_le_of_lt hlt (h.le hdelivered)) hleft
  rintro ⟨i, hpos, hi, hfails⟩
  exact hp i hpos hi (h.unique hfails)

theorem Going.writeHeader (h : Going answers r 0 c) (op : RootOperator σ) :
    Ensures (Going answers r (2 * r.tupleSchema.length))
      (HeaderLeft op answers r r.tupleSchema.length) (c.writeHeader op) := by
  have hcolumns := Going.writeItems (n := 0) (i := 0) h op id
    (r.tupleSchema.map fun spec => (.success, spec.aliasName))
  rw [List.length_map, Nat.zero_add, Nat.zero_add] at hcolumns
  rw [PlainCommunicator.writeHeader, h.result]
  refine (hcolumns.mono (fun _ hc => hc.1) ?_).bind fun c hc => ?_
  · rintro returned (⟨i, hpos, hi, hfails, hleft⟩ | ⟨i, hi, hfails, hleft⟩ | ⟨hbad, -⟩)
    · rw [Nat.zero_add] at hfails
      exact .opened ⟨i, hpos, hi, hfails⟩ hleft
    · refine .of_failure hfails ?_ ?_ hleft <;> omega
    · refine absurd (fun item hitem => ?_) hbad
      obtain ⟨spec, -, rfl⟩ := List.mem_map.mp hitem
      rfl
  · rw [hc.result]
    by_cases hpos : 0 < r.tupleSchema.length
    · rw [if_pos hpos]
      refine (hc.send (closing op) newline).mono ?_ ?_
      · intro c hc
        rwa [show 2 * r.tupleSchema.length - 1 + 1 = 2 * r.tupleSchema.length by omega] at hc
      · rintro returned ⟨hfails, hleft⟩
        refine .of_failure hfails ?_ ?_ hleft <;> omega
    · rw [if_neg hpos]
      rwa [show 2 * r.tupleSchema.length - 1 = 2 * r.tupleSchema.length by omega] at hc

theorem Going.writeRow (h : Going answers r n c) (op : RootOperator σ) (row : Tuple) :
    Ensures (fun c => Going answers r (n + rowWrites row) c ∧ GoodCells row)
      (fun returned => ¬ (GoodCells row ∧ Delivered answers (n + rowWrites row)) ∧
        Left (closing op r) returned) (c.writeRow op row) := by
  have hshort : ∀ {p}, FirstFailure answers p → p < n + rowWrites row →
      ¬ (GoodCells row ∧ Delivered answers (n + rowWrites row)) :=
    fun hfails hlt hsent => Nat.not_le_of_lt hlt (hfails.le hsent.2)
  have hitems := Going.writeItems (i := 0) h op (closing op) row
  rw [Nat.zero_add] at hitems
  refine (hitems.mono (fun _ => id) ?_).bind fun c hc => ?_
  · rintro returned (⟨i, hpos, hi, hfails, hleft⟩ | ⟨i, hi, hfails, hleft⟩ | ⟨hbad, hleft⟩)
    · refine ⟨hshort hfails ?_, hleft⟩
      rw [rowWrites]
      omega
    · refine ⟨hshort hfails ?_, hleft⟩
      rw [rowWrites]
      omega
    · exact ⟨fun hsent => hbad hsent.1, hleft⟩
  · obtain ⟨hgoing, hgood⟩ := hc
    refine (hgoing.send (closing op) newline).mono (fun _ hc => ⟨hc, hgood⟩) ?_
    rintro returned ⟨hfails, hleft⟩
    exact ⟨hshort hfails (Nat.lt_succ_self _), hleft⟩

end Writes

section Rows

variable {op : RootOperator σ} {answers : ℕ → RC} {r : SqlResult σ} {s : σ} {n : ℕ}
  {c : PlainCommunicator σ}

theorem rowsWrites_succ (op : RootOperator σ) (s : σ) (m : ℕ) :
    rowsWrites op s (m + 1) = rowWrites (op.row s 0) + rowsWrites op (op.next s).2 m := by
  rw [rowsWrites, List.range_succ_eq_map, List.map_cons, List.map_map, List.sum_cons]
  rfl

theorem nextFails_of_success (h : op.answer s 0 = .success) :
    NextFails op s answers n ↔ GoodCells (op.row s 0) ∧
      NextFails op (op.next s).2 answers (n + rowWrites (op.row s 0)) := by
  constructor
  · rintro ⟨m, hfails, heof, hrows, hdelivered⟩
    cases m with
    | zero => exact absurd h hfails
    | succ m =>
      rw [rowsWrites_succ, ← Nat.add_assoc] at hdelivered
      refine ⟨(hrows 0 m.succ_pos).2, m, hfails, heof, fun j hj => ?_, hdelivered⟩
      exact hrows (j + 1) (Nat.succ_lt_succ hj)
  · rintro ⟨hgood, m, hfails, heof, hrows, hdelivered⟩
    refine ⟨m + 1, hfails, heof, fun j hj => ?_, ?_⟩
    · cases j with
      | zero => exact ⟨h, hgood⟩
      | succ j => exact hrows j (Nat.lt_of_succ_lt_succ hj)
    · rwa [rowsWrites_succ, ← Nat.add_assoc]

theorem nextFails_of_failure (h : op.answer s 0 ≠ .success) (hn : Delivered answers n) :
    NextFails op s answers n ↔ op.answer s 0 ≠ .recordEof := by
  constructor
  · rintro ⟨m, -, heof, hrows, -⟩
    cases m with
    | zero => exact heof
    | succ m => exact absurd (hrows 0 m.succ_pos).1 h
  · intro heof
    exact ⟨0, h, heof, fun j hj => absurd hj j.not_lt_zero, hn⟩

theorem NextFails.sent (h : NextFails op s answers n) (hs : op.answer s 0 = .success) :
    GoodCells (op.row s 0) ∧ Delivered answers (n + rowWrites (op.row s 0)) := by
  obtain ⟨hgood, m, -, -, -, hdelivered⟩ := (nextFails_of_success hs).mp h
  exact ⟨hgood, fun k hk => hdelivered k (Nat.lt_of_lt_of_le hk (Nat.le_add_right _ _))⟩

inductive RowsEnd (op : RootOperator σ) (s : σ) (answers : ℕ → RC) (n : ℕ) :
    Option (RC × PlainCommunicator σ) → Prop
  | failed {returned} (h : NextFails op s answers n) (hcode : returned.1 ≠ .success)
      (hopened : returned.2.result.Opened) : RowsEnd op s answers n (some returned)
  | closed {returned} (h : ¬ NextFails op s answers n) (hcode : returned.1 ≠ .success)
      (hclosed : returned.2.result.ClosedOnce) : RowsEnd op s answers n (some returned)
  | sent {returned} (h : ¬ NextFails op s answers n) (hcode : returned.1 = .success)
      (hopened : returned.2.result.Opened) : RowsEnd op s answers n (some returned)

theorem Going.tupleTurn (h : Going answers r n c) (op : RootOperator σ) (hr : r.Opened)
    (hs : r.operator = some s) :
    (∃ c', tupleTurn op c = .again c' ∧ op.answer s 0 = .success ∧ GoodCells (op.row s 0) ∧
      Going answers { r with operator := some (op.next s).2 } (n + rowWrites (op.row s 0)) c') ∨
    ∃ ended, tupleTurn op c = .stop ended ∧ RowsEnd op s answers n ended := by
  have hopened := hr.next (op.next s).2
  have hnext : c.result.nextTuple op = some (op.answer s 0, op.row s 0,
      { r with operator := some (op.next s).2 }) := by
    rw [h.result, SqlResult.nextTuple, hs]
    rfl
  have hgoing : Going answers { r with operator := some (op.next s).2 } n
      { c with result := { r with operator := some (op.next s).2 } } :=
    ⟨h.delivered, rfl, h.writer, h.calls⟩
  unfold PlainCommunicator.tupleTurn
  rw [hnext]
  dsimp only
  by_cases hanswer : op.answer s 0 = .success
  · rw [if_pos hanswer]
    have hrow := hgoing.writeRow op (op.row s 0)
    cases hwritten : PlainCommunicator.writeRow op (op.row s 0) _ with
    | ok c' =>
      rw [hwritten] at hrow
      exact .inl ⟨c', rfl, hanswer, hrow.2, hrow.1⟩
    | error returned =>
      rw [hwritten] at hrow
      obtain ⟨hunsent, hleft⟩ := hrow
      refine .inr ⟨some returned, rfl, .closed (fun hfails => hunsent (hfails.sent hanswer))
        hleft.code ?_⟩
      rw [hleft.result]
      exact hopened.close
  · rw [if_neg hanswer]
    refine .inr ⟨_, rfl, ?_⟩
    have hiff := nextFails_of_failure hanswer h.delivered
    by_cases heof : op.answer s 0 = .recordEof
    · rw [if_pos heof]
      exact .sent (fun hfails => hiff.mp hfails heof) rfl hopened
    · rw [if_neg heof]
      exact .failed (hiff.mpr heof) hanswer hopened

theorem Going.rows {fuel : ℕ} {ended : Option (RC × PlainCommunicator σ)}
    (h : Going answers r n c) (hr : r.Opened) (hs : r.operator = some s)
    (hrun : run (PlainCommunicator.tupleTurn op) fuel c = some ended) :
    RowsEnd op s answers n ended := by
  induction fuel generalizing c r s n with
  | zero => cases hrun
  | succ fuel ih =>
    rcases h.tupleTurn op hr hs with
      ⟨c', hturn, hanswer, hgood, hgoing⟩ | ⟨ended', hturn, hend⟩
    · rw [run, hturn] at hrun
      -- what is to come behind the row decides, since the row itself has gone out
      have hiff : NextFails op s answers n ↔ NextFails op (op.next s).2 answers _ :=
        (nextFails_of_success hanswer).trans (and_iff_right hgood)
      cases ih hgoing (hr.next _) rfl hrun with
      | failed hfails hcode hopened => exact .failed (hiff.mpr hfails) hcode hopened
      | closed hfails hcode hclosed => exact .closed (fun h => hfails (hiff.mp h)) hcode hclosed
      | sent hfails hcode hopened => exact .sent (fun h => hfails (hiff.mp h)) hcode hopened
    · rw [run, hturn] at hrun
      cases hrun
      exact hend

theorem Going.rows_halt {m : ℕ} (h : Going answers r n c) (hr : r.Opened)
    (hs : r.operator = some s) (hm : op.answer s m ≠ .success) :
    Halts (PlainCommunicator.tupleTurn op) c := by
  induction m generalizing c r s n with
  | zero =>
    rcases h.tupleTurn op hr hs with ⟨c', -, hanswer, -⟩ | ⟨ended, hturn, -⟩
    · exact absurd hanswer hm
    · exact ⟨ended, yields_stop hturn⟩
  | succ m ih =>
    rcases h.tupleTurn op hr hs with ⟨c', hturn, -, -, hgoing⟩ | ⟨ended, hturn, -⟩
    · obtain ⟨ended, hended⟩ := ih hgoing (hr.next _) rfl hm
      exact ⟨ended, yields_again hturn hended⟩
    · exact ⟨ended, yields_stop hturn⟩

end Rows

section Results

variable {op : RootOperator σ} {answers : ℕ → RC}

def start (session : Session) (tupleSchema : List TupleCellSpec) (stateString : Bytes) (s : σ)
    (answers : ℕ → RC) : PlainCommunicator σ :=
  { result := { session, operator := some s, tupleSchema, stateString }, writer := { answers } }

def opened (op : RootOperator σ) (session : Session) (tupleSchema : List TupleCellSpec)
    (stateString : Bytes) (s : σ) : SqlResult σ :=
  { session, operator := some (op.openWith () s).2, tupleSchema, stateString
    calls := [.startIfNeed, .openOperator] }

theorem writeState_result (c : PlainCommunicator σ) : c.writeState.2.result = c.result := by
  unfold writeState
  dsimp only
  split <;> rfl

theorem finish_closedOnce {c : PlainCommunicator σ} (h : c.result.Opened) :
    (c.finish op).2.result.ClosedOnce := by
  unfold finish
  dsimp only
  split
  · rw [writeState_result]
    exact h.close.setReturnCode _
  · exact h.close

variable {session : Session} {tupleSchema : List TupleCellSpec} {stateString : Bytes} {s : σ}

theorem writeResultInternal_start (hopen : (op.openWith () s).1 = .success) (fuel : ℕ) :
    (start session tupleSchema stateString s answers).writeResultInternal op fuel =
      writeOpened op fuel ⟨opened op session tupleSchema stateString s, { answers }, true⟩ := by
  have hresult : (start session tupleSchema stateString s answers).result.openResult op =
      (.success, opened op session tupleSchema stateString s) := by
    rw [← hopen]
    rfl
  unfold writeResultInternal
  dsimp only
  rw [if_neg (by simp [start]), hresult]
  rfl

theorem NextFails.delivered {n : ℕ} (h : NextFails op s answers n) : Delivered answers n := by
  obtain ⟨m, -, -, -, hdelivered⟩ := h
  exact fun k hk => hdelivered k (Nat.lt_of_lt_of_le hk (Nat.le_add_right _ _))

theorem RowsEnd.closedOnce_iff {n : ℕ} {ended : RC × PlainCommunicator σ}
    (h : RowsEnd op s answers n (some ended)) :
    (if ended.1 ≠ .success then ended else ended.2.finish op).2.result.ClosedOnce ↔
      ¬ NextFails op s answers n := by
  cases h with
  | failed hfails hcode hopened =>
    rw [if_pos hcode]
    exact iff_of_false hopened.not_closedOnce fun hnot => hnot hfails
  | closed hnot hcode hclosed =>
    rw [if_pos hcode]
    exact iff_of_true hclosed hnot
  | sent hnot hcode hopened =>
    rw [if_neg (not_not.mpr hcode)]
    exact iff_of_true (finish_closedOnce hopened) hnot

theorem writeOpened_of_header {fuel : ℕ} {c c' : PlainCommunicator σ}
    (hheader : c.writeHeader op = .ok c') :
    c.writeOpened op fuel = (c'.writeTupleResult op fuel).map fun ended =>
      if ended.1 ≠ .success then ended else ended.2.finish op := by
  rw [writeOpened, hheader]
  dsimp only
  cases c'.writeTupleResult op fuel with
  | none => rfl
  | some ended => exact (apply_ite some _ _ _).symm

theorem Going.closedOnce_iff {fuel : ℕ} {r : SqlResult σ} {c : PlainCommunicator σ}
    {returned : RC × PlainCommunicator σ} (h : Going answers r 0 c) (hr : r.Opened)
    (hs : r.operator = some s) (hrun : c.writeOpened op fuel = some returned) :
    returned.2.result.ClosedOnce ↔ ¬ DelimiterFails answers r.tupleSchema.length ∧
      ¬ NextFails op s answers (2 * r.tupleSchema.length) := by
  have hheader := h.writeHeader op
  cases hwritten : c.writeHeader op with
  | error left =>
    rw [writeOpened, hwritten] at hrun
    cases hrun
    rw [hwritten] at hheader
    cases hheader with
    | opened hfails hleft =>
      rw [hleft.result]
      exact iff_of_false hr.not_closedOnce fun hnot => hnot.1 hfails
    | closed hnot hshort hleft =>
      rw [hleft.result]
      exact iff_of_true hr.close ⟨hnot, fun hfails => hshort hfails.delivered⟩
  | ok c' =>
    rw [writeOpened_of_header hwritten] at hrun
    rw [hwritten] at hheader
    have hnot : ¬ DelimiterFails answers r.tupleSchema.length := by
      rintro ⟨i, hpos, hi, hfails⟩
      have hle := hfails.le (Going.delivered hheader)
      omega
    rw [and_iff_right hnot]
    obtain ⟨ended, hrows, rfl⟩ := Option.map_eq_some_iff.mp hrun
    exact (hheader.rows hr hs (Option.join_eq_some_iff.mp hrows)).closedOnce_iff

theorem Going.writeOpened_returns {n : ℕ} {r : SqlResult σ} {c : PlainCommunicator σ}
    (h : Going answers r 0 c) (hr : r.Opened) (hs : r.operator = some s)
    (hn : op.answer s n ≠ .success) :
    ∃ fuel returned, c.writeOpened op fuel = some returned := by
  have hheader := h.writeHeader op
  cases hwritten : c.writeHeader op with
  | error left => exact ⟨0, left, by rw [writeOpened, hwritten]⟩
  | ok c' =>
    rw [hwritten] at hheader
    obtain ⟨ended, fuel, hrun⟩ := hheader.rows_halt hr hs hn
    obtain ⟨returned, rfl⟩ : ∃ returned, ended = some returned := by
      cases hheader.rows hr hs hrun <;> exact ⟨_, rfl⟩
    refine ⟨fuel, if returned.1 ≠ .success then returned else returned.2.finish op, ?_⟩
    rw [writeOpened_of_header hwritten, writeTupleResult, hrun]
    rfl

/-- A result that has been opened is closed exactly once, and its transaction ended, where no
delimiter of the header is the first write that fails and `next` does not fail behind rows that
have all gone out; and the call returns where the operator comes to an end. -/
theorem closed_once_iff (op : RootOperator σ) (session : Session)
    (tupleSchema : List TupleCellSpec) (stateString : Bytes) (s : σ) (answers : ℕ → RC)
    (hopen : (op.openWith () s).1 = .success) :
    (∀ fuel rc c,
      (start session tupleSchema stateString s answers).writeResultInternal op fuel =
        some (rc, c) →
      (c.result.ClosedOnce ↔ ¬ DelimiterFails answers tupleSchema.length ∧
        ¬ NextFails op (op.openWith () s).2 answers (2 * tupleSchema.length))) ∧
    ((∃ n, op.answer (op.openWith () s).2 n ≠ .success) →
      ∃ fuel rc c, (start session tupleSchema stateString s answers).writeResultInternal op fuel =
        some (rc, c)) := by
  have hgoing : Going answers (opened op session tupleSchema stateString s) 0
      ⟨opened op session tupleSchema stateString s, { answers }, true⟩ :=
    ⟨fun k hk => absurd hk k.not_lt_zero, rfl, rfl, rfl⟩
  have hopened : (opened op session tupleSchema stateString s).Opened := ⟨rfl, rfl, rfl, rfl⟩
  constructor
  · intro fuel rc c hrun
    rw [writeResultInternal_start hopen] at hrun
    exact hgoing.closedOnce_iff hopened rfl hrun
  · rintro ⟨n, hn⟩
    obtain ⟨fuel, ⟨rc, c⟩, hrun⟩ := hgoing.writeOpened_returns hopened rfl hn
    exact ⟨fuel, rc, c, by rw [writeResultInternal_start hopen, hrun]⟩

def counting (endCode : RC) : RootOperator ℕ where
  openWith _ s := (.success, s)
  next s := if s = 0 then (endCode, s) else (.success, s - 1)
  close s := (.success, s)
  currentTuple _ := some ()
  deref _ _ := some [(.success, [49]), (.success, [50])]

theorem closed_once_iff_example :
    ((counting .recordEof).openWith () 2).1 = .success ∧
      ∃ fuel rc c, (start ⟨false, .success⟩ [⟨[116], [97]⟩, ⟨[116], [98]⟩] [] 2
        fun _ => .success).writeResultInternal (counting .recordEof) fuel = some (rc, c) ∧
        c.result.ClosedOnce := by
  obtain ⟨hiff, hreturns⟩ := closed_once_iff (counting .recordEof) ⟨false, .success⟩
    [⟨[116], [97]⟩, ⟨[116], [98]⟩] [] 2 (fun _ => .success) rfl
  obtain ⟨fuel, rc, c, hrun⟩ := hreturns ⟨2, by decide⟩
  refine ⟨rfl, fuel, rc, c, hrun, (hiff fuel rc c hrun).mpr ⟨?_, ?_⟩⟩
  · rintro ⟨i, -, -, hfails⟩
    exact hfails.fails rfl
  · rintro ⟨n, hfails, heof, -⟩
    unfold SqlOperator.PhysicalOperator.answer counting at hfails heof
    dsimp only at hfails heof
    split at hfails
    · exact heof (by simp_all)
    · exact hfails rfl

/-- The second write, the delimiter of the header, fails; and `next` fails behind a row. Neither
result is closed, and no transaction is ended. -/
theorem results_left_open :
    ((start ⟨false, .success⟩ [⟨[116], [97]⟩, ⟨[116], [98]⟩] [] 2 fun k =>
        if k = 1 then .ioerrWrite else .success).writeResultInternal
          (counting .recordEof) 3).map (fun returned => (returned.1, returned.2.result.calls)) =
      some (.ioerrWrite, [.startIfNeed, .openOperator]) ∧
    ((start ⟨false, .success⟩ [⟨[116], [97]⟩, ⟨[116], [98]⟩] [] 1 fun _ =>
        .success).writeResultInternal
          (counting .internal) 3).map (fun returned => (returned.1, returned.2.result.calls)) =
      some (.internal, [.startIfNeed, .openOperator]) := by
  constructor <;> decide

end Results

end PlainResult
