import LsmStorage.MysqlReadEvent

/-! # MysqlCommunicator::send_result_rows

Each row goes out as one packet, and an OK or EOF packet follows the last one. The code with which
the rows end is replaced by the one of that packet, and the connection is kept. -/
namespace MysqlResult

open BoundedLoop ByteCodec ResultCode SqlExecution MysqlStore MysqlPackets
open DdlService (cString)
open MysqlReadEvent (MysqlCommunicator)

variable {σ : Type*}

inductive Packet where
  | row (sequenceId : ℤ) (cells : List Bytes)
  | ok (packet : OkPacket)
  | eof (packet : EofPacket)
  deriving DecidableEq

namespace Packet

/-- The cells of a row as they are stored one behind the other, each up to its first NUL. -/
def encodeRow (sequenceId : ℤ) (cells : List Bytes) : Option Fill :=
  let first := (Fill.skip 3 {}).put (storeInt 1 sequenceId)
  (cells.foldl (fun f text => f.bind (Fill.putString (cString text))) (some first)).map Fill.finish

def encode (capabilities : UInt32) : Packet → Option Fill
  | row sequenceId cells => encodeRow sequenceId cells
  | ok packet => packet.encode capabilities
  | eof packet => some (packet.encode capabilities)

def capacity : Packet → ℕ
  | row _ _ => 4 * 1024 * 1024
  | ok _ => 100
  | eof _ => 10

def cells? : Packet → Option (List Bytes)
  | row _ cells => some cells
  | _ => none

end Packet

structure Sending (σ : Type*) where
  communicator : MysqlCommunicator
  result : SqlResult σ
  writer : Writer Packet
  affectedRows : ℕ := 0
  needDisconnect : Bool := false

/-- The texts of the cells in front of the first one whose value fails, and its code. -/
def storedCells : Tuple → List Bytes × RC
  | [] => ([], .success)
  | (rc, text) :: cells =>
    if rc ≠ .success then ([], rc) else (text :: (storedCells cells).1, (storedCells cells).2)

namespace Sending

def nextSequenceId (m : Sending σ) : Sending σ :=
  { m with communicator := { m.communicator with sequenceId := m.communicator.sequenceId + 1 } }

/-- The packet is stored and written; `none` is a store outside of its vector. -/
def send (packet : Packet) (m : Sending σ) : Option (RC × Sending σ) :=
  if Inside packet.capacity (packet.encode m.communicator.clientCapabilitiesFlag) then
    let (rc, writer) := m.writer.writen packet
    some (rc, { m with writer })
  else none

variable (op : RootOperator σ)

/-- The packet of a row. A cell whose value fails only ends the row. -/
def sendRow (tuple : Tuple) (m : Sending σ) : Turn (Sending σ) (Option (RC × Sending σ)) :=
  let (texts, code) := storedCells tuple
  let result := if code ≠ .success then { m.result with returnCode := code } else m.result
  match Sending.send (.row m.communicator.sequenceId.toNat texts)
      { m.nextSequenceId with result } with
  | none => .stop none
  | some (rc, m) =>
    if rc ≠ .success then .stop (some (rc, { m with needDisconnect := true })) else .again m

def rowTurn (m : Sending σ) : Turn (Sending σ) (Option (RC × Sending σ)) :=
  match m.result.nextTuple op with
  | none => .stop none
  | some (rc, tuple, result) =>
    if rc ≠ .success then .stop (some (rc, { m with result }))
    else
      let m := { m with result, affectedRows := m.affectedRows + 1 }
      if tuple = [] then .again m else sendRow tuple m

def writeTupleResult (fuel : ℕ) (m : Sending σ) : Option (RC × Sending σ) :=
  (run (rowTurn op) fuel m).join

def terminator (noColumnDef : Bool) (m : Sending σ) : Packet :=
  let sequenceId : ℤ := m.communicator.sequenceId.toNat
  if hasFlag m.communicator.clientCapabilitiesFlag clientDeprecateEof || noColumnDef then
    .ok { sequenceId, affectedRows := m.affectedRows }
  else .eof { sequenceId }

def sendResultRows (fuel : ℕ) (noColumnDef : Bool) (m : Sending σ) : Option (RC × Sending σ) :=
  match writeTupleResult op fuel { m with affectedRows := 0 } with
  | none => none
  | some (_, m) =>
    (m.nextSequenceId.send (m.terminator noColumnDef)).map fun returned =>
      (returned.1, { returned.2 with needDisconnect := false })

end Sending

def shownRows (op : RootOperator σ) (s : σ) (n : ℕ) : List Tuple :=
  ((List.range n).map (op.row s)).filter (· ≠ [])

def Terminated (m : Sending σ) : Prop :=
  ∃ packet, m.writer.taken.getLast? = some packet ∧ packet.cells? = none

def AllSent (op : RootOperator σ) (s : σ) (m : Sending σ) : Prop :=
  ∃ n, op.answer s n = .recordEof ∧
    (∀ j < n, op.answer s j = .success ∧ GoodCells (op.row s j)) ∧
    m.writer.taken.filterMap Packet.cells? = (shownRows op s n).map fun row => row.map Prod.snd

def Undisturbed (op : RootOperator σ) (s : σ) (answers : ℕ → RC) : Prop :=
  ∃ n, op.answer s n = .recordEof ∧
    (∀ j < n, op.answer s j = .success ∧ GoodCells (op.row s j)) ∧
    Delivered answers (shownRows op s n).length

/-- The rows stop at number `n`, at a `next` that does not succeed or at a packet that is not
written, and write `t` is the one of the terminator. -/
inductive StopsAt (op : RootOperator σ) (s : σ) (answers : ℕ → RC) (n : ℕ) : ℕ → Prop
  | next (hrows : ∀ j < n, op.answer s j = .success)
      (hdelivered : Delivered answers (shownRows op s n).length)
      (hn : op.answer s n ≠ .success) : StopsAt op s answers n (shownRows op s n).length
  | write (hrows : ∀ j < n, op.answer s j = .success) (hn : op.answer s n = .success)
      (hrow : op.row s n ≠ []) (hfails : FirstFailure answers (shownRows op s n).length) :
      StopsAt op s answers n ((shownRows op s n).length + 1)

section Rows

variable {op : RootOperator σ} {s : σ} {answers : ℕ → RC} {n k : ℕ} {w : Writer Packet}
  {m : Sending σ}

theorem shownRows_succ (op : RootOperator σ) (s : σ) (n : ℕ) :
    shownRows op s (n + 1) = shownRows op s n ++ if op.row s n = [] then [] else [op.row s n] := by
  rw [shownRows, List.range_succ, List.map_append, List.filter_append]
  by_cases hrow : op.row s n = [] <;> simp [shownRows, hrow]

structure Shown (op : RootOperator σ) (s : σ) (answers : ℕ → RC) (n calls : ℕ)
    (w : Writer Packet) : Prop where
  answers : w.answers = answers
  calls : w.calls = calls
  rows : ∀ packet ∈ w.taken, packet.cells?.isSome
  taken : w.taken.filterMap Packet.cells? = (shownRows op s n).map fun row => (storedCells row).1

structure Progress (op : RootOperator σ) (s : σ) (answers : ℕ → RC) (n : ℕ)
    (m : Sending σ) : Prop where
  operator : m.result.operator = some (op.after s n)
  answered : ∀ j < n, op.answer s j = .success
  delivered : Delivered answers (shownRows op s n).length
  shown : Shown op s answers n (shownRows op s n).length m.writer

def RowFits (op : RootOperator σ) (s : σ) (n : ℕ) : Prop :=
  ∀ sequenceId, Inside (4 * 1024 * 1024)
    (Packet.encodeRow sequenceId (storedCells (op.row s n)).1)

inductive RowsEnd (op : RootOperator σ) (s : σ) (answers : ℕ → RC) :
    Option (RC × Sending σ) → Prop
  | outside {n : ℕ} (h : ¬ RowFits op s n) : RowsEnd op s answers none
  | stopped {rc : RC} {m : Sending σ} {n t : ℕ} (hstop : StopsAt op s answers n t)
      (hshown : Shown op s answers n t m.writer) : RowsEnd op s answers (some (rc, m))

theorem Shown.answer (h : Shown op s answers n k w) : w.answers w.calls = answers k := by
  rw [h.answers, h.calls]

theorem Shown.taken_writen (h : Shown op s answers n k w) (packet : Packet) :
    (w.writen packet).2.taken = w.taken ++ if answers k = .success then [packet] else [] := by
  rw [Writer.taken_writen, h.answer]

theorem Shown.row (h : Shown op s answers n (shownRows op s n).length w)
    (hgood : answers (shownRows op s n).length = .success) (hrow : op.row s n ≠ [])
    (sequenceId : ℤ) :
    Shown op s answers (n + 1) (shownRows op s (n + 1)).length
      (w.writen (.row sequenceId (storedCells (op.row s n)).1)).2 := by
  have htaken := h.taken_writen (.row sequenceId (storedCells (op.row s n)).1)
  rw [if_pos hgood] at htaken
  refine ⟨h.answers, ?_, ?_, ?_⟩
  · rw [shownRows_succ, if_neg hrow, List.length_append]
    exact congrArg (· + 1) h.calls
  · rw [htaken, List.forall_mem_append]
    exact ⟨h.rows, List.forall_mem_singleton.mpr rfl⟩
  · rw [htaken, List.filterMap_append, h.taken, shownRows_succ, if_neg hrow, List.map_append]
    rfl

theorem Shown.fails (h : Shown op s answers n k w) (hbad : answers k ≠ .success)
    (packet : Packet) : Shown op s answers n (k + 1) (w.writen packet).2 := by
  have htaken := h.taken_writen packet
  rw [if_neg hbad, List.append_nil] at htaken
  refine ⟨h.answers, congrArg (· + 1) h.calls, ?_, ?_⟩
  · rw [htaken]
    exact h.rows
  · rw [htaken]
    exact h.taken

theorem operator_ite (p : Prop) [Decidable p] (code : RC) (r : SqlResult σ) :
    (if p then { r with returnCode := code } else r).operator = r.operator := by
  split <;> rfl

theorem Shown.sendRow (h : Shown op s answers n (shownRows op s n).length m.writer)
    (hoperator : m.result.operator = some (op.after s (n + 1)))
    (hanswered : ∀ j < n, op.answer s j = .success) (hn : op.answer s n = .success)
    (hdelivered : Delivered answers (shownRows op s n).length) (hrow : op.row s n ≠ []) :
    (∃ m', m.sendRow (op.row s n) = .again m' ∧ Progress op s answers (n + 1) m') ∨
      ∃ ended, m.sendRow (op.row s n) = .stop ended ∧ RowsEnd op s answers ended := by
  unfold Sending.sendRow Sending.send
  dsimp only
  generalize hpacket : Packet.row m.communicator.sequenceId.toNat (storedCells (op.row s n)).1 =
    packet
  have hcode : (m.nextSequenceId.writer.writen packet).1 = _ := h.answer
  by_cases hinside : Inside packet.capacity
      (packet.encode m.nextSequenceId.communicator.clientCapabilitiesFlag)
  · rw [if_pos hinside]
    dsimp only
    rw [hcode]
    by_cases hgood : answers (shownRows op s n).length = .success
    · rw [if_neg (not_not.mpr hgood)]
      refine .inl ⟨_, rfl, ?_, ?_, ?_, ?_⟩
      · rw [← hoperator]
        exact operator_ite _ _ _
      · exact Nat.forall_lt_succ_right.mpr ⟨hanswered, hn⟩
      · rw [shownRows_succ, if_neg hrow, List.length_append]
        exact hdelivered.succ hgood
      · rw [← hpacket]
        exact h.row hgood hrow _
    · rw [if_pos hgood]
      refine .inr ⟨_, rfl, .stopped (.write hanswered hn hrow ⟨hdelivered, hgood⟩) ?_⟩
      exact h.fails hgood packet
  · rw [if_neg hinside]
    have hoverflow : ¬ RowFits op s n := by
      intro hfits
      rw [← hpacket] at hinside
      exact hinside (hfits _)
    exact .inr ⟨none, rfl, .outside hoverflow⟩

theorem Progress.rowTurn (h : Progress op s answers n m) :
    (∃ m', m.rowTurn op = .again m' ∧ Progress op s answers (n + 1) m') ∨
      ∃ ended, m.rowTurn op = .stop ended ∧ RowsEnd op s answers ended := by
  have hnext : m.result.nextTuple op = some (op.answer s n, op.row s n,
      { m.result with operator := some (op.after s (n + 1)) }) := by
    rw [SqlResult.nextTuple, h.operator, SqlOperator.PhysicalOperator.after_succ]
    rfl
  unfold Sending.rowTurn
  rw [hnext]
  dsimp only
  by_cases hn : op.answer s n = .success
  · rw [if_neg (not_not.mpr hn)]
    by_cases hrow : op.row s n = []
    · rw [if_pos hrow]
      have hsame : shownRows op s (n + 1) = shownRows op s n := by
        rw [shownRows_succ, if_pos hrow, List.append_nil]
      refine .inl ⟨_, rfl, rfl, Nat.forall_lt_succ_right.mpr ⟨h.answered, hn⟩, ?_, ?_⟩
      · rw [hsame]
        exact h.delivered
      · have htaken := h.shown.taken
        rw [← hsame] at htaken
        rw [hsame]
        exact ⟨h.shown.answers, h.shown.calls, h.shown.rows, htaken⟩
    · rw [if_neg hrow]
      exact Shown.sendRow h.shown rfl h.answered hn h.delivered hrow
  · rw [if_pos hn]
    exact .inr ⟨_, rfl, .stopped (.next h.answered h.delivered hn) h.shown⟩

theorem Progress.rows {fuel : ℕ} {ended : Option (RC × Sending σ)}
    (h : Progress op s answers n m) (hrun : run (Sending.rowTurn op) fuel m = some ended) :
    RowsEnd op s answers ended := by
  induction fuel generalizing m n with
  | zero => cases hrun
  | succ fuel ih =>
    rcases h.rowTurn with ⟨m', hturn, hprogress⟩ | ⟨ended', hturn, hend⟩
    · rw [run, hturn] at hrun
      exact ih hprogress hrun
    · rw [run, hturn] at hrun
      cases hrun
      exact hend

theorem Progress.rows_halt {d : ℕ} (h : Progress op s answers n m)
    (hd : op.answer s (n + d) ≠ .success) : Halts (Sending.rowTurn op) m := by
  induction d generalizing m n with
  | zero =>
    rcases h.rowTurn with ⟨m', -, hprogress⟩ | ⟨ended, hturn, -⟩
    · exact absurd (hprogress.answered n n.lt_succ_self) hd
    · exact ⟨ended, yields_stop hturn⟩
  | succ d ih =>
    rcases h.rowTurn with ⟨m', hturn, hprogress⟩ | ⟨ended, hturn, -⟩
    · rw [← Nat.add_assoc, Nat.add_right_comm] at hd
      obtain ⟨ended, hended⟩ := ih hprogress hd
      exact ⟨ended, yields_again hturn hended⟩
    · exact ⟨ended, yields_stop hturn⟩

theorem Progress.writeTupleResult {fuel : ℕ} {rc : RC} {m' : Sending σ}
    (h : Progress op s answers n m) (hrun : m.writeTupleResult op fuel = some (rc, m')) :
    ∃ j t, StopsAt op s answers j t ∧ Shown op s answers j t m'.writer := by
  cases h.rows (Option.join_eq_some_iff.mp hrun) with
  | stopped hstop hshown => exact ⟨_, _, hstop, hshown⟩

theorem Progress.writeTupleResult_returns {d : ℕ} (h : Progress op s answers n m)
    (hd : op.answer s (n + d) ≠ .success) (hfits : ∀ j, RowFits op s j) :
    ∃ fuel rc m', m.writeTupleResult op fuel = some (rc, m') := by
  obtain ⟨ended, fuel, hrun⟩ := h.rows_halt hd
  cases h.rows hrun with
  | outside hoverflow => exact absurd (hfits _) hoverflow
  | stopped => exact ⟨fuel, _, _, Option.join_eq_some_iff.mpr hrun⟩

end Rows

section Terminator

variable {op : RootOperator σ} {s : σ} {answers : ℕ → RC} {n t : ℕ} {w : Writer Packet}
  {m : Sending σ}

theorem terminator_inside (noColumnDef : Bool) (capabilities : UInt32) (m : Sending σ) :
    Inside (m.terminator noColumnDef).capacity
      ((m.terminator noColumnDef).encode capabilities) := by
  unfold Sending.terminator
  dsimp only
  split_ifs
  · exact OkPacket.inside_of_info_nil capabilities rfl
  · exact EofPacket.inside capabilities _

theorem cells?_terminator (noColumnDef : Bool) (m : Sending σ) :
    (m.terminator noColumnDef).cells? = none := by
  unfold Sending.terminator
  dsimp only
  split_ifs <;> rfl

theorem storedCells_of_good {row : Tuple} (h : GoodCells row) :
    (storedCells row).1 = row.map Prod.snd := by
  induction row with
  | nil => rfl
  | cons cell row ih =>
    obtain ⟨hcell, hrow⟩ := List.forall_mem_cons.mp h
    rw [storedCells, if_neg (not_not.mpr hcell), List.map_cons, ih hrow]

theorem map_stored_of_good (h : ∀ j < n, GoodCells (op.row s j)) :
    (shownRows op s n).map (fun row => (storedCells row).1) =
      (shownRows op s n).map fun row => row.map Prod.snd := by
  refine List.map_congr_left fun row hrow => storedCells_of_good ?_
  obtain ⟨hrow, -⟩ := List.mem_filter.mp hrow
  obtain ⟨j, hj, rfl⟩ := List.mem_map.mp hrow
  exact h j (List.mem_range.mp hj)

theorem StopsAt.answered (h : StopsAt op s answers n t) : ∀ j < n, op.answer s j = .success := by
  cases h with
  | next hrows => exact hrows
  | write hrows => exact hrows

theorem length_shownRows_lt {j : ℕ} (hrow : op.row s n ≠ []) (hj : n < j) :
    (shownRows op s n).length < (shownRows op s j).length := by
  induction j, hj using Nat.le_induction with
  | base =>
    rw [shownRows_succ, if_neg hrow, List.length_append]
    exact Nat.lt_succ_self _
  | succ j _ ih =>
    rw [shownRows_succ, List.length_append]
    exact Nat.lt_of_lt_of_le ih (Nat.le_add_right _ _)

theorem StopsAt.eq_or_lt {j : ℕ} (h : StopsAt op s answers n t)
    (hj : op.answer s j = .recordEof) (hrows : ∀ i < j, op.answer s i = .success) :
    (j = n ∧ Delivered answers (shownRows op s n).length) ∨
      (n < j ∧ op.row s n ≠ [] ∧ FirstFailure answers (shownRows op s n).length) := by
  have hle : n ≤ j := by
    by_contra hlt
    rw [h.answered j (Nat.lt_of_not_le hlt)] at hj
    cases hj
  cases h with
  | next _ hdelivered hn =>
    rcases Nat.eq_or_lt_of_le hle with heq | hlt
    · exact .inl ⟨heq.symm, hdelivered⟩
    · exact absurd (hrows n hlt) hn
  | write _ hn hrow hfails =>
    rcases Nat.eq_or_lt_of_le hle with rfl | hlt
    · rw [hn] at hj
      cases hj
    · exact .inr ⟨hlt, hrow, hfails⟩

theorem Shown.allSent_iff (h : Shown op s answers n t w) (hstop : StopsAt op s answers n t)
    (hm : m.writer.taken.filterMap Packet.cells? = w.taken.filterMap Packet.cells?) :
    AllSent op s m ↔ Undisturbed op s answers := by
  unfold AllSent Undisturbed
  rw [hm, h.taken]
  refine exists_congr fun j => and_congr_right fun hj => and_congr_right fun hrows => ?_
  rcases hstop.eq_or_lt hj (fun i hi => (hrows i hi).1) with
    ⟨rfl, hdelivered⟩ | ⟨hlt, hrow, hfails⟩
  · exact iff_of_true (map_stored_of_good fun i hi => (hrows i hi).2) hdelivered
  · have hshort := length_shownRows_lt hrow hlt
    refine iff_of_false (fun heq => ?_) fun hdelivered => ?_
    · have hlength := congrArg List.length heq
      rw [List.length_map, List.length_map] at hlength
      omega
    · exact Nat.not_le_of_lt hshort (hfails.le hdelivered)

theorem not_firstFailure_of_end {n' : ℕ} (hdelivered : Delivered answers (shownRows op s n).length)
    (hn : op.answer s n ≠ .success)
    (hrows' : ∀ j < n', op.answer s j = .success) (hn' : op.answer s n' = .success)
    (hrow' : op.row s n' ≠ []) : ¬ FirstFailure answers (shownRows op s n').length := by
  intro hfails
  rcases Nat.lt_trichotomy n n' with hlt | rfl | hlt
  · exact hn (hrows' n hlt)
  · exact hn hn'
  · exact Nat.not_le_of_lt (length_shownRows_lt hrow' hlt) (hfails.le hdelivered)

theorem StopsAt.unique {n' t' : ℕ} (h : StopsAt op s answers n t)
    (h' : StopsAt op s answers n' t') : t = t' := by
  cases h with
  | next hrows hdelivered hn =>
    cases h' with
    | next hrows' _ hn' =>
      rcases Nat.lt_trichotomy n n' with hlt | rfl | hlt
      · exact absurd (hrows' n hlt) hn
      · rfl
      · exact absurd (hrows n' hlt) hn'
    | write hrows' hn' hrow' hfails =>
      exact absurd hfails (not_firstFailure_of_end hdelivered hn hrows' hn' hrow')
  | write hrows hn hrow hfails =>
    cases h' with
    | next hrows' hdelivered' hn' =>
      exact absurd hfails (not_firstFailure_of_end hdelivered' hn' hrows hn hrow)
    | write _ _ _ hfails' => exact congrArg (· + 1) (hfails.unique hfails')

theorem StopsAt.exists_fails_iff (h : StopsAt op s answers n t) :
    (∃ n t, StopsAt op s answers n t ∧ answers t ≠ .success) ↔ answers t ≠ .success := by
  constructor
  · rintro ⟨n', t', h', hfails⟩
    rwa [h.unique h']
  · intro hfails
    exact ⟨n, t, h, hfails⟩

end Terminator

section Results

variable {op : RootOperator σ} {s : σ} {answers : ℕ → RC}

def start (communicator : MysqlCommunicator) (result : SqlResult σ) (answers : ℕ → RC) :
    Sending σ :=
  { communicator, result, writer := { answers } }

theorem progress_start (op : RootOperator σ) (communicator : MysqlCommunicator)
    (r : SqlResult σ) (s : σ) (answers : ℕ → RC) :
    Progress op s answers 0 (start communicator { r with operator := some s } answers) :=
  ⟨rfl, fun j hj => absurd hj j.not_lt_zero, fun k hk => absurd hk k.not_lt_zero,
    rfl, rfl, List.forall_mem_nil _, rfl⟩

theorem sendResultRows_of_none {fuel : ℕ} {m : Sending σ} (noColumnDef : Bool)
    (hrows : { m with affectedRows := 0 }.writeTupleResult op fuel = none) :
    m.sendResultRows op fuel noColumnDef = none := by
  rw [Sending.sendResultRows, hrows]

theorem sendResultRows_of_rows {fuel : ℕ} {m m' : Sending σ} {rc : RC} (noColumnDef : Bool)
    (hrows : { m with affectedRows := 0 }.writeTupleResult op fuel = some (rc, m')) :
    m.sendResultRows op fuel noColumnDef =
      some ((m'.writer.writen (m'.terminator noColumnDef)).1,
        { m'.nextSequenceId with
          writer := (m'.writer.writen (m'.terminator noColumnDef)).2
          needDisconnect := false }) := by
  unfold Sending.sendResultRows Sending.send
  rw [hrows]
  dsimp only
  rw [if_pos (terminator_inside noColumnDef _ m')]
  rfl

theorem Shown.terminated_iff {n t : ℕ} {m m' : Sending σ} (h : Shown op s answers n t m.writer)
    (noColumnDef : Bool) (hm : m'.writer = (m.writer.writen (m.terminator noColumnDef)).2) :
    Terminated m' ↔ answers t = .success := by
  rw [Terminated, hm, h.taken_writen]
  by_cases hgood : answers t = .success
  · rw [if_pos hgood]
    refine iff_of_true ⟨m.terminator noColumnDef, ?_, cells?_terminator noColumnDef m⟩ hgood
    exact List.getLast?_concat
  · rw [if_neg hgood, List.append_nil]
    refine iff_of_false ?_ hgood
    rintro ⟨packet, hlast, hcells⟩
    have hrow := h.rows packet (List.mem_of_getLast? hlast)
    rw [hcells] at hrow
    cases hrow

theorem filterMap_terminator (noColumnDef : Bool) {m m' : Sending σ}
    (hm : m'.writer = (m.writer.writen (m.terminator noColumnDef)).2) :
    m'.writer.taken.filterMap Packet.cells? = m.writer.taken.filterMap Packet.cells? := by
  rw [hm, Writer.taken_writen, List.filterMap_append]
  split_ifs
  · rw [List.filterMap_cons_none (cells?_terminator noColumnDef m), List.filterMap_nil,
      List.append_nil]
  · exact List.append_nil _

/-- The connection is always kept, and what a terminator ends is complete exactly where nothing
fails or the write of the terminator itself does; and the call returns where the operator comes to
an end and the rows fit into the packet. -/
theorem truncation_reported_iff (op : RootOperator σ) (communicator : MysqlCommunicator)
    (r : SqlResult σ) (s : σ) (answers : ℕ → RC) (noColumnDef : Bool) :
    (∀ fuel rc m,
      (start communicator { r with operator := some s } answers).sendResultRows op fuel
        noColumnDef = some (rc, m) →
      m.needDisconnect = false ∧ ((Terminated m → AllSent op s m) ↔
        Undisturbed op s answers ∨ ∃ n t, StopsAt op s answers n t ∧ answers t ≠ .success)) ∧
    ((∃ n, op.answer s n ≠ .success) → (∀ j, RowFits op s j) →
      ∃ fuel rc m, (start communicator { r with operator := some s } answers).sendResultRows op
        fuel noColumnDef = some (rc, m)) := by
  have hstart := progress_start op communicator r s answers
  constructor
  · intro fuel rc m hrun
    cases hrows : (start communicator { r with operator := some s } answers).writeTupleResult op
        fuel with
    | none =>
      rw [sendResultRows_of_none noColumnDef hrows] at hrun
      cases hrun
    | some ended =>
      obtain ⟨code, m'⟩ := ended
      rw [sendResultRows_of_rows noColumnDef hrows] at hrun
      cases hrun
      obtain ⟨n, t, hstop, hshown⟩ := hstart.writeTupleResult hrows
      refine ⟨rfl, ?_⟩
      rw [hshown.terminated_iff noColumnDef rfl,
        hshown.allSent_iff hstop (filterMap_terminator noColumnDef rfl)]
      rw [hstop.exists_fails_iff, imp_iff_or_not]
  · rintro ⟨n, hn⟩ hfits
    rw [← Nat.zero_add n] at hn
    obtain ⟨fuel, code, m', hrows⟩ := hstart.writeTupleResult_returns hn hfits
    exact ⟨fuel, _, _, sendResultRows_of_rows noColumnDef hrows⟩

def listing (endCode : RC) : RootOperator (List Tuple × Tuple) where
  openWith _ s := (.success, s)
  next
    | ([], current) => (endCode, [], current)
    | (row :: rows, _) => (.success, rows, row)
  close s := (.success, s)
  currentTuple _ := some ()
  deref s _ := some s.2

/-- `next` fails behind a row, the second cell of a row fails, and the second of two rows is not
written: each is ended as a complete result of one row. -/
theorem truncated_reported_complete :
    let session : Session := ⟨false, .success⟩
    let row : Tuple := [(.success, [49]), (.success, [50])]
    let broken : Tuple := [(.success, [49]), (.internal, [])]
    let summary (returned : Option (RC × Sending (List Tuple × Tuple))) :=
      returned.map fun r => (r.1, r.2.needDisconnect, r.2.writer.taken)
    summary ((start {} { session, operator := some ([row], []) } fun _ =>
        .success).sendResultRows (listing .internal) 3 false) =
      some (.success, false, [.row 0 [[49], [50]], .eof { sequenceId := 1 }]) ∧
    summary ((start {} { session, operator := some ([broken], []) } fun _ =>
        .success).sendResultRows (listing .recordEof) 3 false) =
      some (.success, false, [.row 0 [[49]], .eof { sequenceId := 1 }]) ∧
    summary ((start {} { session, operator := some ([row, row], []) } fun k =>
        if k = 1 then .ioerrWrite else .success).sendResultRows (listing .recordEof) 4 false) =
      some (.success, false, [.row 0 [[49], [50]], .eof { sequenceId := 2 }]) := by
  decide

end Results

end MysqlResult
