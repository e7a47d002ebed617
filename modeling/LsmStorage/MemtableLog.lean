import LsmStorage.MemtableMap

/-! # The memtable's log

`set` appends its record before the row decides about the write, so the log holds the refused
writes too. `replay` sets every record with a default context, which is never refused: a stale
write comes back to life in the recovered memtable. -/
namespace MemtableLog

open ByteCodec MvccRow RowkeyHash Memtable MemtableMap ObMemtable

variable {η : Type*}

structure LoggedCall where
  call : SetCall
  logRet : ℤ := 0

def recordLog (ret : ℤ) (_ : η) (record : Bytes) (log : List Bytes) : ℤ × List Bytes :=
  if ret ≠ 0 then (ret, log) else (0, log ++ [record])

def runLogged (calls : List LoggedCall) (s : Session η (List Bytes)) : Session η (List Bytes) :=
  calls.foldl (fun s c => s.step (recordLog c.logRet) c.call) s

def logged (calls : List LoggedCall) : List Write :=
  ((calls.filter fun c => c.call.mallocOk && c.logRet == 0).map fun c => c.call.write).reverse

def acceptedOf : List Write → List Write
  | [] => []
  | w :: ws => if Stale w (acceptedOf ws) then acceptedOf ws else w :: acceptedOf ws

structure Logs (s : Session η (List Bytes)) (ws : List Write) : Prop where
  contents : Contents s.memtable s.accepted
  accepted : s.accepted = acceptedOf ws
  log : s.log = (ws.map fun w => logRecord w.row).reverse
  isInited : s.memtable.isInited = true
  isFrozen : s.memtable.isFrozen = false
  logHandler : s.memtable.logHandler ≠ none

variable {s : Session η (List Bytes)}

theorem set_of_logged {ws : List Write} (h : Logs s ws) (w : Write) :
    let r := s.memtable.set (recordLog 0) true w.ctx w.row s.log
    r.1 = (if Stale w (acceptedOf ws) then -1 else 0) ∧
      r.2.2 = s.log ++ [ObMemtable.logRecord w.row] := by
  obtain ⟨t', happly, -, -⟩ := apply_contents h.contents w
  obtain ⟨handler, hhandler⟩ := Option.ne_none_iff_exists'.mp h.logHandler
  rw [h.accepted] at happly
  simp [ObMemtable.set, h.isInited, h.isFrozen, hhandler, recordLog, happly]

theorem set_of_not_logged {ws : List Write} (h : Logs s ws) {c : LoggedCall}
    (hc : (c.call.mallocOk && c.logRet == 0) = false) :
    ∃ ret, ret ≠ 0 ∧ s.memtable.set (recordLog c.logRet) c.call.mallocOk c.call.ctx c.call.row
      s.log = (ret, s.memtable, s.log) := by
  obtain ⟨handler, hhandler⟩ := Option.ne_none_iff_exists'.mp h.logHandler
  cases hm : c.call.mallocOk with
  | false =>
    refine ⟨-1, by decide, ?_⟩
    simp [ObMemtable.set, h.isInited, h.isFrozen]
  | true =>
    have hret : c.logRet ≠ 0 := by simpa [hm] using hc
    refine ⟨c.logRet, hret, ?_⟩
    simp [ObMemtable.set, h.isInited, h.isFrozen, hhandler, recordLog, hret]

theorem step_logs {ws : List Write} (h : Logs s ws) (c : LoggedCall) :
    Logs (s.step (recordLog c.logRet) c.call)
      (if c.call.mallocOk && c.logRet == 0 then c.call.write :: ws else ws) := by
  cases hc : c.call.mallocOk && c.logRet == 0 with
  | false =>
    obtain ⟨ret, hret, hset⟩ := set_of_not_logged h hc
    have hstep : s.step (recordLog c.logRet) c.call = s := by
      simp only [Session.step, hset, hret, ↓reduceIte]
    rw [hstep]
    exact h
  | true =>
    obtain ⟨hm, hret⟩ : c.call.mallocOk = true ∧ c.logRet = 0 := by simpa using hc
    obtain ⟨hcode, hlog⟩ := set_of_logged h c.call.write
    obtain ⟨hcontents, hsame⟩ := set_contents (recordLog 0) true h.contents c.call.write s.log
    rw [if_pos rfl, hret]
    have hstep : s.step (recordLog 0) c.call =
        let r := s.memtable.set (recordLog 0) true c.call.write.ctx c.call.write.row s.log
        { memtable := r.2.1
          log := r.2.2
          accepted := if r.1 = 0 then c.call.write :: s.accepted else s.accepted } := by
      rw [Session.step, hm]
      rfl
    rw [hstep]
    constructor
    · exact hcontents
    · rw [acceptedOf, h.accepted]
      simp only [hcode]
      by_cases hstale : Stale c.call.write (acceptedOf ws) <;> simp [hstale]
    · rw [List.map_cons, List.reverse_cons, ← h.log]
      exact hlog
    · exact hsame.isInited.trans h.isInited
    · exact hsame.isFrozen.trans h.isFrozen
    · exact fun hnone => h.logHandler (hsame.logHandler.symm.trans hnone)

theorem logged_append (calls : List LoggedCall) (c : LoggedCall) :
    logged (calls ++ [c]) =
      if c.call.mallocOk && c.logRet == 0 then c.call.write :: logged calls else logged calls := by
  simp only [logged, List.filter_append, List.map_append, List.reverse_append]
  split
  · next hc => simp [hc]
  · next hc => simp [hc]

theorem runLogged_logs (calls : List LoggedCall) (h : Logs s []) :
    Logs (runLogged calls s) (logged calls) := by
  induction calls using List.reverseRecOn with
  | nil => exact h
  | append_singleton calls c ih =>
    rw [logged_append, runLogged, List.foldl_append]
    exact step_logs ih c

section Replay

theorem ofLEInt_low {n : ℕ} (h : n < 2 ^ 32) :
    ofLEInt (toLE 4 n ++ [0, 0, 0, 0]) = n := by
  have hle : ofLE (toLE 4 n ++ [0, 0, 0, 0]) = n := by
    rw [ofLE_append, ofLE_toLE_of_lt (by simpa using h)]
    simp [ofLE]
  rw [ofLEInt, hle, if_pos]
  simp only [List.length_append, length_toLE, List.length_cons, List.length_nil]
  omega

def replayedRow (row : ObStoreRow) : ObStoreRow :=
  { dmlFlag := row.dmlFlag, transVersion := 1, rowkey := row.rowkey, rowValue := row.rowValue }

structure RecordLayout (row : ObStoreRow) (record : Bytes) : Prop where
  length : record.length = 9 + row.rowkey.buf.length + row.rowValue.length
  dmlFlag : record.head?.bind dmlOfByte = some row.dmlFlag
  keyLen : slice record 1 4 = toLE 4 row.rowkey.buf.length
  key : slice record 5 row.rowkey.buf.length = row.rowkey.buf
  valLen : slice record (5 + row.rowkey.buf.length) 4 = toLE 4 row.rowValue.length
  val : slice record (9 + row.rowkey.buf.length) row.rowValue.length = row.rowValue

theorem logRecord_layout (row : ObStoreRow) : RecordLayout row (logRecord row) := by
  constructor
  · simp only [logRecord, List.length_append, List.length_cons, List.length_nil,
      length_toLE]
    omega
  · cases hdml : row.dmlFlag <;> simp [logRecord, hdml] <;> decide
  · have hmid := slice_middle [dmlByte row.dmlFlag] (toLE 4 row.rowkey.buf.length)
      (row.rowkey.buf ++ toLE 4 row.rowValue.length ++ row.rowValue)
    simpa [logRecord, ObStoreRowkey.getLength] using hmid
  · have hmid := slice_middle
      ([dmlByte row.dmlFlag] ++ toLE 4 row.rowkey.buf.length) row.rowkey.buf
      (toLE 4 row.rowValue.length ++ row.rowValue)
    simpa [logRecord, ObStoreRowkey.getLength] using hmid
  · have hmid := slice_middle
      ([dmlByte row.dmlFlag] ++ toLE 4 row.rowkey.buf.length ++ row.rowkey.buf)
      (toLE 4 row.rowValue.length) row.rowValue
    simpa [logRecord, ObStoreRowkey.getLength, Nat.add_comm, Nat.add_left_comm,
      Nat.add_assoc] using hmid
  · have hmid := slice_middle ([dmlByte row.dmlFlag] ++
      toLE 4 row.rowkey.buf.length ++ row.rowkey.buf ++ toLE 4 row.rowValue.length)
      row.rowValue []
    simpa [logRecord, ObStoreRowkey.getLength, Nat.add_comm, Nat.add_left_comm,
      Nat.add_assoc] using hmid

theorem parseRecord_logRecord {row : ObStoreRow} (hkey : row.rowkey.buf.length < 2 ^ 32)
    (hval : row.rowValue.length < 2 ^ 32) :
    parseRecord [0, 0, 0, 0] [0, 0, 0, 0] (logRecord row) =
      some (replayedRow row) := by
  have hl := logRecord_layout row
  simp only [parseRecord, hl.keyLen, ofLEInt_low hkey, Int.toNat_natCast, hl.key,
    hl.valLen, ofLEInt_low hval, hl.val, hl.dmlFlag, hl.length]
  rw [if_neg (by omega), if_neg (by omega)]
  rfl

theorem ofLEInt_dirty {n : ℕ} {high : Bytes} (hn : n < 2 ^ 31) (hlen : high.length = 4)
    (hdirty : high ≠ [0, 0, 0, 0]) :
    ofLEInt (toLE 4 n ++ high) < 0 ∨ 2 ^ 32 ≤ ofLEInt (toLE 4 n ++ high) := by
  have hpos : ofLE high ≠ 0 := by
    intro hz
    apply hdirty
    rw [List.eq_replicate_of_mem (ofLE_eq_zero_iff.mp hz), hlen]
    rfl
  have hlt := ofLE_lt high
  rw [hlen] at hlt
  have hword : ofLE (toLE 4 n ++ high) = n + 2 ^ 32 * ofLE high := by
    rw [ofLE_append, ofLE_toLE_of_lt (by omega), length_toLE]
    rfl
  rw [ofLEInt, hword, List.length_append, length_toLE, hlen]
  split <;> omega

theorem parseRecord_dirty {row : ObStoreRow} {keyHigh valHigh : Bytes}
    (hkey : row.rowkey.buf.length < 2 ^ 31) (hval : row.rowValue.length < 2 ^ 31)
    (hkeyHigh : keyHigh.length = 4) (hvalHigh : valHigh.length = 4)
    (hdirty : ¬ (keyHigh = [0, 0, 0, 0] ∧ valHigh = [0, 0, 0, 0])) :
    parseRecord keyHigh valHigh (logRecord row) = none := by
  have hl := logRecord_layout row
  simp only [parseRecord, hl.keyLen, hl.length]
  by_cases hclean : keyHigh = [0, 0, 0, 0]
  · have hlong := ofLEInt_dirty hval hvalHigh fun h => hdirty ⟨hclean, h⟩
    rw [hclean]
    simp only [ofLEInt_low (show row.rowkey.buf.length < 2 ^ 32 by omega), Int.toNat_natCast,
      hl.valLen]
    rw [if_neg (by omega), if_pos (by omega)]
  · have hlong := ofLEInt_dirty hkey hkeyHigh hclean
    rw [if_pos (by omega)]

/-- The replay of the record of `row` comes down to `set` on a row with the same flag, key and
value. -/
def ReplaysRow (η : Type*) (keyHigh valHigh : Bytes) (row : ObStoreRow) : Prop :=
  ∃ row' : ObStoreRow, row'.dmlFlag = row.dmlFlag ∧ row'.rowkey = row.rowkey ∧
    row'.rowValue = row.rowValue ∧
    ∀ (mallocOk : Bool) (t : ObMemtable η),
      t.replay keyHigh valHigh mallocOk (logRecord row) =
        (let r := ObMemtable.set (fun (_ : η) _ (log : Unit) => (0, log)) mallocOk {} row'
          { t with logHandler := none } ()
         some (r.1, { r.2.1 with logHandler := t.logHandler }))

theorem not_replaysRow_of_dirty (η : Type*) {row : ObStoreRow} {keyHigh valHigh : Bytes}
    (hkey : row.rowkey.buf.length < 2 ^ 31) (hval : row.rowValue.length < 2 ^ 31)
    (hkeyHigh : keyHigh.length = 4) (hvalHigh : valHigh.length = 4)
    (hdirty : ¬ (keyHigh = [0, 0, 0, 0] ∧ valHigh = [0, 0, 0, 0])) :
    ¬ ReplaysRow η keyHigh valHigh row := by
  rintro ⟨row', -, -, -, hreplay⟩
  have hrun := hreplay true (ObMemtable.create 0)
  rw [ObMemtable.replay, if_neg (by simp [ObMemtable.logRecord]),
    parseRecord_dirty hkey hval hkeyHigh hvalHigh hdirty] at hrun
  cases hrun

/-- A record comes back as its row exactly when both length variables of `replay` happened to
hold zeros in the half that is not copied. -/
theorem replaysRow_iff_clean (η : Type*) {row : ObStoreRow} {keyHigh valHigh : Bytes}
    (hkey : row.rowkey.buf.length < 2 ^ 31) (hval : row.rowValue.length < 2 ^ 31)
    (hkeyHigh : keyHigh.length = 4) (hvalHigh : valHigh.length = 4) :
    ReplaysRow η keyHigh valHigh row ↔ keyHigh = [0, 0, 0, 0] ∧ valHigh = [0, 0, 0, 0] := by
  constructor
  · intro hreplays
    by_contra hdirty
    exact not_replaysRow_of_dirty η hkey hval hkeyHigh hvalHigh hdirty hreplays
  · rintro ⟨rfl, rfl⟩
    refine ⟨replayedRow row, rfl, rfl, rfl, fun mallocOk t => ?_⟩
    rw [ObMemtable.replay, if_neg (by simp [ObMemtable.logRecord]),
      parseRecord_logRecord (by omega) (by omega)]

theorem replaysRow_iff_clean_example :
    ReplaysRow Unit [0, 0, 0, 0] [0, 0, 0, 0] { rowkey := ⟨[1, 2]⟩, rowValue := [3] } :=
  (replaysRow_iff_clean Unit (by decide) (by decide) rfl rfl).mpr ⟨rfl, rfl⟩

/-- One stray byte above the four copied ones, and the key of one byte is read as one of
`2 ^ 32 + 1`. -/
theorem stray_byte_breaks_record :
    ¬ ReplaysRow Unit [1, 0, 0, 0] [0, 0, 0, 0] { rowkey := ⟨[7]⟩, rowValue := [8] } :=
  not_replaysRow_of_dirty Unit (by decide) (by decide) rfl rfl (by decide)

def replayedWrite (w : Write) : Write := ⟨{}, replayedRow w.row⟩

def replayAll : List Bytes → ObMemtable η → Option (ObMemtable η)
  | [], t => some t
  | record :: records, t =>
    match t.replay [0, 0, 0, 0] [0, 0, 0, 0] true record with
    | none => none
    | some (_, t) => replayAll records t

structure Open (t : ObMemtable η) (ws : List Write) : Prop extends Contents t ws where
  isInited : t.isInited = true
  isFrozen : t.isFrozen = false

theorem replay_open {t : ObMemtable η} {ws : List Write} (h : Open t ws) {w : Write}
    (hkey : w.row.rowkey.buf.length < 2 ^ 32) (hval : w.row.rowValue.length < 2 ^ 32) :
    ∃ t', t.replay [0, 0, 0, 0] [0, 0, 0, 0] true (logRecord w.row) = some (0, t') ∧
      Open t' (replayedWrite w :: ws) := by
  have hstale : ¬ Stale (replayedWrite w) ws := fun hs => hs.1 rfl
  have hquiet : Contents ({ t with logHandler := none } : ObMemtable η) ws :=
    ⟨h.represents, h.rowCount, h.occupySize⟩
  obtain ⟨t', happly, hcontents, hsame⟩ := apply_contents hquiet (replayedWrite w)
  rw [if_neg hstale] at happly hcontents
  have hne : logRecord w.row ≠ [] := by simp [logRecord]
  refine ⟨{ t' with logHandler := t.logHandler }, ?_, ⟨⟨?_, ?_, ?_⟩, ?_, ?_⟩⟩
  · have hset := set_quiet (t := { t with logHandler := none })
      (fun (_ : η) _ (log : Unit) => (0, log)) h.isInited h.isFrozen rfl happly ()
    rw [ObMemtable.replay, if_neg hne, parseRecord_logRecord hkey hval]
    simp only [replayedWrite] at hset
    simp only [hset]
  · exact hcontents.represents
  · exact hcontents.rowCount
  · exact hcontents.occupySize
  · exact hsame.isInited.trans h.isInited
  · exact hsame.isFrozen.trans h.isFrozen

theorem replayAll_open {l : List Write} {t : ObMemtable η} {ws : List Write} (h : Open t ws)
    (hlen : ∀ w ∈ l, w.row.rowkey.buf.length < 2 ^ 32 ∧ w.row.rowValue.length < 2 ^ 32) :
    ∃ t', replayAll (l.map fun w => logRecord w.row) t = some t' ∧
      Open t' ((l.map replayedWrite).reverse ++ ws) := by
  induction l generalizing t ws with
  | nil => exact ⟨t, rfl, h⟩
  | cons w l ih =>
    obtain ⟨hkey, hval⟩ := hlen w List.mem_cons_self
    obtain ⟨t₁, hreplay, h₁⟩ := replay_open h hkey hval
    obtain ⟨t', hrest, h'⟩ := ih h₁ fun v hv => hlen v (List.mem_cons_of_mem w hv)
    refine ⟨t', ?_, by simpa using h'⟩
    simp only [List.map_cons, replayAll, hreplay, hrest]

theorem flagValue_get {t : ObMemtable η} {ws : List Write} (h : Contents t ws)
    (k : ObStoreRowkey) :
    (t.get {} k).map flagValue =
      (ws.find? fun w => w.slot = slot k).map fun w => flagValue w.row := by
  rw [get_of_contents h, Option.map_map]
  rfl

end Replay

section Agreement

def ReplayAgrees (tabletId : ℤ) (handler : η) (calls : List LoggedCall) : Prop :=
  let s := runLogged calls ⟨(ObMemtable.create tabletId).setLogHandler (some handler), [], []⟩
  ∃ t : ObMemtable η, replayAll s.log (ObMemtable.create tabletId) = some t ∧
    ∀ k, (t.get {} k).map flagValue = (s.memtable.get {} k).map flagValue

/-- The last logged write of every hash value is not stale, or it repeats the row of the last
one before it that was not. -/
def LastNotStale (ws : List Write) : Prop :=
  ∀ pre w post, ws = pre ++ w :: post → (∀ v ∈ pre, v.slot ≠ w.slot) →
    Stale w (acceptedOf post) →
    ((acceptedOf post).find? fun v => v.slot = w.slot).map (fun v => flagValue v.row) =
      some (flagValue w.row)

theorem find?_acceptedOf_append {pre post : List Write} {h : UInt64}
    (hpre : ∀ v ∈ pre, v.slot ≠ h) :
    ((acceptedOf (pre ++ post)).find? fun v => v.slot = h) =
      (acceptedOf post).find? fun v => v.slot = h := by
  induction pre with
  | nil => rfl
  | cons v pre ih =>
    have hrest := ih fun u hu => hpre u (List.mem_cons_of_mem v hu)
    have hv := hpre v List.mem_cons_self
    rw [List.cons_append, acceptedOf]
    split
    · exact hrest
    · simpa [List.find?_cons, hv] using hrest

theorem newest_eq_iff (ws : List Write) :
    (∀ k : ObStoreRowkey, ((ws.find? fun w => w.slot = slot k).map fun w => flagValue w.row) =
      ((acceptedOf ws).find? fun w => w.slot = slot k).map fun w => flagValue w.row) ↔
      LastNotStale ws := by
  constructor
  · rintro hall pre w post rfl hpre hstale
    have hk := hall w.row.rowkey
    have hslot : slot w.row.rowkey = w.slot := rfl
    rw [hslot, find?_acceptedOf_append hpre, acceptedOf, if_pos hstale] at hk
    rw [← hk, List.find?_append, List.find?_eq_none.mpr (by simpa using hpre)]
    simp
  · intro hlast k
    cases hfind : ws.find? fun w => w.slot = slot k with
    | none =>
      have hnone : ((acceptedOf (ws ++ [])).find? fun w => w.slot = slot k) = none :=
        find?_acceptedOf_append (by simpa using hfind)
      rw [List.append_nil] at hnone
      rw [hnone]
    | some w =>
      obtain ⟨hw, pre, post, rfl, hpre⟩ := List.find?_eq_some_iff_append.mp hfind
      have hw : w.slot = slot k := by simpa using hw
      have hpre : ∀ v ∈ pre, v.slot ≠ slot k := by simpa using hpre
      rw [find?_acceptedOf_append hpre, acceptedOf]
      split
      · next hstale =>
        rw [← hw]
        exact (hlast pre w post rfl (by rwa [hw]) hstale).symm
      · simp [hw]

theorem logs_start (tabletId : ℤ) (handler : η) :
    Logs ⟨(ObMemtable.create tabletId).setLogHandler (some handler), [], []⟩ [] :=
  ⟨⟨represents_empty, rfl, rfl⟩, rfl, rfl, rfl, rfl, by simp [setLogHandler]⟩

theorem mem_logged {calls : List LoggedCall} {w : Write} (hw : w ∈ logged calls) :
    ∃ c ∈ calls, c.call.write = w := by
  simp only [logged, List.mem_reverse, List.mem_map, List.mem_filter] at hw
  obtain ⟨c, ⟨hc, -⟩, rfl⟩ := hw
  exact ⟨c, hc, rfl⟩

theorem replayAgrees_iff_newest (tabletId : ℤ) (handler : η) (calls : List LoggedCall)
    (hlen : ∀ c ∈ calls, c.call.row.rowkey.buf.length < 2 ^ 32 ∧
      c.call.row.rowValue.length < 2 ^ 32) :
    ReplayAgrees tabletId handler calls ↔
      ∀ k : ObStoreRowkey,
        (((logged calls).find? fun w => w.slot = slot k).map fun w => flagValue w.row) =
          ((acceptedOf (logged calls)).find? fun w => w.slot = slot k).map
            fun w => flagValue w.row := by
  have hlogs := runLogged_logs calls (logs_start tabletId handler)
  have hopen : Open (ObMemtable.create tabletId : ObMemtable η) [] :=
    ⟨contents_create tabletId, rfl, rfl⟩
  obtain ⟨t, hreplay, ht⟩ := replayAll_open (l := (logged calls).reverse) hopen fun w hw => by
    obtain ⟨c, hc, rfl⟩ := mem_logged (List.mem_reverse.mp hw)
    exact hlen c hc
  rw [List.map_reverse, ← hlogs.log] at hreplay
  rw [List.append_nil, List.map_reverse, List.reverse_reverse] at ht
  have hread : ∀ k : ObStoreRowkey, (t.get {} k).map flagValue =
      ((logged calls).find? fun w => w.slot = slot k).map fun w => flagValue w.row := by
    intro k
    rw [flagValue_get ht.toContents, List.find?_map, Option.map_map]
    rfl
  have horiginal : ∀ k : ObStoreRowkey, _ = _ := flagValue_get hlogs.contents
  rw [hlogs.accepted] at horiginal
  constructor
  · rintro ⟨t', hreplay', hagree⟩ k
    cases hreplay.symm.trans hreplay'
    rw [← hread k, hagree k, horiginal k]
  · intro hnewest
    refine ⟨t, hreplay, fun k => ?_⟩
    rw [hread k, hnewest k, horiginal k]

/-- Replaying the log gives back the memtable exactly when the last logged set of every hash
value was not stale, or had no effect on the row. -/
theorem replayAgrees_iff_lastNotStale (tabletId : ℤ) (handler : η) (calls : List LoggedCall)
    (hlen : ∀ c ∈ calls, c.call.row.rowkey.buf.length < 2 ^ 32 ∧
      c.call.row.rowValue.length < 2 ^ 32) :
    ReplayAgrees tabletId handler calls ↔ LastNotStale (logged calls) :=
  (replayAgrees_iff_newest tabletId handler calls hlen).trans (newest_eq_iff _)

def setOf (snapshot : ℤ) (value : UInt8) : LoggedCall :=
  { call :=
    { ctx := { txId := 1, snapshotVersion := snapshot }
      row := { dmlFlag := .dfInsert, rowkey := ⟨[97]⟩, rowValue := [value] } } }

theorem replayAgrees_iff_lastNotStale_example :
    ReplayAgrees 1 () [setOf 10 1, setOf 12 2, setOf 5 2] := by
  refine (replayAgrees_iff_lastNotStale 1 () _ (by decide)).mpr ?_
  -- the last set is refused, and repeats the row that was there
  intro pre w post hsplit hpre _
  have hslot : ∀ v ∈ logged [setOf 10 1, setOf 12 2, setOf 5 2],
      v.slot = (setOf 5 2).call.write.slot := by
    decide
  cases pre with
  | nil =>
    cases hsplit
    decide
  | cons v pre =>
    have hmem : ∀ u ∈ [v, w], u ∈ logged [setOf 10 1, setOf 12 2, setOf 5 2] := by
      rw [hsplit]
      simp
    exact absurd ((hslot v (hmem v (by simp))).trans (hslot w (hmem w (by simp))).symm)
      (hpre v List.mem_cons_self)

/-- The second set, at snapshot 5 behind 10, is refused, and after recovery it is there. -/
theorem refused_set_comes_back : ¬ ReplayAgrees 1 () [setOf 10 1, setOf 5 2] := by
  rw [replayAgrees_iff_newest 1 () _ (by decide), newest_eq_iff]
  intro hlast
  have hrow := hlast [] (setOf 5 2).call.write [(setOf 10 1).call.write] rfl (by simp) (by decide)
  exact absurd hrow (by decide)

end Agreement

end MemtableLog
