import LsmStorage.ByteCodec

/-! # ObStorageLogger

An append-only file of entries with a header of 24 bytes. A write may be cut short, by the
operating system or by a crash. The acknowledged entries and the mark that the file ends in
part of an entry are ghost observations. -/
namespace StorageLogger

open ByteCodec

structure ObStorageLogParam where
  tenantId : UInt64 := 1
  logType : Int32 := 0
  data : Bytes := []
  deriving DecidableEq

/-- What the replay callback is given, without the magic number it has passed. -/
structure ObStorageLogEntry where
  totalSize : ℕ
  tenantId : UInt64
  logType : Int32
  data : Bytes
  deriving DecidableEq

def magic : ℕ := 0x534C4F47

def headerSize : ℕ := 24

namespace ObStorageLogParam

/-- The header as `write_log` fills it in; `data_len_` keeps 32 bits of the length. -/
def header (p : ObStorageLogParam) : Bytes :=
  toLE 4 magic ++ toLE 4 (headerSize + p.data.length) ++ toLE 8 p.tenantId.toNat ++
    toLEInt 4 p.logType.toInt ++ toLEInt 4 p.data.length

def image (p : ObStorageLogParam) : Bytes := p.header ++ p.data

def entry (p : ObStorageLogParam) : ObStorageLogEntry :=
  ⟨headerSize + p.data.length, p.tenantId, p.logType, p.data⟩

end ObStorageLogParam

/-- The entries handed to the callback. A data length of -1 is also what the failed `read`
into a failed `malloc` returns, and the process dies in the `memcpy` that follows: `none`. -/
def replayFrom (b : Bytes) : Option (List ObStorageLogEntry) :=
  if b.length < headerSize then some []
  else if ofLE (slice b 0 4) ≠ magic then some []
  else
    let dataLen := ofLEInt (slice b 20 4)
    if dataLen = -1 then none
    else if dataLen < 0 ∨ (b.length - headerSize : ℕ) < dataLen then some []
    else
      let entry : ObStorageLogEntry :=
        ⟨ofLE (slice b 4 4), .ofNat (ofLE (slice b 8 8)), .ofInt (ofLEInt (slice b 16 4)),
          slice b headerSize dataLen.toNat⟩
      (replayFrom (b.drop (headerSize + dataLen.toNat))).map (entry :: ·)
termination_by b.length
decreasing_by
  rw [List.length_drop]
  have : headerSize = 24 := rfl
  omega

/-- `replay` of a file that need not exist. -/
def replay (file : Option Bytes) : Option (List ObStorageLogEntry) :=
  match file with
  | none => some []
  | some b => replayFrom b

structure ObStorageLogger where
  isInited : Bool := false

structure Slog where
  logger : ObStorageLogger := {}
  file : Option Bytes := none
  acked : List ObStorageLogParam := []
  cut : Bool := false

namespace Slog

/-- `O_CREAT` and `O_APPEND`: what is in the file stays as it is. -/
def init (s : Slog) : ℤ × Slog :=
  if s.logger.isInited then (0, s)
  else (0, { s with logger := ⟨true⟩, file := some (s.file.getD []) })

def put (p : ObStorageLogParam) (n : ℕ) (s : Slog) : Slog :=
  { s with
    file := some (s.file.getD [] ++ p.image.take n)
    cut := s.cut || (decide (0 < n) && decide (n < p.image.length)) }

/-- `answer` is what `::write` returns, `none` for an error. -/
def writeLog (p : ObStorageLogParam) (answer : Option ℕ) (s : Slog) : ℤ × Slog :=
  if !s.logger.isInited then (-1, s)
  else
    match answer with
    | none => (-1, s)
    | some n =>
      let written := min n p.image.length
      let s := s.put p written
      if written ≠ p.image.length then (-1, s)
      else (0, { s with acked := s.acked ++ [p] })

/-- The process dies; of an entry that was being written, a strict prefix may be left. -/
def crash (writing : Option (ObStorageLogParam × ℕ)) (s : Slog) : Slog :=
  match writing with
  | none => { s with logger := {} }
  | some (p, n) =>
    if s.logger.isInited then { s.put p (min n (p.image.length - 1)) with logger := {} }
    else { s with logger := {} }

end Slog

inductive Event where
  | init
  | writeLog (p : ObStorageLogParam) (answer : Option ℕ)
  | crash (writing : Option (ObStorageLogParam × ℕ))

def Event.step : Event → Slog → Slog
  | .init, s => s.init.2
  | .writeLog p answer, s => (s.writeLog p answer).2
  | .crash writing, s => s.crash writing

def runEvents (events : List Event) (s : Slog) : Slog := events.foldl (fun s e => e.step s) s

def Delivers (s : Slog) : Prop := replay s.file = some (s.acked.map ObStorageLogParam.entry)

section Parsing

variable (p : ObStorageLogParam)

@[simp] theorem length_header (p : ObStorageLogParam) : p.header.length = headerSize := by
  simp [ObStorageLogParam.header, headerSize]

theorem length_image : p.image.length = headerSize + p.data.length := by
  rw [ObStorageLogParam.image, List.length_append, length_header]

theorem slice_header (rest : Bytes) {pos len : ℕ} (h : pos + len ≤ headerSize) :
    slice (p.header ++ rest) pos len = slice p.header pos len :=
  slice_append_of_le rest (by rw [length_header]; exact h)

theorem header_magic : ofLE (slice p.header 0 4) = magic := by
  have : slice p.header 0 4 = toLE 4 magic := by
    simp [ObStorageLogParam.header, slice]
  rw [this, ofLE_toLE_of_lt (by decide)]

variable {p : ObStorageLogParam}

theorem header_dataLen (h : p.data.length < 2 ^ 31) :
    ofLEInt (slice p.header 20 4) = p.data.length := by
  have : slice p.header 20 4 = toLEInt 4 p.data.length := by
    simp [ObStorageLogParam.header, slice, List.drop_append, List.drop_eq_nil_of_le,
      List.take_of_length_le]
  rw [this]
  apply ofLEInt_toLEInt <;> omega

theorem header_totalSize (h : p.data.length < 2 ^ 31) :
    ofLE (slice p.header 4 4) = headerSize + p.data.length := by
  have : slice p.header 4 4 = toLE 4 (headerSize + p.data.length) := by
    simp [ObStorageLogParam.header, slice]
  have hsize : headerSize = 24 := rfl
  rw [this, ofLE_toLE_of_lt (by omega)]

theorem header_tenantId :
    UInt64.ofNat (ofLE (slice p.header 8 8)) = p.tenantId := by
  have : slice p.header 8 8 = toLE 8 p.tenantId.toNat := by
    simp [ObStorageLogParam.header, slice, List.drop_append, List.drop_eq_nil_of_le]
  rw [this, ofLE_toLE_of_lt p.tenantId.toNat_lt, UInt64.ofNat_toNat]

theorem header_logType :
    Int32.ofInt (ofLEInt (slice p.header 16 4)) = p.logType := by
  have : slice p.header 16 4 = toLEInt 4 p.logType.toInt := by
    simp [ObStorageLogParam.header, slice, List.drop_append, List.drop_eq_nil_of_le]
  have hlo := p.logType.le_toInt
  have hhi := p.logType.toInt_lt
  rw [this, ofLEInt_toLEInt (by omega) (by omega), Int32.ofInt_toInt]

theorem replayFrom_image (h : p.data.length < 2 ^ 31) (rest : Bytes) :
    replayFrom (p.image ++ rest) = (replayFrom rest).map (p.entry :: ·) := by
  have hsize : headerSize = 24 := rfl
  have hlen : (p.image ++ rest).length = headerSize + p.data.length + rest.length := by
    rw [List.length_append, length_image]
  have hsplit : p.image ++ rest = p.header ++ (p.data ++ rest) := by
    rw [ObStorageLogParam.image, List.append_assoc]
  have hslice {pos len : ℕ} (hb : pos + len ≤ headerSize) :
      slice (p.image ++ rest) pos len = slice p.header pos len := by
    rw [hsplit, slice_header p _ hb]
  have hdata : slice (p.image ++ rest) headerSize p.data.length = p.data := by
    rw [← length_header p]
    exact slice_middle p.header p.data rest
  have hdrop : (p.image ++ rest).drop (headerSize + p.data.length) = rest :=
    List.drop_left' (length_image p)
  rw [replayFrom, if_neg (by omega), hslice (by decide), if_neg (by rw [header_magic]; simp),
    hslice (show 20 + 4 ≤ headerSize by decide), header_dataLen h]
  dsimp only
  rw [if_neg (by omega), if_neg (by omega), Int.toNat_natCast, hdata, hdrop,
    hslice (by decide), header_totalSize h, hslice (by decide), header_tenantId,
    hslice (by decide), header_logType]
  rfl

theorem replayFrom_cut (h : p.data.length < 2 ^ 31) {n : ℕ} (hn : n < p.image.length) :
    replayFrom (p.image.take n) = some [] := by
  have hsize : headerSize = 24 := rfl
  have hlen : (p.image.take n).length = n := by
    rw [List.length_take]
    omega
  rw [length_image] at hn
  rcases Nat.lt_or_ge n headerSize with hshort | hlong
  · rw [replayFrom, if_pos (by omega)]
  · have hsplit : p.image.take n = p.header ++ p.data.take (n - headerSize) := by
      rw [ObStorageLogParam.image, List.take_append, length_header,
        List.take_of_length_le (by rw [length_header]; exact hlong)]
    rw [replayFrom, if_neg (by omega), hlen, hsplit, slice_header p _ (by decide),
      if_neg (by rw [header_magic]; simp), slice_header p _ (by decide), header_dataLen h]
    dsimp only
    rw [if_neg (by omega), if_pos (by omega)]

theorem replayFrom_images {ps : List ObStorageLogParam} (h : ∀ p ∈ ps, p.data.length < 2 ^ 31)
    (rest : Bytes) : replayFrom (ps.flatMap ObStorageLogParam.image ++ rest) =
      (replayFrom rest).map (ps.map ObStorageLogParam.entry ++ ·) := by
  induction ps with
  | nil => simp
  | cons p ps ih =>
    rw [List.flatMap_cons, List.append_assoc, replayFrom_image (h p List.mem_cons_self),
      ih fun q hq => h q (List.mem_cons_of_mem p hq)]
    simp [Function.comp_def]

end Parsing

section Runs

def Event.puts : Event → Slog → Option (ObStorageLogParam × ℕ)
  | .writeLog p (some n), s =>
    if s.logger.isInited then some (p, min n p.image.length) else none
  | .crash (some (p, n)), s =>
    if s.logger.isInited then some (p, min n (p.image.length - 1)) else none
  | _, _ => none

/-- The data length fits `data_len_`, and a file that ends in part of an entry stays as it is. -/
def Event.KeepsCutLast (e : Event) (s : Slog) : Prop :=
  ∀ p n, e.puts s = some (p, n) → p.data.length < 2 ^ 31 ∧ (s.cut = true → n = 0)

def CutLast : List Event → Slog → Prop
  | [], _ => True
  | e :: es, s => e.KeepsCutLast s ∧ CutLast es (e.step s)

structure Logged (s : Slog) : Prop where
  small : ∀ p ∈ s.acked, p.data.length < 2 ^ 31
  split : ∃ tail, s.file.getD [] = s.acked.flatMap ObStorageLogParam.image ++ tail ∧
    replayFrom tail = some [] ∧ (s.cut = false → tail = [])

theorem replayFrom_nil : replayFrom [] = some [] := by
  rw [replayFrom, if_pos (by decide)]

theorem replay_eq_replayFrom (file : Option Bytes) : replay file = replayFrom (file.getD []) := by
  cases file with
  | none => exact replayFrom_nil.symm
  | some b => rfl

variable {s : Slog}

theorem Logged.delivers (h : Logged s) : Delivers s := by
  obtain ⟨tail, hfile, htail, -⟩ := h.split
  rw [Delivers, replay_eq_replayFrom, hfile, replayFrom_images h.small, htail, Option.map_some,
    List.append_nil]

theorem logged_new : Logged {} := ⟨by simp, [], rfl, replayFrom_nil, fun _ => rfl⟩

theorem Logged.of_file_eq {t : Slog} (h : Logged s) (hfile : t.file.getD [] = s.file.getD [])
    (hacked : t.acked = s.acked) (hcut : t.cut = s.cut) : Logged t := by
  constructor
  · rw [hacked]
    exact h.small
  · rw [hfile, hacked, hcut]
    exact h.split

theorem image_pos (p : ObStorageLogParam) : 0 < p.image.length := by
  rw [length_image]
  exact Nat.lt_add_right _ (by decide)

theorem Logged.put_cut (h : Logged s) {p : ObStorageLogParam} {n : ℕ} (hp : p.data.length < 2 ^ 31)
    (hcut : s.cut = true → n = 0) (hn : n < p.image.length) :
    Logged (s.put p n) := by
  rcases Nat.eq_zero_or_pos n with rfl | hpos
  · exact h.of_file_eq (by simp [Slog.put]) rfl (by simp [Slog.put])
  · obtain ⟨tail, hfile, -, hclean⟩ := h.split
    have hnot : s.cut = false := by
      rw [Bool.eq_false_iff]
      intro hc
      exact absurd (hcut hc) (Nat.ne_of_gt hpos)
    refine ⟨h.small, p.image.take n, ?_, replayFrom_cut hp hn, ?_⟩
    · show s.file.getD [] ++ p.image.take n = _
      rw [hfile, hclean hnot, List.append_nil]
      rfl
    · intro hc
      simp [Slog.put, hpos, hn] at hc

theorem Logged.put_all (h : Logged s) {p : ObStorageLogParam} (hp : p.data.length < 2 ^ 31)
    (hcut : s.cut = true → p.image.length = 0) :
    Logged { s.put p p.image.length with acked := s.acked ++ [p] } := by
  obtain ⟨tail, hfile, -, hclean⟩ := h.split
  have hnot : s.cut = false := by
    rw [Bool.eq_false_iff]
    intro hc
    exact absurd (hcut hc) (Nat.ne_of_gt (image_pos p))
  refine ⟨?_, [], ?_, replayFrom_nil, fun _ => rfl⟩
  · intro q hq
    rcases List.mem_append.mp hq with hold | hnew
    · exact h.small q hold
    · rwa [List.mem_singleton.mp hnew]
  · show s.file.getD [] ++ p.image.take p.image.length = _
    rw [hfile, hclean hnot, List.take_length]
    simp

theorem writeLog_logged (h : Logged s) {p : ObStorageLogParam} {answer : Option ℕ}
    (hsafe : (Event.writeLog p answer).KeepsCutLast s) : Logged (s.writeLog p answer).2 := by
  unfold Slog.writeLog
  split
  · exact h
  · rename_i hinit
    cases answer with
    | none => exact h
    | some n =>
      have hputs : (Event.writeLog p (some n)).puts s = some (p, min n p.image.length) := by
        rw [Event.puts, if_pos (by simpa using hinit)]
      obtain ⟨hp, hcut⟩ := hsafe _ _ hputs
      dsimp only
      split
      · rename_i hshort
        exact h.put_cut hp hcut (lt_of_le_of_ne (min_le_right _ _) hshort)
      · rename_i hall
        rw [not_not.mp hall] at hcut ⊢
        exact h.put_all hp hcut

theorem crash_logged (h : Logged s) {writing : Option (ObStorageLogParam × ℕ)}
    (hsafe : (Event.crash writing).KeepsCutLast s) : Logged (s.crash writing) := by
  cases writing with
  | none => exact h.of_file_eq rfl rfl rfl
  | some w =>
    obtain ⟨p, n⟩ := w
    simp only [Slog.crash]
    split
    · rename_i hinit
      have hputs : (Event.crash (some (p, n))).puts s = some (p, min n (p.image.length - 1)) := by
        rw [Event.puts, if_pos hinit]
      obtain ⟨hp, hcut⟩ := hsafe _ _ hputs
      have hput := h.put_cut hp hcut (by have := image_pos p; omega)
      exact hput.of_file_eq rfl rfl rfl
    · exact h.of_file_eq rfl rfl rfl

theorem step_logged {e : Event} (h : Logged s) (hsafe : e.KeepsCutLast s) :
    Logged (e.step s) := by
  cases e with
  | init =>
    simp only [Event.step, Slog.init]
    split
    · exact h
    · exact h.of_file_eq rfl rfl rfl
  | writeLog p answer => exact writeLog_logged h hsafe
  | crash writing => exact crash_logged h hsafe

theorem runEvents_logged {events : List Event} (h : Logged s) (hsafe : CutLast events s) :
    Logged (runEvents events s) := by
  induction events generalizing s with
  | nil => exact h
  | cons e es ih => exact ih (step_logged h hsafe.1) hsafe.2

theorem CutLast.left {es fs : List Event} (h : CutLast (es ++ fs) s) :
    CutLast es s := by
  induction es generalizing s with
  | nil => trivial
  | cons e es ih => exact ⟨h.1, ih h.2⟩

/-- As long as nothing is written behind part of an entry, every state of a run replays to
the acknowledged entries. -/
theorem delivers_of_cutLast {events : List Event} (h : CutLast events {}) :
    ∀ es, es <+: events → Delivers (runEvents es {}) := by
  rintro es ⟨fs, rfl⟩
  exact (runEvents_logged logged_new h.left).delivers

/-- One entry is written whole, and a crash leaves two bytes of the next one. -/
theorem delivers_of_cutLast_example :
    Delivers (runEvents [.init, .writeLog {} (some 24), .crash (some ({}, 2)), .init] {}) := by
  refine delivers_of_cutLast ?_ _ List.prefix_rfl
  refine ⟨?_, ?_, ?_, ?_, trivial⟩
  · intro p n h
    cases h
  · intro p n h
    cases h
    decide
  · intro p n h
    cases h
    decide
  · intro p n h
    cases h

/-- A crash leaves one byte of an entry; the entry acknowledged after the restart is lost. -/
theorem entry_behind_cut_is_lost :
    ¬ Delivers (runEvents [.init, .crash (some ({}, 1)), .init, .writeLog {} (some 24)] {}) := by
  unfold Delivers
  decide +kernel

end Runs

end StorageLogger
