import LsmStorage.IniConfig

/-! # Ini::load

A file is read line by line into a buffer and every line is stripped. Lines that end in a backslash
are continued by the next one that is neither empty nor a comment nor the name of a session. -/
namespace IniLoad

open BoundedLoop ByteCodec StringStrip IniConfig

abbrev Sections := AList fun _ : Str => Session

section Sessions

def insertSession (sessionName : Str) (sections : Sections) : Sections :=
  insert sessionName ∅ sections

/-- The sessions afterwards. The pointer to a session is its name. -/
def switchSession (sessionName : Str) (sections : Sections) : Sections :=
  if sessionName ∈ sections then sections else insertSession sessionName sections

def getSection (sections : Sections) (sectionName : Str) : Session :=
  (sections.lookup sectionName).getD ∅

def get (sections : Sections) (key defaultValue sectionName : Str) : Str :=
  ((getSection sections sectionName).lookup key).getD defaultValue

/-- The pointer to the section is followed without a test. -/
def put (sections : Sections) (key value sectionName : Str) : Except Fault (ℤ × Sections) :=
  let sections := switchSession sectionName sections
  match sections.lookup sectionName with
  | none => .error (.undefined 0)
  | some session => .ok (0, sections.insert sectionName (insert key value session))

end Sessions

section Stream

def newline : UInt8 := 0x0a

def maxCfgLineLen : ℕ := 1024

/-- An `ifstream`: what is left of the file, and `good()`. -/
structure Stream where
  rest : Str
  good : Bool

def part (str : Str) (l : Bytes) (h : l.Sublist str.chars) : Str where
  chars := l
  fits := lt_of_le_of_lt h.length_le str.fits

def firstLine (text : Str) : Str :=
  part text (text.chars.takeWhile (· != newline)) (List.takeWhile_sublist _)

def laterLines (text : Str) : Str :=
  part text (text.chars.dropWhile (· != newline)).tail
    ((List.tail_sublist _).trans (List.dropWhile_sublist _))

/-- `getline` into a buffer of so many characters. A line that does not fit is cut, and the stream
has failed. -/
def getline (size : ℕ) (text : Str) : Str × Stream :=
  if (firstLine text).chars.length < size then
    (firstLine text, ⟨laterLines text, decide (newline ∈ text.chars)⟩)
  else
    (part (firstLine text) ((firstLine text).chars.take (size - 1)) (List.take_sublist _ _),
      ⟨part text (text.chars.drop (size - 1)) (List.drop_sublist _ _), false⟩)

end Stream

section Load

def commentTag : UInt8 := 0x23

def continueTag : UInt8 := 0x5c

def sessionStartTag : UInt8 := 0x5b

def sessionEndTag : UInt8 := 0x5d

def emptyStr : Str := ⟨[], by decide⟩

def defaultSection : Str := emptyStr

def ofChars (l : Bytes) : Except Fault Str :=
  if h : l.length < 2 ^ 63 then .ok ⟨l, h⟩ else .error .thrown

def cString (line : Str) : CStr where
  toStr := part line (line.chars.takeWhile (· != 0)) (List.takeWhile_sublist _)
  noNul := by
    intro h
    have hne := List.mem_takeWhile_imp h
    simp at hne

structure Parse where
  sections : Sections
  currentSession : Str
  continueLastLine : Bool
  lineEntry : Str

inductive Kind where
  | skipped
  | session
  | continued
  | last
  deriving DecidableEq

def kind (readBuf : Bytes) : Kind :=
  if readBuf = [] then .skipped
  else if readBuf.head? = some commentTag then .skipped
  else if readBuf.head? = some sessionStartTag ∧ readBuf.getLast? = some sessionEndTag then .session
  else if readBuf.getLast? = some continueTag then .continued
  else .last

def appendLine (readBuf : Bytes) (p : Parse) : Except Fault Str :=
  ofChars (if p.continueLastLine then p.lineEntry.chars ++ readBuf else readBuf)

def continueEntry (lineEntry : Str) (p : Parse) : Except Fault Parse := do
  let lineEntry ← lineEntry.substr 0 (lineEntry.size - 1)
  .ok { p with continueLastLine := true, lineEntry }

def storeEntry (lineEntry : Str) (p : Parse) : Except Fault Parse := do
  let (_, session) ← insertEntry (p.sections.lookup p.currentSession) lineEntry
  let sections := match session with
    | some session => p.sections.insert p.currentSession session
    | none => p.sections
  .ok { sections, currentSession := p.currentSession, continueLastLine := false, lineEntry }

def parseText (readBuf : Bytes) (p : Parse) : Except Fault Parse :=
  match kind readBuf with
  | .skipped => .ok p
  | .session => do
    let sessionName ← ofChars readBuf.dropLast.tail
    .ok { p with
      sections := switchSession sessionName p.sections, currentSession := sessionName }
  | .continued => do
    let lineEntry ← appendLine readBuf p
    continueEntry lineEntry p
  | .last => do
    let lineEntry ← appendLine readBuf p
    storeEntry lineEntry p

def parseLine (line : Str) (p : Parse) : Except Fault Parse := do
  let (buf, head) ← stripChars (cString line)
  parseText (pointed buf head) p

/-- A turn of the loop. What an exception leaves is the state before the line. -/
def loadTurn (s : Stream × Parse) : Turn (Stream × Parse) (Parse × Option Fault) :=
  if s.1.good then
    let (line, ifs) := getline maxCfgLineLen s.1.rest
    match parseLine line s.2 with
    | .error fault => .stop (s.2, some fault)
    | .ok p => .again (ifs, p)
  else .stop (s.2, none)

/-- What is behind the loop, and the handler of exceptions. -/
def finish : Option (Parse × Option Fault) → Except Fault (ℤ × Sections)
  | none => .error .unfinished
  | some (p, none) => .ok (0, p.sections)
  | some (p, some .thrown) => .ok (-1, p.sections)
  | some (_, some fault) => .error fault

/-- The file is `none` if it cannot be opened. -/
def load (sections : Sections) (file : Option Str) : Except Fault (ℤ × Sections) :=
  let ifs : Stream := ⟨file.getD emptyStr, file.isSome⟩
  finish (run loadTurn (ifs.rest.chars.length + 2)
    (ifs, ⟨switchSession defaultSection sections, defaultSection, false, emptyStr⟩))

end Load

section Lines

def readable (size : ℕ) : List Bytes → List Bytes
  | [] => []
  | line :: rest =>
    if line.length < size then line :: readable size rest else [line.take (size - 1)]

def fileLines (text : Bytes) : List Bytes := readable maxCfgLineLen (text.splitOn newline)

def parseLines : List Str → Parse → Parse × Option Fault
  | [], p => (p, none)
  | line :: rest, p =>
    match parseLine line p with
    | .error fault => (p, some fault)
    | .ok q => parseLines rest q

variable {text : Str}

theorem splitOn_of_mem (h : newline ∈ text.chars) :
    text.chars.splitOn newline =
      (firstLine text).chars :: (laterLines text).chars.splitOn newline := by
  conv_lhs => rw [cut_first h]
  apply List.splitOnP_append_cons_of_forall_mem
  · intro c hc
    have hne := List.mem_takeWhile_imp hc
    simpa using hne
  · exact beq_self_eq_true newline

theorem splitOn_of_not_mem (h : newline ∉ text.chars) :
    text.chars.splitOn newline = [(firstLine text).chars] := by
  have hall : ∀ c ∈ text.chars, (c != newline) = true := by
    intro c hc
    rw [bne_iff_ne]
    rintro rfl
    exact h hc
  show _ = [text.chars.takeWhile (· != newline)]
  rw [List.takeWhile_eq_self_iff.mpr hall]
  apply List.splitOnP_eq_singleton
  intro c hc
  simpa using hall c hc

theorem fileLines_getline (text : Str) :
    fileLines text.chars = (getline maxCfgLineLen text).1.chars ::
      if (getline maxCfgLineLen text).2.good then
        fileLines (getline maxCfgLineLen text).2.rest.chars
      else [] := by
  rw [fileLines, getline]
  by_cases hshort : (firstLine text).chars.length < maxCfgLineLen
  · rw [if_pos hshort]
    by_cases hmem : newline ∈ text.chars
    · rw [splitOn_of_mem hmem, readable, if_pos hshort, decide_eq_true hmem]
      rfl
    · rw [splitOn_of_not_mem hmem, readable, if_pos hshort, decide_eq_false hmem]
      rfl
  · rw [if_neg hshort]
    by_cases hmem : newline ∈ text.chars
    · rw [splitOn_of_mem hmem, readable, if_neg hshort]
      rfl
    · rw [splitOn_of_not_mem hmem, readable, if_neg hshort]
      rfl

theorem getline_shorter {size : ℕ} (h : (getline size text).2.good = true) :
    (getline size text).1.chars.length + (getline size text).2.rest.chars.length <
      text.chars.length := by
  unfold getline at h ⊢
  split_ifs at h ⊢ with hshort
  · have hlength := congrArg List.length (cut_first (of_decide_eq_true h))
    rw [List.length_append, List.length_cons] at hlength
    show (text.chars.takeWhile (· != newline)).length +
      (text.chars.dropWhile (· != newline)).tail.length < text.chars.length
    omega

theorem length_getline_le (size : ℕ) (text : Str) :
    (getline size text).1.chars.length ≤ text.chars.length := by
  have hline : (firstLine text).chars.length ≤ text.chars.length :=
    (List.takeWhile_sublist _).length_le
  unfold getline
  split_ifs with hshort
  · exact hline
  · exact (List.take_sublist _ _).length_le.trans hline

theorem length_fileLines_le (text : Str) :
    (fileLines text.chars).flatten.length ≤ text.chars.length := by
  induction hn : text.chars.length using Nat.strong_induction_on generalizing text with
  | _ n ih =>
    rw [fileLines_getline text, List.flatten_cons, List.length_append]
    cases hgood : (getline maxCfgLineLen text).2.good with
    | false =>
      have hle := length_getline_le maxCfgLineLen text
      show _ + 0 ≤ n
      omega
    | true =>
      have hshorter := getline_shorter hgood
      have hrest := ih _ (by omega) (getline maxCfgLineLen text).2.rest rfl
      rw [if_pos rfl]
      omega

theorem run_line (text : Str) (k : ℕ) (p : Parse) :
    run loadTurn (k + 1) (⟨text, true⟩, p) =
      match parseLine (getline maxCfgLineLen text).1 p with
      | .error fault => some (p, some fault)
      | .ok q => run loadTurn k ((getline maxCfgLineLen text).2, q) := by
  simp only [run, loadTurn, if_true]
  cases parseLine (getline maxCfgLineLen text).1 p with
  | error fault => rfl
  | ok q => rfl

theorem run_lines (text : Str) :
    ∃ lines : List Str, lines.map Str.chars = fileLines text.chars ∧
      ∀ fuel p, text.chars.length + 2 ≤ fuel →
        run loadTurn fuel (⟨text, true⟩, p) = some (parseLines lines p) := by
  induction hn : text.chars.length using Nat.strong_induction_on generalizing text with
  | _ n ih =>
    have hlines := fileLines_getline text
    have hturn := run_line text
    have hshorter := @getline_shorter text maxCfgLineLen
    generalize getline maxCfgLineLen text = next at hlines hturn hshorter
    obtain ⟨line, rest, good⟩ := next
    cases good with
    | false =>
      refine ⟨[line], hlines.symm, ?_⟩
      intro fuel p hfuel
      obtain ⟨k, rfl⟩ : ∃ k, fuel = k + 2 := ⟨fuel - 2, by omega⟩
      rw [hturn, parseLines]
      cases parseLine line p with
      | error fault => rfl
      | ok q => rfl
    | true =>
      have hlt : line.chars.length + rest.chars.length < text.chars.length := hshorter rfl
      obtain ⟨lines, hrest, hrun⟩ := ih _ (by omega) rest rfl
      refine ⟨line :: lines, ?_, ?_⟩
      · rw [List.map_cons, hrest]
        exact hlines.symm
      · intro fuel p hfuel
        obtain ⟨k, rfl⟩ : ∃ k, fuel = k + 1 := ⟨fuel - 1, by omega⟩
        rw [hturn, parseLines]
        cases parseLine line p with
        | error fault => rfl
        | ok q => exact hrun k q (by omega)

end Lines

end IniLoad
