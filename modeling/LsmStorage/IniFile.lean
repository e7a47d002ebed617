import LsmStorage.IniLoad

/-! # The entries of a configuration file

A reader without maps, buffers and indices: it keeps the session and the text that is to be
continued, and collects the entries in the order of the file. -/
namespace IniFile

open BoundedLoop ByteCodec StringStrip IniConfig IniLoad

section Reader

structure Entry where
  session : Bytes
  line : Bytes
  deriving DecidableEq

namespace Entry

variable (e : Entry)

def key : Bytes := trim isspace (e.line.takeWhile (· != equalTag))

def value : Bytes := trim isspace (e.line.dropWhile (· != equalTag)).tail

def Sound : Prop := equalTag ∈ e.line → e.key ≠ [] ∧ e.value ≠ []

instance : Decidable e.Sound := inferInstanceAs (Decidable (_ → _))

def Assigns (session key : Bytes) : Prop := e.session = session ∧ equalTag ∈ e.line ∧ e.key = key

instance (session key : Bytes) : Decidable (e.Assigns session key) :=
  inferInstanceAs (Decidable (_ ∧ _ ∧ _))

end Entry

def AllSound (entries : List Entry) : Prop := ∀ e ∈ entries, e.Sound

def firstValue (session key : Bytes) (entries : List Entry) : Option Bytes :=
  (entries.find? fun e => decide (e.Assigns session key)).map Entry.value

structure Reader where
  current : Bytes
  pending : Bytes
  entries : List Entry

def Reader.step (r : Reader) (text : Bytes) : Reader :=
  match kind text with
  | .skipped => r
  | .session => { r with current := text.dropLast.tail }
  | .continued => { r with pending := r.pending ++ text.dropLast }
  | .last =>
    { r with pending := [], entries := r.entries ++ [⟨r.current, r.pending ++ text⟩] }

def stripped (line : Bytes) : Bytes := trim isspace (line.takeWhile (· != 0))

def Reader.run (r : Reader) (lines : List Bytes) : Reader :=
  (lines.map stripped).foldl Reader.step r

def fileEntries (text : Bytes) : List Entry := (Reader.run ⟨[], [], []⟩ (fileLines text)).entries

-- An entry is continued behind a comment and the name of a session, and belongs to that session:
-- the lines `k=a\`, `#`, `[s]`, ` b` are the entry `k=ab` of `s`.
example : fileEntries
    [0x6b, 0x3d, 0x61, 0x5c, 0x0a, 0x23, 0x0a, 0x5b, 0x73, 0x5d, 0x0a, 0x20, 0x62, 0x0a] =
    [⟨[0x73], [0x6b, 0x3d, 0x61, 0x62]⟩] := by decide

end Reader

section ReaderLemmas

variable {r : Reader} {text : Bytes}

theorem firstValue_concat (session key : Bytes) (entries : List Entry) (e : Entry) :
    firstValue session key (entries ++ [e]) =
      (firstValue session key entries).or
        (if e.Assigns session key then some e.value else none) := by
  rw [firstValue, List.find?_append, firstValue]
  cases entries.find? fun e => decide (e.Assigns session key) with
  | some first => rfl
  | none =>
    rw [List.find?_singleton]
    by_cases h : e.Assigns session key
    · rw [if_pos h, if_pos (decide_eq_true h)]
      rfl
    · rw [if_neg h, if_neg (by simpa using h)]
      rfl

theorem length_trim_le (p : UInt8 → Bool) (l : Bytes) : (trim p l).length ≤ l.length := by
  have hlength := (split_trim p l).length
  omega

theorem length_stripped_le (line : Bytes) : (stripped line).length ≤ line.length :=
  (length_trim_le _ _).trans (List.takeWhile_sublist _).length_le

theorem Reader.length_pending_step (r : Reader) (text : Bytes) :
    (r.step text).pending.length ≤ r.pending.length + text.length := by
  unfold step
  split
  · exact Nat.le_add_right _ _
  · exact Nat.le_add_right _ _
  · rw [List.length_append, List.length_dropLast]
    omega
  · exact Nat.zero_le _

theorem Reader.mem_entries_step {e : Entry} (h : e ∈ r.entries) : e ∈ (r.step text).entries := by
  unfold step
  split
  · exact h
  · exact h
  · exact h
  · exact List.mem_append_left _ h

theorem Reader.mem_entries_run {e : Entry} (h : e ∈ r.entries) (lines : List Bytes) :
    e ∈ (r.run lines).entries := by
  induction lines generalizing r with
  | nil => exact h
  | cons line rest ih => exact ih (mem_entries_step h)

end ReaderLemmas

section Values

def lookupValue (sections : Sections) (name key : Str) : Option Str :=
  (sections.lookup name).bind (·.lookup key)

theorem get_eq (sections : Sections) (key defaultValue name : Str) :
    get sections key defaultValue name = (lookupValue sections name key).getD defaultValue := by
  unfold IniLoad.get getSection lookupValue
  cases sections.lookup name with
  | none => rfl
  | some session => rfl

variable {sections : Sections} {session : Session} {name : Str}

theorem mem_switchSession (name : Str) (sections : Sections) :
    name ∈ switchSession name sections := by
  unfold switchSession insertSession IniConfig.insert
  split_ifs with hmem
  · exact hmem
  · exact (AList.mem_insert _).mpr (Or.inl rfl)

theorem lookupValue_switchSession (sections : Sections) (name n k : Str) :
    lookupValue (switchSession name sections) n k = lookupValue sections n k := by
  unfold switchSession
  split_ifs with hmem
  · rfl
  · rw [insertSession, lookupValue, lookup_insert, lookupValue]
    split_ifs with hn
    · rw [hn, AList.lookup_eq_none.mpr hmem]
      rfl
    · rfl

theorem lookupValue_insert (h : sections.lookup name = some session) (key value n k : Str) :
    lookupValue (sections.insert name (IniConfig.insert key value session)) n k =
      (lookupValue sections n k).or (if n = name ∧ k = key then some value else none) := by
  rw [lookupValue]
  by_cases hn : n = name
  · subst hn
    rw [AList.lookup_insert, lookupValue, h]
    show (IniConfig.insert key value session).lookup k = (session.lookup k).or _
    rw [lookup_insert]
    by_cases hk : k = key
    · subst hk
      rw [if_pos rfl, if_pos ⟨rfl, rfl⟩]
      cases session.lookup k with
      | none => rfl
      | some old => rfl
    · rw [if_neg hk, if_neg fun hboth => hk hboth.2, Option.or_none]
  · rw [AList.lookup_insert_ne hn, if_neg fun hboth => hn hboth.1, Option.or_none, lookupValue]

theorem lookupValue_insert_self (h : sections.lookup name = some session) (n k : Str) :
    lookupValue (sections.insert name session) n k = lookupValue sections n k := by
  rw [lookupValue, lookupValue]
  by_cases hn : n = name
  · rw [hn, AList.lookup_insert, h]
  · rw [AList.lookup_insert_ne hn]

end Values

section Refinement

def pending (p : Parse) : Bytes := if p.continueLastLine then p.lineEntry.chars else []

structure Refines (before : Sections) (p : Parse) (r : Reader) : Prop where
  current : p.currentSession.chars = r.current
  known : p.currentSession ∈ p.sections
  pending : pending p = r.pending
  value : ∀ name key, (lookupValue p.sections name key).map Str.chars =
    ((lookupValue before name key).map Str.chars).or (firstValue name.chars key.chars r.entries)

variable {before : Sections} {p : Parse} {r : Reader} {text : Bytes}

theorem ofChars_of_lt {l : Bytes} (h : l.length < 2 ^ 63) : ofChars l = .ok ⟨l, h⟩ := dif_pos h

theorem parseLine_eq (line : Str) (p : Parse) :
    parseLine line p = parseText (stripped line.chars) p := by
  obtain ⟨buf, head, hstrip, hpointed⟩ := stripChars_trims (cString line)
  rw [parseLine, hstrip]
  show parseText (pointed buf head) p = _
  rw [hpointed]
  rfl

theorem Refines.appendLine (h : Refines before p r) (hlt : (r.pending ++ text).length < 2 ^ 63) :
    appendLine text p = .ok ⟨r.pending ++ text, hlt⟩ := by
  have hentry : (if p.continueLastLine then p.lineEntry.chars ++ text else text) =
      r.pending ++ text := by
    rw [← h.pending, IniFile.pending]
    split_ifs with hcontinue
    · rfl
    · rfl
  rw [IniLoad.appendLine, hentry, ofChars_of_lt hlt]

theorem Refines.continueEntry (h : Refines before p r) {entry : Str} (hne : text ≠ [])
    (hentry : entry.chars = r.pending ++ text) :
    ∃ q, continueEntry entry p = .ok q ∧
      Refines before q { r with pending := r.pending ++ text.dropLast } := by
  have hcut : entry.chars.dropLast = r.pending ++ text.dropLast := by
    rw [hentry, List.dropLast_append_of_ne_nil hne]
  have hsubstr : entry.substr 0 (entry.size - 1) =
      .ok (part entry entry.chars.dropLast (List.dropLast_sublist _)) := by
    have hpos := List.length_pos_iff.mpr hne
    have hlength := congrArg List.length hentry
    have hfits := entry.fits
    have hone : (1 : UInt64).toNat = 1 := rfl
    rw [List.length_append] at hlength
    have hcount : (entry.size - 1).toNat = entry.chars.length - 1 := by
      rw [UInt64.toNat_sub, Str.toNat_size, hone]
      omega
    apply substr_of_le (Nat.zero_le _)
    rw [hcount]
    exact List.dropLast_eq_take.symm
  rw [IniLoad.continueEntry, hsubstr]
  exact ⟨_, rfl, h.current, h.known, hcut, h.value⟩

theorem Refines.session (h : Refines before p r) (name : Str) :
    Refines before { p with sections := switchSession name p.sections, currentSession := name }
      { r with current := name.chars } := by
  refine ⟨rfl, mem_switchSession name p.sections, h.pending, ?_⟩
  intro n k
  rw [lookupValue_switchSession]
  exact h.value n k

theorem notBlank_iff (str : Str) : str.NotBlank ↔ trim isspace str.chars ≠ [] := by
  constructor
  · exact trim_ne_nil
  · intro hne
    have hsplit := split_trim isspace str.chars
    obtain ⟨c, rest, hmid⟩ := List.exists_cons_of_ne_nil hne
    refine ⟨c, ?_, hsplit.first c (by rw [hmid]; rfl)⟩
    rw [hsplit.parts, hmid]
    exact List.mem_append_left _ (List.mem_append_right _ List.mem_cons_self)

theorem sound_iff (session : Bytes) (entry : Str) : (⟨session, entry.chars⟩ : Entry).Sound ↔
    (equalTag ∈ entry.chars → (keyPart entry).NotBlank ∧ (valuePart entry).NotBlank) := by
  rw [notBlank_iff, notBlank_iff]
  rfl

theorem Refines.write (h : Refines before p r) {entry : Str} {after : Session}
    (hafter : ∀ n k, (lookupValue (p.sections.insert p.currentSession after) n k).map Str.chars =
      ((lookupValue p.sections n k).map Str.chars).or
        (if (⟨r.current, entry.chars⟩ : Entry).Assigns n.chars k.chars then
          some (valuePart entry).trimmed.chars else none)) :
    Refines before
      ⟨p.sections.insert p.currentSession after, p.currentSession, false, entry⟩
      { r with pending := [], entries := r.entries ++ [⟨r.current, entry.chars⟩] } := by
  refine ⟨h.current, (AList.mem_insert _).mpr (Or.inl rfl), rfl, ?_⟩
  intro n k
  rw [hafter, h.value, firstValue_concat, Option.or_assoc]
  rfl

theorem Refines.assigns_iff (h : Refines before p r) {entry : Str}
    (htag : equalTag ∈ entry.chars) (n k : Str) :
    (⟨r.current, entry.chars⟩ : Entry).Assigns n.chars k.chars ↔
      n = p.currentSession ∧ k = (keyPart entry).trimmed := by
  constructor
  · rintro ⟨hn, -, hk⟩
    exact ⟨Str.ext (hn.symm.trans h.current.symm), Str.ext hk.symm⟩
  · rintro ⟨rfl, rfl⟩
    exact ⟨h.current.symm, htag, rfl⟩

theorem Refines.storeEntry (h : Refines before p r) (entry : Str) :
    ((⟨r.current, entry.chars⟩ : Entry).Sound ∧ ∃ q, storeEntry entry p = .ok q ∧
        Refines before q
          { r with pending := [], entries := r.entries ++ [⟨r.current, entry.chars⟩] }) ∨
      ¬ (⟨r.current, entry.chars⟩ : Entry).Sound ∧
        storeEntry entry p = .error (.undefined npos) := by
  obtain ⟨session, hsession⟩ := Option.isSome_iff_exists.mp (AList.lookup_isSome.mpr h.known)
  rw [IniLoad.storeEntry, hsession, sound_iff]
  by_cases htag : equalTag ∈ entry.chars
  · by_cases hsides : (keyPart entry).NotBlank ∧ (valuePart entry).NotBlank
    · rw [insertEntry_of_notBlank session htag hsides.1 hsides.2]
      refine .inl ⟨fun _ => hsides, _, rfl, h.write ?_⟩
      intro n k
      rw [lookupValue_insert hsession, Option.map_or]
      simp only [h.assigns_iff htag]
      split_ifs with hboth
      · rfl
      · rfl
    · rw [insertEntry_of_blank session htag hsides]
      exact .inr ⟨fun hsound => hsides (hsound htag), rfl⟩
  · rw [insertEntry_of_not_mem session htag]
    refine .inl ⟨fun hmem => absurd hmem htag, _, rfl, h.write ?_⟩
    intro n k
    rw [lookupValue_insert_self hsession, if_neg fun hassigns => htag hassigns.2.1, Option.or_none]

/-- What comes of some lines: the loop and the reader stay together, unless an entry with a blank
side makes `strip` read outside of a string. -/
inductive Follows (before : Sections) (r : Reader) : Parse × Option Fault → Prop where
  | reads {q : Parse} : AllSound r.entries → Refines before q r → Follows before r (q, none)
  | faults {q : Parse} : ¬ AllSound r.entries → Follows before r (q, some (.undefined npos))

theorem Refines.step (h : Refines before p r) (hold : AllSound r.entries) (text : Bytes)
    (hsize : r.pending.length + text.length < 2 ^ 63) :
    (AllSound (r.step text).entries ∧
        ∃ q, parseText text p = .ok q ∧ Refines before q (r.step text)) ∨
      ¬ AllSound (r.step text).entries ∧ parseText text p = .error (.undefined npos) := by
  have hlt : (r.pending ++ text).length < 2 ^ 63 := by rwa [List.length_append]
  unfold Reader.step parseText
  cases hkind : kind text with
  | skipped => exact .inl ⟨hold, p, rfl, h⟩
  | session =>
    have hname : text.dropLast.tail.length < 2 ^ 63 := by
      rw [List.length_tail, List.length_dropLast]
      omega
    exact .inl ⟨hold, _, by rw [ofChars_of_lt hname]; rfl, h.session ⟨_, hname⟩⟩
  | continued =>
    have hne : text ≠ [] := by
      rintro rfl
      cases hkind
    rw [h.appendLine hlt]
    exact .inl ⟨hold, h.continueEntry hne rfl⟩
  | last =>
    rw [h.appendLine hlt, AllSound, List.forall_mem_append, List.forall_mem_singleton]
    rcases h.storeEntry ⟨_, hlt⟩ with ⟨hnew, q, hstore, hrefines⟩ | ⟨hnew, hstore⟩
    · exact .inl ⟨⟨hold, hnew⟩, q, hstore, hrefines⟩
    · exact .inr ⟨fun hboth => hnew hboth.2, hstore⟩

theorem Refines.run (h : Refines before p r) (hold : AllSound r.entries) (lines : List Str)
    (hsize : r.pending.length + (lines.map Str.chars).flatten.length < 2 ^ 63) :
    Follows before (r.run (lines.map Str.chars)) (parseLines lines p) := by
  induction lines generalizing p r with
  | nil => exact .reads hold h
  | cons line rest ih =>
    have hstripped := length_stripped_le line.chars
    have hgrown := r.length_pending_step (stripped line.chars)
    simp only [List.map_cons, List.flatten_cons, List.length_append] at hsize
    rw [parseLines, parseLine_eq]
    rcases h.step hold (stripped line.chars) (by omega) with
      ⟨hsound, q, hline, hq⟩ | ⟨hunsound, hline⟩
    · rw [hline]
      exact ih hq hsound (by omega)
    · rw [hline]
      exact .faults fun hsound => hunsound fun e he => hsound e (Reader.mem_entries_run he _)

end Refinement

end IniFile
