import LsmStorage.IniFile

/-! # Calls of load and put

Files are loaded one after the other and values are put. No call changes a value that is there. -/
namespace IniCalls

open ByteCodec StringStrip IniConfig IniLoad IniFile

section Load

def start (sections : Sections) : Parse :=
  ⟨switchSession defaultSection sections, defaultSection, false, emptyStr⟩

variable (sections : Sections)

theorem refines_start : Refines sections (start sections) ⟨[], [], []⟩ := by
  refine ⟨rfl, mem_switchSession defaultSection sections, rfl, ?_⟩
  intro name key
  rw [start, lookupValue_switchSession]
  exact Option.or_none.symm

/-- A file whose entries have two sides is loaded: what a session has for a key is kept, and the
first entry for any other key is taken. A file with another entry makes `load` read outside of a
string. -/
theorem load_eq (text : Str) :
    (AllSound (fileEntries text.chars) ∧ ∃ after, load sections (some text) = .ok (0, after) ∧
        ∀ name key, (lookupValue after name key).map Str.chars =
          ((lookupValue sections name key).map Str.chars).or
            (firstValue name.chars key.chars (fileEntries text.chars))) ∨
      ¬ AllSound (fileEntries text.chars) ∧
        load sections (some text) = .error (.undefined npos) := by
  obtain ⟨lines, hlines, hrun⟩ := run_lines text
  have hlength := length_fileLines_le text
  have hfits := text.fits
  have hload : load sections (some text) = finish (some (parseLines lines (start sections))) := by
    rw [← hrun _ _ le_rfl]
    rfl
  have hfollows := (refines_start sections).run (fun _ he => absurd he List.not_mem_nil) lines
    (show 0 + (lines.map Str.chars).flatten.length < 2 ^ 63 by rw [hlines]; omega)
  rw [hlines] at hfollows
  rw [hload]
  generalize parseLines lines (start sections) = out at hfollows
  cases hfollows with
  | reads hsound hq => exact .inl ⟨hsound, _, rfl, hq.value⟩
  | faults hunsound => exact .inr ⟨hunsound, rfl⟩

theorem load_unopened :
    load sections none = .ok (0, switchSession defaultSection sections) := rfl

theorem put_eq (key value name : Str) :
    ∃ after, put sections key value name = .ok (0, after) ∧
      ∀ n k, lookupValue after n k =
        (lookupValue sections n k).or (if n = name ∧ k = key then some value else none) := by
  have hmem := mem_switchSession name sections
  obtain ⟨session, hsession⟩ := Option.isSome_iff_exists.mp (AList.lookup_isSome.mpr hmem)
  refine ⟨(switchSession name sections).insert name (IniConfig.insert key value session), ?_, ?_⟩
  · rw [put, hsession]
  · intro n k
    rw [lookupValue_insert hsession, lookupValue_switchSession]

end Load

section Calls

inductive Call where
  | load (file : Option Str)
  | put (key value name : Str)

namespace Call

def perform (sections : Sections) : Call → Except Fault Sections
  | .load file => (IniLoad.load sections file).map Prod.snd
  | .put key value name => (IniLoad.put sections key value name).map Prod.snd

def value (name key : Str) : Call → Option Bytes
  | .load file => file.bind fun text => firstValue name.chars key.chars (fileEntries text.chars)
  | .put k v n => if name = n ∧ key = k then some v.chars else none

def Sound : Call → Prop
  | .load (some text) => AllSound (fileEntries text.chars)
  | .load none | .put _ _ _ => True

theorem perform_eq (sections : Sections) (call : Call) :
    (call.Sound ∧ ∃ after, call.perform sections = .ok after ∧
        ∀ name key, (lookupValue after name key).map Str.chars =
          ((lookupValue sections name key).map Str.chars).or (call.value name key)) ∨
      ¬ call.Sound ∧ call.perform sections = .error (.undefined npos) := by
  match call with
  | .load none =>
    refine .inl ⟨trivial, _, congrArg (Except.map Prod.snd) (load_unopened sections), ?_⟩
    intro name key
    rw [lookupValue_switchSession]
    exact Option.or_none.symm
  | .load (some text) =>
    rcases load_eq sections text with ⟨hsound, after, hload, hvalue⟩ | ⟨hunsound, hload⟩
    · exact .inl ⟨hsound, after, congrArg (Except.map Prod.snd) hload, hvalue⟩
    · exact .inr ⟨hunsound, congrArg (Except.map Prod.snd) hload⟩
  | .put k v n =>
    obtain ⟨after, hput, hvalue⟩ := put_eq sections k v n
    refine .inl ⟨trivial, after, congrArg (Except.map Prod.snd) hput, ?_⟩
    intro name key
    rw [hvalue, Option.map_or, value]
    split_ifs with hboth
    · rfl
    · rfl

end Call

/-- The calls all return exactly if they are sound. A key then has the value that it had, or that of
the first call with a value for it; no later call changes it. -/
theorem get_after_calls (sections : Sections) (calls : List Call) :
    ((∀ call ∈ calls, call.Sound) ∧ ∃ after, calls.foldlM Call.perform sections = .ok after ∧
        ∀ key defaultValue name, (get after key defaultValue name).chars =
          (((lookupValue sections name key).map Str.chars).or
            (calls.findSome? (Call.value name key))).getD defaultValue.chars) ∨
      (¬ ∀ call ∈ calls, call.Sound) ∧
        calls.foldlM Call.perform sections = .error (.undefined npos) := by
  induction calls generalizing sections with
  | nil =>
    refine .inl ⟨fun _ hcall => absurd hcall List.not_mem_nil, sections, rfl, ?_⟩
    intro key defaultValue name
    rw [get_eq, List.findSome?_nil, Option.or_none, Option.getD_map]
  | cons call rest ih =>
    rw [List.foldlM_cons, List.forall_mem_cons]
    rcases call.perform_eq sections with ⟨hsound, next, hnext, hvalue⟩ | ⟨hunsound, hfault⟩
    · rw [hnext]
      rcases ih next with ⟨hall, after, hrest, hafter⟩ | ⟨hnot, hrest⟩
      · refine .inl ⟨⟨hsound, hall⟩, after, hrest, ?_⟩
        intro key defaultValue name
        rw [hafter, hvalue, Option.or_assoc, List.findSome?_cons]
        cases call.value name key with
        | none => rfl
        | some value => rfl
      · exact .inr ⟨fun hboth => hnot hboth.2, hrest⟩
    · rw [hfault]
      exact .inr ⟨fun hboth => hunsound hboth.1, rfl⟩

end Calls

end IniCalls
