import LsmStorage.StringStrip
import Mathlib.Data.List.AList

/-! # Ini

An entry of a configuration is the text before the first `=` and the text behind it, both stripped.
The map of a session keeps what it has for a key. -/
namespace IniConfig

open ByteCodec StringStrip

abbrev Session := AList fun _ : Str => Str

section Entry

variable {β : Type}

def insert (key : Str) (value : β) (map : AList fun _ : Str => β) : AList fun _ : Str => β :=
  if key ∈ map then map else map.insert key value

theorem lookup_insert (key : Str) (value : β) (map : AList fun _ : Str => β) (k : Str) :
    (insert key value map).lookup k =
      if k = key then some ((map.lookup key).getD value) else map.lookup k := by
  unfold insert
  by_cases hk : k = key
  · subst hk
    rw [if_pos rfl]
    split_ifs with hmem
    · obtain ⟨old, hold⟩ := Option.isSome_iff_exists.mp (AList.lookup_isSome.mpr hmem)
      rw [hold]
      rfl
    · rw [AList.lookup_insert, AList.lookup_eq_none.mpr hmem]
      rfl
  · rw [if_neg hk]
    split_ifs with hmem
    · rfl
    · exact AList.lookup_insert_ne hk

def equalTag : UInt8 := 0x3d

def findFirstOf (c : UInt8) (line : Str) : UInt64 :=
  match line.chars.findIdx? (· == c) with
  | some i => UInt64.ofNat i
  | none => npos

/-- The result and the map behind the pointer, if it is not null. -/
def insertEntry (sessionMap : Option Session) (line : Str) :
    Except Fault (ℤ × Option Session) :=
  match sessionMap with
  | none => .ok (-1, none)
  | some session =>
    let equalPos := findFirstOf equalTag line
    if equalPos = npos then .ok (-1, some session)
    else do
      let key ← line.substr 0 equalPos
      let value ← line.substr (equalPos + 1) npos
      let key ← strip key
      let value ← strip value
      .ok (0, some (insert key value session))

end Entry

section Sides

def keyPart (line : Str) : Str where
  chars := line.chars.takeWhile (· != equalTag)
  fits := lt_of_le_of_lt (List.takeWhile_sublist _).length_le line.fits

def valuePart (line : Str) : Str where
  chars := (line.chars.dropWhile (· != equalTag)).tail
  fits :=
    lt_of_le_of_lt ((List.tail_sublist _).trans (List.dropWhile_sublist _)).length_le line.fits

variable {line : Str} {session : Session}

theorem line_parts (h : equalTag ∈ line.chars) :
    line.chars = (keyPart line).chars ++ equalTag :: (valuePart line).chars :=
  cut_first h

theorem findFirstOf_equalTag (h : equalTag ∈ line.chars) :
    findFirstOf equalTag line = UInt64.ofNat (keyPart line).chars.length := by
  have hnone : (keyPart line).chars.findIdx? (· == equalTag) = none := by
    apply List.findIdx?_eq_none_iff.mpr
    intro c hc
    have htag := List.mem_takeWhile_imp hc
    simpa using htag
  have hfind : line.chars.findIdx? (· == equalTag) = some (keyPart line).chars.length := by
    rw [line_parts h, List.findIdx?_append, hnone, List.findIdx?_cons]
    simp
  rw [findFirstOf, hfind]

theorem insertEntry_eq (session : Session) (h : equalTag ∈ line.chars) :
    insertEntry (some session) line =
      (strip (keyPart line)).bind fun key => (strip (valuePart line)).bind fun value =>
        .ok (0, some (insert key value session)) := by
  have hparts := line_parts h
  have hlength := congrArg List.length hparts
  have hfits := line.fits
  simp only [List.length_append, List.length_cons] at hlength
  have hpos := toNat_ofNat_of_le line
    (show (keyPart line).chars.length ≤ line.chars.length by omega)
  have hnext : (UInt64.ofNat (keyPart line).chars.length + 1).toNat =
      (keyPart line).chars.length + 1 := by
    rw [UInt64.toNat_add, hpos]
    have hone : (1 : UInt64).toNat = 1 := rfl
    omega
  have hne : UInt64.ofNat (keyPart line).chars.length ≠ npos := by
    intro heq
    rw [heq] at hpos
    have hnpos : npos.toNat = 2 ^ 64 - 1 := rfl
    omega
  have hkey : line.substr 0 (UInt64.ofNat (keyPart line).chars.length) = .ok (keyPart line) := by
    apply substr_of_le (Nat.zero_le _)
    rw [hpos]
    show line.chars.take _ = _
    conv_lhs => rw [hparts]
    exact List.take_left
  have hvalue : line.substr (UInt64.ofNat (keyPart line).chars.length + 1) npos =
      .ok (valuePart line) := by
    apply substr_of_le
    · omega
    · have hdrop : line.chars.drop ((keyPart line).chars.length + 1) = (valuePart line).chars := by
        conv_lhs => rw [hparts, ← List.drop_drop, List.drop_left]
        rfl
      rw [hnext, hdrop]
      apply List.take_of_length_le
      have hnpos : npos.toNat = 2 ^ 64 - 1 := rfl
      omega
  simp only [insertEntry, findFirstOf_equalTag h, hne, if_false, hkey, hvalue]
  rfl

def Stores (session : Session) (line : Str) : Prop :=
  ∃ after, insertEntry (some session) line = .ok (0, some after) ∧
    ∀ k, after.lookup k =
      if k = (keyPart line).trimmed then some (valuePart line).trimmed else session.lookup k

theorem insertEntry_of_not_mem (session : Session) (h : equalTag ∉ line.chars) :
    insertEntry (some session) line = .ok (-1, some session) := by
  have hnone : line.chars.findIdx? (· == equalTag) = none := by
    apply List.findIdx?_eq_none_iff.mpr
    intro c hc
    rw [beq_eq_false_iff_ne]
    rintro rfl
    exact h hc
  have hpos : findFirstOf equalTag line = npos := by rw [findFirstOf, hnone]
  simp only [insertEntry, hpos, if_true]

theorem insertEntry_of_notBlank (session : Session) (h : equalTag ∈ line.chars)
    (hkey : (keyPart line).NotBlank) (hvalue : (valuePart line).NotBlank) :
    insertEntry (some session) line =
      .ok (0, some (insert (keyPart line).trimmed (valuePart line).trimmed session)) := by
  rw [insertEntry_eq session h, strip_of_notBlank hkey, strip_of_notBlank hvalue]
  rfl

theorem insertEntry_of_blank (session : Session) (h : equalTag ∈ line.chars)
    (hblank : ¬ ((keyPart line).NotBlank ∧ (valuePart line).NotBlank)) :
    insertEntry (some session) line = .error (.undefined npos) := by
  rw [insertEntry_eq session h]
  by_cases hkey : (keyPart line).NotBlank
  · have hvalue : ¬ (valuePart line).NotBlank := fun hvalue => hblank ⟨hkey, hvalue⟩
    rw [strip_of_notBlank hkey, strip_of_blank hvalue]
    rfl
  · rw [strip_of_blank hkey]
    rfl

theorem stores_iff (session : Session) (h : equalTag ∈ line.chars) :
    Stores session line ↔ ((keyPart line).NotBlank ∧ (valuePart line).NotBlank) ∧
      ∀ old, session.lookup (keyPart line).trimmed = some old → old = (valuePart line).trimmed := by
  constructor
  · rintro ⟨after, hinsert, hlookup⟩
    have hsides : (keyPart line).NotBlank ∧ (valuePart line).NotBlank := by
      by_contra hblank
      cases (insertEntry_of_blank session h hblank).symm.trans hinsert
    refine ⟨hsides, ?_⟩
    intro old hold
    cases (insertEntry_of_notBlank session h hsides.1 hsides.2).symm.trans hinsert
    have hkey := hlookup (keyPart line).trimmed
    rw [lookup_insert, if_pos rfl, if_pos rfl, hold] at hkey
    exact Option.some.inj hkey
  · rintro ⟨⟨hkey, hvalue⟩, hold⟩
    refine ⟨_, insertEntry_of_notBlank session h hkey hvalue, ?_⟩
    intro k
    rw [lookup_insert]
    cases hlookup : session.lookup (keyPart line).trimmed with
    | none => rfl
    | some old =>
      rw [hold old hlookup]
      rfl

/-- `strip` is exact exactly for the strings that are not blank, and the entry of a line with `=` is
stored exactly if neither side is blank and the map has no other value for the key. -/
theorem trimming_exact_iff (str : Str) (session : Session) (line : Str) :
    (strip str = .ok str.trimmed ↔ str.NotBlank) ∧
      (equalTag ∈ line.chars →
        (Stores session line ↔ ((keyPart line).NotBlank ∧ (valuePart line).NotBlank) ∧
          ∀ old, session.lookup (keyPart line).trimmed = some old →
            old = (valuePart line).trimmed)) :=
  ⟨strip_eq_ok_iff str, stores_iff session⟩

def spacedLine : Str := ⟨[0x6b, 0x20, 0x3d, 0x20, 0x76], by decide⟩

/-- A space before and behind the key and the value. -/
theorem trimming_exact_spaced :
    strip spacedLine = .ok spacedLine.trimmed ∧ equalTag ∈ spacedLine.chars ∧
      Stores ∅ spacedLine :=
  have hexact := trimming_exact_iff spacedLine ∅ spacedLine
  ⟨hexact.1.mpr (by decide), by decide,
    (hexact.2 (by decide)).mpr ⟨by decide, fun _ hold => by cases hold⟩⟩

def valuelessLine : Str := ⟨[0x6b, 0x3d], by decide⟩

/-- An empty string is read before its first character, and so is the empty side of a line. -/
theorem empty_value_reads_outside :
    strip ⟨[], by decide⟩ = .error (.undefined npos) ∧
      strip ⟨[0x20], by decide⟩ = .error (.undefined npos) ∧
      equalTag ∈ valuelessLine.chars ∧ ¬ Stores ∅ valuelessLine := by
  refine ⟨rfl, rfl, by decide, ?_⟩
  rintro ⟨after, hinsert, -⟩
  have hfault : insertEntry (some ∅) valuelessLine = .error (.undefined npos) := rfl
  cases hfault.symm.trans hinsert

end Sides

end IniConfig
