import Mathlib.Data.List.AList

/-! # Maps in order of use

A finite map of bounded size from which the key that was not used for the longest time goes
first. `AList.insert` puts a key in front of all others, so an association list is in order of
use when every use is an insertion. What happened to the map is a history of events, newest
first. -/
namespace RecencyMap

variable {κ υ : Type*} [DecidableEq κ]

abbrev Entries (κ υ : Type*) := AList (fun _ : κ => υ)

inductive Call (κ υ : Type*) where
  | get (key : κ)
  | put (key : κ) (value : υ)
  | erase (key : κ)
  | clear

structure Event (κ υ : Type*) where
  call : Call κ υ
  found : Option υ := none
  evicted : List κ := []

def keep (n : ℕ) (m : Entries κ υ) : Entries κ υ :=
  ⟨m.entries.take n, m.nodupKeys.sublist (List.take_sublist n _)⟩

/-- `room` is the number of entries that may stay beside a new one. -/
def step (room : ℕ) (m : Entries κ υ) : Call κ υ → Event κ υ × Entries κ υ
  | .get key =>
    match m.lookup key with
    | none => ({ call := .get key }, m)
    | some value => ({ call := .get key, found := some value }, m.insert key value)
  | .put key value =>
    match m.lookup key with
    | some _ => ({ call := .put key value }, m.insert key value)
    | none =>
      ({ call := .put key value, evicted := (m.keys.drop room).reverse },
        (keep room m).insert key value)
  | .erase key => ({ call := .erase key }, m.erase key)
  | .clear => ({ call := .clear }, ∅)

def runFrom (room : ℕ) : List (Call κ υ) → List (Event κ υ) → Entries κ υ →
    List (Event κ υ) × Entries κ υ
  | [], history, m => (history, m)
  | call :: calls, history, m =>
    runFrom room calls ((step room m call).1 :: history) (step room m call).2

section History

/-- The value last put under the key, unless it was erased, cleared or evicted since. -/
def lastPut (key : κ) : List (Event κ υ) → Option υ
  | [] => none
  | e :: history =>
    match e.call with
    | .get _ => lastPut key history
    | .put k value =>
      if k = key then some value else if key ∈ e.evicted then none else lastPut key history
    | .erase k => if k = key then none else lastPut key history
    | .clear => none

def usedKey : Call κ υ → Option κ
  | .get key => some key
  | .put key _ => some key
  | .erase _ => none
  | .clear => none

def lastUse (key : κ) : List (Event κ υ) → ℕ
  | [] => 0
  | e :: history =>
    if usedKey e.call = some key then history.length + 1 else lastUse key history

theorem lastUse_le (key : κ) (history : List (Event κ υ)) :
    lastUse key history ≤ history.length := by
  induction history with
  | nil => exact le_rfl
  | cons e history ih =>
    rw [lastUse, List.length_cons]
    split
    · exact le_rfl
    · exact Nat.le_succ_of_le ih

end History

section Keep

omit [DecidableEq κ] in
theorem keys_keep (n : ℕ) (m : Entries κ υ) : (keep n m).keys = m.keys.take n := List.map_take

theorem mem_lookup_keep {n : ℕ} {m : Entries κ υ} {key : κ} {value : υ} :
    (keep n m).lookup key = some value ↔
      key ∈ m.keys.take n ∧ m.lookup key = some value := by
  have hkept : (keep n m).lookup key = some value ↔ ⟨key, value⟩ ∈ m.entries.take n :=
    AList.mem_lookup_iff
  have hall : m.lookup key = some value ↔ ⟨key, value⟩ ∈ m.entries := AList.mem_lookup_iff
  rw [hkept, hall, ← keys_keep]
  constructor
  · intro hmem
    exact ⟨List.mem_keys_of_mem hmem, List.mem_of_mem_take hmem⟩
  · rintro ⟨hkey, hmem⟩
    obtain ⟨value', hmem'⟩ := List.exists_of_mem_keys hkey
    have heq := m.nodupKeys.eq_of_mk_mem hmem (List.mem_of_mem_take hmem')
    rw [heq]
    exact hmem'

theorem lookup_keep (n : ℕ) (m : Entries κ υ) (key : κ) :
    (keep n m).lookup key = if key ∈ m.keys.take n then m.lookup key else none := by
  apply Option.ext
  intro value
  rw [mem_lookup_keep]
  split
  · next hkey => simp [hkey]
  · next hkey => simp [hkey]

theorem lookup_keep_eq (n : ℕ) (m : Entries κ υ) (key : κ) :
    (keep n m).lookup key = if key ∈ (m.keys.drop n).reverse then none else m.lookup key := by
  rw [lookup_keep]
  simp only [List.mem_reverse]
  have hnodup := m.keys_nodup
  rw [← List.take_append_drop n m.keys, List.nodup_append] at hnodup
  by_cases htake : key ∈ m.keys.take n
  · rw [if_pos htake, if_neg fun hdrop => hnodup.2.2 key htake key hdrop rfl]
  · rw [if_neg htake]
    split
    · rfl
    · next hdrop =>
      symm
      rw [AList.lookup_eq_none, AList.mem_keys, ← List.take_append_drop n m.keys, List.mem_append]
      exact not_or.mpr ⟨htake, hdrop⟩

theorem step_put_length (m : Entries κ υ) (key : κ) (value : υ) :
    step m.keys.length m (.put key value) = ({ call := .put key value }, m.insert key value) := by
  have hkeep : keep m.keys.length m = m := by
    apply AList.ext
    exact List.take_of_length_le (Nat.le_of_eq (List.length_map _).symm)
  rw [step]
  cases m.lookup key with
  | some _ => rfl
  | none => simp [hkeep]

end Keep

section Follows

structure Follows (room : ℕ) (history : List (Event κ υ)) (m : Entries κ υ) : Prop where
  lookup : ∀ key, m.lookup key = lastPut key history
  inOrder : m.keys.Pairwise fun a b => lastUse b history < lastUse a history
  length : m.keys.length ≤ room + 1

theorem follows_empty (room : ℕ) : Follows room [] (∅ : Entries κ υ) :=
  ⟨fun _ => rfl, by simp, by simp⟩

variable {room : ℕ} {history : List (Event κ υ)} {e : Event κ υ}

theorem inOrder_of_unused {keys : List κ} (hunused : ∀ k ∈ keys, usedKey e.call ≠ some k)
    (h : keys.Pairwise fun a b => lastUse b history < lastUse a history) :
    keys.Pairwise fun a b => lastUse b (e :: history) < lastUse a (e :: history) := by
  refine h.imp_of_mem fun {a b} ha hb hlt => ?_
  rw [lastUse, lastUse, if_neg (hunused a ha), if_neg (hunused b hb)]
  exact hlt

theorem inOrder_of_used {key : κ} {keys : List κ} (hused : usedKey e.call = some key)
    (hnodup : keys.Nodup)
    (h : keys.Pairwise fun a b => lastUse b history < lastUse a history) :
    (key :: keys.erase key).Pairwise fun a b =>
      lastUse b (e :: history) < lastUse a (e :: history) := by
  have hunused : ∀ k ∈ keys.erase key, usedKey e.call ≠ some k := by
    intro k hk heq
    rw [hused] at heq
    exact (hnodup.mem_erase_iff.mp hk).1 (Option.some.inj heq).symm
  refine List.pairwise_cons.mpr ⟨fun k hk => ?_, inOrder_of_unused hunused (h.sublist
    List.erase_sublist)⟩
  rw [lastUse, lastUse, if_pos hused, if_neg (hunused k hk)]
  exact Nat.lt_succ_of_le (lastUse_le k history)

theorem length_cons_erase {key : κ} {keys : List κ} (h : key ∈ keys) :
    (key :: keys.erase key).length = keys.length := by
  rw [List.length_cons, List.length_erase_of_mem h]
  exact Nat.sub_add_cancel (List.length_pos_of_mem h)

theorem mem_keys_of_lookup {m : Entries κ υ} {key : κ} {value : υ}
    (h : m.lookup key = some value) : key ∈ m.keys :=
  AList.mem_keys.mp (AList.lookup_isSome.mp (by rw [h]; rfl))

variable {m : Entries κ υ}

theorem follows_insert (h : Follows room history m) {key : κ} {value : υ} (hkey : key ∈ m.keys)
    (hused : usedKey e.call = some key) (hput : lastPut key (e :: history) = some value)
    (hother : ∀ k, k ≠ key → lastPut k (e :: history) = lastPut k history) :
    Follows room (e :: history) (m.insert key value) := by
  refine ⟨fun k => ?_, ?_, ?_⟩
  · by_cases hk : k = key
    · rw [hk, AList.lookup_insert, hput]
    · rw [AList.lookup_insert_ne hk, h.lookup, hother k hk]
  · rw [AList.keys_insert]
    exact inOrder_of_used hused m.keys_nodup h.inOrder
  · rw [AList.keys_insert, length_cons_erase hkey]
    exact h.length

theorem follows_put_new (h : Follows room history m) (key : κ) (value : υ) :
    Follows room
      ({ call := .put key value, evicted := (m.keys.drop room).reverse } :: history)
      ((keep room m).insert key value) := by
  refine ⟨fun k => ?_, ?_, ?_⟩
  · by_cases hk : k = key
    · rw [hk, AList.lookup_insert]
      exact (if_pos rfl).symm
    · rw [AList.lookup_insert_ne hk, lookup_keep_eq, h.lookup]
      exact (if_neg (Ne.symm hk)).symm
  · rw [AList.keys_insert, keys_keep]
    exact inOrder_of_used rfl (m.keys_nodup.sublist (List.take_sublist _ _))
      (h.inOrder.sublist (List.take_sublist _ _))
  · rw [AList.keys_insert, keys_keep, List.length_cons]
    have hle : ((m.keys.take room).erase key).length ≤ (m.keys.take room).length :=
      List.erase_sublist.length_le
    rw [List.length_take] at hle
    omega

theorem follows_erase (h : Follows room history m) (key : κ) :
    Follows room ({ call := .erase key } :: history) (m.erase key) := by
  refine ⟨fun k => ?_, ?_, ?_⟩
  · by_cases hk : k = key
    · rw [hk, AList.lookup_erase]
      exact (if_pos rfl).symm
    · rw [AList.lookup_erase_ne hk, h.lookup]
      exact (if_neg (Ne.symm hk)).symm
  · rw [AList.keys_erase]
    exact inOrder_of_unused (fun _ _ => nofun) (h.inOrder.sublist List.erase_sublist)
  · rw [AList.keys_erase]
    exact Nat.le_trans List.erase_sublist.length_le h.length

theorem step_follows (h : Follows room history m) (call : Call κ υ) :
    Follows room ((step room m call).1 :: history) (step room m call).2 := by
  cases call with
  | get key =>
    rw [step]
    cases hlookup : m.lookup key with
    | none =>
      refine ⟨h.lookup, inOrder_of_unused ?_ h.inOrder, h.length⟩
      intro k hk heq
      rw [AList.lookup_eq_none, AList.mem_keys] at hlookup
      exact hlookup ((Option.some.inj heq).symm ▸ hk)
    | some value =>
      exact follows_insert h (mem_keys_of_lookup hlookup) rfl ((h.lookup key).symm.trans hlookup)
        fun _ _ => rfl
  | put key value =>
    rw [step]
    cases hlookup : m.lookup key with
    | some old =>
      refine follows_insert h (mem_keys_of_lookup hlookup) rfl (if_pos rfl) fun k hk => ?_
      exact (if_neg hk.symm).trans (if_neg List.not_mem_nil)
    | none => exact follows_put_new h key value
  | erase key => exact follows_erase h key
  | clear => exact ⟨fun _ => rfl, by simp [step], by simp [step]⟩

theorem runFrom_follows (h : Follows room history m) (calls : List (Call κ υ)) :
    Follows room (runFrom room calls history m).1 (runFrom room calls history m).2 := by
  induction calls generalizing history m with
  | nil => exact h
  | cons call calls ih => exact ih (step_follows h call)

end Follows

end RecencyMap
