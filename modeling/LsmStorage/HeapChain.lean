import Mathlib.Data.List.Basic
import Mathlib.Data.List.Forall2
import Mathlib.Data.Finset.Card
import Mathlib.Data.Finset.Range
import Mathlib.Data.List.TakeWhile
import Mathlib.Logic.Function.Basic

/-! # Chains of nodes in a heap

A heap maps addresses to nodes and a node has one link. The chain that starts at a pointer
and ends in a null pointer is determined by the heap, never meets an address twice, and
is walked by following links with a bounded number of steps. -/
namespace HeapChain

variable {ν : Type*} {heap heap' : ℕ → Option ν} {link : ν → Option ℕ}
  {ps qs : List ℕ} {start : Option ℕ} {p : ℕ}

inductive Path (heap : ℕ → Option ν) (link : ν → Option ℕ) : Option ℕ → List ℕ → Prop where
  | nil : Path heap link none []
  | cons {p : ℕ} {n : ν} {ps : List ℕ} : heap p = some n → Path heap link (link n) ps →
      Path heap link (some p) (p :: ps)

theorem Path.unique (hp : Path heap link start ps) (hq : Path heap link start qs) : ps = qs := by
  induction hp generalizing qs with
  | nil => cases hq; rfl
  | cons hn _ ih =>
    cases hq with
    | cons hm hrest =>
      rw [hn] at hm
      cases hm
      rw [ih hrest]

theorem Path.head? (h : Path heap link start ps) : start = ps.head? := by
  cases h <;> rfl

theorem Path.of_append (h : Path heap link start (ps ++ p :: qs)) :
    Path heap link (some p) (p :: qs) := by
  induction ps generalizing start with
  | nil =>
    cases h with
    | cons hn hrest => exact .cons hn hrest
  | cons q ps ih =>
    cases h with
    | cons hn hrest => exact ih hrest

theorem Path.nodup (h : Path heap link start ps) : ps.Nodup := by
  induction h with
  | nil => exact List.nodup_nil
  | @cons p n ps hn hrest ih =>
    refine List.nodup_cons.mpr ⟨?_, ih⟩
    intro hmem
    obtain ⟨pre, post, rfl⟩ := List.append_of_mem hmem
    have hagain := Path.unique (.cons hn hrest) hrest.of_append
    have hlen := congrArg List.length hagain
    simp at hlen
    omega

theorem Path.exists_node (h : Path heap link start ps) (hp : p ∈ ps) : ∃ n, heap p = some n := by
  obtain ⟨pre, post, rfl⟩ := List.append_of_mem hp
  cases h.of_append with
  | cons hn _ => exact ⟨_, hn⟩

section Segments

/-- A row of nodes that are linked to each other in both directions. Its ends are linked to
whatever stands before and behind it. -/
def Segment (link back : ν → Option ℕ) (heap : ℕ → Option ν) : Option ℕ → List ℕ → Option ℕ → Prop
  | _, [], _ => True
  | before, p :: ps, behind =>
    (∃ n, heap p = some n ∧ back n = before ∧ link n = ps.head?.or behind) ∧
      Segment link back heap (some p) ps behind

variable {back : ν → Option ℕ} {before behind : Option ℕ}

theorem segment_append : Segment link back heap before (ps ++ qs) behind ↔
    Segment link back heap before ps (qs.head?.or behind) ∧
      Segment link back heap (ps.getLast?.or before) qs behind := by
  induction ps generalizing before with
  | nil => simp [Segment]
  | cons p ps ih =>
    have hhead : (ps ++ qs).head?.or behind = ps.head?.or (qs.head?.or behind) := by
      rw [List.head?_append, Option.or_assoc]
    have hlast : (p :: ps).getLast?.or before = ps.getLast?.or (some p) := by
      rw [List.getLast?_cons, Option.some_or, Option.or_some]
    rw [List.cons_append, Segment, Segment, ih, hhead, hlast, and_assoc]

theorem Segment.frame (h : Segment link back heap before ps behind)
    (hsame : ∀ q ∈ ps, ∀ n, heap q = some n →
      ∃ m, heap' q = some m ∧ back m = back n ∧ link m = link n) :
    Segment link back heap' before ps behind := by
  induction ps generalizing before with
  | nil => trivial
  | cons p ps ih =>
    obtain ⟨⟨n, hn, hback, hlink⟩, hrest⟩ := h
    obtain ⟨m, hm, hback', hlink'⟩ := hsame p List.mem_cons_self n hn
    refine ⟨⟨m, hm, hback'.trans hback, hlink'.trans hlink⟩, ih hrest fun q hq => ?_⟩
    exact hsame q (List.mem_cons_of_mem p hq)

theorem Segment.frame_eq (h : Segment link back heap before ps behind)
    (hsame : ∀ q ∈ ps, heap' q = heap q) : Segment link back heap' before ps behind :=
  h.frame fun q hq n hn => ⟨n, (hsame q hq).trans hn, rfl, rfl⟩

theorem Segment.update_other (h : Segment link back heap before ps behind) (hp : p ∉ ps)
    (n : Option ν) : Segment link back (Function.update heap p n) before ps behind :=
  h.frame_eq fun _ hq => Function.update_of_ne (ne_of_mem_of_not_mem hq hp) _ _

theorem Segment.path (h : Segment link back heap before ps none) :
    Path heap link ps.head? ps := by
  induction ps generalizing before with
  | nil => exact .nil
  | cons p ps ih =>
    obtain ⟨⟨n, hn, -, hlink⟩, hrest⟩ := h
    refine .cons hn ?_
    rw [hlink, Option.or_none]
    exact ih hrest

theorem Segment.path_reverse (h : Segment link back heap none ps behind) :
    Path heap back ps.getLast? ps.reverse := by
  induction ps using List.reverseRecOn generalizing behind with
  | nil => exact .nil
  | append_singleton ps p ih =>
    obtain ⟨hrest, ⟨n, hn, hback, -⟩, -⟩ := segment_append.mp h
    rw [List.reverse_append, List.getLast?_append, List.getLast?_singleton, Option.some_or]
    refine .cons hn ?_
    rw [hback, Option.or_none]
    exact ih hrest

end Segments

theorem length_le_of_nodup_of_lt {bound : ℕ} (h : ps.Nodup) (hlt : ∀ p ∈ ps, p < bound) :
    ps.length ≤ bound := by
  have hsub : ps.toFinset ⊆ Finset.range bound := by
    intro p hp
    exact Finset.mem_range.mpr (hlt p (List.mem_toFinset.mp hp))
  have hcard := Finset.card_le_card hsub
  rwa [List.toFinset_card_of_nodup h, Finset.card_range] at hcard

/-- Follow the links until a node satisfies `stop`, in at most `fuel` steps. The outer
`none` is a dangling pointer or a walk that has not ended, the inner one the null pointer. -/
def follow (heap : ℕ → Option ν) (link : ν → Option ℕ) (stop : ν → Bool) :
    ℕ → Option ℕ → Option (Option ℕ)
  | _, none => some none
  | 0, some _ => none
  | fuel + 1, some p =>
    match heap p with
    | none => none
    | some n => if stop n then some (some p) else follow heap link stop fuel (link n)

def stopsAt (heap : ℕ → Option ν) (stop : ν → Bool) (p : ℕ) : Bool := (heap p).any stop

theorem follow_eq_find? {stop : ν → Bool} {fuel : ℕ} (h : Path heap link start ps)
    (hfuel : ps.length ≤ fuel) :
    follow heap link stop fuel start = some (ps.find? (stopsAt heap stop)) := by
  induction h generalizing fuel with
  | nil => cases fuel <;> rfl
  | @cons p n ps hn hrest ih =>
    cases fuel with
    | zero => simp at hfuel
    | succ fuel =>
      simp only [follow, hn, List.find?_cons, stopsAt, Option.any_some]
      cases hstop : stop n with
      | true => rfl
      | false => exact ih (Nat.le_of_succ_le_succ hfuel)

theorem filterMap_dropWhile {stop : ν → Bool} (h : ∀ p ∈ ps, heap p ≠ none) :
    (ps.dropWhile fun p => !stopsAt heap stop p).filterMap heap =
      (ps.filterMap heap).dropWhile fun n => !stop n := by
  induction ps with
  | nil => rfl
  | cons p ps ih =>
    have hrest := ih fun q hq => h q (List.mem_cons_of_mem p hq)
    obtain ⟨n, hn⟩ := Option.ne_none_iff_exists'.mp (h p List.mem_cons_self)
    rw [List.filterMap_cons_some hn, List.dropWhile_cons, List.dropWhile_cons]
    cases hstop : stop n with
    | true => simp [stopsAt, hn, hstop]
    | false => simpa [stopsAt, hn, hstop] using hrest

def addresses (heap : ℕ → Option ν) (link : ν → Option ℕ) : ℕ → Option ℕ → List ℕ
  | _, none => []
  | 0, some _ => []
  | fuel + 1, some p =>
    match heap p with
    | none => []
    | some n => p :: addresses heap link fuel (link n)

theorem addresses_eq {fuel : ℕ} (h : Path heap link start ps) (hfuel : ps.length ≤ fuel) :
    addresses heap link fuel start = ps := by
  induction h generalizing fuel with
  | nil => cases fuel <;> rfl
  | @cons p n ps hn hrest ih =>
    cases fuel with
    | zero => simp at hfuel
    | succ fuel => simp only [addresses, hn, ih (Nat.le_of_succ_le_succ hfuel)]

def modify (heap : ℕ → Option ν) (p : ℕ) (f : ν → ν) : ℕ → Option ν :=
  Function.update heap p ((heap p).map f)

@[simp] theorem modify_self (heap : ℕ → Option ν) (p : ℕ) (f : ν → ν) :
    modify heap p f p = (heap p).map f := by
  simp [modify]

theorem modify_of_ne (heap : ℕ → Option ν) (f : ν → ν) {q : ℕ} (h : q ≠ p) :
    modify heap p f q = heap q := by
  simp [modify, h]

theorem forall₂_modify (f : ν → ν) (p : ℕ) (h : ∀ q ∈ ps, heap q ≠ none) :
    List.Forall₂ (fun n n' => n' = n ∨ n' = f n) (ps.filterMap heap)
      (ps.filterMap (modify heap p f)) := by
  induction ps with
  | nil => exact .nil
  | cons q ps ih =>
    obtain ⟨n, hn⟩ := Option.ne_none_iff_exists'.mp (h q List.mem_cons_self)
    have hrest := ih fun x hx => h x (List.mem_cons_of_mem q hx)
    by_cases hq : q = p
    · subst hq
      rw [List.filterMap_cons_some hn,
        List.filterMap_cons_some (b := f n) (by rw [modify_self, hn, Option.map_some])]
      exact .cons (Or.inr rfl) hrest
    · rw [List.filterMap_cons_some hn,
        List.filterMap_cons_some (b := n) (by rw [modify_of_ne heap f hq, hn])]
      exact .cons (Or.inl rfl) hrest

theorem exists_mem_of_forall₂ {α β : Type*} {R : α → β → Prop} {l : List α} {m : List β}
    (h : List.Forall₂ R l m) {b : β} (hb : b ∈ m) : ∃ a ∈ l, R a b := by
  induction h with
  | nil => cases hb
  | @cons a _ _ _ hab _ ih =>
    rcases List.mem_cons.mp hb with rfl | hb
    · exact ⟨a, List.mem_cons_self, hab⟩
    · obtain ⟨a', ha', hab'⟩ := ih hb
      exact ⟨a', List.mem_cons_of_mem a ha', hab'⟩

end HeapChain
