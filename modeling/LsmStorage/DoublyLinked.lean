import LsmStorage.HeapChain
import LsmStorage.BoundedLoop

/-! # Doubly linked lists in a heap

A segment is a row of nodes that are linked to each other in both directions; its ends are linked
to whatever stands before and behind it. Lists are taken apart and put together again as
segments, and a walk along the links visits a list in one of the two orders. -/
namespace DoublyLinked

open HeapChain BoundedLoop

variable {α : Type*}

structure Node (α : Type*) where
  value : α
  prev : Option ℕ := none
  next : Option ℕ := none

abbrev Heap (α : Type*) := ℕ → Option (Node α)

section Writes

/-- A write through a pointer. Through a null or dangling one it is undefined, `none`. -/
def write (heap : Heap α) (p : Option ℕ) (f : Node α → Node α) : Option (Heap α) :=
  match p with
  | none => none
  | some p => (heap p).map fun n => Function.update heap p (some (f n))

def patch (heap : Heap α) (p : Option ℕ) (f : Node α → Node α) : Option (Heap α) :=
  if p = none then some heap else write heap p f

def setPrev (x : Option ℕ) (n : Node α) : Node α := { n with prev := x }

def setNext (x : Option ℕ) (n : Node α) : Node α := { n with next := x }

variable {heap heap' heap'' : Heap α} {n : Node α} {p : ℕ} {ps qs : List ℕ}

theorem write_some (h : heap p = some n) (f : Node α → Node α) :
    write heap (some p) f = some (Function.update heap p (some (f n))) := by
  rw [write, h, Option.map_some]

structure Relinked (heap heap' : Heap α) (ps : List ℕ) : Prop where
  other : ∀ q, q ∉ ps → heap' q = heap q
  value : ∀ q, (heap' q).map Node.value = (heap q).map Node.value

theorem Relinked.refl (heap : Heap α) (ps : List ℕ) : Relinked heap heap ps :=
  ⟨fun _ _ => rfl, fun _ => rfl⟩

theorem Relinked.trans (h : Relinked heap heap' ps) (h' : Relinked heap' heap'' ps) :
    Relinked heap heap'' ps :=
  ⟨fun q hq => (h'.other q hq).trans (h.other q hq), fun q => (h'.value q).trans (h.value q)⟩

theorem Relinked.mono (h : Relinked heap heap' ps) (hsub : ps ⊆ qs) : Relinked heap heap' qs :=
  ⟨fun q hq => h.other q fun hin => hq (hsub hin), h.value⟩

theorem relinked_update (h : heap p = some n) {n' : Node α} (hvalue : n'.value = n.value)
    (hp : p ∈ ps) : Relinked heap (Function.update heap p (some n')) ps := by
  refine ⟨fun q hq => Function.update_of_ne (ne_of_mem_of_not_mem hp hq).symm _ _, fun q => ?_⟩
  by_cases hq : q = p
  · rw [hq, Function.update_self, h, Option.map_some, Option.map_some, hvalue]
  · rw [Function.update_of_ne hq]

end Writes

section Segments

variable {heap heap' : Heap α} {before behind : Option ℕ} {p : ℕ} {ps qs : List ℕ}

theorem Relinked.segment (hsame : Relinked heap heap' qs)
    (h : Segment Node.next Node.prev heap before ps behind) (hdisjoint : ps.Disjoint qs) :
    Segment Node.next Node.prev heap' before ps behind :=
  h.frame_eq fun q hq => hsame.other q fun hin => hdisjoint hq hin

theorem patch_head (h : Segment Node.next Node.prev heap before ps behind) (hnodup : ps.Nodup)
    (x : Option ℕ) : ∃ heap', patch heap ps.head? (setPrev x) = some heap' ∧
      Segment Node.next Node.prev heap' x ps behind ∧ Relinked heap heap' ps := by
  cases ps with
  | nil => exact ⟨heap, rfl, trivial, .refl _ _⟩
  | cons p ps =>
    obtain ⟨⟨n, hn, -, hnext⟩, hrest⟩ := h
    exact ⟨_, write_some hn _, ⟨⟨_, Function.update_self .., rfl, hnext⟩,
      hrest.update_other (List.nodup_cons.mp hnodup).1 _⟩,
      relinked_update hn rfl List.mem_cons_self⟩

theorem patch_last (h : Segment Node.next Node.prev heap before ps behind) (hnodup : ps.Nodup)
    (x : Option ℕ) : ∃ heap', patch heap ps.getLast? (setNext x) = some heap' ∧
      Segment Node.next Node.prev heap' before ps x ∧ Relinked heap heap' ps := by
  rcases List.eq_nil_or_concat' ps with rfl | ⟨ps, p, rfl⟩
  · exact ⟨heap, rfl, trivial, .refl _ _⟩
  · rw [segment_append] at h
    obtain ⟨hrest, ⟨n, hn, hprev, -⟩, -⟩ := h
    rw [List.getLast?_append, List.getLast?_singleton, Option.some_or]
    refine ⟨_, write_some hn _, segment_append.mpr ⟨hrest.update_other ?_ _,
      ⟨_, Function.update_self .., hprev, rfl⟩, trivial⟩, relinked_update hn rfl (by simp)⟩
    intro hp
    exact (List.nodup_append.mp hnodup).2.2 p hp p (List.mem_singleton_self p) rfl

end Segments

section Lists

structure Linked (heap : Heap α) (front tail : Option ℕ) (ps : List ℕ) : Prop where
  segment : Segment Node.next Node.prev heap none ps none
  front : front = ps.head?
  tail : tail = ps.getLast?

variable {heap heap' : Heap α} {front tail : Option ℕ} {p : ℕ} {ps qs as bs : List ℕ}

theorem Linked.nodup (h : Linked heap front tail ps) : ps.Nodup := h.segment.path.nodup

theorem Linked.exists_node (h : Linked heap front tail ps) (hp : p ∈ ps) :
    ∃ n, heap p = some n :=
  h.segment.path.exists_node hp

theorem Linked.node (h : Linked heap front tail (as ++ p :: bs)) :
    ∃ n, heap p = some n ∧ n.prev = as.getLast? ∧ n.next = bs.head? := by
  obtain ⟨-, ⟨n, hn, hprev, hnext⟩, -⟩ := segment_append.mp h.segment
  rw [Option.or_none] at hprev hnext
  exact ⟨n, hn, hprev, hnext⟩

theorem Linked.not_mem (h : Linked heap front tail (as ++ p :: bs)) : p ∉ as ++ bs :=
  (List.nodup_middle.mp h.nodup).notMem

theorem linked_nil (heap : Heap α) : Linked heap none none [] := ⟨trivial, rfl, rfl⟩

theorem Linked.unlink (h : Linked heap front tail (as ++ p :: bs)) :
    ∃ heap₁ heap₂, patch heap as.getLast? (setNext bs.head?) = some heap₁ ∧
      patch heap₁ bs.head? (setPrev as.getLast?) = some heap₂ ∧ heap₁ p = heap p ∧
      Linked heap₂ (as ++ bs).head? (as ++ bs).getLast? (as ++ bs) ∧
      Relinked heap heap₂ (as ++ bs) := by
  have hnodup := h.nodup
  rw [List.nodup_append] at hnodup
  obtain ⟨has, hpbs, hdisjoint⟩ := hnodup
  obtain ⟨hp, hbs⟩ := List.nodup_cons.mp hpbs
  obtain ⟨hbefore, -, hbehind⟩ := segment_append.mp h.segment
  have hdisjoint' : as.Disjoint bs := fun q ha hb =>
    hdisjoint q ha q (List.mem_cons_of_mem p hb) rfl
  obtain ⟨heap₁, hpatch₁, hseg₁, hsame₁⟩ := patch_last hbefore has bs.head?
  obtain ⟨heap₂, hpatch₂, hseg₂, hsame₂⟩ :=
    patch_head (hsame₁.segment hbehind hdisjoint'.symm) hbs as.getLast?
  refine ⟨heap₁, heap₂, hpatch₁, hpatch₂, hsame₁.other p fun hin => ?_,
    ⟨segment_append.mpr ⟨?_, ?_⟩, rfl, rfl⟩, ?_⟩
  · exact hdisjoint p hin p List.mem_cons_self rfl
  · rw [Option.or_none]
    exact hsame₂.segment hseg₁ hdisjoint'
  · rw [Option.or_none]
    exact hseg₂
  · exact (hsame₁.mono (List.subset_append_left as bs)).trans
      (hsame₂.mono (List.subset_append_right as bs))

theorem Linked.front_unlink (h : Linked heap front tail (as ++ p :: bs)) :
    (if front = some p then bs.head? else front) = (as ++ bs).head? := by
  rw [h.front]
  cases as with
  | nil => simp
  | cons q as =>
    have hne : q ≠ p := fun heq => h.not_mem (heq ▸ List.mem_cons_self)
    simp [hne]

theorem Linked.tail_unlink (h : Linked heap front tail (as ++ p :: bs)) :
    (if tail = some p then as.getLast? else tail) = (as ++ bs).getLast? := by
  rw [h.tail]
  rcases List.eq_nil_or_concat' bs with rfl | ⟨bs, q, rfl⟩
  · simp
  · have hne : q ≠ p := fun heq => h.not_mem (by simp [heq])
    simp [List.getLast?_cons, hne]

theorem Linked.linkFront (h : Linked heap front tail ps) {n : Node α} (hn : heap p = some n)
    (hp : p ∉ ps) : ∃ heap₁ heap₂,
      write heap (some p) (fun n => setNext front (setPrev none n)) = some heap₁ ∧
      patch heap₁ front (setPrev (some p)) = some heap₂ ∧
      Linked heap₂ (some p) (tail.or (some p)) (p :: ps) ∧ Relinked heap heap₂ (p :: ps) := by
  have hsame₁ :
      Relinked heap (Function.update heap p (some (setNext front (setPrev none n)))) [p] :=
    relinked_update hn rfl (List.mem_singleton_self p)
  have hseg := hsame₁.segment h.segment fun q hq hq' => hp (List.mem_singleton.mp hq' ▸ hq)
  obtain ⟨heap₂, hpatch, hseg₂, hsame₂⟩ := patch_head hseg h.nodup (some p)
  refine ⟨_, heap₂, write_some hn _, h.front ▸ hpatch,
    ⟨⟨⟨setNext front (setPrev none n), ?_, rfl, ?_⟩, hseg₂⟩, rfl, ?_⟩, ?_⟩
  · rw [hsame₂.other p hp, Function.update_self]
  · rw [Option.or_none]
    exact h.front
  · rw [h.tail, List.getLast?_cons, Option.or_some]
  · exact (hsame₁.mono (by simp)).trans (hsame₂.mono (List.subset_cons_self p ps))

end Lists

section Walk

variable {ν σ : Type*}

/-- A loop along links that calls a function on every node and ends when that says so. The result
`none` is a dangling pointer. -/
def walkBody (heap : ℕ → Option ν) (link : ν → Option ℕ) (func : ν → σ → Bool × σ) :
    Option ℕ × σ → Turn (Option ℕ × σ) (Option σ)
  | (none, s) => .stop (some s)
  | (some p, s) =>
    match heap p with
    | none => .stop none
    | some n =>
      let (ret, s) := func n s
      if ret = false then .stop (some s) else .again (link n, s)

def visit {β : Type*} (func : β → σ → Bool × σ) : List β → σ → σ
  | [], s => s
  | e :: es, s =>
    let (ret, s) := func e s
    if ret = false then s else visit func es s

variable {heap : ℕ → Option ν} {link : ν → Option ℕ}

theorem walk_yields {start : Option ℕ} {ps : List ℕ} (h : Path heap link start ps)
    (func : ν → σ → Bool × σ) (s : σ) :
    Yields (walkBody heap link func) (start, s) (some (visit func (ps.filterMap heap) s)) := by
  induction h generalizing s with
  | nil => exact yields_stop rfl
  | @cons p n ps hn _ ih =>
    rw [List.filterMap_cons_some hn, visit]
    have hbody : walkBody heap link func (some p, s) =
        if (func n s).1 = false then .stop (some (func n s).2)
        else .again (link n, (func n s).2) := by
      rw [walkBody, hn]
    by_cases hret : (func n s).1 = false
    · rw [if_pos hret] at hbody
      simp only [hret, if_true]
      exact yields_stop hbody
    · rw [if_neg hret] at hbody
      simp only [hret]
      exact yields_again hbody (ih _)

theorem visit_map {β γ : Type*} (func : γ → σ → Bool × σ) (f : β → γ) (es : List β) (s : σ) :
    visit (fun e => func (f e)) es s = visit func (es.map f) s := by
  induction es generalizing s with
  | nil => rfl
  | cons e es ih => simp only [visit, List.map_cons, ih]

end Walk

end DoublyLinked
