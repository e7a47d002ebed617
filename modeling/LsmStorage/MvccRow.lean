import LsmStorage.HeapChain
import LsmStorage.ByteCodec
import Mathlib.Data.FinEnum

/-! # ObMvccRow: the version chain of one key

A row owns a heap of version nodes, doubly linked from the newest to the oldest. The
structure carries the well-formedness of the links, so that a walk from `list_head_` ends.
Addresses are never reused, and an aborted node that a write has skipped stays in the heap. -/
namespace MvccRow

open HeapChain ByteCodec

def obInvalidTransId : ℤ := -1

def obInvalidVersion : ℤ := 2 ^ 63 - 1

inductive ObDmlFlag where
  | dfNotSet
  | dfInsert
  | dfUpdate
  | dfDelete
  | dfLock
  | dfMax
  deriving DecidableEq, Repr

structure ObStoreCtx where
  txId : ℤ := obInvalidTransId
  snapshotVersion : ℤ := obInvalidVersion
  deriving DecidableEq, Repr

/-- `ObMemtableDataHeader` and the bytes behind it. -/
structure ObMemtableData where
  dmlFlag : ObDmlFlag := .dfMax
  buf : Bytes := []
  deriving DecidableEq, Repr

/-- The header has 16 bytes. -/
def ObMemtableData.size (d : ObMemtableData) : ℤ := 16 + d.buf.length

namespace TransNodeFlag

def fInit : UInt8 := 0x01
def fCommitted : UInt8 := 0x02
def fAborted : UInt8 := 0x04

end TransNodeFlag

open TransNodeFlag

structure ObMvccTransNode where
  txId : ℤ
  transVersion : ℤ := obInvalidVersion
  prev : Option ℕ := none
  next : Option ℕ := none
  flag : UInt8 := fInit
  data : ObMemtableData
  deriving DecidableEq, Repr

namespace ObMvccTransNode

def isCommitted (n : ObMvccTransNode) : Bool := n.flag &&& fCommitted != 0

def isAborted (n : ObMvccTransNode) : Bool := n.flag &&& fAborted != 0

def isUndecided (n : ObMvccTransNode) : Bool := !n.isCommitted && !n.isAborted

def transCommit (commitVersion : ℤ) (n : ObMvccTransNode) : ObMvccTransNode :=
  { n with
    transVersion := commitVersion
    flag := (n.flag ||| fCommitted) &&& ~~~fAborted }

def transAbort (n : ObMvccTransNode) : ObMvccTransNode :=
  { n with flag := (n.flag ||| fAborted) &&& ~~~fCommitted }

private theorem commit_bits : ∀ f : UInt8,
    ((f ||| fCommitted) &&& ~~~fAborted) &&&
      fCommitted ≠ 0 ∧
    ((f ||| fCommitted) &&& ~~~fAborted) &&&
      fAborted = 0 := by
  decide +kernel

private theorem abort_bits : ∀ f : UInt8,
    ((f ||| fAborted) &&& ~~~fCommitted) &&&
      fAborted ≠ 0 ∧
    ((f ||| fAborted) &&& ~~~fCommitted) &&&
      fCommitted = 0 := by
  decide +kernel

@[simp] theorem isCommitted_transCommit (v : ℤ) (n : ObMvccTransNode) :
    (n.transCommit v).isCommitted = true := by
  simpa [isCommitted, transCommit] using (commit_bits n.flag).1

@[simp] theorem isAborted_transCommit (v : ℤ) (n : ObMvccTransNode) :
    (n.transCommit v).isAborted = false := by
  simpa [isAborted, transCommit] using (commit_bits n.flag).2

@[simp] theorem isAborted_transAbort (n : ObMvccTransNode) : n.transAbort.isAborted = true := by
  simpa [isAborted, transAbort] using (abort_bits n.flag).1

@[simp] theorem isCommitted_transAbort (n : ObMvccTransNode) :
    n.transAbort.isCommitted = false := by
  simpa [isCommitted, transAbort] using (abort_bits n.flag).2

@[simp] theorem isUndecided_transCommit (v : ℤ) (n : ObMvccTransNode) :
    (n.transCommit v).isUndecided = false := by
  simp [isUndecided]

@[simp] theorem isUndecided_transAbort (n : ObMvccTransNode) :
    n.transAbort.isUndecided = false := by
  simp [isUndecided]

/-- The flag bytes of the source: `F_INIT` from the start, and one decision at most. -/
def HasStatus (n : ObMvccTransNode) : Prop :=
  n.flag = fInit ∨ n.flag = fInit ||| fCommitted ∨
    n.flag = fInit ||| fAborted

instance (n : ObMvccTransNode) : Decidable n.HasStatus :=
  inferInstanceAs (Decidable (_ ∨ _))

variable {n : ObMvccTransNode}

theorem HasStatus.transCommit (h : n.HasStatus) (v : ℤ) :
    (n.transCommit v).HasStatus := by
  refine Or.inr (Or.inl ?_)
  rcases h with h | h | h <;> simp only [ObMvccTransNode.transCommit, h] <;> decide

theorem HasStatus.transAbort (h : n.HasStatus) : n.transAbort.HasStatus := by
  refine Or.inr (Or.inr ?_)
  rcases h with h | h | h <;> simp only [ObMvccTransNode.transAbort, h] <;> decide

theorem HasStatus.not_aborted (h : n.HasStatus) (hc : n.isCommitted = true) :
    n.isAborted = false := by
  unfold isCommitted at hc
  unfold isAborted
  rcases h with h | h | h <;> rw [h] at hc ⊢ <;> revert hc <;> decide

theorem HasStatus.not_committed (h : n.HasStatus) (ha : n.isAborted = true) :
    n.isCommitted = false := by
  by_contra hc
  rw [Bool.not_eq_false] at hc
  rw [h.not_aborted hc] at ha
  cases ha

theorem HasStatus.isInit (h : n.HasStatus) :
    (n.flag &&& fInit != 0) = true := by
  rcases h with h | h | h <;> rw [h] <;> decide

def bare (n : ObMvccTransNode) : ObMvccTransNode := { n with prev := none, next := none }

@[simp] theorem isCommitted_bare (n : ObMvccTransNode) : n.bare.isCommitted = n.isCommitted := rfl

@[simp] theorem isAborted_bare (n : ObMvccTransNode) : n.bare.isAborted = n.isAborted := rfl

@[simp] theorem isUndecided_bare (n : ObMvccTransNode) : n.bare.isUndecided = n.isUndecided := rfl

def links (n : ObMvccTransNode) : Option ℕ × Option ℕ := (n.prev, n.next)

end ObMvccTransNode

open ObMvccTransNode

abbrev Heap := ℕ → Option ObMvccTransNode

/-- The chain from `listHead` through `prev_` is `ids`. Neighbours are linked both ways, the
newest node's `next_` is null or a node outside the chain, and addresses from `fresh` on are
free. -/
structure Linked (heap : Heap) (listHead : Option ℕ) (fresh : ℕ) (ids : List ℕ) : Prop where
  segment : ∃ top, Segment prev next heap top ids none ∧
    ∀ x, top = some x → x ∉ ids ∧ heap x ≠ none
  head : listHead = ids.head?
  alloc : ∀ x, heap x ≠ none → x < fresh

variable {heap : Heap} {listHead : Option ℕ} {fresh : ℕ}

section Reading

variable {ids : List ℕ} (hl : Linked heap listHead fresh ids)

include hl

theorem Linked.path : Path heap prev listHead ids := by
  obtain ⟨top, hseg, -⟩ := hl.segment
  rw [hl.head]
  exact hseg.path

theorem Linked.length_le : ids.length ≤ fresh := by
  apply length_le_of_nodup_of_lt hl.path.nodup
  intro p hp
  obtain ⟨n, hn⟩ := hl.path.exists_node hp
  exact hl.alloc p (by simp [hn])

theorem Linked.back : ∀ a ∈ ids, ∀ n, heap a = some n → ∀ b, n.prev = some b →
    ∃ m, heap b = some m ∧ m.next = some a := by
  intro a ha n hn b hb
  obtain ⟨top, hseg, -⟩ := hl.segment
  obtain ⟨pre, post, rfl⟩ := List.append_of_mem ha
  obtain ⟨-, ⟨n', hn', -, hprev⟩, hpost⟩ := segment_append.mp hseg
  rw [hn] at hn'
  cases hn'
  rw [hb] at hprev
  cases post with
  | nil => cases hprev
  | cons c post =>
    cases hprev
    obtain ⟨⟨m, hm, hnext, -⟩, -⟩ := hpost
    exact ⟨m, hm, hnext⟩

end Reading

theorem Linked.next_above {pre post : List ℕ} {h o : ℕ} {n : ObMvccTransNode}
    (hl : Linked heap listHead fresh (pre ++ h :: post)) (hn : heap h = some n)
    (ho : n.next = some o) : o ∉ h :: post ∧ heap o ≠ none := by
  obtain ⟨top, hseg, htop⟩ := hl.segment
  obtain ⟨-, ⟨n', hn', hnext, -⟩, -⟩ := segment_append.mp hseg
  rw [hn] at hn'
  cases hn'
  rw [ho, eq_comm, Option.or_eq_some_iff] at hnext
  rcases hnext with hlast | ⟨-, hout⟩
  · have hmem : o ∈ pre := List.mem_of_getLast? hlast
    obtain ⟨m, hm⟩ := hl.path.exists_node (List.mem_append_left _ hmem)
    exact ⟨fun hin => (List.nodup_append.mp hl.path.nodup).2.2 o hmem o hin rfl, by simp [hm]⟩
  · exact ⟨fun hin => (htop o hout).1 (List.mem_append_right pre hin), (htop o hout).2⟩

/-- The stores of `mvcc_write` that put the node at `id` above `head`. -/
def linkNode (node : ObMvccTransNode) (head : Option ℕ) (id : ℕ) (heap : Heap) : Heap :=
  match head with
  | none => Function.update heap id (some { node with next := none, prev := none })
  | some h =>
    let oldNextOfHead := (heap h).bind next
    let heap := Function.update heap id
      (some { node with next := oldNextOfHead, prev := some h })
    let heap :=
      match oldNextOfHead with
      | none => heap
      | some o => modify heap o fun n => { n with prev := some id }
    modify heap h fun n => { n with next := some id }

theorem linkNode_some (node : ObMvccTransNode) {n : ObMvccTransNode} {id h : ℕ}
    (hn : heap h = some n) (hid : h ≠ id) (hnext : ∀ o, n.next = some o → o ≠ h ∧ o ≠ id) :
    linkNode node (some h) id heap id = some { node with next := n.next, prev := some h } ∧
      linkNode node (some h) id heap h = some { n with next := some id } ∧
      ∀ x, x ≠ id → x ≠ h → n.next ≠ some x → linkNode node (some h) id heap x = heap x := by
  cases hold : n.next with
  | none =>
    simp only [linkNode, hn, Option.bind_some, hold]
    refine ⟨?_, ?_, ?_⟩
    · rw [modify_of_ne _ _ hid.symm, Function.update_self]
    · rw [modify_self, Function.update_of_ne hid, hn, Option.map_some]
    · intro x hx hxh _
      rw [modify_of_ne _ _ hxh, Function.update_of_ne hx]
  | some o =>
    obtain ⟨hoh, hoid⟩ := hnext o hold
    simp only [linkNode, hn, Option.bind_some, hold]
    refine ⟨?_, ?_, ?_⟩
    · rw [modify_of_ne _ _ hid.symm, modify_of_ne _ _ hoid.symm, Function.update_self]
    · rw [modify_self, modify_of_ne _ _ hoh.symm, Function.update_of_ne hid, hn, Option.map_some]
    · intro x hx hxh hxo
      rw [modify_of_ne _ _ hxh, modify_of_ne _ _ (by simpa using Ne.symm hxo),
        Function.update_of_ne hx]

theorem map_bare_modify (heap : Heap) (f : ObMvccTransNode → ObMvccTransNode)
    (hf : ∀ n, (f n).bare = n.bare) (p x : ℕ) :
    (modify heap p f x).map bare = (heap x).map bare := by
  by_cases hx : x = p
  · subst hx
    rw [modify_self, Option.map_map]
    congr 1
    exact funext hf
  · rw [modify_of_ne heap f hx]

theorem map_bare_linkNode (node : ObMvccTransNode) (head : Option ℕ) (id : ℕ) (heap : Heap)
    (x : ℕ) : (linkNode node head id heap x).map bare =
      (Function.update heap id (some node) x).map bare := by
  have hnew : ∀ next prev, (Function.update heap id (some { node with next := next, prev := prev })
      x).map bare =
      (Function.update heap id (some node) x).map bare := by
    intro next prev
    by_cases hx : x = id
    · subst hx
      simp [bare]
    · rw [Function.update_of_ne hx, Function.update_of_ne hx]
  cases head with
  | none => exact hnew none none
  | some h =>
    have hnext := fun heap => map_bare_modify heap (fun n => { n with next := some id })
      (fun _ => rfl) h x
    have hprev := fun heap o => map_bare_modify heap (fun n => { n with prev := some id })
      (fun _ => rfl) o x
    simp only [linkNode, hnext]
    cases (heap h).bind next with
    | none => exact hnew none (some h)
    | some o => exact (hprev _ o).trans (hnew (some o) (some h))

theorem linkNode_eq_none_iff (node : ObMvccTransNode) (head : Option ℕ) {id x : ℕ} (hx : x ≠ id) :
    linkNode node head id heap x = none ↔ heap x = none := by
  rw [← Option.map_eq_none_iff (f := bare), map_bare_linkNode,
    Function.update_of_ne hx, Option.map_eq_none_iff]

structure Spliced (node n : ObMvccTransNode) (h : ℕ) (post : List ℕ) (fresh : ℕ)
    (heap heap' : Heap) : Prop where
  new : heap' fresh = some { node with next := n.next, prev := some h }
  head : heap' h = some { n with next := some fresh }
  below : ∀ x ∈ post, heap' x = heap x
  above : ∀ o, n.next = some o → o ∉ h :: post ∧ heap o ≠ none

theorem Linked.spliced {h : ℕ} {pre post : List ℕ} {n : ObMvccTransNode}
    (hl : Linked heap listHead fresh (pre ++ h :: post)) (hn : heap h = some n)
    (node : ObMvccTransNode) :
    Spliced node n h post fresh heap (linkNode node (some h) fresh heap) := by
  have hids : ∀ x ∈ h :: post, heap x ≠ none := by
    intro x hx
    obtain ⟨m, hm⟩ := hl.path.exists_node (List.mem_append_right pre hx)
    simp [hm]
  have hfree : ∀ x, heap x ≠ none → x ≠ fresh := fun x hx => (hl.alloc x hx).ne
  have habove : ∀ o, n.next = some o → o ∉ h :: post ∧ heap o ≠ none :=
    fun o ho => hl.next_above hn ho
  obtain ⟨hnew, hhead, hother⟩ := linkNode_some node hn
    (hfree h (hids h List.mem_cons_self)) fun o ho =>
      ⟨fun hoh => (habove o ho).1 (hoh ▸ List.mem_cons_self), hfree o (habove o ho).2⟩
  have hnodup := (List.nodup_append.mp hl.path.nodup).2.1
  refine ⟨hnew, hhead, fun x hx => ?_, habove⟩
  have hmem : x ∈ h :: post := List.mem_cons_of_mem h hx
  refine hother x (hfree x (hids x hmem)) ?_ fun ho => (habove x ho).1 hmem
  rintro rfl
  exact (List.nodup_cons.mp hnodup).1 hx

/-- A node put above `rest` heads a chain that continues with `rest`: what stood above is
cut off. -/
theorem Linked.linkNode {pre rest : List ℕ} (hl : Linked heap listHead fresh (pre ++ rest))
    (node : ObMvccTransNode) :
    Linked (linkNode node rest.head? fresh heap) (some fresh) (fresh + 1) (fresh :: rest) := by
  have halloc : ∀ x, MvccRow.linkNode node rest.head? fresh heap x ≠ none → x < fresh + 1 := by
    intro x hx
    by_cases hxf : x = fresh
    · omega
    · exact Nat.lt_succ_of_lt (hl.alloc x (mt (linkNode_eq_none_iff node _ hxf).mpr hx))
  cases rest with
  | nil =>
    exact ⟨⟨none, ⟨⟨_, Function.update_self .., rfl, rfl⟩, trivial⟩, by simp⟩, rfl, halloc⟩
  | cons h post =>
    obtain ⟨top, hseg, -⟩ := hl.segment
    obtain ⟨-, ⟨n, hn, -, hprev⟩, hpost⟩ := segment_append.mp hseg
    have hs := hl.spliced hn node
    refine ⟨⟨n.next, ⟨⟨_, hs.new, rfl, rfl⟩, ⟨_, hs.head, rfl, hprev⟩,
      hpost.frame_eq hs.below⟩, ?_⟩, rfl, halloc⟩
    intro x hx
    obtain ⟨hnot, hsome⟩ := hs.above x hx
    have hfree : x ≠ fresh := (hl.alloc x hsome).ne
    exact ⟨List.not_mem_cons_of_ne_of_not_mem hfree hnot,
      mt (linkNode_eq_none_iff node _ hfree).mp hsome⟩

theorem Linked.frame {heap' : Heap} {ids : List ℕ} (hl : Linked heap listHead fresh ids)
    (hsame : ∀ p, (heap' p).map links = (heap p).map links) :
    Linked heap' listHead fresh ids := by
  have hnone : ∀ p, heap' p = none ↔ heap p = none := by
    intro p
    rw [← Option.map_eq_none_iff (f := links), hsame, Option.map_eq_none_iff]
  obtain ⟨top, hseg, htop⟩ := hl.segment
  refine ⟨⟨top, hseg.frame fun p _ n hn => ?_,
    fun x hx => ⟨(htop x hx).1, mt (hnone x).mp (htop x hx).2⟩⟩, hl.head,
    fun x hx => hl.alloc x (mt (hnone x).mpr hx)⟩
  have hp := hsame p
  rw [hn, Option.map_some, Option.map_eq_some_iff] at hp
  obtain ⟨m, hm, hlinks⟩ := hp
  exact ⟨m, hm, congrArg Prod.snd hlinks, congrArg Prod.fst hlinks⟩

/-- The stores of `mvcc_undo` on the head at `p`: the node below it loses its `next_`, and the
head is freed. -/
def unlinkHead (p : ℕ) (heap : Heap) : Heap :=
  let heap' :=
    match (heap p).bind prev with
    | none => heap
    | some q => modify heap q fun n => { n with next := none }
  Function.update heap' p none

theorem unlinkHead_self (p : ℕ) (heap : Heap) : unlinkHead p heap p = none := by
  simp [unlinkHead]

theorem unlinkHead_of_ne {p x : ℕ} (hx : x ≠ p)
    (hprev : (heap p).bind prev ≠ some x) : unlinkHead p heap x = heap x := by
  unfold unlinkHead
  cases hq : (heap p).bind prev with
  | none => simp [hx]
  | some q =>
    have hxq : x ≠ q := fun h => hprev (h ▸ hq)
    simp [hx, modify_of_ne heap _ hxq]

theorem unlinkHead_below {p x : ℕ} (hx : x ≠ p)
    (hprev : (heap p).bind prev = some x) :
    unlinkHead p heap x = (heap x).map fun n => { n with next := none } := by
  simp [unlinkHead, hprev, hx]

theorem map_unlinkHead {α : Type*} {f : ObMvccTransNode → α}
    (hf : ∀ n, f { n with next := none } = f n) (heap : Heap) {p x : ℕ} (hx : x ≠ p) :
    (unlinkHead p heap x).map f = (heap x).map f := by
  by_cases hprev : (heap p).bind prev = some x
  · rw [unlinkHead_below hx hprev, Option.map_map]
    congr 1
    exact funext hf
  · rw [unlinkHead_of_ne hx hprev]

theorem Linked.unlinkHead {p : ℕ} {rest : List ℕ} (hl : Linked heap (some p) fresh (p :: rest)) :
    Linked (unlinkHead p heap) ((heap p).bind prev) fresh rest := by
  have hnodup := List.nodup_cons.mp hl.path.nodup
  have hne : ∀ x ∈ rest, x ≠ p := fun x hx h => hnodup.1 (h ▸ hx)
  obtain ⟨top, ⟨⟨n, hn, -, hprev⟩, hrest⟩, -⟩ := hl.segment
  rw [Option.or_none] at hprev
  rw [hn, Option.bind_some, hprev]
  refine ⟨⟨none, ?_, by simp⟩, rfl, ?_⟩
  · cases rest with
    | nil => trivial
    | cons q rest =>
      obtain ⟨⟨m, hm, -, hbelow⟩, hrest⟩ := hrest
      have hhead : (heap p).bind prev = some q := by
        rw [hn, Option.bind_some, hprev, List.head?_cons]
      have hnew := unlinkHead_below (hne q List.mem_cons_self) hhead
      rw [hm, Option.map_some] at hnew
      refine ⟨⟨_, hnew, rfl, hbelow⟩, hrest.frame_eq fun x hx => ?_⟩
      refine unlinkHead_of_ne (hne x (List.mem_cons_of_mem q hx)) ?_
      rw [hhead]
      rintro ⟨⟩
      exact (List.nodup_cons.mp hnodup.2).1 hx
  · intro x hx
    have hxp : x ≠ p := by
      rintro rfl
      exact hx (unlinkHead_self x heap)
    have hsame := map_unlinkHead (f := fun _ => ()) (fun _ => rfl) heap hxp
    refine hl.alloc x fun hnone => hx ?_
    rwa [hnone, Option.map_none, Option.map_eq_none_iff] at hsame

structure ObMvccRow where
  flag : UInt8 := 0
  maxTransVersion : ℤ := 0
  listHead : Option ℕ := none
  heap : Heap := fun _ => none
  fresh : ℕ := 0
  linked : ∃ ids, Linked heap listHead fresh ids

namespace ObMvccRow

def new : ObMvccRow where
  linked := ⟨[], ⟨none, trivial, by simp⟩, rfl, by simp⟩

def isEmpty (r : ObMvccRow) : Bool := r.listHead.isNone

def fHashIndex : UInt8 := 0x01
def fBtreeIndex : UInt8 := 0x02

def isHashIndexed (r : ObMvccRow) : Bool := r.flag &&& fHashIndex != 0

def isBtreeIndexed (r : ObMvccRow) : Bool := r.flag &&& fBtreeIndex != 0

def setBtreeIndexed (r : ObMvccRow) : ObMvccRow := { r with flag := r.flag ||| fBtreeIndex }

def setHashIndexed (r : ObMvccRow) : ObMvccRow := { r with flag := r.flag ||| fHashIndex }

def isTransactionSetViolation (snapshotVersion : ℤ) (r : ObMvccRow) : Bool :=
  if snapshotVersion = obInvalidVersion then false else r.maxTransVersion > snapshotVersion

theorem follow_isSome (stop : ObMvccTransNode → Bool) (r : ObMvccRow) :
    (follow r.heap prev stop r.fresh r.listHead).isSome := by
  obtain ⟨ids, h⟩ := r.linked
  rw [follow_eq_find? h.path h.length_le]
  rfl

def walk (stop : ObMvccTransNode → Bool) (r : ObMvccRow) : Option ℕ :=
  (follow r.heap prev stop r.fresh r.listHead).get (r.follow_isSome stop)

def chain (r : ObMvccRow) : List ℕ :=
  addresses r.heap prev r.fresh r.listHead

theorem linked_chain (r : ObMvccRow) : Linked r.heap r.listHead r.fresh r.chain := by
  obtain ⟨ids, h⟩ := r.linked
  have hids : r.chain = ids := addresses_eq h.path h.length_le
  rw [hids]
  exact h

theorem chain_eq {r : ObMvccRow} {ids : List ℕ}
    (h : Linked r.heap r.listHead r.fresh ids) : r.chain = ids :=
  r.linked_chain.path.unique h.path

def versions (r : ObMvccRow) : List ObMvccTransNode :=
  (r.chain.filterMap r.heap).map bare

theorem chain_allocated (r : ObMvccRow) : ∀ p ∈ r.chain, r.heap p ≠ none := by
  intro p hp
  obtain ⟨n, hn⟩ := r.linked_chain.path.exists_node hp
  simp [hn]

theorem versions_of_isEmpty {r : ObMvccRow} (h : r.isEmpty = true) : r.versions = [] := by
  have hpath := r.linked_chain.path
  rw [Option.isNone_iff_eq_none.mp h] at hpath
  have hnil : r.chain = [] := hpath.unique .nil
  rw [versions, hnil]
  rfl

theorem walk_eq_find? (stop : ObMvccTransNode → Bool) (r : ObMvccRow) :
    r.walk stop = r.chain.find? (stopsAt r.heap stop) := by
  simp only [walk, follow_eq_find? r.linked_chain.path r.linked_chain.length_le, Option.get_some]

theorem bare_of_walk {stop : ObMvccTransNode → Bool} (hstop : ∀ n, stop n.bare = stop n)
    (r : ObMvccRow) :
    ((r.walk stop).bind r.heap).map bare = r.versions.find? stop := by
  have hcomp : stop ∘ bare = stop := funext hstop
  rw [walk_eq_find?, versions, List.find?_map, hcomp, List.find?_filterMap]
  rfl

def below (r : ObMvccRow) : List ℕ :=
  r.chain.dropWhile fun p => !stopsAt r.heap (fun n => !n.isAborted) p

theorem linked_push (node : ObMvccTransNode) (r : ObMvccRow) :
    Linked (linkNode node (r.walk fun n => !n.isAborted) r.fresh r.heap) (some r.fresh)
      (r.fresh + 1) (r.fresh :: r.below) := by
  have hl := r.linked_chain
  rw [← List.takeWhile_append_dropWhile (p := fun p => !stopsAt r.heap (!·.isAborted) p)
    (l := r.chain)] at hl
  rw [walk_eq_find?, List.find?_eq_head?_dropWhile_not]
  exact hl.linkNode node

def push (ctx : ObStoreCtx) (node : ObMvccTransNode) (r : ObMvccRow) : ObMvccRow where
  flag := r.flag
  maxTransVersion :=
    if ctx.snapshotVersion > r.maxTransVersion ∧ ctx.snapshotVersion ≠ obInvalidVersion then
      ctx.snapshotVersion
    else r.maxTransVersion
  listHead := some r.fresh
  heap := linkNode node (r.walk fun n => !n.isAborted) r.fresh r.heap
  fresh := r.fresh + 1
  linked := ⟨_, r.linked_push node⟩

/-- `-1` and whether it was a write conflict, or 0 and the new chain. The node is freed by
the caller when the write fails. -/
def mvccWrite (ctx : ObStoreCtx) (node : ObMvccTransNode) (r : ObMvccRow) :
    ℤ × Bool × ObMvccRow :=
  let head := (r.walk fun n => !n.isAborted).bind r.heap
  if head.any fun n => !n.isCommitted && n.txId != ctx.txId then (-1, true, r)
  else if r.isTransactionSetViolation ctx.snapshotVersion then (-1, false, r)
  else (0, false, r.push ctx node)

theorem versions_push (ctx : ObStoreCtx) (node : ObMvccTransNode) (r : ObMvccRow) :
    (r.push ctx node).versions = node.bare :: r.versions.dropWhile isAborted := by
  have hchain : (r.push ctx node).chain = r.fresh :: r.below :=
    chain_eq (r.linked_push node)
  have hnot : ∀ p ∈ r.below, p ≠ r.fresh := by
    intro p hp
    have hp : p ∈ r.chain := (List.dropWhile_sublist _).subset hp
    exact (r.linked_chain.alloc p (r.chain_allocated p hp)).ne
  have hbelow : r.below.filterMap (fun p => ((r.push ctx node).heap p).map
      bare) = r.below.filterMap fun p => (r.heap p).map bare := by
    apply List.filterMap_congr
    intro p hp
    rw [push, map_bare_linkNode, Function.update_of_ne (hnot p hp)]
  have hhead : ((r.push ctx node).heap r.fresh).map bare = some node.bare := by
    rw [push, map_bare_linkNode, Function.update_self]
    rfl
  have hdrop : r.versions.dropWhile isAborted =
      (r.below.filterMap r.heap).map bare := by
    have haborted : isAborted ∘ bare =
        fun n => !(!isAborted n) := by
      funext n
      simp
    rw [versions, List.dropWhile_map, haborted, below, filterMap_dropWhile r.chain_allocated]
  rw [hdrop, versions, hchain, List.map_filterMap, List.map_filterMap, List.filterMap_cons]
  simp only [hhead, hbelow]

variable {f : ObMvccTransNode → ObMvccTransNode}

theorem linked_map (hprev : ∀ n, (f n).prev = n.prev) (hnext : ∀ n, (f n).next = n.next)
    (r : ObMvccRow) :
    Linked (fun p => (r.heap p).map f) r.listHead r.fresh r.chain := by
  apply r.linked_chain.frame
  intro p
  rw [Option.map_map]
  congr 1
  exact funext fun n => Prod.ext (hprev n) (hnext n)

def mapNodes (f : ObMvccTransNode → ObMvccTransNode) (hprev : ∀ n, (f n).prev = n.prev)
    (hnext : ∀ n, (f n).next = n.next) (r : ObMvccRow) : ObMvccRow :=
  { r with
    heap := fun p => (r.heap p).map f
    linked := ⟨_, linked_map hprev hnext r⟩ }

theorem versions_mapNodes (hprev : ∀ n, (f n).prev = n.prev) (hnext : ∀ n, (f n).next = n.next)
    (hbare : ∀ n, (f n).bare = f n.bare) (r : ObMvccRow) :
    (r.mapNodes f hprev hnext).versions = r.versions.map f := by
  have hchain : (r.mapNodes f hprev hnext).chain = r.chain :=
    chain_eq (linked_map hprev hnext r)
  have hcomp : bare ∘ f = f ∘ bare := funext hbare
  have hnodes : r.chain.filterMap (r.mapNodes f hprev hnext).heap =
      (r.chain.filterMap r.heap).map f := List.map_filterMap.symm
  rw [versions, hchain, hnodes, versions, List.map_map, List.map_map, hcomp]

def onUndecided (tx : ℤ) (f : ObMvccTransNode → ObMvccTransNode) (n : ObMvccTransNode) :
    ObMvccTransNode :=
  if n.isUndecided && n.txId == tx then f n else n

/-- The end of a transaction on this row: `trans_commit` on each of its undecided nodes. The
source has `trans_commit` and `trans_abort` on a node only and no function for the whole row. -/
def commitTx (tx commitVersion : ℤ) (r : ObMvccRow) : ObMvccRow :=
  r.mapNodes (onUndecided tx (transCommit commitVersion))
    (fun n => by unfold onUndecided; split <;> rfl) (fun n => by unfold onUndecided; split <;> rfl)

def abortTx (tx : ℤ) (r : ObMvccRow) : ObMvccRow :=
  r.mapNodes (onUndecided tx transAbort)
    (fun n => by unfold onUndecided; split <;> rfl) (fun n => by unfold onUndecided; split <;> rfl)

theorem versions_commitTx (tx commitVersion : ℤ) (r : ObMvccRow) :
    (r.commitTx tx commitVersion).versions =
      r.versions.map (onUndecided tx (transCommit commitVersion)) := by
  apply versions_mapNodes
  intro n
  unfold onUndecided
  rw [isUndecided_bare, apply_ite bare]
  rfl

theorem versions_abortTx (tx : ℤ) (r : ObMvccRow) :
    (r.abortTx tx).versions = r.versions.map (onUndecided tx transAbort) := by
  apply versions_mapNodes
  intro n
  unfold onUndecided
  rw [isUndecided_bare, apply_ite bare]
  rfl

theorem linked_modify (hlinks : ∀ n, (f n).links = n.links) (p : ℕ) (r : ObMvccRow) :
    Linked (modify r.heap p f) r.listHead r.fresh r.chain := by
  apply r.linked_chain.frame
  intro x
  by_cases hx : x = p
  · subst hx
    rw [modify_self, Option.map_map]
    congr 1
    exact funext hlinks
  · rw [modify_of_ne r.heap f hx]

def modifyNode (p : ℕ) (f : ObMvccTransNode → ObMvccTransNode)
    (hlinks : ∀ n, (f n).links = n.links) (r : ObMvccRow) : ObMvccRow :=
  { r with
    heap := modify r.heap p f
    linked := ⟨_, linked_modify hlinks p r⟩ }

theorem versions_modifyNode (hlinks : ∀ n, (f n).links = n.links)
    (hbare : ∀ n, (f n).bare = f n.bare) (p : ℕ) (r : ObMvccRow) :
    List.Forall₂ (fun n n' => n' = n ∨ n' = f n) r.versions
      (r.modifyNode p f hlinks).versions := by
  have hchain : (r.modifyNode p f hlinks).chain = r.chain := chain_eq (linked_modify hlinks p r)
  rw [versions, versions, hchain, List.forall₂_map_left_iff, List.forall₂_map_right_iff]
  refine (forall₂_modify f p r.chain_allocated).imp fun n n' hn => ?_
  rcases hn with rfl | rfl
  · exact Or.inl rfl
  · exact Or.inr (hbare n)

def commitNode (p : ℕ) (commitVersion : ℤ) : ObMvccRow → ObMvccRow :=
  modifyNode p (transCommit commitVersion) fun _ => rfl

def abortNode (p : ℕ) : ObMvccRow → ObMvccRow :=
  modifyNode p transAbort fun _ => rfl

theorem versions_abortNode (p : ℕ) (r : ObMvccRow) :
    List.Forall₂ (fun n n' => n' = n ∨ n' = n.transAbort) r.versions (r.abortNode p).versions :=
  versions_modifyNode (f := transAbort) (fun _ => rfl) (fun _ => rfl) p r

theorem linked_undo (r : ObMvccRow) :
    Linked ((r.listHead.map fun p => unlinkHead p r.heap).getD r.heap)
      (r.listHead.bind fun p => (r.heap p).bind prev) r.fresh r.chain.tail := by
  have hl := r.linked_chain
  cases hhead : r.listHead with
  | none =>
    rw [hhead] at hl
    have hnil : r.chain = [] := hl.path.unique .nil
    rw [hnil] at hl ⊢
    exact hl
  | some p =>
    rw [hhead] at hl
    obtain ⟨rest, hchain⟩ := List.head?_eq_some_iff.mp hl.path.head?.symm
    rw [hchain] at hl ⊢
    exact hl.unlinkHead

/-- `ObMvccEngine::mvcc_undo`. The head is aborted before it is freed, which nobody sees;
`max_trans_version_` stays. -/
def mvccUndo (r : ObMvccRow) : ObMvccRow :=
  { r with
    listHead := r.listHead.bind fun p => (r.heap p).bind prev
    heap := (r.listHead.map fun p => unlinkHead p r.heap).getD r.heap
    linked := ⟨_, r.linked_undo⟩ }

theorem versions_mvccUndo (r : ObMvccRow) : r.mvccUndo.versions = r.versions.tail := by
  have hchain : r.mvccUndo.chain = r.chain.tail := chain_eq r.linked_undo
  have hl := r.linked_chain
  rw [versions, versions, hchain]
  cases hids : r.chain with
  | nil => rfl
  | cons p rest =>
    rw [hids] at hl
    have hhead : r.listHead = some p := hl.path.head?
    obtain ⟨n, hn⟩ := hl.path.exists_node List.mem_cons_self
    rw [List.filterMap_cons_some hn, List.map_cons, List.tail_cons, List.tail_cons,
      List.map_filterMap, List.map_filterMap]
    apply List.filterMap_congr
    intro x hx
    have hxp : x ≠ p := by
      rintro rfl
      exact (List.nodup_cons.mp hl.path.nodup).1 hx
    have hheap : r.mvccUndo.heap x = unlinkHead p r.heap x := by simp [mvccUndo, hhead]
    rw [hheap]
    exact map_unlinkHead (fun _ => rfl) r.heap hxp

def conflicts (tx : ℤ) (vs : List ObMvccTransNode) : Bool :=
  (vs.find? fun n => !n.isAborted).any fun n => !n.isCommitted && n.txId != tx

theorem mvccWrite_eq (ctx : ObStoreCtx) (node : ObMvccTransNode) (r : ObMvccRow) :
    r.mvccWrite ctx node =
      if conflicts ctx.txId r.versions then (-1, true, r)
      else if r.isTransactionSetViolation ctx.snapshotVersion then (-1, false, r)
      else (0, false, r.push ctx node) := by
  have hwalk : ((r.walk fun n => !n.isAborted).bind r.heap).map bare =
      r.versions.find? fun n => !n.isAborted := bare_of_walk (fun _ => rfl) r
  have hconf : conflicts ctx.txId r.versions =
      ((r.walk fun n => !n.isAborted).bind r.heap).any
        fun n => !n.isCommitted && n.txId != ctx.txId := by
    rw [conflicts, ← hwalk, Option.any_map]
    rfl
  rw [hconf]
  rfl

theorem mvccWrite_failed {ctx : ObStoreCtx} {node : ObMvccTransNode} {r : ObMvccRow}
    (h : (r.mvccWrite ctx node).1 ≠ 0) : (r.mvccWrite ctx node).2.2 = r := by
  rw [mvccWrite_eq] at h ⊢
  split
  · rfl
  · split
    · rfl
    · simp_all

end ObMvccRow

end MvccRow
