import LsmStorage.DoublyLinked
import LsmStorage.RecencyMap

/-! # LruCache

The nodes of a doubly linked list, found by a hash set of pointers to them. Keys are the same when
`Pred` says so, which is an equivalence that `Hash` respects. Addresses are not used twice, so a
pointer to a deleted node dangles for good; to follow it is undefined, `none`. -/
namespace CommonLru

open DoublyLinked BoundedLoop RecencyMap Node

universe w

variable {K V : Type*}

/-- `searcher_` is in no particular order. -/
structure LruCache (K V : Type*) where
  heap : Heap (K × V) := fun _ => none
  nextNode : ℕ := 0
  searcher : List ℕ := []
  lruFront : Option ℕ := none
  lruTail : Option ℕ := none

namespace LruCache

section Searcher

variable [BEq K] [Hashable K]

def isAt (heap : Heap (K × V)) (key : K) (node : ℕ) : Bool :=
  (heap node).any fun n => hash key == hash n.value.1 && key == n.value.1

def readable (c : LruCache K V) : Bool := c.searcher.all fun node => (c.heap node).isSome

/-- The inner `none` is `end()`. -/
def find (key : K) (c : LruCache K V) : Option (Option ℕ) :=
  if c.readable then some (c.searcher.find? (isAt c.heap key)) else none

def insert (node : ℕ) (c : LruCache K V) : Option (LruCache K V) :=
  match c.heap node with
  | none => none
  | some n =>
    match c.find n.value.1 with
    | none => none
    | some (some _) => some c
    | some none => some { c with searcher := node :: c.searcher }

def erase (node : ℕ) (c : LruCache K V) : Option (LruCache K V) :=
  match c.heap node with
  | none => none
  | some n =>
    if c.readable then
      some { c with searcher := c.searcher.filter fun p => !isAt c.heap n.value.1 p }
    else none

end Searcher

def count (c : LruCache K V) : ℕ := c.searcher.length

/-- The node behind gets another predecessor. Without one it is the tail that moves. -/
def relinkBehind (n : Node (K × V)) (heap : Heap (K × V)) (lruTail : Option ℕ) :
    Option (Heap (K × V) × Option ℕ) :=
  if n.next ≠ none then (write heap n.next (setPrev n.prev)).map fun heap => (heap, lruTail)
  else some (heap, n.prev)

def lruTouch (node : ℕ) (c : LruCache K V) : Option (LruCache K V) := do
  let n ← c.heap node
  if n.prev = none then some c
  else
    let heap ← write c.heap n.prev (setNext n.next)
    let n ← heap node
    let (heap, lruTail) ← relinkBehind n heap c.lruTail
    let heap ← write heap (some node) fun n => setNext c.lruFront (setPrev none n)
    let heap ← patch heap c.lruFront (setPrev (some node))
    some { c with heap, lruTail, lruFront := some node }

section Calls

variable [BEq K] [Hashable K]

def lruPush (node : ℕ) (c : LruCache K V) : Option (LruCache K V) := do
  let lruTail := if c.lruTail = none then some node else c.lruTail
  let heap ← write c.heap (some node) fun n => setNext c.lruFront (setPrev none n)
  let heap ← patch heap c.lruFront (setPrev (some node))
  insert node { c with heap, lruTail, lruFront := some node }

def lruRemove (node : ℕ) (c : LruCache K V) : Option (LruCache K V) := do
  let n ← c.heap node
  let heap ← patch c.heap n.prev (setNext n.next)
  let n ← heap node
  let heap ← patch heap n.next (setPrev n.prev)
  let n ← heap node
  let lruFront := if c.lruFront = some node then n.next else c.lruFront
  let lruTail := if c.lruTail = some node then n.prev else c.lruTail
  let c ← erase node { c with heap, lruFront, lruTail }
  some { c with heap := Function.update c.heap node none }

def newNode (key : K) (value : V) (c : LruCache K V) : LruCache K V :=
  { c with
    heap := Function.update c.heap c.nextNode (some { value := (key, value) })
    nextNode := c.nextNode + 1 }

/-- The inner `none` is the answer `false`. -/
def get (key : K) (c : LruCache K V) : Option (Option V × LruCache K V) :=
  match c.find key with
  | none => none
  | some none => some (none, c)
  | some (some node) =>
    (c.lruTouch node).bind fun c => (c.heap node).map fun n => (some n.value.2, c)

def put (key : K) (value : V) (c : LruCache K V) : Option (LruCache K V) :=
  match c.find key with
  | none => none
  | some (some ln) =>
    (write c.heap (some ln) fun n => { n with value := (n.value.1, value) }).bind fun heap =>
      lruTouch ln { c with heap }
  | some none => lruPush c.nextNode (c.newNode key value)

def remove (key : K) (c : LruCache K V) : Option (LruCache K V) :=
  match c.find key with
  | none => none
  | some none => some c
  | some (some node) => c.lruRemove node

end Calls

def destroy (c : LruCache K V) : LruCache K V :=
  { c with
    heap := fun p => if p ∈ c.searcher then none else c.heap p
    searcher := []
    lruFront := none
    lruTail := none }

section Loops

variable {σ : Type*}

def foreachLoop (func : K → V → σ → Bool × σ) (c : LruCache K V) :=
  walkBody c.heap next fun n => func n.value.1 n.value.2

def foreachReverseLoop (func : K → V → σ → Bool × σ) (c : LruCache K V) :=
  walkBody c.heap prev fun n => func n.value.1 n.value.2

end Loops

end LruCache

section Classes

variable (K) [BEq K] [EquivBEq K]

def keySetoid : Setoid K where
  r a b := a == b
  iseqv := ⟨fun _ => BEq.rfl, BEq.symm, BEq.trans⟩

def Class := Quotient (keySetoid K)

instance : DecidableEq (Class K) :=
  have (a b : K) : Decidable ((keySetoid K).r a b) := inferInstanceAs (Decidable (a == b))
  inferInstanceAs (DecidableEq (Quotient (keySetoid K)))

variable {K}

def classOf (key : K) : Class K := Quotient.mk (keySetoid K) key

theorem classOf_eq_iff {a b : K} : classOf a = classOf b ↔ a == b := Quotient.eq

end Classes

section Lists

variable {c : LruCache K V} {heap heap' : Heap (K × V)} {node : ℕ} {as bs ps : List ℕ}

open LruCache

def entriesAt (heap : Heap (K × V)) (ps : List ℕ) : List (K × V) :=
  ps.filterMap fun p => (heap p).map value

theorem entriesAt_append (heap : Heap (K × V)) (as bs : List ℕ) :
    entriesAt heap (as ++ bs) = entriesAt heap as ++ entriesAt heap bs :=
  List.filterMap_append

theorem entriesAt_cons {n : Node (K × V)} (hn : heap node = some n)
    (ps : List ℕ) : entriesAt heap (node :: ps) = n.value :: entriesAt heap ps :=
  List.filterMap_cons_some (by rw [hn, Option.map_some])

theorem entriesAt_congr
    (h : ∀ p ∈ ps, (heap' p).map value = (heap p).map value) :
    entriesAt heap' ps = entriesAt heap ps :=
  List.filterMap_congr h

structure Kept (c c' : LruCache K V) : Prop where
  value : ∀ q, (c'.heap q).map value = (c.heap q).map value
  searcher : c'.searcher = c.searcher
  nextNode : c'.nextNode = c.nextNode

theorem lruTouch_spec (h : Linked c.heap c.lruFront c.lruTail (as ++ node :: bs)) :
    ∃ c', c.lruTouch node = some c' ∧
      Linked c'.heap c'.lruFront c'.lruTail (node :: (as ++ bs)) ∧ Kept c c' := by
  obtain ⟨n, hn, hprev, hnext⟩ := h.node
  simp only [lruTouch, hn, Option.bind_eq_bind, Option.bind_some]
  by_cases has : as = []
  · subst has
    rw [if_pos (show n.prev = none from hprev)]
    exact ⟨c, rfl, h, fun _ => rfl, rfl, rfl⟩
  · have hlast : as.getLast? ≠ none := fun hnone => has (List.getLast?_eq_none_iff.mp hnone)
    rw [if_neg (hprev ▸ hlast), hprev, hnext]
    obtain ⟨heap₁, heap₂, hpatch₁, hpatch₂, hsame, hlinked, hrelinked⟩ := h.unlink
    rw [patch, if_neg hlast] at hpatch₁
    rw [hpatch₁, Option.bind_some, hsame, hn, Option.bind_some]
    have hfront : (as ++ bs).head? = c.lruFront := by
      rw [h.front, List.head?_append_of_ne_nil as has, List.head?_append_of_ne_nil as has]
    have hmid : relinkBehind n heap₁ c.lruTail = some (heap₂, (as ++ bs).getLast?) := by
      rw [relinkBehind, hprev, hnext]
      cases bs with
      | nil =>
        rw [List.append_nil]
        exact congrArg (Option.map fun heap => (heap, as.getLast?)) hpatch₂
      | cons q bs =>
        rw [patch, if_neg (by simp)] at hpatch₂
        rw [if_pos (by simp), hpatch₂, Option.map_some, h.tail]
        simp
    rw [hmid, Option.bind_some]
    obtain ⟨heap₃, heap₄, hwrite, hpatch, hlinked', hrelinked'⟩ :=
      hlinked.linkFront ((hrelinked.other node h.not_mem).trans hn) h.not_mem
    rw [hfront] at hwrite hpatch
    simp only [hwrite, hpatch, Option.bind_some]
    refine ⟨_, rfl, ?_, fun q => (hrelinked'.value q).trans (hrelinked.value q), rfl, rfl⟩
    have htail : (as ++ bs).getLast?.or (some node) = (as ++ bs).getLast? := by
      cases hcase : (as ++ bs).getLast? with
      | none => exact absurd (List.append_eq_nil_iff.mp (List.getLast?_eq_none_iff.mp hcase)).1 has
      | some last => rfl
    rw [htail] at hlinked'
    exact hlinked'

variable [BEq K] [Hashable K] {key : K}

theorem isAt_congr
    (h : (heap' node).map value = (heap node).map value) :
    isAt heap' key node = isAt heap key node := by
  have hany := congrArg (Option.any fun e => hash key == hash e.1 && key == e.1) h
  rw [Option.any_map, Option.any_map] at hany
  exact hany

omit [BEq K] [Hashable K] in
theorem readable_congr (c c' : LruCache K V) (hsearcher : c'.searcher = c.searcher)
    (h : ∀ p ∈ c.searcher, (c'.heap p).map value = (c.heap p).map value) :
    c'.readable = c.readable := by
  rw [LruCache.readable, LruCache.readable, hsearcher]
  rw [Bool.eq_iff_iff, List.all_eq_true, List.all_eq_true]
  refine forall₂_congr fun p hp => ?_
  rw [← Option.isSome_map (f := value), h p hp, Option.isSome_map]

theorem find_congr (c c' : LruCache K V) (hsearcher : c'.searcher = c.searcher)
    (h : ∀ p ∈ c.searcher, (c'.heap p).map value = (c.heap p).map value) (key : K) :
    c'.find key = c.find key := by
  rw [LruCache.find, LruCache.find, readable_congr c c' hsearcher h, hsearcher, ← List.head?_filter,
    ← List.head?_filter, List.filter_congr fun p hp => isAt_congr (h p hp)]

theorem lruPush_spec (h : Linked c.heap c.lruFront c.lruTail ps) {n : Node (K × V)}
    (hn : c.heap node = some n) (hnode : node ∉ ps) (hfind : c.find n.value.1 = some none) :
    ∃ c', c.lruPush node = some c' ∧ Linked c'.heap c'.lruFront c'.lruTail (node :: ps) ∧
      (∀ q, (c'.heap q).map value = (c.heap q).map value) ∧
      c'.searcher = node :: c.searcher ∧ c'.nextNode = c.nextNode := by
  obtain ⟨heap₁, heap₂, hwrite, hpatch, hlinked, hrelinked⟩ := h.linkFront hn hnode
  have htail : (if c.lruTail = none then some node else c.lruTail) = c.lruTail.or (some node) := by
    cases c.lruTail <;> rfl
  have hvalue := hrelinked.value node
  rw [hn, Option.map_some, Option.map_eq_some_iff] at hvalue
  obtain ⟨n', hn', hvalue⟩ := hvalue
  obtain ⟨c', hc'⟩ : ∃ c' : LruCache K V, c' = { c with
    heap := heap₂, lruTail := c.lruTail.or (some node), lruFront := some node } := ⟨_, rfl⟩
  have hinsert : LruCache.insert node c' = some { c' with searcher := node :: c.searcher } := by
    have hfind' := find_congr c c' (by rw [hc']) (fun p _ => by rw [hc']; exact hrelinked.value p)
      n.value.1
    have hheap : c'.heap node = some n' := by
      rw [hc']
      exact hn'
    rw [LruCache.insert, hheap]
    dsimp only
    rw [hvalue, hfind', hfind, hc']
  refine ⟨{ c' with searcher := node :: c.searcher }, ?_, ?_⟩
  · simp only [lruPush, htail, hwrite, hpatch, Option.bind_eq_bind, Option.bind_some, ← hc']
    exact hinsert
  · rw [hc']
    exact ⟨hlinked, hrelinked.value, rfl, rfl⟩

end Lists

section Represents

variable [BEq K] [EquivBEq K]

open LruCache

def classEntry (e : K × V) : Σ _ : Class K, V := ⟨classOf e.1, e.2⟩

structure Represents (c : LruCache K V) (ps : List ℕ) (m : Entries (Class K) V) : Prop where
  linked : Linked c.heap c.lruFront c.lruTail ps
  searcher : c.searcher.Perm ps
  fresh : ∀ p ∈ ps, p < c.nextNode
  entries : m.entries = (entriesAt c.heap ps).map classEntry

variable {c c' : LruCache K V} {node : ℕ} {as bs ps : List ℕ} {m : Entries (Class K) V}

theorem kerase_middle {κ υ : Type*} [DecidableEq κ] {key : κ} {value : υ}
    {before behind : List (Σ _ : κ, υ)} (h : (before ++ ⟨key, value⟩ :: behind).NodupKeys) :
    (before ++ ⟨key, value⟩ :: behind).kerase key = before ++ behind := by
  have hnot : key ∉ before.keys := by
    rw [List.NodupKeys, List.keys, List.map_append, List.map_cons, List.nodup_append] at h
    exact fun hin => h.2.2 key hin key List.mem_cons_self rfl
  rw [List.kerase_append_right hnot]
  exact congrArg (before ++ ·) (List.kerase_cons_eq rfl)

theorem Represents.split (h : Represents c (as ++ node :: bs) m) {n : Node (K × V)}
    (hn : c.heap node = some n) : m.lookup (classOf n.value.1) = some n.value.2 ∧
      m.entries.kerase (classOf n.value.1) = (entriesAt c.heap (as ++ bs)).map classEntry := by
  have hentries := h.entries
  rw [entriesAt_append, entriesAt_cons hn, List.map_append, List.map_cons] at hentries
  constructor
  · rw [← Option.mem_def, AList.mem_lookup_iff, hentries]
    exact List.mem_append_right _ List.mem_cons_self
  · have hnodup := m.nodupKeys
    rw [hentries] at hnodup ⊢
    rw [entriesAt_append, List.map_append]
    exact kerase_middle hnodup

theorem Represents.touch (h : Represents c (as ++ node :: bs) m) {n : Node (K × V)}
    (hn : c.heap node = some n) {value : V} {heap : Heap (K × V)}
    (hheap : heap = Function.update c.heap node (some { n with value := (n.value.1, value) })) :
    ∃ c', lruTouch node { c with heap } = some c' ∧
      Represents c' (node :: (as ++ bs)) (m.insert (classOf n.value.1) value) ∧
      (c'.heap node).map Node.value = some (n.value.1, value) := by
  have hlinked : Linked heap c.lruFront c.lruTail (as ++ node :: bs) := by
    refine ⟨h.linked.segment.frame fun q _ k hk => ?_, h.linked.front, h.linked.tail⟩
    rw [hheap]
    by_cases hq : q = node
    · subst hq
      cases hn.symm.trans hk
      exact ⟨_, Function.update_self .., rfl, rfl⟩
    · exact ⟨k, (Function.update_of_ne hq _ _).trans hk, rfl, rfl⟩
  obtain ⟨c', htouch, hlinked', hkept⟩ := lruTouch_spec (c := { c with heap }) hlinked
  have hnode : (c'.heap node).map Node.value = some (n.value.1, value) := by
    rw [hkept.value]
    show (heap node).map Node.value = _
    rw [hheap, Function.update_self]
    rfl
  refine ⟨c', htouch, ⟨hlinked', ?_, ?_, ?_⟩, hnode⟩
  · rw [hkept.searcher]
    exact h.searcher.trans List.perm_middle
  · rw [hkept.nextNode]
    intro p hp
    exact h.fresh p (List.perm_middle.mem_iff.mpr hp)
  · obtain ⟨n', hn', hvalue⟩ := Option.map_eq_some_iff.mp hnode
    rw [AList.entries_insert, entriesAt_cons hn', List.map_cons, hvalue, (h.split hn).2]
    congr 2
    symm
    refine entriesAt_congr fun q hq => ?_
    rw [hkept.value]
    show (heap q).map Node.value = _
    rw [hheap, Function.update_of_ne (ne_of_mem_of_not_mem hq h.linked.not_mem)]

end Represents

section Calls

variable [BEq K] [EquivBEq K] [Hashable K] [LawfulHashable K]

open LruCache

variable {c : LruCache K V} {node : ℕ} {as bs ps : List ℕ} {m : Entries (Class K) V} {key : K}

theorem isAt_iff {heap : Heap (K × V)} :
    isAt heap key node ↔ ∃ n, heap node = some n ∧ classOf n.value.1 = classOf key := by
  rw [isAt, Option.any_eq_true]
  refine exists_congr fun n => and_congr_right fun _ => ?_
  rw [Bool.and_eq_true, classOf_eq_iff, BEq.comm (a := n.value.1)]
  exact and_iff_right_of_imp fun hkey => beq_iff_eq.mpr (hash_eq hkey)

omit [Hashable K] [LawfulHashable K] in
theorem Represents.readable (h : Represents c ps m) : c.readable := by
  rw [LruCache.readable, List.all_eq_true]
  intro p hp
  obtain ⟨n, hn⟩ := h.linked.exists_node (h.searcher.mem_iff.mp hp)
  rw [hn]
  rfl

theorem Represents.find (h : Represents c ps m) (key : K) :
    (c.find key = some none ∧ m.lookup (classOf key) = none) ∨
      ∃ as node bs n, ps = as ++ node :: bs ∧ c.find key = some (some node) ∧
        c.heap node = some n ∧ classOf n.value.1 = classOf key := by
  rw [LruCache.find, if_pos h.readable]
  cases hfind : c.searcher.find? (isAt c.heap key) with
  | some node =>
    obtain ⟨n, hn, hclass⟩ := isAt_iff.mp (List.find?_some hfind)
    have hmem := h.searcher.mem_iff.mp (List.mem_of_find?_eq_some hfind)
    obtain ⟨as, bs, rfl⟩ := List.append_of_mem hmem
    exact .inr ⟨as, node, bs, n, rfl, rfl, hn, hclass⟩
  | none =>
    refine .inl ⟨rfl, ?_⟩
    rw [Option.eq_none_iff_forall_not_mem]
    intro value hvalue
    rw [AList.mem_lookup_iff, h.entries, List.mem_map] at hvalue
    obtain ⟨e, he, heq⟩ := hvalue
    obtain ⟨p, hp, hentry⟩ := List.mem_filterMap.mp he
    obtain ⟨n, hn, rfl⟩ := Option.map_eq_some_iff.mp hentry
    have hnot := List.find?_eq_none.mp hfind p (h.searcher.mem_iff.mpr hp)
    exact hnot (isAt_iff.mpr ⟨n, hn, congrArg Sigma.fst heq⟩)

theorem Represents.get (h : Represents c ps m) (key : K) :
    ∃ c' ps', c.get key = some (m.lookup (classOf key), c') ∧
      Represents c' ps' (step m.keys.length m (.get (classOf key))).2 := by
  rw [LruCache.get, step]
  rcases h.find key with ⟨hfind, hlookup⟩ | ⟨as, node, bs, n, rfl, hfind, hn, hclass⟩
  · rw [hfind, hlookup]
    exact ⟨c, ps, rfl, h⟩
  · have hlookup := (h.split hn).1
    have hheap : c.heap = Function.update c.heap node (some n) := by
      rw [← hn, Function.update_eq_self]
    obtain ⟨c', htouch, hrep, hnode⟩ := h.touch hn hheap
    obtain ⟨n', hn', hvalue⟩ := Option.map_eq_some_iff.mp hnode
    rw [hclass] at hlookup hrep
    rw [hfind, hlookup]
    refine ⟨c', _, ?_, hrep⟩
    show (c.lruTouch node).bind _ = _
    rw [htouch, Option.bind_some, hn', Option.map_some, hvalue]

omit [LawfulHashable K] in
theorem Represents.put_new (h : Represents c ps m) (value : V) (hfind : c.find key = some none)
    (hlookup : m.lookup (classOf key) = none) :
    ∃ c', (c.newNode key value).lruPush c.nextNode = some c' ∧
      Represents c' (c.nextNode :: ps) (m.insert (classOf key) value) := by
  have hfresh : c.nextNode ∉ ps := fun hin => lt_irrefl _ (h.fresh _ hin)
  have hother : ∀ p ∈ ps, (c.newNode key value).heap p = c.heap p := fun p hp =>
    Function.update_of_ne (ne_of_mem_of_not_mem hp hfresh) _ _
  have hself : (c.newNode key value).heap c.nextNode = some { value := (key, value) } :=
    Function.update_self ..
  have hsame : (c.newNode key value).find key = c.find key := by
    refine find_congr c (c.newNode key value) rfl (fun p hp => ?_) key
    rw [hother p (h.searcher.mem_iff.mp hp)]
  have hlinked : Linked (c.newNode key value).heap c.lruFront c.lruTail ps :=
    ⟨h.linked.segment.update_other hfresh _, h.linked.front, h.linked.tail⟩
  obtain ⟨c', hpush, hlinked, hvalue, hsearcher, hnext⟩ :=
    lruPush_spec hlinked hself hfresh (hsame.trans hfind)
  refine ⟨c', hpush, hlinked, ?_, ?_, ?_⟩
  · rw [hsearcher]
    exact h.searcher.cons _
  · rw [hnext]
    intro p hp
    rcases List.mem_cons.mp hp with rfl | hp
    · exact Nat.lt_succ_self _
    · exact Nat.lt_succ_of_lt (h.fresh p hp)
  · have hnode := hvalue c.nextNode
    rw [hself, Option.map_some, Option.map_eq_some_iff] at hnode
    obtain ⟨n, hn, hentry⟩ := hnode
    rw [AList.entries_insert_of_notMem (AList.lookup_eq_none.mp hlookup), entriesAt_cons hn,
      List.map_cons, hentry, h.entries]
    congr 2
    symm
    refine entriesAt_congr fun q hq => ?_
    rw [hvalue, hother q hq]

theorem Represents.put (h : Represents c ps m) (key : K) (value : V) :
    ∃ c' ps', c.put key value = some c' ∧ Represents c' ps' (m.insert (classOf key) value) := by
  rw [LruCache.put]
  rcases h.find key with ⟨hfind, hlookup⟩ | ⟨as, node, bs, n, rfl, hfind, hn, hclass⟩
  · obtain ⟨c', hpush, hrep⟩ := h.put_new value hfind hlookup
    rw [hfind]
    exact ⟨c', _, hpush, hrep⟩
  · obtain ⟨c', htouch, hrep, -⟩ := h.touch hn rfl
    rw [hclass] at hrep
    rw [hfind]
    refine ⟨c', _, ?_, hrep⟩
    dsimp only
    rw [write_some hn, Option.bind_some]
    exact htouch

theorem Represents.isAt_other (h : Represents c (as ++ node :: bs) m) {n : Node (K × V)}
    (hn : c.heap node = some n) {q : ℕ} (hq : q ∈ as ++ bs) : isAt c.heap n.value.1 q = false := by
  rw [Bool.eq_false_iff]
  intro hat
  obtain ⟨nq, hnq, hclass⟩ := isAt_iff.mp hat
  have hmem : classEntry nq.value ∈ m.entries.kerase (classOf n.value.1) := by
    rw [(h.split hn).2]
    refine List.mem_map_of_mem (List.mem_filterMap.mpr ⟨q, hq, ?_⟩)
    rw [hnq, Option.map_some]
  have hkey := List.mem_keys_of_mem hmem
  rw [show (classEntry nq.value).1 = classOf n.value.1 from hclass] at hkey
  exact List.notMem_keys_kerase _ m.nodupKeys hkey

theorem Represents.searcher_filter (h : Represents c (as ++ node :: bs) m) {n : Node (K × V)}
    (hn : c.heap node = some n) :
    (c.searcher.filter fun p => !isAt c.heap n.value.1 p).Perm (as ++ bs) := by
  have hself : isAt c.heap n.value.1 node = true := isAt_iff.mpr ⟨n, hn, rfl⟩
  have hkeep : (as ++ bs).filter (fun p => !isAt c.heap n.value.1 p) = as ++ bs :=
    List.filter_eq_self.mpr fun q hq => by rw [h.isAt_other hn hq]; rfl
  have hperm := (h.searcher.trans List.perm_middle).filter fun p => !isAt c.heap n.value.1 p
  rw [List.filter_cons_of_neg (by simp [hself]), hkeep] at hperm
  exact hperm

theorem Represents.lruRemove (h : Represents c (as ++ node :: bs) m) {n : Node (K × V)}
    (hn : c.heap node = some n) : ∃ c', c.lruRemove node = some c' ∧
      Represents c' (as ++ bs) (m.erase (classOf n.value.1)) := by
  obtain ⟨n', hn', hprev, hnext⟩ := h.linked.node
  cases Option.some.inj (hn'.symm.trans hn)
  obtain ⟨heap₁, heap₂, hpatch₁, hpatch₂, hsame, hlinked, hrelinked⟩ := h.linked.unlink
  have hnode := (hrelinked.other node h.linked.not_mem).trans hn
  have hfilter : (c.searcher.filter fun p => !isAt heap₂ n.value.1 p).Perm (as ++ bs) := by
    have hat (p : ℕ) : isAt heap₂ n.value.1 p = isAt c.heap n.value.1 p :=
      isAt_congr (hrelinked.value p)
    simp only [hat]
    exact h.searcher_filter hn
  have hreadable : LruCache.readable { c with
      heap := heap₂, lruFront := (as ++ bs).head?, lruTail := (as ++ bs).getLast? } := by
    refine (readable_congr c _ ?_ fun p _ => hrelinked.value p).trans h.readable
    rfl
  refine ⟨{ c with
    heap := Function.update heap₂ node none
    lruFront := (as ++ bs).head?
    lruTail := (as ++ bs).getLast?
    searcher := c.searcher.filter fun p => !isAt heap₂ n.value.1 p }, ?_, ?_, hfilter, ?_, ?_⟩
  · simp only [LruCache.lruRemove, hn, hprev, hnext, hpatch₁, hsame, hpatch₂, hnode,
      h.linked.front_unlink, h.linked.tail_unlink, Option.bind_eq_bind, Option.bind_some]
    rw [LruCache.erase]
    dsimp only
    rw [hnode]
    dsimp only
    rw [if_pos hreadable, Option.bind_some]
  · exact ⟨hlinked.segment.update_other h.linked.not_mem _, rfl, rfl⟩
  · intro p hp
    exact h.fresh p (List.perm_middle.mem_iff.mpr (List.mem_cons_of_mem node hp))
  · show m.entries.kerase (classOf n.value.1) = _
    rw [(h.split hn).2]
    refine congrArg _ (entriesAt_congr fun q hq => ?_).symm
    dsimp only
    rw [Function.update_of_ne (ne_of_mem_of_not_mem hq h.linked.not_mem), hrelinked.value]

theorem Represents.remove (h : Represents c ps m) (key : K) :
    ∃ c' ps', c.remove key = some c' ∧ Represents c' ps' (m.erase (classOf key)) := by
  rw [LruCache.remove]
  rcases h.find key with ⟨hfind, hlookup⟩ | ⟨as, node, bs, n, rfl, hfind, hn, hclass⟩
  · rw [hfind]
    refine ⟨c, ps, rfl, h.linked, h.searcher, h.fresh, ?_⟩
    rw [← h.entries]
    exact List.kerase_of_notMem_keys (AList.lookup_eq_none.mp hlookup)
  · obtain ⟨c', hremove, hrep⟩ := h.lruRemove hn
    rw [hfind]
    exact ⟨c', _, hremove, hclass ▸ hrep⟩

omit [Hashable K] [LawfulHashable K] in
theorem represents_destroy (c : LruCache K V) :
    Represents c.destroy [] (∅ : Entries (Class K) V) :=
  ⟨linked_nil _, List.Perm.refl _, by simp, rfl⟩

omit [Hashable K] [LawfulHashable K] in
theorem represents_new : Represents ({} : LruCache K V) [] (∅ : Entries (Class K) V) :=
  ⟨linked_nil _, List.Perm.refl _, by simp, rfl⟩

end Calls

section History

variable [BEq K] [EquivBEq K] [Hashable K] [LawfulHashable K]

open LruCache

def callStep (c : LruCache K V) : Call K V → Option (Event (Class K) V × LruCache K V)
  | .get key => (c.get key).map fun r => ({ call := .get (classOf key), found := r.1 }, r.2)
  | .put key value => (c.put key value).map fun c => ({ call := .put (classOf key) value }, c)
  | .erase key => (c.remove key).map fun c => ({ call := .erase (classOf key) }, c)
  | .clear => some ({ call := .clear }, c.destroy)

def runCalls : List (Call K V) → List (Event (Class K) V) → LruCache K V →
    Option (List (Event (Class K) V) × LruCache K V)
  | [], history, c => some (history, c)
  | call :: calls, history, c =>
    match callStep c call with
    | none => none
    | some (e, c) => runCalls calls (e :: history) c

variable {c : LruCache K V} {ps : List ℕ} {m : Entries (Class K) V}
  {history : List (Event (Class K) V)}

theorem Represents.callStep (h : Represents c ps m) (hfollows : Follows m.keys.length history m)
    (call : Call K V) : ∃ e c' ps' m', callStep c call = some (e, c') ∧ Represents c' ps' m' ∧
      Follows m'.keys.length (e :: history) m' := by
  have hroom {room : ℕ} {m' : Entries (Class K) V} {e : Event (Class K) V}
      (hm' : Follows room (e :: history) m') : Follows m'.keys.length (e :: history) m' :=
    ⟨hm'.lookup, hm'.inOrder, Nat.le_succ _⟩
  cases call with
  | get key =>
    obtain ⟨c', ps', hget, hrep⟩ := h.get key
    have hevent : (step m.keys.length m (.get (classOf key))).1 =
        { call := .get (classOf key), found := m.lookup (classOf key) } := by
      rw [step]
      cases m.lookup (classOf key) <;> rfl
    have hstep := step_follows hfollows (.get (classOf key))
    rw [hevent] at hstep
    refine ⟨_, c', ps', _, ?_, hrep, hroom hstep⟩
    rw [CommonLru.callStep, hget]
    rfl
  | put key value =>
    obtain ⟨c', ps', hput, hrep⟩ := h.put key value
    have hstep := step_follows hfollows (.put (classOf key) value)
    rw [step_put_length] at hstep
    refine ⟨_, c', ps', _, ?_, hrep, hroom hstep⟩
    rw [CommonLru.callStep, hput]
    rfl
  | erase key =>
    obtain ⟨c', ps', hremove, hrep⟩ := h.remove key
    refine ⟨_, c', ps', _, ?_, hrep, hroom (step_follows hfollows (.erase (classOf key)))⟩
    rw [CommonLru.callStep, hremove]
    rfl
  | clear =>
    exact ⟨_, c.destroy, [], ∅, rfl, represents_destroy c, hroom (step_follows hfollows .clear)⟩

theorem Represents.runCalls (h : Represents c ps m) (hfollows : Follows m.keys.length history m)
    (calls : List (Call K V)) : ∃ history' c' ps' m',
      runCalls calls history c = some (history', c') ∧ Represents c' ps' m' ∧
        Follows m'.keys.length history' m' := by
  induction calls generalizing c ps m history with
  | nil => exact ⟨history, c, ps, m, rfl, h, hfollows⟩
  | cons call calls ih =>
    obtain ⟨e, c', ps', m', hcall, hrep, hfollows'⟩ := h.callStep hfollows call
    rw [CommonLru.runCalls, hcall]
    exact ih hrep hfollows'

structure Consistent (c : LruCache K V) (history : List (Event (Class K) V))
    (entries : List (K × V)) : Prop where
  present : ∀ key value, lastPut (classOf key) history = some value ↔
    ∃ e ∈ entries, classOf e.1 = classOf key ∧ e.2 = value
  once : entries.Pairwise fun a b => classOf a.1 ≠ classOf b.1
  inOrder : entries.Pairwise fun a b =>
    lastUse (classOf b.1) history < lastUse (classOf a.1) history
  foreach : ∀ {σ : Type w} (func : K → V → σ → Bool × σ) (s : σ),
    Yields (c.foreachLoop func) (c.lruFront, s) (some (visit (fun e => func e.1 e.2) entries s))
  foreachReverse : ∀ {σ : Type w} (func : K → V → σ → Bool × σ) (s : σ),
    Yields (c.foreachReverseLoop func) (c.lruTail, s)
      (some (visit (fun e => func e.1 e.2) entries.reverse s))
  count : c.count = entries.length
  get : ∀ key, ∃ c', c.get key = some (lastPut (classOf key) history, c')

theorem Represents.consistent (h : Represents c ps m) {room : ℕ}
    (hfollows : Follows room history m) : Consistent c history (entriesAt c.heap ps) := by
  have hkeys : m.keys = (entriesAt c.heap ps).map fun e => classOf e.1 := by
    rw [AList.keys, h.entries, List.keys, List.map_map]
    rfl
  have hnodes : (ps.filterMap c.heap).map value = entriesAt c.heap ps :=
    List.map_filterMap
  refine ⟨?_, ?_, ?_, ?_, ?_, ?_, ?_⟩
  · intro key value
    rw [← hfollows.lookup, ← Option.mem_def, AList.mem_lookup_iff, h.entries, List.mem_map]
    refine exists_congr fun e => and_congr_right fun _ => ?_
    rw [classEntry, Sigma.mk.injEq, heq_eq_eq]
  · have hnodup := m.keys_nodup
    rw [hkeys, List.Nodup, List.pairwise_map] at hnodup
    exact hnodup
  · have horder := hfollows.inOrder
    rw [hkeys, List.pairwise_map] at horder
    exact horder
  · intro σ func s
    have hwalk := walk_yields h.linked.segment.path (fun n => func n.value.1 n.value.2) s
    rw [visit_map (fun e : K × V => func e.1 e.2) value, hnodes, ← h.linked.front] at hwalk
    exact hwalk
  · intro σ func s
    have hwalk := walk_yields h.linked.segment.path_reverse (fun n => func n.value.1 n.value.2) s
    rw [visit_map (fun e : K × V => func e.1 e.2) value, List.filterMap_reverse,
      List.map_reverse, hnodes, ← h.linked.tail] at hwalk
    exact hwalk
  · rw [LruCache.count, h.searcher.length_eq, ← hnodes, List.length_map, eq_comm,
      List.filterMap_length_eq_length]
    intro p hp
    obtain ⟨n, hn⟩ := h.linked.exists_node hp
    rw [hn]
    rfl
  · intro key
    obtain ⟨c', -, hget, -⟩ := h.get key
    rw [hfollows.lookup] at hget
    exact ⟨c', hget⟩

/-- List and index agree after any calls. -/
theorem list_and_index_consistent (calls : List (Call K V)) :
    ∃ history c entries, runCalls calls [] ({} : LruCache K V) = some (history, c) ∧
      Consistent c history entries := by
  obtain ⟨history, c, ps, m, hrun, hrep, hfollows⟩ :=
    represents_new.runCalls (follows_empty _) calls
  exact ⟨history, c, entriesAt c.heap ps, hrun, hrep.consistent hfollows⟩

/-- The older key is touched before it goes. -/
theorem list_and_index_consistent_nat :
    ∃ history c entries,
      runCalls [.put 1 10, .put 2 20, .get 1, .erase 1, .put 3 30] [] ({} : LruCache ℕ ℕ) =
        some (history, c) ∧ Consistent.{0} c history entries :=
  list_and_index_consistent _

end History

end CommonLru
