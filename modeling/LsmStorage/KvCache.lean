import LsmStorage.RecencyMap
import Mathlib.Data.Finmap

/-! # ObKVCache

A hash map whose entries point into a list of the keys, the most recently used first. An
iterator is the number of a list node; numbers are not used twice. To erase a node that is not
in the list is undefined, `none`. -/
namespace KvCache

open RecencyMap

variable {κ υ : Type*} [DecidableEq κ]

structure CacheEntry (υ : Type*) where
  value : υ
  lruIter : ℕ

/-- The nodes of `lru_list_` come with their numbers. -/
structure ObKVCache (κ υ : Type*) where
  capacity : ℤ := 1024
  size : ℤ := 0
  map : Finmap (fun _ : κ => CacheEntry υ) := ∅
  lruList : List (ℕ × κ) := []
  nextNode : ℕ := 0

def eraseNode {κ : Type*} (iter : ℕ) : List (ℕ × κ) → Option (List (ℕ × κ))
  | [] => none
  | node :: list => if node.1 = iter then some list else (eraseNode iter list).map (node :: ·)

namespace ObKVCache

def new : ObKVCache κ υ := {}

/-- What is in the cache stays. -/
def init (capacity : ℤ) (c : ObKVCache κ υ) : ℤ × ObKVCache κ υ :=
  (0, { c with capacity := capacity, size := 0 })

def moveToFront (key : κ) (entry : CacheEntry υ) (c : ObKVCache κ υ) : Option (ObKVCache κ υ) :=
  (eraseNode entry.lruIter c.lruList).map fun list =>
    { c with
      lruList := (c.nextNode, key) :: list
      map := c.map.insert key { entry with lruIter := c.nextNode }
      nextNode := c.nextNode + 1 }

/-- The inner `none` is the answer `false`. -/
def get (key : κ) (c : ObKVCache κ υ) : Option (Option υ × ObKVCache κ υ) :=
  match c.map.lookup key with
  | none => some (none, c)
  | some entry => (c.moveToFront key entry).map fun c => (some entry.value, c)

/-- The loop of `put` on the list from its back; the keys that go are a ghost observation. -/
def evict (capacity : ℤ) : List (ℕ × κ) → ℤ → Finmap (fun _ : κ => CacheEntry υ) →
    List κ × List (ℕ × κ) × ℤ × Finmap (fun _ : κ => CacheEntry υ)
  | [], size, map => ([], [], size, map)
  | oldest :: list, size, map =>
    if size ≥ capacity then
      let (evicted, rest) := evict capacity list (size - 1) (map.erase oldest.2)
      (oldest.2 :: evicted, rest)
    else ([], oldest :: list, size, map)

def put (key : κ) (value : υ) (c : ObKVCache κ υ) : Option (ℤ × List κ × ObKVCache κ υ) :=
  match c.map.lookup key with
  | some entry =>
    (c.moveToFront key { entry with value := value }).map fun c => (0, [], c)
  | none =>
    let (evicted, list, size, map) := evict c.capacity c.lruList.reverse c.size c.map
    some (0, evicted, { c with
      lruList := (c.nextNode, key) :: list.reverse
      map := map.insert key ⟨value, c.nextNode⟩
      size := size + 1
      nextNode := c.nextNode + 1 })

def erase (key : κ) (c : ObKVCache κ υ) : Option (ℤ × ObKVCache κ υ) :=
  match c.map.lookup key with
  | none => some (0, c)
  | some entry =>
    (eraseNode entry.lruIter c.lruList).map fun list =>
      (0, { c with lruList := list, map := c.map.erase key, size := c.size - 1 })

def clear (c : ObKVCache κ υ) : ObKVCache κ υ := { c with map := ∅, lruList := [], size := 0 }

def recency (c : ObKVCache κ υ) : List κ := c.lruList.map Prod.snd

end ObKVCache

open ObKVCache

def callStep (c : ObKVCache κ υ) : Call κ υ → Option (Event κ υ × ObKVCache κ υ)
  | .get key => (c.get key).map fun r => ({ call := .get key, found := r.1 }, r.2)
  | .put key value =>
    (c.put key value).map fun r => ({ call := .put key value, evicted := r.2.1 }, r.2.2)
  | .erase key => (c.erase key).map fun r => ({ call := .erase key }, r.2)
  | .clear => some ({ call := .clear }, c.clear)

def runCalls : List (Call κ υ) → List (Event κ υ) → ObKVCache κ υ →
    Option (List (Event κ υ) × ObKVCache κ υ)
  | [], history, c => some (history, c)
  | call :: calls, history, c =>
    match callStep c call with
    | none => none
    | some (e, c) => runCalls calls (e :: history) c

section Nodes

theorem eraseNode_of_mem {iter : ℕ} {key : κ} {list : List (ℕ × κ)}
    (hnodes : (list.map Prod.fst).Nodup) (hkeys : (list.map Prod.snd).Nodup)
    (h : (iter, key) ∈ list) :
    ∃ rest, eraseNode iter list = some rest ∧ rest.Sublist list ∧
      rest.map Prod.snd = (list.map Prod.snd).erase key ∧
      ∀ node ∈ list, node.2 ≠ key → node ∈ rest := by
  induction list with
  | nil => cases h
  | cons node list ih =>
    rw [List.map_cons, List.nodup_cons] at hnodes hkeys
    by_cases hiter : node.1 = iter
    · have hnode : node = (iter, key) := by
        rcases List.mem_cons.mp h with heq | hmem
        · exact heq.symm
        · exact absurd (hiter ▸ List.mem_map_of_mem (f := Prod.fst) hmem) hnodes.1
      subst hnode
      refine ⟨list, if_pos rfl, List.sublist_cons_self _ _, ?_, fun n hn hne => ?_⟩
      · rw [List.map_cons, List.erase_cons_head]
      · rcases List.mem_cons.mp hn with rfl | hn
        · exact absurd rfl hne
        · exact hn
    · have hmem : (iter, key) ∈ list := by
        rcases List.mem_cons.mp h with rfl | hmem
        · exact absurd rfl hiter
        · exact hmem
      have hne : node.2 ≠ key := fun heq =>
        hkeys.1 (heq ▸ List.mem_map_of_mem (f := Prod.snd) hmem)
      obtain ⟨rest, hrest, hsub, hmap, hothers⟩ := ih hnodes.2 hkeys.2 hmem
      refine ⟨node :: rest, ?_, hsub.cons_cons node, ?_, fun n hn hn' => ?_⟩
      · rw [eraseNode, if_neg hiter, hrest, Option.map_some]
      · rw [List.map_cons, List.map_cons, hmap, List.erase_cons_tail (by simpa using hne)]
      · rcases List.mem_cons.mp hn with rfl | hn
        · exact List.mem_cons_self
        · exact List.mem_cons_of_mem node (hothers n hn hn')

def room (capacity : ℤ) : ℕ := (capacity - 1).toNat

theorem evict_eq (capacity : ℤ) (list : List (ℕ × κ)) (map : Finmap fun _ : κ => CacheEntry υ) :
    evict capacity list list.length map =
      ((list.take (list.length - room capacity)).map Prod.snd,
        list.drop (list.length - room capacity),
        ((list.drop (list.length - room capacity)).length : ℤ),
        (list.take (list.length - room capacity)).foldl (fun map node => map.erase node.2)
          map) := by
  induction list generalizing map with
  | nil => simp [evict]
  | cons node list ih =>
    have hlen : ((node :: list).length : ℤ) = list.length + 1 := by simp
    rw [evict]
    split
    · next hfull =>
      have hgone : (node :: list).length - room capacity = list.length - room capacity + 1 := by
        rw [room, List.length_cons]
        omega
      rw [hgone, hlen, Int.add_sub_cancel, ih]
      rfl
    · next hfits =>
      have hgone : (node :: list).length - room capacity = 0 := by
        rw [room, List.length_cons]
        omega
      rw [hgone]
      rfl

theorem evict_reverse (capacity : ℤ) (list : List (ℕ × κ))
    (map : Finmap fun _ : κ => CacheEntry υ) :
    evict capacity list.reverse list.length map =
      (((list.drop (room capacity)).map Prod.snd).reverse, (list.take (room capacity)).reverse,
        ((list.take (room capacity)).length : ℤ),
        (list.drop (room capacity)).reverse.foldl (fun map node => map.erase node.2) map) := by
  have hevict := evict_eq capacity list.reverse map
  have hkept : list.length - (list.length - room capacity) = min (room capacity) list.length := by
    omega
  rw [List.length_reverse, List.take_reverse, List.drop_reverse, hkept, ← List.take_eq_take_min,
    ← List.drop_eq_drop_min, List.length_reverse, List.map_reverse] at hevict
  exact hevict

theorem lookup_foldl_erase (nodes : List (ℕ × κ)) (map : Finmap fun _ : κ => CacheEntry υ)
    (key : κ) :
    (nodes.foldl (fun map node => map.erase node.2) map).lookup key =
      if key ∈ nodes.map Prod.snd then none else map.lookup key := by
  induction nodes generalizing map with
  | nil => rfl
  | cons node nodes ih =>
    rw [List.foldl_cons, ih]
    by_cases hkey : key = node.2
    · rw [hkey, Finmap.lookup_erase, List.map_cons, if_pos List.mem_cons_self, ite_self]
    · rw [Finmap.lookup_erase_ne hkey, List.map_cons]
      simp only [List.mem_cons, hkey, false_or]

end Nodes

section Simulation

structure Represents (c : ObKVCache κ υ) (m : Entries κ υ) : Prop where
  recency : c.recency = m.keys
  nodes : (c.lruList.map Prod.fst).Nodup
  below : ∀ node ∈ c.lruList, node.1 < c.nextNode
  value : ∀ key, (c.map.lookup key).map CacheEntry.value = m.lookup key
  iter : ∀ key entry, c.map.lookup key = some entry → (entry.lruIter, key) ∈ c.lruList
  size : c.size = c.lruList.length

variable {c : ObKVCache κ υ} {m : Entries κ υ}

theorem represents_empty (hmap : c.map = ∅) (hlist : c.lruList = []) (hsize : c.size = 0) :
    Represents c ∅ where
  recency := by
    rw [recency, hlist]
    rfl
  nodes := by simp [hlist]
  below := by simp [hlist]
  value := by simp [hmap]
  iter := by simp [hmap]
  size := by simp [hlist, hsize]

theorem keys_nodup (h : Represents c m) : c.recency.Nodup := by
  rw [h.recency]
  exact m.keys_nodup

theorem lookup_eq_none_iff (h : Represents c m) (key : κ) :
    c.map.lookup key = none ↔ m.lookup key = none := by
  rw [← h.value, Option.map_eq_none_iff]

theorem lookup_of_cached (h : Represents c m) {key : κ} {entry : CacheEntry υ}
    (hlookup : c.map.lookup key = some entry) : m.lookup key = some entry.value := by
  rw [← h.value, hlookup]
  rfl

theorem exists_eraseNode (h : Represents c m) {key : κ} {entry : CacheEntry υ}
    (hlookup : c.map.lookup key = some entry) :
    ∃ rest, eraseNode entry.lruIter c.lruList = some rest ∧ rest.Sublist c.lruList ∧
      rest.map Prod.snd = m.keys.erase key ∧ rest.length + 1 = c.lruList.length ∧
      ∀ node ∈ c.lruList, node.2 ≠ key → node ∈ rest := by
  have hmem := h.iter key entry hlookup
  obtain ⟨rest, hrest, hsub, hmap, hothers⟩ := eraseNode_of_mem h.nodes (keys_nodup h) hmem
  refine ⟨rest, hrest, hsub, ?_, ?_, hothers⟩
  · rw [hmap, ← h.recency]
    rfl
  · have hlen := congrArg List.length hmap
    rw [List.length_map, List.length_erase_of_mem (List.mem_map_of_mem hmem),
      List.length_map] at hlen
    have hpos := List.length_pos_of_mem hmem
    omega

theorem represents_push (h : Represents c m) {m' : Entries κ υ} {rest : List (ℕ × κ)}
    {map : Finmap fun _ : κ => CacheEntry υ} {key : κ} {size : ℤ} (value : υ)
    (hsub : rest.Sublist c.lruList) (hrest : rest.map Prod.snd = m'.keys.erase key)
    (hsize : size = rest.length + 1)
    (hvalue : ∀ k, k ≠ key → (map.lookup k).map CacheEntry.value = m'.lookup k)
    (hiter : ∀ k, k ≠ key → ∀ entry, map.lookup k = some entry → (entry.lruIter, k) ∈ rest) :
    Represents { c with
      lruList := (c.nextNode, key) :: rest
      map := map.insert key ⟨value, c.nextNode⟩
      size := size
      nextNode := c.nextNode + 1 } (m'.insert key value) where
  recency := by rw [recency, List.map_cons, hrest, AList.keys_insert]
  nodes := by
    rw [List.map_cons, List.nodup_cons]
    refine ⟨fun hmem => ?_, h.nodes.sublist (hsub.map Prod.fst)⟩
    obtain ⟨node, hnode, heq⟩ := List.mem_map.mp hmem
    exact absurd heq (Nat.ne_of_lt (h.below node (hsub.subset hnode)))
  below := by
    intro node hnode
    rcases List.mem_cons.mp hnode with rfl | hnode
    · exact Nat.lt_succ_self _
    · exact Nat.lt_succ_of_lt (h.below node (hsub.subset hnode))
  value := by
    intro k
    by_cases hk : k = key
    · rw [hk, Finmap.lookup_insert, AList.lookup_insert]
      rfl
    · rw [Finmap.lookup_insert_of_ne _ hk, AList.lookup_insert_ne hk, hvalue k hk]
  iter := by
    intro k entry hentry
    by_cases hk : k = key
    · rw [hk, Finmap.lookup_insert] at hentry
      cases hentry
      rw [hk]
      exact List.mem_cons_self
    · rw [Finmap.lookup_insert_of_ne _ hk] at hentry
      exact List.mem_cons_of_mem _ (hiter k hk entry hentry)
  size := by
    rw [hsize, List.length_cons]
    rfl

theorem represents_moveToFront (h : Represents c m) {key : κ} {entry : CacheEntry υ}
    (hlookup : c.map.lookup key = some entry) (value : υ) :
    ∃ c', c.moveToFront key { entry with value := value } = some c' ∧
      c'.capacity = c.capacity ∧ Represents c' (m.insert key value) := by
  obtain ⟨rest, hrest, hsub, hmap, hlen, hothers⟩ := exists_eraseNode h hlookup
  rw [moveToFront, hrest]
  refine ⟨_, rfl, rfl, represents_push h value hsub hmap ?_ (fun k _ => h.value k) ?_⟩
  · rw [h.size, ← hlen]
    rfl
  · intro k hk e he
    exact hothers _ (h.iter k e he) hk

theorem map_take (h : Represents c m) (n : ℕ) :
    (c.lruList.take n).map Prod.snd = m.keys.take n := by
  rw [List.map_take, ← h.recency]
  rfl

theorem map_drop (h : Represents c m) (n : ℕ) :
    (c.lruList.drop n).map Prod.snd = m.keys.drop n := by
  rw [List.map_drop, ← h.recency]
  rfl

theorem represents_put_new (h : Represents c m) {key : κ} (hlookup : c.map.lookup key = none)
    (value : υ) :
    ∃ c', c.put key value = some (0, (m.keys.drop (room c.capacity)).reverse, c') ∧
      c'.capacity = c.capacity ∧
      Represents c' ((keep (room c.capacity) m).insert key value) := by
  have hmap (k : κ) := lookup_foldl_erase (c.lruList.drop (room c.capacity)).reverse c.map k
  simp only [List.map_reverse, map_drop h] at hmap
  rw [ObKVCache.put, hlookup, h.size, evict_reverse, map_drop h]
  simp only [List.reverse_reverse]
  refine ⟨_, rfl, rfl, represents_push h value (List.take_sublist _ _) ?_ rfl ?_ ?_⟩
  · have hnew : key ∉ m.keys.take (room c.capacity) := by
      intro hmem
      rw [lookup_eq_none_iff h, AList.lookup_eq_none, AList.mem_keys] at hlookup
      exact hlookup (List.mem_of_mem_take hmem)
    rw [map_take h, keys_keep, List.erase_of_not_mem hnew]
  · intro k _
    rw [hmap, lookup_keep_eq]
    split
    · rfl
    · exact h.value k
  · -- a node that is not in the part that goes is in the part that stays
    intro k _ entry hentry
    rw [hmap] at hentry
    split at hentry
    · cases hentry
    · next hstays =>
      have hnode := h.iter k entry hentry
      rw [← List.take_append_drop (room c.capacity) c.lruList] at hnode
      rcases List.mem_append.mp hnode with htake | hdrop
      · exact htake
      · rw [List.mem_reverse, ← map_drop h] at hstays
        exact absurd (List.mem_map_of_mem hdrop) hstays

theorem represents_erase (h : Represents c m) (key : κ) :
    ∃ c', c.erase key = some (0, c') ∧ c'.capacity = c.capacity ∧
      Represents c' (m.erase key) := by
  rw [ObKVCache.erase]
  cases hlookup : c.map.lookup key with
  | none =>
    have hnone := (lookup_eq_none_iff h key).mp hlookup
    have hkeys : (m.erase key).keys = m.keys := by
      rw [AList.keys_erase, List.erase_of_not_mem]
      rwa [AList.lookup_eq_none, AList.mem_keys] at hnone
    refine ⟨c, rfl, rfl, h.recency.trans hkeys.symm, h.nodes, h.below, fun k => ?_, h.iter, h.size⟩
    by_cases hk : k = key
    · rw [hk, hlookup, AList.lookup_erase]
      rfl
    · rw [h.value, AList.lookup_erase_ne hk]
  | some entry =>
    obtain ⟨rest, hrest, hsub, hmap, hlen, hothers⟩ := exists_eraseNode h hlookup
    dsimp only
    rw [hrest]
    refine ⟨_, rfl, rfl, ?_, ?_, ?_, ?_, ?_, ?_⟩
    · rw [recency, hmap, AList.keys_erase]
    · exact h.nodes.sublist (hsub.map Prod.fst)
    · exact fun node hnode => h.below node (hsub.subset hnode)
    · intro k
      by_cases hk : k = key
      · rw [hk, Finmap.lookup_erase, AList.lookup_erase]
        rfl
      · rw [Finmap.lookup_erase_ne hk, AList.lookup_erase_ne hk, h.value]
    · intro k e he
      by_cases hk : k = key
      · rw [hk, Finmap.lookup_erase] at he
        cases he
      · rw [Finmap.lookup_erase_ne hk] at he
        exact hothers _ (h.iter k e he) hk
    · rw [h.size, ← hlen]
      simp

theorem callStep_represents (h : Represents c m) (call : Call κ υ) :
    ∃ c', callStep c call = some ((step (room c.capacity) m call).1, c') ∧
      c'.capacity = c.capacity ∧ Represents c' (step (room c.capacity) m call).2 := by
  cases call with
  | get key =>
    rw [callStep, ObKVCache.get, step]
    cases hlookup : c.map.lookup key with
    | none =>
      rw [(lookup_eq_none_iff h key).mp hlookup]
      exact ⟨c, rfl, rfl, h⟩
    | some entry =>
      obtain ⟨c', hmove, hcapacity, hc'⟩ := represents_moveToFront h hlookup entry.value
      rw [lookup_of_cached h hlookup]
      dsimp only
      rw [hmove]
      exact ⟨c', rfl, hcapacity, hc'⟩
  | put key value =>
    rw [callStep, step]
    cases hlookup : c.map.lookup key with
    | none =>
      obtain ⟨c', hput, hcapacity, hc'⟩ := represents_put_new h hlookup value
      rw [(lookup_eq_none_iff h key).mp hlookup, hput]
      exact ⟨c', rfl, hcapacity, hc'⟩
    | some entry =>
      obtain ⟨c', hmove, hcapacity, hc'⟩ := represents_moveToFront h hlookup value
      rw [lookup_of_cached h hlookup, ObKVCache.put, hlookup]
      dsimp only
      rw [hmove]
      exact ⟨c', rfl, hcapacity, hc'⟩
  | erase key =>
    obtain ⟨c', herase, hcapacity, hc'⟩ := represents_erase h key
    rw [callStep, herase]
    exact ⟨c', rfl, hcapacity, hc'⟩
  | clear => exact ⟨c.clear, rfl, rfl, represents_empty rfl rfl rfl⟩

theorem runCalls_represents (h : Represents c m) (calls : List (Call κ υ))
    (history : List (Event κ υ)) :
    ∃ c', runCalls calls history c =
        some ((runFrom (room c.capacity) calls history m).1, c') ∧
      c'.capacity = c.capacity ∧
      Represents c' (runFrom (room c.capacity) calls history m).2 := by
  induction calls generalizing history c m with
  | nil => exact ⟨c, rfl, rfl, h⟩
  | cons call calls ih =>
    obtain ⟨c₁, hstep, hcapacity, hc₁⟩ := callStep_represents h call
    obtain ⟨c₂, hrun, hcapacity₂, hc₂⟩ := ih hc₁ ((step (room c.capacity) m call).1 :: history)
    rw [hcapacity] at hrun hcapacity₂ hc₂
    exact ⟨c₂, by rw [runCalls, hstep]; exact hrun, hcapacity₂, hc₂⟩

theorem mem_recency_iff (h : Represents c m) (key : κ) : key ∈ c.recency ↔ key ∈ c.map := by
  rw [h.recency, ← AList.mem_keys, ← AList.lookup_isSome, ← h.value, Option.isSome_map,
    Finmap.lookup_isSome]

theorem card_keys (h : Represents c m) : c.map.keys.card = c.lruList.length := by
  have hkeys : c.map.keys = c.recency.toFinset := by
    ext key
    rw [Finmap.mem_keys, List.mem_toFinset, mem_recency_iff h]
  rw [hkeys, List.toFinset_card_of_nodup (keys_nodup h), recency, List.length_map]

end Simulation

section LeastRecentlyUsed

structure IsLru (capacity : ℤ) (history : List (Event κ υ)) (c : ObKVCache κ υ) : Prop where
  mapSize : c.size = c.map.keys.card
  listSize : c.size = c.lruList.length
  onceEach : c.recency.Nodup
  cached : ∀ key, key ∈ c.recency ↔ key ∈ c.map
  inOrder : c.recency.Pairwise fun a b => lastUse b history < lastUse a history
  bounded : c.size ≤ max 1 capacity
  get : ∀ key, ∃ c', c.get key = some (lastPut key history, c')
  evicts : ∀ key value, ∃ kept evicted c', c.put key value = some (0, evicted, c') ∧
    c.recency = kept ++ evicted.reverse ∧ c'.recency = key :: kept.erase key

variable {c : ObKVCache κ υ} {m : Entries κ υ} {history : List (Event κ υ)}

theorem get_of_follows (h : Represents c m) {n : ℕ} (hm : Follows n history m) (key : κ) :
    ∃ c', c.get key = some (lastPut key history, c') := by
  rw [← hm.lookup, ← h.value, ObKVCache.get]
  cases hlookup : c.map.lookup key with
  | none => exact ⟨c, rfl⟩
  | some entry =>
    obtain ⟨c', hmove, -, -⟩ := represents_moveToFront h hlookup entry.value
    dsimp only
    rw [hmove]
    exact ⟨c', rfl⟩

theorem put_evicts (h : Represents c m) (key : κ) (value : υ) :
    ∃ kept evicted c', c.put key value = some (0, evicted, c') ∧
      c.recency = kept ++ evicted.reverse ∧ c'.recency = key :: kept.erase key := by
  cases hlookup : c.map.lookup key with
  | none =>
    obtain ⟨c', hput, -, hc'⟩ := represents_put_new h hlookup value
    refine ⟨m.keys.take (room c.capacity), _, c', hput, ?_, ?_⟩
    · rw [List.reverse_reverse, List.take_append_drop, h.recency]
    · rw [hc'.recency, AList.keys_insert, keys_keep]
  | some entry =>
    obtain ⟨c', hmove, -, hc'⟩ := represents_moveToFront h hlookup value
    refine ⟨c.recency, [], c', ?_, (List.append_nil _).symm, ?_⟩
    · rw [ObKVCache.put, hlookup]
      dsimp only
      rw [hmove]
      rfl
    · rw [hc'.recency, AList.keys_insert, h.recency]

theorem isLru_of_follows (h : Represents c m) {capacity : ℤ}
    (hm : Follows (room capacity) history m) : IsLru capacity history c where
  mapSize := by rw [card_keys h, h.size]
  listSize := h.size
  onceEach := keys_nodup h
  cached := mem_recency_iff h
  inOrder := by
    rw [h.recency]
    exact hm.inOrder
  bounded := by
    have hlen := hm.length
    rw [← h.recency, recency, List.length_map, room] at hlen
    rw [h.size]
    omega
  get := get_of_follows h hm
  evicts := put_evicts h

/-- After any calls on a cache that was initialised once, the cache is one that keeps the most
recently used keys, and no call ever erased a list node that was not there. -/
theorem kv_cache_is_lru (capacity : ℤ) (calls : List (Call κ υ)) :
    ∃ history c, runCalls calls [] (ObKVCache.new.init capacity).2 = some (history, c) ∧
      IsLru capacity history c := by
  obtain ⟨c, hrun, -, hc⟩ := runCalls_represents
    (represents_empty (c := (ObKVCache.new.init capacity).2) rfl rfl rfl) calls []
  exact ⟨_, c, hrun, isLru_of_follows hc (runFrom_follows (follows_empty _) calls)⟩

end LeastRecentlyUsed

end KvCache
