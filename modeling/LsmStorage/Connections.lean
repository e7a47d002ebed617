import LsmStorage.ExclusiveOwners
import Mathlib.Algebra.Order.Group.Multiset
import Mathlib.Data.Finset.Basic
import Mathlib.Data.List.AList
import Mathlib.Tactic.Abel

/-! # The connections of a server

`JavaThreadPoolThreadHandler`, with `NetServer::accept` that gives it the connections. A connection
goes round between the event base, the queue of the thread pool and the thread that has its task.
What is deleted is gone, and its address may be used again. -/
namespace Connections

open ExclusiveOwners

/-- What `ev` of an `EventCallbackAg` points to; `freed` is a pointer that was left behind. -/
inductive EventObject where
  | null | live | freed
  deriving DecidableEq, Repr

structure EventCallbackAg where
  communicator : ℕ
  ev : EventObject
  deriving DecidableEq, Repr

/-- Where the task of a request is. Behind the lock, `close_connection` goes on with what the map
had. -/
inductive Task where
  | handling (ag : ℕ)
  | adding (ag : ℕ)
  | closing (ag : ℕ)
  | freeing (communicator ag : ℕ)
  deriving DecidableEq, Repr

def Task.ag : Task → ℕ
  | .handling a | .adding a | .closing a | .freeing _ a => a

structure Server where
  communicators : Finset ℕ := ∅
  ags : ℕ → Option EventCallbackAg := fun _ => none
  eventMap : AList (fun _ : ℕ => ℕ) := ∅
  /-- The events that the event base waits for. -/
  armed : List ℕ := []
  queue : List ℕ := []
  /-- The tasks that a thread of the pool has taken. -/
  tasks : List Task := []

/-- What the threads do, with what the allocator and the calls answer. Until its first `event_add`
succeeds, a connection is out of reach of all threads but the accepting one, so that `accept` and
`new_connection` are one action. -/
inductive Action where
  | accept (communicator ag : ℕ) (eventNew eventAdd : Bool)
  | fire (ag : ℕ) (execute : Bool)
  | take
  | handle (ag : ℕ) (success : Bool)
  | addAgain (ag : ℕ) (eventAdd : Bool)
  | findEntry (ag : ℕ)
  | free (communicator ag : ℕ)
  deriving DecidableEq, Repr

namespace Server

def withAg (s : Server) (a : ℕ) (ag : Option EventCallbackAg) : Server :=
  { s with ags := Function.update s.ags a ag }

def withTask (s : Server) (task : Task) (after : Option Task) : Server :=
  { s with tasks := after.toList ++ s.tasks.erase task }

/-- `none` is a use of what has been freed. An action that no thread can take leaves all as it
is. -/
def next (s : Server) : Action → Option Server
  | .accept c a eventNew eventAdd =>
    if c ∈ s.communicators ∨ (s.ags a).isSome then some s
    -- The communicator is deleted again where a call fails, the `EventCallbackAg` is not.
    else if !eventNew then some (s.withAg a (some ⟨c, .null⟩))
    else if !eventAdd then
      some { s.withAg a (some ⟨c, .freed⟩) with eventMap := s.eventMap.insert c a }
    else some { s.withAg a (some ⟨c, .live⟩) with
      communicators := insert c s.communicators
      eventMap := s.eventMap.insert c a
      armed := a :: s.armed }
  | .fire a execute =>
    if a ∈ s.armed then
      match s.ags a with
      | some _ => some { s with
          armed := s.armed.erase a, queue := s.queue ++ if execute then [a] else [] }
      | none => none
    else some s
  | .take =>
    match s.queue with
    | a :: queue => some { s with queue := queue, tasks := .handling a :: s.tasks }
    | [] => some s
  | .handle a success =>
    if .handling a ∈ s.tasks then
      match s.ags a with
      | some ag =>
        if ag.communicator ∈ s.communicators then
          some (s.withTask (.handling a) (if success then some (.adding a) else some (.closing a)))
        else none
      | none => none
    else some s
  | .addAgain a eventAdd =>
    if .adding a ∈ s.tasks then
      match s.ags a with
      | some ⟨_, .live⟩ =>
        if eventAdd then some { s.withTask (.adding a) none with armed := a :: s.armed }
        else some (s.withTask (.adding a) (some (.closing a)))
      | _ => none
    else some s
  | .findEntry a =>
    if .closing a ∈ s.tasks then
      match s.ags a with
      | some ag =>
        match s.eventMap.lookup ag.communicator with
        | none => some (s.withTask (.closing a) none)
        | some found => some {
            s.withTask (.closing a) (some (.freeing ag.communicator found)) with
            eventMap := s.eventMap.erase ag.communicator }
      | none => none
    else some s
  | .free c a =>
    if .freeing c a ∈ s.tasks then
      match s.ags a with
      | some ag =>
        if ag.ev ≠ .freed ∧ c ∈ s.communicators then
          some { (s.withTask (.freeing c a) none).withAg a none with
            armed := s.armed.erase a, communicators := s.communicators.erase c }
        else none
      | none => none
    else some s

def run (actions : List Action) (s : Server) : Option Server := actions.foldlM next s

def freeEntry (s : Server) (entry : Σ _ : ℕ, ℕ) : Option Server :=
  match s.ags entry.2 with
  | some ⟨_, .live⟩ =>
    if entry.1 ∈ s.communicators then
      some { s.withAg entry.2 none with communicators := s.communicators.erase entry.1 }
    else none
  | _ => none

/-- The end of `await_stop`, behind the end of the thread pool. -/
def awaitStop (s : Server) : Option Server :=
  (s.eventMap.entries.foldlM freeEntry s).map fun s => { s with eventMap := ∅ }

/-- Who works with a connection, or will do so next. -/
def hands (s : Server) : Multiset ℕ := ↑s.armed + ↑s.queue + ↑(s.tasks.map Task.ag)

/-- The communicator of an `EventCallbackAg` whose event is there. -/
def communicatorOf (ags : ℕ → Option EventCallbackAg) (a : ℕ) : Option ℕ :=
  (ags a).bind fun ag => if ag.ev = .live then some ag.communicator else none

structure Sound (s : Server) : Prop where
  exclusive : Exclusive (communicatorOf s.ags) (· ∈ s.communicators)
  nodup : s.hands.Nodup
  live : ∀ a ∈ s.hands, communicatorOf s.ags a ≠ none
  mapped : ∀ a c, communicatorOf s.ags a = some c →
    s.eventMap.lookup c = some a ∨ .freeing c a ∈ s.tasks
  entries : ∀ c a, s.eventMap.lookup c = some a →
    communicatorOf s.ags a = some c ∨ s.ags a = some ⟨c, .freed⟩
  freeing : ∀ c a, .freeing c a ∈ s.tasks →
    communicatorOf s.ags a = some c ∧ s.eventMap.lookup c = none

section Steps

variable {s s' : Server} {task : Task} {a c : ℕ}

theorem lookup_insert (m : AList (fun _ : ℕ => ℕ)) (k v j : ℕ) :
    (m.insert k v).lookup j = if j = k then some v else m.lookup j := by
  split
  · next h => rw [h, AList.lookup_insert]
  · next h => rw [AList.lookup_insert_ne h]

theorem lookup_erase (m : AList (fun _ : ℕ => ℕ)) (k j : ℕ) :
    (m.erase k).lookup j = if j = k then none else m.lookup j := by
  split
  · next h => rw [h, AList.lookup_erase]
  · next h => rw [AList.lookup_erase_ne h]

theorem communicatorOf_eq_some {ags : ℕ → Option EventCallbackAg} :
    communicatorOf ags a = some c ↔ ags a = some ⟨c, .live⟩ := by
  rw [communicatorOf]
  rcases ags a with _ | ⟨c', _ | _ | _⟩ <;> simp

theorem communicatorOf_update (ags : ℕ → Option EventCallbackAg) (a : ℕ)
    (ag : Option EventCallbackAg) : communicatorOf (Function.update ags a ag) =
      Function.update (communicatorOf ags) a
        (ag.bind fun ag => if ag.ev = .live then some ag.communicator else none) := by
  funext a'
  by_cases ha : a' = a
  · simp [communicatorOf, ha]
  · simp [communicatorOf, Function.update_of_ne ha]

theorem mem_hands_of_task (h : task ∈ s.tasks) : task.ag ∈ s.hands := by
  simp only [hands, Multiset.mem_add, Multiset.mem_coe]
  exact .inr (List.mem_map_of_mem h)

theorem hands_withTask (htask : task ∈ s.tasks) (after : Option Task) :
    (s.withTask task after).hands + {task.ag} = s.hands + ↑(after.toList.map Task.ag) := by
  have hperm : (s.tasks.map Task.ag : Multiset ℕ) =
      {task.ag} + ((s.tasks.erase task).map Task.ag : Multiset ℕ) :=
    Multiset.coe_eq_coe.mpr ((List.perm_cons_erase htask).map Task.ag)
  simp only [hands, withTask, List.map_append, ← Multiset.coe_add, hperm]
  abel

theorem Sound.exists_ags (h : s.Sound) (ha : a ∈ s.hands) :
    ∃ c ∈ s.communicators, s.ags a = some ⟨c, .live⟩ := by
  obtain ⟨c, hc⟩ := Option.ne_none_iff_exists'.mp (h.live a ha)
  exact ⟨c, h.exclusive.live_of a c hc, communicatorOf_eq_some.mp hc⟩

theorem Sound.eq_of_ag (h : s.Sound) {task' : Task} (htask : task ∈ s.tasks)
    (htask' : task' ∈ s.tasks) (heq : task.ag = task'.ag) : task = task' := by
  have hnodup := h.nodup
  rw [hands, Multiset.nodup_add, Multiset.coe_nodup] at hnodup
  exact List.inj_on_of_nodup_map (Multiset.coe_nodup.mp hnodup.2.1) htask htask' heq

/-- A connection goes from hand to hand, or is in none any more. -/
theorem Sound.moved (h : s.Sound) {armed queue : List ℕ} {tasks : List Task}
    (hhands : hands { s with armed := armed, queue := queue, tasks := tasks } ≤ s.hands)
    (hfreeing : ∀ c a, .freeing c a ∈ tasks ↔ .freeing c a ∈ s.tasks) :
    Sound { s with armed := armed, queue := queue, tasks := tasks } where
  exclusive := h.exclusive
  nodup := Multiset.nodup_of_le hhands h.nodup
  live a ha := h.live a (Multiset.mem_of_le hhands ha)
  mapped a c hc := (h.mapped a c hc).imp_right (hfreeing c a).mpr
  entries := h.entries
  freeing c a hc := h.freeing c a ((hfreeing c a).mp hc)

theorem Sound.handed (h : s.Sound) (htask : task ∈ s.tasks) (hfreeing : ∀ c a, task ≠ .freeing c a)
    {after : Option Task} (hafter : ∀ c a, after ≠ some (.freeing c a))
    (hag : ∀ task', after = some task' → task'.ag = task.ag) : (s.withTask task after).Sound := by
  have hhands := hands_withTask htask after
  refine h.moved ?_ fun c a => ?_
  · cases after with
    | none => exact Multiset.le_iff_exists_add.mpr ⟨{task.ag}, (hhands.trans (add_zero _)).symm⟩
    | some task' =>
      rw [← hag task' rfl] at hhands
      exact le_of_eq (add_right_cancel hhands)
  · simp only [List.mem_append, Option.mem_toList, List.mem_erase_of_ne (hfreeing c a).symm]
    exact or_iff_right (hafter c a)

/-- A failed `new_connection` leaves its `EventCallbackAg` behind, and maybe an entry. -/
theorem Sound.leaked (h : s.Sound) (hc : c ∉ s.communicators) (ha : s.ags a = none) :
    (s.withAg a (some ⟨c, .null⟩)).Sound ∧
      Sound { s.withAg a (some ⟨c, .freed⟩) with eventMap := s.eventMap.insert c a } := by
  have hsame : ∀ ev, ev ≠ .live →
      communicatorOf (s.withAg a (some ⟨c, ev⟩)).ags = communicatorOf s.ags := by
    intro ev hev
    rw [withAg, communicatorOf_update, Function.update_eq_self_iff]
    simp [communicatorOf, ha, hev]
  have hlive := h.exclusive.live_of
  have hags : ∀ ag a', (s.withAg a ag).ags a' = if a' = a then ag else s.ags a' :=
    fun ag a' => Function.update_apply ..
  constructor
  · have hnull := hsame .null (by simp)
    refine ⟨hnull ▸ h.exclusive, h.nodup, hnull ▸ h.live, hnull ▸ h.mapped, ?_, hnull ▸ h.freeing⟩
    intro c' a' hlookup
    have hold := h.entries c' a' hlookup
    rw [hnull]
    grind
  · have hfreed := hsame .freed (by simp)
    refine ⟨hfreed ▸ h.exclusive, h.nodup, hfreed ▸ h.live, fun a' c' hc' => ?_,
      fun c' a' hlookup => ?_, fun c' a' htask => ?_⟩
    all_goals simp only [hfreed, lookup_insert] at *
    · have hold := h.mapped a' c' hc'
      grind [withAg]
    · have hold := h.entries c' a'
      grind
    · have hold := h.freeing c' a' htask
      grind

theorem Sound.accept (h : s.Sound) (hc : c ∉ s.communicators) (ha : s.ags a = none) :
    Sound { s.withAg a (some ⟨c, .live⟩) with
      communicators := insert c s.communicators
      eventMap := s.eventMap.insert c a
      armed := a :: s.armed } := by
  have hfree : communicatorOf s.ags a = none := by rw [communicatorOf, ha, Option.bind_none]
  have hmem : a ∉ s.hands := fun hmem => h.live a hmem hfree
  have hlive := h.exclusive.live_of
  have hhands : hands { s.withAg a (some ⟨c, .live⟩) with
      communicators := insert c s.communicators
      eventMap := s.eventMap.insert c a
      armed := a :: s.armed } = a ::ₘ s.hands := rfl
  have hnew : communicatorOf (s.withAg a (some ⟨c, .live⟩)).ags =
      Function.update (communicatorOf s.ags) a (some c) := communicatorOf_update ..
  have hags : ∀ a', (s.withAg a (some ⟨c, .live⟩)).ags a' =
      if a' = a then some ⟨c, .live⟩ else s.ags a' := fun a' => Function.update_apply ..
  refine ⟨hnew ▸ h.exclusive.take hfree hc fun c' => ?_,
    hhands ▸ Multiset.nodup_cons.mpr ⟨hmem, h.nodup⟩, fun a' ha' => ?_, fun a' c' hc' => ?_,
    fun c' a' hlookup => ?_, fun c' a' htask => ?_⟩
  · rw [Finset.mem_insert, or_comm]
  all_goals simp only [hnew, hhands, lookup_insert, Function.update_apply, Multiset.mem_cons] at *
  · have hold := h.live a'
    grind
  · have hold := h.mapped a' c'
    grind [withAg]
  · have hold := h.entries c' a'
    grind
  · have hold := h.freeing c' a' htask
    grind

theorem Sound.findEntry (h : s.Sound) (htask : .closing a ∈ s.tasks)
    (hc : communicatorOf s.ags a = some c) : s.eventMap.lookup c = some a ∧
      Sound { s.withTask (.closing a) (some (.freeing c a)) with
        eventMap := s.eventMap.erase c } := by
  have hlookup : s.eventMap.lookup c = some a := by
    rcases h.mapped a c hc with hlookup | hfreeing
    · exact hlookup
    · cases h.eq_of_ag htask hfreeing rfl
  have hhands : hands { s.withTask (.closing a) (some (.freeing c a)) with
      eventMap := s.eventMap.erase c } = s.hands :=
    add_right_cancel (hands_withTask htask (some (.freeing c a)))
  have htasks : ∀ c' a', .freeing c' a' ∈ (s.withTask (.closing a) (some (.freeing c a))).tasks ↔
      (c' = c ∧ a' = a) ∨ .freeing c' a' ∈ s.tasks := by
    intro c' a'
    simp [withTask, List.mem_erase_of_ne]
  have hunique := h.exclusive.unique
  refine ⟨hlookup, h.exclusive, hhands ▸ h.nodup, hhands ▸ h.live, fun a' c' hc' => ?_,
    fun c' a' hentry => ?_, fun c' a' hfreeing => ?_⟩
  all_goals simp only [lookup_erase, htasks] at *
  · have hold := h.mapped a' c' hc'
    grind [withTask]
  · have hold := h.entries c' a'
    grind [withTask]
  · have hold := h.freeing c' a'
    grind [withTask]

theorem Sound.free (h : s.Sound) (htask : .freeing c a ∈ s.tasks)
    (hs' : s' = { (s.withTask (.freeing c a) none).withAg a none with
      armed := s.armed.erase a, communicators := s.communicators.erase c }) : s'.Sound := by
  obtain ⟨hc, hlookup⟩ := h.freeing c a htask
  have harmed : s.armed.erase a = s.armed := by
    have hnodup := h.nodup
    rw [hands, Multiset.nodup_add] at hnodup
    refine List.erase_of_not_mem fun hmem => ?_
    have htask' : a ∈ s.tasks.map Task.ag := List.mem_map_of_mem (f := Task.ag) htask
    exact Multiset.disjoint_left.mp hnodup.2.2 (Multiset.mem_add.mpr (.inl hmem)) htask'
  have hhands : s'.hands + {a} = s.hands := by
    rw [hs', harmed, ← add_zero s.hands, ← Multiset.coe_nil]
    exact hands_withTask htask none
  have hnodup : (s'.hands + {a}).Nodup := hhands ▸ h.nodup
  have hne : ∀ a' ∈ s'.hands, a' ≠ a ∧ a' ∈ s.hands := by
    intro a' ha'
    refine ⟨?_, hhands ▸ Multiset.mem_add.mpr (.inl ha')⟩
    rintro rfl
    exact Multiset.disjoint_left.mp (Multiset.nodup_add.mp hnodup).2.2 ha' (by simp)
  have hgone : communicatorOf s'.ags = Function.update (communicatorOf s.ags) a none := by
    rw [hs']
    exact communicatorOf_update ..
  have hags : ∀ a', s'.ags a' = if a' = a then none else s.ags a' := by
    intro a'
    rw [hs']
    exact Function.update_apply ..
  refine ⟨?_, (Multiset.nodup_add.mp hnodup).1, fun a' ha' => ?_, fun a' c' hc' => ?_,
    fun c' a' hentry => ?_, fun c' a' hfreeing => ?_⟩
  · rw [hgone]
    refine h.exclusive.giveUp hc fun c' => ?_
    rw [hs', Finset.mem_erase, and_comm]
  · rw [hgone, Function.update_of_ne (hne a' ha').1]
    exact h.live a' (hne a' ha').2
  all_goals simp only [hgone, Function.update_apply] at *
  · have hold := h.mapped a' c'
    grind [withTask, withAg]
  · have hold := h.entries c' a'
    grind [communicatorOf_eq_some, withTask, withAg]
  · have hold := h.freeing c' a'
    have ha' := hne a' (mem_hands_of_task hfreeing)
    grind [withTask, withAg]

theorem Sound.fire (h : s.Sound) (harmed : a ∈ s.armed) (execute : Bool) :
    Sound { s with armed := s.armed.erase a, queue := s.queue ++ if execute then [a] else [] } := by
  have hperm : (s.armed : Multiset ℕ) = {a} + ↑(s.armed.erase a) :=
    Multiset.coe_eq_coe.mpr (List.perm_cons_erase harmed)
  refine h.moved ?_ fun _ _ => Iff.rfl
  rw [hands, hands, hperm]
  refine add_le_add_left ?_ _
  cases execute with
  | true =>
    refine le_of_eq ?_
    simp only [if_true, ← Multiset.coe_add, Multiset.coe_singleton]
    abel
  | false =>
    simp only [Bool.false_eq_true, if_false, List.append_nil]
    exact add_le_add_left (Multiset.le_add_left _ _) _

theorem Sound.next_accept (h : s.Sound) (c a : ℕ) (eventNew eventAdd : Bool) :
    ∃ s', s.next (.accept c a eventNew eventAdd) = some s' ∧ s'.Sound := by
  rw [Server.next]
  split
  · exact ⟨s, rfl, h⟩
  · next hguard =>
    simp only [not_or, Option.isSome_iff_ne_none, not_not] at hguard
    split
    · exact ⟨_, rfl, (h.leaked hguard.1 hguard.2).1⟩
    · split
      · exact ⟨_, rfl, (h.leaked hguard.1 hguard.2).2⟩
      · exact ⟨_, rfl, h.accept hguard.1 hguard.2⟩

theorem Sound.next_fire (h : s.Sound) (a : ℕ) (execute : Bool) :
    ∃ s', s.next (.fire a execute) = some s' ∧ s'.Sound := by
  rw [Server.next]
  split
  · next harmed =>
    obtain ⟨c, -, hags⟩ := h.exists_ags (a := a) (by simp [hands, harmed])
    rw [hags]
    exact ⟨_, rfl, h.fire harmed execute⟩
  · exact ⟨s, rfl, h⟩

theorem Sound.next_take (h : s.Sound) : ∃ s', s.next .take = some s' ∧ s'.Sound := by
  rw [Server.next]
  split
  · next a queue hqueue =>
    refine ⟨_, rfl, h.moved (le_of_eq ?_) (by simp)⟩
    simp only [hands, hqueue, List.map_cons, Task.ag, ← Multiset.cons_coe,
      ← Multiset.singleton_add]
    abel
  · exact ⟨s, rfl, h⟩

theorem Sound.next_handle (h : s.Sound) (a : ℕ) (success : Bool) :
    ∃ s', s.next (.handle a success) = some s' ∧ s'.Sound := by
  rw [Server.next]
  split
  · next htask =>
    obtain ⟨c, hc, hags⟩ := h.exists_ags (mem_hands_of_task htask)
    simp only [Task.ag] at hags
    simp only [hags, if_pos hc]
    refine ⟨_, rfl, h.handed htask (by simp) ?_ ?_⟩
    all_goals cases success <;> simp [Task.ag]
  · exact ⟨s, rfl, h⟩

theorem Sound.next_addAgain (h : s.Sound) (a : ℕ) (eventAdd : Bool) :
    ∃ s', s.next (.addAgain a eventAdd) = some s' ∧ s'.Sound := by
  rw [Server.next]
  split
  · next htask =>
    obtain ⟨c, hc, hags⟩ := h.exists_ags (mem_hands_of_task htask)
    simp only [Task.ag] at hags
    simp only [hags]
    split
    · refine ⟨_, rfl, h.moved (le_of_eq ?_) (by simp [withTask, List.mem_erase_of_ne])⟩
      rw [← add_zero s.hands, ← Multiset.coe_nil]
      refine Eq.trans ?_ (hands_withTask htask none)
      rw [hands, hands, ← Multiset.cons_coe, ← Multiset.singleton_add]
      simp only [withTask, Task.ag]
      abel
    · exact ⟨_, rfl, h.handed htask (by simp) (by simp) (by simp [Task.ag])⟩
  · exact ⟨s, rfl, h⟩

theorem Sound.next_findEntry (h : s.Sound) (a : ℕ) :
    ∃ s', s.next (.findEntry a) = some s' ∧ s'.Sound := by
  rw [Server.next]
  split
  · next htask =>
    obtain ⟨c, -, hags⟩ := h.exists_ags (mem_hands_of_task htask)
    obtain ⟨hlookup, hsound⟩ := h.findEntry htask (communicatorOf_eq_some.mpr hags)
    simp only [Task.ag] at hags
    simp only [hags, hlookup]
    exact ⟨_, rfl, hsound⟩
  · exact ⟨s, rfl, h⟩

theorem Sound.next_free (h : s.Sound) (c a : ℕ) :
    ∃ s', s.next (.free c a) = some s' ∧ s'.Sound := by
  rw [Server.next]
  split
  · next htask =>
    have hc := (h.freeing c a htask).1
    simp only [communicatorOf_eq_some.mp hc]
    rw [if_pos ⟨by simp, h.exclusive.live_of a c hc⟩]
    exact ⟨_, rfl, h.free htask rfl⟩
  · exact ⟨s, rfl, h⟩

/-- No action uses what has been freed. -/
theorem Sound.next (h : s.Sound) (action : Action) :
    ∃ s', s.next action = some s' ∧ s'.Sound := by
  cases action with
  | accept c a eventNew eventAdd => exact h.next_accept c a eventNew eventAdd
  | fire a execute => exact h.next_fire a execute
  | take => exact h.next_take
  | handle a success => exact h.next_handle a success
  | addAgain a eventAdd => exact h.next_addAgain a eventAdd
  | findEntry a => exact h.next_findEntry a
  | free c a => exact h.next_free c a

theorem sound_new : Sound {} :=
  ⟨exclusive_none (fun _ => rfl) (by simp), by simp [hands], by simp [hands],
    by simp [communicatorOf], by simp, by simp⟩

theorem Sound.run (h : s.Sound) (actions : List Action) :
    ∃ s', run actions s = some s' ∧ s'.Sound := by
  induction actions generalizing s with
  | nil => exact ⟨s, rfl, h⟩
  | cons action actions ih =>
    obtain ⟨s', hnext, hs'⟩ := h.next action
    obtain ⟨t, hrun, ht⟩ := ih hs'
    exact ⟨t, by simpa [Server.run, List.foldlM_cons, hnext] using hrun, ht⟩

/-- An event that is freed beside its entry comes from an `event_add` that failed. -/
theorem freed_of_next {action : Action} (hnext : s.next action = some s')
    (haction : ∀ c a, action ≠ .accept c a true false) (hfreed : s'.ags a = some ⟨c, .freed⟩) :
    s.ags a = some ⟨c, .freed⟩ := by
  have hupdate : ∀ {a' : ℕ} {ag : Option EventCallbackAg}, ag ≠ some ⟨c, .freed⟩ →
      Function.update s.ags a' ag a = some ⟨c, .freed⟩ → s.ags a = some ⟨c, .freed⟩ := by
    intro a' ag hag hfreed
    rw [Function.update_apply] at hfreed
    split at hfreed
    · exact absurd hfreed hag
    · exact hfreed
  cases action <;> rw [Server.next] at hnext <;> (repeat' split at hnext) <;> cases hnext <;>
    first
    | exact hfreed
    | (refine hupdate ?_ hfreed; simp; done)
    | simp_all

theorem not_freed_of_run {actions : List Action} (hrun : run actions s = some s')
    (hactions : ∀ c a, .accept c a true false ∉ actions)
    (hs : ∀ a c, s.ags a ≠ some ⟨c, .freed⟩) : ∀ a c, s'.ags a ≠ some ⟨c, .freed⟩ := by
  induction actions generalizing s with
  | nil =>
    obtain rfl := Option.some.inj hrun
    exact hs
  | cons action actions ih =>
    rw [Server.run, List.foldlM_cons, Option.bind_eq_bind, Option.bind_eq_some_iff] at hrun
    obtain ⟨s₁, hnext, hrun⟩ := hrun
    simp only [List.mem_cons, not_or] at hactions
    refine ih hrun (fun c a => (hactions c a).2) fun a c hfreed => hs a c ?_
    exact freed_of_next hnext (fun c a heq => (hactions c a).1 heq.symm) hfreed

end Steps

section Stop

variable {s : Server} {entries : List (Σ _ : ℕ, ℕ)}

/-- A connection that was given up in `new_connection` is still in the map. -/
def Stale (s : Server) : Prop :=
  ∃ c a, s.eventMap.lookup c = some a ∧ s.ags a = some ⟨c, .freed⟩

theorem foldlM_freeEntry_of_live (hnodup : (entries.map Sigma.fst).Nodup)
    (hlive : ∀ e ∈ entries, e.1 ∈ s.communicators ∧ s.ags e.2 = some ⟨e.1, .live⟩) :
    ∃ t, entries.foldlM freeEntry s = some t ∧
      ∀ c, c ∈ t.communicators ↔ c ∈ s.communicators ∧ c ∉ entries.map Sigma.fst := by
  induction entries generalizing s with
  | nil => exact ⟨s, rfl, by simp⟩
  | cons e entries ih =>
    rw [List.map_cons, List.nodup_cons] at hnodup
    obtain ⟨hc, hags⟩ := hlive e List.mem_cons_self
    have hrest : ∀ e' ∈ entries, e'.1 ∈ s.communicators.erase e.1 ∧
        (s.withAg e.2 none).ags e'.2 = some ⟨e'.1, .live⟩ := by
      intro e' he'
      obtain ⟨hc', hags'⟩ := hlive e' (List.mem_cons_of_mem _ he')
      have hne : e'.1 ≠ e.1 := fun heq => hnodup.1 (heq ▸ List.mem_map_of_mem he')
      refine ⟨Finset.mem_erase.mpr ⟨hne, hc'⟩, (Function.update_of_ne ?_ ..).trans hags'⟩
      intro heq
      rw [heq, hags] at hags'
      exact hne (congrArg EventCallbackAg.communicator (Option.some.inj hags')).symm
    obtain ⟨t, hfold, ht⟩ :=
      ih (s := { s.withAg e.2 none with communicators := s.communicators.erase e.1 }) hnodup.2 hrest
    refine ⟨t, ?_, fun c => ?_⟩
    · rw [List.foldlM_cons, freeEntry, hags]
      simpa [hc] using hfold
    · rw [ht, Finset.mem_erase, List.map_cons, List.mem_cons, not_or]
      tauto

theorem foldlM_freeEntry_of_freed (hfreed : ∃ e ∈ entries, s.ags e.2 = some ⟨e.1, .freed⟩) :
    entries.foldlM freeEntry s = none := by
  induction entries generalizing s with
  | nil => simp at hfreed
  | cons e entries ih =>
    obtain ⟨e', he', hfreed⟩ := hfreed
    rw [List.foldlM_cons, freeEntry]
    split
    · next hags =>
      split
      · rcases List.mem_cons.mp he' with rfl | he'
        · rw [hags] at hfreed
          cases hfreed
        · refine ih ⟨e', he', (Function.update_of_ne ?_ ..).trans hfreed⟩
          intro heq
          rw [heq, hags] at hfreed
          cases hfreed
      · rfl
    · rfl

end Stop

/-- In every order of the actions of the accepting thread, the event loop and the threads of the
pool: no thread uses what has been freed, and no two of them have the same connection. When the
pool has come to its end, `await_stop` deletes every connection once, unless one is in the map whose
first `event_add` has failed: that one is deleted again. -/
theorem connections_safe (actions : List Action) :
    ∃ s, run actions {} = some s ∧ s.hands.Nodup ∧
      (∀ a ∈ s.hands, ∀ a' ∈ s.hands, communicatorOf s.ags a = communicatorOf s.ags a' → a = a') ∧
      ((∀ c a, .accept c a true false ∉ actions) → ¬ s.Stale) ∧
      (s.tasks = [] → (s.Stale → s.awaitStop = none) ∧
        (¬ s.Stale → ∃ t, s.awaitStop = some t ∧ t.communicators = ∅)) := by
  obtain ⟨s, hrun, h⟩ := sound_new.run actions
  have hentries : ∀ e, e ∈ s.eventMap.entries ↔ s.eventMap.lookup e.1 = some e.2 :=
    fun e => AList.mem_lookup_iff.symm
  refine ⟨s, hrun, h.nodup, fun a ha a' ha' heq => ?_, fun hactions => ?_, fun htasks => ?_⟩
  · obtain ⟨c, hc⟩ := Option.ne_none_iff_exists'.mp (h.live a ha)
    exact h.exclusive.unique a a' c hc (heq.symm.trans hc)
  · rintro ⟨c, a, -, hfreed⟩
    exact not_freed_of_run hrun hactions (by simp) a c hfreed
  · refine ⟨?_, fun hstale => ?_⟩
    · rintro ⟨c, a, hlookup, hfreed⟩
      rw [awaitStop, foldlM_freeEntry_of_freed ⟨⟨c, a⟩, (hentries ⟨c, a⟩).mpr hlookup, hfreed⟩]
      rfl
    · have hlive : ∀ e ∈ s.eventMap.entries,
          e.1 ∈ s.communicators ∧ s.ags e.2 = some ⟨e.1, .live⟩ := by
        intro e he
        rcases h.entries e.1 e.2 ((hentries e).mp he) with hc | hfreed
        · exact ⟨h.exclusive.live_of e.2 e.1 hc, communicatorOf_eq_some.mp hc⟩
        · exact absurd ⟨e.1, e.2, (hentries e).mp he, hfreed⟩ hstale
      obtain ⟨t, hfold, ht⟩ := foldlM_freeEntry_of_live s.eventMap.nodupKeys hlive
      refine ⟨_, by rw [awaitStop, hfold]; rfl, Finset.eq_empty_of_forall_notMem fun c hc => ?_⟩
      obtain ⟨hc, hnot⟩ := (ht c).mp hc
      obtain ⟨a, ha⟩ := h.exclusive.owned c hc
      rcases h.mapped a c ha with hlookup | hfreeing
      · exact hnot (List.mem_map.mpr ⟨⟨c, a⟩, (hentries ⟨c, a⟩).mpr hlookup, rfl⟩)
      · rw [htasks] at hfreeing
        cases hfreeing

example : (run [.accept 0 0 true false] {}).bind awaitStop = none := rfl

end Server

end Connections
