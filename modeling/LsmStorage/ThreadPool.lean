import Mathlib.Algebra.BigOperators.Group.List.Basic
import Mathlib.Algebra.Order.Ring.Nat
import Mathlib.Data.List.AList
import Mathlib.Logic.Relation

/-! # ThreadPoolExecutor

`init`, the calls of `execute` and the worker threads are parties that take one step at a time in
any order, and time passes between the steps. A party that waits for `lock_` cannot step while
another one holds it. Allocations and thread creations succeed. -/
namespace ThreadPool

open Relation

inductive PoolState where
  | new
  | running
  deriving DecidableEq

structure Config where
  corePoolSize : ℤ
  maxPoolSize : ℤ
  keepAliveTimeMs : ℤ

def Config.Accepted (cfg : Config) : Prop :=
  ¬ (cfg.corePoolSize < 0 ∨ cfg.maxPoolSize ≤ 0 ∨ cfg.corePoolSize > cfg.maxPoolSize)

instance (cfg : Config) : Decidable cfg.Accepted := inferInstanceAs (Decidable (¬ _))

/-- A pointer to a `Runnable`, null or not. -/
abbrev Task := Option ℕ

structure ThreadData where
  coreThread : Bool
  deriving DecidableEq

/-- Where a worker is in `thread_func`, with what it has read. -/
inductive Worker where
  | started
  | looking
  | lost
  | arming (core : Bool)
  | looping (core : Bool) (idleDeadline : ℤ)
  | popping (core : Bool) (idleDeadline : ℤ)
  | popped (core : Bool) (idleDeadline : ℤ)
  | executing (core : Bool) (idleDeadline : ℤ)
  | finished (core : Bool) (idleDeadline : ℤ)
  | testing (core : Bool) (idleDeadline : ℤ)
  | sizing (core : Bool) (idleDeadline : ℤ)
  | leaving
  | erasing
  | exited
  deriving DecidableEq

/-- Where a call of `execute` is, with what it has read. -/
inductive Call where
  | called (task : Task)
  | pushing (task : Task)
  | sizing
  | readingPool (taskSize : ℤ)
  | readingActive (taskSize poolSize : ℤ)
  | locking
  | checkingMax
  | extendSizing
  | extendReadingPool (size : ℤ)
  | extendReadingActive (size poolSize : ℤ)
  | creating
  | returned
  deriving DecidableEq

/-- Where `init` is. -/
inductive Init where
  | testing
  | locking
  | creating
  | starting
  | done
  deriving DecidableEq

inductive Party where
  | init
  | worker (id : ℕ)
  | call (i : ℕ)
  deriving DecidableEq

@[ext]
structure State where
  state : PoolState := .new
  clock : ℤ := 0
  workQueue : List Task := []
  activeCount : ℤ := 0
  lock : Option Party := none
  threads : AList (fun _ : ℕ => ThreadData) := ∅
  workers : List Worker := []
  calls : List Call := []
  init : Init := .testing

namespace State

def poolSize (s : State) : ℤ := s.threads.keys.length

def queueSize (s : State) : ℤ := s.workQueue.length

def release (s : State) : State := { s with lock := none }

def createThreadLocked (core : Bool) (s : State) : State :=
  { s with
    workers := s.workers ++ [.started]
    threads := s.threads.insert s.workers.length ⟨core⟩ }

end State

section Steps

variable (cfg : Config)

/-- One step of `thread_func`. -/
def workerNext (id : ℕ) (w : Worker) (s : State) : Option (Worker × State) :=
  match w with
  | .started =>
    if s.lock = none then some (.looking, { s with lock := some (.worker id) }) else none
  | .looking =>
    match s.threads.lookup id with
    | none => some (.lost, s)
    | some threadData => some (.arming threadData.coreThread, s.release)
  -- returned without a release
  | .lost => none
  | .arming core =>
    some (.looping core (if core = false ∧ cfg.keepAliveTimeMs > 0 then
      s.clock + cfg.keepAliveTimeMs else s.clock), s)
  | .looping core idleDeadline =>
    if core = true ∨ s.clock < idleDeadline then some (.popping core idleDeadline, s)
    else some (.leaving, s)
  | .popping core idleDeadline =>
    match s.workQueue with
    | [] => some (.testing core idleDeadline, s)
    | none :: workQueue => some (.testing core idleDeadline, { s with workQueue })
    | some _ :: workQueue => some (.popped core idleDeadline, { s with workQueue })
  | .popped core idleDeadline =>
    some (.executing core idleDeadline, { s with activeCount := s.activeCount + 1 })
  | .executing core idleDeadline =>
    some (.finished core idleDeadline, { s with activeCount := s.activeCount - 1 })
  | .finished core idleDeadline =>
    some (.testing core (if cfg.keepAliveTimeMs > 0 then s.clock + cfg.keepAliveTimeMs
      else idleDeadline), s)
  | .testing core idleDeadline =>
    if s.state ≠ .running then some (.sizing core idleDeadline, s)
    else some (.looping core idleDeadline, s)
  | .sizing core idleDeadline =>
    if s.queueSize = 0 then some (.leaving, s) else some (.looping core idleDeadline, s)
  | .leaving =>
    if s.lock = none then some (.erasing, { s with lock := some (.worker id) }) else none
  | .erasing => some (.exited, { s with threads := s.threads.erase id, lock := none })
  | .exited => none

/-- One step of `execute`, `extend_thread` included. -/
def callNext (i : ℕ) (c : Call) (s : State) : Option (Call × State) :=
  match c with
  | .called task => if s.state ≠ .running then some (.returned, s) else some (.pushing task, s)
  | .pushing task => some (.sizing, { s with workQueue := s.workQueue ++ [task] })
  | .sizing => some (.readingPool s.queueSize, s)
  | .readingPool taskSize => some (.readingActive taskSize s.poolSize, s)
  | .readingActive taskSize poolSize =>
    if taskSize > poolSize - s.activeCount then some (.locking, s) else some (.returned, s)
  | .locking =>
    if s.lock = none then some (.checkingMax, { s with lock := some (.call i) }) else none
  | .checkingMax =>
    if s.poolSize ≥ cfg.maxPoolSize then some (.returned, s.release) else some (.extendSizing, s)
  | .extendSizing => some (.extendReadingPool s.queueSize, s)
  | .extendReadingPool size => some (.extendReadingActive size s.poolSize, s)
  | .extendReadingActive size poolSize =>
    if size ≤ poolSize - s.activeCount then some (.returned, s.release) else some (.creating, s)
  | .creating => some (.returned, (s.createThreadLocked false).release)
  | .returned => none

def initNext (s : State) : Option State :=
  match s.init with
  | .testing =>
    some { s with init := if s.poolSize < cfg.corePoolSize then .locking else .starting }
  | .locking =>
    if s.lock = none then some { s with lock := some .init, init := .creating } else none
  | .creating => some { (s.createThreadLocked true).release with init := .testing }
  | .starting => some { s with state := .running, init := .done }
  | .done => none

inductive Action where
  | tick (elapsed : ℕ)
  | worker (id : ℕ)
  | call (task : Task)
  | execute (i : ℕ)

def act (s : State) : Action → Option State
  | .tick elapsed => some { s with clock := s.clock + elapsed }
  | .worker id => do
    let w ← s.workers[id]?
    let (w, s) ← workerNext cfg id w s
    some { s with workers := s.workers.set id w }
  | .call task => some { s with calls := s.calls ++ [.called task] }
  | .execute i => do
    let c ← s.calls[i]?
    let (c, s) ← callNext cfg i c s
    some { s with calls := s.calls.set i c }

def Step (s t : State) : Prop := ∃ action, act cfg s action = some t

/-- A step before that: nothing is submitted yet. -/
inductive InitStep (s : State) : State → Prop where
  | init {t : State} : initNext cfg s = some t → InitStep s t
  | worker (id : ℕ) {t : State} : act cfg s (.worker id) = some t → InitStep s t
  | tick (elapsed : ℕ) {t : State} : act cfg s (.tick elapsed) = some t → InitStep s t

def Started (s : State) : Prop :=
  ∃ s', ReflTransGen (InitStep cfg) {} s' ∧ s'.init = .starting ∧ initNext cfg s' = some s

end Steps

def NoneStranded (s : State) : Prop :=
  (∀ c ∈ s.calls, c = .returned) → s.threads = ∅ → s.workQueue = []

/-- A core worker that has not left its loop, and has not seen the pool before it was running. -/
def Worker.Stays : Worker → Prop
  | .started | .looking => True
  | .arming core | .looping core _ | .popping core _ | .popped core _ | .executing core _
  | .finished core _ | .testing core _ => core = true
  | .lost | .sizing _ _ | .leaving | .erasing | .exited => False

def Staying (s : State) (id : ℕ) : Prop :=
  s.threads.lookup id = some ⟨true⟩ ∧ ∃ w, s.workers[id]? = some w ∧ w.Stays

section Stay

variable {cfg : Config} {s s' t : State} {id : ℕ} {w w' : Worker}

theorem workerNext_frame (h : workerNext cfg id w s = some (w', s')) :
    s'.state = s.state ∧ s'.workers = s.workers ∧ s'.calls = s.calls ∧ s'.init = s.init ∧
      ∀ k, k ≠ id → s'.threads.lookup k = s.threads.lookup k := by
  unfold workerNext at h
  split at h <;> try split at h
  all_goals cases h <;> refine ⟨rfl, rfl, rfl, rfl, fun k hk => ?_⟩
  all_goals first
    | rfl
    | exact AList.lookup_erase_ne hk

/-- A worker that stays comes to no place from which it does not, while the pool is running. -/
theorem stays_next (h : workerNext cfg id w s = some (w', s')) (hrunning : s.state = .running)
    (hthread : s.threads.lookup id = some ⟨true⟩) (hstays : w.Stays) :
    w'.Stays ∧ s'.threads.lookup id = some ⟨true⟩ := by
  unfold workerNext at h
  split at h <;> try split at h
  all_goals cases h <;> simp_all [Worker.Stays, State.release]

theorem callNext_frame {i : ℕ} {c c' : Call} (h : callNext cfg i c s = some (c', s')) :
    s'.state = s.state ∧ ∀ k, k < s.workers.length →
      s'.workers[k]? = s.workers[k]? ∧ s'.threads.lookup k = s.threads.lookup k := by
  unfold callNext at h
  split at h <;> try split at h
  all_goals cases h <;> refine ⟨rfl, fun k hk => ?_⟩
  all_goals first
    | exact ⟨rfl, rfl⟩
    | exact ⟨List.getElem?_append_left hk, AList.lookup_insert_ne hk.ne⟩

theorem Staying.step (h : Staying s id) (hrunning : s.state = .running) (hstep : Step cfg s t) :
    Staying t id ∧ t.state = .running := by
  obtain ⟨hthread, w, hw, hstays⟩ := h
  obtain ⟨action, hact⟩ := hstep
  cases action with
  | tick elapsed =>
    cases hact
    exact ⟨⟨hthread, w, hw, hstays⟩, hrunning⟩
  | call task =>
    cases hact
    exact ⟨⟨hthread, w, hw, hstays⟩, hrunning⟩
  | execute i =>
    simp only [act, Option.bind_eq_bind, Option.bind_eq_some_iff] at hact
    obtain ⟨c, -, ⟨c', s'⟩, hnext, ht⟩ := hact
    cases ht
    obtain ⟨hstate, hsame⟩ := callNext_frame hnext
    obtain ⟨hw', hthread'⟩ := hsame id (List.getElem?_eq_some_iff.mp hw).1
    exact ⟨⟨hthread'.trans hthread, w, hw'.trans hw, hstays⟩, hstate.trans hrunning⟩
  | worker k =>
    simp only [act, Option.bind_eq_bind, Option.bind_eq_some_iff] at hact
    obtain ⟨v, hv, ⟨v', s'⟩, hnext, ht⟩ := hact
    cases ht
    obtain ⟨hstate, hworkers, -, -, hother⟩ := workerNext_frame hnext
    refine ⟨?_, hstate.trans hrunning⟩
    dsimp only [Staying]
    rw [hworkers]
    by_cases hk : k = id
    · subst hk
      cases Option.some.inj (hv.symm.trans hw)
      obtain ⟨hstays', hthread'⟩ := stays_next hnext hrunning hthread hstays
      refine ⟨hthread', v', ?_, hstays'⟩
      rw [List.getElem?_set_self (List.getElem?_eq_some_iff.mp hw).1]
    · refine ⟨(hother id (Ne.symm hk)).trans hthread, w, ?_, hstays⟩
      rw [List.getElem?_set_ne hk]
      exact hw

theorem Staying.reaches (h : Staying s id) (hrunning : s.state = .running)
    (hreach : ReflTransGen (Step cfg) s t) : Staying t id ∧ t.state = .running := by
  induction hreach with
  | refl => exact ⟨h, hrunning⟩
  | tail _ hstep ih => exact ih.1.step ih.2 hstep

end Stay

section Quiet

variable {cfg : Config} {s s' t : State} {id : ℕ} {w w' : Worker}

def Worker.holdsLock : Worker → Bool
  | .looking | .erasing => true
  | _ => false

def Worker.Idle : Worker → Prop
  | .started | .looking | .leaving | .erasing | .exited => True
  | .arming core | .looping core _ | .popping core _ | .testing core _ | .sizing core _ =>
    core = true
  | .lost | .popped _ _ | .executing _ _ | .finished _ _ => False

@[mk_iff]
structure Settled (s : State) (id : ℕ) (w : Worker) : Prop where
  idle : w.Idle
  thread : s.threads.lookup id = if w = .exited then none else some ⟨true⟩
  lock : w.holdsLock ↔ s.lock = some (.worker id)

structure Quiet (s : State) : Prop where
  workQueue : s.workQueue = []
  activeCount : s.activeCount = 0
  calls : s.calls = []
  worker : ∀ id w, s.workers[id]? = some w → Settled s id w
  outside : ∀ id, s.workers.length ≤ id →
    s.threads.lookup id = none ∧ s.lock ≠ some (.worker id)
  initLock : s.lock = some .init ↔ s.init = .creating
  callLock : ∀ i, s.lock ≠ some (.call i)

theorem Settled.next (h : Settled s id w) (hqueue : s.workQueue = [])
    (hnext : workerNext cfg id w s = some (w', s')) :
    Settled s' id w' ∧ s'.workQueue = [] ∧ s'.activeCount = s.activeCount ∧
      (s'.lock = s.lock ∨ s.lock = none ∧ s'.lock = some (.worker id) ∨
        s.lock = some (.worker id) ∧ s'.lock = none) := by
  obtain ⟨hidle, hthread, hlock⟩ := h
  unfold workerNext at hnext
  split at hnext <;> try split at hnext
  all_goals cases hnext <;> simp_all [Worker.Idle, Worker.holdsLock, State.release, settled_iff]

theorem act_worker_inv (h : act cfg s (.worker id) = some t) :
    ∃ w w' s', s.workers[id]? = some w ∧ workerNext cfg id w s = some (w', s') ∧
      t = { s' with workers := s'.workers.set id w' } := by
  simp only [act, Option.bind_eq_bind, Option.bind_eq_some_iff] at h
  obtain ⟨w, hw, ⟨w', s'⟩, hnext, ht⟩ := h
  exact ⟨w, w', s', hw, hnext, (Option.some.inj ht).symm⟩

theorem set_cases {α : Type*} {l : List α} {i k : ℕ} {b x : α}
    (h : (l.set i b)[k]? = some x) : k = i ∧ x = b ∨ k ≠ i ∧ l[k]? = some x := by
  rw [List.getElem?_set] at h
  split_ifs at h with hik hi
  · exact .inl ⟨hik.symm, (Option.some.inj h).symm⟩
  · exact .inr ⟨fun hki => hik hki.symm, h⟩

theorem Quiet.worker_next (h : Quiet s) (hw : s.workers[id]? = some w)
    (hnext : workerNext cfg id w s = some (w', s')) :
    Quiet { s' with workers := s'.workers.set id w' } := by
  obtain ⟨-, hworkers, hcalls, hinit, hother⟩ := workerNext_frame hnext
  obtain ⟨hsettled, hqueue, hactive, hlock⟩ := (h.worker id w hw).next h.workQueue hnext
  have hid := (List.getElem?_eq_some_iff.mp hw).1
  have hkeep : ∀ k, k ≠ id → (s'.lock = some (.worker k) ↔ s.lock = some (.worker k)) := by
    intro k hk
    rcases hlock with hlock | ⟨hfree, hlock⟩ | ⟨hheld, hlock⟩
    · rw [hlock]
    · simp [hfree, hlock, hk.symm]
    · simp [hheld, hlock, hk.symm]
  refine ⟨hqueue, hactive.trans h.activeCount, hcalls.trans h.calls, fun k v hv => ?_,
    fun k hk => ?_, ?_, fun i => ?_⟩
  · simp only [hworkers] at hv
    rcases set_cases hv with ⟨rfl, rfl⟩ | ⟨hk, hv⟩
    · exact ⟨hsettled.idle, hsettled.thread, hsettled.lock⟩
    · obtain ⟨hidle, hthread, hholds⟩ := h.worker k v hv
      exact ⟨hidle, (hother k hk).trans hthread, hholds.trans (hkeep k hk).symm⟩
  · dsimp only at hk
    rw [hworkers, List.length_set] at hk
    have hne : k ≠ id := (hid.trans_le hk).ne'
    obtain ⟨hthread, hheld⟩ := h.outside k hk
    exact ⟨(hother k hne).trans hthread, fun heq => hheld ((hkeep k hne).mp heq)⟩
  · dsimp only
    rw [hinit, ← h.initLock]
    rcases hlock with hlock | ⟨hfree, hlock⟩ | ⟨hheld, hlock⟩
    · rw [hlock]
    · simp [hfree, hlock]
    · simp [hheld, hlock]
  · dsimp only
    have hcall := h.callLock i
    rcases hlock with hlock | ⟨-, hlock⟩ | ⟨-, hlock⟩
    · rwa [hlock]
    · simp [hlock]
    · simp [hlock]

theorem Quiet.create (h : Quiet s) (hlock : s.lock = some .init) (init : Init)
    (hinit : init ≠ .creating) :
    Quiet { (s.createThreadLocked true).release with init } := by
  refine ⟨h.workQueue, h.activeCount, h.calls, fun k v hv => ?_, fun k hk => ?_, ?_, by simp [
    State.release]⟩
  · dsimp only [State.release, State.createThreadLocked] at hv
    rcases lt_or_ge k s.workers.length with hlt | hge
    · rw [List.getElem?_append_left hlt] at hv
      obtain ⟨hidle, hthread, hholds⟩ := h.worker k v hv
      refine ⟨hidle, (AList.lookup_insert_ne hlt.ne).trans hthread, ?_⟩
      rw [hholds, hlock]
      simp [State.release]
    · rw [List.getElem?_append_right hge] at hv
      obtain ⟨hlt, hget⟩ := List.getElem?_eq_some_iff.mp hv
      rw [List.length_singleton] at hlt
      have hk : k = s.workers.length := by omega
      subst hk
      simp only [Nat.sub_self, List.getElem_cons_zero] at hget
      subst hget
      exact ⟨trivial, AList.lookup_insert _, by simp [Worker.holdsLock, State.release]⟩
  · dsimp only [State.release, State.createThreadLocked] at hk ⊢
    rw [List.length_append, List.length_singleton] at hk
    rw [AList.lookup_insert_ne (by omega)]
    exact ⟨(h.outside k (by omega)).1, by simp⟩
  · simp [State.release, hinit]

theorem Quiet.with_init (h : Quiet s) (state : PoolState) (clock : ℤ) (init : Init)
    (hinit : s.lock = some .init ↔ init = .creating) : Quiet { s with state, clock, init } :=
  ⟨h.workQueue, h.activeCount, h.calls,
    fun id w hw => ⟨(h.worker id w hw).idle, (h.worker id w hw).thread, (h.worker id w hw).lock⟩,
    h.outside, hinit, h.callLock⟩

theorem Quiet.init_next (h : Quiet s) (hnext : initNext cfg s = some t) : Quiet t := by
  have hinit := h.initLock
  unfold initNext at hnext
  split at hnext
  · next htesting =>
    cases hnext
    refine h.with_init s.state s.clock _ ?_
    rw [hinit, htesting]
    split <;> simp
  · split at hnext
    · next hfree =>
      cases hnext
      refine ⟨h.workQueue, h.activeCount, h.calls, fun k v hv => ?_, fun k hk => ?_, by simp,
        by simp⟩
      · obtain ⟨hidle, hthread, hholds⟩ := h.worker k v hv
        refine ⟨hidle, hthread, ?_⟩
        rw [hholds, hfree]
        simp
      · exact ⟨(h.outside k hk).1, by simp⟩
    · cases hnext
  · next hcreating =>
    cases hnext
    exact h.create (hinit.mpr hcreating) .testing (by simp)
  · next hstarting =>
    cases hnext
    refine h.with_init .running s.clock .done ?_
    rw [hinit, hstarting]
    simp
  · cases hnext

theorem quiet_of_initSteps (h : ReflTransGen (InitStep cfg) {} s) : Quiet s := by
  induction h with
  | refl => exact ⟨rfl, rfl, rfl, by simp, fun _ _ => ⟨rfl, by simp⟩, by simp, by simp⟩
  | tail _ hstep ih =>
    cases hstep with
    | init hnext => exact ih.init_next hnext
    | worker id hact =>
      obtain ⟨w, w', s', hw, hnext, rfl⟩ := act_worker_inv hact
      exact ih.worker_next hw hnext
    | tick elapsed hact =>
      cases hact
      exact ih.with_init _ _ _ ih.initLock

end Quiet

section Strand

variable {cfg : Config} {s s' t : State} {id : ℕ} {w w' : Worker}

def Worker.rank : Worker → ℕ
  | .sizing _ _ => 3
  | .leaving => 2
  | .erasing => 1
  | _ => 0

theorem sum_set {α : Type*} (f : α → ℕ) {l : List α} {k : ℕ} {a : α} (b : α)
    (ha : l[k]? = some a) : ((l.set k b).map f).sum + f a = (l.map f).sum + f b := by
  induction l generalizing k with
  | nil => simp at ha
  | cons x l ih =>
    cases k with
    | zero =>
      cases ha
      simp only [List.set_cons_zero, List.map_cons, List.sum_cons]
      omega
    | succ k =>
      have hsum := ih (k := k) (by simpa using ha)
      simp only [List.set_cons_succ, List.map_cons, List.sum_cons]
      omega

theorem Settled.leave (h : Settled s id w) (hqueue : s.workQueue = []) (hstays : ¬ w.Stays)
    (hexited : w ≠ .exited) (hlock : s.lock = none ∨ s.lock = some (.worker id)) :
    ∃ w' s', workerNext cfg id w s = some (w', s') ∧ ¬ w'.Stays ∧ w'.rank < w.rank := by
  obtain ⟨hidle, -, hholds⟩ := h
  cases w with
  | sizing core idleDeadline =>
    refine ⟨.leaving, s, ?_, fun h => h, Nat.lt_succ_self 2⟩
    rw [workerNext, State.queueSize, hqueue]
    rfl
  | leaving =>
    have hfree : s.lock = none := by
      rcases hlock with hlock | hlock
      · exact hlock
      · simp [Worker.holdsLock, hlock] at hholds
    exact ⟨.erasing, _, if_pos hfree, fun h => h, by decide⟩
  | erasing => exact ⟨.exited, _, rfl, fun h => h, by decide⟩
  | exited => exact absurd rfl hexited
  | started => exact absurd trivial hstays
  | looking => exact absurd trivial hstays
  | lost => exact hidle.elim
  | popped _ _ => exact hidle.elim
  | executing _ _ => exact hidle.elim
  | finished _ _ => exact hidle.elim
  | arming _ => exact absurd hidle hstays
  | looping _ _ => exact absurd hidle hstays
  | popping _ _ => exact absurd hidle hstays
  | testing _ _ => exact absurd hidle hstays

theorem Quiet.exists_unblocked (h : Quiet s) (hdone : s.init = .done)
    (hleft : ¬ ∀ w ∈ s.workers, w = .exited) : ∃ id w, s.workers[id]? = some w ∧ w ≠ .exited ∧
      (s.lock = none ∨ s.lock = some (.worker id)) := by
  cases hlock : s.lock with
  | none =>
    push Not at hleft
    obtain ⟨w, hmem, hexited⟩ := hleft
    obtain ⟨id, hw⟩ := List.mem_iff_getElem?.mp hmem
    exact ⟨id, w, hw, hexited, .inl rfl⟩
  | some party =>
    cases party with
    | init =>
      have hcreating := h.initLock.mp hlock
      rw [hdone] at hcreating
      cases hcreating
    | call i => exact absurd hlock (h.callLock i)
    | worker id =>
      have hid : id < s.workers.length := by
        by_contra hge
        exact (h.outside id (Nat.le_of_not_lt hge)).2 hlock
      have hw := List.getElem?_eq_getElem hid
      refine ⟨id, _, hw, fun hexited => ?_, .inr rfl⟩
      have hholds := (h.worker id _ hw).lock.mpr hlock
      rw [hexited] at hholds
      cases hholds

theorem Quiet.drain (h : Quiet s) (hdone : s.init = .done)
    (hstays : ∀ (id : ℕ) (w : Worker), s.workers[id]? = some w → ¬ w.Stays) :
    ∃ t, ReflTransGen (Step cfg) s t ∧ Quiet t ∧ t.init = .done ∧ t.state = s.state ∧
      ∀ w ∈ t.workers, w = .exited := by
  induction hn : (s.workers.map Worker.rank).sum using Nat.strong_induction_on generalizing s with
  | _ n ih =>
    by_cases hall : ∀ w ∈ s.workers, w = .exited
    · exact ⟨s, .refl, h, hdone, rfl, hall⟩
    · obtain ⟨id, w, hw, hexited, hlock⟩ := h.exists_unblocked hdone hall
      obtain ⟨w', s', (hnext : workerNext cfg id w s = some (w', s')), hstays', hrank⟩ :=
        (h.worker id w hw).leave h.workQueue (hstays id w hw) hexited hlock
      obtain ⟨hstate, hworkers, -, hinit, -⟩ := workerNext_frame hnext
      have hdoomed : ∀ (k : ℕ) (v : Worker), (s'.workers.set id w')[k]? = some v → ¬ v.Stays := by
        intro k v hv
        rw [hworkers] at hv
        rcases set_cases hv with ⟨-, rfl⟩ | ⟨-, hv⟩
        · exact hstays'
        · exact hstays k v hv
      have hless : ((s'.workers.set id w').map Worker.rank).sum < n := by
        rw [hworkers, ← hn]
        have hsum := sum_set Worker.rank w' hw
        omega
      obtain ⟨t, hreach, hquiet, hdone', hstate', hall'⟩ :=
        ih _ hless (h.worker_next hw hnext) (hinit.trans hdone) hdoomed rfl
      refine ⟨t, .head ⟨.worker id, ?_⟩ hreach, hquiet, hdone', hstate'.trans hstate, hall'⟩
      simp only [act, hw, hnext, Option.bind_eq_bind, Option.bind_some]

def run (cfg : Config) (s : State) : List Action → Option State
  | [] => some s
  | action :: actions => (act cfg s action).bind fun s => run cfg s actions

theorem reaches_of_run {actions : List Action} (h : run cfg s actions = some t) :
    ReflTransGen (Step cfg) s t := by
  induction actions generalizing s with
  | nil =>
    cases h
    exact .refl
  | cons action actions ih =>
    obtain ⟨s', hact, hrun⟩ := Option.bind_eq_some_iff.mp h
    exact .head ⟨action, hact⟩ (ih hrun)

theorem run_append (s : State) (front back : List Action) :
    run cfg s (front ++ back) = (run cfg s front).bind fun s => run cfg s back := by
  induction front generalizing s with
  | nil => rfl
  | cons action front ih =>
    simp only [List.cons_append, run, Option.bind_assoc, ih]

def extended (clock : ℤ) (workers : List Worker) (init : Init) (task : Task) (w : Worker)
    (lock : Option Party) : State :=
  { state := .running, clock, init, lock
    workQueue := [task]
    threads := AList.insert workers.length ⟨false⟩ ∅
    workers := workers ++ [w]
    calls := [.returned] }

/-- A pool without workers, and one call that holds the lock with its task in the queue. -/
def holding (clock : ℤ) (workers : List Worker) (init : Init) (task : Task) (c : Call) : State :=
  { state := .running, clock, workers, init
    lock := some (.call 0)
    workQueue := [task]
    calls := [c] }

theorem act_checkingMax (hmax : 0 < cfg.maxPoolSize) (clock : ℤ) (workers : List Worker)
    (init : Init) (task : Task) :
    act cfg (holding clock workers init task .checkingMax) (.execute 0) =
      some (holding clock workers init task .extendSizing) := by
  have hnext : callNext cfg 0 .checkingMax (holding clock workers init task .checkingMax) =
      some (.extendSizing, holding clock workers init task .checkingMax) :=
    if_neg (Int.not_le.mpr hmax)
  have hcall : (holding clock workers init task .checkingMax).calls[0]? = some .checkingMax := rfl
  simp only [act, hcall, hnext, Option.bind_eq_bind, Option.bind_some]
  rfl

theorem run_execute (hmax : 0 < cfg.maxPoolSize) (clock : ℤ) (workers : List Worker)
    (init : Init) (task : Task) :
    run cfg { state := .running, clock, workers, init }
        (.call task :: List.replicate 11 (.execute 0)) =
      some (extended clock workers init task .started none) := by
  have hlock : run cfg { state := .running, clock, workers, init }
      (.call task :: List.replicate 6 (.execute 0)) =
        some (holding clock workers init task .checkingMax) := rfl
  have hextend : run cfg (holding clock workers init task .extendSizing)
      (List.replicate 4 (.execute 0)) =
        some (extended clock workers init task .started none) := rfl
  show run cfg _ ((.call task :: List.replicate 6 (.execute 0)) ++
    (.execute 0 :: List.replicate 4 (.execute 0))) = _
  rw [run_append, hlock, Option.bind_some, run, act_checkingMax hmax]
  exact hextend

def idleDeadline (cfg : Config) (clock : ℤ) : ℤ :=
  if cfg.keepAliveTimeMs > 0 then clock + cfg.keepAliveTimeMs else clock

theorem run_expire {clock : ℤ} {elapsed : ℕ}
    (hpassed : idleDeadline cfg clock ≤ clock + elapsed) (workers : List Worker) (init : Init)
    (task : Task) : ∃ t, run cfg (extended clock workers init task .started none)
        (List.replicate 3 (.worker workers.length) ++
          .tick elapsed :: List.replicate 3 (.worker workers.length)) = some t ∧
      t.calls = [.returned] ∧ t.threads = ∅ ∧ t.workQueue = [task] := by
  have harm : run cfg (extended clock workers init task .started none)
      (List.replicate 3 (.worker workers.length)) =
        some (extended clock workers init task (.looping false (idleDeadline cfg clock)) none) := by
    simp [run, act, workerNext, List.replicate, State.release, extended, idleDeadline,
      -AList.insert_empty]
  have herase : (AList.insert workers.length ⟨false⟩ ∅ :
      AList fun _ : ℕ => ThreadData).erase workers.length = ∅ := by
    apply AList.ext
    exact List.kerase_cons_eq rfl
  rw [run_append, harm]
  simp [run, act, workerNext, List.replicate, extended, Int.not_lt.mpr hpassed, herase,
    -AList.insert_empty]

theorem Quiet.eq_of_exited (h : Quiet s) (hdone : s.init = .done)
    (hexited : ∀ w ∈ s.workers, w = .exited) :
    s = { state := s.state, clock := s.clock, workers := s.workers, init := s.init } := by
  have hsettled : ∀ id, s.threads.lookup id = none ∧ s.lock ≠ some (.worker id) := by
    intro id
    rcases lt_or_ge id s.workers.length with hlt | hge
    · have hw := List.getElem?_eq_getElem hlt
      rw [hexited _ (List.getElem_mem hlt)] at hw
      obtain ⟨-, hthread, hholds⟩ := h.worker id _ hw
      exact ⟨hthread, fun hlock => Bool.false_ne_true (hholds.mpr hlock)⟩
    · exact h.outside id hge
  have hthreads : s.threads = ∅ := by
    apply AList.ext
    rw [AList.empty_entries, List.eq_nil_iff_forall_not_mem]
    rintro ⟨id, threadData⟩ hmem
    have hlookup := AList.mem_lookup_iff.mpr hmem
    rw [(hsettled id).1] at hlookup
    cases hlookup
  have hlock : s.lock = none := by
    cases hlock : s.lock with
    | none => rfl
    | some party =>
      cases party with
      | worker id => exact absurd hlock (hsettled id).2
      | call i => exact absurd hlock (h.callLock i)
      | init =>
        have hcreating := h.initLock.mp hlock
        rw [hdone] at hcreating
        cases hcreating
  exact State.ext rfl rfl h.workQueue h.activeCount hlock hthreads rfl h.calls rfl

theorem Quiet.strand (h : Quiet s) (hdone : s.init = .done) (hrunning : s.state = .running)
    (hmax : 0 < cfg.maxPoolSize) (hexited : ∀ w ∈ s.workers, w = .exited) :
    ∃ t, ReflTransGen (Step cfg) s t ∧ ¬ NoneStranded t := by
  have hs := h.eq_of_exited hdone hexited
  rw [hrunning] at hs
  have hpassed : idleDeadline cfg s.clock ≤ s.clock + cfg.keepAliveTimeMs.toNat := by
    rw [idleDeadline]
    split <;> omega
  obtain ⟨t, hexpire, hcalls, hthreads, hqueue⟩ := run_expire hpassed s.workers s.init (some 0)
  refine ⟨t, ?_, fun hnone => ?_⟩
  · rw [hs]
    exact (reaches_of_run (run_execute hmax s.clock s.workers s.init (some 0))).trans
      (reaches_of_run hexpire)
  · have hempty := hnone (by simp [hcalls]) hthreads
    rw [hqueue] at hempty
    cases hempty

end Strand

section Main

variable {cfg : Config} {s : State}

theorem Started.quiet (h : Started cfg s) : Quiet s ∧ s.state = .running ∧ s.init = .done := by
  obtain ⟨s', hsteps, hstarting, hnext⟩ := h
  have hquiet := (quiet_of_initSteps hsteps).init_next hnext
  rw [initNext, hstarting] at hnext
  cases hnext
  exact ⟨hquiet, rfl, rfl⟩

/-- No task is stranded exactly where one of the core workers is in its loop, and has not found the
pool not yet running, when the pool starts. -/
theorem none_stranded_iff (cfg : Config) (haccepted : cfg.Accepted) (s : State)
    (hstarted : Started cfg s) :
    (∀ t, ReflTransGen (Step cfg) s t → NoneStranded t) ↔ ∃ id, Staying s id := by
  obtain ⟨hquiet, hrunning, hdone⟩ := hstarted.quiet
  have hmax : 0 < cfg.maxPoolSize := by
    rw [Config.Accepted] at haccepted
    omega
  constructor
  · intro h
    by_contra hnone
    have hstays : ∀ (id : ℕ) (w : Worker), s.workers[id]? = some w → ¬ w.Stays := by
      intro id w hw hstays
      refine hnone ⟨id, ?_, w, hw, hstays⟩
      rw [(hquiet.worker id w hw).thread, if_neg]
      rintro rfl
      exact hstays
    obtain ⟨t, (hreach : ReflTransGen (Step cfg) s t), hquiet', hdone', hstate, hexited⟩ :=
      hquiet.drain hdone hstays
    obtain ⟨u, hreach', hstranded⟩ :=
      hquiet'.strand hdone' (hstate.trans hrunning) hmax hexited
    exact hstranded (h u (hreach.trans hreach'))
  · rintro ⟨id, hstaying⟩ t hreach - hempty
    have hthread := (hstaying.reaches hrunning hreach).1.1
    rw [hempty, AList.lookup_empty] at hthread
    cases hthread

def oneCore : State where
  state := .running
  threads := AList.insert 0 ⟨true⟩ ∅
  workers := [.started]
  init := .done

theorem none_stranded_one_core : Staying oneCore 0 ∧
    ∀ t, ReflTransGen (Step ⟨1, 1, 0⟩) oneCore t → NoneStranded t := by
  have hstaying : Staying oneCore 0 := ⟨rfl, .started, rfl, trivial⟩
  exact ⟨hstaying, (none_stranded_iff ⟨1, 1, 0⟩ (by decide) oneCore ⟨_, .head (.init rfl)
    (.head (.init rfl) (.head (.init rfl) (.single (.init rfl)))), rfl, rfl⟩).mpr ⟨0, hstaying⟩⟩

/-- Without core workers and without keep-alive the thread made for a task leaves before it has
looked for one. -/
theorem task_stranded : Config.Accepted ⟨0, 1, 0⟩ ∧
    Started ⟨0, 1, 0⟩ { state := .running, init := .done } ∧
    ∃ t, ReflTransGen (Step ⟨0, 1, 0⟩) { state := .running, init := .done } t ∧
      ¬ NoneStranded t := by
  refine ⟨by decide, ⟨_, .single (.init rfl), rfl, rfl⟩, ?_⟩
  obtain ⟨t, hrun, hcalls, hthreads, hqueue⟩ : ∃ t,
      run ⟨0, 1, 0⟩ { state := .running, init := .done }
        (.call (some 7) :: (List.replicate 11 (.execute 0) ++ List.replicate 6 (.worker 0))) =
        some t ∧ t.calls = [.returned] ∧ t.threads = ∅ ∧ t.workQueue = [some 7] :=
    ⟨_, rfl, rfl, rfl, rfl⟩
  refine ⟨t, reaches_of_run hrun, fun hnone => ?_⟩
  have hempty := hnone (by simp [hcalls]) hthreads
  rw [hqueue] at hempty
  cases hempty

end Main

end ThreadPool
