import LsmStorage.ThreadPool

/-! # The tasks of a ThreadPoolExecutor

What the steps of a pool do to its tasks, in any order of the steps: every task that was queued is
taken once, first in, first out, and run by the worker that took it. The pool does not grow above
`max_pool_size_`, and `active_count_` is the number of tasks that are being run. -/
namespace ThreadPool

open Relation Worker

def Worker.busy : Worker → ℕ
  | .popped _ _ | .executing _ _ => 1
  | _ => 0

def Worker.running : Worker → ℕ
  | .executing _ _ => 1
  | _ => 0

def Call.holdsLock : Call → Bool
  | .checkingMax | .extendSizing | .extendReadingPool _ | .extendReadingActive _ _ | .creating =>
    true
  | _ => false

def Call.hasRoom : Call → Bool
  | .extendSizing | .extendReadingPool _ | .extendReadingActive _ _ | .creating => true
  | _ => false

def Call.gives : Call → List Task
  | .pushing task => [task]
  | _ => []

def Worker.takes (workQueue : List Task) : Worker → List Task
  | .popping _ _ => workQueue.take 1
  | _ => []

structure History where
  state : State
  queued : List Task := []
  taken : List Task := []
  ran : ℕ := 0

namespace History

variable (cfg : Config) (h : History)

def next : Action → Option History
  | .worker id => do
    let w ← h.state.workers[id]?
    let state ← act cfg h.state (.worker id)
    some { h with
      state
      taken := h.taken ++ w.takes h.state.workQueue
      ran := h.ran + w.running }
  | .execute i => do
    let c ← h.state.calls[i]?
    let state ← act cfg h.state (.execute i)
    some { h with state, queued := h.queued ++ c.gives }
  | action => (act cfg h.state action).map fun state => { h with state }

def Step (h h' : History) : Prop := ∃ action, h.next cfg action = some h'

structure Sound : Prop where
  tasks : h.queued = h.taken ++ h.state.workQueue
  ran : h.taken.countP (·.isSome) = h.ran + (h.state.workers.map busy).sum
  active : h.state.activeCount = (h.state.workers.map running).sum
  workerLock : ∀ id w, h.state.workers[id]? = some w → w.holdsLock →
    h.state.lock = some (.worker id)
  callLock : ∀ i c, h.state.calls[i]? = some c → c.holdsLock → h.state.lock = some (.call i)
  room : ∀ (i : ℕ) (c : Call), h.state.calls[i]? = some c → c.hasRoom →
    h.state.poolSize < cfg.maxPoolSize
  bound : h.state.poolSize ≤ cfg.maxPoolSize

end History

section Effects

variable {cfg : Config} {s s' : State} {id i : ℕ} {w w' : Worker} {c c' : Call}

theorem lock_kept {l l' : Option Party} {p q : Party} {holds : Prop}
    (hlock : l' = l ∨ l = none ∨ holds) (hholds : holds → l = some p) (hne : q ≠ p)
    (hheld : l = some q) : l' = some q := by
  rcases hlock with hlock | hlock | hlock
  · exact hlock.trans hheld
  · cases hlock.symm.trans hheld
  · exact absurd (Option.some.inj (hheld.symm.trans (hholds hlock))) hne

theorem workerNext_effect (h : workerNext cfg id w s = some (w', s')) :
    s.workQueue = w.takes s.workQueue ++ s'.workQueue ∧
      (w.takes s.workQueue).countP (·.isSome) + w.busy = w.running + w'.busy ∧
      s'.activeCount + w.running = s.activeCount + w'.running ∧ s'.poolSize ≤ s.poolSize ∧
      (w'.holdsLock → s'.lock = some (.worker id)) ∧
      (s'.lock = s.lock ∨ s.lock = none ∨ w.holdsLock) := by
  unfold workerNext at h
  split at h <;> try split at h
  all_goals cases h
  all_goals simp_all [takes, busy, running, holdsLock, State.release,
    State.poolSize]
  exact List.length_erase_le

theorem callNext_effect (h : callNext cfg i c s = some (c', s')) :
    s'.calls = s.calls ∧ s'.workQueue = s.workQueue ++ c.gives ∧ s'.activeCount = s.activeCount ∧
      (s'.workers = s.workers ∨ s'.workers = s.workers ++ [.started]) ∧
      (s'.poolSize ≤ s.poolSize ∨ c = .creating ∧ s'.poolSize ≤ s.poolSize + 1) ∧
      (c'.holdsLock → s'.lock = some (.call i) ∨ s'.lock = s.lock ∧ c.holdsLock) ∧
      (c'.hasRoom → s'.poolSize = s.poolSize ∧ (c.hasRoom ∨ s.poolSize < cfg.maxPoolSize)) ∧
      (s'.lock = s.lock ∨ s.lock = none ∨ c.holdsLock) := by
  unfold callNext at h
  split at h <;> try split at h
  all_goals cases h
  all_goals simp_all [Call.gives, Call.holdsLock, Call.hasRoom, State.release, State.poolSize,
    State.createThreadLocked]
  exact .inr List.length_erase_le

section Grown

variable {ws ws' : List Worker} (hgrown : ws' = ws ∨ ws' = ws ++ [.started])
include hgrown

theorem sum_of_grown (f : Worker → ℕ) (hf : f .started = 0) : (ws'.map f).sum = (ws.map f).sum := by
  rcases hgrown with rfl | rfl
  · rfl
  · rw [List.map_append, List.sum_append, List.map_singleton, List.sum_singleton, hf, Nat.add_zero]

theorem getElem?_of_grown {k : ℕ} (hw : ws'[k]? = some w) (hlock : w.holdsLock) :
    ws[k]? = some w := by
  rcases hgrown with rfl | rfl
  · exact hw
  · rw [List.getElem?_append] at hw
    split_ifs at hw with hk
    · exact hw
    · obtain rfl := List.mem_singleton.mp (List.mem_of_getElem? hw)
      cases hlock

end Grown

end Effects

namespace History

variable {cfg : Config} {h h' : History}

theorem Sound.worker (hs : Sound cfg h) {id : ℕ} (hnext : h.next cfg (.worker id) = some h') :
    Sound cfg h' := by
  simp only [next, Option.bind_eq_bind, Option.bind_eq_some_iff] at hnext
  obtain ⟨w, hw, t, hact, ht⟩ := hnext
  cases ht
  obtain ⟨v, w', s', hv, hstep, rfl⟩ := act_worker_inv hact
  cases hv.symm.trans hw
  obtain ⟨-, hworkers, hcalls, -, -⟩ := workerNext_frame hstep
  obtain ⟨htakes, hbusy, hactive, hpool, hholds, hlock⟩ := workerNext_effect hstep
  have hkeeps := fun party => lock_kept (q := party) hlock (hs.workerLock id w hw)
  refine ⟨?_, ?_, ?_, fun k x hx hxlock => ?_, fun i c hc hclock => ?_, fun i c hc hroom => ?_, ?_⟩
  · rw [List.append_assoc, ← htakes]
    exact hs.tasks
  · have hsum := sum_set busy w' hw
    have hran := hs.ran
    simp only [hworkers, List.countP_append]
    omega
  · have hsum := sum_set running w' hw
    have hcount := hs.active
    simp only [hworkers]
    omega
  · simp only [hworkers] at hx
    rcases set_cases hx with ⟨rfl, rfl⟩ | ⟨hk, hx⟩
    · exact hholds hxlock
    · exact hkeeps (.worker k) (fun heq => hk (Party.worker.inj heq)) (hs.workerLock k x hx hxlock)
  · simp only [hcalls] at hc
    exact hkeeps (.call i) Party.noConfusion (hs.callLock i c hc hclock)
  · simp only [hcalls] at hc
    exact lt_of_le_of_lt hpool (hs.room i c hc hroom)
  · exact hpool.trans hs.bound

/-- What a step of a call leaves to the calls. While one has room it holds the lock, so no other
call creates a thread. -/
theorem Sound.calls_execute (hs : Sound cfg h) {i k : ℕ} {c c' x : Call} {t : State}
    (hc : h.state.calls[i]? = some c) (hstep : callNext cfg i c h.state = some (c', t))
    (hx : (t.calls.set i c')[k]? = some x) :
    (x.holdsLock → t.lock = some (.call k)) ∧ (x.hasRoom → t.poolSize < cfg.maxPoolSize) := by
  obtain ⟨hcalls, -, -, -, hpool, hholds, hroom, hlock⟩ := callNext_effect hstep
  rw [hcalls] at hx
  rcases set_cases hx with ⟨rfl, rfl⟩ | ⟨hk, hx⟩
  · constructor
    · intro hheld
      rcases hholds hheld with hheld | ⟨hsame, hheld⟩
      · exact hheld
      · exact hsame.trans (hs.callLock k c hc hheld)
    · intro hxroom
      obtain ⟨hsame, hroom⟩ := hroom hxroom
      exact lt_of_eq_of_lt hsame (hroom.elim (hs.room k c hc) id)
  · have hother := hs.callLock k x hx
    refine ⟨fun hheld => ?_, fun hxroom => ?_⟩
    · exact lock_kept hlock (hs.callLock i c hc) (fun heq => hk (Party.call.inj heq)) (hother hheld)
    rcases hpool with hpool | ⟨rfl, -⟩
    · exact lt_of_le_of_lt hpool (hs.room k x hx hxroom)
    have hheld : x.holdsLock := by
      cases x <;> simp_all [Call.hasRoom, Call.holdsLock]
    have hsame := (hother hheld).symm.trans (hs.callLock i .creating hc rfl)
    exact absurd (Party.call.inj (Option.some.inj hsame)) hk

theorem Sound.execute (hs : Sound cfg h) {i : ℕ} (hnext : h.next cfg (.execute i) = some h') :
    Sound cfg h' := by
  simp only [next, act, Option.bind_eq_bind, Option.bind_eq_some_iff] at hnext
  obtain ⟨c, hc, t, ⟨_, hc', ⟨c', s'⟩, hstep, ht⟩, ht'⟩ := hnext
  cases hc'.symm.trans hc
  cases ht
  cases ht'
  obtain ⟨-, hqueue, hactive, hworkers, hpool, -, -, hlock⟩ := callNext_effect hstep
  refine ⟨?_, ?_, ?_, fun k w hw hwlock => ?_, fun k x hx hheld => ?_, fun k x hx hroom => ?_, ?_⟩
  · simp only [hqueue, hs.tasks, List.append_assoc]
  · simp only [sum_of_grown hworkers busy rfl]
    exact hs.ran
  · simp only [sum_of_grown hworkers running rfl, hactive]
    exact hs.active
  · have hheld := hs.workerLock k w (getElem?_of_grown hworkers hw hwlock) hwlock
    exact lock_kept hlock (hs.callLock i c hc) Party.noConfusion hheld
  · exact (hs.calls_execute (t := s') hc hstep hx).1 hheld
  · exact (hs.calls_execute (t := s') hc hstep hx).2 hroom
  · rcases hpool with hpool | ⟨rfl, hpool⟩
    · exact hpool.trans hs.bound
    · exact hpool.trans (hs.room i .creating hc rfl)

theorem Sound.call (hs : Sound cfg h) {task : Task}
    (hnext : h.next cfg (.call task) = some h') : Sound cfg h' := by
  cases hnext
  have hcalled : ∀ (i : ℕ) (c : Call), (h.state.calls ++ [.called task])[i]? = some c →
      c.holdsLock ∨ c.hasRoom → h.state.calls[i]? = some c := by
    intro i c hc hholds
    rw [List.getElem?_append] at hc
    split_ifs at hc with hi
    · exact hc
    · obtain rfl := List.mem_singleton.mp (List.mem_of_getElem? hc)
      rcases hholds with hholds | hholds
      · cases hholds
      · cases hholds
  exact ⟨hs.tasks, hs.ran, hs.active, hs.workerLock,
    fun i c hc hlock => hs.callLock i c (hcalled i c hc (.inl hlock)) hlock,
    fun i c hc hroom => hs.room i c (hcalled i c hc (.inr hroom)) hroom, hs.bound⟩

theorem Sound.step (hs : Sound cfg h) (hstep : Step cfg h h') : Sound cfg h' := by
  obtain ⟨action, hnext⟩ := hstep
  cases action with
  | worker id => exact hs.worker hnext
  | execute i => exact hs.execute hnext
  | tick elapsed =>
    cases hnext
    exact ⟨hs.tasks, hs.ran, hs.active, hs.workerLock, hs.callLock, hs.room, hs.bound⟩
  | call task => exact hs.call hnext

end History

section Started

variable {cfg : Config} {s t : State}

structure CoreBound (cfg : Config) (s : State) : Prop where
  bound : s.poolSize ≤ cfg.corePoolSize
  room : s.init = .locking ∨ s.init = .creating → s.poolSize < cfg.corePoolSize

theorem CoreBound.step (h : CoreBound cfg s) (hstep : InitStep cfg s t) : CoreBound cfg t := by
  cases hstep with
  | tick elapsed hact =>
    cases hact
    exact ⟨h.bound, h.room⟩
  | worker id hact =>
    obtain ⟨w, w', s', -, hnext, rfl⟩ := act_worker_inv hact
    obtain ⟨-, -, -, hinit, -⟩ := workerNext_frame hnext
    obtain ⟨-, -, -, hpool, -, -⟩ := workerNext_effect hnext
    refine ⟨hpool.trans h.bound, fun hcreating => lt_of_le_of_lt hpool (h.room ?_)⟩
    rwa [← hinit]
  | init hnext =>
    unfold initNext at hnext
    split at hnext
    · cases hnext
      refine ⟨h.bound, fun hcreating => ?_⟩
      dsimp only at hcreating
      split_ifs at hcreating with hlt
      · exact hlt
      · simp at hcreating
    · next hlocking =>
      split_ifs at hnext
      cases hnext
      exact ⟨h.bound, fun _ => h.room (.inl hlocking)⟩
    · next hcreating =>
      cases hnext
      have hroom := h.room (.inr hcreating)
      have hlength := List.length_erase_le (a := s.workers.length) (l := s.threads.keys)
      refine ⟨?_, by simp⟩
      simp only [State.poolSize, State.release, State.createThreadLocked, AList.keys_insert,
        List.length_cons] at hroom ⊢
      omega
    · cases hnext
      exact ⟨h.bound, by simp⟩
    · cases hnext

theorem coreBound_of_initSteps (haccepted : cfg.Accepted) (h : ReflTransGen (InitStep cfg) {} s) :
    CoreBound cfg s := by
  induction h with
  | refl =>
    rw [Config.Accepted] at haccepted
    have hempty : State.poolSize {} = 0 := rfl
    exact ⟨by omega, by simp⟩
  | tail _ hstep ih => exact ih.step hstep

theorem Started.sound (haccepted : cfg.Accepted) (h : Started cfg s) :
    History.Sound cfg { state := s } := by
  obtain ⟨hquiet, -, -⟩ := h.quiet
  obtain ⟨s', hsteps, -, hnext⟩ := h
  have hbound := ((coreBound_of_initSteps haccepted hsteps).step (.init hnext)).bound
  have hidle : ∀ w ∈ s.workers, w.busy = 0 ∧ w.running = 0 := by
    intro w hw
    obtain ⟨id, hid⟩ := List.mem_iff_getElem?.mp hw
    have hw := (hquiet.worker id w hid).idle
    cases w <;> first | exact ⟨rfl, rfl⟩ | exact hw.elim
  have hsum : ∀ f : Worker → ℕ, (∀ w ∈ s.workers, f w = 0) → (s.workers.map f).sum = 0 := by
    intro f hf
    refine List.sum_eq_zero fun n hn => ?_
    obtain ⟨w, hw, rfl⟩ := List.mem_map.mp hn
    exact hf w hw
  refine ⟨hquiet.workQueue.symm, ?_, ?_,
    fun id w hw hlock => (hquiet.worker id w hw).lock.mp hlock, ?_, ?_, ?_⟩
  · dsimp only
    rw [hsum _ fun w hw => (hidle w hw).1]
    rfl
  · rw [hsum _ fun w hw => (hidle w hw).2]
    exact hquiet.activeCount
  · simp [hquiet.calls]
  · simp [hquiet.calls]
  · rw [Config.Accepted] at haccepted
    dsimp only
    omega

/-- In every order of the steps behind `init`: the tasks that were queued are those that were taken,
in the order in which they were queued, and then those that are still in the queue; the tasks that
were taken have been run, or a worker is about to; `active_count_` counts the tasks that are being
run; and there are never more than `max_pool_size_` threads. -/
theorem tasks_run_once (cfg : Config) (haccepted : cfg.Accepted) (s : State)
    (hstarted : Started cfg s) (h : History)
    (hreach : ReflTransGen (History.Step cfg) { state := s } h) :
    h.queued = h.taken ++ h.state.workQueue ∧
      h.taken.countP (·.isSome) = h.ran + (h.state.workers.map busy).sum ∧
      h.state.activeCount = (h.state.workers.map running).sum ∧
      h.state.poolSize ≤ cfg.maxPoolSize := by
  have hsound : History.Sound cfg h := by
    induction hreach with
    | refl => exact hstarted.sound haccepted
    | tail _ hstep ih => exact ih.step hstep
  exact ⟨hsound.tasks, hsound.ran, hsound.active, hsound.bound⟩

/-- The only worker takes the task of a call that has not returned. -/
theorem tasks_run_once_oneCore : ∃ h, ReflTransGen (History.Step ⟨1, 1, 0⟩) { state := oneCore } h ∧
    h.queued = [some 7] ∧ h.taken = [some 7] ∧ h.ran = 0 ∧
    h.taken.countP (·.isSome) = h.ran + (h.state.workers.map busy).sum := by
  have hreach : ReflTransGen (History.Step ⟨1, 1, 0⟩) { state := oneCore } _ :=
    .head ⟨.call (some 7), rfl⟩ (.head ⟨.execute 0, rfl⟩ (.head ⟨.execute 0, rfl⟩
      (.head ⟨.worker 0, rfl⟩ (.head ⟨.worker 0, rfl⟩ (.head ⟨.worker 0, rfl⟩
        (.head ⟨.worker 0, rfl⟩ (.single ⟨.worker 0, rfl⟩)))))))
  exact ⟨_, hreach, rfl, rfl, rfl, (tasks_run_once ⟨1, 1, 0⟩ (by decide) oneCore
    ⟨_, .head (.init rfl) (.head (.init rfl) (.head (.init rfl) (.single (.init rfl)))), rfl, rfl⟩ _
    hreach).2.1⟩

end Started

end ThreadPool
