import LsmStorage.LogReplay
import LsmStorage.TableStoreReads

/-! # ObTablet and what survives a restart

`ObTablet::init` opens the tablet's log stream and leaves the handler in the table store. The
memtables are made by the memtable manager, which does not know the handler, so a `set` on the
active memtable reaches no log, and no replay handler is registered for the stream. After a
restart `recover` walks the log and calls nobody. -/
namespace Tablet

open ByteCodec PosixFiles PalfLogStorage PalfHandle PalfRecovery MvccRow RowkeyHash Memtable
open MemtableMap TableStore TableStoreReads LogService LogReplay BoundedLoop

variable {β κ : Type*}

/-- A log handler is named by its log stream. -/
structure ObTablet where
  tabletId : ℤ := 0
  tableStore : ObTableStore ℤ := {}
  logHandler : Option ℤ := none
  isInited : Bool := false

/-- The log service and the files of a process; `none` after undefined behaviour. -/
abbrev LogWorld (β κ : Type*) := Option (ObLogService β κ × Disk (Option β × ℤ))

namespace ObTablet

variable [DecidableEq β]

/-- The freezer, which `init` sets up too, is not part of the state. -/
def init (fuel : ℕ) (tabletId : ℤ) (logService : Option (ObLogService β κ))
    (disk : Disk (Option β × ℤ)) (t : ObTablet) :
    Option (ℤ × ObTablet × Option (ObLogService β κ) × Disk (Option β × ℤ)) :=
  let t := { t with tabletId := tabletId, tableStore := (t.tableStore.init tabletId).2 }
  match logService with
  | none => some (0, { t with isInited := true }, none, disk)
  | some s =>
    match s.openLs fuel tabletId disk with
    | none => none
    | some (ret, s, disk) =>
      if ret ≠ 0 then some (ret, t, some s, disk)
      else
        let t := { t with
          logHandler := some tabletId
          tableStore := t.tableStore.setLogHandler (some tabletId) }
        some (0, { t with isInited := true }, some s, disk)

/-- `call` is what the registered sub-handlers do to the table store. -/
def recover (fuel : ℕ) (call : κ → Bytes → ℕ → ℤ → ObTableStore ℤ → ℤ × ObTableStore ℤ)
    (readBuf : Bytes) (logService : Option (ObLogService β κ)) (disk : Disk (Option β × ℤ))
    (t : ObTablet) : Option (ℤ × ObTablet) :=
  match logService with
  | none => some (0, t)
  | some s =>
    match s.replayLs fuel call readBuf t.tabletId disk t.tableStore with
    | none => none
    | some (ret, store) => some (ret, { t with tableStore := store })

end ObTablet

section Sets

def appendRecord [DecidableEq β] (env : LogAppendEnv) (lsId : ℤ) (record : Bytes) :
    LogWorld β κ → ℤ × LogWorld β κ
  | none => (0, none)
  | some (s, disk) =>
    match s.handlers lsId with
    | none => (0, none)
    | some h =>
      match h.append env record .tabletOpLogBaseType disk with
      | none => (0, none)
      | some (res, h, disk) => (res.ret, some (s.setHandler lsId h, disk))

structure TabletCall where
  call : SetCall
  env : LogAppendEnv

def runTablet [DecidableEq β] : List TabletCall → ObTableStore ℤ → LogWorld β κ →
    Option (List Write × ObTableStore ℤ × LogWorld β κ)
  | [], store, log => some ([], store, log)
  | c :: cs, store, log =>
    match store.setActive (appendRecord c.env) c.call.mallocOk c.call.ctx c.call.row log with
    | none => none
    | some (ret, store, log) =>
      match runTablet cs store log with
      | none => none
      | some (acked, store, log) =>
        some (if ret = 0 then acked ++ [c.call.write] else acked, store, log)

structure Unlogged (store : ObTableStore ℤ) : Prop where
  unlocked : store.memtableMgr.mutexHeld = false
  noHandler : ∀ t, store.memtableMgr.activeMemtable = some t → t.logHandler = none

theorem set_unlogged {η L : Type*} (append : η → Bytes → L → ℤ × L) (mallocOk : Bool)
    (ctx : ObStoreCtx) (row : ObStoreRow) {t : ObMemtable η} (h : t.logHandler = none) (log : L) :
    ∃ ret t', t.set append mallocOk ctx row log = (ret, t', log) ∧ t'.logHandler = none := by
  unfold ObMemtable.set
  split
  · exact ⟨_, _, rfl, h⟩
  split
  · exact ⟨_, _, rfl, h⟩
  · simp only [h]
    refine ⟨_, _, rfl, ?_⟩
    unfold ObMemtable.apply
    dsimp only
    split <;> exact h

theorem setActive_unlogged {L : Type*} (append : ℤ → Bytes → L → ℤ × L) (c : SetCall)
    {store : ObTableStore ℤ} (h : Unlogged store) (log : L) :
    ∃ ret store', store.setActive append c.mallocOk c.ctx c.row log = some (ret, store', log) ∧
      Unlogged store' := by
  have hget := ObMemTableMgr.getActiveMemtable_eq h.unlocked
  have hactive : store.memtableMgr.activeOrNew.logHandler = none := by
    unfold ObMemTableMgr.activeOrNew
    cases ht : store.memtableMgr.activeMemtable with
    | none => rfl
    | some t => exact h.noHandler t ht
  obtain ⟨ret, t, hset, ht⟩ := set_unlogged append c.mallocOk c.ctx c.row hactive log
  refine ⟨ret, { store with memtableMgr := { store.memtableMgr with activeMemtable := some t } },
    ?_, h.unlocked, ?_⟩
  · simp only [ObTableStore.setActive, hget, hset]
  · intro t' ht'
    cases ht'
    exact ht

theorem runTablet_unlogged [DecidableEq β] (calls : List TabletCall) {store : ObTableStore ℤ}
    (h : Unlogged store) (log : LogWorld β κ) :
    ∃ acked store', runTablet calls store log = some (acked, store', log) := by
  induction calls generalizing store with
  | nil => exact ⟨[], store, rfl⟩
  | cons c cs ih =>
    obtain ⟨ret, store₁, hset, h₁⟩ := setActive_unlogged (appendRecord c.env) c.call h log
    obtain ⟨acked, store₂, hrest⟩ := ih h₁
    refine ⟨if ret = 0 then acked ++ [c.call.write] else acked, store₂, ?_⟩
    simp only [runTablet, hset, hrest]

end Sets

section Restart

theorem replay_unregistered {δ σ : Type*} {h : ObLogHandler δ κ}
    (hnone : h.replayHandlers = fun _ => none) (call : κ → Bytes → ℕ → ℤ → σ → ℤ × σ) (buf : Bytes)
    (lsn : ℕ) (scn : ℤ) (st : σ) : (h.replay call buf lsn scn st).2 = st := by
  unfold ObLogHandler.replay
  split
  · rfl
  split
  · rfl
  · simp only [hnone]

def Keeps {σ : Type*} (st : σ) : Turn (ℕ × Bytes × σ) σ → Prop
  | .again t => t.2.2 = st
  | .stop r => r = st

theorem replayTurn_unregistered {σ : Type*} {h : ObLogHandler (Option β × ℤ) κ}
    (hnone : h.replayHandlers = fun _ => none) (call : κ → Bytes → ℕ → ℤ → σ → ℤ × σ)
    (impl : PalfHandleImpl (Option β × ℤ)) (disk : Disk (Option β × ℤ)) (beginLsn endLsn : ℕ)
    (s : ℕ × Bytes × σ) :
    Keeps s.2.2 (ObLogService.replayTurn call h impl disk beginLsn endLsn s) := by
  obtain ⟨current, readBuf, st⟩ := s
  simp only [ObLogService.replayTurn, replay_unregistered hnone, ite_self]
  split
  · rfl
  split
  · rfl
  split
  · rfl
  split
  · rfl
  split
  · rfl
  split
  · rfl
  split
  · rfl
  · rfl

variable {disk disk' : Disk (Option β × ℤ)} {tabletId : ℤ}

theorem replayLs_unregistered {σ : Type*} {s : ObLogService β κ} {lsId : ℤ}
    (hnone : ∀ h, s.handlers lsId = some h → h.replayHandlers = fun _ => none) {fuel : ℕ}
    {call : κ → Bytes → ℕ → ℤ → σ → ℤ × σ} {readBuf : Bytes} {st st' : σ} {ret : ℤ}
    (hreplay : s.replayLs fuel call readBuf lsId disk st = some (ret, st')) : st' = st := by
  unfold ObLogService.replayLs at hreplay
  cases hs : s.handlers lsId with
  | none =>
    rw [hs] at hreplay
    cases hreplay
    rfl
  | some h =>
    cases himpl : h.palfHandleImpl with
    | none =>
      simp only [hs, himpl] at hreplay
      cases hreplay
      rfl
    | some impl =>
      simp only [hs, himpl] at hreplay
      obtain ⟨result, hrun, hresult⟩ := Option.map_eq_some_iff.mp hreplay
      cases hresult
      have hturn := replayTurn_unregistered (hnone h hs) call impl disk
        impl.logStorage.getBeginLsn impl.endLsn
      refine run_invariant (I := fun s => s.2.2 = st) (Q := fun r => r = st) ?_ ?_ rfl hrun
      · intro s t hs ht
        have hkeeps := hturn s
        rw [ht] at hkeeps
        exact hkeeps.trans hs
      · intro s r hs hr
        have hkeeps := hturn s
        rw [hr] at hkeeps
        exact hkeeps.trans hs

variable [DecidableEq β]

theorem openLs_unregistered {s s' : ObLogService β κ} {fuel : ℕ} {lsId ret : ℤ}
    (hfresh : s.handlers lsId = none) (hopen : s.openLs fuel lsId disk = some (ret, s', disk')) :
    ∀ h, s'.handlers lsId = some h → h.replayHandlers = fun _ => none := by
  intro h hh
  simp only [ObLogService.openLs, hfresh, ObLogService.initHandler] at hopen
  cases hinit : PalfHandleImpl.init fuel lsId (s.logDir, lsId)
      (PalfHandleImpl.new (s.logDir, lsId)) disk with
  | none => simp [hinit] at hopen
  | some result =>
    obtain ⟨ret', impl, disk₁⟩ := result
    by_cases hret : ret' = 0
    · simp only [hinit, hret, ne_eq, not_true_eq_false, Bool.false_eq_true, ↓reduceIte] at hopen
      cases hopen
      simp only [ObLogService.setHandler, Function.update_self] at hh
      cases hh
      rfl
    · simp only [hinit, hret, ne_eq, not_false_eq_true, Bool.false_eq_true, ↓reduceIte] at hopen
      cases hopen
      cases hfresh.symm.trans hh

/-- A new log service on the directory, a new tablet with the id, and `recover`. -/
def restart (fuel : ℕ) (call : κ → Bytes → ℕ → ℤ → ObTableStore ℤ → ℤ × ObTableStore ℤ)
    (readBuf : Bytes) (base : β) (tabletId : ℤ) (disk : Disk (Option β × ℤ)) :
    Option (ℤ × ObTablet) :=
  match ObTablet.init fuel tabletId (some (ObLogService.new.init base).2) disk {} with
  | none => none
  | some (_, t, s, disk) => t.recover fuel call readBuf s disk

theorem init_spec {fuel : ℕ} {ret : ℤ} {s : ObLogService β κ} {t : ObTablet}
    {s' : Option (ObLogService β κ)}
    (hinit : ObTablet.init fuel tabletId (some s) disk {} = some (ret, t, s', disk')) :
    t.tabletId = tabletId ∧
      t.tableStore.memtableMgr = { tabletId := tabletId, isInited := true } ∧
      ∃ s₁, s' = some s₁ ∧ s.openLs fuel tabletId disk = some (ret, s₁, disk') := by
  simp only [ObTablet.init] at hinit
  cases hopen : s.openLs fuel tabletId disk with
  | none => simp [hopen] at hinit
  | some result =>
    obtain ⟨ret', s₁, disk₁⟩ := result
    simp only [hopen] at hinit
    split at hinit
    · cases hinit
      exact ⟨rfl, rfl, s₁, rfl, rfl⟩
    · next hret =>
      obtain rfl := not_not.mp hret
      cases hinit
      exact ⟨rfl, rfl, s₁, rfl, rfl⟩

theorem holds_of_no_memtables {store : ObTableStore ℤ}
    (h : store.memtableMgr = { tabletId := tabletId, isInited := true }) : Holds store [] [] := by
  refine ⟨by rw [h], ?_, fun _ => rfl, by rw [h]; exact List.Forall₂.nil⟩
  intro t ht
  rw [h] at ht
  cases ht

theorem restart_reads_nothing {fuel : ℕ}
    {call : κ → Bytes → ℕ → ℤ → ObTableStore ℤ → ℤ × ObTableStore ℤ} {readBuf : Bytes} {base : β}
    {ret : ℤ} {t : ObTablet} (h : restart fuel call readBuf base tabletId disk = some (ret, t))
    (k : ObStoreRowkey) :
    ∃ store, t.tableStore.get {} k = some (none, store) := by
  unfold restart at h
  split at h
  · cases h
  · next ret₀ t₀ s' disk₀ hinit =>
    obtain ⟨hid, hmgr, s₁, rfl, hopen⟩ := init_spec hinit
    simp only [ObTablet.recover] at h
    split at h
    · cases h
    · next ret₁ store hreplay =>
      have hnone := openLs_unregistered rfl hopen
      rw [← hid] at hnone
      obtain rfl := replayLs_unregistered hnone hreplay
      cases h
      obtain ⟨store, hget, -⟩ := get_of_holds (holds_of_no_memtables hmgr) k
      exact ⟨store, hget⟩

def Durable (call : κ → Bytes → ℕ → ℤ → ObTableStore ℤ → ℤ × ObTableStore ℤ) (readBuf : Bytes)
    (base : β) (tabletId : ℤ) (acked : List Write) (disk : Disk (Option β × ℤ)) : Prop :=
  ∀ k w, (acked.find? fun v => v.row.rowkey = k) = some w →
    ∃ fuel ret t row store, restart fuel call readBuf base tabletId disk = some (ret, t) ∧
      t.tableStore.get {} k = some (some row, store) ∧ row.rowValue = w.row.rowValue

theorem durable_iff_nil (call : κ → Bytes → ℕ → ℤ → ObTableStore ℤ → ℤ × ObTableStore ℤ)
    (readBuf : Bytes) (base : β) (tabletId : ℤ) (acked : List Write)
    (disk : Disk (Option β × ℤ)) :
    Durable call readBuf base tabletId acked disk ↔ acked = [] := by
  constructor
  · intro hdurable
    cases acked with
    | nil => rfl
    | cons w ws =>
      obtain ⟨fuel, ret, t, row, store, hrestart, hget, -⟩ :=
        hdurable w.row.rowkey w (by simp)
      obtain ⟨store', hget'⟩ := restart_reads_nothing hrestart w.row.rowkey
      cases hget.symm.trans hget'
  · rintro rfl k w hw
    cases hw

/-- The sets on an initialised tablet leave its log alone, so they survive a restart exactly
when there were none. -/
theorem durable_iff_no_sets {fuel : ℕ} {tabletId : ℤ} {s : ObLogService β κ}
    {disk disk' : Disk (Option β × ℤ)} {t : ObTablet} {s' : Option (ObLogService β κ)}
    (hinit : ObTablet.init fuel tabletId (some s) disk {} = some (0, t, s', disk'))
    (call : κ → Bytes → ℕ → ℤ → ObTableStore ℤ → ℤ × ObTableStore ℤ) (readBuf : Bytes) (base : β)
    (calls : List TabletCall) :
    ∃ s₁ acked store, s' = some s₁ ∧
      runTablet calls t.tableStore (some (s₁, disk')) = some (acked, store, some (s₁, disk')) ∧
      (Durable call readBuf base tabletId acked disk' ↔ acked = []) := by
  obtain ⟨-, hmgr, s₁, rfl, -⟩ := init_spec hinit
  have hunlogged : Unlogged t.tableStore := by
    refine ⟨by rw [hmgr], ?_⟩
    intro m hm
    rw [hmgr] at hm
    cases hm
  obtain ⟨acked, store, hrun⟩ := runTablet_unlogged calls hunlogged (some (s₁, disk'))
  exact ⟨s₁, acked, store, rfl, hrun, durable_iff_nil call readBuf base tabletId acked disk'⟩

theorem init_of_opensAs (κ : Type*) {base : β} {impl : PalfHandleImpl (Option β × ℤ)}
    (hopen : OpensAs tabletId (some base, tabletId) disk impl disk') :
    ∃ (s : ObLogService β κ) (h : ObLogHandler (Option β × ℤ) κ) (t : ObTablet),
      s.handlers tabletId = some h ∧ h.palfHandleImpl = some impl ∧
      ∃ k, ∀ fuel, k ≤ fuel →
        ObTablet.init fuel tabletId (some (ObLogService.new.init base).2) disk {} =
          some (0, t, some s, disk') := by
  obtain ⟨k, hk⟩ := hopen
  let h : ObLogHandler (Option β × ℤ) κ :=
    { lsId := tabletId, palfHandleImpl := some impl, isInited := true }
  let store := ((({} : ObTablet).tableStore.init tabletId).2).setLogHandler (some tabletId)
  refine ⟨(ObLogService.new.init base).2.setHandler tabletId h, h,
    ⟨tabletId, store, some tabletId, true⟩, ?_, rfl, k, fun fuel hfuel => ?_⟩
  · simp [ObLogService.setHandler]
  · simp only [ObTablet.init, ObLogService.init, ObLogService.new, ObLogService.openLs,
      ObLogService.initHandler, hk fuel hfuel, Bool.false_eq_true, ↓reduceIte, ne_eq,
      not_true_eq_false]
    rfl

theorem restart_of_tracks (call : κ → Bytes → ℕ → ℤ → ObTableStore ℤ → ℤ × ObTableStore ℤ)
    (readBuf : Bytes) {base : β} {impl : PalfHandleImpl (Option β × ℤ)}
    (h : Tracks impl disk (some base, tabletId) []) :
    ∃ fuel t, restart fuel call readBuf base tabletId disk = some (0, t) := by
  obtain ⟨impl', hopen, hreads, hend, -⟩ := opens_image tabletId h.image
  obtain ⟨s, handler, t, hhandler, himpl, k, hinit⟩ := init_of_opensAs κ hopen
  obtain ⟨hid, -, -⟩ := init_spec (hinit k le_rfl)
  have hbegin : impl'.logStorage.getBeginLsn = 0 := by
    simp [LogStorage.getBeginLsn, hreads.minBlockId]
  have hrun : run (ObLogService.replayTurn call handler impl' disk 0 impl'.endLsn) (k + 1)
      (0, readBuf, t.tableStore) = some t.tableStore := by
    have hstop : ¬ 0 < impl'.endLsn := by
      rw [hend]
      exact Nat.lt_irrefl 0
    simp only [run, ObLogService.replayTurn, hstop, not_false_eq_true, ↓reduceIte]
  refine ⟨k + 1, t, ?_⟩
  simp only [restart, hinit (k + 1) (Nat.le_succ k), ObTablet.recover, ObLogService.replayLs,
    hid, hhandler, himpl, hbegin, hrun, Option.map_some]
  rw [← hid]

theorem first_set {store : ObTableStore ℤ}
    (hmgr : store.memtableMgr = { tabletId := tabletId, isInited := true }) (env : LogAppendEnv)
    (mallocOk : Bool) (row : ObStoreRow) (log : LogWorld β κ) :
    ∃ store', runTablet [⟨⟨{}, row, mallocOk⟩, env⟩] store log =
      some (if mallocOk then [⟨{}, row⟩] else [], store', log) := by
  have hget : store.memtableMgr.getActiveMemtable = some (ObMemtable.create tabletId,
      ⟨tabletId, some (ObMemtable.create tabletId), [], true, false⟩) := by
    rw [hmgr]
    rfl
  simp only [runTablet, ObTableStore.setActive, hget]
  cases mallocOk with
  | false => exact ⟨_, rfl⟩
  | true =>
    obtain ⟨t, happly, -, -⟩ := apply_contents (contents_create tabletId) ⟨{}, row⟩
    rw [if_neg fun hstale => hstale.1 rfl] at happly
    rw [set_quiet (appendRecord env) rfl rfl rfl happly log]
    exact ⟨_, rfl⟩

def insertRow : ObStoreRow := { dmlFlag := .dfInsert, rowkey := ⟨[97]⟩, rowValue := [1] }

def insertCall : TabletCall :=
  ⟨⟨{}, insertRow, true⟩, ⟨some fun _ => 0, some fun _ => 0, .faithful⟩⟩

theorem blank_entry (b : ℕ) :
    (FileSystem.blank : Disk (Option Unit × ℤ)).entry ((some (), 1), b) = none := rfl

/-- A set that finds no memory is not acknowledged, and nothing is lost. -/
theorem durable_iff_no_sets_example :
    ∃ (fuel : ℕ) (t : ObTablet) (s : ObLogService Unit Unit) (disk : Disk (Option Unit × ℤ))
      (store : ObTableStore ℤ),
      ObTablet.init fuel 1 (some (ObLogService.new.init ()).2) FileSystem.blank {} =
        some (0, t, some s, disk) ∧
      runTablet [⟨⟨{}, insertRow, false⟩, insertCall.env⟩] t.tableStore (some (s, disk)) =
        some ([], store, some (s, disk)) ∧
      Durable (fun (_ : Unit) _ _ _ store => (0, store)) [] () 1 [] disk := by
  obtain ⟨impl, disk, hopen, -⟩ := opens_empty 1 blank_entry
  obtain ⟨s, -, t, -, -, k, hinit⟩ := init_of_opensAs Unit hopen
  obtain ⟨-, hmgr, -⟩ := init_spec (hinit k le_rfl)
  obtain ⟨store, hrun⟩ := first_set hmgr insertCall.env false insertRow (some (s, disk))
  obtain ⟨_, _, _, ⟨⟩, hrun', hdurable⟩ := durable_iff_no_sets (hinit k le_rfl)
    (fun (_ : Unit) _ _ _ store => (0, store)) [] () [⟨⟨{}, insertRow, false⟩, insertCall.env⟩]
  cases hrun.symm.trans hrun'
  exact ⟨k, t, s, disk, store, hinit k le_rfl, hrun, hdurable.mpr rfl⟩

/-- A tablet on a new directory acknowledges an insert; the restart returns 0 and the key is
not there. -/
theorem acknowledged_insert_is_lost :
    ∃ (fuel : ℕ) (t : ObTablet) (s : ObLogService Unit Unit) (disk : Disk (Option Unit × ℤ))
      (store : ObTableStore ℤ),
      ObTablet.init fuel 1 (some (ObLogService.new.init ()).2) FileSystem.blank {} =
        some (0, t, some s, disk) ∧
      runTablet [insertCall] t.tableStore (some (s, disk)) =
        some ([⟨{}, insertRow⟩], store, some (s, disk)) ∧
      (∃ fuel t' store', restart fuel (fun (_ : Unit) _ _ _ store => (0, store)) [] () 1 disk =
          some (0, t') ∧ t'.tableStore.get {} ⟨[97]⟩ = some (none, store')) ∧
      ¬ Durable (fun (_ : Unit) _ _ _ store => (0, store)) [] () 1 [⟨{}, insertRow⟩] disk := by
  obtain ⟨impl, disk, hopen, htracks⟩ := opens_empty 1 blank_entry
  obtain ⟨s, -, t, -, -, k, hinit⟩ := init_of_opensAs Unit hopen
  obtain ⟨-, hmgr, -⟩ := init_spec (hinit k le_rfl)
  obtain ⟨store, hrun⟩ := first_set hmgr insertCall.env true insertRow (some (s, disk))
  obtain ⟨fuel, t', hrestart⟩ :=
    restart_of_tracks (fun (_ : Unit) _ _ _ store => (0, store)) [] htracks
  obtain ⟨store', hget⟩ := restart_reads_nothing hrestart ⟨[97]⟩
  refine ⟨k, t, s, disk, store, hinit k le_rfl, hrun, ⟨fuel, t', store', hrestart, hget⟩, ?_⟩
  rw [durable_iff_nil]
  exact List.cons_ne_nil _ _

end Restart

end Tablet
