import LsmStorage.PalfReload

/-! # Histories of appends on a log stream

An append takes its place from `max_lsn_` and moves it only when it has written everything;
`seek` moves `end_lsn_` alone. The answers of `malloc` and of the file system are arbitrary in
every step. Arithmetic on LSNs is modulo `2 ^ 64`. -/
namespace PalfAppendHistory

open ByteCodec PosixFiles PalfLogEntry PalfLogStorage PalfHandle PalfScan PalfRecovery PalfReload
open BoundedLoop
open LogGroupEntryHeader (getSerializeSize deserialize)

variable {δ : Type*} {dir : δ} {disk disk' : Disk δ} {h h' : PalfHandleImpl δ}

def WrittenEntry (disk : Disk δ) (dir : δ) (lsn : ℕ) (p : Bytes) : Prop :=
  ∃ f head g, disk.file? (dir, lsn / palfBlockSize) = some f ∧
    f.Holds (lsn % palfBlockSize + maxInfoBlockSize) (head ++ p) ∧
    head.length = getSerializeSize ∧ deserialize head 0 = some (g, getSerializeSize) ∧
    g.isValid = true ∧ g.groupEntrySize = entrySize p ∧
    g.committedEndLsn = (lsn + g.groupEntrySize) % 2 ^ 64

structure Ready (h : PalfHandleImpl δ) (disk : Disk δ) (dir : δ) : Prop where
  inited : h.isInited = true
  logDir : h.logStorage.logDir = dir
  blockSize : h.logStorage.blockSize = palfBlockSize
  storageInited : h.logStorage.isInited = true
  fdCurrent : h.logStorage.FdCurrent disk
  closed : h.logStorage.curFd = none → h.logStorage.curBlockId = logInvalidBlockId

theorem ready_of_openHandle (ho : OpenHandle dir disk h disk') : Ready h disk' dir :=
  { inited := ho.inited
    logDir := ho.storage.logDir
    blockSize := ho.storage.blockSize
    storageInited := ho.storage.isInited
    fdCurrent := ho.storage.fdCurrent
    closed := ho.storage.closed }

def WroteEntry (lsn : ℕ) (p : Bytes) (s : LogStorage δ) (disk : Disk δ) (t : LogStorage δ)
    (disk' : Disk δ) : Prop :=
  ∃ head g, LogStorage.Appended lsn (head ++ p) s disk t disk' ∧
    head.length = getSerializeSize ∧ deserialize head 0 = some (g, getSerializeSize) ∧
    g.isValid = true ∧ g.groupEntrySize = entrySize p ∧
    g.committedEndLsn = (lsn + entrySize p) % 2 ^ 64

structure AppendStep (dir : δ) (p : Bytes) (h : PalfHandleImpl δ) (disk : Disk δ)
    (res : AppendResult) (h' : PalfHandleImpl δ) (disk' : Disk δ) : Prop where
  ready : Ready h' disk' dir
  logId : h'.logId = h.logId + 1
  lsn : res.lsn = some h.maxLsn
  scn : res.ret = 0 → res.scn = some h.logId
  moved : res.ret = 0 → h'.maxLsn = (h.maxLsn + entrySize p) % 2 ^ 64
  written : res.ret = 0 → WroteEntry h.maxLsn p h.logStorage disk h'.logStorage disk'
  kept : res.ret ≠ 0 → h'.endLsn = h.endLsn ∧ h'.maxLsn = h.maxLsn

theorem AppendStep.of_failed {dir : δ} {h : PalfHandleImpl δ} {disk' : Disk δ} {ret : ℤ}
    {t : LogStorage δ} (p : Bytes) (disk : Disk δ) (hret : ret ≠ 0)
    (hready : Ready { h with logId := h.logId + 1, logStorage := t } disk' dir) :
    AppendStep dir p h disk ⟨ret, some h.maxLsn, none⟩
      { h with logId := h.logId + 1, logStorage := t } disk' :=
  { ready := hready
    logId := rfl
    lsn := rfl
    scn := fun h0 => absurd h0 hret
    moved := fun h0 => absurd h0 hret
    written := fun h0 => absurd h0 hret
    kept := fun _ => ⟨rfl, rfl⟩ }

theorem Ready.of_keeps (hr : Ready h disk dir)
    (hk : LogStorage.Keeps h.logStorage h'.logStorage disk') (hinit : h'.isInited = h.isInited) :
    Ready h' disk' dir :=
  { inited := hinit.trans hr.inited
    logDir := hk.logDir.trans hr.logDir
    blockSize := hk.blockSize.trans hr.blockSize
    storageInited := hk.isInited.trans hr.storageInited
    fdCurrent := hk.fdCurrent
    closed := hk.closed }

theorem AppendStep.writtenEntry {p : Bytes} {res : AppendResult} (hr : Ready h disk dir)
    (ha : AppendStep dir p h disk res h' disk') (hret : res.ret = 0) :
    WrittenEntry disk' dir h.maxLsn p := by
  obtain ⟨head, g, happ, hlen, hdes, hv, hs, hc⟩ := ha.written hret
  have hwritten := happ.written
  simp only [LogStorage.blockFilePath, lsn2Block, lsn2Offset, hr.logDir, hr.blockSize] at hwritten
  exact ⟨_, head, g, hwritten, holds_pwrite _ _ (header_append_ne_nil hlen p), hlen, hdes, hv, hs,
    by rw [hs, hc]⟩

section

variable [DecidableEq δ]

theorem append_step {p : Bytes} (hr : Ready h disk dir) (env : AppendEnv)
    (hp : entrySize p < 2 ^ 32) :
    ∃ res h' disk', h.append env p disk = some (res, h', disk') ∧
      AppendStep dir p h disk res h' disk' := by
  obtain ⟨malloc, io⟩ := env
  cases malloc with
  | none =>
    have hready : Ready { h with logId := h.logId + 1 } disk dir := { hr with }
    refine ⟨⟨-1, some h.maxLsn, none⟩, _, disk, ?_, .of_failed p disk (by decide) hready⟩
    simp [PalfHandleImpl.append, PalfHandleImpl.doAppend, hr.inited]
  | some heap =>
    obtain ⟨head, g, hlen, hdes, hv, hs, hc, happ⟩ :=
      append_eq_storage_append disk hr.inited heap io hp
    have hkeeps := LogStorage.append_keeps io h.maxLsn (head ++ p) hr.fdCurrent hr.closed
    generalize hstore : h.logStorage.append io h.maxLsn (head ++ p) disk = r at happ hkeeps
    obtain ⟨ret, t, disk'⟩ := r
    by_cases hret : ret = 0
    · subst hret
      have ha := LogStorage.appended_of_append hr.storageInited (header_append_ne_nil hlen p)
        hr.fdCurrent hstore
      refine ⟨_, _, disk', by simpa using happ, ?_⟩
      exact
        { ready := hr.of_keeps hkeeps rfl
          logId := rfl
          lsn := rfl
          scn := fun _ => rfl
          moved := fun _ => rfl
          written := fun _ => ⟨head, g, ha, hlen, hdes, hv, hs, hc⟩
          kept := fun h0 => absurd rfl h0 }
    · simp only [ne_eq, hret, not_false_eq_true, ↓reduceIte] at happ
      exact ⟨_, _, disk', happ, .of_failed p disk hret (hr.of_keeps hkeeps rfl)⟩

theorem append_step_of_success {p : Bytes} {env : AppendEnv} {res : AppendResult}
    (hr : Ready h disk dir) (happ : h.append env p disk = some (res, h', disk'))
    (hret : res.ret = 0) : entrySize p < 2 ^ 32 ∧ AppendStep dir p h disk res h' disk' := by
  have hp : entrySize p < 2 ^ 32 := by
    by_contra hbig
    obtain ⟨malloc, io⟩ := env
    cases malloc with
    | none =>
      simp only [PalfHandleImpl.append, PalfHandleImpl.doAppend, hr.inited, Bool.not_true,
        Bool.false_eq_true, ↓reduceIte, Option.some.injEq, Prod.mk.injEq] at happ
      rw [← happ.1] at hret
      cases hret
    | some heap =>
      rw [append_of_oversized disk hr.inited heap io (not_lt.mp hbig)] at happ
      cases happ
  obtain ⟨res', h'', disk'', happ', hstep⟩ := append_step hr env hp
  obtain ⟨rfl, rfl, rfl⟩ : res' = res ∧ h'' = h' ∧ disk'' = disk' := by
    simpa using happ'.symm.trans happ
  exact ⟨hp, hstep⟩

end

structure Entry where
  lsn : ℕ
  payload : Bytes
  scn : ℤ

def Entry.Covers (e : Entry) (a : ℕ) : Prop :=
  ∃ i < entrySize e.payload, a = (e.lsn + i) % 2 ^ 64

def Contiguous : ℕ → List Entry → Prop
  | _, [] => True
  | lsn, e :: es => e.lsn = lsn ∧ Contiguous ((lsn + entrySize e.payload) % 2 ^ 64) es

def totalSize (es : List Entry) : ℕ := logSize (es.map Entry.payload)

theorem Contiguous.offset {lsn : ℕ} {es : List Entry} (h : Contiguous lsn es) {e : Entry}
    (he : e ∈ es) :
    ∃ o, e.lsn % 2 ^ 64 = (lsn + o) % 2 ^ 64 ∧ o + entrySize e.payload ≤ totalSize es := by
  induction es generalizing lsn with
  | nil => cases he
  | cons f es ih =>
    obtain ⟨hf, hrest⟩ := h
    simp only [totalSize, List.map_cons, logSize_cons] at ih ⊢
    rcases List.mem_cons.mp he with rfl | he
    · exact ⟨0, by rw [hf, Nat.add_zero], by omega⟩
    · obtain ⟨o, ho, hle⟩ := ih hrest he
      exact ⟨entrySize f.payload + o, by omega, by omega⟩

/-- As long as the entries do not fill the space of LSNs, no byte belongs to two of them. -/
theorem Contiguous.disjoint {lsn : ℕ} {es : List Entry} (h : Contiguous lsn es)
    (htotal : totalSize es ≤ 2 ^ 64) :
    es.Pairwise fun e f => ∀ a, ¬ (e.Covers a ∧ f.Covers a) := by
  induction es generalizing lsn with
  | nil => exact List.Pairwise.nil
  | cons e es ih =>
    obtain ⟨he, hrest⟩ := h
    have hsum : totalSize (e :: es) = entrySize e.payload + totalSize es := by simp [totalSize]
    refine List.pairwise_cons.mpr ⟨?_, ih hrest (by omega)⟩
    rintro f hf a ⟨⟨i, hi, ha⟩, ⟨j, hj, ha'⟩⟩
    obtain ⟨o, ho, hle⟩ := hrest.offset hf
    -- both offsets from `lsn` are below `2 ^ 64`, that of `f` is the larger one
    omega

inductive PalfOp where
  | append (env : AppendEnv) (payload : Bytes)
  | seek (lsn : ℕ)

/-- A call with the handle before and after it. `seek` has no LSN and no SCN to return. -/
structure Step (δ : Type*) where
  op : PalfOp
  before : PalfHandleImpl δ
  res : AppendResult
  after : PalfHandleImpl δ
  disk : Disk δ

def Step.reported? (s : Step δ) : Option Entry :=
  match s.op with
  | .append _ p =>
    if s.res.ret = 0 then s.res.lsn.bind fun lsn => s.res.scn.map fun scn => ⟨lsn, p, scn⟩
    else none
  | .seek _ => none

def entries (steps : List (Step δ)) : List Entry := steps.filterMap Step.reported?

def PalfOp.InRange : PalfOp → Prop
  | .append _ p => entrySize p < 2 ^ 32
  | .seek _ => True

structure StepHolds (dir : δ) (s : Step δ) : Prop where
  written : ∀ env p, s.op = .append env p → s.res.ret = 0 →
    s.reported? = some ⟨s.before.maxLsn, p, s.before.logId⟩ ∧
      WrittenEntry s.disk dir s.before.maxLsn p
  failed : ∀ env p, s.op = .append env p → s.res.ret ≠ 0 →
    s.after.endLsn = s.before.endLsn ∧ s.after.maxLsn = s.before.maxLsn

variable [DecidableEq δ]

def step (h : PalfHandleImpl δ) (disk : Disk δ) : PalfOp → Option (Step δ)
  | .append env p =>
    match h.append env p disk with
    | none => none
    | some (res, h', disk') => some ⟨.append env p, h, res, h', disk'⟩
  | .seek lsn => some ⟨.seek lsn, h, ⟨(h.seek lsn).1, none, none⟩, (h.seek lsn).2, disk⟩

def runOps : List PalfOp → PalfHandleImpl δ → Disk δ → Option (List (Step δ))
  | [], _, _ => some []
  | op :: ops, h, disk =>
    match step h disk op with
    | none => none
    | some s => (runOps ops s.after s.disk).map (s :: ·)

/-- One call: either it leaves `max_lsn_` and reports no entry, or it reports the entry at
`max_lsn_` and moves it behind the entry. The log id never goes back. -/
theorem step_holds {op : PalfOp} (hr : Ready h disk dir) (hop : op.InRange) :
    ∃ s, step h disk op = some s ∧ StepHolds dir s ∧ Ready s.after s.disk dir ∧
      ((s.reported? = none ∧ s.after.maxLsn = h.maxLsn ∧ h.logId ≤ s.after.logId) ∨
        ∃ p, s.reported? = some ⟨h.maxLsn, p, h.logId⟩ ∧ h.logId < s.after.logId ∧
          s.after.maxLsn = (h.maxLsn + entrySize p) % 2 ^ 64) := by
  cases op with
  | seek lsn =>
    have hseek : h.seek lsn = (0, { h with endLsn := lsn }) := by
      simp [PalfHandleImpl.seek, hr.inited]
    refine ⟨_, rfl, ?_, ?_, Or.inl ⟨rfl, ?_⟩⟩
    · constructor
      · rintro env p hop' -
        cases hop'
      · rintro env p hop' -
        cases hop'
    · simp only [hseek]
      exact { hr with }
    · simp [hseek]
  | append env p =>
    obtain ⟨res, h', disk', happ, ha⟩ := append_step hr env hop
    have hentry : res.ret = 0 → (⟨.append env p, h, res, h', disk'⟩ : Step δ).reported? =
        some ⟨h.maxLsn, p, h.logId⟩ := by
      intro hret
      simp only [Step.reported?]
      rw [if_pos hret, ha.lsn, ha.scn hret, Option.bind_some, Option.map_some]
    refine ⟨⟨.append env p, h, res, h', disk'⟩, by simp [step, happ], ?_, ha.ready, ?_⟩
    · constructor
      · rintro env' p' hop' hret
        cases hop'
        exact ⟨hentry hret, ha.writtenEntry hr hret⟩
      · rintro env' p' - hret
        exact ha.kept hret
    · by_cases hret : res.ret = 0
      · exact Or.inr ⟨p, hentry hret, by rw [ha.logId]; omega, ha.moved hret⟩
      · refine Or.inl ⟨?_, (ha.kept hret).2, by rw [ha.logId]; omega⟩
        simp [Step.reported?, hret]

theorem runOps_holds {ops : List PalfOp} (hr : Ready h disk dir) (hops : ∀ op ∈ ops, op.InRange) :
    ∃ steps, runOps ops h disk = some steps ∧ (∀ s ∈ steps, StepHolds dir s) ∧
      Contiguous h.maxLsn (entries steps) ∧ (∀ e ∈ entries steps, h.logId ≤ e.scn) ∧
      (entries steps).Pairwise fun e f => e.scn < f.scn := by
  induction ops generalizing h disk with
  | nil => exact ⟨[], rfl, by simp, trivial, by simp [entries], List.Pairwise.nil⟩
  | cons op ops ih =>
    obtain ⟨hop, hrest⟩ := List.forall_mem_cons.mp hops
    obtain ⟨s, hs, hholds, hready, hcase⟩ := step_holds hr hop
    obtain ⟨steps, hrun, hall, hcont, hlow, hinc⟩ := ih hready hrest
    refine ⟨s :: steps, by simp [runOps, hs, hrun], List.forall_mem_cons.mpr ⟨hholds, hall⟩, ?_⟩
    rcases hcase with ⟨hnone, hmax, hid⟩ | ⟨p, hsome, hid, hmax⟩
    · have hentries : entries (s :: steps) = entries steps := List.filterMap_cons_none hnone
      rw [hentries, ← hmax]
      exact ⟨hcont, fun e he => hid.trans (hlow e he), hinc⟩
    · have hentries : entries (s :: steps) = ⟨h.maxLsn, p, h.logId⟩ :: entries steps :=
        List.filterMap_cons_some hsome
      rw [hentries]
      rw [hmax] at hcont
      have hlater : ∀ e ∈ entries steps, h.logId < e.scn :=
        fun e he => hid.trans_le (hlow e he)
      refine ⟨⟨rfl, hcont⟩, ?_, List.pairwise_cons.mpr ⟨hlater, hinc⟩⟩
      exact List.forall_mem_cons.mpr ⟨le_rfl, fun e he => (hlater e he).le⟩

/-- Every history of appends and seeks on a handle opened on any directory, whatever `malloc`
and the file system answer. -/
theorem append_history_holds {palfId : ℤ} {dir : δ} {disk disk₀ : Disk δ} {h : PalfHandleImpl δ}
    (ho : OpensAs palfId dir disk h disk₀) {ops : List PalfOp}
    (hops : ∀ op ∈ ops, op.InRange) :
    ∃ steps, runOps ops h disk₀ = some steps ∧ (∀ s ∈ steps, StepHolds dir s) ∧
      Contiguous h.maxLsn (entries steps) ∧
      (totalSize (entries steps) ≤ 2 ^ 64 →
        (entries steps).Pairwise fun e f => ∀ a, ¬ (e.Covers a ∧ f.Covers a)) ∧
      (entries steps).Pairwise fun e f => e.scn < f.scn := by
  have hr := ready_of_openHandle (openHandle_of_opensAs ho)
  obtain ⟨steps, hrun, hall, hcont, -, hinc⟩ := runOps_holds hr hops
  exact ⟨steps, hrun, hall, hcont, hcont.disjoint, hinc⟩

/-- A failed append and a `seek` between two appends. -/
theorem append_history_holds_example :
    ∃ (h : PalfHandleImpl Unit) (disk : Disk Unit) (steps : List (Step Unit)),
      OpensAs 1 () FileSystem.blank h disk ∧
      runOps [.append ⟨some fun _ => 0, .faithful⟩ [7], .seek 5, .append ⟨none, .faithful⟩ [8],
        .append ⟨some fun _ => 0, .faithful⟩ [9]] h disk = some steps ∧
      (entries steps).Pairwise fun e f => e.scn < f.scn := by
  obtain ⟨h, disk, ho, -⟩ := opens_blank
  have hops : ∀ op ∈ ([.append ⟨some fun _ => 0, .faithful⟩ [7], .seek 5,
      .append ⟨none, .faithful⟩ [8], .append ⟨some fun _ => 0, .faithful⟩ [9]] : List PalfOp),
      op.InRange := by
    simp [PalfOp.InRange, entrySize, getSerializeSize]
  obtain ⟨steps, hrun, -, -, -, hinc⟩ := append_history_holds ho hops
  exact ⟨h, disk, steps, ho, hrun, hinc⟩

end PalfAppendHistory
