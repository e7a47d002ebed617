import LsmStorage.PalfAppendHistory

/-! # SCNs across restarts

The SCN of an entry is `log_id_`, a counter in memory. `init` does not read it back from the
last header: it starts at 1 on an empty log and at 2 on any other. -/
namespace PalfRestarts

open ByteCodec PosixFiles PalfLogEntry PalfLogStorage PalfHandle PalfRecovery PalfReload
open PalfAppendHistory

variable {δ : Type*} {dir : δ} {disk : Disk δ} {h : PalfHandleImpl δ} {ps : List Bytes} {p : Bytes}

def ScnsIncrease (segments : List (List Entry)) : Prop :=
  segments.flatten.Pairwise fun e f => e.scn < f.scn

def working (segments : List (List Entry)) : List (List Entry) :=
  segments.filter fun es => !es.isEmpty

def OneEntryBeforeRestart (segments : List (List Entry)) : Prop :=
  match working segments with
  | [] => True
  | [_] => True
  | [es, _] => es.length = 1
  | _ => False

theorem scnsIncrease_iff_working (segments : List (List Entry)) :
    ScnsIncrease segments ↔ ScnsIncrease (working segments) := by
  simp [ScnsIncrease, working, List.flatten_filter_not_isEmpty]

variable {segments : List (List Entry)}

/-- What every process has in common: its SCNs are positive and the first one is at most 2. -/
def LowStart (es : List Entry) : Prop :=
  (∀ e ∈ es, 1 ≤ e.scn) ∧ (es ≠ [] → ∃ e ∈ es, e.scn ≤ 2)

theorem oneEntry_of_scnsIncrease (hlow : ∀ es ∈ segments, LowStart es) (h : ScnsIncrease segments) :
    OneEntryBeforeRestart segments := by
  rw [scnsIncrease_iff_working] at h
  have hw : ∀ es ∈ working segments, (∀ e ∈ es, 1 ≤ e.scn) ∧ ∃ e ∈ es, e.scn ≤ 2 := by
    intro es hes
    obtain ⟨hmem, hne⟩ : es ∈ segments ∧ es ≠ [] := by simpa [working] using hes
    exact ⟨(hlow es hmem).1, (hlow es hmem).2 hne⟩
  unfold OneEntryBeforeRestart
  generalize working segments = ws at h hw
  match ws with
  | [] => trivial
  | [_] => trivial
  | as :: bs :: rest =>
    simp only [ScnsIncrease, List.flatten_cons, List.pairwise_append, List.mem_append] at h
    obtain ⟨hinc, ⟨-, -, hlater⟩, hcross⟩ := h
    obtain ⟨hpos, a, ha, -⟩ := hw as (by simp)
    obtain ⟨-, b, hb, hb2⟩ := hw bs (by simp)
    have hone : ∀ e ∈ as, e.scn = 1 := by
      intro e he
      have := hpos e he
      have := hcross e he b (Or.inl hb)
      omega
    match rest with
    | [] =>
      match as with
      | [_] => rfl
      | e :: f :: _ =>
        have hlt := (List.pairwise_cons.mp hinc).1 f (by simp)
        have := hone e (by simp)
        have := hone f (by simp)
        omega
    | cs :: _ =>
      obtain ⟨-, c, hc, hc2⟩ := hw cs (by simp)
      have := hone a ha
      have := hcross a ha b (Or.inl hb)
      have := hlater b hb c (by simp [hc])
      omega

variable [DecidableEq δ]

inductive Appends : PalfHandleImpl δ → Disk δ → List Entry → Disk δ → Prop
  | done (h : PalfHandleImpl δ) (disk : Disk δ) : Appends h disk [] disk
  | append {h h' : PalfHandleImpl δ} {disk disk₁ disk₂ : Disk δ} {env : AppendEnv} {p : Bytes}
      {lsn : ℕ} {scn : ℤ} {es : List Entry} :
      h.append env p disk = some (⟨0, some lsn, some scn⟩, h', disk₁) →
      Appends h' disk₁ es disk₂ → Appends h disk (⟨lsn, p, scn⟩ :: es) disk₂

inductive Restarts (palfId : ℤ) (dir : δ) : Disk δ → List (List Entry) → Prop
  | stop (disk : Disk δ) : Restarts palfId dir disk []
  | start {disk disk₁ disk₂ : Disk δ} {h : PalfHandleImpl δ} {es : List Entry}
      {rest : List (List Entry)} :
      OpensAs palfId dir disk h disk₁ → Appends h disk₁ es disk₂ →
      Restarts palfId dir disk₂ rest → Restarts palfId dir disk (es :: rest)

theorem Appends.scns {disk' : Disk δ} {es : List Entry} (ha : Appends h disk es disk')
    (hr : Ready h disk dir) :
    (∀ e ∈ es, h.logId ≤ e.scn) ∧ (es ≠ [] → ∃ e ∈ es, e.scn = h.logId) ∧
      es.Pairwise fun e f => e.scn < f.scn := by
  induction ha with
  | done => exact ⟨by simp, fun hne => absurd rfl hne, List.Pairwise.nil⟩
  | @append h h' disk disk₁ disk₂ env p lsn scn es happ _ ih =>
    obtain ⟨-, hstep⟩ := append_step_of_success hr happ rfl
    obtain ⟨hlow, -, hinc⟩ := ih hstep.ready
    obtain rfl : scn = h.logId := Option.some.inj (hstep.scn rfl)
    have hlater : ∀ e ∈ es, h.logId < e.scn := by
      intro e he
      have := hlow e he
      rw [hstep.logId] at this
      omega
    refine ⟨?_, fun _ => ⟨_, List.mem_cons_self, rfl⟩, List.pairwise_cons.mpr ⟨hlater, hinc⟩⟩
    exact List.forall_mem_cons.mpr ⟨le_rfl, fun e he => (hlater e he).le⟩

theorem lowStart_of_restarts {palfId : ℤ} (hrun : Restarts palfId dir disk segments) :
    ∀ es ∈ segments, LowStart es := by
  induction hrun with
  | stop => simp
  | @start disk disk₁ disk₂ h es rest ho ha _ ih =>
    have hopen := openHandle_of_opensAs ho
    obtain ⟨hlow, hfirst, -⟩ := ha.scns (ready_of_openHandle hopen)
    have hid : 1 ≤ h.logId ∧ h.logId ≤ 2 := by
      rw [hopen.logId]
      split <;> decide
    refine List.forall_mem_cons.mpr ⟨⟨fun e he => hid.1.trans (hlow e he), fun hne => ?_⟩, ih⟩
    obtain ⟨e, he, heq⟩ := hfirst hne
    exact ⟨e, he, heq.trans_le hid.2⟩

def OpensLog (palfId : ℤ) (dir : δ) (disk : Disk δ) (ps : List Bytes) : Prop :=
  ∃ h disk', OpensAs palfId dir disk h disk' ∧ LogImage disk' dir palfBlockSize ps ∧
    h.maxLsn = scanEnd palfBlockSize 0 ps

theorem opensLog_of_empty (palfId : ℤ) (hempty : ∀ b, disk.entry (dir, b) = none) :
    OpensLog palfId dir disk [] := by
  obtain ⟨h, disk', ho, ht⟩ := opens_empty palfId hempty
  exact ⟨h, disk', ho, ht.image, ht.maxLsn⟩

theorem opensLog_of_image (palfId : ℤ) (himage : LogImage disk dir palfBlockSize ps) :
    OpensLog palfId dir disk ps := by
  obtain ⟨h, ho, -, -, hmax, -⟩ := opens_image palfId himage
  exact ⟨h, disk, ho, himage, hmax⟩

theorem first_working {palfId : ℤ} (hrun : Restarts palfId dir disk segments)
    (hlog : OpensLog palfId dir disk ps) :
    working segments = [] ∨ ∃ h disk₁ es disk₂ rest, Ready h disk₁ dir ∧
      LogImage disk₁ dir palfBlockSize ps ∧ h.maxLsn = scanEnd palfBlockSize 0 ps ∧
      h.logId = (if ps = [] then 1 else 2) ∧ Appends h disk₁ es disk₂ ∧
      Restarts palfId dir disk₂ rest ∧ working segments = es :: working rest := by
  induction hrun with
  | stop => exact Or.inl rfl
  | @start disk disk₁ disk₂ h es rest ho ha hrest ih =>
    obtain ⟨g, disk', hg, himage, hmax⟩ := hlog
    obtain ⟨rfl, rfl⟩ := ho.unique hg
    have hopen := openHandle_of_opensAs ho
    by_cases hne : es = []
    · subst hne
      cases ha
      exact ih (opensLog_of_image palfId himage)
    · refine Or.inr ⟨h, disk₁, es, disk₂, rest, ready_of_openHandle hopen, himage, hmax, ?_, ha,
        hrest, List.filter_cons_of_pos (by simpa using hne)⟩
      have hzero : 0 < h.endLsn ↔ ps ≠ [] := by
        rw [← hopen.maxLsn, hmax, Nat.pos_iff_ne_zero, Ne, Ne, scanEnd_eq_zero_iff]
      rw [hopen.logId]
      by_cases hps : ps = [] <;> simp [hzero, hps, firstValidLogId]

theorem image_of_first_append {h' : PalfHandleImpl δ} {disk' : Disk δ} {env : AppendEnv}
    {res : AppendResult} (hr : Ready h disk dir) (himage : LogImage disk dir palfBlockSize [])
    (hmax : h.maxLsn = 0) (happ : h.append env p disk = some (res, h', disk'))
    (hret : res.ret = 0) : LogImage disk' dir palfBlockSize [p] := by
  obtain ⟨hp, hstep⟩ := append_step_of_success hr happ hret
  obtain ⟨head, g, ha, hlen, hdes, hv, hs, hc⟩ := hstep.written hret
  have hsmall : 0 + entrySize p < 2 ^ 64 := by omega
  rw [hmax] at ha hc
  rw [Nat.mod_eq_of_lt hsmall] at hc
  rw [← hr.logDir, ← hr.blockSize] at himage ⊢
  exact himage.after_append ha hlen hdes hv hs hc

theorem scns_of_second {palfId : ℤ} {rest more : List (List Entry)} {es : List Entry}
    (hrun : Restarts palfId dir disk rest) (himage : LogImage disk dir palfBlockSize [p])
    (hw : working rest = es :: more) :
    (∀ e ∈ es, 2 ≤ e.scn) ∧ es.Pairwise fun e f => e.scn < f.scn := by
  rcases first_working hrun (opensLog_of_image palfId himage) with hnone | hfirst
  · rw [hnone] at hw
    cases hw
  obtain ⟨h, disk₁, fs, disk₂, rest', hr, -, -, hid, ha, -, hw'⟩ := hfirst
  obtain ⟨rfl, -⟩ := List.cons.inj (hw.symm.trans hw')
  obtain ⟨hlow, -, hinc⟩ := ha.scns hr
  simp only [List.cons_ne_self, ↓reduceIte, hid] at hlow
  exact ⟨hlow, hinc⟩

/-- The SCNs of a new log stream increase over its whole history exactly when no restart lies
between two entries, or just one that lies behind the very first entry. -/
theorem scns_increase_iff {palfId : ℤ} {dir : δ} {disk : Disk δ}
    {segments : List (List Entry)} (hempty : ∀ b, disk.entry (dir, b) = none)
    (hrun : Restarts palfId dir disk segments) :
    ScnsIncrease segments ↔ OneEntryBeforeRestart segments := by
  refine ⟨oneEntry_of_scnsIncrease (lowStart_of_restarts hrun), fun hone => ?_⟩
  rw [scnsIncrease_iff_working]
  unfold OneEntryBeforeRestart at hone
  rcases first_working hrun (opensLog_of_empty palfId hempty) with hnone | hfirst
  · simp [hnone, ScnsIncrease]
  obtain ⟨h, disk₁, es, disk₂, rest, hr, himage, hmax, hid, ha, hrest, hw⟩ := hfirst
  rw [hw] at hone ⊢
  have hinc := (ha.scns hr).2.2
  match hrestw : working rest with
  | [] => simpa [ScnsIncrease] using hinc
  | fs :: _ :: _ =>
    rw [hrestw] at hone
    exact hone.elim
  | [fs] =>
    rw [hrestw] at hone
    cases ha with
    | done => cases hone
    | @append _ _ _ _ _ _ p _ scn es' happ hmore =>
      obtain rfl : es' = [] := by simpa using hone
      cases hmore
      have himage' := image_of_first_append hr himage hmax happ rfl
      obtain ⟨hlow, hinc'⟩ := scns_of_second hrest himage' hrestw
      have hscn : scn = 1 := by
        have := (append_step_of_success hr happ rfl).2.scn rfl
        simpa [hid] using this
      simp only [ScnsIncrease, List.flatten_cons, List.flatten_nil, List.append_nil,
        List.singleton_append]
      refine List.pairwise_cons.mpr ⟨fun f hf => ?_, hinc'⟩
      have := hlow f hf
      dsimp only
      omega

theorem append_more (hr : Ready h disk dir) (ht : Appendable h disk dir ps)
    (hp : entrySize p < 2 ^ 32) (hend : logSize ps + entrySize p < 2 ^ 64) :
    ∃ h' disk', Ready h' disk' dir ∧ Tracks h' disk' dir (ps ++ [p]) ∧ h'.logId = h.logId + 1 ∧
      ∀ es disk'', Appends h' disk' es disk'' →
        Appends h disk (⟨logSize ps, p, h.logId⟩ :: es) disk'' := by
  obtain ⟨h', disk', happ, ht'⟩ := append_appendable ht (fun _ => 0) hp hend
  obtain ⟨-, hstep⟩ := append_step_of_success hr happ rfl
  exact ⟨h', disk', hstep.ready, ht', hstep.logId, fun _ _ => Appends.append happ⟩

theorem append_after_restart (palfId : ℤ) (himage : LogImage disk dir palfBlockSize ps)
    (hne : ps ≠ []) (hblock : logSize ps ≤ palfBlockSize) (hp : entrySize p < 2 ^ 32) :
    Restarts palfId dir disk [[⟨logSize ps, p, 2⟩]] := by
  obtain ⟨h, ho, ht⟩ := opens_appendable palfId himage hblock
  have hopen := openHandle_of_opensAs ho
  have hid : h.logId = 2 := by
    rw [hopen.logId, ht.endLsn, if_pos]
    exact Nat.pos_of_ne_zero fun hz => hne (logSize_eq_zero_iff.mp hz)
  have hsmall : palfBlockSize + 2 ^ 32 < 2 ^ 64 := by decide
  obtain ⟨h', disk', -, -, -, hstep⟩ :=
    append_more (ready_of_openHandle hopen) ht hp (by omega)
  rw [hid] at hstep
  exact .start ho (hstep [] disk' (.done h' disk')) (.stop disk')

/-- Two entries of 49 bytes in two processes. -/
theorem scns_increase_iff_example :
    Restarts 1 () (FileSystem.blank : Disk Unit) [[⟨0, [7], 1⟩], [⟨49, [8], 2⟩]] ∧
      ScnsIncrease [[⟨0, [7], 1⟩], [⟨49, [8], 2⟩]] := by
  obtain ⟨h, disk, ho, ht⟩ := opens_blank
  have hopen := openHandle_of_opensAs ho
  have hid : h.logId = 1 := by simp [hopen.logId, ht.endLsn, firstValidLogId]
  obtain ⟨h₁, disk₁, hr₁, ht₁, -, hstep₁⟩ := append_more (p := [7])
    (ready_of_openHandle hopen) ht.appendable (by decide) (by decide)
  rw [hid] at hstep₁
  have hrun : Restarts 1 () (FileSystem.blank : Disk Unit) [[⟨0, [7], 1⟩], [⟨49, [8], 2⟩]] :=
    .start ho (hstep₁ _ _ (.done h₁ disk₁))
      (append_after_restart 1 ht₁.image (by decide) (by decide) (by decide))
  exact ⟨hrun, (scns_increase_iff (fun _ => rfl) hrun).mpr rfl⟩

/-- With two entries before the restart the third has the SCN of the second. -/
theorem restart_repeats_scn :
    Restarts 1 () (FileSystem.blank : Disk Unit)
        [[⟨0, [7], 1⟩, ⟨49, [8], 2⟩], [⟨98, [9], 2⟩]] ∧
      ¬ ScnsIncrease [[⟨0, [7], 1⟩, ⟨49, [8], 2⟩], [⟨98, [9], 2⟩]] := by
  obtain ⟨h, disk, ho, ht⟩ := opens_blank
  have hopen := openHandle_of_opensAs ho
  have hid : h.logId = 1 := by simp [hopen.logId, ht.endLsn, firstValidLogId]
  obtain ⟨h₁, disk₁, hr₁, ht₁, hid₁, hstep₁⟩ := append_more (p := [7])
    (ready_of_openHandle hopen) ht.appendable (by decide) (by decide)
  obtain ⟨h₂, disk₂, -, ht₂, -, hstep₂⟩ := append_more (p := [8]) hr₁ ht₁.appendable
    (by decide) (by decide)
  rw [hid] at hstep₁ hid₁
  rw [hid₁] at hstep₂
  refine ⟨.start ho (hstep₁ _ _ (hstep₂ _ _ (.done h₂ disk₂)))
    (append_after_restart 1 ht₂.image (by decide) (by decide) (by decide)), ?_⟩
  simp [ScnsIncrease]

end PalfRestarts
