import LsmStorage.PalfRecovery

/-! # Opening and reloading a log directory of any content

`init` opens every directory. `load` opens it again and then replaces the end that `init`
has found: by `0` for a log of one block, by the end of a second scan otherwise. -/
namespace PalfReload

open ByteCodec PosixFiles PalfLogEntry PalfLogStorage PalfHandle PalfScan PalfRecovery BoundedLoop
open PalfHandleImpl
open PalfHandleImpl (scanTurn loadTurn)

variable {δ : Type*} {dir : δ} {disk disk' : Disk δ} {h : PalfHandleImpl δ}

structure OpenHandle (dir : δ) (disk : Disk δ) (h : PalfHandleImpl δ) (disk' : Disk δ) :
    Prop where
  storage : LogStorage.Opened dir palfBlockSize disk h.logStorage disk'
  inited : h.isInited = true
  cacheOff : h.logCache.isInited = false
  maxLsn : h.maxLsn = h.endLsn
  logId : h.logId = if 0 < h.endLsn then 2 else firstValidLogId
  scan : Yields (scanTurn h.logStorage disk') (0, 0) h.endLsn

theorem OpenHandle.getBeginLsn (ho : OpenHandle dir disk h disk') :
    h.logStorage.getBeginLsn = 0 := by
  simp [LogStorage.getBeginLsn, ho.storage.minBlockId]

theorem OpenHandle.readsLog (ho : OpenHandle dir disk h disk') : ReadsLog h dir :=
  { inited := ho.inited
    cacheOff := ho.cacheOff
    logDir := ho.storage.logDir
    blockSize := ho.storage.blockSize
    minBlockId := ho.storage.minBlockId
    storageInited := ho.storage.isInited }

def LoadEnd (s : LogStorage δ) (disk : Disk δ) (r : ℕ) : Prop :=
  if s.maxBlockId = 0 then r = 0 else Yields (loadTurn s disk) 0 r

theorem loadEnd_iff {s : LogStorage δ} {last : ℕ} (hscan : Yields (scanTurn s disk) (0, 0) last) :
    LoadEnd s disk last ↔ last = 0 ∨ (s.maxBlockId ≠ 0 ∧ headerAt s disk last = none) := by
  unfold LoadEnd
  by_cases hmax : s.maxBlockId = 0
  · simp [hmax]
  · rw [if_neg hmax, load_yields_iff hscan]
    by_cases hz : last = 0
    · simp [hz]
    · simp [hz, hmax, load_yields_self_iff hz]

variable [DecidableEq δ]

theorem opens (palfId : ℤ) (dir : δ) (disk : Disk δ) :
    ∃ h disk', OpensAs palfId dir disk h disk' ∧ OpenHandle dir disk h disk' := by
  obtain ⟨t, disk', hinit, hopened⟩ := LogStorage.init_opens dir palfBlockSize disk
  obtain ⟨last, hscan⟩ := scan_halts t disk' 0 0
  refine ⟨_, disk', opensAs_of_scan hinit hopened.minBlockId hscan, ?_⟩
  exact
    { storage := hopened
      inited := rfl
      cacheOff := rfl
      maxLsn := rfl
      logId := rfl
      scan := hscan }

theorem openHandle_of_opensAs {palfId : ℤ} (ho : OpensAs palfId dir disk h disk') :
    OpenHandle dir disk h disk' := by
  obtain ⟨g, disk₁, hg, hopen⟩ := opens palfId dir disk
  obtain ⟨rfl, rfl⟩ := ho.unique hg
  exact hopen

def LoadsAs (palfId : ℤ) (dir : δ) (disk : Disk δ) (h : PalfHandleImpl δ) (disk' : Disk δ) :
    Prop :=
  ∃ k, ∀ fuel, k ≤ fuel →
    PalfHandleImpl.load fuel palfId dir (PalfHandleImpl.new dir) disk = some (0, h, disk')

theorem load_of_init {palfId : ℤ} {fuel : ℕ} (ho : OpenHandle dir disk h disk')
    (hinit : PalfHandleImpl.init fuel palfId dir (PalfHandleImpl.new dir) disk =
      some (0, h, disk')) :
    PalfHandleImpl.load fuel palfId dir (PalfHandleImpl.new dir) disk =
      if h.logStorage.maxBlockId = 0 then some (0, { h with endLsn := 0, maxLsn := 0 }, disk')
      else (run (loadTurn h.logStorage disk') fuel 0).map fun scanLsn =>
        (0, { h with endLsn := scanLsn, maxLsn := scanLsn }, disk') := by
  have hmin := ho.storage.minBlockId
  simp only [PalfHandleImpl.load, hinit, LogStorage.getBlockIdRange, hmin, ho.getBeginLsn, ne_eq,
    not_true_eq_false, ↓reduceIte, and_true]
  by_cases hmax : h.logStorage.maxBlockId = 0
  · rw [if_pos hmax.symm, if_pos hmax]
  · rw [if_neg (Ne.symm hmax), if_neg hmax]
    cases run (loadTurn h.logStorage disk') fuel 0 <;> rfl

theorem loadsAs_iff {palfId : ℤ} {disk₁ disk₂ : Disk δ} {h' : PalfHandleImpl δ}
    (ho : OpensAs palfId dir disk h disk₁) :
    LoadsAs palfId dir disk h' disk₂ ↔
      ∃ r, LoadEnd h.logStorage disk₁ r ∧ h' = { h with endLsn := r, maxLsn := r } ∧
        disk₂ = disk₁ := by
  have hopen := openHandle_of_opensAs ho
  obtain ⟨k, hk⟩ := ho
  have hload := fun fuel hfuel => load_of_init hopen (hk fuel hfuel)
  by_cases hmax : h.logStorage.maxBlockId = 0
  · simp only [LoadEnd, hmax, ↓reduceIte] at hload ⊢
    constructor
    · rintro ⟨n, hn⟩
      have heq := (hload _ (le_max_left k n)).symm.trans (hn _ (le_max_right k n))
      simp only [Option.some.injEq, Prod.mk.injEq, true_and] at heq
      exact ⟨0, rfl, heq.1.symm, heq.2.symm⟩
    · rintro ⟨r, rfl, rfl, rfl⟩
      exact ⟨k, hload⟩
  · simp only [LoadEnd, hmax, ↓reduceIte] at hload ⊢
    constructor
    · rintro ⟨n, hn⟩
      have heq := (hload _ (le_max_left k n)).symm.trans (hn _ (le_max_right k n))
      obtain ⟨r, hr, hr'⟩ := Option.map_eq_some_iff.mp heq
      simp only [Prod.mk.injEq, true_and] at hr'
      exact ⟨r, ⟨_, hr⟩, hr'.1.symm, hr'.2.symm⟩
    · rintro ⟨r, ⟨n, hn⟩, rfl, rfl⟩
      refine ⟨max k n, fun fuel hfuel => ?_⟩
      rw [hload fuel (le_trans (le_max_left k n) hfuel),
        run_mono hn (le_trans (le_max_right k n) hfuel), Option.map_some]

def LoadAgrees (palfId : ℤ) (dir : δ) (disk : Disk δ) : Prop :=
  ∃ h disk₁ h' disk₂, OpensAs palfId dir disk h disk₁ ∧ LoadsAs palfId dir disk h' disk₂ ∧
    h'.endLsn = h.endLsn ∧ h'.maxLsn = h.maxLsn

theorem loadAgrees_iff_loadEnd {palfId : ℤ} (ho : OpensAs palfId dir disk h disk') :
    LoadAgrees palfId dir disk ↔ LoadEnd h.logStorage disk' h.endLsn := by
  constructor
  · rintro ⟨g, disk₁, h', disk₂, hg, hload, hend, -⟩
    obtain ⟨rfl, rfl⟩ := ho.unique hg
    obtain ⟨r, hr, rfl, -⟩ := (loadsAs_iff ho).mp hload
    exact hend ▸ hr
  · intro hr
    have hload := (loadsAs_iff ho).mpr ⟨h.endLsn, hr, rfl, rfl⟩
    exact ⟨h, disk', _, disk', ho, hload, rfl, (openHandle_of_opensAs ho).maxLsn.symm⟩

omit [DecidableEq δ] in
private theorem headerAt_endLsn {dir : δ} {disk disk₀ : Disk δ} {ps : List Bytes}
    {h : PalfHandleImpl δ} (himage : LogImage disk dir palfBlockSize ps)
    (ho : OpenHandle dir disk₀ h disk) (hend : h.endLsn = scanEnd palfBlockSize 0 ps) :
    headerAt h.logStorage disk h.endLsn = none := by
  have hs := ho.storage
  rw [← hs.logDir, ← hs.blockSize] at himage
  rw [hend, ← hs.blockSize]
  exact himage.headerAt_scanEnd [] hs.isInited

theorem loadAgrees_image_iff (palfId : ℤ) {ps : List Bytes}
    (himage : LogImage disk dir palfBlockSize ps) :
    LoadAgrees palfId dir disk ↔ ps = [] ∨ disk.file? (dir, 1) ≠ none := by
  obtain ⟨h, ho, -, hend, -⟩ := opens_image palfId himage
  have hopen := openHandle_of_opensAs ho
  have hs := hopen.storage
  have hblocks : h.logStorage.maxBlockId ≠ 0 ↔ disk.file? (dir, 1) ≠ none := by
    rw [Ne, Ne, FileSystem.file?_eq_none, ← hs.logDir]
    constructor
    · intro hmax
      exact hs.present 1 (Nat.one_le_iff_ne_zero.mpr hmax)
    · intro hone hmax
      have hgap := hs.gap fun hnone => himage.first (FileSystem.file?_eq_none.mpr hnone)
      rw [hmax] at hgap
      exact hone hgap
  have hfree := headerAt_endLsn himage hopen hend
  rw [loadAgrees_iff_loadEnd ho, loadEnd_iff hopen.scan, hblocks, hend, scanEnd_eq_zero_iff,
    ← hend]
  simp [hfree]

private theorem maxLsn_load_iff (palfId : ℤ) {ps : List Bytes}
    (himage : LogImage disk dir palfBlockSize ps) :
    ∃ h, LoadsAs palfId dir disk h disk ∧ h.isInited = true ∧ h.maxLsn ≤ logSize ps ∧
      (h.maxLsn = logSize ps ↔ LoadAgrees palfId dir disk ∧ HeadersFit palfBlockSize 0 ps) := by
  obtain ⟨h, ho, -, hend, -⟩ := opens_image palfId himage
  have hopen := openHandle_of_opensAs ho
  rw [loadAgrees_iff_loadEnd ho, ← scanEnd_eq_iff, ← hend, Nat.zero_add]
  by_cases hmax : h.logStorage.maxBlockId = 0
  · have hzero : LoadEnd h.logStorage disk 0 := by rw [LoadEnd, if_pos hmax]
    refine ⟨_, (loadsAs_iff ho).mpr ⟨0, hzero, rfl, rfl⟩, hopen.inited, Nat.zero_le _, ?_⟩
    rw [LoadEnd, if_pos hmax]
    constructor
    · intro hz
      obtain rfl := logSize_eq_zero_iff.mp hz.symm
      exact ⟨hend, hend⟩
    · rintro ⟨hz, hsize⟩
      exact hz.symm.trans hsize
  · have hload := (loadEnd_iff hopen.scan).mpr (Or.inr ⟨hmax, headerAt_endLsn himage hopen hend⟩)
    have hle := scanEnd_le palfBlockSize 0 ps
    rw [Nat.zero_add, ← hend] at hle
    refine ⟨_, (loadsAs_iff ho).mpr ⟨h.endLsn, hload, rfl, rfl⟩, hopen.inited, hle, ?_⟩
    simp [hload]

/-- After `load` the next append goes behind the last entry exactly when `load` has agreed with
`init` and `init` has found every entry. -/
theorem append_behind_log_iff (palfId : ℤ) {ps : List Bytes}
    (himage : LogImage disk dir palfBlockSize ps) :
    ∃ h, LoadsAs palfId dir disk h disk ∧
      (h.maxLsn = logSize ps ↔
        (ps = [] ∨ disk.file? (dir, 1) ≠ none) ∧ HeadersFit palfBlockSize 0 ps) := by
  obtain ⟨h, hload, -, -, hiff⟩ := maxLsn_load_iff palfId himage
  exact ⟨h, hload, by rw [hiff, loadAgrees_image_iff palfId himage]⟩

/-- No append gets an LSN in front of `last`. -/
def AppendsFrom (last : ℕ) (h : PalfHandleImpl δ) (disk : Disk δ) : Prop :=
  ∀ env p res h' disk', h.append env p disk = some (res, h', disk') →
    ∃ lsn, res.lsn = some lsn ∧ last ≤ lsn

theorem appendsFrom_iff {last : ℕ} (hinit : h.isInited = true) :
    AppendsFrom last h disk ↔ last ≤ h.maxLsn := by
  constructor
  · intro happends
    -- An append that gets no memory has its LSN already.
    have hsome : (h.append ⟨none, .faithful⟩ [] disk).isSome := by
      simp [PalfHandleImpl.append, hinit, PalfHandleImpl.doAppend]
    obtain ⟨⟨res, h', disk'⟩, happ⟩ := Option.isSome_iff_exists.mp hsome
    obtain ⟨lsn, hlsn, hle⟩ := happends _ _ res h' disk' happ
    rw [lsn_append hinit happ, Option.some.injEq] at hlsn
    exact hlsn ▸ hle
  · intro hle env p res h' disk' happ
    exact ⟨h.maxLsn, lsn_append hinit happ, hle⟩

def ReloadEqualsOpen (palfId : ℤ) (dir : δ) (disk : Disk δ) (last : ℕ) : Prop :=
  LoadAgrees palfId dir disk ∧ ∃ h disk', LoadsAs palfId dir disk h disk' ∧ AppendsFrom last h disk'

/-- Of the log that any appends have made, `load` finds the end that `init` finds, and overwrites
nothing afterwards, exactly when the log is empty or has a second block, and no header crosses the
end of a block. -/
theorem reload_equals_open_iff (palfId : ℤ) {h₀ : PalfHandleImpl δ} {disk₀ disk₁ : Disk δ}
    {calls : List AppendCall} (hempty : ∀ b, disk.entry (dir, b) = none)
    (hlog : logSize (written calls) < 2 ^ 64) (hopen : OpensAs palfId dir disk h₀ disk₀)
    (hrun : runAppends calls h₀ disk₀ = some (h, disk₁)) :
    ReloadEqualsOpen palfId dir disk₁ (logSize (written calls)) ↔
      (written calls = [] ∨ disk₁.file? (dir, 1) ≠ none) ∧
        HeadersFit palfBlockSize 0 (written calls) := by
  have himage := (tracks_of_runAppends hempty hlog hopen hrun).2.image
  obtain ⟨g, hload, hinit, hle, hiff⟩ := maxLsn_load_iff palfId himage
  rw [← loadAgrees_image_iff palfId himage, ← hiff]
  constructor
  · rintro ⟨-, g', disk', hload', hbehind⟩
    obtain ⟨-, heq⟩ := Prod.mk.inj (eq_of_enough hload hload')
    obtain ⟨rfl, rfl⟩ := Prod.mk.inj heq
    exact le_antisymm hle ((appendsFrom_iff hinit).mp hbehind)
  · intro hend
    exact ⟨(hiff.mp hend).1, g, disk₁, hload, (appendsFrom_iff hinit).mpr hend.ge⟩

theorem opens_blank : ∃ (h : PalfHandleImpl Unit) (disk : Disk Unit),
    OpensAs 1 () FileSystem.blank h disk ∧ Tracks h disk () [] :=
  opens_empty 1 fun _ => rfl

theorem append_behind_log_single : ∃ (disk : Disk Unit) (h : PalfHandleImpl Unit),
    LogImage disk () palfBlockSize [[7]] ∧ LoadsAs 1 () disk h disk ∧
      h.maxLsn ≠ logSize [[7]] := by
  obtain ⟨h₀, disk₀, -, ht₀⟩ := opens_blank
  obtain ⟨_, disk, -, ht⟩ : ∃ h disk,
      runAppends [⟨[7], some fun _ => 0⟩] h₀ disk₀ = some (h, disk) ∧ Tracks h disk () [[7]] :=
    runAppends_tracks ht₀ (by decide) (by decide)
  obtain ⟨h, hload, hiff⟩ := append_behind_log_iff 1 ht.image
  have hone : disk.file? ((), 1) = none := ht.image.beyond 1 (by decide)
  exact ⟨disk, h, ht.image, hload, fun hmax => by simpa [hone] using (hiff.mp hmax).1⟩

/-- The first entry fills block 0, so that the second makes block 1. -/
theorem reload_equals_open_two_blocks :
    ∃ (p : Bytes) (h₀ h : PalfHandleImpl Unit) (disk₀ disk₁ : Disk Unit),
      entrySize p = palfBlockSize + 48 ∧ OpensAs 1 () FileSystem.blank h₀ disk₀ ∧
      runAppends [⟨p, some fun _ => 0⟩, ⟨[2], some fun _ => 0⟩] h₀ disk₀ = some (h, disk₁) ∧
      ReloadEqualsOpen 1 () disk₁ (palfBlockSize + 97) := by
  obtain ⟨p, hsize⟩ : ∃ p : Bytes, entrySize p = palfBlockSize + 48 :=
    ⟨List.replicate palfBlockSize 1, by rw [entrySize, List.length_replicate, Nat.add_comm]; rfl⟩
  have hwritten : written [⟨p, some fun _ => 0⟩, ⟨[2], some fun _ => 0⟩] = [p, [2]] := rfl
  have hlog : logSize [p, [2]] = palfBlockSize + 97 := by
    rw [logSize_cons, hsize]
    rfl
  have hsmall : palfBlockSize + 97 < 2 ^ 64 := by decide
  obtain ⟨h₀, disk₀, ho, ht₀⟩ := opens_blank
  obtain ⟨h, disk₁, hrun, ht⟩ : ∃ h disk₁,
      runAppends [⟨p, some fun _ => 0⟩, ⟨[2], some fun _ => 0⟩] h₀ disk₀ = some (h, disk₁) ∧
        Tracks h disk₁ () [p, [2]] :=
    runAppends_tracks ht₀ (by rw [hwritten, hlog, logSize_nil, Nat.zero_add]; exact hsmall)
      (by rw [hwritten, List.forall_mem_cons, hsize]; decide)
  refine ⟨p, h₀, h, disk₀, disk₁, hsize, ho, hrun, ?_⟩
  rw [← hlog]
  refine (reload_equals_open_iff 1 (fun _ => rfl) (by rw [hwritten, hlog]; exact hsmall) ho
    hrun).mpr ⟨Or.inr ?_, ?_⟩
  · obtain ⟨f, -, -, hf, -⟩ := ht.image.stored.2.1
    rw [hsize, show (0 + (palfBlockSize + 48)) / palfBlockSize = 1 by decide] at hf
    simp [hf]
  · rw [hwritten, HeadersFit, HeadersFit, hsize]
    exact ⟨by decide, by decide, trivial⟩

/-- One entry of 49 bytes fits in block 0: after `load` every append goes to LSN 0 again. -/
theorem reload_forgets_single_block :
    ∃ (h₀ h h' : PalfHandleImpl Unit) (disk₀ disk₁ : Disk Unit),
      OpensAs 1 () FileSystem.blank h₀ disk₀ ∧
      runAppends [⟨[7], some fun _ => 0⟩] h₀ disk₀ = some (h, disk₁) ∧ h.maxLsn = 49 ∧
      ¬ LoadAgrees 1 () disk₁ ∧ LoadsAs 1 () disk₁ h' disk₁ ∧
      ∀ env p res h'' disk₂, h'.append env p disk₁ = some (res, h'', disk₂) → res.lsn = some 0 := by
  obtain ⟨h₀, disk₀, ho, ht₀⟩ := opens_blank
  obtain ⟨h, disk₁, hrun, ht⟩ : ∃ h disk₁,
      runAppends [⟨[7], some fun _ => 0⟩] h₀ disk₀ = some (h, disk₁) ∧ Tracks h disk₁ () [[7]] :=
    runAppends_tracks ht₀ (by decide) (by decide)
  have hone : disk₁.file? ((), 1) = none := ht.image.beyond 1 (by decide)
  have hnot : ¬ LoadAgrees 1 () disk₁ := by
    rw [loadAgrees_image_iff 1 ht.image]
    simp [hone]
  obtain ⟨g, hg, -, -⟩ := opens_image 1 ht.image
  have hopen := openHandle_of_opensAs hg
  have hmax : g.logStorage.maxBlockId = 0 := by
    by_contra hne
    exact hopen.storage.present 1 (Nat.one_le_iff_ne_zero.mpr hne)
      (FileSystem.file?_eq_none.mp hone)
  have hload := (loadsAs_iff hg).mpr ⟨0, by rw [LoadEnd, if_pos hmax], rfl, rfl⟩
  refine ⟨h₀, h, _, disk₀, disk₁, ho, hrun, ht.maxLsn.trans (by decide), hnot, hload, ?_⟩
  intro env p res h'' disk₂ happ
  refine lsn_append ?_ happ
  exact hopen.inited

end PalfReload
