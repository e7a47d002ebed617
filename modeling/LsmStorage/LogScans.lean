import LsmStorage.LogReplay
import LsmStorage.PalfReload
import LsmStorage.PointerWalk

/-! # The log walks on any disk content

A header on disk points to the next place of a walk. `init` only follows pointers forwards,
so it always ends. `load` and `replay_ls` follow a pointer wherever it leads, so they end
unless the pointers form a cycle. -/
namespace LogScans

open ByteCodec PosixFiles PalfLogEntry PalfLogStorage PalfHandle PalfScan PalfRecovery PalfReload
open LogService LogReplay BoundedLoop PointerWalk
open PalfHandleImpl (scanTurn loadTurn)
open ObLogService (replayTurn readBufSize)
open LogGroupEntryHeader (getSerializeSize)

variable {β κ σ δ : Type*}

theorem finite_range_of_lt {next : ℕ → Option ℕ} (h : ∀ a b, next a = some b → b < 2 ^ 64) :
    {b | ∃ a, next a = some b}.Finite := by
  refine (Set.finite_lt_nat (2 ^ 64)).subset ?_
  rintro b ⟨a, hab⟩
  exact h a b hab

def loadNext (s : LogStorage δ) (disk : Disk δ) (lsn : ℕ) : Option ℕ :=
  match headerAt s disk lsn with
  | none => none
  | some hdr => if hdr.committedEndLsn ≤ 0 then none else some hdr.committedEndLsn

theorem load_follows (s : LogStorage δ) (disk : Disk δ) :
    Follows (loadTurn s disk) id (loadNext s disk) := by
  apply Follows.of_turns
  intro lsn
  rw [loadTurn_eq, loadNext, id]
  cases headerAt s disk lsn with
  | none => exact Or.inl ⟨lsn, rfl, rfl⟩
  | some hdr =>
    by_cases hz : hdr.committedEndLsn ≤ 0
    · simp [hz]
    · simp [hz]

theorem load_halts_iff (s : LogStorage δ) (disk : Disk δ) (lsn : ℕ) :
    Halts (loadTurn s disk) lsn ↔ ¬ Cyclic (loadNext s disk) lsn := by
  rw [(load_follows s disk).halts_iff, id, ends_iff_not_cyclic]
  apply finite_range_of_lt
  intro a b hab
  unfold loadNext at hab
  split at hab
  · cases hab
  · next hdr hat =>
    split at hab
    · cases hab
    · exact Option.some.inj hab ▸ committedEndLsn_lt_of_headerAt hat

section Replay

variable (call : κ → Bytes → ℕ → ℤ → σ → ℤ × σ) (h : ObLogHandler (Option β × ℤ) κ)
  (impl : PalfHandleImpl (Option β × ℤ)) (disk : Disk (Option β × ℤ))

def replayNext (impl : PalfHandleImpl (Option β × ℤ)) (disk : Disk (Option β × ℤ)) (current : ℕ) :
    Option ℕ :=
  if ¬ current < impl.endLsn then none
  else
    match (impl.read disk current readBufSize readBufSize).bind header? with
    | none => none
    | some hdr =>
      if hdr.committedEndLsn ≤ impl.logStorage.getBeginLsn then none
      else some hdr.committedEndLsn

theorem replayNext_eq_some {a b : ℕ} :
    replayNext impl disk a = some b ↔ a < impl.endLsn ∧
      ∃ hdr, (impl.read disk a readBufSize readBufSize).bind header? = some hdr ∧
        impl.logStorage.getBeginLsn < hdr.committedEndLsn ∧ hdr.committedEndLsn = b := by
  rw [replayNext]
  by_cases hlt : a < impl.endLsn
  · cases (impl.read disk a readBufSize readBufSize).bind header? with
    | none => simp [hlt]
    | some hdr =>
      by_cases hback : hdr.committedEndLsn ≤ impl.logStorage.getBeginLsn
      · simp [hlt, hback]
      · simp [hlt, hback, not_le.mp hback]
  · simp [hlt]

theorem replayTurn_eq (beginLsn endLsn current : ℕ) (readBuf : Bytes) (st : σ) :
    replayTurn call h impl disk beginLsn endLsn (current, readBuf, st) =
      if ¬ current < endLsn then .stop st
      else
        match impl.read disk current readBufSize readBufSize with
        | none => .stop st
        | some out =>
          match header? out with
          | none => .stop st
          | some hdr =>
            let readBuf := overwrite readBuf 0 out
            let st :=
              if getSerializeSize < hdr.groupEntrySize then
                (h.replay call (slice readBuf getSerializeSize
                  (hdr.groupEntrySize - getSerializeSize)) current 0 st).2
              else st
            if hdr.committedEndLsn ≤ beginLsn then .stop st
            else .again (hdr.committedEndLsn, readBuf, st) := by
  unfold replayTurn
  dsimp only
  congr 1
  cases impl.read disk current readBufSize readBufSize with
  | none => rfl
  | some out =>
    dsimp only
    by_cases hz : out.length = 0
    · have hshort : out.length < getSerializeSize := by rw [hz]; decide
      rw [if_pos hz, header?_of_short hshort]
    · rw [if_neg hz]
      refine (checks_eq out _ _).trans ?_
      cases header? out with
      | none => rfl
      | some hdr =>
        have hpos : (0 : ℤ) < (hdr.groupEntrySize : ℤ) - (getSerializeSize : ℕ) ↔
            getSerializeSize < hdr.groupEntrySize := by omega
        have hlen : ((hdr.groupEntrySize : ℤ) - (getSerializeSize : ℕ)).toNat =
            hdr.groupEntrySize - getSerializeSize := by omega
        simp only [hpos, hlen]

theorem replay_follows :
    Follows (replayTurn call h impl disk impl.logStorage.getBeginLsn impl.endLsn) Prod.fst
      (replayNext impl disk) := by
  apply Follows.of_turns
  rintro ⟨current, readBuf, st⟩
  rw [replayTurn_eq, replayNext]
  by_cases hlt : current < impl.endLsn
  swap
  · simp [hlt]
  cases impl.read disk current readBufSize readBufSize with
  | none => simp [hlt]
  | some out =>
    cases hhdr : header? out with
    | none => simp [hlt, hhdr]
    | some hdr =>
      by_cases hback : hdr.committedEndLsn ≤ impl.logStorage.getBeginLsn
      · simp [hlt, hhdr, hback]
      · simp [hlt, hhdr, hback]

theorem replay_halts_iff (readBuf : Bytes) (st : σ) :
    Halts (replayTurn call h impl disk impl.logStorage.getBeginLsn impl.endLsn)
        (impl.logStorage.getBeginLsn, readBuf, st) ↔
      ¬ Cyclic (replayNext impl disk) impl.logStorage.getBeginLsn := by
  rw [(replay_follows call h impl disk).halts_iff, ends_iff_not_cyclic]
  apply finite_range_of_lt
  intro a b hab
  obtain ⟨-, hdr, hhdr, -, rfl⟩ := (replayNext_eq_some impl disk).mp hab
  obtain ⟨out, -, hout⟩ := Option.bind_eq_some_iff.mp hhdr
  exact committedEndLsn_lt hout

variable {impl disk}

theorem header_of_read {dir : Option β × ℤ} (hr : ReadsLog impl dir) (lsn : ℕ) :
    (impl.read disk lsn readBufSize readBufSize).bind header? =
      headerAt impl.logStorage disk lsn := by
  rw [read_eq_storage_read hr]
  rfl

/-- Up to the end that the scan of `init` has found, `replay_ls` goes the way of that scan. -/
theorem ends_of_scan {dir : Option β × ℤ} (hr : ReadsLog impl dir) {lsn : ℕ}
    (hscan : Yields (scanTurn impl.logStorage disk) (lsn, lsn) impl.endLsn) :
    Ends (replayNext impl disk) lsn := by
  have hstop : ∀ {l}, ¬ l < impl.endLsn → Ends (replayNext impl disk) l := by
    intro l hl
    exact ⟨l, Relation.ReflTransGen.refl, by rw [replayNext, if_pos hl]⟩
  obtain ⟨n, hn⟩ := hscan
  induction n generalizing lsn with
  | zero => cases hn
  | succ n ih =>
    rw [run, scanTurn_eq] at hn
    cases hat : headerAt impl.logStorage disk lsn with
    | none =>
      simp only [hat, Option.some.injEq] at hn
      exact hstop (by omega)
    | some hdr =>
      by_cases hle : hdr.committedEndLsn ≤ lsn
      · simp only [hat, hle, ↓reduceIte, Option.some.injEq] at hn
        exact hstop (by omega)
      · simp only [hat, hle, ↓reduceIte] at hn
        cases hnext : replayNext impl disk lsn with
        | none => exact ⟨lsn, Relation.ReflTransGen.refl, hnext⟩
        | some b =>
          obtain ⟨-, g, hg, -, rfl⟩ := (replayNext_eq_some impl disk).mp hnext
          rw [header_of_read hr, hat, Option.some.injEq] at hg
          exact (ends_of_leads hnext).mpr (hg ▸ ih hn)

end Replay

section Termination

variable (call : κ → Bytes → ℕ → ℤ → σ → ℤ × σ) {s : ObLogService β κ} {lsId : ℤ}
  {h : ObLogHandler (Option β × ℤ) κ} {impl : PalfHandleImpl (Option β × ℤ)}
  {disk : Disk (Option β × ℤ)}

def ReplayHalts (s : ObLogService β κ) (lsId : ℤ) (disk : Disk (Option β × ℤ)) (readBuf : Bytes)
    (st : σ) : Prop :=
  ∃ k, ∀ fuel, k ≤ fuel → (s.replayLs fuel call readBuf lsId disk st).isSome

theorem replayHalts_iff_halts (hs : s.handlers lsId = some h) (himpl : h.palfHandleImpl = some impl)
    (readBuf : Bytes) (st : σ) :
    ReplayHalts call s lsId disk readBuf st ↔
      Halts (replayTurn call h impl disk impl.logStorage.getBeginLsn impl.endLsn)
        (impl.logStorage.getBeginLsn, readBuf, st) := by
  have hsome : ∀ fuel, (s.replayLs fuel call readBuf lsId disk st).isSome =
      (run (replayTurn call h impl disk impl.logStorage.getBeginLsn impl.endLsn) fuel
        (impl.logStorage.getBeginLsn, readBuf, st)).isSome := by
    intro fuel
    simp only [ObLogService.replayLs, hs, himpl, Option.isSome_map]
  simp only [ReplayHalts, hsome, halts_iff_run]

/-- Whatever the blocks hold, `replay_ls` ends behind an `init`. -/
theorem replayHalts_of_openHandle {dir : Option β × ℤ} {disk₀ : Disk (Option β × ℤ)}
    (hs : s.handlers lsId = some h) (himpl : h.palfHandleImpl = some impl)
    (ho : OpenHandle dir disk₀ impl disk) (readBuf : Bytes) (st : σ) :
    ReplayHalts call s lsId disk readBuf st := by
  rw [replayHalts_iff_halts call hs himpl, (replay_follows call h impl disk).halts_iff,
    ho.getBeginLsn]
  exact ends_of_scan ho.readsLog ho.scan

variable [DecidableEq β]

theorem loads_iff_not_cyclic {palfId : ℤ} {dir : Option β × ℤ} {disk' : Disk (Option β × ℤ)}
    (ho : OpensAs palfId dir disk impl disk') :
    (∃ g disk₂, LoadsAs palfId dir disk g disk₂) ↔
      impl.logStorage.maxBlockId = 0 ∨ ¬ Cyclic (loadNext impl.logStorage disk') 0 := by
  rw [← load_halts_iff]
  have hend : (∃ g disk₂, LoadsAs palfId dir disk g disk₂) ↔
      ∃ r, LoadEnd impl.logStorage disk' r := by
    simp only [loadsAs_iff ho]
    constructor
    · rintro ⟨-, -, r, hr, -, -⟩
      exact ⟨r, hr⟩
    · rintro ⟨r, hr⟩
      exact ⟨_, _, r, hr, rfl, rfl⟩
  rw [hend]
  by_cases hmax : impl.logStorage.maxBlockId = 0
  · simp [LoadEnd, hmax]
  · simp [LoadEnd, hmax, Halts]

/-- `init` ends on every disk content. `load` ends exactly when there is only one block or
the headers from LSN 0 on form no cycle, and `replay_ls` exactly when those below `end_lsn_`
form none. -/
theorem log_walks_end_iff (palfId : ℤ) (dir : Option β × ℤ) (disk : Disk (Option β × ℤ))
    (hs : s.handlers lsId = some h) (himpl : h.palfHandleImpl = some impl) (readBuf : Bytes)
    (st : σ) :
    (∃ g disk', OpensAs palfId dir disk g disk' ∧
      ((∃ g' disk₂, LoadsAs palfId dir disk g' disk₂) ↔
        g.logStorage.maxBlockId = 0 ∨ ¬ Cyclic (loadNext g.logStorage disk') 0)) ∧
    (ReplayHalts call s lsId disk readBuf st ↔
      ¬ Cyclic (replayNext impl disk) impl.logStorage.getBeginLsn) := by
  constructor
  · obtain ⟨g, disk', ho, -⟩ := opens palfId dir disk
    exact ⟨g, disk', ho, loads_iff_not_cyclic ho⟩
  · rw [replayHalts_iff_halts call hs himpl, replay_halts_iff]

def loopHeader : LogGroupEntryHeader := { groupEntrySize := 48, committedEndLsn := 48 }

def loopHead : Bytes := loopHeader.fieldBytes ++ List.replicate 8 0

def twoFiles : Disk (Option Unit × ℤ) :=
  ((FileSystem.blank.openCreat ((some (), 1), 0)).2.openCreat ((some (), 1), 1)).2

def loopDisk : Disk (Option Unit × ℤ) :=
  twoFiles.modify 0 fun f => f.pwrite maxInfoBlockSize (loopHead ++ loopHead)

theorem headerAt_loopDisk {s : LogStorage (Option Unit × ℤ)} (hinit : s.isInited = true)
    (hdir : s.logDir = (some (), 1)) (hsize : s.blockSize = palfBlockSize) {lsn : ℕ}
    (hlsn : lsn = 0 ∨ lsn = 48) : headerAt s loopDisk lsn = some loopHeader := by
  obtain ⟨f, hf, hh⟩ : ∃ f, loopDisk.file? ((some (), 1), 0) = some f ∧
      f.Holds maxInfoBlockSize (loopHead ++ loopHead) :=
    ⟨_, FileSystem.file?_modify_self (by decide) _, holds_pwrite _ _ (by decide)⟩
  have hfile : loopDisk.file? (s.logDir, lsn / s.blockSize) = some f := by
    rw [hdir, hsize]
    rcases hlsn with rfl | rfl <;> exact hf
  have hhead : f.Holds (lsn % s.blockSize + maxInfoBlockSize) loopHead := by
    rw [hsize]
    rcases hlsn with rfl | rfl
    · exact hh.left
    · exact hh.right
  refine headerAt_of_holds hinit hfile hhead (by decide) (by decide) ?_
  rw [hsize]
  rcases hlsn with rfl | rfl <;> decide

/-- The log of one entry, behind a `seek`: its header leads to LSN 49, where there is none. -/
theorem log_walks_end_one_entry :
    ∃ (g : PalfHandleImpl (Option Unit × ℤ)) (disk : Disk (Option Unit × ℤ)),
      Tracks g disk (some (), 1) [[7]] ∧ (∃ g' disk₂, LoadsAs 1 (some (), 1) disk g' disk₂) ∧
        ReplayHalts (fun (_ : Unit) _ _ _ (st : Unit) => (0, st))
          (ObLogService.new.setHandler 1 { palfHandleImpl := some { g with endLsn := 1000 } }) 1
          disk [] () := by
  obtain ⟨g₀, disk₀, -, ht₀⟩ : ∃ (g : PalfHandleImpl (Option Unit × ℤ)) (disk : Disk _),
      OpensAs 1 (some (), 1) FileSystem.blank g disk ∧ Tracks g disk (some (), 1) [] :=
    opens_empty 1 fun _ => rfl
  obtain ⟨g, disk, -, ht⟩ := append_tracks (p := [7]) ht₀ (fun _ => 0) (by decide) (by decide)
  rw [List.nil_append] at ht
  refine ⟨g, disk, ht, ?_⟩
  let h : ObLogHandler (Option Unit × ℤ) Unit :=
    { palfHandleImpl := some { g with endLsn := 1000 } }
  have hs : (ObLogService.new.setHandler 1 h).handlers 1 = some h := by
    simp [ObLogService.setHandler]
  obtain ⟨⟨g₁, disk₁, ho, hload⟩, hreplay⟩ := log_walks_end_iff
    (fun (_ : Unit) _ _ _ (st : Unit) => (0, st)) 1 (some (), 1) disk hs rfl [] ()
  constructor
  · refine hload.mpr (Or.inl ?_)
    obtain ⟨g₂, ho₂, -⟩ := opens_image 1 ht.image
    obtain ⟨rfl, rfl⟩ := ho.unique ho₂
    have hopened := (openHandle_of_opensAs ho).storage
    by_contra hne
    have hpresent := hopened.present 1 (Nat.one_le_iff_ne_zero.mpr hne)
    rw [LogStorage.blockFilePath, hopened.logDir] at hpresent
    exact hpresent (FileSystem.file?_eq_none.mp (ht.image.beyond 1 (by decide)))
  · have hr : ReadsLog { g with endLsn := 1000 } (some (), 1) := { ht.toReadsLog with }
    have hbegin : g.logStorage.getBeginLsn = 0 := by simp [LogStorage.getBeginLsn, ht.minBlockId]
    have himage := ht.image
    rw [← ht.logDir, ← ht.blockSize] at himage
    obtain ⟨hdr, hat, -, hend⟩ := himage.stored.1.headerAt ht.storageInited
      (by rw [ht.blockSize]; decide)
    have hnone : headerAt g.logStorage disk 49 = none := himage.headerAt_end ht.storageInited
    refine hreplay.mpr (not_cyclic_of_ends ⟨49, .single ?_, ?_⟩)
    · rw [hbegin]
      refine (replayNext_eq_some _ disk).mpr
        ⟨by simp, hdr, (header_of_read hr 0).trans hat, ?_, hend⟩
      rw [hbegin, hend]
      decide
    · rw [Option.eq_none_iff_forall_ne_some]
      intro b hb
      obtain ⟨-, hdr', hhdr, -⟩ := (replayNext_eq_some _ disk).mp hb
      cases ((header_of_read hr 49).trans hnone).symm.trans hhdr

theorem replayHalts_of_openHandle_loop : ∃ g : PalfHandleImpl (Option Unit × ℤ),
    OpensAs 1 (some (), 1) loopDisk g loopDisk ∧
      ReplayHalts (fun (_ : Unit) _ _ _ (st : Unit) => (0, st))
        (ObLogService.new.setHandler 1 { palfHandleImpl := some g }) 1 loopDisk [] () := by
  obtain ⟨g, disk', ho, hopen⟩ := opens 1 (some (), 1) loopDisk
  obtain rfl : disk' = loopDisk := hopen.storage.kept (by decide)
  exact ⟨g, ho,
    replayHalts_of_openHandle _ (by simp [ObLogService.setHandler]; rfl) rfl hopen [] ()⟩

/-- On that disk `load` never comes back, and neither does `replay_ls` once `seek` has moved
the end of the log behind LSN 48. -/
theorem self_pointing_header_traps_walks :
    (¬ ∃ g disk', LoadsAs 1 (some (), 1) loopDisk g disk') ∧
    ∃ g : PalfHandleImpl (Option Unit × ℤ), OpensAs 1 (some (), 1) loopDisk g loopDisk ∧
      ∀ readBuf, ¬ ReplayHalts (fun (_ : Unit) _ _ _ (st : Unit) => (0, st))
        ((ObLogService.new.init ()).2.setHandler 1
          { palfHandleImpl := some (g.seek 1000).2, isInited := true }) 1 loopDisk readBuf () := by
  obtain ⟨g, disk', ho, hopen⟩ := opens 1 (some (), 1) loopDisk
  have hs := hopen.storage
  obtain rfl : disk' = loopDisk := hs.kept (by decide)
  have hat : ∀ lsn, lsn = 0 ∨ lsn = 48 → headerAt g.logStorage loopDisk lsn = some loopHeader :=
    fun lsn => headerAt_loopDisk hs.isInited hs.logDir hs.blockSize
  have hcycle : ∀ {next : ℕ → Option ℕ}, (∀ lsn, lsn = 0 ∨ lsn = 48 → next lsn = some 48) →
      Cyclic next 0 := by
    intro next hnext
    exact ⟨48, .single (hnext 0 (Or.inl rfl)), .single (hnext 48 (Or.inr rfl))⟩
  constructor
  · rw [loads_iff_not_cyclic ho]
    rintro (hmax | hacyclic)
    · have hgap := hs.gap (by decide)
      rw [hmax, LogStorage.blockFilePath, hs.logDir] at hgap
      exact absurd hgap (by decide)
    · refine hacyclic (hcycle fun lsn hlsn => ?_)
      rw [loadNext, hat lsn hlsn]
      rfl
  · refine ⟨g, ho, fun readBuf => ?_⟩
    have hseek : (g.seek 1000).2 = { g with endLsn := 1000 } := by
      simp [PalfHandleImpl.seek, hopen.inited]
    rw [replayHalts_iff_halts _ (by simp [ObLogService.setHandler]; rfl) rfl, replay_halts_iff,
      not_not, hseek]
    have hbegin : ({ g with endLsn := 1000 } : PalfHandleImpl _).logStorage.getBeginLsn = 0 :=
      hopen.getBeginLsn
    have hreads : ReadsLog { g with endLsn := 1000 } (some (), 1) := { hopen.readsLog with }
    rw [hbegin]
    refine hcycle fun lsn hlsn => ?_
    rw [replayNext_eq_some, header_of_read hreads, hbegin]
    refine ⟨?_, loopHeader, hat lsn hlsn, by decide, rfl⟩
    rcases hlsn with rfl | rfl <;> simp

end Termination

end LogScans
