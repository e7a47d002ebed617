import LsmStorage.LogScans

/-! # The slices that replay_ls hands on

The size in a header bounds what `replay_ls` hands to the sub-handlers, while the read of the
same turn is cut at 4096 bytes and at the end of the block. -/
namespace ReplaySlices

open ByteCodec PosixFiles PalfLogEntry PalfLogStorage PalfHandle PalfScan PalfRecovery PalfReload
open LogService LogReplay LogScans BoundedLoop PointerWalk
open ObLogService (replayTurn readBufSize)
open LogGroupEntryHeader (getSerializeSize)

variable {β κ σ δ : Type*}

structure HandedSlice where
  pos : ℕ
  len : ℕ
  outSize : ℕ

def HandedSlice.Inside (w : HandedSlice) : Prop := w.pos + w.len ≤ w.outSize

def handed? (impl : PalfHandleImpl (Option β × ℤ)) (disk : Disk (Option β × ℤ)) (current : ℕ) :
    Option HandedSlice :=
  if ¬ current < impl.endLsn then none
  else
    match impl.read disk current readBufSize readBufSize with
    | none => none
    | some out =>
      match header? out with
      | none => none
      | some hdr =>
        if getSerializeSize < hdr.groupEntrySize then
          some ⟨getSerializeSize, hdr.groupEntrySize - getSerializeSize, out.length⟩
        else none

def ReplayInside (call : κ → Bytes → ℕ → ℤ → σ → ℤ × σ) (s : ObLogService β κ) (lsId : ℤ)
    (disk : Disk (Option β × ℤ)) (readBuf : Bytes) (st : σ) : Prop :=
  ∀ h impl, s.handlers lsId = some h → h.palfHandleImpl = some impl →
    ∀ t, Reaches (replayTurn call h impl disk impl.logStorage.getBeginLsn impl.endLsn)
      (impl.logStorage.getBeginLsn, readBuf, st) t →
      ∀ w, handed? impl disk t.1 = some w → w.Inside

variable {s : ObLogService β κ} {lsId : ℤ} {h : ObLogHandler (Option β × ℤ) κ}
  {impl : PalfHandleImpl (Option β × ℤ)} {disk : Disk (Option β × ℤ)}

def InsideAt (impl : PalfHandleImpl (Option β × ℤ)) (disk : Disk (Option β × ℤ)) (lsn : ℕ) :
    Prop :=
  lsn < impl.endLsn → ∀ out hdr, impl.read disk lsn readBufSize readBufSize = some out →
    header? out = some hdr → hdr.groupEntrySize ≤ out.length

theorem handed_eq_some {lsn : ℕ} {w : HandedSlice} :
    handed? impl disk lsn = some w ↔ lsn < impl.endLsn ∧
      ∃ out hdr, impl.read disk lsn readBufSize readBufSize = some out ∧ header? out = some hdr ∧
        getSerializeSize < hdr.groupEntrySize ∧
        w = ⟨getSerializeSize, hdr.groupEntrySize - getSerializeSize, out.length⟩ := by
  rw [handed?]
  by_cases hlt : lsn < impl.endLsn
  swap
  · simp [hlt]
  cases impl.read disk lsn readBufSize readBufSize with
  | none => simp [hlt]
  | some out =>
    cases hhdr : header? out with
    | none => simp [hlt, hhdr]
    | some hdr =>
      by_cases hpayload : getSerializeSize < hdr.groupEntrySize
      · simp [hlt, hhdr, hpayload, eq_comm]
      · simp [hlt, hhdr, hpayload]

theorem insideAt_iff_handed {lsn : ℕ} :
    (∀ w, handed? impl disk lsn = some w → w.Inside) ↔ InsideAt impl disk lsn := by
  constructor
  · intro hin hlt out hdr hread hhdr
    by_cases hpayload : getSerializeSize < hdr.groupEntrySize
    · have hw := hin _ (handed_eq_some.mpr ⟨hlt, out, hdr, hread, hhdr, hpayload, rfl⟩)
      simp only [HandedSlice.Inside] at hw
      omega
    · by_contra hlong
      rw [header?_of_short (by omega)] at hhdr
      cases hhdr
  · intro hin w hw
    obtain ⟨hlt, out, hdr, hread, hhdr, hpayload, rfl⟩ := handed_eq_some.mp hw
    have hle := hin hlt out hdr hread hhdr
    simp only [HandedSlice.Inside]
    omega

theorem replayInside_iff_meets (call : κ → Bytes → ℕ → ℤ → σ → ℤ × σ)
    (hs : s.handlers lsId = some h) (himpl : h.palfHandleImpl = some impl) (readBuf : Bytes)
    (st : σ) :
    ReplayInside call s lsId disk readBuf st ↔
      ∀ lsn, Meets (replayNext impl disk) impl.logStorage.getBeginLsn lsn →
        InsideAt impl disk lsn := by
  have hmeets := fun b => (replay_follows call h impl disk).meets_iff
    (s := (impl.logStorage.getBeginLsn, readBuf, st)) (b := b)
  simp only [← insideAt_iff_handed]
  constructor
  · intro hin lsn hlsn
    obtain ⟨t, ht, rfl⟩ := (hmeets lsn).mp hlsn
    exact hin h impl hs himpl t ht
  · intro hin h' impl' hs' himpl' t ht
    obtain rfl := Option.some.inj (hs.symm.trans hs')
    obtain rfl := Option.some.inj (himpl.symm.trans himpl')
    exact hin t.1 ((hmeets t.1).mpr ⟨t, ht, rfl⟩)

def SlicesFit (size : ℕ) : ℕ → List Bytes → Prop
  | _, [] => True
  | lsn, p :: ps => lsn % size + getSerializeSize ≤ size →
      (entrySize p ≤ readBufSize ∧ lsn % size + entrySize p ≤ size) ∧
        SlicesFit size (lsn + entrySize p) ps

theorem inside_of_no_header {dir : Option β × ℤ} (hr : ReadsLog impl dir) {lsn : ℕ}
    (hat : headerAt impl.logStorage disk lsn = none) :
    ∀ b, Meets (replayNext impl disk) lsn b → InsideAt impl disk b := by
  rw [← header_of_read hr] at hat
  rw [forall_meets_iff]
  constructor
  · intro _ out hdr hread hhdr
    rw [Option.bind_eq_none_iff.mp hat out hread] at hhdr
    cases hhdr
  · intro c hc
    obtain ⟨-, hdr, hhdr, -⟩ := (replayNext_eq_some impl disk).mp hc
    cases hat.symm.trans hhdr

theorem inside_entry_iff {dir : Option β × ℤ} (hr : ReadsLog impl dir) {lsn : ℕ} {p : Bytes}
    (hstored : StoredEntry disk dir palfBlockSize lsn p) (hlt : lsn < impl.endLsn)
    (hfit : lsn % palfBlockSize + getSerializeSize ≤ palfBlockSize) :
    (∀ b, Meets (replayNext impl disk) lsn b → InsideAt impl disk b) ↔
      (entrySize p ≤ readBufSize ∧ lsn % palfBlockSize + entrySize p ≤ palfBlockSize) ∧
        ∀ b, Meets (replayNext impl disk) (lsn + entrySize p) b → InsideAt impl disk b := by
  have hbegin : impl.logStorage.getBeginLsn = 0 := by
    simp [LogStorage.getBeginLsn, hr.minBlockId]
  rw [← hr.logDir, ← hr.blockSize] at hstored
  rw [← hr.blockSize] at hfit ⊢
  obtain ⟨g, hat, hsize, hcel⟩ := hstored.headerAt hr.storageInited hfit
  rw [← header_of_read hr] at hat
  obtain ⟨out, hread, hhdr⟩ := Option.bind_eq_some_iff.mp hat
  have hread' := hread
  rw [read_eq_storage_read hr] at hread'
  have hlen := hstored.le_length_read_iff hr.storageInited hfit hread'
  have hinside : InsideAt impl disk lsn ↔ entrySize p ≤ out.length := by
    constructor
    · intro hin
      exact hsize ▸ hin hlt out g hread hhdr
    · intro hle _ out' g' hread₁ hhdr₁
      obtain rfl := Option.some.inj (hread.symm.trans hread₁)
      obtain rfl := Option.some.inj (hhdr.symm.trans hhdr₁)
      exact hsize ▸ hle
  rw [forall_meets_iff, hinside, hlen]
  refine and_congr_right fun hroom => ?_
  have hpos : 0 < entrySize p := Nat.add_pos_left (by decide) _
  have hnext : replayNext impl disk lsn = some (lsn + entrySize p) := by
    rw [replayNext_eq_some]
    exact ⟨hlt, g, hat, by omega, hcel⟩
  constructor
  · intro hrest
    exact hrest _ hnext
  · intro hrest c hc
    obtain rfl := Option.some.inj (hnext.symm.trans hc)
    exact hrest

theorem inside_image_iff {dir : Option β × ℤ} (hr : ReadsLog impl dir) (pre : List Bytes)
    {ps : List Bytes} (himage : LogImage disk dir palfBlockSize (pre ++ ps))
    (hend : scanEnd palfBlockSize (logSize pre) ps ≤ impl.endLsn) :
    (∀ b, Meets (replayNext impl disk) (logSize pre) b → InsideAt impl disk b) ↔
      SlicesFit palfBlockSize (logSize pre) ps := by
  have himage' := himage
  rw [← hr.logDir, ← hr.blockSize] at himage'
  induction ps generalizing pre with
  | nil =>
    rw [List.append_nil] at himage'
    exact iff_of_true (inside_of_no_header hr (himage'.headerAt_end hr.storageInited)) trivial
  | cons p ps ih =>
    rw [SlicesFit]
    by_cases hfit : logSize pre % palfBlockSize + getSerializeSize ≤ palfBlockSize
    · rw [scanEnd, if_pos hfit] at hend
      have hstored := (storedFrom_append.mp himage.stored).2.1
      rw [Nat.zero_add] at hstored
      have hpos : 0 < entrySize p := Nat.add_pos_left (by decide) _
      have hle := le_scanEnd palfBlockSize (logSize pre + entrySize p) ps
      have hrest := ih (pre ++ [p]) (by simpa using himage) (by simpa using hend)
        (by simpa using himage')
      simp only [logSize_append, logSize_cons, logSize_nil, Nat.add_zero] at hrest
      rw [inside_entry_iff hr hstored (by omega) hfit]
      simp only [hfit, forall_const]
      exact and_congr_right fun _ => hrest
    · have hcross : headerAt impl.logStorage disk (logSize pre) = none :=
        headerAt_of_crossing hr.storageInited (by rw [hr.blockSize]; omega)
      exact iff_of_true (inside_of_no_header hr hcross) fun h => absurd h hfit

section Appends

structure TypedCall where
  type : ObLogBaseType
  call : LogCall

def TypedCall.logged? (c : TypedCall) : Option Bytes := c.call.accepted?.map (logBuf c.type)

def entries (calls : List TypedCall) : List Bytes := calls.filterMap TypedCall.logged?

theorem entries_cons (c : TypedCall) (cs : List TypedCall) :
    entries (c :: cs) = c.logged?.toList ++ entries cs := by
  cases hc : c.logged? <;> simp [entries, hc]

structure HandlerHolds (h : ObLogHandler δ κ) (disk : Disk δ) (dir : δ) (ps : List Bytes) :
    Prop where
  inited : h.isInited = true
  impl : ∃ impl, h.palfHandleImpl = some impl ∧ Appendable impl disk dir ps

variable [DecidableEq δ]

def runTypedCalls : List TypedCall → ObLogHandler δ κ → Disk δ →
    Option (ObLogHandler δ κ × Disk δ)
  | [], h, disk => some (h, disk)
  | c :: cs, h, disk =>
    match h.append c.call.env c.call.payload c.type disk with
    | none => none
    | some (_, h, disk) => runTypedCalls cs h disk

theorem HandlerHolds.append {h h' : ObLogHandler δ κ} {disk disk' : Disk δ} {dir : δ}
    {ps : List Bytes} {res : AppendResult} (hh : HandlerHolds h disk dir ps) (c : TypedCall)
    (hlog : logSize (ps ++ c.logged?.toList) < 2 ^ 64)
    (happ : h.append c.call.env c.call.payload c.type disk = some (res, h', disk')) :
    HandlerHolds h' disk' dir (ps ++ c.logged?.toList) := by
  obtain ⟨impl, himpl, hready⟩ := hh.impl
  cases hc : c.call.accepted? with
  | none =>
    obtain ⟨res₁, impl', happ₁, -, himpl'⟩ := append_refused hh.inited himpl hready.inited hc
    cases happ.symm.trans happ₁
    refine ⟨hh.inited, impl', rfl, ?_⟩
    rw [TypedCall.logged?, hc, Option.map_none, Option.toList_none, List.append_nil]
    rcases himpl' with rfl | rfl
    · exact hready
    · exact { hready with }
  | some p =>
    obtain ⟨rfl, hp, heap, palfHeap, henv⟩ := accepted?_eq_some hc
    rw [TypedCall.logged?, hc, Option.map_some, Option.toList_some] at hlog ⊢
    rw [henv, append_eq_palf_append hh.inited hp himpl] at happ
    by_cases hsize : entrySize (logBuf c.type c.call.payload) < 2 ^ 32
    · obtain ⟨impl', disk₁, happ₁, hready'⟩ := append_appendable hready palfHeap hsize
        (by simpa using hlog)
      rw [happ₁] at happ
      cases happ
      exact ⟨hh.inited, impl', rfl, hready'.appendable⟩
    · rw [append_of_oversized disk hready.inited palfHeap .faithful (not_lt.mp hsize)] at happ
      cases happ

theorem HandlerHolds.runTypedCalls {h h' : ObLogHandler δ κ} {disk disk' : Disk δ} {dir : δ}
    {ps : List Bytes} {calls : List TypedCall} (hh : HandlerHolds h disk dir ps)
    (hlog : logSize (ps ++ entries calls) < 2 ^ 64)
    (hrun : ReplaySlices.runTypedCalls calls h disk = some (h', disk')) :
    HandlerHolds h' disk' dir (ps ++ entries calls) := by
  induction calls generalizing h disk ps with
  | nil =>
    cases hrun
    simpa [entries] using hh
  | cons c cs ih =>
    rw [entries_cons, ← List.append_assoc] at hlog ⊢
    rw [ReplaySlices.runTypedCalls] at hrun
    split at hrun
    · cases hrun
    next res h₁ disk₁ happ =>
    refine ih (hh.append c ?_ happ) hlog hrun
    rw [logSize_append] at hlog
    omega

end Appends

section Service

variable {base : β} {lsId : ℤ} {disk : Disk (Option β × ℤ)}

theorem replayInside_image_iff (call : κ → Bytes → ℕ → ℤ → σ → ℤ × σ) {s : ObLogService β κ}
    {h : ObLogHandler (Option β × ℤ) κ} {impl : PalfHandleImpl (Option β × ℤ)}
    {dir : Option β × ℤ} {ps : List Bytes} (hs : s.handlers lsId = some h)
    (himpl : h.palfHandleImpl = some impl) (hr : ReadsLog impl dir)
    (himage : LogImage disk dir palfBlockSize ps)
    (hend : scanEnd palfBlockSize 0 ps ≤ impl.endLsn) (readBuf : Bytes) (st : σ) :
    ReplayInside call s lsId disk readBuf st ↔ SlicesFit palfBlockSize 0 ps := by
  have hbegin : impl.logStorage.getBeginLsn = 0 := by
    simp [LogStorage.getBeginLsn, hr.minBlockId]
  rw [replayInside_iff_meets call hs himpl, hbegin]
  exact inside_image_iff hr [] himage hend

variable [DecidableEq β] {type : ObLogBaseType} {sub : κ}

theorem replayInside_appended_iff (call : κ → Bytes → ℕ → ℤ → σ → ℤ × σ) {s : ObLogService β κ}
    {h h' : ObLogHandler (Option β × ℤ) κ} {disk₀ disk₁ : Disk (Option β × ℤ)}
    {calls : List TypedCall} (hempty : ∀ b, disk.entry ((some base, lsId), b) = none)
    (hmount : Mounts base lsId type sub disk s h disk₀) (hlog : logSize (entries calls) < 2 ^ 64)
    (hrun : runTypedCalls calls h disk₀ = some (h', disk₁)) (readBuf : Bytes) (st : σ) :
    (ReplayInside call (s.setHandler lsId h') lsId disk₁ readBuf st ↔
      SlicesFit palfBlockSize 0 (entries calls)) ∧
    ∃ s' h'', Mounts base lsId type sub disk₁ s' h'' disk₁ ∧
      (ReplayInside call s' lsId disk₁ readBuf st ↔
        SlicesFit palfBlockSize 0 (entries calls)) := by
  obtain ⟨s₁, h₁, disk₂, hmount₁, hready₁⟩ := mounts_empty base lsId type sub disk hempty
  obtain ⟨rfl, rfl, rfl⟩ := hmount.unique hmount₁
  have hholds : HandlerHolds h disk₀ (some base, lsId) [] := ⟨hready₁.inited, hready₁.impl⟩
  obtain ⟨-, impl', hptr', hready⟩ := hholds.runTypedCalls (by simpa using hlog) hrun
  rw [List.nil_append] at hready
  obtain ⟨impl'', hreopen, hreads, hend, -⟩ := opens_image lsId hready.image
  obtain ⟨s', h'', hmount', hs', -, -, hptr''⟩ := mounts_of_opensAs type sub hreopen
  constructor
  · refine replayInside_image_iff call (by simp [ObLogService.setHandler]) hptr' hready.toReadsLog
      hready.image ?_ readBuf st
    rw [hready.endLsn]
    simpa using scanEnd_le palfBlockSize 0 (entries calls)
  · exact ⟨s', h'', hmount', replayInside_image_iff call hs' hptr'' hreads hready.image hend.ge
      readBuf st⟩

/-- On any disk content replay stays inside what it has read exactly when every header that it
comes to names no more bytes than were read there. For the log of any appends that is a
condition on the entries. -/
theorem replay_inside_iff (call : κ → Bytes → ℕ → ℤ → σ → ℤ × σ) (base : β) (lsId : ℤ) :
    (∀ s h impl (disk : Disk (Option β × ℤ)) readBuf st, s.handlers lsId = some h →
      h.palfHandleImpl = some impl →
      (ReplayInside call s lsId disk readBuf st ↔
        ∀ lsn, Meets (replayNext impl disk) impl.logStorage.getBeginLsn lsn →
          InsideAt impl disk lsn)) ∧
    ∀ (disk : Disk (Option β × ℤ)) type sub calls s h disk₀ h' disk₁,
      (∀ b, disk.entry ((some base, lsId), b) = none) →
      Mounts base lsId type sub disk s h disk₀ → logSize (entries calls) < 2 ^ 64 →
      runTypedCalls calls h disk₀ = some (h', disk₁) → ∀ readBuf st,
      (ReplayInside call (s.setHandler lsId h') lsId disk₁ readBuf st ↔
        SlicesFit palfBlockSize 0 (entries calls)) ∧
      ∃ s' h'', Mounts base lsId type sub disk₁ s' h'' disk₁ ∧
        (ReplayInside call s' lsId disk₁ readBuf st ↔
          SlicesFit palfBlockSize 0 (entries calls)) := by
  constructor
  · intro s h impl disk readBuf st hs himpl
    exact replayInside_iff_meets call hs himpl readBuf st
  · intro disk type sub calls s h disk₀ h' disk₁ hempty hmount hlog hrun readBuf st
    exact replayInside_appended_iff call hempty hmount hlog hrun readBuf st

theorem single_append {p : Bytes} (hp : p ≠ []) (hsize : entrySize (logBuf type p) < 2 ^ 32)
    {h : ObLogHandler (Option β × ℤ) κ} {dir : Option β × ℤ}
    (hready : StreamReady h disk dir type sub []) (heap : ℕ → UInt8) :
    ∃ h' disk', runTypedCalls [⟨type, p, some heap, some heap⟩] h disk = some (h', disk') ∧
      entries [⟨type, p, some heap, some heap⟩] = [logBuf type p] := by
  have hc : (LogCall.mk p (some heap) (some heap)).accepted? = some p := by
    simp [LogCall.accepted?, hp]
  obtain ⟨res, h', disk', happ, -⟩ := append_accepted hready hc hsize
    (by simp only [List.map_nil, logSize_nil]; omega)
  refine ⟨h', disk', ?_, by simp [entries, TypedCall.logged?, hc]⟩
  simp [runTypedCalls, happ]

theorem replay_inside_iff_example :
    ∃ s h disk₀ h' disk₁,
      Mounts () 1 .tabletOpLogBaseType () FileSystem.blank s h disk₀ ∧
      runTypedCalls [⟨.tabletOpLogBaseType, [7], some fun _ => 0, some fun _ => 0⟩] h disk₀ =
        some (h', disk₁) ∧
      ∀ readBuf, ReplayInside (fun (_ : Unit) _ _ _ (st : Unit) => (0, st)) (s.setHandler 1 h') 1
        disk₁ readBuf () := by
  obtain ⟨s, h, disk₀, hmount, hready⟩ := mounts_empty () 1 .tabletOpLogBaseType ()
    FileSystem.blank fun _ => rfl
  obtain ⟨h', disk₁, hrun, hentries⟩ := single_append (p := [7]) (by decide) (by decide) hready
    fun _ => 0
  refine ⟨s, h, disk₀, h', disk₁, hmount, hrun, fun readBuf => ?_⟩
  refine ((replay_inside_iff _ () 1).2 _ _ _ _ s h disk₀ h' disk₁ (fun _ => rfl) hmount
    (by rw [hentries]; decide) hrun readBuf ()).1.mpr ?_
  rw [hentries]
  exact fun _ => ⟨by decide, trivial⟩

/-- A payload of 4033 bytes makes an entry of 4097, one byte more than is read. -/
theorem long_payload_leaves_read :
    ∃ s h disk₀ h' disk₁,
      Mounts () 1 .tabletOpLogBaseType () FileSystem.blank s h disk₀ ∧
      runTypedCalls [⟨.tabletOpLogBaseType, List.replicate 4033 1, some fun _ => 0,
        some fun _ => 0⟩] h disk₀ = some (h', disk₁) ∧
      ∀ readBuf, ¬ ReplayInside (fun (_ : Unit) _ _ _ (st : Unit) => (0, st)) (s.setHandler 1 h')
        1 disk₁ readBuf () := by
  obtain ⟨s, h, disk₀, hmount, hready⟩ := mounts_empty () 1 .tabletOpLogBaseType ()
    FileSystem.blank fun _ => rfl
  have hsize : entrySize (logBuf .tabletOpLogBaseType (List.replicate 4033 1)) = 4097 := by
    rw [entrySize, length_logBuf, List.length_replicate]
    rfl
  obtain ⟨h', disk₁, hrun, hentries⟩ := single_append (p := List.replicate 4033 1)
    (List.ne_nil_of_length_pos (by rw [List.length_replicate]; decide)) (by rw [hsize]; decide)
    hready fun _ => 0
  refine ⟨s, h, disk₀, h', disk₁, hmount, hrun, fun readBuf => ?_⟩
  have hlog : logSize (entries [⟨.tabletOpLogBaseType, List.replicate 4033 1, some fun _ => 0,
      some fun _ => 0⟩]) < 2 ^ 64 := by
    rw [hentries, logSize_cons, logSize_nil, hsize]
    decide
  rw [(replayInside_appended_iff _ (fun _ => rfl) hmount hlog hrun readBuf ()).1, hentries]
  intro hfits
  have hroom := (hfits (by decide)).1.1
  rw [hsize] at hroom
  exact absurd hroom (by decide)

end Service

end ReplaySlices
