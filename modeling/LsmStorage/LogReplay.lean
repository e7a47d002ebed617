import LsmStorage.LogService
import LsmStorage.PalfRecovery

/-! # Replaying a log stream

An append of a payload writes one log entry, the base header and the payload. As long as an
entry fits the read buffer and the log stays in one block, `replay_ls` hands every
payload to the sub-handler of its type once, in the order of the appends, both in the same
process and after a restart. -/
namespace LogReplay

open ByteCodec PosixFiles PalfLogEntry PalfLogStorage PalfHandle PalfRecovery LogService
open ObLogBaseHeader
open ObLogService
open BoundedLoop

variable {β κ σ δ : Type*}

def logBuf (type : ObLogBaseType) (p : Bytes) : Bytes :=
  (ofType type).fieldBytes ++ p

def replayed (call : κ → Bytes → ℕ → ℤ → σ → ℤ × σ) (sub : κ) (type : ObLogBaseType) :
    ℕ → List Bytes → σ → σ
  | _, [], st => st
  | lsn, p :: ps, st =>
    replayed call sub type (lsn + entrySize (logBuf type p)) ps (call sub p lsn 0 st).2

theorem length_logBuf (type : ObLogBaseType) (p : Bytes) :
    (logBuf type p).length = 16 + p.length := by
  rw [logBuf, List.length_append, length_fieldBytes]
  rfl

theorem replay_logBuf (call : κ → Bytes → ℕ → ℤ → σ → ℤ × σ) {h : ObLogHandler δ κ}
    {type : ObLogBaseType} {sub : κ} (hsub : h.replayHandlers type.code = some sub) (p : Bytes)
    (lsn : ℕ) (scn : ℤ) (st : σ) :
    h.replay call (logBuf type p) lsn scn st = call sub p lsn scn st := by
  have hne : logBuf type p ≠ [] := by
    intro hnil
    have hz := congrArg List.length hnil
    rw [length_logBuf] at hz
    simp at hz
  have hcode : (ofType type).logType = type.code := rfl
  have hdrop : (logBuf type p).drop getSerializeSize = p := by
    rw [logBuf, List.drop_append_of_le_length (by rw [length_fieldBytes]),
      List.drop_eq_nil_of_le (by rw [length_fieldBytes]), List.nil_append]
  rw [ObLogHandler.replay, if_neg hne]
  simp only [logBuf] at hdrop ⊢
  simp only [deserialize_fieldBytes, hcode, hsub, hdrop]

section Loop

variable {h : ObLogHandler (Option β × ℤ) κ} {impl : PalfHandleImpl (Option β × ℤ)}
  {disk : Disk (Option β × ℤ)} {dir : Option β × ℤ} {type : ObLogBaseType} {sub : κ}

theorem read_eq_storage_read (hr : ReadsLog impl dir) (lsn n : ℕ) :
    impl.read disk lsn n n = impl.logStorage.read disk lsn n n := by
  simp [PalfHandleImpl.read, LogCache.get, hr.inited, hr.cacheOff]

theorem replayTurn_entry (call : κ → Bytes → ℕ → ℤ → σ → ℤ × σ) (hr : ReadsLog impl dir)
    (hsub : h.replayHandlers type.code = some sub) {lsn endLsn : ℕ} {p readBuf : Bytes}
    (hstored : StoredEntry disk dir palfBlockSize lsn (logBuf type p))
    (hsize : entrySize (logBuf type p) ≤ readBufSize)
    (hblock : lsn + entrySize (logBuf type p) ≤ palfBlockSize) (hend : lsn < endLsn)
    (hbuf : readBuf.length = readBufSize) (st : σ) :
    ∃ readBuf', readBuf'.length = readBufSize ∧
      replayTurn call h impl disk 0 endLsn (lsn, readBuf, st) =
        .again (lsn + entrySize (logBuf type p), readBuf', (call sub p lsn 0 st).2) := by
  rw [← hr.logDir, ← hr.blockSize] at hstored
  rw [← hr.blockSize] at hblock
  have hmod : lsn % impl.logStorage.blockSize ≤ lsn := Nat.mod_le _ _
  obtain ⟨head, rest, g, hread, hlen, hdes, hv, hs, hc⟩ :=
    hstored.read_front (List.append_nil _).symm hr.storageInited hsize (by omega)
  have hout := length_read_le hr.storageInited hread
  rw [← read_eq_storage_read hr] at hread
  have hpos : 0 < entrySize (logBuf type p) := Nat.add_pos_left (by decide) _
  have hgroup : entrySize (logBuf type p) = 48 + (logBuf type p).length := rfl
  have hlong : 48 + (logBuf type p).length ≤ (head ++ logBuf type p ++ rest).length := by
    simp only [List.length_append, hlen, LogGroupEntryHeader.getSerializeSize]
    omega
  have hpayload : slice (overwrite readBuf 0 (head ++ logBuf type p ++ rest))
      LogGroupEntryHeader.getSerializeSize (logBuf type p).length = logBuf type p := by
    rw [overwrite, List.take_zero, List.nil_append, List.append_assoc, ← hlen, slice_middle]
  refine ⟨overwrite readBuf 0 (head ++ logBuf type p ++ rest), ?_, ?_⟩
  · rw [length_overwrite (by omega), hbuf]
  · have hlen0 : ¬ (head ++ logBuf type p ++ rest).length = 0 := by omega
    have hlen48 : ¬ (head ++ logBuf type p ++ rest).length <
        LogGroupEntryHeader.getSerializeSize := by
      simp only [LogGroupEntryHeader.getSerializeSize]
      omega
    have hlt : (0 : ℤ) < (entrySize (logBuf type p) : ℤ) -
        (LogGroupEntryHeader.getSerializeSize : ℕ) := by
      rw [hgroup, length_logBuf]
      simp only [LogGroupEntryHeader.getSerializeSize]
      omega
    have hnat : ((entrySize (logBuf type p) : ℤ) -
        (LogGroupEntryHeader.getSerializeSize : ℕ)).toNat = (logBuf type p).length := by
      rw [hgroup]
      simp only [LogGroupEntryHeader.getSerializeSize]
      omega
    have hforward : ¬ lsn + entrySize (logBuf type p) ≤ 0 := by omega
    simp only [replayTurn, hend, not_true_eq_false, hread, hlen0, hlen48, hdes, hv,
      hs, hc, hlt, hnat, hforward, hpayload, replay_logBuf call hsub, ↓reduceIte, Bool.not_true,
      Bool.false_eq_true]

theorem replay_yields (call : κ → Bytes → ℕ → ℤ → σ → ℤ × σ) (hr : ReadsLog impl dir)
    (hsub : h.replayHandlers type.code = some sub) {lsn : ℕ} {ps : List Bytes}
    (hstored : StoredFrom disk dir palfBlockSize lsn (ps.map (logBuf type)))
    (hsize : ∀ p ∈ ps, entrySize (logBuf type p) ≤ readBufSize)
    (hblock : lsn + logSize (ps.map (logBuf type)) ≤ palfBlockSize) {readBuf : Bytes}
    (hbuf : readBuf.length = readBufSize) (st : σ) :
    Yields (replayTurn call h impl disk 0 (lsn + logSize (ps.map (logBuf type))))
      (lsn, readBuf, st) (replayed call sub type lsn ps st) := by
  induction ps generalizing lsn readBuf st with
  | nil =>
    apply yields_stop
    simp [replayTurn, replayed]
  | cons p ps ih =>
    rw [List.map_cons, logSize_cons] at hblock ⊢
    have hpos : 0 < entrySize (logBuf type p) := Nat.add_pos_left (by decide) _
    obtain ⟨readBuf', hbuf', hturn⟩ := replayTurn_entry call hr hsub hstored.1
      (hsize p List.mem_cons_self) (by omega)
      (show lsn < lsn + (entrySize (logBuf type p) + logSize (ps.map (logBuf type))) by omega)
      hbuf st
    have hrest := ih hstored.2 (fun q hq => hsize q (List.mem_cons_of_mem p hq)) (by omega) hbuf'
      (call sub p lsn 0 st).2
    rw [Nat.add_assoc] at hrest
    exact yields_again hturn hrest

end Loop

structure LogCall where
  payload : Bytes
  malloc : Option (ℕ → UInt8)
  palfMalloc : Option (ℕ → UInt8)

def LogCall.env (c : LogCall) : LogAppendEnv := ⟨c.malloc, c.palfMalloc, .faithful⟩

def LogCall.accepted? (c : LogCall) : Option Bytes :=
  if c.payload = [] then none
  else if c.malloc.isSome && c.palfMalloc.isSome then some c.payload else none

def accepted (calls : List LogCall) : List Bytes := calls.filterMap LogCall.accepted?

structure StreamTracks (h : ObLogHandler δ κ) (disk : Disk δ) (dir : δ) (type : ObLogBaseType)
    (sub : κ) (ps : List Bytes) : Prop where
  inited : h.isInited = true
  registered : h.replayHandlers type.code = some sub
  impl : ∃ impl, h.palfHandleImpl = some impl ∧ Tracks impl disk dir (ps.map (logBuf type))

/-- An open log stream that can go on with the payloads `ps`; after a restart the file of the
last block is not open yet. -/
structure StreamReady (h : ObLogHandler δ κ) (disk : Disk δ) (dir : δ) (type : ObLogBaseType)
    (sub : κ) (ps : List Bytes) : Prop where
  inited : h.isInited = true
  registered : h.replayHandlers type.code = some sub
  impl : ∃ impl, h.palfHandleImpl = some impl ∧ Appendable impl disk dir (ps.map (logBuf type))

theorem StreamTracks.ready {h : ObLogHandler δ κ} {disk : Disk δ} {dir : δ}
    {type : ObLogBaseType} {sub : κ} {ps : List Bytes}
    (ht : StreamTracks h disk dir type sub ps) : StreamReady h disk dir type sub ps := by
  obtain ⟨impl, himpl, himplt⟩ := ht.impl
  exact ⟨ht.inited, ht.registered, impl, himpl, himplt.appendable⟩

section Append

variable [DecidableEq δ] {h : ObLogHandler δ κ} {disk : Disk δ} {dir : δ}
  {type : ObLogBaseType} {sub : κ} {ps : List Bytes}

theorem overwrite_serialize_fresh (type : ObLogBaseType) (p : Bytes) (heap : ℕ → UInt8) :
    let fresh := (List.range (getSerializeSize + p.length)).map heap
    ∃ out, (ofType type).serialize fresh 0 =
        some (out, getSerializeSize) ∧
      overwrite out getSerializeSize p = logBuf type p := by
  intro fresh
  have hfresh : fresh.length = getSerializeSize + p.length := by simp [fresh]
  have hlen := length_fieldBytes (ofType type)
  refine ⟨_, by rw [serialize, if_neg (by omega), Nat.zero_add], ?_⟩
  have hroom : 0 + (ofType type).fieldBytes.length ≤ fresh.length := by omega
  rw [overwrite, List.drop_eq_nil_of_le (by rw [length_overwrite hroom, hfresh]),
    List.append_nil, logBuf, overwrite, List.take_zero, List.nil_append, ← hlen, List.take_left]

theorem append_eq_palf_append {impl : PalfHandleImpl δ} {p : Bytes} (hinit : h.isInited = true)
    (hp : p ≠ []) (himpl : h.palfHandleImpl = some impl) (heap : ℕ → UInt8) (env : AppendEnv) :
    h.append ⟨some heap, env⟩ p type disk =
      (impl.append env (logBuf type p) disk).map fun r =>
        (r.1, { h with palfHandleImpl := some r.2.1 }, r.2.2) := by
  obtain ⟨out, hser, hbuf⟩ := overwrite_serialize_fresh type p heap
  simp only [ObLogHandler.append, hinit, hp, Bool.not_true, Bool.false_eq_true, ↓reduceIte, hser,
    Option.getD_some, hbuf, himpl]
  cases impl.append env (logBuf type p) disk <;> rfl

theorem accepted?_eq_some {c : LogCall} {p : Bytes} (hc : c.accepted? = some p) :
    c.payload = p ∧ p ≠ [] ∧ ∃ heap palfHeap, c.env = ⟨some heap, some palfHeap, .faithful⟩ := by
  obtain ⟨payload, malloc, palfMalloc⟩ := c
  simp only [LogCall.accepted?] at hc
  split at hc
  · cases hc
  · rename_i hp
    cases malloc <;> cases palfMalloc <;> simp at hc
    rename_i heap palfHeap
    obtain rfl := hc
    exact ⟨rfl, hp, heap, palfHeap, rfl⟩

theorem append_refused {impl : PalfHandleImpl δ} (hinit : h.isInited = true)
    (himpl : h.palfHandleImpl = some impl) (himplInit : impl.isInited = true) {c : LogCall}
    (hc : c.accepted? = none) :
    ∃ res impl', h.append c.env c.payload type disk =
        some (res, { h with palfHandleImpl := some impl' }, disk) ∧ res.ret ≠ 0 ∧
      (impl' = impl ∨ impl' = { impl with logId := impl.logId + 1 }) := by
  obtain ⟨p, malloc, palfMalloc⟩ := c
  have hsame : { h with palfHandleImpl := some impl } = h := by rw [← himpl]
  by_cases hp : p = []
  · refine ⟨⟨-1, none, none⟩, impl, ?_, by simp, Or.inl rfl⟩
    rw [hsame]
    simp [ObLogHandler.append, hinit, hp]
  cases malloc with
  | none =>
    refine ⟨⟨-1, none, none⟩, impl, ?_, by simp, Or.inl rfl⟩
    rw [hsame]
    simp [ObLogHandler.append, hinit, hp, LogCall.env]
  | some heap =>
    cases palfMalloc with
    | none =>
      refine ⟨⟨-1, some impl.maxLsn, none⟩, _, ?_, by simp, Or.inr rfl⟩
      simp only [LogCall.env]
      rw [append_eq_palf_append hinit hp himpl]
      simp [PalfHandleImpl.append, PalfHandleImpl.doAppend, himplInit]
    | some palfHeap => simp [LogCall.accepted?, hp] at hc

theorem append_accepted (ht : StreamReady h disk dir type sub ps) {c : LogCall} {p : Bytes}
    (hc : c.accepted? = some p) (hsize : entrySize (logBuf type p) < 2 ^ 32)
    (hlog : logSize (ps.map (logBuf type)) + entrySize (logBuf type p) < 2 ^ 64) :
    ∃ res h' disk', h.append c.env c.payload type disk = some (res, h', disk') ∧ res.ret = 0 ∧
      StreamTracks h' disk' dir type sub (ps ++ [p]) := by
  obtain ⟨impl, himpl, himplt⟩ := ht.impl
  obtain ⟨rfl, hp, heap, palfHeap, henv⟩ := accepted?_eq_some hc
  obtain ⟨impl', disk', happ, himplt'⟩ := append_appendable himplt palfHeap hsize hlog
  rw [henv, append_eq_palf_append ht.inited hp himpl, happ]
  exact ⟨_, _, _, rfl, rfl, ht.inited, ht.registered, _, rfl, by simpa using himplt'⟩

theorem StreamReady.append (ht : StreamReady h disk dir type sub ps) (c : LogCall)
    (hsize : ∀ p ∈ c.accepted?.toList, entrySize (logBuf type p) < 2 ^ 32)
    (hlog : logSize (ps.map (logBuf type)) + logSize (c.accepted?.toList.map (logBuf type)) <
      2 ^ 64) :
    ∃ res h' disk', h.append c.env c.payload type disk = some (res, h', disk') ∧
      (res.ret = 0 ↔ c.accepted? ≠ none) ∧
      StreamReady h' disk' dir type sub (ps ++ c.accepted?.toList) := by
  cases hc : c.accepted? with
  | none =>
    obtain ⟨impl, himpl, himplt⟩ := ht.impl
    obtain ⟨res, impl', happ, hret, himpl'⟩ := append_refused ht.inited himpl himplt.inited hc
    refine ⟨res, _, disk, happ, by simp [hret], ht.inited, ht.registered, impl', rfl, ?_⟩
    rw [Option.toList_none, List.append_nil]
    rcases himpl' with rfl | rfl
    · exact himplt
    · exact { himplt with }
  | some p =>
    rw [hc] at hsize hlog
    obtain ⟨res, h', disk', happ, hret, ht'⟩ :=
      append_accepted ht hc (hsize p (by simp)) (by simpa using hlog)
    exact ⟨res, h', disk', happ, by simp [hret], ht'.ready⟩

def runLogCalls (type : ObLogBaseType) :
    List LogCall → ObLogHandler δ κ → Disk δ → Option (List Bytes × ObLogHandler δ κ × Disk δ)
  | [], h, disk => some ([], h, disk)
  | c :: cs, h, disk =>
    match h.append c.env c.payload type disk with
    | none => none
    | some (res, h, disk) =>
      match runLogCalls type cs h disk with
      | none => none
      | some (acked, h, disk) =>
        some (if res.ret = 0 then c.payload :: acked else acked, h, disk)

theorem accepted_cons (c : LogCall) (cs : List LogCall) :
    accepted (c :: cs) = c.accepted?.toList ++ accepted cs := by
  cases hc : c.accepted? <;> simp [accepted, hc]

theorem StreamReady.runLogCalls (ht : StreamReady h disk dir type sub ps)
    {calls : List LogCall} (hsize : ∀ p ∈ accepted calls, entrySize (logBuf type p) < 2 ^ 32)
    (hlog : logSize (ps.map (logBuf type)) + logSize ((accepted calls).map (logBuf type)) <
      2 ^ 64) :
    ∃ h' disk', LogReplay.runLogCalls type calls h disk = some (accepted calls, h', disk') ∧
      StreamReady h' disk' dir type sub (ps ++ accepted calls) := by
  induction calls generalizing h disk ps with
  | nil => exact ⟨h, disk, rfl, by simpa [accepted] using ht⟩
  | cons c cs ih =>
    rw [accepted_cons] at hsize hlog ⊢
    rw [List.map_append, logSize_append] at hlog
    obtain ⟨res, h₁, disk₁, happ, hres, ht₁⟩ := ht.append c
      (fun p hp => hsize p (List.mem_append_left _ hp)) (by omega)
    obtain ⟨h₂, disk₂, hrun, ht₂⟩ := ih ht₁
      (fun p hp => hsize p (List.mem_append_right _ hp))
      (by rw [List.map_append, logSize_append]; omega)
    refine ⟨h₂, disk₂, ?_, by rw [← List.append_assoc]; exact ht₂⟩
    simp only [LogReplay.runLogCalls, happ, hrun, Option.some.injEq, Prod.mk.injEq, and_true]
    cases hc : c.accepted? with
    | none => rw [if_neg (by simp [hres, hc]), Option.toList_none, List.nil_append]
    | some p =>
      obtain rfl := (accepted?_eq_some hc).1
      rw [if_pos (by simp [hres, hc])]
      rfl

end Append

def mount [DecidableEq β] (fuel : ℕ) (base : β) (lsId : ℤ) (type : ObLogBaseType) (sub : κ)
    (disk : Disk (Option β × ℤ)) :
    Option (ℤ × ObLogService β κ × Option (ObLogHandler (Option β × ℤ) κ) ×
      Disk (Option β × ℤ)) :=
  match (ObLogService.new.init base).2.openLs fuel lsId disk with
  | none => none
  | some (ret, s, disk) =>
    match s.handlers lsId with
    | none => some (ret, s, none, disk)
    | some h =>
      let h := h.registerReplayHandler type sub
      some (ret, s.setHandler lsId h, some h, disk)

def Mounts [DecidableEq β] (base : β) (lsId : ℤ) (type : ObLogBaseType) (sub : κ)
    (disk : Disk (Option β × ℤ)) (s : ObLogService β κ) (h : ObLogHandler (Option β × ℤ) κ)
    (disk' : Disk (Option β × ℤ)) : Prop :=
  ∃ k, ∀ fuel, k ≤ fuel → mount fuel base lsId type sub disk = some (0, s, some h, disk')

theorem Mounts.unique [DecidableEq β] {base : β} {lsId : ℤ} {type : ObLogBaseType} {sub : κ}
    {disk disk₁ disk₂ : Disk (Option β × ℤ)} {s₁ s₂ : ObLogService β κ}
    {h₁ h₂ : ObLogHandler (Option β × ℤ) κ} (m₁ : Mounts base lsId type sub disk s₁ h₁ disk₁)
    (m₂ : Mounts base lsId type sub disk s₂ h₂ disk₂) : s₁ = s₂ ∧ h₁ = h₂ ∧ disk₁ = disk₂ := by
  simpa using eq_of_enough m₁ m₂

def Replays (call : κ → Bytes → ℕ → ℤ → σ → ℤ × σ) (lsId : ℤ) (s : ObLogService β κ)
    (disk : Disk (Option β × ℤ)) (st st' : σ) : Prop :=
  ∀ readBuf : Bytes, readBuf.length = readBufSize →
    ∃ k, ∀ fuel, k ≤ fuel → s.replayLs fuel call readBuf lsId disk st = some (0, st')

section Service

variable {base : β} {lsId : ℤ} {type : ObLogBaseType} {sub : κ}
  {disk disk' : Disk (Option β × ℤ)}

theorem replays_of_image (call : κ → Bytes → ℕ → ℤ → σ → ℤ × σ) {s : ObLogService β κ}
    {h : ObLogHandler (Option β × ℤ) κ} {impl : PalfHandleImpl (Option β × ℤ)}
    {dir : Option β × ℤ} {ps : List Bytes} (hs : s.handlers lsId = some h)
    (himpl : h.palfHandleImpl = some impl) (hr : ReadsLog impl dir)
    (hsub : h.replayHandlers type.code = some sub)
    (hend : impl.endLsn = logSize (ps.map (logBuf type)))
    (himage : LogImage disk dir palfBlockSize (ps.map (logBuf type)))
    (hsize : ∀ p ∈ ps, entrySize (logBuf type p) ≤ readBufSize)
    (hblock : logSize (ps.map (logBuf type)) ≤ palfBlockSize) (st : σ) :
    Replays call lsId s disk st (replayed call sub type 0 ps st) := by
  intro readBuf hbuf
  have hbegin : impl.logStorage.getBeginLsn = 0 := by
    simp [LogStorage.getBeginLsn, hr.minBlockId]
  obtain ⟨k, hk⟩ := replay_yields call hr hsub himage.stored hsize
    (by rw [Nat.zero_add]; exact hblock) hbuf st
  rw [Nat.zero_add] at hk
  refine ⟨k, fun fuel hfuel => ?_⟩
  simp only [replayLs, hs, himpl, hbegin, hend, run_mono hk hfuel, Option.map_some]

variable [DecidableEq β]

theorem mounts_of_opensAs (type : ObLogBaseType) (sub : κ)
    {impl : PalfHandleImpl (Option β × ℤ)}
    (hopen : OpensAs lsId (some base, lsId) disk impl disk') :
    ∃ s h, Mounts base lsId type sub disk s h disk' ∧ s.handlers lsId = some h ∧
      h.isInited = true ∧ h.replayHandlers type.code = some sub ∧
      h.palfHandleImpl = some impl := by
  obtain ⟨k, hk⟩ := hopen
  let h₀ : ObLogHandler (Option β × ℤ) κ :=
    { lsId := lsId, palfHandleImpl := some impl, isInited := true }
  let h := h₀.registerReplayHandler type sub
  let s : ObLogService β κ := ((ObLogService.new.init base).2.setHandler lsId h₀).setHandler lsId h
  refine ⟨s, h, ⟨k, fun fuel hfuel => ?_⟩, ?_, rfl, ?_, rfl⟩
  · simp only [mount, ObLogService.init, ObLogService.new, ObLogService.openLs,
      initHandler, hk fuel hfuel, setHandler, Bool.false_eq_true,
      ↓reduceIte, ne_eq, not_true_eq_false, Function.update_self]
    rfl
  · simp [s, setHandler]
  · simp [h, ObLogHandler.registerReplayHandler]

theorem mounts_empty (base : β) (lsId : ℤ) (type : ObLogBaseType) (sub : κ)
    (disk : Disk (Option β × ℤ)) (hempty : ∀ b, disk.entry ((some base, lsId), b) = none) :
    ∃ s h disk₀, Mounts base lsId type sub disk s h disk₀ ∧
      StreamReady h disk₀ (some base, lsId) type sub [] := by
  obtain ⟨impl, disk₀, hopen, htracks⟩ := opens_empty lsId hempty
  obtain ⟨s, h, hmount, -, hinit, hsub, hptr⟩ := mounts_of_opensAs type sub hopen
  exact ⟨s, h, disk₀, hmount, hinit, hsub, impl, hptr, htracks.appendable⟩

/-- Every acknowledged payload is replayed once and in order, in the same process and by a
new service on the same directory. -/
theorem replayLs_exactly_once (call : κ → Bytes → ℕ → ℤ → σ → ℤ × σ) (base : β) (lsId : ℤ)
    (type : ObLogBaseType) (sub : κ) (disk : Disk (Option β × ℤ)) (calls : List LogCall)
    (hempty : ∀ b, disk.entry ((some base, lsId), b) = none)
    (hsize : ∀ p ∈ accepted calls, entrySize (logBuf type p) ≤ 4096)
    (hblock : logSize ((accepted calls).map (logBuf type)) ≤ palfBlockSize) :
    ∃ s h disk₀ acked h' disk₁ s',
      Mounts base lsId type sub disk s h disk₀ ∧
      runLogCalls type calls h disk₀ = some (acked, h', disk₁) ∧
      (∀ st, Replays call lsId (s.setHandler lsId h') disk₁ st
        (replayed call sub type 0 acked st)) ∧
      (∃ h'', Mounts base lsId type sub disk₁ s' h'' disk₁) ∧
      ∀ st, Replays call lsId s' disk₁ st (replayed call sub type 0 acked st) := by
  obtain ⟨s, h, disk₀, hmount, ht⟩ := mounts_empty base lsId type sub disk hempty
  have hsmall : palfBlockSize < 2 ^ 64 := by decide
  obtain ⟨h', disk₁, hrun, ht'⟩ := ht.runLogCalls
    (fun p hp => lt_of_le_of_lt (hsize p hp) (by decide))
    (by simp only [List.map_nil, logSize_nil]; omega)
  rw [List.nil_append] at ht'
  obtain ⟨impl', hptr', himpl'⟩ := ht'.impl
  obtain ⟨impl'', hreopen, hreads, hend, -⟩ := opens_image lsId himpl'.image
  obtain ⟨s', h'', hmount', hs', -, hsub', hptr''⟩ := mounts_of_opensAs type sub hreopen
  have hscan : scanEnd palfBlockSize 0 ((accepted calls).map (logBuf type)) =
      logSize ((accepted calls).map (logBuf type)) := by
    rw [(scanEnd_eq_iff _ _ _).mpr (headersFit_of_le (by rw [Nat.zero_add]; exact hblock)),
      Nat.zero_add]
  refine ⟨s, h, disk₀, _, h', disk₁, s', hmount, hrun, ?_, ⟨h'', hmount'⟩, ?_⟩
  · exact replays_of_image call (by simp [setHandler]) hptr' himpl'.toReadsLog
      ht'.registered himpl'.endLsn himpl'.image hsize hblock
  · exact replays_of_image call hs' hptr'' hreads hsub' (hend.trans hscan) himpl'.image hsize hblock

def listing (_ : Unit) (p : Bytes) (_ : ℕ) (_ : ℤ) (seen : List Bytes) : ℤ × List Bytes :=
  (0, seen ++ [p])

/-- Two payloads and an empty one, which is refused. -/
def threeCalls : List LogCall :=
  [⟨[7], some fun _ => 0, some fun _ => 0⟩, ⟨[], some fun _ => 0, some fun _ => 0⟩,
    ⟨[8, 9], some fun _ => 0, some fun _ => 0⟩]

theorem replayLs_exactly_once_example :
    ∃ s h disk₀ h' disk₁ s',
      Mounts () 1 .tabletOpLogBaseType () FileSystem.blank s h disk₀ ∧
      runLogCalls .tabletOpLogBaseType threeCalls h disk₀ = some ([[7], [8, 9]], h', disk₁) ∧
      Replays listing 1 (s.setHandler 1 h') disk₁ [] [[7], [8, 9]] ∧
      (∃ h'', Mounts () 1 .tabletOpLogBaseType () disk₁ s' h'' disk₁) ∧
      Replays listing 1 s' disk₁ [] [[7], [8, 9]] := by
  obtain ⟨s, h, disk₀, acked, h', disk₁, s', hmount, hrun, hsame, hagain, hnew⟩ :=
    replayLs_exactly_once listing () 1 .tabletOpLogBaseType () FileSystem.blank threeCalls
      (fun _ => rfl) (by decide) (by decide)
  obtain ⟨_, _, _, hmount', ht⟩ := mounts_empty () 1 .tabletOpLogBaseType () FileSystem.blank
    fun _ => rfl
  obtain ⟨rfl, rfl, rfl⟩ := hmount.unique hmount'
  obtain ⟨_, _, hrun', -⟩ : ∃ g d, runLogCalls _ threeCalls _ _ = some (_, g, d) ∧ _ :=
    ht.runLogCalls (by decide) (by decide)
  cases hrun.symm.trans hrun'
  exact ⟨_, _, _, h', disk₁, s', hmount, hrun, hsame [], hagain, hnew []⟩

end Service

end LogReplay
