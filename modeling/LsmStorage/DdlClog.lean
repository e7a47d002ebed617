import LsmStorage.DdlService

/-! # The CLOG of the DDL service

What the service appends to its log stream is a list of records, whatever they say. An append
adds its record at the end, and a restart finds the list again and folds the replay over it, and
over the SLOG after that. -/
namespace DdlClog

open ByteCodec PosixFiles PalfLogEntry PalfLogStorage PalfHandle PalfRecovery LogService
open LogReplay SchemaService StorageLogger DdlService BoundedLoop

variable {β : Type*}

abbrev entryOf (record : Bytes) : Bytes := logBuf .ddlLogBaseType record

def Holds (base : β) (clog : Disk (Option β × ℤ)) (records : List Bytes) : Prop :=
  (records = [] ∧ ∀ b, clog.entry ((some base, ddlLsId), b) = none) ∨
    LogImage clog (some base, ddlLsId) palfBlockSize (records.map entryOf)

structure Readable (records : List Bytes) : Prop where
  entries : ∀ r ∈ records, entrySize (entryOf r) ≤ ObLogService.readBufSize
  block : logSize (records.map entryOf) ≤ palfBlockSize

structure Serves (base : β) (records : List Bytes) (n : Node β) : Prop where
  clog : Holds base n.clog records
  live : n.process.isInited = true → ∃ h, n.process.logService.handlers ddlLsId = some h ∧
    StreamReady h n.clog (some base, ddlLsId) .ddlLogBaseType () records

def replayAll (records : List Bytes) (s : ObSchemaService) : ObSchemaService :=
  replayed (fun _ : Unit => DdlService.replay) () .ddlLogBaseType 0 records s

def logged? (up : Bool) (record : Bytes) (malloc palfMalloc : Option (ℕ → UInt8)) :
    Option Bytes :=
  if up && malloc.isSome && palfMalloc.isSome then some record else none

variable {base : β} {records : List Bytes} {n : Node β} {clog : Disk (Option β × ℤ)}

theorem serves_new (hempty : ∀ b, clog.entry ((some base, ddlLsId), b) = none) :
    Serves base [] { clog } := by
  refine ⟨Or.inl ⟨rfl, hempty⟩, ?_⟩
  intro hinit
  cases hinit

theorem Serves.of_clog_eq {m : Node β} (h : Serves base records n) (hclog : m.clog = n.clog)
    (hservice : m.process.logService = n.process.logService)
    (hinit : m.process.isInited = n.process.isInited) : Serves base records m := by
  constructor
  · rw [hclog]
    exact h.clog
  · rw [hclog, hservice, hinit]
    exact h.live

theorem holds_of_streamReady {handler : ObLogHandler (Option β × ℤ) Unit}
    (hready : StreamReady handler clog (some base, ddlLsId) .ddlLogBaseType () records) :
    Holds base clog records := by
  obtain ⟨impl, -, happendable⟩ := hready.impl
  exact Or.inr happendable.image

theorem Readable.of_append {more : List Bytes} (h : Readable (records ++ more)) :
    Readable records := by
  constructor
  · intro r hr
    exact h.entries r (List.mem_append_left _ hr)
  · have hblock := h.block
    rw [List.map_append, logSize_append] at hblock
    exact Nat.le_of_add_right_le hblock

theorem accepted?_eq_logged? {record : Bytes} (hne : record ≠ [])
    (malloc palfMalloc : Option (ℕ → UInt8)) :
    LogCall.accepted? ⟨record, malloc, palfMalloc⟩ = logged? true record malloc palfMalloc := by
  cases malloc <;> cases palfMalloc <;> simp [LogCall.accepted?, logged?, hne]

theorem replays_records {service : ObLogService β Unit} {handler : ObLogHandler (Option β × ℤ) Unit}
    (hhandler : service.handlers ddlLsId = some handler)
    (hready : StreamReady handler clog (some base, ddlLsId) .ddlLogBaseType () records)
    (hreadable : Readable records) (s : ObSchemaService) :
    Replays (fun _ => DdlService.replay) ddlLsId service clog s (replayAll records s) := by
  obtain ⟨impl, himpl, happendable⟩ := hready.impl
  exact replays_of_image (fun _ => DdlService.replay) hhandler himpl happendable.toReadsLog
    hready.registered happendable.endLsn happendable.image hreadable.entries hreadable.block s

structure OnlyClog (n m : Node β) : Prop where
  slog : m.slog = n.slog
  schema : m.process.schema = n.process.schema
  isInited : m.process.isInited = n.process.isInited
  dropped : m.process.dropped = n.process.dropped
  acked : m.acked = n.acked

variable [DecidableEq β]

theorem Serves.appendRecord (h : Serves base records n) {record : Bytes} (hne : record ≠ [])
    {malloc palfMalloc : Option (ℕ → UInt8)}
    (hreadable : Readable
      (records ++ (logged? n.process.isInited record malloc palfMalloc).toList)) :
    ∃ ret m, n.appendRecord record malloc palfMalloc = some (ret, m) ∧ OnlyClog n m ∧
      (ret = 0 ↔ logged? n.process.isInited record malloc palfMalloc ≠ none) ∧
      Serves base (records ++ (logged? n.process.isInited record malloc palfMalloc).toList) m := by
  cases hinit : n.process.isInited with
  | false =>
    refine ⟨-1, n, ?_, ⟨rfl, rfl, rfl, rfl, rfl⟩, by simp [logged?], ?_⟩
    · rw [Node.appendRecord, hinit]
      rfl
    · simpa [logged?] using h
  | true =>
    rw [hinit, ← accepted?_eq_logged? hne] at hreadable
    obtain ⟨handler, hhandler, hready⟩ := h.live hinit
    have hlog : logSize (records.map entryOf) + logSize ((LogCall.accepted?
        ⟨record, malloc, palfMalloc⟩).toList.map entryOf) < 2 ^ 64 := by
      rw [← logSize_append, ← List.map_append]
      exact lt_of_le_of_lt hreadable.block (by decide)
    obtain ⟨res, handler', clog', happ, hret, hready'⟩ :=
      hready.append ⟨record, malloc, palfMalloc⟩
        (fun r hr => lt_of_le_of_lt (hreadable.entries r (List.mem_append_right _ hr)) (by decide))
        hlog
    rw [← accepted?_eq_logged? hne]
    refine ⟨res.ret, { n with
      clog := clog'
      process := { n.process with
        logService := n.process.logService.setHandler ddlLsId handler' } },
      ?_, ⟨rfl, rfl, rfl, rfl, rfl⟩, hret, ?_, ?_⟩
    · rw [Node.appendRecord, hinit, hhandler]
      simp only [Bool.not_true, Bool.false_eq_true, ↓reduceIte, happ]
    · exact holds_of_streamReady hready'
    · intro _
      exact ⟨handler', by simp [ObLogService.setHandler], hready'⟩

theorem mounts_records (h : Holds base clog records)
    (hblock : logSize (records.map entryOf) ≤ palfBlockSize) :
    ∃ service handler clog', Mounts base ddlLsId .ddlLogBaseType () clog service handler clog' ∧
      service.handlers ddlLsId = some handler ∧
      StreamReady handler clog' (some base, ddlLsId) .ddlLogBaseType () records := by
  have hopens : ∃ impl clog', OpensAs ddlLsId (some base, ddlLsId) clog impl clog' ∧
      Appendable impl clog' (some base, ddlLsId) (records.map entryOf) := by
    rcases h with ⟨rfl, hempty⟩ | himage
    · obtain ⟨impl, clog', hopen, htracks⟩ := opens_empty ddlLsId hempty
      exact ⟨impl, clog', hopen, htracks.appendable⟩
    · obtain ⟨impl, hopen, happendable⟩ := opens_appendable ddlLsId himage hblock
      exact ⟨impl, clog, hopen, happendable⟩
  obtain ⟨impl, clog', hopen, happendable⟩ := hopens
  obtain ⟨service, handler, hmount, hhandler, hinit, hsub, himpl⟩ :=
    mounts_of_opensAs .ddlLogBaseType () hopen
  exact ⟨service, handler, clog', hmount, hhandler, hinit, hsub, impl, himpl, happendable⟩

structure Restarts (base : β) (records : List Bytes) (n m : Node β) : Prop where
  restarts : ∀ stack, ∃ k, ∀ fuel, k ≤ fuel → n.restart fuel base stack = some m
  serves : Serves base records m
  schema : m.process.schema = (n.slog.acked.map ObStorageLogParam.entry).foldl replaySlogEntry
    (replayAll records {})
  clogAlone : Replays (fun _ => DdlService.replay) ddlLsId m.process.logService m.clog {}
    (replayAll records {})
  slog : m.slog = (n.slog.crash none).init.2
  isInited : m.process.isInited = true
  dropped : m.process.dropped = false
  acked : m.acked = n.acked

theorem Serves.restarts (h : Serves base records n) (hlogged : Logged n.slog)
    (hreadable : Readable records) : ∃ m, Restarts base records n m := by
  obtain ⟨service, handler, clog', ⟨k, hmount⟩, hhandler, hready⟩ :=
    mounts_records h.clog hreadable.block
  have hreplays := replays_records hhandler hready hreadable {}
  have hslog : Logged (n.slog.crash none).init.2 := hlogged.of_file_eq rfl rfl rfl
  let m : Node β := { n.crash with
    clog := clog'
    slog := (n.slog.crash none).init.2
    process := {
      logService := service
      schema := (n.slog.acked.map ObStorageLogParam.entry).foldl replaySlogEntry
        (replayAll records {})
      isInited := true } }
  refine ⟨m, ?_, ⟨holds_of_streamReady hready, fun _ => ⟨handler, hhandler, hready⟩⟩, rfl,
    hreplays, rfl, rfl, rfl, rfl⟩
  intro stack
  obtain ⟨k', hreplay⟩ := hreplays ((List.range ObLogService.readBufSize).map stack) (by simp)
  refine ⟨max k k', fun fuel hfuel => ?_⟩
  have hinit : n.crash.init fuel base =
      some (0, { m with process := { m.process with schema := {} } }) := by
    simp only [Node.init, Node.crash, Bool.false_eq_true, ↓reduceIte,
      hmount fuel (le_trans (le_max_left _ _) hfuel), ne_eq, not_true_eq_false]
    rfl
  rw [Node.restart, hinit]
  simp only [Node.recoverSchema, m, Bool.not_true, Bool.false_eq_true, ↓reduceIte,
    hreplay fuel (le_trans (le_max_right _ _) hfuel), ne_eq, not_true_eq_false]
  rw [hslog.delivers]
  rfl

end DdlClog
