import LsmStorage.DdlClog

/-! # What a restart recovers of the databases

The CLOG holds the names of the CREATEs in their order, and a restart folds the creation with
its duplicate check over them from an empty schema. The SLOG only holds names that are in the
CLOG, so its replay adds nothing. The live schema is that fold as well, until a DROP takes a
database away that the logs still name. -/
namespace DdlRecovery

open ByteCodec PosixFiles PalfLogEntry PalfLogStorage PalfHandle PalfRecovery LogService FileSystem
open LogReplay SchemaService StorageLogger DdlService BoundedLoop
open DdlClog (Serves Readable Restarts logged? replayAll)

variable {β : Type*}

def NameOk (name : Bytes) : Prop := 0 ∉ name ∧ name.length ≤ 127

instance : DecidablePred NameOk := fun _ => inferInstanceAs (Decidable (_ ∧ _))

section Records

theorem cString_append_zeros {name : Bytes} (h : 0 ∉ name) (k : ℕ) :
    cString (name ++ List.replicate k 0) = name := by
  have hall : ∀ b ∈ name, decide (b ≠ 0) = true := by
    intro b hb
    rw [decide_eq_true_eq]
    rintro rfl
    exact h hb
  rw [cString, List.takeWhile_append_of_pos hall]
  cases k with
  | zero => simp
  | succ k => simp [List.replicate_succ]

theorem cString_of_ok {name : Bytes} (h : NameOk name) : cString name = name := by
  have := cString_append_zeros h.1 0
  rwa [List.replicate_zero, List.append_nil] at this

theorem replay_record (type : ℕ) (htype : type < 256 ^ 8) {name : Bytes} (h : NameOk name)
    (rest : Bytes) (lsn : ℕ) (scn : ℤ) (s : ObSchemaService) :
    DdlService.replay (toLE 8 type ++ (toLE 8 name.length ++ (name ++ rest))) lsn scn s =
      if type = createDatabaseType then (0, (ddlCreateDatabase name s).2.2)
      else if type = createTableType then
        (0, (s.createTable { tableName := storedName name, databaseId := ofLE (rest.take 8) }).2)
      else (0, s) := by
  have hlen : name.length < 256 ^ 8 := lt_of_le_of_lt h.2 (by decide)
  have hne : toLE 8 type ++ (toLE 8 name.length ++ (name ++ rest)) ≠ [] := by simp [toLE]
  obtain ⟨htypeField, hlenField, hnameField, hrestField⟩ := slices_of_record type name rest
  rw [DdlService.replay, if_neg hne]
  dsimp only
  rw [htypeField, hlenField, ofLE_toLE_of_lt htype, ofLE_toLE_of_lt hlen, hnameField,
    nameBuffer_eq (le_trans h.2 (by decide)), cString_append_zeros h.1, hrestField]

theorem replay_payload {name : Bytes} (h : NameOk name) (lsn : ℕ) (scn : ℤ)
    (s : ObSchemaService) :
    DdlService.replay (payload name) lsn scn s = (0, (ddlCreateDatabase name s).2.2) := by
  have hreplay := replay_record createDatabaseType (by decide) h [] lsn scn s
  rwa [List.append_nil, if_pos rfl] at hreplay

theorem replayed_payloads {names : List Bytes} (h : ∀ name ∈ names, NameOk name) (lsn : ℕ)
    (s : ObSchemaService) :
    replayed (fun _ : Unit => DdlService.replay) () .ddlLogBaseType lsn (names.map payload) s =
      createAll names s := by
  induction names generalizing lsn s with
  | nil => rfl
  | cons name names ih =>
    rw [List.map_cons, replayed, replay_payload (h name List.mem_cons_self)]
    exact ih (fun n hn => h n (List.mem_cons_of_mem name hn)) _ _

theorem foldl_replaySlogEntry {names : List Bytes} (h : ∀ name ∈ names, NameOk name)
    (s : ObSchemaService) :
    (names.map fun name => (slogParam name).entry).foldl replaySlogEntry s =
      createAll names s := by
  induction names generalizing s with
  | nil => rfl
  | cons name names ih =>
    have hentry : replaySlogEntry s (slogParam name).entry = (ddlCreateDatabase name s).2.2 := by
      show (if slogCreateDatabase = slogCreateDatabase then
        (ddlCreateDatabase (cString name) s).2.2 else s) = _
      rw [if_pos rfl, cString_of_ok (h name List.mem_cons_self)]
    rw [List.map_cons, List.foldl_cons, hentry]
    exact ih (fun n hn => h n (List.mem_cons_of_mem name hn)) _

def ddlEntry (name : Bytes) : Bytes := logBuf .ddlLogBaseType (payload name)

theorem entrySize_ddlEntry (name : Bytes) : entrySize (ddlEntry name) = 80 + name.length := by
  rw [entrySize, ddlEntry, length_logBuf, length_payload, LogGroupEntryHeader.getSerializeSize]
  omega

theorem entrySize_le_of_ok {name : Bytes} (h : NameOk name) : entrySize (ddlEntry name) ≤ 207 := by
  have hle := h.2
  rw [entrySize_ddlEntry]
  omega

theorem map_logBuf_payload (names : List Bytes) :
    (names.map payload).map (logBuf .ddlLogBaseType) = names.map ddlEntry := by
  rw [List.map_map]
  rfl

/-- The names that the CLOG can hold and give back. -/
structure Loggable (names : List Bytes) : Prop where
  ok : ∀ name ∈ names, NameOk name
  block : logSize (names.map ddlEntry) ≤ palfBlockSize

theorem Loggable.of_append {as bs : List Bytes} (h : Loggable (as ++ bs)) : Loggable as := by
  refine ⟨fun name hname => h.ok name (List.mem_append_left _ hname), le_trans ?_ h.block⟩
  rw [List.map_append, logSize_append]
  exact Nat.le_add_right _ _

theorem Loggable.readable {names : List Bytes} (h : Loggable names) :
    Readable (names.map payload) := by
  constructor
  · intro r hr
    obtain ⟨name, hname, rfl⟩ := List.mem_map.mp hr
    exact le_trans (entrySize_le_of_ok (h.ok name hname)) (by decide)
  · rw [map_logBuf_payload]
    exact h.block

/-- What the names of the CLOG become when `new` is logged. -/
structure Grows (names : List Bytes) (new : Option Bytes) (names' : List Bytes) : Prop where
  eq : names' = names ++ new.toList
  loggable : Loggable names'

end Records

section Slog

structure SlogHolds (names : List Bytes) (slog : Slog) : Prop where
  logged : Logged slog
  whole : slog.cut = false
  names : ∃ logged : List Bytes, slog.acked = logged.map slogParam ∧ logged ⊆ names

variable {names : List Bytes} {n : Node β}

theorem slogHolds_new : SlogHolds [] {} := ⟨logged_new, rfl, [], rfl, List.Subset.refl _⟩

theorem SlogHolds.mono {more : List Bytes} {slog : Slog} (h : SlogHolds names slog)
    (hsub : names ⊆ more) : SlogHolds more slog := by
  obtain ⟨logged, hacked, hnames⟩ := h.names
  exact ⟨h.logged, h.whole, logged, hacked, List.Subset.trans hnames hsub⟩

theorem SlogHolds.restart {slog : Slog} (h : SlogHolds names slog) :
    SlogHolds names (slog.crash none).init.2 :=
  ⟨h.logged.of_file_eq rfl rfl rfl, h.whole, h.names⟩

theorem writeSlog_refused {name : Bytes} {slogOk : Bool}
    (h : ¬ (n.slog.logger.isInited = true ∧ slogOk = true)) : n.writeSlog name slogOk = n := by
  cases slogOk with
  | false => simp [Node.writeSlog, Slog.writeLog]
  | true =>
    have hinit : n.slog.logger.isInited = false := by simpa using h
    simp [Node.writeSlog, Slog.writeLog, hinit]

theorem SlogHolds.writeSlog (h : SlogHolds names n.slog) {name : Bytes} (hname : name ∈ names)
    (hok : NameOk name) (slogOk : Bool) : SlogHolds names (n.writeSlog name slogOk).slog := by
  have hsmall : (slogParam name).data.length < 2 ^ 31 := lt_of_le_of_lt hok.2 (by decide)
  obtain ⟨logged, hacked, hsub⟩ := h.names
  have hparam : (logged ++ [name]).map slogParam = n.slog.acked ++ [slogParam name] := by
    rw [hacked, List.map_append, List.map_singleton]
  have hsub' : logged ++ [name] ⊆ names :=
    List.append_subset.mpr ⟨hsub, List.cons_subset.mpr ⟨hname, List.nil_subset _⟩⟩
  by_cases hwrites : n.slog.logger.isInited = true ∧ slogOk = true
  · obtain ⟨hinit, rfl⟩ := hwrites
    have hwrite : (n.writeSlog name true).slog =
        { n.slog.put (slogParam name) (slogParam name).image.length with
          acked := n.slog.acked ++ [slogParam name] } := by
      simp [Node.writeSlog, Slog.writeLog, hinit, Slog.put]
    have hcut : n.slog.cut = true → (slogParam name).image.length = 0 := by
      rw [h.whole]
      exact fun hc => absurd hc (by decide)
    rw [hwrite]
    refine ⟨h.logged.put_all hsmall hcut, ?_, logged ++ [name], hparam.symm, hsub'⟩
    simp [Slog.put, h.whole]
  · rw [writeSlog_refused hwrites]
    exact h

theorem SlogHolds.replay_eq {slog : Slog} (h : SlogHolds names slog)
    (hok : ∀ name ∈ names, NameOk name) {s : ObSchemaService}
    (hs : ∀ name ∈ names, Holds s name) :
    (slog.acked.map ObStorageLogParam.entry).foldl replaySlogEntry s = s := by
  obtain ⟨logged, hacked, hsub⟩ := h.names
  rw [hacked, List.map_map]
  have hcreate := foldl_replaySlogEntry (fun name hname => hok name (hsub hname)) s
  exact hcreate.trans (createAll_of_holds fun name hname => hs name (hsub hname))

end Slog

structure Consistent (base : β) (names : List Bytes) (n : Node β) : Prop where
  serves : Serves base (names.map payload) n
  slog : SlogHolds names n.slog

section Steps

variable {base : β} {names : List Bytes} {n : Node β}

theorem Consistent.crash (h : Consistent base names n) : Consistent base names n.crash := by
  refine ⟨⟨h.serves.clog, ?_⟩, h.slog.logged.of_file_eq rfl rfl rfl, h.slog.whole, h.slog.names⟩
  intro hinit
  cases hinit

theorem Consistent.of_logs {m : Node β} (h : Consistent base names n) (hclog : m.clog = n.clog)
    (hslog : m.slog = n.slog) (hservice : m.process.logService = n.process.logService)
    (hinit : m.process.isInited = n.process.isInited) : Consistent base names m :=
  ⟨h.serves.of_clog_eq hclog hservice hinit, hslog ▸ h.slog⟩

theorem logged?_payload (up : Bool) (name : Bytes) (malloc palfMalloc : Option (ℕ → UInt8)) :
    logged? up (payload name) malloc palfMalloc =
      (logged? up name malloc palfMalloc).map payload := by
  unfold logged?
  split <;> rfl

variable [DecidableEq β]

theorem appendClog_consistent (h : Consistent base names n) {name : Bytes}
    {malloc palfMalloc : Option (ℕ → UInt8)} {names' : List Bytes}
    (hgrows : Grows names (logged? n.process.isInited name malloc palfMalloc) names') :
    ∃ ret m, n.appendClog name malloc palfMalloc = some (ret, m) ∧
      (ret = 0 ↔ logged? n.process.isInited name malloc palfMalloc ≠ none) ∧
      Consistent base names' m ∧ m.process.schema = n.process.schema ∧
      m.process.isInited = n.process.isInited ∧ m.process.dropped = n.process.dropped ∧
      m.acked = n.acked := by
  have hne : payload name ≠ [] := by simp [payload, toLE]
  have hpayloads : names'.map payload = names.map payload ++
      (logged? n.process.isInited (payload name) malloc palfMalloc).toList := by
    rw [hgrows.eq, List.map_append, logged?_payload]
    cases logged? n.process.isInited name malloc palfMalloc <;> rfl
  obtain ⟨ret, m, happ, honly, hret, hserves⟩ := h.serves.appendRecord hne
    (by rw [← hpayloads]; exact hgrows.loggable.readable)
  rw [← hpayloads] at hserves
  rw [logged?_payload, ne_eq, Option.map_eq_none_iff] at hret
  have hslog : SlogHolds names' m.slog := by
    rw [hgrows.eq, honly.slog]
    exact h.slog.mono (List.subset_append_left _ _)
  exact ⟨ret, m, happ, hret, ⟨hserves, hslog⟩, honly.schema, honly.isInited, honly.dropped,
    honly.acked⟩

structure Restarted (base : β) (names : List Bytes) (n m : Node β) : Prop where
  restarts : Restarts base (names.map payload) n m
  slog : SlogHolds names m.slog
  created : m.process.schema = createAll names {}
  clogAlone : Replays (fun _ => DdlService.replay) ddlLsId m.process.logService m.clog {}
    m.process.schema

theorem restart_consistent (h : Consistent base names n) (hlog : Loggable names) :
    ∃ m, Restarted base names n m := by
  obtain ⟨m, hm⟩ := h.serves.restarts h.slog.logged hlog.readable
  have hreplay : replayAll (names.map payload) {} = createAll names {} :=
    replayed_payloads hlog.ok 0 {}
  have hschema := hm.schema
  -- every name of the SLOG is in the CLOG
  rw [hreplay, h.slog.replay_eq hlog.ok
    (holds_createAll wellNumbered_new fun name hname => (hlog.ok name hname).2)] at hschema
  have hclog := hm.clogAlone
  rw [hreplay, ← hschema] at hclog
  exact ⟨m, hm, hm.slog ▸ h.slog.restart, hschema, hclog⟩

end Steps

section Schema

variable {names : List Bytes} {n : Node β}

/-- Without a DROP the live schema is the fold over the CLOG. Once a DROP has met a database,
its id is missing for good, while the fold still has it. -/
structure Live (names : List Bytes) (n : Node β) : Prop where
  numbered : WellNumbered n.process.schema
  clean : n.process.isInited = true → n.process.dropped = false →
    n.process.schema = createAll names {}
  gone : n.process.isInited = true → n.process.dropped = true →
    ∃ p ∈ (createAll names {}).databases, p.1 < n.process.schema.nextDatabaseId ∧
      ∀ q ∈ n.process.schema.databases, q.1 ≠ p.1

theorem live_of_down (names : List Bytes) (hnew : n.process = {}) : Live names n := by
  have hdown : ¬ n.process.isInited = true := by simp [hnew]
  refine ⟨?_, fun hinit => absurd hinit hdown, fun hinit => absurd hinit hdown⟩
  rw [hnew]
  exact wellNumbered_new

theorem Live.of_process_eq {m : Node β} (h : Live names n)
    (hschema : m.process.schema = n.process.schema)
    (hinit : m.process.isInited = n.process.isInited)
    (hdropped : m.process.dropped = n.process.dropped) : Live names m := by
  refine ⟨hschema ▸ h.numbered, ?_, ?_⟩ <;> rw [hschema, hinit, hdropped]
  exacts [h.clean, h.gone]

theorem ddlCreateDatabase_ids {s : ObSchemaService} (hs : WellNumbered s) (name : Bytes) :
    s.nextDatabaseId ≤ (ddlCreateDatabase name s).2.2.nextDatabaseId ∧
      ∀ q ∈ (ddlCreateDatabase name s).2.2.databases,
        q ∈ s.databases ∨ q.1 = s.nextDatabaseId := by
  by_cases h : Holds s name
  · rw [ddlCreateDatabase_of_holds h]
    exact ⟨le_rfl, fun q hq => Or.inl hq⟩
  · rw [ddlCreateDatabase_of_not_holds h]
    refine ⟨Nat.le_succ _, ?_⟩
    intro q hq
    rw [databases_createDatabase hs] at hq
    rcases List.mem_append.mp hq with hold | hnew
    · exact Or.inl hold
    · exact Or.inr (by rw [List.mem_singleton.mp hnew])

theorem Live.updateSchema (h : Live names n) (name : Bytes) :
    Live (names ++ [name]) (n.updateSchema name).2.2 := by
  have hgrow := prefix_createAll (wellNumbered_createAll wellNumbered_new names) [name]
  rw [← createAll_append] at hgrow
  obtain ⟨hnext, hids⟩ := ddlCreateDatabase_ids h.numbered name
  constructor
  · exact wellNumbered_ddlCreateDatabase h.numbered name
  · intro hinit hdropped
    show (ddlCreateDatabase name n.process.schema).2.2 = _
    rw [h.clean hinit hdropped]
    exact (createAll_append names [name] {}).symm
  · intro hinit hdropped
    obtain ⟨p, hp, hlt, hgone⟩ := h.gone hinit hdropped
    refine ⟨p, hgrow.subset hp, lt_of_lt_of_le hlt hnext, ?_⟩
    intro q hq
    rcases hids q hq with hold | hnew
    · exact hgone q hold
    · rw [hnew]
      exact (Nat.ne_of_lt hlt).symm

theorem Live.dropDatabase (h : Live names n) (name : Bytes) :
    Live names (n.dropDatabase name) := by
  by_cases hname : Holds n.process.schema name
  · have hdrop : n.process.schema.dropDatabase name = (0, { n.process.schema with
        databases := n.process.schema.databases.eraseP (ObSchemaService.hasName name) }) := by
      rw [ObSchemaService.dropDatabase, if_pos (any_hasName.mpr hname)]
    have hnumbered := wellNumbered_dropDatabase h.numbered name
    simp only [Node.dropDatabase, hdrop] at hnumbered ⊢
    refine ⟨hnumbered, ?_, ?_⟩
    · intro _ hdropped
      simp at hdropped
    · intro hinit _
      cases hd : n.process.dropped with
      | true =>
        obtain ⟨p, hp, hlt, hgone⟩ := h.gone hinit hd
        exact ⟨p, hp, hlt, fun q hq => hgone q (List.mem_of_mem_eraseP hq)⟩
      | false =>
        obtain ⟨p, hp, hgone⟩ := exists_dropped_id h.numbered hname
        refine ⟨p, ?_, h.numbered.below p hp, hgone⟩
        rw [← h.clean hinit hd]
        exact hp
  · have hdrop : n.process.schema.dropDatabase name = (-1, n.process.schema) := by
      rw [ObSchemaService.dropDatabase, if_neg (mt any_hasName.mp hname)]
    refine h.of_process_eq ?_ rfl ?_
    · simp only [Node.dropDatabase, hdrop]
    · simp [Node.dropDatabase, hdrop]

end Schema

section Runs

variable {base : β} {names names' : List Bytes} {n : Node β} {name : Bytes}
  {malloc palfMalloc : Option (ℕ → UInt8)}

theorem logged?_eq_some {up : Bool} (h : logged? up name malloc palfMalloc ≠ none) :
    logged? up name malloc palfMalloc = some name ∧ up = true := by
  unfold logged? at h ⊢
  split at h
  · rename_i hall
    rw [if_pos hall]
    simp only [Bool.and_eq_true] at hall
    exact ⟨rfl, hall.1.1⟩
  · exact absurd rfl h

def clogName? (up : Bool) : DdlEvent → Option Bytes
  | .create name malloc palfMalloc _ => logged? up name malloc palfMalloc
  | .crashInCreate name malloc palfMalloc point =>
    if point = .beforeClog then none else logged? up name malloc palfMalloc
  | _ => none

def upAfter (up : Bool) : DdlEvent → Bool
  | .create .. => up
  | .crashInCreate .. => false
  | .crash => false
  | .restart _ => true
  | .drop _ => up

def clogNames : Bool → List DdlEvent → List Bytes
  | _, [] => []
  | up, e :: es => (clogName? up e).toList ++ clogNames (upAfter up e) es

def IsDrop : DdlEvent → Prop
  | .drop _ => True
  | _ => False

structure Inv (base : β) (names : List Bytes) (n : Node β) : Prop where
  consistent : Consistent base names n
  live : Live names n

structure Acked (names : List Bytes) (n : Node β) : Prop where
  dropped : n.process.dropped = false
  present : ∀ p ∈ n.acked, (p.1, ⟨p.1, p.2⟩) ∈ (createAll names {}).databases

variable {m : Node β}

theorem Acked.of_acked_eq (h : Acked names n) (hgrow : names <+: names')
    (hdropped : m.process.dropped = false) (hacked : m.acked = n.acked) : Acked names' m := by
  obtain ⟨more, rfl⟩ := hgrow
  refine ⟨hdropped, ?_⟩
  intro p hp
  rw [hacked] at hp
  rw [createAll_append]
  exact (prefix_createAll (wellNumbered_createAll wellNumbered_new names) more).subset
    (h.present p hp)

theorem inv_new {clog : Disk (Option β × ℤ)}
    (hempty : ∀ b, clog.entry ((some base, ddlLsId), b) = none) :
    Inv base [] { clog } := by
  exact ⟨⟨DdlClog.serves_new hempty, slogHolds_new⟩, live_of_down _ rfl⟩

theorem updateSchema_spec (hcons : Consistent base (names ++ [name]) m) (hlive : Live names m)
    (hok : NameOk name) (slogOk : Bool) :
    (m.updateSchema name = (-1, none, m) ∧ Inv base (names ++ [name]) m) ∨
    ∃ id m', m.updateSchema name = (0, some id, m') ∧
      Inv base (names ++ [name]) (m'.writeSlog name slogOk) ∧
      (id, ⟨id, name⟩) ∈ m'.process.schema.databases ∧
      m'.process.isInited = m.process.isInited ∧ m'.process.dropped = m.process.dropped ∧
      m'.acked = m.acked := by
  have hmem : name ∈ names ++ [name] := List.mem_append_right _ List.mem_cons_self
  have hlive' := hlive.updateSchema name
  have hcons' : Consistent base (names ++ [name]) (m.updateSchema name).2.2 :=
    hcons.of_logs rfl rfl rfl rfl
  by_cases hdup : Holds m.process.schema name
  · have hupdate : m.updateSchema name = (-1, none, m) := by
      rw [Node.updateSchema, ddlCreateDatabase_of_holds hdup]
    rw [hupdate] at hlive'
    exact Or.inl ⟨hupdate, hcons, hlive'⟩
  · refine Or.inr ⟨m.process.schema.nextDatabaseId, (m.updateSchema name).2.2, ?_,
      ⟨⟨hcons'.serves.of_clog_eq rfl rfl rfl, hcons'.slog.writeSlog hmem hok slogOk⟩,
        hlive'.of_process_eq rfl rfl rfl⟩, ?_, rfl, rfl, rfl⟩
    · rw [Node.updateSchema, ddlCreateDatabase_of_not_holds hdup]
    · show _ ∈ (ddlCreateDatabase name m.process.schema).2.2.databases
      rw [ddlCreateDatabase_of_not_holds hdup, databases_createDatabase hlive.numbered,
        storedName_of_le hok.2]
      exact List.mem_append_right _ List.mem_cons_self

variable [DecidableEq β]

theorem createDatabase_spec (h : Inv base names n) (slogOk : Bool)
    (hgrows : Grows names (logged? n.process.isInited name malloc palfMalloc) names') :
    ∃ ret id m, n.createDatabase name malloc palfMalloc slogOk = some (ret, id, m) ∧
      Inv base names' m ∧ m.process.isInited = n.process.isInited ∧
      m.process.dropped = n.process.dropped ∧ m.acked = n.acked ∧
      (ret = 0 → m.process.isInited = true ∧
        ∃ i, id = some i ∧ (i, ⟨i, name⟩) ∈ m.process.schema.databases) := by
  obtain ⟨ret, m, happ, hret, hcons, hschema, hinit, hdropped, hacked⟩ :=
    appendClog_consistent h.consistent hgrows
  have hlive : Live names m := h.live.of_process_eq hschema hinit hdropped
  by_cases hzero : ret = 0
  · obtain ⟨hlogged, hup⟩ := logged?_eq_some (hret.mp hzero)
    obtain ⟨rfl, hlog⟩ := hlogged ▸ hgrows
    have hname : NameOk name := hlog.ok name (List.mem_append_right _ List.mem_cons_self)
    have hcreate : n.createDatabase name malloc palfMalloc slogOk =
        if (m.updateSchema name).1 ≠ 0 then some ((m.updateSchema name).1, none,
          (m.updateSchema name).2.2)
        else some (0, (m.updateSchema name).2.1,
          (m.updateSchema name).2.2.writeSlog name slogOk) := by
      rw [Node.createDatabase, happ]
      exact if_neg (not_not.mpr hzero)
    rcases updateSchema_spec hcons hlive hname slogOk with
      ⟨hupdate, hinv⟩ | ⟨id, m', hupdate, hinv, hmem, hinit', hdropped', hacked'⟩
    · rw [hupdate, if_pos (by simp)] at hcreate
      refine ⟨-1, none, m, hcreate, hinv, hinit, hdropped, hacked, ?_⟩
      intro hfalse
      cases hfalse
    · rw [hupdate, if_neg (by simp)] at hcreate
      exact ⟨0, some id, m'.writeSlog name slogOk, hcreate, hinv, hinit'.trans hinit,
        hdropped'.trans hdropped, hacked'.trans hacked,
        fun _ => ⟨(hinit'.trans hinit).trans hup, id, rfl, hmem⟩⟩
  · have hlogged : logged? n.process.isInited name malloc palfMalloc = none := by
      by_contra hne
      exact hzero (hret.mpr hne)
    have heq := hgrows.eq
    rw [hlogged, Option.toList_none, List.append_nil] at heq
    refine ⟨ret, none, m, ?_, ⟨hcons, heq ▸ hlive⟩, hinit, hdropped, hacked, ?_⟩
    · rw [Node.createDatabase, happ]
      dsimp only
      rw [if_pos hzero]
    · intro hret0
      exact absurd hret0 hzero

theorem create_inv (h : Inv base names n) (slogOk : Bool)
    (hgrows : Grows names (logged? n.process.isInited name malloc palfMalloc) names') :
    ∃ m, n.create name malloc palfMalloc slogOk = some m ∧ Inv base names' m ∧
      m.process.isInited = n.process.isInited ∧ (Acked names n → Acked names' m) := by
  obtain ⟨ret, id, m, hcreate, hinv, hinit, hdropped, hacked, hnew⟩ :=
    createDatabase_spec h slogOk hgrows
  have hgrow : names <+: names' := ⟨_, hgrows.eq.symm⟩
  by_cases hzero : ret = 0
  · obtain ⟨hup, i, rfl, hmem⟩ := hnew hzero
    refine ⟨{ m with acked := m.acked ++ [(i, name)] }, ?_,
      ⟨hinv.consistent.of_logs rfl rfl rfl rfl, hinv.live.of_process_eq rfl rfl rfl⟩, hinit, ?_⟩
    · simp [Node.create, hcreate, hzero]
    · intro hack
      have hack' := hack.of_acked_eq hgrow (hdropped.trans hack.dropped) hacked
      refine ⟨hack'.dropped, ?_⟩
      intro p hp
      rcases List.mem_append.mp hp with hold | hlast
      · exact hack'.present p hold
      · rw [List.mem_singleton.mp hlast, ← hinv.live.clean hup hack'.dropped]
        exact hmem
  · refine ⟨m, by simp [Node.create, hcreate, hzero], hinv, hinit, ?_⟩
    intro hack
    exact hack.of_acked_eq hgrow (hdropped.trans hack.dropped) hacked

theorem createUntil_consistent (h : Inv base names n) {point : CrashPoint}
    (hgrows : Grows names (if point = .beforeClog then none
      else logged? n.process.isInited name malloc palfMalloc) names') :
    ∃ m, n.createUntil name malloc palfMalloc point = some m ∧ Consistent base names' m ∧
      m.acked = n.acked := by
  cases point with
  | beforeClog =>
    have heq : names' = names := hgrows.eq.trans (List.append_nil _)
    exact ⟨n, rfl, heq ▸ h.consistent, rfl⟩
  | afterClog =>
    obtain ⟨ret, m, happ, -, hcons, -, -, -, hacked⟩ :=
      appendClog_consistent h.consistent hgrows
    exact ⟨m, by simp [Node.createUntil, happ], hcons, hacked⟩
  | afterSchema =>
    obtain ⟨ret, m, happ, -, hcons, -, -, -, hacked⟩ :=
      appendClog_consistent h.consistent hgrows
    by_cases hzero : ret = 0
    · exact ⟨(m.updateSchema name).2.2, by simp [Node.createUntil, happ, hzero],
        hcons.of_logs rfl rfl rfl rfl, hacked⟩
    · exact ⟨m, by simp [Node.createUntil, happ, hzero], hcons, hacked⟩
  | afterSlog =>
    obtain ⟨ret, id, m, hcreate, hinv, -, -, hacked, -⟩ :=
      createDatabase_spec h true hgrows
    exact ⟨m, by simp [Node.createUntil, hcreate], hinv.consistent, hacked⟩

def Leads (base : β) (e : DdlEvent) (n m : Node β) : Prop :=
  ∃ k, ∀ fuel, k ≤ fuel → n.step fuel base e = some m

theorem step_inv (h : Inv base names n) (e : DdlEvent)
    (hgrows : Grows names (clogName? n.process.isInited e) names') :
    ∃ m, Leads base e n m ∧ Inv base names' m ∧
      m.process.isInited = upAfter n.process.isInited e ∧
      (¬ IsDrop e → Acked names n → Acked names' m) := by
  cases e with
  | create name malloc palfMalloc slogOk =>
    obtain ⟨m, hcreate, hinv, hinit, hack⟩ := create_inv h slogOk hgrows
    exact ⟨m, ⟨0, fun _ _ => hcreate⟩, hinv, hinit, fun _ => hack⟩
  | crashInCreate name malloc palfMalloc point =>
    obtain ⟨m, hcreate, hcons, hacked⟩ := createUntil_consistent h hgrows
    refine ⟨m.crash, ⟨0, fun _ _ => by simp [Node.step, hcreate]⟩,
      ⟨hcons.crash, live_of_down _ rfl⟩, rfl, ?_⟩
    intro _ hack
    exact hack.of_acked_eq ⟨_, hgrows.eq.symm⟩ rfl hacked
  | crash =>
    obtain rfl : names' = names := hgrows.eq.trans (List.append_nil _)
    exact ⟨n.crash, ⟨0, fun _ _ => rfl⟩, ⟨h.consistent.crash, live_of_down _ rfl⟩, rfl,
      fun _ hack => hack.of_acked_eq List.prefix_rfl rfl rfl⟩
  | restart stack =>
    obtain rfl : names' = names := hgrows.eq.trans (List.append_nil _)
    obtain ⟨m, hm⟩ := restart_consistent h.consistent hgrows.loggable
    refine ⟨m, hm.restarts.restarts stack, ⟨⟨hm.restarts.serves, hm.slog⟩, ?_⟩,
      hm.restarts.isInited, ?_⟩
    · refine ⟨?_, fun _ _ => hm.created, ?_⟩
      · rw [hm.created]
        exact wellNumbered_createAll wellNumbered_new names'
      · intro _ hdropped
        rw [hm.restarts.dropped] at hdropped
        cases hdropped
    · intro _ hack
      exact hack.of_acked_eq List.prefix_rfl hm.restarts.dropped hm.restarts.acked
  | drop name =>
    obtain rfl : names' = names := hgrows.eq.trans (List.append_nil _)
    exact ⟨n.dropDatabase name, ⟨0, fun _ _ => rfl⟩,
      ⟨h.consistent.of_logs rfl rfl rfl rfl, h.live.dropDatabase name⟩, rfl,
      fun hdrop => absurd trivial hdrop⟩

def RunsTo (base : β) (events : List DdlEvent) (n m : Node β) : Prop :=
  ∃ k, ∀ fuel, k ≤ fuel → n.run fuel base events = some m

theorem run_append (fuel : ℕ) (es fs : List DdlEvent) (n : Node β) :
    n.run fuel base (es ++ fs) = (n.run fuel base es).bind fun m => m.run fuel base fs := by
  induction es generalizing n with
  | nil => rfl
  | cons e es ih =>
    rw [List.cons_append, Node.run, Node.run]
    cases n.step fuel base e with
    | none => rfl
    | some m => exact ih m

theorem RunsTo.append {es fs : List DdlEvent} {l : Node β} (h : RunsTo base es n m)
    (h' : RunsTo base fs m l) : RunsTo base (es ++ fs) n l := by
  obtain ⟨k, hk⟩ := h
  obtain ⟨k', hk'⟩ := h'
  refine ⟨max k k', fun fuel hfuel => ?_⟩
  rw [run_append, hk fuel (le_trans (le_max_left _ _) hfuel), Option.bind_some]
  exact hk' fuel (le_trans (le_max_right _ _) hfuel)

theorem Leads.runsTo {e : DdlEvent} (h : Leads base e n m) :
    RunsTo base [e] n m := by
  obtain ⟨k, hk⟩ := h
  exact ⟨k, fun fuel hfuel => by rw [Node.run, hk fuel hfuel]; rfl⟩

theorem run_inv (h : Inv base names n) (events : List DdlEvent)
    (hlog : Loggable (names ++ clogNames n.process.isInited events)) :
    ∃ m, RunsTo base events n m ∧
      Inv base (names ++ clogNames n.process.isInited events) m ∧
      m.process.isInited = events.foldl upAfter n.process.isInited ∧
      ((∀ e ∈ events, ¬ IsDrop e) → Acked names n →
        Acked (names ++ clogNames n.process.isInited events) m) := by
  induction events generalizing names n with
  | nil =>
    rw [clogNames, List.append_nil]
    exact ⟨n, ⟨0, fun _ _ => rfl⟩, h, rfl, fun _ hack => hack⟩
  | cons e es ih =>
    rw [clogNames, ← List.append_assoc] at hlog ⊢
    obtain ⟨m, hlead, hinv, hup, hack⟩ := step_inv h e ⟨rfl, hlog.of_append⟩
    rw [List.foldl_cons, ← hup]
    rw [← hup] at hlog
    obtain ⟨l, hrun, hinv', hup', hack'⟩ := ih hinv hlog
    refine ⟨l, hlead.runsTo.append hrun, hinv', hup', ?_⟩
    intro hdrops hacked
    exact hack' (fun e' he' => hdrops e' (List.mem_cons_of_mem e he'))
      (hack (hdrops e List.mem_cons_self) hacked)

theorem RunsTo.unique {events : List DdlEvent} {l : Node β} (h : RunsTo base events n m)
    (h' : RunsTo base events n l) : m = l :=
  BoundedLoop.eq_of_enough h h'

theorem Restarted.runsTo (h : Restarted base names n m) (stack : ℕ → UInt8) :
    RunsTo base [.restart stack] n m :=
  Leads.runsTo (h.restarts.restarts stack)

/-- After any events, a restart folds the creation over the names in the CLOG; the CLOG replay
alone gives that schema; and without DROPs it has every acknowledged database under its id. -/
theorem recovers_fold_of_clog (base : β) (clog : Disk (Option β × ℤ)) (events : List DdlEvent)
    (hempty : ∀ b, clog.entry ((some base, ddlLsId), b) = none)
    (hok : ∀ name ∈ clogNames false events, NameOk name)
    (hblock : logSize ((clogNames false events).map ddlEntry) ≤ palfBlockSize) :
    ∃ n m, RunsTo base events { clog } n ∧ (∀ stack, RunsTo base [.restart stack] n m) ∧
      LogImage m.clog (some base, ddlLsId) palfBlockSize ((clogNames false events).map ddlEntry) ∧
      m.process.schema = createAll (clogNames false events) {} ∧
      Replays (fun _ => DdlService.replay) ddlLsId m.process.logService m.clog {}
        m.process.schema ∧
      ((∀ e ∈ events, ¬ IsDrop e) →
        ∀ p ∈ n.acked, (p.1, ⟨p.1, p.2⟩) ∈ m.process.schema.databases) := by
  obtain ⟨n, hrun, hinv, -, hack⟩ := run_inv (inv_new hempty) events ⟨hok, hblock⟩
  obtain ⟨m, hm⟩ := restart_consistent hinv.consistent ⟨hok, hblock⟩
  obtain ⟨handler, -, hready⟩ := hm.restarts.serves.live hm.restarts.isInited
  obtain ⟨impl, -, happendable⟩ := hready.impl
  have himage := happendable.image
  rw [map_logBuf_payload] at himage
  refine ⟨n, m, hrun, hm.runsTo, himage, hm.created, hm.clogAlone, ?_⟩
  intro hdrops
  rw [hm.created]
  exact (hack hdrops ⟨rfl, by simp⟩).present

/-- A duplicate, and a crash between the CLOG append and the schema update. -/
theorem recovers_fold_of_clog_example :
    let events : List DdlEvent := [.restart fun _ => 0,
      .create [97] (some fun _ => 0) (some fun _ => 0) true,
      .create [97] (some fun _ => 0) (some fun _ => 0) true,
      .crashInCreate [98] (some fun _ => 0) (some fun _ => 0) .afterClog]
    ∃ n m, RunsTo () events { clog := blank } n ∧
      (∀ stack, RunsTo () [.restart stack] n m) ∧
      m.process.schema = createAll [[97], [97], [98]] {} := by
  intro events
  obtain ⟨n, m, hrun, hrestart, -, hschema, -⟩ := recovers_fold_of_clog () blank
    events (fun _ => rfl) (by decide) (by decide)
  exact ⟨n, m, hrun, hrestart, hschema⟩

def RestartKeeps (base : β) (n : Node β) : Prop :=
  ∃ m, (∀ stack, RunsTo base [.restart stack] n m) ∧
    ∀ p, p ∈ m.process.schema.databases ↔ p ∈ n.process.schema.databases

theorem restartKeeps_iff (h : Inv base names n) (hup : n.process.isInited = true)
    (hlog : Loggable names) : RestartKeeps base n ↔ n.process.dropped = false := by
  obtain ⟨m, hm⟩ := restart_consistent h.consistent hlog
  constructor
  · rintro ⟨m', hrestart, hsame⟩
    obtain rfl := (hrestart fun _ => 0).unique (hm.runsTo fun _ => 0)
    by_contra hdropped
    obtain ⟨p, hp, -, hgone⟩ := h.live.gone hup (Bool.eq_true_of_not_eq_false hdropped)
    rw [← hm.created] at hp
    exact hgone p ((hsame p).mp hp) rfl
  · intro hdropped
    refine ⟨m, hm.runsTo, ?_⟩
    intro p
    rw [hm.created, h.live.clean hup hdropped]

theorem not_restartKeeps_of_drop (h : Inv base names n) (hup : n.process.isInited = true)
    (hclean : n.process.dropped = false) (hlog : Loggable names) (hname : name ∈ names) :
    ¬ RestartKeeps base (n.dropDatabase name) := by
  have hinv : Inv base names (n.dropDatabase name) :=
    ⟨h.consistent.of_logs rfl rfl rfl rfl, h.live.dropDatabase name⟩
  have hholds : Holds n.process.schema name := by
    rw [h.live.clean hup hclean]
    exact holds_createAll wellNumbered_new (fun n hn => (hlog.ok n hn).2) name hname
  have hdropped : (n.dropDatabase name).process.dropped = true := by
    simp [Node.dropDatabase, ObSchemaService.dropDatabase, any_hasName.mpr hholds]
  rw [restartKeeps_iff hinv hup hlog, hdropped]
  exact fun hfalse => absurd hfalse (by decide)

/-- In every state of a running node: a restart keeps the databases exactly when no DROP
since the last start has met one. -/
theorem restartKeeps_iff_not_dropped (base : β) (clog : Disk (Option β × ℤ))
    (events : List DdlEvent) (hempty : ∀ b, clog.entry ((some base, ddlLsId), b) = none)
    (hok : ∀ name ∈ clogNames false events, NameOk name)
    (hblock : logSize ((clogNames false events).map ddlEntry) ≤ palfBlockSize)
    (hup : events.foldl upAfter false = true) :
    ∃ n, RunsTo base events { clog } n ∧
      (RestartKeeps base n ↔ n.process.dropped = false) := by
  obtain ⟨n, hrun, hinv, hinit, -⟩ := run_inv (inv_new hempty) events ⟨hok, hblock⟩
  exact ⟨n, hrun, restartKeeps_iff hinv (hinit.trans hup) ⟨hok, hblock⟩⟩

def createA : List DdlEvent :=
  [.restart fun _ => 0, .create [97] (some fun _ => 0) (some fun _ => 0) true]

theorem runsTo_createA : ∃ n : Node Unit, RunsTo () createA { clog := blank } n ∧
    Inv () [[97]] n ∧ n.process.isInited = true ∧ n.process.dropped = false := by
  have hnew : Inv () [] ({ clog := blank } : Node Unit) := inv_new fun _ => rfl
  obtain ⟨n, hrun, hinv, hup, hack⟩ := run_inv hnew createA ⟨by decide, by decide⟩
  exact ⟨n, hrun, hinv, hup, (hack (by simp [createA, IsDrop]) ⟨rfl, by simp⟩).dropped⟩

theorem runsTo_drop (name : Bytes) (n : Node Unit) :
    RunsTo () [.drop name] n (n.dropDatabase name) := ⟨0, fun _ _ => rfl⟩

/-- A DROP of a name that no database has. -/
theorem restartKeeps_iff_not_dropped_example :
    ∃ n, RunsTo () (createA ++ [.drop [98]]) { clog := blank } n ∧
      RestartKeeps () n := by
  obtain ⟨n, hrun, hinv, hup, hclean⟩ := runsTo_createA
  obtain ⟨m, hm, hkeeps⟩ := restartKeeps_iff_not_dropped () blank
    (createA ++ [.drop [98]]) (fun _ => rfl) (by decide) (by decide) rfl
  obtain rfl := hm.unique (hrun.append (runsTo_drop [98] n))
  refine ⟨_, hm, hkeeps.mpr ?_⟩
  simp only [Node.dropDatabase, hinv.live.clean hup hclean, hclean]
  decide

/-- CREATE DATABASE a, DROP DATABASE a, restart: the database is back. -/
theorem dropped_database_returns :
    let events : List DdlEvent := [.restart fun _ => 0,
      .create [97] (some fun _ => 0) (some fun _ => 0) true, .drop [97]]
    ∃ n, RunsTo () events { clog := blank } n ∧ ¬ RestartKeeps () n := by
  obtain ⟨n, hrun, hinv, hup, hclean⟩ := runsTo_createA
  exact ⟨n.dropDatabase [97], hrun.append (runsTo_drop [97] n),
    not_restartKeeps_of_drop hinv hup hclean ⟨by decide, by decide⟩ (by decide)⟩

end Runs

end DdlRecovery
