import LsmStorage.ResultCode
import LsmStorage.RunInvariant
import LsmStorage.SchemaService

/-! # The current database of a session

CREATE DATABASE, USE and DROP DATABASE as their executors run them in one session. A USE looks at
the id that the session has afterwards, which an earlier statement may have set. A DROP compares
the current name without its case, and drops by the exact name. -/
namespace SessionDatabase

open ByteCodec ResultCode RunInvariant SchemaService

structure Session where
  currentDbName : Bytes := []
  currentDatabaseId : ℕ := 0
  deriving DecidableEq

structure State where
  service : ObSchemaService
  session : Session := {}
  deriving DecidableEq

/-- The statements; `appendRet` is what the append of the log entry returns. -/
inductive Statement where
  | createDatabase (dbName : Bytes) (appendRet : ℤ)
  | useDatabase (dbName : Bytes)
  | dropDatabase (dbName : Bytes)
  deriving DecidableEq

def sys : Bytes := [115, 121, 115]

def toLower (b : UInt8) : UInt8 := if 65 ≤ b ∧ b ≤ 90 then b + 32 else b

/-- `0 == strcasecmp(a, b)`. -/
def EqualFold (a b : Bytes) : Prop := a.map toLower = b.map toLower

instance (a b : Bytes) : Decidable (EqualFold a b) :=
  inferInstanceAs (Decidable (a.map toLower = b.map toLower))

/-- `ObDDLService::create_database`: the schema is written behind the log entry. -/
def ddlServiceCreate (dbName : Bytes) (appendRet : ℤ) (s : ObSchemaService) :
    ℤ × ObSchemaService :=
  if appendRet ≠ 0 then (appendRet, s)
  else ((ddlCreateDatabase dbName s).1, (ddlCreateDatabase dbName s).2.2)

namespace State

/-- A name that is not found leaves the session as it is. -/
def setCurrentDb (dbname : Bytes) (s : State) : State :=
  match s.service.getDatabaseSchema dbname with
  | some schema => { s with session := ⟨dbname, schema.databaseId⟩ }
  | none => s

def execute (s : State) : Statement → RC × State
  | .createDatabase dbName appendRet =>
    let (ret, service) := ddlServiceCreate dbName appendRet s.service
    (if ret = 0 then .success else .internal, { s with service })
  | .useDatabase dbName =>
    let s := s.setCurrentDb dbName
    (if s.session.currentDatabaseId = 0 then .schemaDbNotExist else .success, s)
  | .dropDatabase dbName =>
    let s := if EqualFold s.session.currentDbName dbName then s.setCurrentDb sys else s
    (.success, { s with service := (s.service.dropDatabase dbName).2 })

def step (s : State) (statement : Statement) : State := (s.execute statement).2

/-- `init_global_objects`; a connection starts with a copy of the default session. -/
def startup (recovered appendRet : ℤ) (service : ObSchemaService) : State :=
  let service := if recovered = 0 ∨ service.getDatabaseSchema sys = none then
      (ddlServiceCreate sys appendRet service).2
    else service
  setCurrentDb sys { service }

end State

open State

def Real (s : State) : Prop :=
  s.session.currentDatabaseId = 0 ∨ ∃ p ∈ s.service.databases,
    p.2.databaseId = s.session.currentDatabaseId ∧ p.2.databaseName = s.session.currentDbName

instance : DecidablePred Real := fun s =>
  inferInstanceAs (Decidable (s.session.currentDatabaseId = 0 ∨ ∃ p ∈ s.service.databases,
    p.2.databaseId = s.session.currentDatabaseId ∧ p.2.databaseName = s.session.currentDbName))

def UseRight (s : State) : Statement → Prop
  | .useDatabase dbName =>
    let (rc, t) := s.execute (.useDatabase dbName)
    (rc = .success ↔ Holds s.service dbName) ∧
      (rc = .success → t.session.currentDbName = dbName ∧ ∃ p ∈ s.service.databases,
        p.2.databaseId = t.session.currentDatabaseId ∧ p.2.databaseName = dbName) ∧
      (rc ≠ .success → t.session = s.session)
  | _ => True

section Service

variable {s : ObSchemaService}

structure Sound (s : ObSchemaService) : Prop where
  numbered : WellNumbered s
  keyed : ∀ p ∈ s.databases, p.2.databaseId = p.1
  positive : ∀ p ∈ s.databases, 0 < p.1
  next : 0 < s.nextDatabaseId

theorem sound_new : Sound {} :=
  ⟨wellNumbered_new, List.forall_mem_nil _, List.forall_mem_nil _, Nat.one_pos⟩

theorem Sound.ddlCreateDatabase (h : Sound s) (name : Bytes) :
    Sound (ddlCreateDatabase name s).2.2 := by
  have hnumbered := wellNumbered_ddlCreateDatabase h.numbered name
  by_cases hholds : Holds s name
  · rw [ddlCreateDatabase_of_holds hholds]
    exact h
  · rw [ddlCreateDatabase_of_not_holds hholds] at hnumbered ⊢
    refine ⟨hnumbered, ?_, ?_, Nat.succ_pos _⟩
    · intro p hp
      rw [databases_createDatabase h.numbered] at hp
      rcases List.mem_append.mp hp with hold | hnew
      · exact h.keyed p hold
      · rw [List.mem_singleton.mp hnew]
    · intro p hp
      rw [databases_createDatabase h.numbered] at hp
      rcases List.mem_append.mp hp with hold | hnew
      · exact h.positive p hold
      · rw [List.mem_singleton.mp hnew]
        exact h.next

theorem Sound.ddlServiceCreate (h : Sound s) (name : Bytes) (appendRet : ℤ) :
    Sound (ddlServiceCreate name appendRet s).2 := by
  unfold SessionDatabase.ddlServiceCreate
  split_ifs
  · exact h
  · exact h.ddlCreateDatabase name

theorem Sound.dropDatabase (h : Sound s) (name : Bytes) : Sound (s.dropDatabase name).2 := by
  refine ⟨wellNumbered_dropDatabase h.numbered name, ?_, ?_, ?_⟩
  all_goals unfold ObSchemaService.dropDatabase; split
  · exact fun p hp => h.keyed p (List.mem_of_mem_eraseP hp)
  · exact h.keyed
  · exact fun p hp => h.positive p (List.mem_of_mem_eraseP hp)
  · exact h.positive
  · exact h.next
  · exact h.next

theorem Sound.eq_of_id (h : Sound s) {p q : ℕ × ObDatabaseSchema} (hp : p ∈ s.databases)
    (hq : q ∈ s.databases) (hid : p.2.databaseId = q.2.databaseId) : p = q := by
  rw [h.keyed p hp, h.keyed q hq] at hid
  exact List.inj_on_of_nodup_map h.numbered.nodup hp hq hid

theorem Sound.id_ne_zero (h : Sound s) {p : ℕ × ObDatabaseSchema} (hp : p ∈ s.databases) :
    p.2.databaseId ≠ 0 := by
  rw [h.keyed p hp]
  exact (h.positive p hp).ne'

theorem getDatabaseSchema_eq_some {name : Bytes} {d : ObDatabaseSchema}
    (h : s.getDatabaseSchema name = some d) :
    ∃ p ∈ s.databases, p.2 = d ∧ p.2.databaseName = name ∧
      s.databases.find? (ObSchemaService.hasName name) = some p := by
  obtain ⟨p, hfind, hd⟩ := Option.map_eq_some_iff.mp h
  refine ⟨p, List.mem_of_find?_eq_some hfind, hd, ?_, hfind⟩
  simpa [ObSchemaService.hasName] using List.find?_some hfind

theorem exists_getDatabaseSchema {name : Bytes} (h : Holds s name) :
    ∃ d, s.getDatabaseSchema name = some d :=
  Option.ne_none_iff_exists'.mp fun hnone => getDatabaseSchema_eq_none.mp hnone h

end Service

section Steps

variable {s : State} {name : Bytes}

theorem setCurrentDb_of_some {d : ObDatabaseSchema}
    (h : s.service.getDatabaseSchema name = some d) :
    s.setCurrentDb name = { s with session := ⟨name, d.databaseId⟩ } := by
  unfold setCurrentDb
  rw [h]

theorem setCurrentDb_of_not_holds (h : ¬ Holds s.service name) : s.setCurrentDb name = s := by
  unfold setCurrentDb
  rw [getDatabaseSchema_eq_none.mpr h]

theorem service_setCurrentDb (s : State) (name : Bytes) :
    (s.setCurrentDb name).service = s.service := by
  unfold setCurrentDb
  split <;> rfl

theorem Real.setCurrentDb (h : Real s) (name : Bytes) : Real (s.setCurrentDb name) := by
  by_cases hholds : Holds s.service name
  · obtain ⟨d, hd⟩ := exists_getDatabaseSchema hholds
    obtain ⟨p, hp, rfl, hname, -⟩ := getDatabaseSchema_eq_some hd
    rw [setCurrentDb_of_some hd]
    exact .inr ⟨p, hp, rfl, hname⟩
  · rw [setCurrentDb_of_not_holds hholds]
    exact h

theorem Sound.startup {service : ObSchemaService} (h : Sound service) (recovered appendRet : ℤ) :
    Sound (startup recovered appendRet service).service ∧
      Real (startup recovered appendRet service) := by
  unfold State.startup
  dsimp only
  refine ⟨?_, Real.setCurrentDb (.inl rfl) sys⟩
  rw [service_setCurrentDb]
  split_ifs
  · exact h.ddlServiceCreate sys appendRet
  · exact h

theorem useRight_iff (h : Sound s.service) (name : Bytes) :
    UseRight s (.useDatabase name) ↔
      Holds s.service name ∨ s.session.currentDatabaseId = 0 := by
  unfold UseRight State.execute
  dsimp only
  by_cases hholds : Holds s.service name
  · obtain ⟨d, hd⟩ := exists_getDatabaseSchema hholds
    obtain ⟨p, hp, rfl, hname, -⟩ := getDatabaseSchema_eq_some hd
    rw [setCurrentDb_of_some hd, if_neg (h.id_ne_zero hp)]
    refine iff_of_true ⟨iff_of_true rfl hholds, fun _ => ⟨rfl, p, hp, rfl, hname⟩, ?_⟩ (.inl hholds)
    exact fun hfailed => absurd rfl hfailed
  · rw [setCurrentDb_of_not_holds hholds]
    by_cases hid : s.session.currentDatabaseId = 0
    · rw [if_pos hid]
      have hcode : RC.schemaDbNotExist ≠ .success := by decide
      exact iff_of_true ⟨iff_of_false hcode hholds, fun hrc => absurd hrc hcode, fun _ => rfl⟩
        (.inr hid)
    · rw [if_neg hid]
      exact iff_of_false (fun hright => hholds (hright.1.mp rfl))
        (not_or.mpr ⟨hholds, hid⟩)

theorem Real.create (h : Real s) (hservice : Sound s.service) (name : Bytes) (appendRet : ℤ) :
    Real (s.step (.createDatabase name appendRet)) := by
  have hkept : s.service.databases ⊆ (ddlServiceCreate name appendRet s.service).2.databases := by
    unfold ddlServiceCreate
    split_ifs
    · exact List.Subset.refl _
    · exact (prefix_ddlCreateDatabase hservice.numbered name).subset
  rcases h with hzero | ⟨p, hp, hp'⟩
  · exact .inl hzero
  · exact .inr ⟨p, hkept hp, hp'⟩

theorem real_drop_iff (hservice : Sound s.service) (h : Real s) (name : Bytes) :
    Real { s with service := (s.service.dropDatabase name).2 } ↔
      (s.service.getDatabaseSchema name).map (·.databaseId) ≠
        some s.session.currentDatabaseId := by
  rw [dropDatabase_snd]
  cases hget : s.service.getDatabaseSchema name with
  | none =>
    rw [List.eraseP_of_forall_not (by simpa [ObSchemaService.getDatabaseSchema] using hget)]
    refine iff_of_true h fun hcurrent => ?_
    cases hcurrent
  | some d =>
    obtain ⟨p, hp, rfl, -, hfind⟩ := getDatabaseSchema_eq_some hget
    have hleft := fun q => mem_eraseP_of_find? (r := q) hservice.numbered.nodup hfind
    constructor
    · intro hreal hcurrent
      have hcurrentId : p.2.databaseId = s.session.currentDatabaseId := Option.some.inj hcurrent
      rcases hreal with hzero | ⟨q, hq, hid, -⟩
      · exact hservice.id_ne_zero hp (hcurrentId.trans hzero)
      · obtain ⟨hold, hkey⟩ := (hleft q).mp hq
        exact hkey (congrArg Prod.fst (hservice.eq_of_id hold hp (hid.trans hcurrentId.symm)))
    · intro hother
      rcases h with hzero | ⟨q, hq, hid, hqname⟩
      · exact .inl hzero
      · refine .inr ⟨q, (hleft q).mpr ⟨hq, fun hkey => hother (congrArg some ?_)⟩, hid, hqname⟩
        have hsame : p.2.databaseId = q.2.databaseId := by
          rw [hservice.keyed p hp, hservice.keyed q hq, hkey]
        exact hsame.trans hid

def Dangles (s : State) (name : Bytes) : Prop :=
  Holds s.service name ∧
    ((name = sys ∧ EqualFold s.session.currentDbName sys) ∨
      (¬ Holds s.service sys ∧ s.session.currentDbName = name ∧
        (s.service.getDatabaseSchema name).map (·.databaseId) =
          some s.session.currentDatabaseId))

instance (s : State) (name : Bytes) : Decidable (Dangles s name) :=
  inferInstanceAs (Decidable (Holds s.service name ∧ (_ ∨ _)))

theorem Real.name_of_id (h : Real s) (hservice : Sound s.service)
    (hid : (s.service.getDatabaseSchema name).map (·.databaseId) =
      some s.session.currentDatabaseId) :
    s.session.currentDbName = name ∧ Holds s.service name := by
  obtain ⟨d, hd, hdid⟩ := Option.map_eq_some_iff.mp hid
  obtain ⟨p, hp, rfl, hname, -⟩ := getDatabaseSchema_eq_some hd
  refine ⟨?_, p, hp, hname⟩
  rcases h with hzero | ⟨q, hq, hqid, hqname⟩
  · exact absurd (hdid.trans hzero) (hservice.id_ne_zero hp)
  · rw [hservice.eq_of_id hq hp (hqid.trans hdid.symm), hname] at hqname
    exact hqname.symm

theorem Real.drop_iff (h : Real s) (hservice : Sound s.service) (name : Bytes) :
    Real (s.step (.dropDatabase name)) ↔ ¬ Dangles s name := by
  unfold State.step State.execute
  dsimp only
  by_cases hfold : EqualFold s.session.currentDbName name
  · rw [if_pos hfold]
    by_cases hsys : Holds s.service sys
    · obtain ⟨d, hd⟩ := exists_getDatabaseSchema hsys
      have hmoved := h.setCurrentDb sys
      rw [setCurrentDb_of_some hd] at hmoved ⊢
      rw [real_drop_iff (s := { s with session := ⟨sys, d.databaseId⟩ }) hservice hmoved,
        not_iff_not]
      constructor
      · intro hid
        obtain ⟨rfl, hholds⟩ := hmoved.name_of_id hservice hid
        exact ⟨hholds, .inl ⟨rfl, hfold⟩⟩
      · rintro ⟨-, ⟨rfl, -⟩ | ⟨hnone, -⟩⟩
        · show (s.service.getDatabaseSchema sys).map _ = _
          rw [hd]
          rfl
        · exact absurd hsys hnone
    · rw [setCurrentDb_of_not_holds hsys, real_drop_iff hservice h, not_iff_not]
      constructor
      · intro hid
        obtain ⟨hname, hholds⟩ := h.name_of_id hservice hid
        exact ⟨hholds, .inr ⟨hsys, hname, hid⟩⟩
      · rintro ⟨hholds, ⟨rfl, -⟩ | ⟨-, -, hid⟩⟩
        · exact absurd hholds hsys
        · exact hid
  · -- the name differs from the current one in more than its case
    rw [if_neg hfold, real_drop_iff hservice h, not_iff_not]
    refine iff_of_false (fun hid => hfold ?_) ?_
    · rw [(h.name_of_id hservice hid).1]
      rfl
    · rintro ⟨-, ⟨rfl, hsys⟩ | ⟨-, rfl, -⟩⟩
      · exact hfold hsys
      · exact hfold rfl

theorem Sound.step (h : Sound s.service) (statement : Statement) :
    Sound (s.step statement).service := by
  cases statement with
  | createDatabase name appendRet => exact h.ddlServiceCreate name appendRet
  | useDatabase name =>
    show Sound (s.setCurrentDb name).service
    rw [service_setCurrentDb]
    exact h
  | dropDatabase name =>
    refine Sound.dropDatabase ?_ name
    split_ifs
    · rw [service_setCurrentDb]
      exact h
    · exact h

end Steps

section Histories

/-- A USE of a missing database only in a session without a database, and no DROP of the one that
the session has or is moved to. -/
def Keeps (s : State) : Statement → Prop
  | .createDatabase _ _ => True
  | .useDatabase name => Holds s.service name ∨ s.session.currentDatabaseId = 0
  | .dropDatabase name => ¬ Dangles s name

instance (s : State) : DecidablePred (Keeps s)
  | .createDatabase _ _ => inferInstanceAs (Decidable True)
  | .useDatabase name =>
    inferInstanceAs (Decidable (Holds s.service name ∨ s.session.currentDatabaseId = 0))
  | .dropDatabase name => inferInstanceAs (Decidable (¬ Dangles s name))

theorem keeps_iff {s : State} (hservice : Sound s.service) (h : Real s) (statement : Statement) :
    UseRight s statement ∧ Real (s.step statement) ↔ Keeps s statement := by
  cases statement with
  | createDatabase name appendRet =>
    exact iff_of_true ⟨trivial, h.create hservice name appendRet⟩ trivial
  | useDatabase name =>
    exact (and_iff_left (h.setCurrentDb name)).trans (useRight_iff hservice name)
  | dropDatabase name => exact (and_iff_right trivial).trans (h.drop_iff hservice name)

/-- From any state where the current database is real: every USE is right and the current database
stays real throughout a history exactly when each of its statements keeps it so. -/
theorem current_database_real_iff (start : State) (hservice : Sound start.service)
    (hreal : Real start) (statements : List Statement) :
    (Each State.step UseRight start statements ∧ Always State.step Real start statements) ↔
      Each State.step Keeps start statements := by
  have hsound : Always State.step (fun s => Sound s.service) start statements :=
    always_of_step hservice fun _ statement hs => hs.step statement
  exact each_and_always_iff hsound each_true hreal
    fun _ statement hs _ hr => keeps_iff hs hr statement

/-- A session that uses a database of its own and drops it again, from the start of the server. -/
theorem current_database_real_created :
    let start := startup 0 0 {}
    let statements : List Statement :=
      [.createDatabase [97] 0, .useDatabase [97], .dropDatabase [97], .useDatabase sys]
    Sound start.service ∧ Real start ∧ Each State.step UseRight start statements ∧
      Always State.step Real start statements := by
  intro start statements
  obtain ⟨hservice, hreal⟩ := sound_new.startup 0 0
  refine ⟨hservice, hreal, (current_database_real_iff start hservice hreal statements).mpr ?_⟩
  decide

/-- At the start of the server the session has `sys`. A USE of a missing database succeeds, a DROP
of `sys` leaves the session with it, and so does a DROP of another one after that. -/
theorem dropped_database_stays_current :
    let start := startup 0 0 {}
    let dropped := start.step (.dropDatabase sys)
    let other := [.createDatabase [97] 0, .useDatabase [97], .dropDatabase [97]].foldl State.step
      dropped
    (start.execute (.useDatabase [98]) = (.success, start) ∧
      start.service.databases = [(1, ⟨1, sys⟩)]) ∧
    (dropped.session = ⟨sys, 1⟩ ∧ dropped.service.databases = [] ∧ ¬ Real dropped) ∧
    (other.session = ⟨[97], 2⟩ ∧ other.service.databases = [] ∧ ¬ Real other) := by
  decide

end Histories

end SessionDatabase
