import LsmStorage.MemtableMap
import LsmStorage.TableStore

/-! # Reads over several memtables

The state of a table store is the list of accepted writes of each of its memtables. A point
read asks the active memtable first, which is the youngest, but then the frozen ones from the
oldest on. A scan puts the memtables' rows one after another: it neither merges the versions of
a key nor drops delete markers. -/
namespace TableStoreReads

open ByteCodec MvccRow RowkeyHash Memtable MemtableMap TableStore BoundedLoop ObRecordScanner

variable {η L : Type*} {s : ObTableStore η} {t : ObMemtable η} {active ws : List Write}
  {frozen : List (List Write)}

/-- What `get` finds in a memtable for a key with this hash value. -/
def versionAt (h : UInt64) (ws : List Write) : Option ObStoreRow :=
  (ws.find? fun w => w.slot = h).map Write.read

def versionOf (k : ObStoreRowkey) (ws : List Write) : Option ObStoreRow :=
  (ws.find? fun w => w.row.rowkey = k).map Write.read

def newest (k : ObStoreRowkey) (active : List Write) (frozen : List (List Write)) :
    Option ObStoreRow :=
  (active :: frozen.reverse).findSome? (versionOf k)

structure Holds (s : ObTableStore η) (active : List Write) (frozen : List (List Write)) :
    Prop where
  unlocked : s.memtableMgr.mutexHeld = false
  activeHolds : ∀ t, s.memtableMgr.activeMemtable = some t → Contents t active
  noActive : s.memtableMgr.activeMemtable = none → active = []
  frozenHolds : List.Forall₂ Contents s.memtableMgr.frozenMemtables frozen

section Histories

inductive StoreOp where
  | set (call : SetCall)
  | freeze

structure History (η L : Type*) where
  store : ObTableStore η
  log : L
  active : List Write := []
  frozen : List (List Write) := []

/-- A freeze is taken with the effect that it is after: the active memtable moves to the end of
the frozen list and an empty one takes its place. -/
def History.step (append : η → Bytes → L → ℤ × L) (s : History η L) : StoreOp → History η L
  | .set c =>
    match s.store.setActive append c.mallocOk c.ctx c.row s.log with
    | none => s
    | some (ret, store, log) =>
      { s with
        store := store
        log := log
        active := if ret = 0 then c.write :: s.active else s.active }
  | .freeze =>
    match s.store.memtableMgr.activeMemtable with
    | none => s
    | some t =>
      let mgr := s.store.memtableMgr.moveActive t
      { s with
        store := { s.store with
          memtableMgr := { mgr with activeMemtable := some (ObMemtable.create mgr.tabletId) } }
        active := []
        frozen := s.frozen ++ [s.active] }

def runOps (append : η → Bytes → L → ℤ × L) (ops : List StoreOp) (s : History η L) :
    History η L :=
  ops.foldl (History.step append) s

def opened (tabletId : ℤ) (log : L) : History η L :=
  { store := (({} : ObTableStore η).init tabletId).2, log := log }

theorem contents_activeOrNew (h : Holds s active frozen) :
    Contents s.memtableMgr.activeOrNew active := by
  unfold ObMemTableMgr.activeOrNew
  cases hactive : s.memtableMgr.activeMemtable with
  | none =>
    rw [h.noActive hactive]
    exact contents_create _
  | some t => exact h.activeHolds t hactive

theorem holds_update {active' : List Write} (h : Holds s active frozen) (ht : Contents t active') :
    Holds { s with memtableMgr := { s.memtableMgr with activeMemtable := some t } } active'
      frozen := by
  refine ⟨h.unlocked, ?_, ?_, h.frozenHolds⟩
  · intro t' ht'
    cases ht'
    exact ht
  · intro hnone
    cases hnone

theorem step_holds (append : η → Bytes → L → ℤ × L) {s : History η L}
    (h : Holds s.store s.active s.frozen) (op : StoreOp) :
    Holds (s.step append op).store (s.step append op).active (s.step append op).frozen := by
  cases op with
  | set c =>
    have hget := ObMemTableMgr.getActiveMemtable_eq h.unlocked
    obtain ⟨hcontents, -⟩ :=
      set_contents append c.mallocOk (contents_activeOrNew h) c.write s.log
    simp only [History.step, ObTableStore.setActive, hget]
    exact holds_update h hcontents
  | freeze =>
    simp only [History.step]
    cases hactive : s.store.memtableMgr.activeMemtable with
    | none => exact h
    | some t =>
      have hfrozen : Contents t.setFrozen s.active := by
        have ht := h.activeHolds t hactive
        exact ⟨ht.represents, ht.rowCount, ht.occupySize⟩
      refine ⟨h.unlocked, ?_, ?_, ?_⟩
      · intro t' ht'
        cases ht'
        exact contents_create _
      · intro hnone
        cases hnone
      · exact List.rel_append h.frozenHolds (List.Forall₂.cons hfrozen List.Forall₂.nil)

theorem runOps_holds (append : η → Bytes → L → ℤ × L) (ops : List StoreOp) {s : History η L}
    (h : Holds s.store s.active s.frozen) :
    Holds (runOps append ops s).store (runOps append ops s).active
      (runOps append ops s).frozen := by
  induction ops generalizing s with
  | nil => exact h
  | cons op ops ih => exact ih (step_holds append h op)

end Histories

section PointReads

theorem getFrom_of_contents {ts : List (ObMemtable η)} {wss : List (List Write)}
    (h : List.Forall₂ Contents ts wss) (k : ObStoreRowkey) :
    ObTableStore.getFrom {} k ts = wss.findSome? (versionAt (slot k)) := by
  induction h with
  | nil => rfl
  | @cons t ws ts wss ht _ ih =>
    rw [ObTableStore.getFrom, List.findSome?_cons, get_of_contents ht, ← versionAt, ih]
    split
    · next hempty =>
      have hnil : ws = [] := by simpa [ObMemtable.isEmpty, ht.rowCount] using hempty
      rw [hnil]
      rfl
    · cases versionAt (slot k) ws <;> rfl

theorem get_of_holds (h : Holds s active frozen) (k : ObStoreRowkey) :
    ∃ s', s.get {} k = some ((active :: frozen).findSome? (versionAt (slot k)), s') ∧
      Holds s' active frozen := by
  have ht := contents_activeOrNew h
  refine ⟨_, ?_, holds_update h ht⟩
  simp only [ObTableStore.get, ObMemTableMgr.getActiveMemtable_eq h.unlocked]
  rw [getFrom_of_contents (List.Forall₂.cons ht h.frozenHolds)]

def ReadsNewest (s : ObTableStore η) (active : List Write) (frozen : List (List Write))
    (k : ObStoreRowkey) : Prop :=
  ∃ s', s.get {} k = some (newest k active frozen, s')

/-- The first memtable of the list that has a version has this one. -/
def IsFirst (version : List Write → Option ObStoreRow) (wss : List (List Write))
    (row : ObStoreRow) : Prop :=
  ∃ before ws after, wss = before ++ ws :: after ∧ version ws = some row ∧
    ∀ vs ∈ before, version vs = none

theorem isFirst_iff {version : List Write → Option ObStoreRow} {wss : List (List Write)}
    {row : ObStoreRow} : IsFirst version wss row ↔ wss.findSome? version = some row := by
  rw [List.findSome?_eq_some_iff]
  rfl

theorem findSome?_eq_reverse_iff (version : List Write → Option ObStoreRow)
    (wss : List (List Write)) :
    wss.findSome? version = wss.reverse.findSome? version ↔
      ∀ old young, IsFirst version wss old → IsFirst version wss.reverse young → old = young := by
  have hnone : wss.findSome? version = none ↔ wss.reverse.findSome? version = none := by
    simp only [List.findSome?_eq_none_iff, List.mem_reverse]
  simp only [isFirst_iff]
  constructor
  · intro heq old young hold hyoung
    exact Option.some.inj (hold.symm.trans (heq.trans hyoung))
  · intro hall
    cases hold : wss.findSome? version with
    | none => exact (hnone.mp hold).symm
    | some old =>
      obtain ⟨young, hyoung⟩ := Option.ne_none_iff_exists'.mp
        (mt hnone.mpr (by rw [hold]; exact Option.some_ne_none old))
      rw [hyoung, hall old young hold hyoung]

theorem readsNewest_iff_eq (h : Holds s active frozen) (k : ObStoreRowkey) :
    ReadsNewest s active frozen k ↔
      (active :: frozen).findSome? (versionAt (slot k)) = newest k active frozen := by
  obtain ⟨s', hget, -⟩ := get_of_holds h k
  constructor
  · rintro ⟨s'', hget'⟩
    exact congrArg Prod.fst (Option.some.inj (hget.symm.trans hget'))
  · intro heq
    exact ⟨s', heq ▸ hget⟩

theorem versionOf_of_versionAt_eq_none {k : ObStoreRowkey} (h : versionAt (slot k) ws = none) :
    versionOf k ws = none := by
  simp only [versionAt, versionOf, Option.map_eq_none_iff, List.find?_eq_none,
    decide_eq_true_eq] at h ⊢
  intro w hw hk
  exact h w hw (congrArg slot hk)

/-- No other key of the memtable has the hash value of `k`. -/
def Alone (k : ObStoreRowkey) (ws : List Write) : Prop :=
  ∀ w ∈ ws, w.slot = slot k → w.row.rowkey = k

theorem versionAt_of_alone {k : ObStoreRowkey} (h : Alone k ws) :
    versionAt (slot k) ws = versionOf k ws := by
  rw [versionAt, versionOf]
  congr 1
  apply List.find?_congr
  intro w hw
  rw [decide_eq_decide]
  exact ⟨h w hw, fun hk => congrArg slot hk⟩

instance (k : ObStoreRowkey) (ws : List Write) : Decidable (Alone k ws) :=
  inferInstanceAs (Decidable (∀ w ∈ ws, w.slot = slot k → w.row.rowkey = k))

/-- A point read finds the newest version of the key exactly when the first memtable that it comes
to with a version under the key's hash value has that one. Where no other key has this hash value,
it does so exactly when the active memtable has the key, or the oldest and the youngest frozen
memtable with the key agree. -/
theorem readsNewest_iff {s : ObTableStore η} {active : List Write} {frozen : List (List Write)}
    (h : Holds s active frozen) (k : ObStoreRowkey) :
    (ReadsNewest s active frozen k ↔ ∀ row, IsFirst (versionAt (slot k)) (active :: frozen) row →
      IsFirst (versionOf k) (active :: frozen.reverse) row) ∧
    ((∀ ws ∈ active :: frozen, Alone k ws) →
      (ReadsNewest s active frozen k ↔ (∃ w ∈ active, w.row.rowkey = k) ∨
        ∀ old young, IsFirst (versionOf k) frozen old →
          IsFirst (versionOf k) frozen.reverse young → old = young)) := by
  rw [readsNewest_iff_eq h]
  constructor
  · simp only [isFirst_iff]
    change _ ↔ ∀ row, _ → newest k active frozen = some row
    constructor
    · intro heq row hrow
      exact heq ▸ hrow
    · intro hall
      cases hfirst : (active :: frozen).findSome? (versionAt (slot k)) with
      | some row => exact (hall row hfirst).symm
      | none =>
        symm
        rw [newest, List.findSome?_eq_none_iff]
        intro ws hws
        apply versionOf_of_versionAt_eq_none
        exact List.findSome?_eq_none_iff.mp hfirst ws (by simpa using hws)
  · intro halone
    have hsame : (active :: frozen).findSome? (versionAt (slot k)) =
        (active :: frozen).findSome? (versionOf k) := by
      have hmap := List.map_congr_left fun ws hws => versionAt_of_alone (halone ws hws)
      have hfirst := congrArg (List.findSome? id) hmap
      rwa [List.findSome?_map, List.findSome?_map, Function.id_comp, Function.id_comp] at hfirst
    rw [hsame, newest, List.findSome?_cons, List.findSome?_cons]
    cases hactive : versionOf k active with
    | none =>
      have hno : ¬ ∃ w ∈ active, w.row.rowkey = k := by simpa [versionOf] using hactive
      rw [or_iff_right hno]
      exact findSome?_eq_reverse_iff (versionOf k) frozen
    | some row =>
      obtain ⟨w, hw, -⟩ := Option.map_eq_some_iff.mp hactive
      exact iff_of_true rfl
        (Or.inl ⟨w, List.mem_of_find?_eq_some hw, by simpa using List.find?_some hw⟩)

def setOf (key : Bytes) (flag : ObDmlFlag) (value : Bytes) : StoreOp :=
  .set { ctx := {}, row := { dmlFlag := flag, rowkey := ⟨key⟩, rowValue := value } }

def storeAfter (ops : List StoreOp) : History Unit Unit :=
  runOps (fun _ _ log => (0, log)) ops (opened 1 ())

theorem storeAfter_holds (ops : List StoreOp) :
    Holds (storeAfter ops).store (storeAfter ops).active (storeAfter ops).frozen :=
  runOps_holds _ ops ⟨rfl, fun _ ht => (nomatch ht), fun _ => rfl, List.Forall₂.nil⟩

/-- The key is in a frozen memtable and in the active one. -/
theorem readsNewest_iff_example :
    let s := storeAfter [setOf [97] .dfInsert [1], .freeze, setOf [97] .dfUpdate [2]]
    ReadsNewest s.store s.active s.frozen ⟨[97]⟩ ∧
      (newest ⟨[97]⟩ s.active s.frozen).map ObStoreRow.rowValue = some [2] :=
  ⟨((readsNewest_iff (storeAfter_holds _) ⟨[97]⟩).2 (by decide +kernel)).mpr
    (Or.inl (by decide +kernel)), by decide +kernel⟩

/-- Two freezes behind the last write of the key: the read finds the first write. -/
theorem reads_first_frozen :
    let s := storeAfter [setOf [97] .dfInsert [1], .freeze, setOf [97] .dfUpdate [2], .freeze]
    ¬ ReadsNewest s.store s.active s.frozen ⟨[97]⟩ := by
  intro s
  rw [readsNewest_iff_eq (storeAfter_holds _)]
  decide +kernel

end PointReads

section Scans

/-- The writes whose rows a scan of the memtable returns: of each hash value the newest. -/
def shown (t : ObMemtable η) (ws : List Write) : List Write :=
  (t.queryEngine.btree.toList.map Prod.fst).filterMap fun g => ws.find? fun w => w.slot = g

/-- The writes that no later one of their memtable covers under the same hash value. -/
def tops (ws : List Write) : List Write :=
  ws.filter fun w => (ws.find? fun v => v.slot = w.slot) = some w

theorem scan_eq_shown (h : Contents t ws) (results : List ObStoreRow) :
    t.scan results = results ++ (shown t ws).map Write.read := by
  rw [scan_eq_entries, scanEntries_of_contents h, shown, List.map_filterMap, List.map_filterMap]
  simp only [Option.map_map, Function.comp_def]

theorem mem_shown (h : Contents t ws) (w : Write) : w ∈ shown t ws ↔ w ∈ tops ws := by
  rw [shown, tops, List.mem_filterMap, List.mem_filter, decide_eq_true_eq]
  constructor
  · rintro ⟨g, -, hg⟩
    have hslot : w.slot = g := by simpa using List.find?_some hg
    exact ⟨List.mem_of_find?_eq_some hg, hslot ▸ hg⟩
  · rintro ⟨hmem, hw⟩
    exact ⟨w.slot, mem_btree_of_write h hmem, hw⟩

theorem nodup_keys_shown (t : ObMemtable η) (ws : List Write) :
    ((shown t ws).map fun w => w.row.rowkey).Nodup := by
  apply List.pairwise_map.mpr
  refine List.Pairwise.filterMap _ ?_ (btree_increasing t.queryEngine)
  intro g g' hlt w hw v hv hkey
  have hw : w.slot = g := by simpa using List.find?_some hw
  have hv : v.slot = g' := by simpa using List.find?_some hv
  exact UInt64.ne_of_lt hlt (hw.symm.trans ((congrArg slot hkey).trans hv))

/-- Each memtable of the store, in the order in which they are read, with its writes. -/
def tables (s : ObTableStore η) (active : List Write) (frozen : List (List Write)) :
    List (ObMemtable η × List Write) :=
  (s.memtableMgr.activeOrNew :: s.memtableMgr.frozenMemtables).zip (active :: frozen)

def entries (s : ObTableStore η) (active : List Write) (frozen : List (List Write)) :
    List Write :=
  (tables s active frozen).flatMap fun p => shown p.1 p.2

/-- The rows are at most one for each key, its newest version, and none is a delete. -/
structure Agrees (es : List Write) (active : List Write) (frozen : List (List Write)) :
    Prop where
  once : (es.map fun w => w.row.rowkey).Nodup
  isNewest : ∀ w ∈ es, newest w.row.rowkey active frozen = some w.read
  live : ∀ w ∈ es, w.read.isDeleted = false

theorem foldl_scan {ts : List (ObMemtable η)} {wss : List (List Write)}
    (h : List.Forall₂ Contents ts wss) (results : List ObStoreRow) :
    ts.foldl (fun results t => results ++ t.scan []) results =
      results ++ ((ts.zip wss).flatMap fun p => shown p.1 p.2).map Write.read := by
  induction h generalizing results with
  | nil => simp
  | cons ht _ ih =>
    rw [List.foldl_cons, ih, scan_eq_shown ht, List.zip_cons_cons, List.flatMap_cons,
      List.map_append]
    simp

theorem scan_of_holds (h : Holds s active frozen) :
    ∃ s', s.scan = some ((entries s active frozen).map Write.read, s') := by
  refine ⟨{ s with memtableMgr := { s.memtableMgr with
    activeMemtable := some s.memtableMgr.activeOrNew } }, ?_⟩
  simp only [ObTableStore.scan, ObMemTableMgr.getActiveMemtable_eq h.unlocked]
  rw [foldl_scan h.frozenHolds, scan_eq_shown (contents_activeOrNew h), List.nil_append,
    ← List.map_append, entries, tables, List.zip_cons_cons, List.flatMap_cons]

theorem contents_of_mem_tables (h : Holds s active frozen) :
    ∀ p ∈ tables s active frozen, Contents p.1 p.2 := by
  intro p hp
  exact List.forall₂_zip (.cons (contents_activeOrNew h) h.frozenHolds) hp

theorem map_snd_tables (h : Holds s active frozen) :
    (tables s active frozen).map Prod.snd = active :: frozen := by
  rw [tables, List.map_snd_zip]
  simp [h.frozenHolds.length_eq]

theorem mem_entries (h : Holds s active frozen) (w : Write) :
    w ∈ entries s active frozen ↔ ∃ ws ∈ active :: frozen, w ∈ tops ws := by
  rw [entries, List.mem_flatMap, ← map_snd_tables h]
  simp only [List.mem_map, exists_exists_and_eq_and]
  constructor
  · rintro ⟨p, hp, hw⟩
    exact ⟨p, hp, (mem_shown (contents_of_mem_tables h p hp) w).mp hw⟩
  · rintro ⟨p, hp, hw⟩
    exact ⟨p, hp, (mem_shown (contents_of_mem_tables h p hp) w).mpr hw⟩

/-- Of the topmost writes no two in different memtables are of one key, each is the newest of its
key in all memtables, and none is a delete. -/
structure OneLiveVersion (active : List Write) (frozen : List (List Write)) : Prop where
  once : (active :: frozen).Pairwise fun ws vs =>
    ∀ w ∈ tops ws, ∀ v ∈ tops vs, w.row.rowkey ≠ v.row.rowkey
  current : ∀ ws ∈ active :: frozen, ∀ w ∈ tops ws,
    newest w.row.rowkey active frozen = some w.read
  live : ∀ ws ∈ active :: frozen, ∀ w ∈ tops ws, w.read.isDeleted = false

theorem nodup_entries_iff (h : Holds s active frozen) :
    ((entries s active frozen).map fun w => w.row.rowkey).Nodup ↔
      (active :: frozen).Pairwise fun ws vs =>
        ∀ w ∈ tops ws, ∀ v ∈ tops vs, w.row.rowkey ≠ v.row.rowkey := by
  rw [entries, List.map_flatMap, List.nodup_flatMap, ← map_snd_tables h, List.pairwise_map]
  have hdisjoint : ∀ p ∈ tables s active frozen, ∀ q ∈ tables s active frozen,
      ((shown p.1 p.2).map fun w => w.row.rowkey).Disjoint
        ((shown q.1 q.2).map fun w => w.row.rowkey) ↔
          ∀ w ∈ tops p.2, ∀ v ∈ tops q.2, w.row.rowkey ≠ v.row.rowkey := by
    intro p hp q hq
    simp only [List.disjoint_left, List.mem_map, mem_shown (contents_of_mem_tables h p hp),
      mem_shown (contents_of_mem_tables h q hq)]
    constructor
    · intro hdis w hw v hv hkey
      exact hdis ⟨w, hw, rfl⟩ ⟨v, hv, hkey.symm⟩
    · rintro hapart - ⟨w, hw, rfl⟩ ⟨v, hv, hkey⟩
      exact hapart w hw v hv hkey.symm
  constructor
  · rintro ⟨-, hpair⟩
    exact hpair.imp_of_mem fun hp hq hdis => (hdisjoint _ hp _ hq).mp hdis
  · intro hpair
    refine ⟨fun p _ => nodup_keys_shown p.1 p.2, ?_⟩
    exact hpair.imp_of_mem fun hp hq hapart => (hdisjoint _ hp _ hq).mpr hapart

theorem agrees_entries_iff (h : Holds s active frozen) :
    Agrees (entries s active frozen) active frozen ↔ OneLiveVersion active frozen := by
  constructor
  · intro hagrees
    refine ⟨(nodup_entries_iff h).mp hagrees.once, ?_, ?_⟩
    · intro ws hws w hw
      exact hagrees.isNewest w ((mem_entries h w).mpr ⟨ws, hws, hw⟩)
    · intro ws hws w hw
      exact hagrees.live w ((mem_entries h w).mpr ⟨ws, hws, hw⟩)
  · intro hone
    refine ⟨(nodup_entries_iff h).mpr hone.once, ?_, ?_⟩
    · intro w hw
      obtain ⟨ws, hws, htop⟩ := (mem_entries h w).mp hw
      exact hone.current ws hws w htop
    · intro w hw
      obtain ⟨ws, hws, htop⟩ := (mem_entries h w).mp hw
      exact hone.live ws hws w htop

def cachedEntries (s : ObTableStore η) (active : List Write) (frozen : List (List Write)) :
    List Write :=
  (entries s active frozen).filter fun w => isCached w.read

theorem readTurn_yields (cache records : List Bytes) (i : ℕ) (hi : i ≤ cache.length) :
    Yields readTurn (⟨cache, i, true⟩, records)
      (.recordEof, records ++ cache.drop i) := by
  induction hn : cache.length - i generalizing i records with
  | zero =>
    apply yields_stop
    have hlen : (cache.length : ℤ) ≤ i := by omega
    rw [List.drop_eq_nil_of_le (by omega), List.append_nil]
    simp [readTurn, nextRecord, hlen]
  | succ n ih =>
    have hlt : i < cache.length := by omega
    have hlen : ¬ (cache.length : ℤ) ≤ i := by omega
    have hrest := ih (records ++ [cache[i]]) (i + 1) (by omega) (by omega)
    rw [List.append_assoc, List.singleton_append, ← List.drop_eq_getElem_cons hlt] at hrest
    refine yields_again ?_ hrest
    simp [readTurn, nextRecord, hlen, hlt]

theorem openScan_of_holds (h : Holds s active frozen) :
    ∃ scanner s', openScan (some s) {} = some (.success, scanner, s') ∧
      Yields readTurn (scanner, [])
        (.recordEof, (cachedEntries s active frozen).map fun w => w.read.rowValue) := by
  obtain ⟨s', hscan⟩ := scan_of_holds h
  have hcache : (((entries s active frozen).map Write.read).filter isCached).map
      ObStoreRow.rowValue = (cachedEntries s active frozen).map fun w => w.read.rowValue := by
    rw [cachedEntries, List.filter_map, List.map_map]
    rfl
  have hread := readTurn_yields ((cachedEntries s active frozen).map fun w => w.read.rowValue) []
    0 (Nat.zero_le _)
  refine ⟨⟨(cachedEntries s active frozen).map fun w => w.read.rowValue, 0, true⟩, some s', ?_,
    hread⟩
  simp only [openScan, hscan, hcache, List.nil_append]

def ScanAgrees (s : ObTableStore η) (active : List Write) (frozen : List (List Write)) : Prop :=
  ∃ s', s.scan = some ((entries s active frozen).map Write.read, s') ∧
    Agrees (entries s active frozen) active frozen

def ScannerAgrees (s : ObTableStore η) (active : List Write) (frozen : List (List Write)) :
    Prop :=
  ∃ scanner s', openScan (some s) {} = some (.success, scanner, s') ∧
    Yields readTurn (scanner, [])
      (.recordEof, (cachedEntries s active frozen).map fun w => w.read.rowValue) ∧
    Agrees (cachedEntries s active frozen) active frozen

theorem agrees_sublist {es es' : List Write} (h : Agrees es active frozen)
    (hsub : es'.Sublist es) : Agrees es' active frozen :=
  ⟨h.once.sublist (hsub.map _), fun w hw => h.isNewest w (hsub.subset hw),
    fun w hw => h.live w (hsub.subset hw)⟩

/-- Scan and scanner agree with the newest versions exactly when there is nothing to merge and
nothing to drop. -/
theorem scansAgree_iff {s : ObTableStore η} {active : List Write} {frozen : List (List Write)}
    (h : Holds s active frozen) :
    ScanAgrees s active frozen ∧ ScannerAgrees s active frozen ↔ OneLiveVersion active frozen := by
  constructor
  · rintro ⟨⟨-, -, hagrees⟩, -⟩
    exact (agrees_entries_iff h).mp hagrees
  · intro hone
    have hagrees := (agrees_entries_iff h).mpr hone
    obtain ⟨s', hscan⟩ := scan_of_holds h
    obtain ⟨scanner, s'', hopen, hread⟩ := openScan_of_holds h
    exact ⟨⟨s', hscan, hagrees⟩, scanner, s'', hopen, hread,
      agrees_sublist hagrees List.filter_sublist⟩

/-- A key in a frozen memtable and another one in the active memtable. -/
theorem scansAgree_iff_example :
    let s := storeAfter [setOf [97] .dfInsert [1], .freeze, setOf [98] .dfInsert [2]]
    ScanAgrees s.store s.active s.frozen ∧ ScannerAgrees s.store s.active s.frozen :=
  (scansAgree_iff (storeAfter_holds _)).mpr
    ⟨by decide +kernel, by decide +kernel, by decide +kernel⟩

/-- The key is deleted behind a freeze: the scan has both versions, and the scanner hands out
the value that was deleted. -/
theorem deleted_key_is_scanned :
    let s := storeAfter [setOf [97] .dfInsert [1], .freeze, setOf [97] .dfDelete []]
    ¬ ScanAgrees s.store s.active s.frozen ∧ ¬ ScannerAgrees s.store s.active s.frozen := by
  intro s
  have hentry : (⟨{}, { dmlFlag := .dfInsert, rowkey := ⟨[97]⟩, rowValue := [1] }⟩ : Write) ∈
      cachedEntries s.store s.active s.frozen :=
    List.mem_filter.mpr ⟨(mem_entries (storeAfter_holds _) _).mpr
      ⟨_, List.mem_cons_of_mem _ List.mem_cons_self, by decide +kernel⟩, by decide⟩
  have hnewest : newest ⟨[97]⟩ s.active s.frozen ≠
      some (toStoreRow (buildTxNode {} ⟨.dfInsert, [1]⟩)) := by decide +kernel
  constructor
  · rintro ⟨-, -, hagrees⟩
    exact hnewest (hagrees.isNewest _ (List.mem_of_mem_filter hentry))
  · rintro ⟨-, -, -, -, hagrees⟩
    exact hnewest (hagrees.isNewest _ hentry)

end Scans

end TableStoreReads
