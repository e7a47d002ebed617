import LsmStorage.MvccEngineReads
import Mathlib.Data.List.Sort

/-! # A memtable as a map from hash values to version chains

Point reads and scans depend on the indexes of a memtable only through the chain of versions
under each hash value. A `set` leaves all chains as they are, or puts one committed version on
top of one of them, where it cuts off the aborted versions. Chains may hold committed, aborted
and undecided versions: nothing here asks where they come from. -/
namespace MemtableVersions

open ByteCodec MvccRow RowkeyHash Memtable MemtableMap MvccEngineReads ObMemtable

/-- The row under a hash value, or what `create_kv` would put there. -/
def rowAt (h : UInt64) (q : ObQueryEngine) : ObMvccRow :=
  ((q.keyhash h).bind q.rows).getD indexedRow

def versionsAt (h : UInt64) (q : ObQueryEngine) : List ObMvccTransNode :=
  (((q.keyhash h).bind q.rows).map ObMvccRow.versions).getD []

theorem versionsAt_eq (h : UInt64) (q : ObQueryEngine) : versionsAt h q = (rowAt h q).versions := by
  unfold versionsAt rowAt
  cases (q.keyhash h).bind q.rows <;> rfl

theorem rowAt_of_row {q : ObQueryEngine} {h : UInt64} {p : ℕ} {row : ObMvccRow}
    (hp : q.keyhash h = some p) (hrow : q.rows p = some row) : rowAt h q = row := by
  simp [rowAt, hp, hrow]

theorem versionsAt_of_absent {q : ObQueryEngine} {h : UInt64} (hp : q.keyhash h = none) :
    versionsAt h q = [] := by
  simp [versionsAt, hp]

/-- The states of a query engine: the indexes are in step, and the flags of every version are
those of a version that is undecided, committed or aborted. -/
structure WellFormed (q : ObQueryEngine) : Prop where
  indexed : Indexed q
  status : ∀ h, ∀ n ∈ versionsAt h q, n.HasStatus

theorem wellFormed_empty : WellFormed {} := ⟨indexed_empty, by simp [versionsAt]⟩

section Engine

variable {q : ObQueryEngine}

theorem rowAt_newRow {q' : ObQueryEngine} {h : UInt64} (hq : Indexed q)
    (hn : NewRow q h indexedRow q') (g : UInt64) : rowAt g q' = rowAt g q := by
  cases hp : q'.keyhash g with
  | none =>
    have hgh : g ≠ h := by
      rintro rfl
      cases hn.keyhash_self.symm.trans hp
    have hold : q.keyhash g = none := hn.keyhash_of_ne hgh ▸ hp
    simp [rowAt, hp, hold]
  | some p =>
    rcases hn.cases hq hp with ⟨rfl, -, hrow⟩ | ⟨-, hold, -, hrow⟩
    · simp [rowAt, hp, hrow, hn.absent]
    · simp [rowAt, hp, hold, hrow]

theorem createKv_rowAt (hq : Indexed q) (rowkey : ObStoreRowkey) :
    ∃ p q', createKv (ObMemtableKey.ofRowkey rowkey) q = (some p, q') ∧ Indexed q' ∧
      q'.keyhash (slot rowkey) = some p ∧ q'.rows p = some (rowAt (slot rowkey) q) ∧
      (rowAt (slot rowkey) q).isBtreeIndexed = true ∧ ∀ g, rowAt g q' = rowAt g q := by
  rcases createKv_cases q rowkey with ⟨p, hp, hcreate⟩ | ⟨q', hcreate, hn⟩
  · obtain ⟨row, hrow, hindexed⟩ := hq.row _ p hp
    rw [rowAt_of_row hp hrow]
    exact ⟨p, q, hcreate, hq, hp, hrow, hindexed, fun _ => rfl⟩
  · have hnew : rowAt (slot rowkey) q = indexedRow := by simp [rowAt, hn.absent]
    rw [hnew]
    exact ⟨q.fresh, q', hcreate, indexed_newRow hq hn isBtreeIndexed_indexedRow,
      hn.keyhash_self, by rw [hn.rows, Function.update_self], isBtreeIndexed_indexedRow,
      rowAt_newRow hq hn⟩

theorem rowAt_setRow (hq : Indexed q) {h : UInt64} {p : ℕ} (hp : q.keyhash h = some p)
    (row : ObMvccRow) (g : UInt64) :
    rowAt g { q with rows := Function.update q.rows p (some row) } =
      if h = g then row else rowAt g q := by
  split
  · next hg =>
    subst hg
    exact rowAt_of_row hp (by simp)
  · next hg =>
    cases hp' : q.keyhash g with
    | none => simp [rowAt, hp']
    | some p' =>
      have hpp : p' ≠ p := by
        rintro rfl
        exact hg (hq.injective _ _ _ hp hp')
      simp [rowAt, hp', hpp]

/-- The newest version that is not aborted is another transaction's and undecided, or a write at a
later snapshot was accepted. -/
def Blocked (ctx : ObStoreCtx) (h : UInt64) (q : ObQueryEngine) : Prop :=
  ObMvccRow.conflicts ctx.txId (rowAt h q).versions = true ∨
    (rowAt h q).isTransactionSetViolation ctx.snapshotVersion = true

theorem mvccWrite_cases (hq : Indexed q) (ctx : ObStoreCtx) (rowkey : ObStoreRowkey)
    (data : ObMemtableData) :
    ∃ ret q', mvccWrite ctx (ObMemtableKey.ofRowkey rowkey) data q = (ret, q') ∧ Indexed q' ∧
      ((ret ≠ 0 ∧ Blocked ctx (slot rowkey) q ∧ ∀ g, rowAt g q' = rowAt g q) ∨
        (ret = 0 ∧ ¬ Blocked ctx (slot rowkey) q ∧ ∀ g, rowAt g q' =
          if slot rowkey = g then (rowAt g q).push ctx (buildTxNode ctx data)
          else rowAt g q)) := by
  obtain ⟨p, q₁, hcreate, hq₁, hp, hrow, hindexed, hsame⟩ := createKv_rowAt hq rowkey
  simp only [mvccWrite, hcreate, mvccWriteAt, hrow, ObMvccRow.mvccWrite_eq]
  split
  · next hc => exact ⟨-1, q₁, by simp, hq₁, Or.inl ⟨by decide, Or.inl hc, hsame⟩⟩
  next hc =>
  split
  · next hv => exact ⟨-1, q₁, by simp, hq₁, Or.inl ⟨by decide, Or.inr hv, hsame⟩⟩
  · next hv =>
    let row' := (rowAt (slot rowkey) q).push ctx (buildTxNode ctx data)
    have hpush : row'.isBtreeIndexed = true := hindexed
    refine ⟨0, { q₁ with rows := Function.update q₁.rows p (some row') }, ?_, ?_,
      Or.inr ⟨rfl, not_or.mpr ⟨hc, hv⟩, fun g => ?_⟩⟩
    · simp [ObQueryEngine.ensure, hpush, row']
    · exact indexed_setRow hq₁ hrow rfl
    · rw [rowAt_setRow hq₁ hp, hsame g]
      split
      · next hg => rw [← hg]
      · rfl

end Engine

section Set

variable {η L : Type*} {t t' : ObMemtable η}

structure Refused (t t' : ObMemtable η) : Prop where
  indexed : Indexed t'.queryEngine
  rows : ∀ h, rowAt h t'.queryEngine = rowAt h t.queryEngine
  rowCount : t'.rowCount = t.rowCount
  occupySize : t'.occupySize = t.occupySize

structure Accepted (w : Write) (t t' : ObMemtable η) : Prop where
  indexed : Indexed t'.queryEngine
  rows : ∀ h, rowAt h t'.queryEngine =
    if w.slot = h then (rowAt h t.queryEngine).push w.ctx w.node else rowAt h t.queryEngine
  rowCount : t'.rowCount = t.rowCount + 1
  occupySize : t'.occupySize = t.occupySize + w.data.size

theorem Refused.versions (h : Refused t t') (g : UInt64) :
    versionsAt g t'.queryEngine = versionsAt g t.queryEngine := by
  rw [versionsAt_eq, versionsAt_eq, h.rows]

theorem Accepted.versions {w : Write} (h : Accepted w t t') (g : UInt64) :
    versionsAt g t'.queryEngine =
      if w.slot = g then w.node :: (versionsAt g t.queryEngine).dropWhile ObMvccTransNode.isAborted
      else versionsAt g t.queryEngine := by
  rw [versionsAt_eq, versionsAt_eq, h.rows]
  split
  · rw [ObMvccRow.versions_push, bare_node]
  · rfl

theorem Refused.refl (ht : Indexed t.queryEngine) : Refused t t :=
  ⟨ht, fun _ => rfl, rfl, rfl⟩

theorem apply_cases (ht : Indexed t.queryEngine) (w : Write) :
    ((t.apply w.ctx w.row).1 ≠ 0 ∧ Blocked w.ctx w.slot t.queryEngine ∧
        Refused t (t.apply w.ctx w.row).2) ∨
      ((t.apply w.ctx w.row).1 = 0 ∧ ¬ Blocked w.ctx w.slot t.queryEngine ∧
        Accepted w t (t.apply w.ctx w.row).2) := by
  obtain ⟨ret, q, hwrite, hq, hcases⟩ := mvccWrite_cases ht w.ctx w.row.rowkey w.data
  simp only [Write.data] at hwrite
  rcases hcases with ⟨hret, hblocked, hsame⟩ | ⟨rfl, hfree, hrows⟩
  · left
    simp only [ObMemtable.apply, hwrite, ne_eq, hret, not_false_eq_true, ↓reduceIte]
    exact ⟨trivial, hblocked, hq, hsame, rfl, rfl⟩
  · right
    simp only [ObMemtable.apply, hwrite, ne_eq, not_true_eq_false, ↓reduceIte]
    exact ⟨trivial, hfree, hq, hrows, rfl, rfl⟩

theorem set_cases (append : η → Bytes → L → ℤ × L) (mallocOk : Bool) (ht : Indexed t.queryEngine)
    (w : Write) (log : L) :
    ((t.set append mallocOk w.ctx w.row log).1 ≠ 0 ∧
        Refused t (t.set append mallocOk w.ctx w.row log).2.1) ∨
      ((t.set append mallocOk w.ctx w.row log).1 = 0 ∧
        Accepted w t (t.set append mallocOk w.ctx w.row log).2.1) := by
  rcases set_eq_or_apply append mallocOk w.ctx w.row t log with ⟨hret, heq⟩ | ⟨hret, heq⟩
  · rw [heq]
    exact Or.inl ⟨hret, .refl ht⟩
  · rw [hret, heq]
    rcases apply_cases ht w with ⟨hret, -, hrefused⟩ | ⟨hret, -, haccepted⟩
    · exact Or.inl ⟨hret, hrefused⟩
    · exact Or.inr ⟨hret, haccepted⟩

theorem set_accepted {append : η → Bytes → L → ℤ × L} {mallocOk : Bool}
    (ht : Indexed t.queryEngine) {w : Write} {log log' : L}
    (hset : t.set append mallocOk w.ctx w.row log = (0, t', log')) : Accepted w t t' := by
  rcases set_cases append mallocOk ht w log with ⟨hret, -⟩ | ⟨-, haccepted⟩
  · rw [hset] at hret
    exact absurd rfl hret
  · rw [hset] at haccepted
    exact haccepted

theorem hasStatus_buildTxNode (ctx : ObStoreCtx) (data : ObMemtableData) :
    (buildTxNode ctx data).HasStatus :=
  ObMvccTransNode.HasStatus.transCommit (Or.inl rfl) 1

theorem hasStatus_node (w : Write) : w.node.HasStatus := hasStatus_buildTxNode w.ctx w.data

theorem Refused.wellFormed (h : Refused t t') (ht : WellFormed t.queryEngine) :
    WellFormed t'.queryEngine := by
  refine ⟨h.indexed, fun g n hn => ht.status g n ?_⟩
  rwa [h.versions] at hn

theorem Accepted.wellFormed {w : Write} (h : Accepted w t t') (ht : WellFormed t.queryEngine) :
    WellFormed t'.queryEngine := by
  refine ⟨h.indexed, fun g n hn => ?_⟩
  rw [h.versions] at hn
  split at hn
  · rcases List.mem_cons.mp hn with rfl | hn
    · exact hasStatus_node w
    · exact ht.status g n ((List.dropWhile_sublist _).subset hn)
  · exact ht.status g n hn

end Set

section Reads

variable {η : Type*} {t : ObMemtable η}

theorem get_eq (ctx : ObStoreCtx) (k : ObStoreRowkey) (t : ObMemtable η) :
    t.get ctx k =
      ((versionsAt (slot k) t.queryEngine).find? (isVisible ctx)).map toStoreRow := by
  have hkey : versionsOf (ObMemtableKey.ofRowkey k) t.queryEngine =
      versionsAt (slot k) t.queryEngine := by
    rw [versionsOf, get_ofRowkey]
    rfl
  rw [ObMemtable.get, engineGet_eq, hkey]

def scanned (vs : List ObMvccTransNode) : Option ObStoreRow :=
  (vs.find? isScanned).map toStoreRow

theorem scanRow_eq {q : ObQueryEngine} {h : UInt64} {p : ℕ} (hp : q.keyhash h = some p) :
    scanRow q p = scanned (versionsAt h q) := by
  unfold scanRow versionsAt scanned
  rw [hp, Option.bind_some]
  cases q.rows p with
  | none => rfl
  | some row => exact walk_toStoreRow_of_scan (fun _ => rfl) row

theorem scanned_eq_head {vs : List ObMvccTransNode} (h : ∀ n ∈ vs, n.HasStatus) :
    scanned vs = vs.head?.map toStoreRow := by
  cases vs with
  | nil => rfl
  | cons n vs =>
    have hscan : isScanned n = true := by
      simp [isScanned, (h n List.mem_cons_self).isInit]
    simp [scanned, hscan]

theorem mem_scanEntries (ht : Indexed t.queryEngine) (e : UInt64 × ObStoreRow) :
    e ∈ scanEntries t ↔ scanned (versionsAt e.1 t.queryEngine) = some e.2 := by
  obtain ⟨h, row⟩ := e
  simp only [scanEntries, List.mem_filterMap, Option.map_eq_some_iff, Prod.mk.injEq]
  constructor
  · rintro ⟨kv, hkv, row', hrow', rfl, rfl⟩
    have hp := Std.TreeMap.mem_toList_iff_getElem?_eq_some.mp hkv
    rw [ht.btree] at hp
    rw [← scanRow_eq hp, hrow']
  · intro hscan
    cases hp : t.queryEngine.keyhash h with
    | none =>
      rw [versionsAt_of_absent hp] at hscan
      cases hscan
    | some p =>
      refine ⟨(h, p), ?_, row, ?_, rfl, rfl⟩
      · rw [Std.TreeMap.mem_toList_iff_getElem?_eq_some, ht.btree, hp]
      · rw [scanRow_eq hp, hscan]

theorem scanEntries_increasing (t : ObMemtable η) :
    (scanEntries t).Pairwise fun a b => a.1 < b.1 := by
  have hsorted : t.queryEngine.btree.toList.Pairwise fun a b => a.1 < b.1 :=
    List.pairwise_map.mp (btree_increasing t.queryEngine)
  refine hsorted.filterMap _ fun a b hab e he e' he' => ?_
  obtain ⟨_, -, rfl⟩ := Option.map_eq_some_iff.mp he
  obtain ⟨_, -, rfl⟩ := Option.map_eq_some_iff.mp he'
  exact hab

theorem scanEntries_congr {t' : ObMemtable η} (ht : Indexed t.queryEngine)
    (ht' : Indexed t'.queryEngine)
    (hsame : ∀ h, versionsAt h t'.queryEngine = versionsAt h t.queryEngine) :
    scanEntries t' = scanEntries t := by
  have hirrefl : Std.Irrefl fun a b : UInt64 × ObStoreRow => a.1 < b.1 :=
    ⟨fun a => UInt64.lt_irrefl a.1⟩
  have hantisymm : Std.Antisymm fun a b : UInt64 × ObStoreRow => a.1 < b.1 :=
    ⟨fun _ _ hab hba => absurd hba (UInt64.lt_asymm hab)⟩
  refine (scanEntries_increasing t').eq_of_mem_iff (scanEntries_increasing t) fun e => ?_
  rw [mem_scanEntries ht', mem_scanEntries ht, hsame]

structure SameReads (t t' : ObMemtable η) : Prop where
  get : ∀ ctx k, t'.get ctx k = t.get ctx k
  scan : ∀ results, t'.scan results = t.scan results
  rowCount : t'.rowCount = t.rowCount
  occupySize : t'.occupySize = t.occupySize

theorem Refused.sameReads {t' : ObMemtable η} (h : Refused t t') (ht : Indexed t.queryEngine) :
    SameReads t t' := by
  refine ⟨fun ctx k => ?_, fun results => ?_, h.rowCount, h.occupySize⟩
  · rw [get_eq, get_eq, h.versions]
  · rw [scan_eq_entries, scan_eq_entries, scanEntries_congr ht h.indexed h.versions]

theorem find?_dropWhile_of_imp {α : Type*} {p drop : α → Bool} {l : List α}
    (h : ∀ a ∈ l, drop a = true → p a = false) : (l.dropWhile drop).find? p = l.find? p := by
  induction l with
  | nil => rfl
  | cons a l ih =>
    have hrest := ih fun b hb => h b (List.mem_cons_of_mem a hb)
    rw [List.dropWhile_cons]
    split
    · next hdrop => rw [hrest, List.find?_cons, h a List.mem_cons_self hdrop]
    · rfl

theorem isVisible_of_aborted {n : ObMvccTransNode} (hn : n.HasStatus) (ha : n.isAborted = true)
    (ctx : ObStoreCtx) : isVisible ctx n = false := by
  simp [isVisible, hn.not_committed ha, ha]

def SeesWrites (ctx : ObStoreCtx) : Prop :=
  ctx.snapshotVersion = obInvalidVersion ∨ 1 ≤ ctx.snapshotVersion

instance (ctx : ObStoreCtx) : Decidable (SeesWrites ctx) :=
  inferInstanceAs (Decidable (_ ∨ _))

theorem isVisible_node (ctx : ObStoreCtx) (w : Write) :
    isVisible ctx w.node = decide (SeesWrites ctx) :=
  isVisible_write ctx w

theorem Accepted.get {w : Write} {t' : ObMemtable η} (h : Accepted w t t')
    (ht : WellFormed t.queryEngine) (ctx : ObStoreCtx) (k : ObStoreRowkey) :
    t'.get ctx k =
      if w.slot = slot k ∧ SeesWrites ctx then some w.read else t.get ctx k := by
  rw [get_eq, get_eq, h.versions]
  by_cases hslot : w.slot = slot k
  · rw [if_pos hslot, List.find?_cons, isVisible_node]
    by_cases hsees : SeesWrites ctx
    · rw [if_pos ⟨hslot, hsees⟩, decide_eq_true hsees]
      rfl
    · rw [if_neg fun hc => hsees hc.2, decide_eq_false hsees, find?_dropWhile_of_imp]
      exact fun n hn ha => isVisible_of_aborted (ht.status _ n hn) ha ctx
  · rw [if_neg hslot, if_neg fun hc => hslot hc.1]

end Reads

section Samples

def fresh : ObMemtable Unit := ObMemtable.create 1

def noLog (_ : Unit) (_ : Bytes) (log : Unit) : ℤ × Unit := (0, log)

theorem wellFormed_fresh : WellFormed fresh.queryEngine := wellFormed_empty

theorem get_fresh (ctx : ObStoreCtx) (k : ObStoreRowkey) : fresh.get ctx k = none := by
  rw [get_eq]
  rfl

theorem set_of_contents {t : ObMemtable Unit} {ws : List Write} (h : Contents t ws)
    (hsame : SameState fresh t) (w : Write) :
    ∃ t', t.set noLog true w.ctx w.row () = (if Stale w ws then -1 else 0, t', ()) ∧
      Contents t' (if Stale w ws then ws else w :: ws) ∧ SameState fresh t' := by
  obtain ⟨t', happly, hcontents, hsame'⟩ := apply_contents h w
  exact ⟨t', set_quiet noLog hsame.isInited hsame.isFrozen hsame.logHandler happly (), hcontents,
    hsame'.isInited.trans hsame.isInited, hsame'.isFrozen.trans hsame.isFrozen,
    hsame'.logHandler.trans hsame.logHandler⟩

theorem set_fresh (w : Write) (hsnap : 0 ≤ w.ctx.snapshotVersion) :
    ∃ t', fresh.set noLog true w.ctx w.row () = (0, t', ()) ∧ Contents t' [w] ∧
      SameState fresh t' := by
  have hfresh : ¬ Stale w [] := fun hstale => absurd hstale.2 (not_lt.mpr hsnap)
  have hset := set_of_contents (contents_create 1) (.refl fresh) w
  rwa [if_neg hfresh, if_neg hfresh] at hset

def keyA : ObStoreRowkey := ⟨[97]⟩

def keyB : ObStoreRowkey := ⟨[98]⟩

def insertA : Write := ⟨⟨2, 9⟩, { dmlFlag := .dfInsert, rowkey := keyA, rowValue := [1] }⟩

end Samples

end MemtableVersions
