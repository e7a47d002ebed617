import LsmStorage.MemtableMap

/-! # Point reads and range reads of the MVCC engine

`get` and `scan` walk the same version chains with tests of their own. A version that the
reader's transaction has committed behind the reader's snapshot passes the test of `scan` only. -/
namespace MvccEngineReads

open MvccRow RowkeyHash Memtable MemtableMap

/-- The states of a query engine: keys are added by `create_kv`, and any chain may take the
place of another as long as the row stays indexed. -/
inductive Reachable : ObQueryEngine → Prop
  | empty : Reachable {}
  | createKv {q : ObQueryEngine} (rowkey : ObStoreRowkey) : Reachable q →
      Reachable (createKv (ObMemtableKey.ofRowkey rowkey) q).2
  | setRow {q : ObQueryEngine} {p : ℕ} {row : ObMvccRow} (row' : ObMvccRow) : Reachable q →
      q.rows p = some row → row'.flag = row.flag →
      Reachable { q with rows := Function.update q.rows p (some row') }

theorem indexed_setRow {q : ObQueryEngine} (hq : Indexed q) {p : ℕ} {row row' : ObMvccRow}
    (hrow : q.rows p = some row) (hflag : row'.flag = row.flag) :
    Indexed { q with rows := Function.update q.rows p (some row') } := by
  refine ⟨hq.btree, hq.injective, hq.allocated, fun h p' hp' => ?_⟩
  obtain ⟨old, hold, hindexed⟩ := hq.row h p' hp'
  by_cases hpp : p' = p
  · subst hpp
    obtain rfl : row = old := Option.some.inj (hrow.symm.trans hold)
    refine ⟨row', by simp, ?_⟩
    rw [ObMvccRow.isBtreeIndexed, hflag]
    exact hindexed
  · exact ⟨old, by simp [hpp, hold], hindexed⟩

theorem indexed_of_reachable {q : ObQueryEngine} (hq : Reachable q) : Indexed q := by
  induction hq with
  | empty => exact indexed_empty
  | createKv rowkey _ ih =>
    obtain ⟨p, q', hcreate, hi, -⟩ := createKv_indexed ih rowkey
    rw [hcreate]
    exact hi
  | setRow row' _ hrow hflag ih => exact indexed_setRow ih hrow hflag

theorem reachable_mvccWrite {q : ObQueryEngine} (hq : Reachable q) (ctx : ObStoreCtx)
    (rowkey : ObStoreRowkey) (data : ObMemtableData) :
    Reachable (mvccWrite ctx (ObMemtableKey.ofRowkey rowkey) data q).2 := by
  have hnext := hq.createKv rowkey
  obtain ⟨p, q', hcreate, hi, hp⟩ := createKv_indexed (indexed_of_reachable hq) rowkey
  obtain ⟨row, hrow, hindexed⟩ := hi.row _ p hp
  simp only [hcreate] at hnext
  simp only [mvccWrite, hcreate, mvccWriteAt, hrow, ObMvccRow.mvccWrite]
  split
  · exact hnext
  split
  · exact hnext
  · have hpush : (row.push ctx (buildTxNode ctx data)).isBtreeIndexed = true := hindexed
    simp only [ne_eq, not_true_eq_false, ↓reduceIte, ObQueryEngine.ensure, Function.update_self,
      Option.any_some, hpush]
    exact hnext.setRow (row.push ctx (buildTxNode ctx data)) hrow rfl

def versionsOf (key : ObMemtableKey) (q : ObQueryEngine) : List ObMvccTransNode :=
  (((q.get key).bind q.rows).map ObMvccRow.versions).getD []

variable (ctx : ObStoreCtx)

theorem engineGet_eq (key : ObMemtableKey) (q : ObQueryEngine) :
    engineGet ctx key q = ((versionsOf key q).find? (isVisible ctx)).map toStoreRow := by
  unfold engineGet versionsOf
  cases (q.get key).bind q.rows with
  | none => rfl
  | some row => exact walk_toStoreRow (fun _ => rfl) row

theorem engineScanRow_eq {key : ObMemtableKey} {q : ObQueryEngine} {p : ℕ}
    (hp : q.get key = some p) :
    engineScanRow ctx q p =
      ((versionsOf key q).find? (isVisibleInScan ctx)).map toStoreRow := by
  unfold engineScanRow versionsOf
  rw [hp, Option.bind_some]
  cases q.rows p with
  | none => rfl
  | some row => exact walk_toStoreRow_of_scan (fun _ => rfl) row

theorem engineScanRow_of_empty {q : ObQueryEngine} {p : ℕ}
    (h : ¬ (q.rows p).any (fun row => !row.isEmpty) = true) : engineScanRow ctx q p = none := by
  unfold engineScanRow
  cases hrow : q.rows p with
  | none => rfl
  | some row =>
    have hempty : row.isEmpty = true := by simpa [hrow] using h
    simp [hempty]

theorem le_maxHash (h : UInt64) : ¬ h > maxHash := by
  have hlt := h.toNat_lt
  have hmax : maxHash.toNat = 2 ^ 64 - 1 := by decide
  rw [gt_iff_lt, UInt64.lt_iff_toNat_lt, hmax]
  omega

section Iterate

variable {q : ObQueryEngine} {p : ℕ} (endExclude : Bool)

theorem filter_iterate_of_absent {entries : List (UInt64 × ℕ)} (habsent : ∀ kv ∈ entries, kv.2 ≠ p)
    (endHash : UInt64) : (q.iterate endHash endExclude entries).filter (· = p) = [] := by
  induction entries with
  | nil => rfl
  | cons kv rest ih =>
    obtain ⟨g, v⟩ := kv
    obtain ⟨hv, hrest⟩ := List.forall_mem_cons.mp habsent
    have hnext := ih hrest
    simp only [ObQueryEngine.iterate]
    split_ifs
    · rfl
    · rfl
    · simpa [hv] using hnext
    · exact hnext

/-- Up to `UINT64_MAX` the iterator comes to every entry with a row that is not empty, except
that an excluded end is the entry of `UINT64_MAX` itself. -/
theorem filter_iterate {entries : List (UInt64 × ℕ)} {h : UInt64}
    (hsorted : entries.Pairwise fun a b => a.1 < b.1) (hmem : (h, p) ∈ entries)
    (honly : ∀ kv ∈ entries, kv.2 = p → kv.1 = h) :
    (q.iterate maxHash endExclude entries).filter (· = p) =
      if endExclude = true ∧ h = maxHash then []
      else if (q.rows p).any fun row => !row.isEmpty then [p] else [] := by
  induction entries with
  | nil => cases hmem
  | cons kv rest ih =>
    obtain ⟨g, v⟩ := kv
    obtain ⟨hfirst, hrest⟩ := List.pairwise_cons.mp hsorted
    rw [ObQueryEngine.iterate, if_neg (le_maxHash g)]
    rcases List.mem_cons.mp hmem with heq | hlater
    · obtain ⟨rfl, rfl⟩ := Prod.mk.inj heq
      have habsent : ∀ kv ∈ rest, kv.2 ≠ p := by
        intro kv hkv hv
        have hlt := hfirst kv hkv
        rw [honly kv (List.mem_cons_of_mem _ hkv) hv] at hlt
        exact UInt64.lt_irrefl h hlt
      have hnone := filter_iterate_of_absent (q := q) endExclude habsent maxHash
      by_cases hend : endExclude = true ∧ h = maxHash
      · simp [hend]
      · rw [if_neg hend, if_neg (by simpa using hend)]
        split
        · rw [List.filter_cons, hnone]
          simp
        · exact hnone
    · have hlt := hfirst _ hlater
      have hne : v ≠ p := by
        rintro rfl
        have hg := honly _ List.mem_cons_self rfl
        rw [← hg] at hlt
        exact UInt64.lt_irrefl g hlt
      have hbefore : g ≠ maxHash := by
        rintro rfl
        exact le_maxHash h hlt
      rw [if_neg (by simp [hbefore])]
      have hnext := ih hrest hlater fun kv hkv => honly kv (List.mem_cons_of_mem _ hkv)
      split
      · rw [List.filter_cons, if_neg (by simpa using hne)]
        exact hnext
      · exact hnext

end Iterate

def scanned (ctx : ObStoreCtx) (startExclude endExclude : Bool) (q : ObQueryEngine) :
    List (ℕ × ObStoreRow) :=
  (q.scan none startExclude none endExclude).filterMap fun p =>
    (engineScanRow ctx q p).map fun row => (p, row)

theorem engineScan_eq (startExclude endExclude : Bool) (q : ObQueryEngine)
    (results : List ObStoreRow) :
    engineScan ctx none startExclude none endExclude q results =
      results ++ (scanned ctx startExclude endExclude q).map Prod.snd := by
  rw [engineScan, scanned, List.map_filterMap]
  simp [Option.map_map, Function.comp_def]

def scannedFor (ctx : ObStoreCtx) (startExclude endExclude : Bool) (q : ObQueryEngine) (p : ℕ) :
    List ObStoreRow :=
  ((scanned ctx startExclude endExclude q).filter fun e => e.1 = p).map Prod.snd

theorem scannedFor_eq_filterMap (startExclude endExclude : Bool) (q : ObQueryEngine) (p : ℕ) :
    scannedFor ctx startExclude endExclude q p =
      ((q.scan none startExclude none endExclude).filter (· = p)).filterMap
        (engineScanRow ctx q) := by
  rw [scannedFor, scanned]
  induction q.scan none startExclude none endExclude with
  | nil => rfl
  | cons v rest ih =>
    cases hrow : engineScanRow ctx q v with
    | none => by_cases hv : v = p <;> simp_all
    | some row => by_cases hv : v = p <;> simp_all

theorem scannedFor_eq {q : ObQueryEngine} (hq : Indexed q) (ctx : ObStoreCtx)
    (startExclude endExclude : Bool) {key : ObMemtableKey} {p : ℕ} (hp : q.get key = some p) :
    scannedFor ctx startExclude endExclude q p =
      if endExclude = true ∧ key.wrapperHash = maxHash then []
      else (engineScanRow ctx q p).toList := by
  have hentries : q.btree.toList.Pairwise fun a b => a.1 < b.1 :=
    List.pairwise_map.mp (btree_increasing q)
  have hstart : q.btree.toList.dropWhile (fun kv => kv.1 < 0) = q.btree.toList := by
    rw [List.dropWhile_eq_self_iff]
    intro hlen
    simp
  have hmem : (key.wrapperHash, p) ∈ q.btree.toList := by
    rw [Std.TreeMap.mem_toList_iff_getElem?_eq_some, hq.btree]
    exact hp
  have honly : ∀ kv ∈ q.btree.toList, kv.2 = p → kv.1 = key.wrapperHash := by
    intro kv hkv hv
    rw [← Prod.mk.eta (p := kv), Std.TreeMap.mem_toList_iff_getElem?_eq_some, hq.btree, hv] at hkv
    exact hq.injective _ _ p hkv hp
  rw [scannedFor_eq_filterMap, ObQueryEngine.scan]
  simp only [Option.map_none, Option.getD_none]
  rw [hstart, filter_iterate endExclude hentries hmem honly]
  by_cases hend : endExclude = true ∧ key.wrapperHash = maxHash
  · rw [if_pos hend, if_pos hend]
    rfl
  rw [if_neg hend, if_neg hend]
  by_cases hrow : (q.rows p).any (fun row => !row.isEmpty) = true
  · rw [if_pos hrow]
    cases hscan : engineScanRow ctx q p <;> simp [hscan]
  · rw [if_neg hrow, engineScanRow_of_empty ctx hrow]
    rfl

def OwnLate (ctx : ObStoreCtx) (n : ObMvccTransNode) : Prop :=
  n.isCommitted = true ∧ n.isAborted = false ∧ ctx.snapshotVersion ≠ obInvalidVersion ∧
    ctx.snapshotVersion < n.transVersion ∧ n.txId = ctx.txId

instance (ctx : ObStoreCtx) (n : ObMvccTransNode) : Decidable (OwnLate ctx n) :=
  inferInstanceAs (Decidable (_ ∧ _))

theorem isVisibleInScan_iff (n : ObMvccTransNode) :
    isVisibleInScan ctx n = true ↔ isVisible ctx n = true ∨ OwnLate ctx n := by
  unfold isVisibleInScan isVisible OwnLate
  cases n.isCommitted
  · simp
  · cases n.isAborted
    · by_cases hinvalid : ctx.snapshotVersion = obInvalidVersion
      · simp [hinvalid]
      · by_cases hle : n.transVersion ≤ ctx.snapshotVersion
        · simp [hle]
        · simp [hinvalid, hle, not_le.mp hle]
    · simp

/-- If the newest version that `scan` accepts is one that `get` skips, then `get` comes to an
undecided version of the transaction with the same content. -/
def LateHidden (ctx : ObStoreCtx) (vs : List ObMvccTransNode) : Prop :=
  ∀ n, vs.find? (isVisibleInScan ctx) = some n → OwnLate ctx n →
    ∃ m, vs.find? (isVisible ctx) = some m ∧ m.isUndecided = true ∧ toStoreRow m = toStoreRow n

theorem find?_isVisible {ctx : ObStoreCtx} {vs : List ObMvccTransNode} {n : ObMvccTransNode}
    (hn : vs.find? (isVisibleInScan ctx) = some n) (hv : isVisible ctx n = true) :
    vs.find? (isVisible ctx) = some n := by
  obtain ⟨-, pre, post, rfl, hpre⟩ := List.find?_eq_some_iff_append.mp hn
  refine List.find?_eq_some_iff_append.mpr ⟨hv, pre, post, rfl, fun m hm => ?_⟩
  have hskip := hpre m hm
  rw [Bool.not_eq_true', Bool.eq_false_iff] at hskip ⊢
  exact fun hvisible => hskip ((isVisibleInScan_iff ctx m).mpr (Or.inl hvisible))

theorem find?_eq_iff (vs : List ObMvccTransNode) :
    (vs.find? (isVisibleInScan ctx)).map toStoreRow = (vs.find? (isVisible ctx)).map toStoreRow ↔
      LateHidden ctx vs := by
  unfold LateHidden
  cases hscan : vs.find? (isVisibleInScan ctx) with
  | none =>
    have hget : vs.find? (isVisible ctx) = none := by
      rw [List.find?_eq_none] at hscan ⊢
      exact fun m hm hv => hscan m hm ((isVisibleInScan_iff ctx m).mpr (Or.inl hv))
    simp [hget]
  | some n =>
    have htest := (isVisibleInScan_iff ctx n).mp (List.find?_some hscan)
    by_cases hlate : OwnLate ctx n
    · constructor
      · intro heq k hk _
        obtain rfl := Option.some.inj hk
        rw [Option.map_some, eq_comm, Option.map_eq_some_iff] at heq
        obtain ⟨m, hm, hsame⟩ := heq
        refine ⟨m, hm, ?_, hsame⟩
        -- a committed version that `get` accepts lies inside the snapshot, so it differs
        have hvisible := List.find?_some hm
        have hversion : m.transVersion = n.transVersion := congrArg ObStoreRow.transVersion hsame
        obtain ⟨-, -, hsnap, hlt, -⟩ := hlate
        have hnot : ¬ m.transVersion ≤ ctx.snapshotVersion := by omega
        unfold isVisible at hvisible
        cases hc : m.isCommitted <;> cases ha : m.isAborted <;>
          simp [hc, ha, hsnap, hnot, ObMvccTransNode.isUndecided] at hvisible ⊢
      · intro h
        obtain ⟨m, hm, -, hsame⟩ := h n rfl hlate
        rw [hm, Option.map_some, Option.map_some, hsame]
    · have hget := find?_isVisible hscan (htest.resolve_right hlate)
      rw [hget]
      refine iff_of_true rfl fun k hk hk' => ?_
      obtain rfl := Option.some.inj hk
      exact absurd hk' hlate

def ReadsAgree (ctx : ObStoreCtx) (startExclude endExclude : Bool) (key : ObMemtableKey)
    (q : ObQueryEngine) : Prop :=
  match q.get key with
  | none => engineGet ctx key q = none
  | some p => scannedFor ctx startExclude endExclude q p = (engineGet ctx key q).toList

/-- Point read and range read agree exactly when the newest version that is visible or committed
late by the reader is not such a late one (up to its content), and, with an excluded end, when
there is nothing to find under the largest hash value. -/
theorem reads_agree_iff {q : ObQueryEngine} (hq : Reachable q) (ctx : ObStoreCtx)
    (startExclude endExclude : Bool) (key : ObMemtableKey) :
    ReadsAgree ctx startExclude endExclude key q ↔
      if endExclude = true ∧ key.wrapperHash = maxHash then
        (versionsOf key q).find? (isVisible ctx) = none
      else LateHidden ctx (versionsOf key q) := by
  unfold ReadsAgree
  cases hp : q.get key with
  | none =>
    have hnil : versionsOf key q = [] := by simp [versionsOf, hp]
    simp [engineGet_eq, hnil, LateHidden]
  | some p =>
    dsimp only
    rw [scannedFor_eq (indexed_of_reachable hq) ctx startExclude endExclude hp, engineGet_eq]
    by_cases hend : endExclude = true ∧ key.wrapperHash = maxHash
    · rw [if_pos hend, if_pos hend]
      cases (versionsOf key q).find? (isVisible ctx) <;> simp
    · rw [if_neg hend, if_neg hend, ← find?_eq_iff, engineScanRow_eq ctx hp]
      generalize ((versionsOf key q).find? (isVisibleInScan ctx)).map toStoreRow = ranged
      generalize ((versionsOf key q).find? (isVisible ctx)).map toStoreRow = found
      cases ranged <;> cases found <;> simp

def sampleWrite : Write :=
  ⟨{ txId := 5 }, { dmlFlag := .dfInsert, rowkey := ⟨[7]⟩, rowValue := [1] }⟩

def sampleKey : ObMemtableKey := ObMemtableKey.ofRowkey sampleWrite.row.rowkey

theorem reachable_sample :
    ∃ q p, Reachable q ∧ q.get sampleKey = some p ∧
      versionsOf sampleKey q = [sampleWrite.node] := by
  obtain ⟨q, hwrite, hq⟩ := mvccWrite_represents represents_empty sampleWrite
  have hreach := reachable_mvccWrite .empty sampleWrite.ctx sampleWrite.row.rowkey sampleWrite.data
  rw [hwrite] at hreach
  have hfresh : ¬ Stale sampleWrite [] := by decide
  rw [if_neg hfresh] at hq
  have hversions : versionsOf sampleKey q = [sampleWrite.node] := by
    have hrow := versions_of_represents hq sampleWrite.slot
    rw [writesAt_cons, if_pos rfl] at hrow
    rw [versionsOf, sampleKey, get_ofRowkey]
    exact hrow
  cases hp : q.get sampleKey with
  | none => simp [versionsOf, hp] at hversions
  | some p => exact ⟨q, p, hreach, hp, hversions⟩

/-- With the snapshot 1 both reads return the row. -/
theorem reads_agree_iff_example :
    ∃ q, Reachable q ∧ versionsOf sampleKey q = [sampleWrite.node] ∧
      ReadsAgree ⟨5, 1⟩ true false sampleKey q := by
  obtain ⟨q, p, hq, -, hversions⟩ := reachable_sample
  refine ⟨q, hq, hversions, (reads_agree_iff hq ⟨5, 1⟩ true false sampleKey).mpr ?_⟩
  rw [if_neg (by decide), hversions]
  intro n hn hlate
  have hfirst : [sampleWrite.node].find? (isVisibleInScan ⟨5, 1⟩) = some sampleWrite.node := by
    decide
  obtain rfl := Option.some.inj (hfirst.symm.trans hn)
  exact absurd hlate (by decide)

/-- With the snapshot 0 the transaction that has written the row finds nothing by its key and
gets the row from a scan. -/
theorem late_commit_is_scanned :
    ∃ q p, Reachable q ∧ q.get sampleKey = some p ∧ engineGet ⟨5, 0⟩ sampleKey q = none ∧
      scannedFor ⟨5, 0⟩ false false q p = [sampleWrite.read] ∧
      ¬ ReadsAgree ⟨5, 0⟩ false false sampleKey q := by
  obtain ⟨q, p, hq, hp, hversions⟩ := reachable_sample
  have hget : engineGet ⟨5, 0⟩ sampleKey q = none := by
    rw [engineGet_eq, hversions]
    decide
  have hscan : scannedFor ⟨5, 0⟩ false false q p = [sampleWrite.read] := by
    rw [scannedFor_eq (indexed_of_reachable hq) _ _ _ hp, if_neg (by decide),
      engineScanRow_eq _ hp, hversions]
    decide
  refine ⟨q, p, hq, hp, hget, hscan, ?_⟩
  simp [ReadsAgree, hp, hget, hscan]

end MvccEngineReads
