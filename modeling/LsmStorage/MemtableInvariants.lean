import LsmStorage.MemtableVersions

/-! # What holds after any calls of `set`

The hash table and the ordered index are one map into rows that carry both index flags. The
version watermark of the memtable counts every accepted snapshot, also `OB_INVALID_VERSION`; the
watermark of a row leaves that one out. -/
namespace MemtableInvariants

open ByteCodec MvccRow RowkeyHash Memtable MemtableMap MvccEngineReads
open MemtableVersions (noLog insertA)

variable {η L : Type*}

def opened (tabletId : ℤ) (handler : Option η) (log : L) : Session η L :=
  ⟨(ObMemtable.create tabletId).setLogHandler handler, log, []⟩

section Indexes

theorem isHashIndexed_of_reachable {q : ObQueryEngine} (hq : Reachable q) {h : UInt64} {p : ℕ}
    {row : ObMvccRow} (hp : q.keyhash h = some p) (hrow : q.rows p = some row) :
    row.isHashIndexed = true := by
  induction hq generalizing h p row with
  | empty => cases hp
  | @createKv q rowkey hq ih =>
    rcases createKv_cases q rowkey with ⟨p', -, hcreate⟩ | ⟨q', hcreate, hn⟩
    · rw [hcreate] at hp hrow
      exact ih hp hrow
    · rw [hcreate] at hp hrow
      rcases hn.cases (indexed_of_reachable hq) hp with ⟨-, -, hnew⟩ | ⟨-, hold, -, hsame⟩
      · obtain rfl : indexedRow = row := Option.some.inj (hnew.symm.trans hrow)
        decide
      · exact ih hold (hsame.symm.trans hrow)
  | @setRow q p' old row' hq hold hflag ih =>
    by_cases hpp : p = p'
    · subst hpp
      obtain rfl : row' = row := by simpa using hrow
      rw [ObMvccRow.isHashIndexed, hflag]
      exact ih hp hold
    · exact ih hp (by simpa [hpp] using hrow)

theorem reachable_apply {t : ObMemtable η} (ht : Reachable t.queryEngine) (ctx : ObStoreCtx)
    (row : ObStoreRow) : Reachable (t.apply ctx row).2.queryEngine := by
  have hwrite := reachable_mvccWrite ht ctx row.rowkey ⟨row.dmlFlag, row.rowValue⟩
  unfold ObMemtable.apply
  dsimp only
  split <;> exact hwrite

theorem reachable_set (append : η → Bytes → L → ℤ × L) (mallocOk : Bool) {t : ObMemtable η}
    (ht : Reachable t.queryEngine) (ctx : ObStoreCtx) (row : ObStoreRow) (log : L) :
    Reachable (t.set append mallocOk ctx row log).2.1.queryEngine := by
  rcases set_eq_or_apply append mallocOk ctx row t log with ⟨-, heq⟩ | ⟨-, heq⟩
  · rw [heq]
    exact ht
  · rw [heq]
    exact reachable_apply ht ctx row

theorem reachable_runSets (append : η → Bytes → L → ℤ × L) (calls : List SetCall)
    {s : Session η L} (hs : Reachable s.memtable.queryEngine) :
    Reachable (runSets append calls s).memtable.queryEngine := by
  induction calls generalizing s with
  | nil => exact hs
  | cons c cs ih =>
    exact ih (s := s.step append c) (reachable_set append c.mallocOk hs c.ctx c.row s.log)

/-- After any calls of `set`, accepted or not, both indexes are the same map, every row of it has
both flags, and all ways to the hash value of a key give the same value. -/
theorem indexes_in_step (append : η → Bytes → L → ℤ × L) (tabletId : ℤ) (handler : Option η)
    (log : L) (calls : List SetCall) :
    let q := (runSets append calls (opened tabletId handler log)).memtable.queryEngine
    (∀ h : UInt64, q.btree[h]? = q.keyhash h) ∧
    (∀ h p, q.keyhash h = some p →
      ∃ row, q.rows p = some row ∧ row.isHashIndexed = true ∧ row.isBtreeIndexed = true) ∧
    ∀ rowkey : ObStoreRowkey,
      (ObMemtableKey.ofRowkey rowkey).hashVal = rowkey.murmurhash 0 ∧
      (ObMemtableKey.ofRowkey rowkey).wrapperHash = rowkey.murmurhash 0 ∧
      (ObMemtableKey.ofData rowkey.buf).hashVal = rowkey.murmurhash 0 := by
  intro q
  have hq : Reachable q := reachable_runSets append calls .empty
  have hi := indexed_of_reachable hq
  refine ⟨hi.btree, fun h p hp => ?_, fun rowkey => ⟨slot_eq_murmurhash rowkey, ?_,
    hashVal_ofData rowkey⟩⟩
  · obtain ⟨row, hrow, hindexed⟩ := hi.row h p hp
    exact ⟨row, hrow, isHashIndexed_of_reachable hq hp hrow, hindexed⟩
  · rw [ObMemtableKey.wrapperHash_ofRowkey]
    exact slot_eq_murmurhash rowkey

end Indexes

section Watermark

def peak : List Write → ℤ
  | [] => 0
  | w :: ws => if w.ctx.snapshotVersion > peak ws then w.ctx.snapshotVersion else peak ws

theorem lt_peak_iff (s : ℤ) (ws : List Write) :
    s < peak ws ↔ s < 0 ∨ ∃ w ∈ ws, s < w.ctx.snapshotVersion := by
  induction ws with
  | nil => simp [peak]
  | cons w ws ih =>
    rw [peak, List.exists_mem_cons_iff, ← or_assoc, or_right_comm, ← ih]
    split <;> omega

theorem lt_watermark_iff (s : ℤ) (h : UInt64) (ws : List Write) :
    s < watermark h ws ↔ s < 0 ∨ ∃ w ∈ ws, w.slot = h ∧
      w.ctx.snapshotVersion ≠ obInvalidVersion ∧ s < w.ctx.snapshotVersion := by
  induction ws with
  | nil => simp [watermark]
  | cons w ws ih =>
    rw [watermark, List.exists_mem_cons_iff, ← or_assoc, or_right_comm, ← ih]
    by_cases hslot : w.slot = h
    · by_cases hvalid : w.ctx.snapshotVersion = obInvalidVersion
      · simp [hvalid]
      · simp only [hslot, hvalid, ne_eq, not_false_eq_true, and_true, true_and]
        split <;> omega
    · simp [hslot]

theorem lt_foldr_max_iff (s : ℤ) (l : List ℤ) : s < l.foldr max 0 ↔ s < 0 ∨ ∃ v ∈ l, s < v := by
  induction l with
  | nil => simp
  | cons v l ih =>
    rw [List.foldr_cons, lt_max_iff, ih, List.exists_mem_cons_iff]
    tauto

def rowsMax (q : ObQueryEngine) : ℤ :=
  ((q.btree.toList.filterMap fun kv => q.rows kv.2).map ObMvccRow.maxTransVersion).foldr max 0

theorem lt_rowsMax_iff {q : ObQueryEngine} {ws : List Write} (hq : Represents q ws) (s : ℤ) :
    s < rowsMax q ↔ s < 0 ∨ ∃ w ∈ ws, w.ctx.snapshotVersion ≠ obInvalidVersion ∧
      s < w.ctx.snapshotVersion := by
  rw [rowsMax, lt_foldr_max_iff]
  refine or_congr_right' fun hs => ?_
  simp only [List.mem_map, List.mem_filterMap]
  constructor
  · rintro ⟨_, ⟨row, ⟨kv, hkv, hrow⟩, rfl⟩, hlt⟩
    have hp := Std.TreeMap.mem_toList_iff_getElem?_eq_some.mp hkv
    rw [hq.btree] at hp
    obtain ⟨row', hrow', hholds⟩ := hq.row _ _ hp
    obtain rfl : row = row' := Option.some.inj (hrow.symm.trans hrow')
    rw [hholds.watermark, lt_watermark_iff] at hlt
    rcases hlt with hneg | ⟨w, hw, -, hvalid, hlt⟩
    · exact absurd hneg hs
    · exact ⟨w, hw, hvalid, hlt⟩
  · rintro ⟨w, hw, hvalid, hlt⟩
    cases hp : q.keyhash w.slot with
    | none =>
      have hmem : w ∈ writesAt w.slot ws := List.mem_filter.mpr ⟨hw, by simp⟩
      rw [hq.absent _ hp] at hmem
      cases hmem
    | some p =>
      obtain ⟨row, hrow, hholds⟩ := hq.row _ p hp
      refine ⟨row.maxTransVersion, ⟨row, ⟨(w.slot, p), ?_, hrow⟩, rfl⟩, ?_⟩
      · rw [Std.TreeMap.mem_toList_iff_getElem?_eq_some, hq.btree, hp]
      · rw [hholds.watermark, lt_watermark_iff]
        exact Or.inr ⟨w, hw, rfl, hvalid, hlt⟩

theorem maxTransVersion_apply (ctx : ObStoreCtx) (row : ObStoreRow) (t : ObMemtable η) :
    (t.apply ctx row).2.maxTransVersion =
      if (t.apply ctx row).1 = 0 ∧ ctx.snapshotVersion > t.maxTransVersion then
        ctx.snapshotVersion
      else t.maxTransVersion := by
  unfold ObMemtable.apply
  dsimp only
  split
  · next hret => simp [hret]
  · simp

theorem maxTransVersion_set (append : η → Bytes → L → ℤ × L) (mallocOk : Bool) (ctx : ObStoreCtx)
    (row : ObStoreRow) (t : ObMemtable η) (log : L) :
    (t.set append mallocOk ctx row log).2.1.maxTransVersion =
      if (t.set append mallocOk ctx row log).1 = 0 ∧ ctx.snapshotVersion > t.maxTransVersion then
        ctx.snapshotVersion
      else t.maxTransVersion := by
  rcases set_eq_or_apply append mallocOk ctx row t log with ⟨hret, heq⟩ | ⟨hret, heq⟩
  · rw [heq, if_neg fun h => hret h.1]
  · rw [heq, hret]
    exact maxTransVersion_apply ctx row t

theorem maxTransVersion_runSets (append : η → Bytes → L → ℤ × L) (calls : List SetCall)
    {s : Session η L} (hs : s.memtable.maxTransVersion = peak s.accepted) :
    (runSets append calls s).memtable.maxTransVersion =
      peak (runSets append calls s).accepted := by
  induction calls generalizing s with
  | nil => exact hs
  | cons c cs ih =>
    refine ih (s := s.step append c) ?_
    have hset := maxTransVersion_set append c.mallocOk c.ctx c.row s.memtable s.log
    simp only [Session.step]
    rw [hset, hs]
    by_cases hret : (s.memtable.set append c.mallocOk c.ctx c.row s.log).1 = 0
    · simp only [hret, true_and, if_true, peak, SetCall.write]
    · simp only [hret, false_and, if_false]

def WatermarkRight (t : ObMemtable η) : Prop :=
  t.getMaxMergedTransVersion = rowsMax t.queryEngine ∧
    t.setFrozen.getSnapshotVersion = rowsMax t.queryEngine

instance (t : ObMemtable η) : Decidable (WatermarkRight t) :=
  inferInstanceAs (Decidable (_ ∧ _))

/-- The watermark is right exactly when no accepted `set` had the snapshot
`OB_INVALID_VERSION`. Snapshots are 64-bit integers, so that one is the largest. -/
theorem watermark_right_iff (append : η → Bytes → L → ℤ × L) (tabletId : ℤ) (handler : Option η)
    (log : L) {calls : List SetCall}
    (hrange : ∀ c ∈ calls, c.ctx.snapshotVersion ≤ obInvalidVersion) :
    let s := runSets append calls (opened tabletId handler log)
    WatermarkRight s.memtable ↔
      ∀ w ∈ s.accepted, w.ctx.snapshotVersion ≠ obInvalidVersion := by
  intro s
  have hpeak : s.memtable.maxTransVersion = peak s.accepted :=
    maxTransVersion_runSets append calls rfl
  have hopened : Contents (opened tabletId handler log).memtable [] := ⟨represents_empty, rfl, rfl⟩
  have hrows := lt_rowsMax_iff (runSets_contents append calls hopened).1.represents
  have hle : ∀ w ∈ s.accepted, w.ctx.snapshotVersion ≤ obInvalidVersion :=
    accepted_of_runSets (P := fun w => w.ctx.snapshotVersion ≤ obInvalidVersion) (by simp [opened])
      hrange
  have hright : WatermarkRight s.memtable ↔ peak s.accepted = rowsMax s.memtable.queryEngine := by
    rw [← hpeak]
    exact and_self_iff
  rw [hright]
  constructor
  · intro heq w hw hinvalid
    -- just below `OB_INVALID_VERSION` the two watermarks are told apart
    have hlt : obInvalidVersion - 1 < peak s.accepted :=
      (lt_peak_iff _ _).mpr (Or.inr ⟨w, hw, by omega⟩)
    rw [heq, hrows] at hlt
    rcases hlt with hneg | ⟨v, hv, hvalid, hlt⟩
    · exact absurd hneg (by decide)
    · have hv := hle v hv
      omega
  · intro hvalid
    apply le_antisymm <;> refine le_of_forall_lt fun x hx => ?_
    · rw [lt_peak_iff] at hx
      rw [hrows]
      exact hx.imp_right fun ⟨w, hw, hlt⟩ => ⟨w, hw, hvalid w hw, hlt⟩
    · rw [hrows] at hx
      rw [lt_peak_iff]
      exact hx.imp_right fun ⟨w, hw, _, hlt⟩ => ⟨w, hw, hlt⟩

theorem watermark_right_iff_example :
    WatermarkRight (runSets noLog [⟨insertA.ctx, insertA.row, true⟩]
      (opened 1 none ())).memtable :=
  (watermark_right_iff noLog 1 none () (by decide)).mpr (by decide +kernel)

/-- A write without a snapshot of its own has `OB_INVALID_VERSION` as its snapshot: the watermark
of the memtable becomes that version, its only row stays at 0. -/
theorem default_snapshot_raises_watermark :
    let t := (runSets noLog [⟨{}, insertA.row, true⟩] (opened 1 none ())).memtable
    t.getMaxMergedTransVersion = obInvalidVersion ∧
      t.setFrozen.getSnapshotVersion = obInvalidVersion ∧ rowsMax t.queryEngine = 0 ∧
      ¬ WatermarkRight t := by
  decide +kernel

end Watermark

end MemtableInvariants
