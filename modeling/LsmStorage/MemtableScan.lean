import LsmStorage.MemtableVersions

/-! # The range scan of a memtable

`ObMemtable::scan` takes a context and a range and looks at neither. It goes through the whole
ordered index and takes the newest version of every chain: `F_INIT` is set in every version, also
in an undecided and in an aborted one. The index knows keys by their hash values only, so the
keys that have been stored are kept beside the memtable here. -/
namespace MemtableScan

open ByteCodec MvccRow RowkeyHash Memtable MemtableMap MemtableVersions

variable {η L : Type*}

/-- The bounds of a scan in the order of `ObStoreRowkey::compare`. -/
structure KeyRange where
  startKey : ObStoreRowkey
  startExclude : Bool
  endKey : ObStoreRowkey
  endExclude : Bool

def KeyRange.contains (range : KeyRange) (k : ObStoreRowkey) : Bool :=
  let low := range.startKey.compare k
  let high := k.compare range.endKey
  (decide (low < 0) || (!range.startExclude && low == 0)) &&
    (decide (high < 0) || (!range.endExclude && high == 0))

/-- A memtable with any chains and the keys that have been stored in it: every chain that is not
empty is under the hash value of one of them. -/
structure StoredMemtable (η : Type*) where
  memtable : ObMemtable η
  keys : List ObStoreRowkey
  wellFormed : WellFormed memtable.queryEngine
  nodup : keys.Nodup
  stored : ∀ h, versionsAt h memtable.queryEngine ≠ [] → ∃ k ∈ keys, slot k = h

namespace StoredMemtable

def create (tabletId : ℤ) : StoredMemtable η where
  memtable := ObMemtable.create tabletId
  keys := []
  wellFormed := wellFormed_empty
  nodup := List.nodup_nil
  stored := fun _ h => absurd rfl h

theorem wellFormed_set (append : η → Bytes → L → ℤ × L) (mallocOk : Bool) (w : Write) (log : L)
    (s : StoredMemtable η) :
    WellFormed (s.memtable.set append mallocOk w.ctx w.row log).2.1.queryEngine := by
  rcases set_cases append mallocOk s.wellFormed.indexed w log with ⟨-, hrefused⟩ | ⟨-, haccepted⟩
  · exact hrefused.wellFormed s.wellFormed
  · exact haccepted.wellFormed s.wellFormed

theorem stored_set (append : η → Bytes → L → ℤ × L) (mallocOk : Bool) (w : Write) (log : L)
    (s : StoredMemtable η) (h : UInt64)
    (hne : versionsAt h (s.memtable.set append mallocOk w.ctx w.row log).2.1.queryEngine ≠ []) :
    ∃ k ∈ if (s.memtable.set append mallocOk w.ctx w.row log).1 = 0 then
        s.keys.insert w.row.rowkey else s.keys, slot k = h := by
  rcases set_cases append mallocOk s.wellFormed.indexed w log with
    ⟨hret, hrefused⟩ | ⟨hret, haccepted⟩
  · rw [if_neg hret]
    exact s.stored h (hrefused.versions h ▸ hne)
  · rw [if_pos hret]
    by_cases hslot : w.slot = h
    · exact ⟨w.row.rowkey, List.mem_insert_self, hslot⟩
    · rw [haccepted.versions, if_neg hslot] at hne
      obtain ⟨k, hk, hkh⟩ := s.stored h hne
      exact ⟨k, List.mem_insert_of_mem hk, hkh⟩

def set (append : η → Bytes → L → ℤ × L) (mallocOk : Bool) (w : Write) (log : L)
    (s : StoredMemtable η) : StoredMemtable η where
  memtable := (s.memtable.set append mallocOk w.ctx w.row log).2.1
  keys :=
    if (s.memtable.set append mallocOk w.ctx w.row log).1 = 0 then s.keys.insert w.row.rowkey
    else s.keys
  wellFormed := s.wellFormed_set append mallocOk w log
  nodup := by
    split
    · exact s.nodup.insert
    · exact s.nodup
  stored := s.stored_set append mallocOk w log

def expected (ctx : ObStoreCtx) (range : KeyRange) (s : StoredMemtable η) :
    List (UInt64 × ObStoreRow) :=
  (s.keys.filter range.contains).filterMap fun k =>
    (s.memtable.get ctx k).map fun row => (slot k, row)

def ScanCorrect (ctx : ObStoreCtx) (range : KeyRange) (s : StoredMemtable η) : Prop :=
  (scanEntries s.memtable).Perm (s.expected ctx range)

def keysAt (range : KeyRange) (h : UInt64) (s : StoredMemtable η) : ℕ :=
  s.keys.countP fun k => decide (slot k = h) && range.contains k

def found (ctx : ObStoreCtx) (vs : List ObMvccTransNode) : Option ObStoreRow :=
  (vs.find? (isVisible ctx)).map toStoreRow

theorem count_expected (ctx : ObStoreCtx) (range : KeyRange) (s : StoredMemtable η) (h : UInt64)
    (row : ObStoreRow) :
    (s.expected ctx range).count (h, row) =
      if found ctx (versionsAt h s.memtable.queryEngine) = some row then s.keysAt range h
      else 0 := by
  unfold expected keysAt
  have hget : ∀ k, s.memtable.get ctx k = found ctx (versionsAt (slot k) s.memtable.queryEngine) :=
    fun k => get_eq ctx k s.memtable
  induction s.keys with
  | nil => simp
  | cons k keys ih =>
    rw [List.filter_cons, List.countP_cons]
    by_cases hrange : range.contains k = true
    · rw [if_pos hrange, List.filterMap_cons, hget k]
      by_cases hslot : slot k = h
      · subst hslot
        cases hfound : found ctx (versionsAt (slot k) s.memtable.queryEngine) with
        | none => simpa [hfound, hrange] using ih
        | some row' =>
          by_cases hrow : row' = row
          · subst hrow
            simp [ih, hfound, hrange]
          · simp [ih, hfound, hrow]
      · cases hfound : found ctx (versionsAt (slot k) s.memtable.queryEngine) with
        | none => simp [ih, hslot]
        | some row' => simp [ih, hslot]
    · rw [if_neg hrange]
      simp [ih, hrange]

theorem count_scanEntries {t : ObMemtable η} (ht : Indexed t.queryEngine) (h : UInt64)
    (row : ObStoreRow) :
    (scanEntries t).count (h, row) =
      if scanned (versionsAt h t.queryEngine) = some row then 1 else 0 := by
  have hnodup : (scanEntries t).Nodup := by
    refine (scanEntries_increasing t).imp ?_
    rintro a _ hlt rfl
    exact UInt64.lt_irrefl a.1 hlt
  rw [hnodup.count]
  exact if_congr (mem_scanEntries ht (h, row)) rfl rfl

/-- A scan is correct exactly when every chain that is not empty is that of just one stored key
inside the range, and its newest version is what `get` returns. -/
theorem scan_correct_iff (s : StoredMemtable η) (ctx : ObStoreCtx) (range : KeyRange) :
    s.ScanCorrect ctx range ↔
      ∀ h n, (versionsAt h s.memtable.queryEngine).head? = some n →
        s.keysAt range h = 1 ∧
          found ctx (versionsAt h s.memtable.queryEngine) = some (toStoreRow n) := by
  have hscanned := fun h => scanned_eq_head (s.wellFormed.status h)
  have hcounts : s.ScanCorrect ctx range ↔ ∀ h row,
      (if scanned (versionsAt h s.memtable.queryEngine) = some row then 1 else 0) =
        if found ctx (versionsAt h s.memtable.queryEngine) = some row then s.keysAt range h
        else 0 := by
    rw [ScanCorrect, List.perm_iff_count, Prod.forall]
    simp only [count_scanEntries s.wellFormed.indexed, count_expected]
  rw [hcounts]
  constructor
  · intro hcount h n hn
    have hrow := hcount h (toStoreRow n)
    rw [hscanned, hn, Option.map_some, if_pos rfl] at hrow
    split at hrow
    · next hfound => exact ⟨hrow.symm, hfound⟩
    · cases hrow
  · intro hchains h row
    rw [hscanned]
    cases hhead : (versionsAt h s.memtable.queryEngine).head? with
    | none =>
      rw [List.head?_eq_none_iff.mp hhead]
      simp [found]
    | some n =>
      obtain ⟨hone, hfound⟩ := hchains h n hhead
      rw [hfound, hone, Option.map_some]

end StoredMemtable

section Samples

def sample : StoredMemtable Unit := (StoredMemtable.create 1).set noLog true insertA ()

def behind : KeyRange := ⟨⟨[98]⟩, false, ⟨[99]⟩, false⟩

/-- The only key lies before the range, and the scan returns its row. -/
theorem scan_ignores_range :
    sample.keys = [keyA] ∧ behind.contains keyA = false ∧ sample.expected {} behind = [] ∧
      sample.memtable.scan [] = [insertA.read] ∧ ¬ sample.ScanCorrect {} behind := by
  have hkeys : sample.keys = [keyA] := by decide +kernel
  have hrange : behind.contains keyA = false := by decide
  have hexpected : sample.expected {} behind = [] := by
    simp [StoredMemtable.expected, hkeys, hrange]
  have hscan : sample.memtable.scan [] = [insertA.read] := by decide +kernel
  refine ⟨hkeys, hrange, hexpected, hscan, fun hcorrect => ?_⟩
  rw [StoredMemtable.ScanCorrect, hexpected, List.perm_nil] at hcorrect
  rw [scan_eq_entries, hcorrect] at hscan
  cases hscan

end Samples

end MemtableScan
