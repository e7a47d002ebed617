import LsmStorage.BoundedLoop
import LsmStorage.MemtableMap

/-! # The two range scans of the query engine

`scan` hands out an iterator that looks for its place when `next` is called for the first time;
`scan_range` collects the rows in one loop. Both stop at the same entry and step over the same
rows, but only `scan_range` steps over an excluded start. -/
namespace QueryEngineScans

open MvccRow RowkeyHash Memtable MemtableMap BoundedLoop ObQueryEngine ObQueryEngineBtreeIterator

def visitTurn (q : ObQueryEngine) : ObQueryEngineBtreeIterator × List ℕ →
    Turn (ObQueryEngineBtreeIterator × List ℕ) (List ℕ)
  | (iter, visited) =>
    let (ret, iter) := iter.next q
    if ret = 0 then .again (iter, visited ++ iter.getValue.toList) else .stop visited

section Iterator

variable {q : ObQueryEngine}

def pending (q : ObQueryEngine) (iter : ObQueryEngineBtreeIterator) : List (UInt64 × ℕ) :=
  if !iter.isInit then q.btree.toList.dropWhile fun kv => kv.1 < iter.startHash
  else iter.curr.tail

theorem settle_cases (endHash : UInt64) (endExclude : Bool) (entries : List (UInt64 × ℕ)) :
    (settle endHash endExclude q entries = (-1, []) ∧
        q.iterate endHash endExclude entries = []) ∨
      ∃ hash value rest,
        settle endHash endExclude q entries =
          (0, (hash, value) :: rest) ∧
        q.iterate endHash endExclude entries = value :: q.iterate endHash endExclude rest ∧
        rest.length < entries.length := by
  induction entries with
  | nil => exact Or.inl ⟨rfl, rfl⟩
  | cons kv rest ih =>
    obtain ⟨hash, value⟩ := kv
    rw [settle, iterate]
    split
    · exact Or.inl ⟨rfl, rfl⟩
    split
    · exact Or.inl ⟨rfl, rfl⟩
    split
    · exact Or.inr ⟨hash, value, rest, rfl, rfl, by simp⟩
    rcases ih with hend | ⟨hash', value', rest', hsettle, hrows, hlen⟩
    · exact Or.inl hend
    · exact Or.inr ⟨hash', value', rest', hsettle, hrows, by rw [List.length_cons]; omega⟩

theorem visits_pending (iter : ObQueryEngineBtreeIterator) (visited : List ℕ) :
    Yields (visitTurn q) (iter, visited)
      (visited ++ q.iterate iter.endHash iter.endExclude (pending q iter)) := by
  -- the entries that are left get fewer with every call
  induction hn : (pending q iter).length using Nat.strong_induction_on generalizing iter
      visited with
  | _ n ih =>
    have hnext : iter.next q =
        ((settle iter.endHash iter.endExclude q (pending q iter)).1,
          { iter with
            curr := (settle iter.endHash iter.endExclude q
              (pending q iter)).2
            isInit := true }) := rfl
    rcases settle_cases (q := q) iter.endHash iter.endExclude (pending q iter) with
      ⟨hsettle, hrows⟩ | ⟨hash, value, rest, hsettle, hrows, hlen⟩
    · rw [hrows, List.append_nil]
      apply yields_stop
      rw [hsettle] at hnext
      simp [visitTurn, hnext]
    · rw [hsettle] at hnext
      have hturn : visitTurn q (iter, visited) =
          .again ({ iter with curr := (hash, value) :: rest, isInit := true },
            visited ++ [value]) := by
        simp [visitTurn, hnext, getValue]
      apply yields_again hturn
      have hrest := ih rest.length (hn ▸ hlen)
        { iter with curr := (hash, value) :: rest, isInit := true } (visited ++ [value]) rfl
      rw [List.append_assoc] at hrest
      rw [hrows]
      exact hrest

theorem visits_scan (q : ObQueryEngine) (startKey : Option ObMemtableKey) (startExclude : Bool)
    (endKey : Option ObMemtableKey) (endExclude : Bool) :
    Yields (visitTurn q) (scanIter startKey startExclude endKey endExclude, [])
      (q.scan startKey startExclude endKey endExclude) :=
  visits_pending (q := q) (scanIter startKey startExclude endKey endExclude) []

theorem map_collect (endHash : UInt64) (endExclude : Bool) (entries : List (UInt64 × ℕ)) :
    (q.collect endHash endExclude entries).map Prod.snd =
      q.iterate endHash endExclude entries := by
  induction entries with
  | nil => rfl
  | cons kv rest ih =>
    obtain ⟨hash, value⟩ := kv
    rw [collect, iterate]
    split
    · rfl
    split
    · rfl
    split
    · rw [List.map_cons, ih]
    · exact ih

theorem iterate_of_beyond {endHash : UInt64} (endExclude : Bool) {entries : List (UInt64 × ℕ)}
    (hbeyond : ∀ kv ∈ entries, endHash < kv.1) : q.iterate endHash endExclude entries = [] := by
  cases entries with
  | nil => rfl
  | cons kv rest =>
    obtain ⟨hash, value⟩ := kv
    have hgt : hash > endHash := hbeyond _ List.mem_cons_self
    rw [iterate, if_pos hgt]

end Iterator

theorem mem_dropWhile_lt {entries : List (UInt64 × ℕ)}
    (hsorted : entries.Pairwise fun a b => a.1 < b.1) (start : UInt64) (kv : UInt64 × ℕ) :
    kv ∈ entries.dropWhile (fun kv => kv.1 < start) ↔ kv ∈ entries ∧ ¬ kv.1 < start := by
  induction entries with
  | nil => simp
  | cons first rest ih =>
    obtain ⟨hlater, hsorted⟩ := List.pairwise_cons.mp hsorted
    by_cases hlt : first.1 < start
    · rw [List.dropWhile_cons_of_pos (by simpa using hlt), ih hsorted]
      refine and_congr_left fun hnot => ⟨List.mem_cons_of_mem first, fun hkv => ?_⟩
      rcases List.mem_cons.mp hkv with rfl | hkv
      · exact absurd hlt hnot
      · exact hkv
    · rw [List.dropWhile_cons_of_neg (by simpa using hlt)]
      refine ⟨fun hkv => ⟨hkv, ?_⟩, And.left⟩
      rcases List.mem_cons.mp hkv with rfl | hkv
      · exact hlt
      · exact fun hbelow => hlt (UInt64.lt_trans (hlater kv hkv) hbelow)

theorem lowerBound_cases (q : ObQueryEngine) (start : UInt64) :
    (∃ value rest,
        (q.btree.toList.dropWhile fun kv => kv.1 < start) = (start, value) :: rest ∧
        q.btree[start]? = some value ∧ ∀ kv ∈ rest, start < kv.1) ∨
      (q.btree[start]? = none ∧
        (q.btree.toList.dropWhile fun kv => kv.1 < start).head?.any (fun kv => kv.1 == start) =
          false) := by
  have hsorted : q.btree.toList.Pairwise fun a b => a.1 < b.1 :=
    List.pairwise_map.mp (btree_increasing q)
  have hmem := mem_dropWhile_lt hsorted start
  have hfound : ∀ value, q.btree[start]? = some value ↔
      (start, value) ∈ q.btree.toList.dropWhile fun kv => kv.1 < start := by
    intro value
    rw [hmem, Std.TreeMap.mem_toList_iff_getElem?_eq_some]
    exact (and_iff_left (UInt64.lt_irrefl start)).symm
  have hsorted := hsorted.sublist (List.dropWhile_sublist fun kv => decide (kv.1 < start))
  cases hrest : q.btree.toList.dropWhile fun kv => kv.1 < start with
  | nil =>
    refine Or.inr ⟨Option.eq_none_iff_forall_ne_some.mpr fun value hvalue => ?_, rfl⟩
    simpa [hrest] using (hfound value).mp hvalue
  | cons kv rest =>
    obtain ⟨hash, value⟩ := kv
    rw [hrest] at hmem hfound hsorted
    obtain ⟨hlater, -⟩ := List.pairwise_cons.mp hsorted
    by_cases hhash : hash = start
    · subst hhash
      exact Or.inl ⟨value, rest, rfl, (hfound value).mpr List.mem_cons_self, hlater⟩
    · refine Or.inr ⟨Option.eq_none_iff_forall_ne_some.mpr fun value' hvalue' => ?_,
        by simpa using hhash⟩
      rcases List.mem_cons.mp ((hfound value').mp hvalue') with heq | hlow
      · exact hhash (Prod.mk.inj heq).1.symm
      · exact ((hmem (hash, value)).mp List.mem_cons_self).2 (hlater _ hlow)

def ScansAgree (startKey : Option ObMemtableKey) (startExclude : Bool)
    (endKey : Option ObMemtableKey) (endExclude : Bool) (q : ObQueryEngine) : Prop :=
  Yields (visitTurn q) (scanIter startKey startExclude endKey endExclude, [])
    ((q.scanRange startKey startExclude endKey endExclude).map Prod.snd)

def StartSkipped (startKey : Option ObMemtableKey) (startExclude : Bool)
    (endKey : Option ObMemtableKey) (endExclude : Bool) (q : ObQueryEngine) : Prop :=
  let startHash := (startKey.map ObMemtableKey.hashVal).getD 0
  let endHash := (endKey.map ObMemtableKey.hashVal).getD maxHash
  startExclude = true ∧ ¬ startHash > endHash ∧ ¬ (endExclude = true ∧ startHash = endHash) ∧
    ∃ value, q.btree[startHash]? = some value ∧
      (q.rows value).any (fun row => !row.isEmpty) = true

/-- The two scans agree unless the start is excluded and has a row inside the range. -/
theorem scans_agree_iff (q : ObQueryEngine) (startKey : Option ObMemtableKey)
    (startExclude : Bool) (endKey : Option ObMemtableKey) (endExclude : Bool) :
    ScansAgree startKey startExclude endKey endExclude q ↔
      ¬ StartSkipped startKey startExclude endKey endExclude q := by
  have hscan := visits_scan q startKey startExclude endKey endExclude
  have hagree : ScansAgree startKey startExclude endKey endExclude q ↔
      q.scan startKey startExclude endKey endExclude =
        (q.scanRange startKey startExclude endKey endExclude).map Prod.snd :=
    ⟨fun h => hscan.unique h, fun h => by rw [ScansAgree, ← h]; exact hscan⟩
  rw [hagree, ObQueryEngine.scan, ObQueryEngine.scanRange, map_collect, StartSkipped]
  generalize (startKey.map ObMemtableKey.hashVal).getD 0 = start
  generalize (endKey.map ObMemtableKey.hashVal).getD maxHash = stop
  rcases lowerBound_cases q start with ⟨value, rest, hlower, hvalue, hlater⟩ | ⟨hnone, hhead⟩
  · rw [hlower, hvalue]
    cases startExclude with
    | false => simp
    | true =>
      simp only [List.head?_cons, Option.any_some, beq_self_eq_true, Bool.and_self, ↓reduceIte,
        List.tail_cons, true_and, Option.some.injEq, exists_eq_left']
      rw [iterate]
      by_cases hstop : start > stop
      · have hrest : q.iterate stop endExclude rest = [] :=
          iterate_of_beyond endExclude fun kv hkv => UInt64.lt_trans hstop (hlater kv hkv)
        simp [hstop, hrest]
      by_cases hend : endExclude = true ∧ start = stop
      · obtain ⟨rfl, rfl⟩ := hend
        simp [iterate_of_beyond true hlater]
      rw [if_neg hstop, if_neg (by simpa using hend)]
      by_cases hrow : (q.rows value).any (fun row => !row.isEmpty) = true
      · simp only [hrow, hstop, hend, ↓reduceIte, not_false_eq_true, and_self, not_true_eq_false,
          iff_false]
        intro heq
        simpa using congrArg List.length heq
      · simp [hrow]
  · simp [hnone, hhead]

def sampleKey : ObMemtableKey := ObMemtableKey.ofRowkey ⟨[97]⟩

def sampleEngine : ObQueryEngine := (mvccWrite {} sampleKey ⟨.dfInsert, [1]⟩ {}).2

/-- Behind the only key, excluded, the iterator still visits its row. -/
theorem excluded_start_is_visited :
    Yields (visitTurn sampleEngine)
        (scanIter (some sampleKey) true none false, []) [0] ∧
      sampleEngine.scanRange (some sampleKey) true none false = [] ∧
      ¬ ScansAgree (some sampleKey) true none false sampleEngine := by
  have hscan : sampleEngine.scan (some sampleKey) true none false = [0] := by decide +kernel
  have hrange : sampleEngine.scanRange (some sampleKey) true none false = [] := by
    decide +kernel
  have hvisits := visits_scan sampleEngine (some sampleKey) true none false
  rw [hscan] at hvisits
  refine ⟨hvisits, hrange, fun hagree => ?_⟩
  rw [ScansAgree, hrange] at hagree
  cases hvisits.unique hagree

end QueryEngineScans
