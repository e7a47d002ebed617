import LsmStorage.Memtable
import Mathlib.Algebra.BigOperators.Group.List.Basic
import Mathlib.Data.List.Find

/-! # A memtable is a map from hash values to versions

The abstract state of a memtable is the list of its accepted writes, newest first. A write is
accepted unless its snapshot is older than an accepted snapshot of the same hash value. Indexes,
rows and version chains are recovered from that list: the chain of a row holds exactly the
accepted writes of its hash value. -/
namespace MemtableMap

open ByteCodec MvccRow RowkeyHash Memtable ObMemtable ObMemtableKey

structure Write where
  ctx : ObStoreCtx
  row : ObStoreRow
  deriving DecidableEq, Repr

namespace Write

def slot (w : Write) : UInt64 := RowkeyHash.slot w.row.rowkey

def data (w : Write) : ObMemtableData := ⟨w.row.dmlFlag, w.row.rowValue⟩

def node (w : Write) : ObMvccTransNode := buildTxNode w.ctx w.data

end Write

open Write

variable {ws : List Write} {q q' : ObQueryEngine} {row : ObMvccRow} {h : UInt64}

def watermark (h : UInt64) : List Write → ℤ
  | [] => 0
  | w :: ws =>
    if w.slot = h ∧ w.ctx.snapshotVersion > watermark h ws ∧
        w.ctx.snapshotVersion ≠ obInvalidVersion then
      w.ctx.snapshotVersion
    else watermark h ws

def Stale (w : Write) (ws : List Write) : Prop :=
  w.ctx.snapshotVersion ≠ obInvalidVersion ∧ w.ctx.snapshotVersion < watermark w.slot ws

instance (w : Write) (ws : List Write) : Decidable (Stale w ws) :=
  inferInstanceAs (Decidable (_ ∧ _))

def writesAt (h : UInt64) (ws : List Write) : List Write := ws.filter fun w => w.slot = h

theorem writesAt_cons (h : UInt64) (w : Write) (ws : List Write) :
    writesAt h (w :: ws) = if w.slot = h then w :: writesAt h ws else writesAt h ws := by
  simp [writesAt, List.filter_cons]

theorem head?_writesAt (h : UInt64) (ws : List Write) :
    (writesAt h ws).head? = ws.find? fun w => w.slot = h := by
  simp [writesAt, List.head?_filter]

structure RowHolds (h : UInt64) (ws : List Write) (row : ObMvccRow) : Prop where
  indexed : row.isBtreeIndexed = true
  versions : row.versions = (writesAt h ws).map node
  watermark : row.maxTransVersion = watermark h ws

structure Indexed (q : ObQueryEngine) : Prop where
  btree : ∀ h : UInt64, q.btree[h]? = q.keyhash h
  injective : ∀ h h' p, q.keyhash h = some p → q.keyhash h' = some p → h = h'
  allocated : ∀ h p, q.keyhash h = some p → p < q.fresh
  row : ∀ h p, q.keyhash h = some p → ∃ row, q.rows p = some row ∧ row.isBtreeIndexed = true

theorem indexed_empty : Indexed {} := by
  constructor
  · intro h
    simp
  all_goals simp

structure Represents (q : ObQueryEngine) (ws : List Write) : Prop where
  btree : ∀ h : UInt64, q.btree[h]? = q.keyhash h
  injective : ∀ h h' p, q.keyhash h = some p → q.keyhash h' = some p → h = h'
  allocated : ∀ h p, q.keyhash h = some p → p < q.fresh
  row : ∀ h p, q.keyhash h = some p → ∃ row, q.rows p = some row ∧ RowHolds h ws row
  absent : ∀ h, q.keyhash h = none → writesAt h ws = []

theorem Represents.indexed (hq : Represents q ws) : Indexed q := by
  refine ⟨hq.btree, hq.injective, hq.allocated, fun h p hp => ?_⟩
  obtain ⟨row, hrow, hholds⟩ := hq.row h p hp
  exact ⟨row, hrow, hholds.indexed⟩

theorem represents_empty : Represents {} [] := by
  constructor
  · intro h
    simp
  all_goals simp [writesAt]

theorem isCommitted_node (w : Write) : w.node.isCommitted = true := by
  simp [node, buildTxNode]

theorem isAborted_node (w : Write) : w.node.isAborted = false := by
  simp [node, buildTxNode]

theorem bare_node (w : Write) : w.node.bare = w.node := rfl

theorem watermark_eq_zero (hnone : writesAt h ws = []) : watermark h ws = 0 := by
  induction ws with
  | nil => rfl
  | cons w ws ih =>
    rw [writesAt_cons] at hnone
    split at hnone
    · cases hnone
    · next hslot => simpa [watermark, hslot] using ih hnone

structure NewRow (q : ObQueryEngine) (h : UInt64) (row : ObMvccRow) (q' : ObQueryEngine) :
    Prop where
  absent : q.keyhash h = none
  keyhash : q'.keyhash = Function.update q.keyhash h (some q.fresh)
  btree : q'.btree = q.btree.insert h q.fresh
  rows : q'.rows = Function.update q.rows q.fresh (some row)
  fresh : q'.fresh = q.fresh + 1

theorem NewRow.keyhash_self (hn : NewRow q h row q') : q'.keyhash h = some q.fresh := by
  rw [hn.keyhash, Function.update_self]

theorem NewRow.keyhash_of_ne {g : UInt64} (hn : NewRow q h row q') (hg : g ≠ h) :
    q'.keyhash g = q.keyhash g := by
  rw [hn.keyhash, Function.update_of_ne hg]

theorem NewRow.cases {g : UInt64} {p : ℕ} (hn : NewRow q h row q') (hq : Indexed q)
    (hp : q'.keyhash g = some p) :
    (g = h ∧ p = q.fresh ∧ q'.rows p = some row) ∨
      (g ≠ h ∧ q.keyhash g = some p ∧ p < q.fresh ∧ q'.rows p = q.rows p) := by
  by_cases hg : g = h
  · subst hg
    obtain rfl : q.fresh = p := Option.some.inj (hn.keyhash_self.symm.trans hp)
    exact Or.inl ⟨rfl, rfl, by rw [hn.rows, Function.update_self]⟩
  · rw [hn.keyhash_of_ne hg] at hp
    have hlt := hq.allocated g p hp
    exact Or.inr ⟨hg, hp, hlt, by rw [hn.rows, Function.update_of_ne hlt.ne]⟩

theorem indexed_newRow (hq : Indexed q) (hn : NewRow q h row q')
    (hindexed : row.isBtreeIndexed = true) : Indexed q' := by
  constructor
  · intro g
    rw [hn.btree, Std.TreeMap.getElem?_insert]
    by_cases hg : g = h
    · subst hg
      simp [hn.keyhash_self]
    · rw [hn.keyhash_of_ne hg, ← hq.btree g, if_neg]
      exact fun hc => hg (Std.LawfulEqCmp.eq_of_compare hc).symm
  · intro g g' p hg hg'
    rcases hn.cases hq hg with ⟨rfl, rfl, -⟩ | ⟨-, hold, hlt, -⟩ <;>
      rcases hn.cases hq hg' with ⟨rfl, hp, -⟩ | ⟨-, hold', hlt', -⟩
    · rfl
    · exact absurd hlt' (lt_irrefl _)
    · exact absurd hp hlt.ne
    · exact hq.injective g g' p hold hold'
  · intro g p hp
    rw [hn.fresh]
    rcases hn.cases hq hp with ⟨-, rfl, -⟩ | ⟨-, -, hlt, -⟩
    · exact Nat.lt_succ_self _
    · exact Nat.lt_succ_of_lt hlt
  · intro g p hp
    rcases hn.cases hq hp with ⟨-, -, hrow⟩ | ⟨-, hold, -, hrow⟩
    · exact ⟨row, hrow, hindexed⟩
    · rw [hrow]
      exact hq.row g p hold

theorem represents_newRow (hq : Represents q ws) (hn : NewRow q h row q')
    (hindexed : row.isBtreeIndexed = true) (hempty : row.versions = [])
    (hzero : row.maxTransVersion = 0) : Represents q' ws := by
  have hi := indexed_newRow hq.indexed hn hindexed
  refine ⟨hi.btree, hi.injective, hi.allocated, ?_, ?_⟩
  · intro g p hp
    rcases hn.cases hq.indexed hp with ⟨rfl, -, hrow⟩ | ⟨-, hold, -, hrow⟩
    · have hnone := hq.absent g hn.absent
      refine ⟨row, hrow, hindexed, ?_, ?_⟩
      · rw [hempty, hnone, List.map_nil]
      · rw [hzero, watermark_eq_zero hnone]
    · rw [hrow]
      exact hq.row g p hold
  · intro g hg
    by_cases hgh : g = h
    · subst hgh
      cases hn.keyhash_self.symm.trans hg
    · exact hq.absent g (hn.keyhash_of_ne hgh ▸ hg)

def indexedRow : ObMvccRow := ObMvccRow.new.setBtreeIndexed.setHashIndexed

theorem get_ofRowkey (rowkey : ObStoreRowkey) (q : ObQueryEngine) :
    q.get (ofRowkey rowkey) = q.keyhash (slot rowkey) :=
  congrArg q.keyhash (wrapperHash_ofRowkey rowkey)

theorem createKv_cases (q : ObQueryEngine) (rowkey : ObStoreRowkey) :
    (∃ p, q.keyhash (slot rowkey) = some p ∧
        createKv (ofRowkey rowkey) q = (some p, q)) ∨
      ∃ q', createKv (ofRowkey rowkey) q = (some q.fresh, q') ∧
        NewRow q (slot rowkey) indexedRow q' := by
  have hkey : (ofRowkey rowkey).wrapperHash = slot rowkey :=
    wrapperHash_ofRowkey rowkey
  cases hp : q.keyhash (slot rowkey) with
  | some p => exact Or.inl ⟨p, rfl, by simp [createKv, get_ofRowkey, hp]⟩
  | none =>
    have hslot : (ofRowkey rowkey).hashVal = slot rowkey := rfl
    refine Or.inr ⟨_, by simp [createKv, ObQueryEngine.get, ObQueryEngine.set,
      ObQueryEngine.btreeSet, ObQueryEngine.modifyRow, hkey, hslot, hp]; rfl, ?_⟩
    exact ⟨hp, rfl, rfl, rfl, rfl⟩

theorem isBtreeIndexed_indexedRow : indexedRow.isBtreeIndexed = true := by decide

theorem createKv_indexed (hq : Indexed q) (rowkey : ObStoreRowkey) :
    ∃ p q', createKv (ofRowkey rowkey) q = (some p, q') ∧ Indexed q' ∧
      q'.keyhash (slot rowkey) = some p := by
  rcases createKv_cases q rowkey with ⟨p, hp, hcreate⟩ | ⟨q', hcreate, hn⟩
  · exact ⟨p, q, hcreate, hq, hp⟩
  · exact ⟨q.fresh, q', hcreate, indexed_newRow hq hn isBtreeIndexed_indexedRow, hn.keyhash_self⟩

theorem createKv_represents (hq : Represents q ws) (rowkey : ObStoreRowkey) :
    ∃ p q', createKv (ofRowkey rowkey) q = (some p, q') ∧ Represents q' ws ∧
      q'.keyhash (slot rowkey) = some p := by
  rcases createKv_cases q rowkey with ⟨p, hp, hcreate⟩ | ⟨q', hcreate, hn⟩
  · exact ⟨p, q, hcreate, hq, hp⟩
  · exact ⟨q.fresh, q', hcreate,
      represents_newRow hq hn isBtreeIndexed_indexedRow rfl rfl, hn.keyhash_self⟩

theorem conflicts_of_committed {vs : List ObMvccTransNode} (h : ∀ n ∈ vs, n.isCommitted = true)
    (tx : ℤ) : ObMvccRow.conflicts tx vs = false := by
  unfold ObMvccRow.conflicts
  cases hfind : vs.find? fun n => !n.isAborted with
  | none => rfl
  | some n => simp [h n (List.mem_of_find?_eq_some hfind)]

theorem dropWhile_nodes (ws : List Write) :
    (ws.map node).dropWhile ObMvccTransNode.isAborted = ws.map node := by
  cases ws with
  | nil => rfl
  | cons w ws => simp [isAborted_node]

theorem RowHolds.conflicts (hrow : RowHolds h ws row) (tx : ℤ) :
    ObMvccRow.conflicts tx row.versions = false := by
  rw [hrow.versions]
  apply conflicts_of_committed
  intro n hn
  obtain ⟨v, -, rfl⟩ := List.mem_map.mp hn
  exact isCommitted_node v

theorem RowHolds.violation_iff (w : Write) (hrow : RowHolds w.slot ws row) :
    row.isTransactionSetViolation w.ctx.snapshotVersion = true ↔ Stale w ws := by
  simp [ObMvccRow.isTransactionSetViolation, Stale, hrow.watermark]

theorem mvccWrite_rowHolds {w : Write} (h : RowHolds w.slot ws row) :
    if Stale w ws then row.mvccWrite w.ctx w.node = (-1, false, row)
    else row.mvccWrite w.ctx w.node = (0, false, row.push w.ctx w.node) ∧
      RowHolds w.slot (w :: ws) (row.push w.ctx w.node) := by
  have hviolation := h.violation_iff w
  rw [ObMvccRow.mvccWrite_eq, h.conflicts]
  split
  · next hstale => simp [hviolation.mpr hstale]
  · next hstale =>
    have hno : row.isTransactionSetViolation w.ctx.snapshotVersion = false := by
      rw [Bool.eq_false_iff]
      exact fun hv => hstale (hviolation.mp hv)
    refine ⟨by simp [hno], h.indexed, ?_, ?_⟩
    · rw [ObMvccRow.versions_push, h.versions, dropWhile_nodes, writesAt_cons, if_pos rfl,
        List.map_cons, bare_node]
    · simp only [ObMvccRow.push, h.watermark, watermark, true_and]

theorem RowHolds.of_ne {w : Write} (hrow : RowHolds h ws row) (hne : w.slot ≠ h) :
    RowHolds h (w :: ws) row := by
  refine ⟨hrow.indexed, ?_, ?_⟩
  · rw [hrow.versions, writesAt_cons, if_neg hne]
  · rw [hrow.watermark, MemtableMap.watermark, if_neg (fun hc => hne hc.1)]

theorem represents_write {w : Write} {p : ℕ} (hq : Represents q ws)
    (hp : q.keyhash w.slot = some p) (hrow : RowHolds w.slot (w :: ws) row) :
    Represents { q with rows := Function.update q.rows p (some row) } (w :: ws) := by
  refine ⟨hq.btree, hq.injective, hq.allocated, ?_, ?_⟩
  · intro h p' hp'
    by_cases hh : w.slot = h
    · subst hh
      cases hp.symm.trans hp'
      exact ⟨row, by simp, hrow⟩
    · obtain ⟨old, hold, hholds⟩ := hq.row h p' hp'
      have hpp : p' ≠ p := by
        rintro rfl
        exact hh (hq.injective _ _ _ hp hp')
      exact ⟨old, by simp [hpp, hold], hholds.of_ne hh⟩
  · intro h hnone
    have hh : w.slot ≠ h := by
      rintro rfl
      cases hp.symm.trans hnone
    rw [writesAt_cons, if_neg hh]
    exact hq.absent h hnone

theorem mvccWrite_represents (hq : Represents q ws) (w : Write) :
    ∃ q', mvccWrite w.ctx (ofRowkey w.row.rowkey) w.data q =
        (if Stale w ws then -1 else 0, q') ∧
      Represents q' (if Stale w ws then ws else w :: ws) := by
  obtain ⟨p, q₁, hcreate, hq₁, hp⟩ := createKv_represents hq w.row.rowkey
  obtain ⟨row, hrow, hholds⟩ := hq₁.row _ p hp
  have hwrite := mvccWrite_rowHolds (w := w) hholds
  split at hwrite
  · next hstale =>
    refine ⟨q₁, ?_, by rw [if_pos hstale]; exact hq₁⟩
    simp only [node] at hwrite
    simp [mvccWrite, hcreate, mvccWriteAt, hrow, hwrite, hstale]
  · next hstale =>
    obtain ⟨hwrite, hpush⟩ := hwrite
    refine ⟨_, ?_, by rw [if_neg hstale]; exact represents_write hq₁ hp hpush⟩
    have hindexed := hpush.indexed
    simp only [node] at hwrite hindexed
    simp [mvccWrite, hcreate, mvccWriteAt, hrow, hwrite, hstale, ObQueryEngine.ensure, hindexed]
    rfl

theorem btree_increasing (q : ObQueryEngine) :
    (q.btree.toList.map Prod.fst).Pairwise (· < ·) := by
  rw [List.pairwise_map]
  have hord := Std.TreeMap.ordered_keys_toList (t := q.btree)
  exact hord.imp fun hlt => compareOfLessAndEq_eq_lt.mp hlt

section Reads

variable {q : ObQueryEngine} {ws : List Write}

theorem versions_of_represents (hq : Represents q ws) (h : UInt64) :
    (((q.keyhash h).bind q.rows).map ObMvccRow.versions).getD [] =
      (writesAt h ws).map node := by
  cases hp : q.keyhash h with
  | none => simp [hq.absent h hp]
  | some p =>
    obtain ⟨row, hrow, hholds⟩ := hq.row h p hp
    simp [hrow, hholds.versions]

def Write.read (w : Write) : ObStoreRow := toStoreRow w.node

theorem walk_toStoreRow {stop : ObMvccTransNode → Bool} (hstop : ∀ n, stop n.bare = stop n)
    (row : ObMvccRow) :
    ((row.walk stop).bind row.heap).map toStoreRow = (row.versions.find? stop).map toStoreRow := by
  rw [← ObMvccRow.bare_of_walk hstop, Option.map_map]
  rfl

theorem walk_toStoreRow_of_scan {stop : ObMvccTransNode → Bool}
    (hstop : ∀ n, stop n.bare = stop n) (row : ObMvccRow) :
    (if row.isEmpty then none else ((row.walk stop).bind row.heap).map toStoreRow) =
      (row.versions.find? stop).map toStoreRow := by
  split
  · next hempty =>
    rw [ObMvccRow.versions_of_isEmpty hempty]
    rfl
  · exact walk_toStoreRow hstop row

theorem isVisible_write (ctx : ObStoreCtx) (w : Write) : isVisible ctx w.node =
    decide (ctx.snapshotVersion = obInvalidVersion ∨ 1 ≤ ctx.snapshotVersion) := by
  have hversion : w.node.transVersion = 1 := rfl
  simp [isVisible, isCommitted_node, hversion, beq_eq_decide]

theorem find?_isVisible_writes (ctx : ObStoreCtx) (vs : List Write) :
    ((vs.map node).find? (isVisible ctx)).map toStoreRow =
      if ctx.snapshotVersion = obInvalidVersion ∨ 1 ≤ ctx.snapshotVersion then
        vs.head?.map Write.read else none := by
  induction vs with
  | nil => simp
  | cons v vs ih =>
    rw [List.map_cons, List.find?_cons, isVisible_write ctx v]
    split
    · next hv =>
      rw [if_pos (of_decide_eq_true hv)]
      rfl
    · next hv =>
      have hv := of_decide_eq_false hv
      rw [ih, if_neg hv, if_neg hv]

theorem engineGet_of_represents (hq : Represents q ws) (ctx : ObStoreCtx)
    (rowkey : ObStoreRowkey) :
    engineGet ctx (ofRowkey rowkey) q =
      if ctx.snapshotVersion = obInvalidVersion ∨ 1 ≤ ctx.snapshotVersion then
        (ws.find? fun w => w.slot = slot rowkey).map Write.read
      else none := by
  have hrows := versions_of_represents hq (slot rowkey)
  rw [← head?_writesAt, ← find?_isVisible_writes, ← hrows, engineGet, get_ofRowkey]
  cases (q.keyhash (slot rowkey)).bind q.rows with
  | none => simp
  | some row => exact walk_toStoreRow (fun _ => rfl) row

theorem scanRow_of_represents (hq : Represents q ws) {h : UInt64} {p : ℕ}
    (hp : q.keyhash h = some p) :
    ObMemtable.scanRow q p = (ws.find? fun w => w.slot = h).map Write.read := by
  obtain ⟨row, hrow, hholds⟩ := hq.row h p hp
  have hscan : ∀ vs : List Write, (vs.map node).find? isScanned =
      vs.head?.map node := by
    intro vs
    cases vs with
    | nil => rfl
    | cons v vs => simp [isScanned, isCommitted_node]
  simp only [scanRow, hrow]
  rw [walk_toStoreRow_of_scan fun _ => rfl, hholds.versions, hscan, head?_writesAt,
    Option.map_map]
  rfl

end Reads

section Sets

variable {η L : Type*} {t t' : ObMemtable η}

structure Contents (t : ObMemtable η) (ws : List Write) : Prop where
  represents : Represents t.queryEngine ws
  rowCount : t.rowCount = ws.length
  occupySize : t.occupySize = (ws.map fun w => w.data.size).sum

theorem get_of_contents {ws : List Write} (h : Contents t ws) (k : ObStoreRowkey) :
    t.get {} k = (ws.find? fun w => w.slot = slot k).map Write.read := by
  rw [ObMemtable.get, engineGet_of_represents h.represents, if_pos (Or.inl rfl)]

structure SameState (t t' : ObMemtable η) : Prop where
  isInited : t'.isInited = t.isInited
  isFrozen : t'.isFrozen = t.isFrozen
  logHandler : t'.logHandler = t.logHandler

theorem SameState.refl (t : ObMemtable η) : SameState t t := ⟨rfl, rfl, rfl⟩

theorem contents_create (tabletId : ℤ) : Contents (ObMemtable.create tabletId : ObMemtable η) [] :=
  ⟨represents_empty, rfl, rfl⟩

theorem apply_contents {ws : List Write} (h : Contents t ws) (w : Write) :
    ∃ t', t.apply w.ctx w.row = (if Stale w ws then -1 else 0, t') ∧
      Contents t' (if Stale w ws then ws else w :: ws) ∧ SameState t t' := by
  obtain ⟨q, hwrite, hq⟩ := mvccWrite_represents h.represents w
  simp only [Write.data] at hwrite
  by_cases hstale : Stale w ws
  · rw [if_pos hstale] at hwrite hq ⊢
    refine ⟨{ t with queryEngine := q }, ?_, ⟨?_, ?_, ?_⟩, ⟨rfl, rfl, rfl⟩⟩
    · simp [ObMemtable.apply, hwrite]
    · rw [if_pos hstale]
      exact hq
    · rw [if_pos hstale]
      exact h.rowCount
    · rw [if_pos hstale]
      exact h.occupySize
  · rw [if_neg hstale] at hwrite hq ⊢
    have happly : t.apply w.ctx w.row = (0, { t with
        queryEngine := q
        rowCount := t.rowCount + 1
        occupySize := t.occupySize + w.data.size
        maxTransVersion :=
          if w.ctx.snapshotVersion > t.maxTransVersion then w.ctx.snapshotVersion
          else t.maxTransVersion }) := by
      simp only [ObMemtable.apply, hwrite, ne_eq, not_true_eq_false, ↓reduceIte]
      rfl
    refine ⟨_, happly, ⟨?_, ?_, ?_⟩, ⟨rfl, rfl, rfl⟩⟩
    · rw [if_neg hstale]
      exact hq
    · rw [if_neg hstale, List.length_cons, Nat.cast_succ]
      exact congrArg (· + 1) h.rowCount
    · rw [if_neg hstale, List.map_cons, List.sum_cons]
      exact (congrArg (· + w.data.size) h.occupySize).trans (add_comm _ _)

variable (append : η → Bytes → L → ℤ × L)

theorem set_eq_or_apply (mallocOk : Bool) (ctx : ObStoreCtx) (row : ObStoreRow) (t : ObMemtable η)
    (log : L) :
    ((t.set append mallocOk ctx row log).1 ≠ 0 ∧ (t.set append mallocOk ctx row log).2.1 = t) ∨
      ((t.set append mallocOk ctx row log).1 = (t.apply ctx row).1 ∧
        (t.set append mallocOk ctx row log).2.1 = (t.apply ctx row).2) := by
  unfold ObMemtable.set
  split
  · exact Or.inl ⟨by simp, rfl⟩
  split
  · exact Or.inl ⟨by simp, rfl⟩
  cases t.logHandler with
  | none => exact Or.inr ⟨rfl, rfl⟩
  | some handler =>
    dsimp only
    split
    · next hret => exact Or.inl ⟨hret, rfl⟩
    · exact Or.inr ⟨rfl, rfl⟩

theorem set_quiet {ret : ℤ} {ctx : ObStoreCtx} {row : ObStoreRow} (hinit : t.isInited = true)
    (hopen : t.isFrozen = false) (hquiet : t.logHandler = none)
    (happly : t.apply ctx row = (ret, t')) (log : L) :
    t.set append true ctx row log = (ret, t', log) := by
  simp only [ObMemtable.set, hinit, hopen, hquiet, happly]
  rfl

theorem set_contents (mallocOk : Bool) {ws : List Write} (h : Contents t ws) (w : Write) (log : L) :
    Contents (t.set append mallocOk w.ctx w.row log).2.1
        (if (t.set append mallocOk w.ctx w.row log).1 = 0 then w :: ws else ws) ∧
      SameState t (t.set append mallocOk w.ctx w.row log).2.1 := by
  rcases set_eq_or_apply append mallocOk w.ctx w.row t log with ⟨hret, heq⟩ | ⟨hret, heq⟩
  · rw [if_neg hret, heq]
    exact ⟨h, .refl t⟩
  · obtain ⟨t', happly, hcontents, hsame⟩ := apply_contents h w
    rw [hret, heq, happly]
    refine ⟨?_, hsame⟩
    by_cases hstale : Stale w ws <;> simpa [hstale] using hcontents

structure SetCall where
  ctx : ObStoreCtx
  row : ObStoreRow
  mallocOk : Bool := true

def SetCall.write (c : SetCall) : Write := ⟨c.ctx, c.row⟩

structure Session (η L : Type*) where
  memtable : ObMemtable η
  log : L
  accepted : List Write := []

def Session.step (append : η → Bytes → L → ℤ × L) (s : Session η L) (c : SetCall) :
    Session η L :=
  let (ret, t, log) := s.memtable.set append c.mallocOk c.ctx c.row s.log
  { memtable := t
    log := log
    accepted := if ret = 0 then c.write :: s.accepted else s.accepted }

def runSets (append : η → Bytes → L → ℤ × L) (calls : List SetCall) (s : Session η L) :
    Session η L :=
  calls.foldl (Session.step append) s

theorem runSets_contents (calls : List SetCall) {s : Session η L}
    (h : Contents s.memtable s.accepted) :
    Contents (runSets append calls s).memtable (runSets append calls s).accepted ∧
      SameState s.memtable (runSets append calls s).memtable := by
  induction calls generalizing s with
  | nil => exact ⟨h, .refl _⟩
  | cons c cs ih =>
    obtain ⟨hstep, hsame⟩ := set_contents append c.mallocOk h c.write s.log
    obtain ⟨hrest, hsame'⟩ := ih (s := s.step append c) hstep
    exact ⟨hrest, hsame'.isInited.trans hsame.isInited, hsame'.isFrozen.trans hsame.isFrozen,
      hsame'.logHandler.trans hsame.logHandler⟩

def hashes (t : ObMemtable η) (ws : List Write) : List UInt64 :=
  (t.queryEngine.btree.toList.map Prod.fst).filter fun h => ws.any fun w => w.slot == h

def scanEntries (t : ObMemtable η) : List (UInt64 × ObStoreRow) :=
  t.queryEngine.btree.toList.filterMap fun kv =>
    (scanRow t.queryEngine kv.2).map fun row => (kv.1, row)

theorem scan_eq_entries (t : ObMemtable η) (results : List ObStoreRow) :
    t.scan results = results ++ (scanEntries t).map Prod.snd := by
  rw [ObMemtable.scan, scanEntries, List.map_filterMap]
  simp [Option.map_map, Function.comp_def]

theorem scanEntries_of_contents {ws : List Write} (h : Contents t ws) :
    scanEntries t = (t.queryEngine.btree.toList.map Prod.fst).filterMap fun g =>
      (ws.find? fun w => w.slot = g).map fun w => (g, w.read) := by
  rw [scanEntries, List.filterMap_map]
  apply List.filterMap_congr
  intro kv hkv
  have hget := Std.TreeMap.mem_toList_iff_getElem?_eq_some.mp hkv
  rw [h.represents.btree] at hget
  rw [scanRow_of_represents h.represents hget, Option.map_map]
  rfl

theorem mem_btree_of_write {ws : List Write} (h : Contents t ws) {w : Write} (hw : w ∈ ws) :
    w.slot ∈ t.queryEngine.btree.toList.map Prod.fst := by
  cases hp : t.queryEngine.keyhash w.slot with
  | none =>
    have hnil := h.represents.absent _ hp
    have hmem : w ∈ writesAt w.slot ws := List.mem_filter.mpr ⟨hw, by simp⟩
    rw [hnil] at hmem
    cases hmem
  | some p =>
    rw [← h.represents.btree] at hp
    exact List.mem_map.mpr ⟨_, Std.TreeMap.mem_toList_iff_getElem?_eq_some.mpr hp, rfl⟩

theorem mem_hashes {ws : List Write} (h : Contents t ws) (g : UInt64) :
    g ∈ hashes t ws ↔ ∃ w ∈ ws, w.slot = g := by
  simp only [hashes, List.mem_filter, List.any_eq_true, beq_iff_eq]
  constructor
  · exact fun hg => hg.2
  · rintro ⟨w, hw, rfl⟩
    exact ⟨mem_btree_of_write h hw, w, hw, rfl⟩

theorem hashes_increasing (t : ObMemtable η) (ws : List Write) :
    (hashes t ws).Pairwise (· < ·) :=
  (btree_increasing t.queryEngine).filter _

theorem hashes_eq {ws : List Write} (h : Contents t ws) (h' : Contents t' ws) :
    hashes t ws = hashes t' ws := by
  have hinc := hashes_increasing t ws
  have hinc' := hashes_increasing t' ws
  have hlt : ∀ a b : UInt64, a < b → b < a → a = b := by
    intro a b hab hba
    exact absurd hba (UInt64.lt_asymm hab)
  apply List.Perm.eq_of_pairwise (fun a b _ _ => hlt a b) hinc hinc'
  rw [List.perm_ext_iff_of_nodup (hinc.imp UInt64.ne_of_lt) (hinc'.imp UInt64.ne_of_lt)]
  intro g
  rw [mem_hashes h, mem_hashes h']

theorem scan_eq_hashes {ws : List Write} (h : Contents t ws) (results : List ObStoreRow) :
    t.scan results = results ++ (hashes t ws).filterMap fun g =>
      (ws.find? fun w => w.slot = g).map Write.read := by
  rw [scan_eq_entries, scanEntries_of_contents h, List.map_filterMap, hashes,
    List.filterMap_filter]
  congr 1
  apply List.filterMap_congr
  intro g _
  rw [Option.map_map]
  split
  · rfl
  · next hnone =>
    have hnone : ws.find? (fun w => w.slot = g) = none := by
      simpa [List.find?_eq_none] using hnone
    rw [hnone]
    rfl

theorem reads_eq {ws : List Write} (h : Contents t ws) (h' : Contents t' ws) :
    (∀ ctx k, t'.get ctx k = t.get ctx k) ∧ (∀ results, t'.scan results = t.scan results) ∧
      t'.rowCount = t.rowCount ∧ t'.occupySize = t.occupySize := by
  refine ⟨fun ctx k => ?_, fun results => ?_, ?_, ?_⟩
  · rw [ObMemtable.get, ObMemtable.get, engineGet_of_represents h.represents,
      engineGet_of_represents h'.represents]
  · rw [scan_eq_hashes h, scan_eq_hashes h', hashes_eq h h']
  · rw [h.rowCount, h'.rowCount]
  · rw [h.occupySize, h'.occupySize]

theorem accepted_of_runSets {append : η → Bytes → L → ℤ × L} {calls : List SetCall}
    {s : Session η L} {P : Write → Prop} (hs : ∀ w ∈ s.accepted, P w)
    (hcalls : ∀ c ∈ calls, P c.write) : ∀ w ∈ (runSets append calls s).accepted, P w := by
  induction calls generalizing s with
  | nil => exact hs
  | cons c cs ih =>
    refine ih (s := s.step append c) ?_ fun d hd => hcalls d (List.mem_cons_of_mem c hd)
    intro w hw
    simp only [Session.step] at hw
    split at hw
    · rcases List.mem_cons.mp hw with rfl | hw
      · exact hcalls c List.mem_cons_self
      · exact hs w hw
    · exact hs w hw

theorem map_some_filterMap {α β γ : Type*} {f : α → Option β} {l : List α} (g : β → γ)
    (h : ∀ a ∈ l, (f a).isSome) :
    (l.filterMap f).map (fun b => some (g b)) = l.map fun a => (f a).map g := by
  induction l with
  | nil => rfl
  | cons a l ih =>
    obtain ⟨b, hb⟩ := Option.isSome_iff_exists.mp (h a List.mem_cons_self)
    have hrest := ih fun c hc => h c (List.mem_cons_of_mem a hc)
    rw [List.filterMap_cons_some hb, List.map_cons, List.map_cons, hrest, hb, Option.map_some]

def flagValue (r : ObStoreRow) : ObDmlFlag × Bytes := (r.dmlFlag, r.rowValue)

/-- After any calls of `set` with non-empty keys, reads, scans and counters are those of the
map from hash values to the last accepted set, and a rejected `set` changes none of them. -/
theorem memtable_refines_map (append : η → Bytes → L → ℤ × L) (tabletId : ℤ) (log : L)
    (calls : List SetCall) (hkeys : ∀ c ∈ calls, c.row.rowkey.buf ≠ []) :
    let s := runSets append calls ⟨ObMemtable.create tabletId, log, []⟩
    let last := fun h : UInt64 =>
      (s.accepted.find? fun w => w.row.rowkey.murmurhash 0 = h).map fun w => flagValue w.row
    (∀ ctx k, ctx.snapshotVersion = obInvalidVersion → k.buf ≠ [] →
      (s.memtable.get ctx k).map flagValue = last (k.murmurhash 0)) ∧
    (∃ hs : List UInt64, hs.Pairwise (· < ·) ∧
      (∀ h, h ∈ hs ↔ ∃ w ∈ s.accepted, w.row.rowkey.murmurhash 0 = h) ∧
      (s.memtable.scan []).map (fun r => some (flagValue r)) = hs.map last) ∧
    s.memtable.rowCount = s.accepted.length ∧
    s.memtable.occupySize = (s.accepted.map fun w => w.data.size).sum ∧
    ∀ c : SetCall, (s.memtable.set append c.mallocOk c.ctx c.row s.log).1 ≠ 0 →
      let t := (s.step append c).memtable
      (∀ ctx k, t.get ctx k = s.memtable.get ctx k) ∧ t.scan [] = s.memtable.scan [] ∧
        t.rowCount = s.memtable.rowCount ∧ t.occupySize = s.memtable.occupySize := by
  intro s last
  have hcontents : Contents s.memtable s.accepted :=
    (runSets_contents append calls (contents_create tabletId)).1
  have hslot : ∀ w ∈ s.accepted, w.slot = w.row.rowkey.murmurhash 0 := by
    intro w hw
    refine slot_of_valid (accepted_of_runSets (P := fun w => w.row.rowkey.buf ≠ []) ?_ ?_ w hw)
    · simp
    · exact hkeys
  have hlast : ∀ h, (s.accepted.find? fun w => w.slot = h).map (fun w => flagValue w.read) =
      last h := by
    intro h
    have hcongr : (s.accepted.find? fun w => w.slot = h) =
        s.accepted.find? fun w => w.row.rowkey.murmurhash 0 = h :=
      List.find?_congr fun w hw => by rw [hslot w hw]
    rw [hcongr]
    rfl
  refine ⟨?_, ⟨hashes s.memtable s.accepted, hashes_increasing _ _, ?_, ?_⟩, hcontents.rowCount,
    hcontents.occupySize, ?_⟩
  · intro ctx k hctx hk
    rw [ObMemtable.get, engineGet_of_represents hcontents.represents, if_pos (Or.inl hctx),
      Option.map_map, slot_of_valid hk]
    exact hlast _
  · intro h
    rw [mem_hashes hcontents]
    constructor
    · rintro ⟨w, hw, rfl⟩
      exact ⟨w, hw, (hslot w hw).symm⟩
    · rintro ⟨w, hw, rfl⟩
      exact ⟨w, hw, hslot w hw⟩
  · rw [scan_eq_hashes hcontents, List.nil_append, map_some_filterMap]
    · exact List.map_congr_left fun h _ => (Option.map_map _ _ _).trans (hlast h)
    · intro h hh
      obtain ⟨w, hw, rfl⟩ := (mem_hashes hcontents h).mp hh
      simp only [Option.isSome_map, List.find?_isSome, decide_eq_true_eq]
      exact ⟨w, hw, rfl⟩
  · intro c hret
    have hstep := (set_contents append c.mallocOk hcontents c.write s.log).1
    have hret : (s.memtable.set append c.mallocOk c.write.ctx c.write.row s.log).1 ≠ 0 := hret
    rw [if_neg hret] at hstep
    obtain ⟨hget, hscan, hcount, hsize⟩ := reads_eq hcontents hstep
    exact ⟨hget, hscan [], hcount, hsize⟩

/-- Three sets of one key without a log: the second one, at snapshot 5 behind 10, is refused. -/
theorem memtable_refines_map_example :
    let calls : List SetCall :=
      [⟨⟨1, 10⟩, { dmlFlag := .dfInsert, rowkey := ⟨[97]⟩, rowValue := [1] }, true⟩,
       ⟨⟨2, 5⟩, { dmlFlag := .dfUpdate, rowkey := ⟨[97]⟩, rowValue := [2] }, true⟩,
       ⟨⟨3, 12⟩, { dmlFlag := .dfUpdate, rowkey := ⟨[97]⟩, rowValue := [3] }, true⟩]
    let s := runSets (fun (_ : Unit) _ (log : Unit) => (0, log)) calls
      ⟨ObMemtable.create 1, (), []⟩
    (s.memtable.get {} ⟨[97]⟩).map flagValue = some (.dfUpdate, [3]) ∧
      (s.memtable.scan []).map flagValue = [(.dfUpdate, [3])] ∧ s.memtable.rowCount = 2 := by
  intro calls s
  obtain ⟨hget, -, hcount, -⟩ := memtable_refines_map
    (fun (_ : Unit) _ (log : Unit) => (0, log)) 1 () calls (by decide)
  exact ⟨(hget {} ⟨[97]⟩ rfl (by decide)).trans (by decide +kernel), by decide +kernel,
    hcount.trans (by decide +kernel)⟩

end Sets

end MemtableMap
