import LsmStorage.MemtableVersions
import Mathlib.Data.List.DropRight

/-! # What `mvcc_undo` takes back

Later writes and reads of a row depend on its versions below the aborted ones on top, on the
newest version, which `ObMemtable::scan` returns even if it is aborted, and on
`max_trans_version_`. An undo takes back the version of the last write, but neither the watermark
that the write has raised nor the cut that it has made through the aborted versions. -/
namespace MvccUndo

open HeapChain MvccRow Memtable MemtableMap MemtableVersions ObMvccRow

section Observation

variable {ι ο σ : Type*} {step : σ → ι → ο × σ} {R : σ → σ → Prop} {s t : σ}

def outputs (step : σ → ι → ο × σ) : σ → List ι → List ο
  | _, [] => []
  | s, i :: is => (step s i).1 :: outputs step (step s i).2 is

/-- No list of inputs is answered differently. -/
def Indistinguishable (step : σ → ι → ο × σ) (s t : σ) : Prop :=
  ∀ is, outputs step s is = outputs step t is

structure Bisimulation (step : σ → ι → ο × σ) (R : σ → σ → Prop) : Prop where
  output : ∀ {s t}, R s t → ∀ i, (step s i).1 = (step t i).1
  next : ∀ {s t}, R s t → ∀ i, R (step s i).2 (step t i).2

theorem Bisimulation.indistinguishable (h : Bisimulation step R) (hst : R s t) :
    Indistinguishable step s t := by
  intro is
  induction is generalizing s t with
  | nil => rfl
  | cons i is ih => exact congrArg₂ List.cons (h.output hst i) (ih (h.next hst i))

theorem Indistinguishable.output (h : Indistinguishable step s t) (i : ι) :
    (step s i).1 = (step t i).1 :=
  (List.cons.inj (h [i])).1

end Observation

/-- `data` is `none` for a null pointer. -/
structure ObTxNodeArg where
  txId : ℤ := obInvalidTransId
  data : Option ObMemtableData := none
  deriving DecidableEq, Repr

/-- `ObMvccEngine::mvcc_write` on a row: the code, the row's `write_conflict`, the row. -/
def engineWrite (ctx : ObStoreCtx) (arg : ObTxNodeArg) (r : ObMvccRow) : ℤ × Bool × ObMvccRow :=
  match arg.data with
  | none => (-1, false, r)
  | some data =>
    let (ret, writeConflict, row) := r.mvccWrite ctx (buildTxNode { txId := arg.txId } data)
    if ret ≠ 0 then (if writeConflict then -1 else ret, writeConflict, r) else (0, false, row)

def getFrom (ctx : ObStoreCtx) (r : ObMvccRow) : Option ObStoreRow :=
  ((r.walk (isVisible ctx)).bind r.heap).map toStoreRow

def engineScanFrom (ctx : ObStoreCtx) (r : ObMvccRow) : Option ObStoreRow :=
  if r.isEmpty then none else ((r.walk (isVisibleInScan ctx)).bind r.heap).map toStoreRow

def scanFrom (r : ObMvccRow) : Option ObStoreRow :=
  if r.isEmpty then none else ((r.walk ObMemtable.isScanned).bind r.heap).map toStoreRow

section Engine

variable (ctx : ObStoreCtx) (q : ObQueryEngine)

theorem mvccWriteAt_eq {p : ℕ} {row : ObMvccRow} (hrow : q.rows p = some row)
    (data : ObMemtableData) :
    mvccWriteAt ctx p data q =
      let (ret, _, row) := engineWrite ctx ⟨ctx.txId, some data⟩ row
      (ret, if ret ≠ 0 then q else { q with rows := Function.update q.rows p (some row) }) := by
  simp only [mvccWriteAt, hrow, engineWrite]
  rw [mvccWrite_eq, mvccWrite_eq]
  split
  · rfl
  · split <;> rfl

theorem engineGet_eq_getFrom (key : RowkeyHash.ObMemtableKey) :
    engineGet ctx key q = ((q.get key).bind q.rows).bind (getFrom ctx) := by
  unfold engineGet
  cases (q.get key).bind q.rows <;> rfl

theorem engineScanRow_eq_engineScanFrom (p : ℕ) :
    engineScanRow ctx q p = (q.rows p).bind (engineScanFrom ctx) := by
  unfold engineScanRow
  cases q.rows p <;> rfl

theorem scanRow_eq_scanFrom (p : ℕ) : ObMemtable.scanRow q p = (q.rows p).bind scanFrom := by
  unfold ObMemtable.scanRow
  cases q.rows p <;> rfl

end Engine

inductive RowCall where
  | write (ctx : ObStoreCtx) (arg : ObTxNodeArg)
  | get (ctx : ObStoreCtx)
  | engineScan (ctx : ObStoreCtx)
  | scan
  deriving DecidableEq, Repr

inductive Answer where
  | written (ret : ℤ) (writeConflict : Bool)
  | read (row : Option ObStoreRow)
  deriving DecidableEq, Repr

def call (r : ObMvccRow) : RowCall → Answer × ObMvccRow
  | .write ctx arg =>
    let (ret, writeConflict, r) := engineWrite ctx arg r
    (.written ret writeConflict, r)
  | .get ctx => (.read (getFrom ctx r), r)
  | .engineScan ctx => (.read (engineScanFrom ctx r), r)
  | .scan => (.read (scanFrom r), r)

inductive Reachable : ObMvccRow → Prop where
  | new : Reachable ObMvccRow.new
  | setBtreeIndexed {r} : Reachable r → Reachable r.setBtreeIndexed
  | setHashIndexed {r} : Reachable r → Reachable r.setHashIndexed
  | write {r} (ctx : ObStoreCtx) {node : ObMvccTransNode} :
    Reachable r → node.HasStatus → Reachable (r.mvccWrite ctx node).2.2
  | commit {r} (p : ℕ) (commitVersion : ℤ) : Reachable r → Reachable (r.commitNode p commitVersion)
  | abort {r} (p : ℕ) : Reachable r → Reachable (r.abortNode p)
  | undo {r} : Reachable r → Reachable r.mvccUndo

structure Sound (r : ObMvccRow) : Prop where
  status : ∀ n ∈ r.versions, n.HasStatus
  watermark : r.maxTransVersion ≠ obInvalidVersion

variable {r : ObMvccRow}

theorem Sound.push (h : Sound r) (ctx : ObStoreCtx) {node : ObMvccTransNode}
    (hnode : node.HasStatus) : Sound (r.push ctx node) := by
  constructor
  · intro n hn
    rw [versions_push] at hn
    rcases List.mem_cons.mp hn with rfl | hn
    · exact hnode
    · exact h.status n ((List.dropWhile_sublist _).subset hn)
  · unfold ObMvccRow.push
    dsimp only
    split
    · next hraised => exact hraised.2
    · exact h.watermark

theorem Sound.write (h : Sound r) (ctx : ObStoreCtx) {node : ObMvccTransNode}
    (hnode : node.HasStatus) : Sound (r.mvccWrite ctx node).2.2 := by
  rw [mvccWrite_eq]
  split
  · exact h
  · split
    · exact h
    · exact h.push ctx hnode

theorem Sound.modifyNode (h : Sound r) {f : ObMvccTransNode → ObMvccTransNode}
    (hlinks : ∀ n, (f n).links = n.links) (hbare : ∀ n, (f n).bare = f n.bare)
    (hstatus : ∀ n, n.HasStatus → (f n).HasStatus) (p : ℕ) :
    Sound (r.modifyNode p f hlinks) := by
  refine ⟨fun n' hn' => ?_, h.watermark⟩
  obtain ⟨n, hn, rfl | rfl⟩ :=
    exists_mem_of_forall₂ (versions_modifyNode hlinks hbare p r) hn'
  · exact h.status n' hn
  · exact hstatus n (h.status n hn)

theorem Sound.undo (h : Sound r) : Sound r.mvccUndo := by
  refine ⟨fun n hn => h.status n ?_, h.watermark⟩
  rw [versions_mvccUndo] at hn
  exact List.mem_of_mem_tail hn

theorem sound_of_reachable (h : Reachable r) : Sound r := by
  induction h with
  | new => exact ⟨by decide, by decide⟩
  | setBtreeIndexed _ ih => exact ⟨ih.status, ih.watermark⟩
  | setHashIndexed _ ih => exact ⟨ih.status, ih.watermark⟩
  | write ctx _ hnode ih => exact ih.write ctx hnode
  | commit p v _ ih =>
    exact ih.modifyNode (f := .transCommit v) _ (fun _ => rfl) (fun _ hn => hn.transCommit v) p
  | abort p _ ih =>
    exact ih.modifyNode (f := .transAbort) _ (fun _ => rfl) (fun _ hn => hn.transAbort) p
  | undo _ ih => exact ih.undo

section Answers

variable {r : ObMvccRow} (ctx : ObStoreCtx)

def live (r : ObMvccRow) : List ObMvccTransNode := r.versions.dropWhile ObMvccTransNode.isAborted

theorem engineWrite_eq (arg : ObTxNodeArg) (r : ObMvccRow) :
    engineWrite ctx arg r =
      match arg.data with
      | none => (-1, false, r)
      | some data =>
        if conflicts ctx.txId r.versions then (-1, true, r)
        else if r.isTransactionSetViolation ctx.snapshotVersion then (-1, false, r)
        else (0, false, r.push ctx (buildTxNode { txId := arg.txId } data)) := by
  unfold engineWrite
  cases arg.data with
  | none => rfl
  | some data =>
    simp only [mvccWrite_eq]
    split
    · rfl
    · split <;> rfl

theorem conflicts_eq (tx : ℤ) (r : ObMvccRow) : conflicts tx r.versions =
    (live r).head?.any fun n => !n.isCommitted && n.txId != tx := by
  unfold conflicts live
  rw [List.find?_eq_head?_dropWhile_not]
  simp

theorem isVisibleInScan_of_aborted {n : ObMvccTransNode} (hn : n.HasStatus)
    (ha : n.isAborted = true) : isVisibleInScan ctx n = false := by
  simp [isVisibleInScan, hn.not_committed ha, ha]

theorem find?_live (h : Sound r) {stop : ObMvccTransNode → Bool}
    (haborted : ∀ n, n.HasStatus → n.isAborted = true → stop n = false) :
    (live r).find? stop = r.versions.find? stop :=
  find?_dropWhile_of_imp fun n hn => haborted n (h.status n hn)

theorem getFrom_eq (h : Sound r) :
    getFrom ctx r = ((live r).find? (isVisible ctx)).map toStoreRow := by
  rw [find?_live h fun _ hn ha => isVisible_of_aborted hn ha ctx]
  exact walk_toStoreRow (fun _ => rfl) r

theorem engineScanFrom_eq (h : Sound r) :
    engineScanFrom ctx r = ((live r).find? (isVisibleInScan ctx)).map toStoreRow := by
  rw [find?_live h fun _ hn ha => isVisibleInScan_of_aborted ctx hn ha]
  exact walk_toStoreRow_of_scan (fun _ => rfl) r

theorem scanFrom_eq (h : Sound r) : scanFrom r = r.versions.head?.map toStoreRow := by
  rw [← scanned_eq_head h.status]
  exact walk_toStoreRow_of_scan (fun _ => rfl) r

end Answers

structure Alike (r r' : ObMvccRow) : Prop where
  sound : Sound r ∧ Sound r'
  live : live r = live r'
  newest : r.versions.head?.map toStoreRow = r'.versions.head?.map toStoreRow
  watermark : r.maxTransVersion = r'.maxTransVersion

section Bisimulation

variable {r r' : ObMvccRow}

theorem Alike.push (h : Alike r r') (ctx : ObStoreCtx) {node : ObMvccTransNode}
    (hnode : node.HasStatus) : Alike (r.push ctx node) (r'.push ctx node) := by
  have hversions : (r.push ctx node).versions = (r'.push ctx node).versions := by
    rw [versions_push, versions_push]
    exact congrArg (List.cons node.bare) h.live
  refine ⟨⟨h.sound.1.push ctx hnode, h.sound.2.push ctx hnode⟩, ?_, ?_, ?_⟩
  · unfold MvccUndo.live
    rw [hversions]
  · rw [hversions]
  · simp only [ObMvccRow.push, h.watermark]

theorem Alike.engineWrite (h : Alike r r') (ctx : ObStoreCtx) (arg : ObTxNodeArg) :
    (engineWrite ctx arg r).1 = (engineWrite ctx arg r').1 ∧
      (engineWrite ctx arg r).2.1 = (engineWrite ctx arg r').2.1 ∧
      Alike (engineWrite ctx arg r).2.2 (engineWrite ctx arg r').2.2 := by
  have hviolation : r.isTransactionSetViolation ctx.snapshotVersion =
      r'.isTransactionSetViolation ctx.snapshotVersion := by
    simp only [isTransactionSetViolation, h.watermark]
  rw [engineWrite_eq, engineWrite_eq, conflicts_eq, conflicts_eq, h.live, hviolation]
  cases arg.data with
  | none => exact ⟨rfl, rfl, h⟩
  | some data =>
    dsimp only
    split
    · exact ⟨rfl, rfl, h⟩
    split
    · exact ⟨rfl, rfl, h⟩
    · exact ⟨rfl, rfl, h.push ctx (hasStatus_buildTxNode _ data)⟩

theorem bisimulation_alike : Bisimulation call Alike where
  output := by
    intro r r' h c
    cases c with
    | write ctx arg =>
      obtain ⟨hret, hconflict, -⟩ := h.engineWrite ctx arg
      exact congrArg₂ Answer.written hret hconflict
    | get ctx => simp only [call, getFrom_eq ctx h.sound.1, getFrom_eq ctx h.sound.2, h.live]
    | engineScan ctx =>
      simp only [call, engineScanFrom_eq ctx h.sound.1, engineScanFrom_eq ctx h.sound.2, h.live]
    | scan => simp only [call, scanFrom_eq h.sound.1, scanFrom_eq h.sound.2, h.newest]
  next := by
    intro r r' h c
    cases c with
    | write ctx arg => exact (h.engineWrite ctx arg).2.2
    | get ctx => exact h
    | engineScan ctx => exact h
    | scan => exact h

end Bisimulation

section Undo

variable {r r' : ObMvccRow} {ctx : ObStoreCtx} {arg : ObTxNodeArg}

theorem engineWrite_accepted {writeConflict : Bool}
    (hwrite : engineWrite ctx arg r = (0, writeConflict, r')) :
    ∃ data, arg.data = some data ∧ conflicts ctx.txId r.versions = false ∧
      r.isTransactionSetViolation ctx.snapshotVersion = false ∧
      r' = r.push ctx (buildTxNode { txId := arg.txId } data) := by
  rw [engineWrite_eq] at hwrite
  cases hdata : arg.data with
  | none => simp [hdata] at hwrite
  | some data =>
    simp only [hdata] at hwrite
    split at hwrite
    · simp at hwrite
    · next hconflict =>
      split at hwrite
      · simp at hwrite
      · next hviolation =>
        refine ⟨data, rfl, by simpa using hconflict, by simpa using hviolation, ?_⟩
        exact (congrArg (fun x => x.2.2) hwrite).symm

theorem versions_undo_push (ctx : ObStoreCtx) (node : ObMvccTransNode) (r : ObMvccRow) :
    (r.push ctx node).mvccUndo.versions = live r := by
  rw [versions_mvccUndo, versions_push]
  rfl

theorem live_undo_push (ctx : ObStoreCtx) (node : ObMvccTransNode) (r : ObMvccRow) :
    live (r.push ctx node).mvccUndo = live r := by
  rw [live, versions_undo_push]
  exact List.dropWhile_idempotent _ _

/-- The first version that is not aborted reads like the newest version. It is the newest one
unless that one is aborted. -/
def NewestKept (r : ObMvccRow) : Prop :=
  (live r).head?.map toStoreRow = r.versions.head?.map toStoreRow

instance (r : ObMvccRow) : Decidable (NewestKept r) := inferInstanceAs (Decidable (_ = _))

theorem le_maxTransVersion_push (ctx : ObStoreCtx) (node : ObMvccTransNode) (r : ObMvccRow) :
    r.maxTransVersion ≤ (r.push ctx node).maxTransVersion := by
  unfold push
  dsimp only
  split <;> omega

theorem maxTransVersion_push_eq_iff (hok : r.isTransactionSetViolation ctx.snapshotVersion = false)
    (node : ObMvccTransNode) :
    (r.push ctx node).maxTransVersion = r.maxTransVersion ↔
      ctx.snapshotVersion = obInvalidVersion ∨ ctx.snapshotVersion = r.maxTransVersion := by
  unfold isTransactionSetViolation at hok
  unfold push
  dsimp only
  split at hok
  · next hinvalid => simp [hinvalid]
  · next hvalid =>
    simp only [gt_iff_lt, decide_eq_false_iff_not, not_lt] at hok
    split <;> omega

theorem engineWrite_at_watermark (hvalid : r.maxTransVersion ≠ obInvalidVersion)
    (hfree : conflicts ctx.txId r.versions = false) (hlive : live r' = live r)
    (hlt : r.maxTransVersion < r'.maxTransVersion) {data : ObMemtableData}
    (hdata : arg.data = some data) :
    (engineWrite ⟨ctx.txId, r.maxTransVersion⟩ arg r).1 = 0 ∧
      (engineWrite ⟨ctx.txId, r.maxTransVersion⟩ arg r').1 = -1 := by
  rw [conflicts_eq] at hfree
  simp [engineWrite_eq, conflicts_eq, hdata, hlive, hfree, isTransactionSetViolation,
    hvalid, hlt]

/-- An undo of an accepted write cannot be noticed exactly when the write has not raised the
watermark and no aborted version that scans return was cut off. -/
theorem undo_neutral_iff (hr : Reachable r) (hwrite : engineWrite ctx arg r = (0, false, r')) :
    Indistinguishable call r'.mvccUndo r ↔
      (ctx.snapshotVersion = obInvalidVersion ∨ ctx.snapshotVersion = r.maxTransVersion) ∧
        NewestKept r := by
  have hsound := sound_of_reachable hr
  obtain ⟨data, hdata, hfree, hok, rfl⟩ := engineWrite_accepted hwrite
  set node := buildTxNode { txId := arg.txId } data
  have hsound' : Sound (r.push ctx node).mvccUndo :=
    (hsound.push ctx (hasStatus_buildTxNode { txId := arg.txId } data)).undo
  rw [← maxTransVersion_push_eq_iff hok node]
  constructor
  · intro hsame
    constructor
    · by_contra hraised
      -- a write at the old watermark is accepted by the row and refused after the undo
      have hlt : r.maxTransVersion < (r.push ctx node).maxTransVersion :=
        lt_of_le_of_ne (le_maxTransVersion_push ctx node r) (Ne.symm hraised)
      obtain ⟨haccepted, hrefused⟩ := engineWrite_at_watermark hsound.watermark hfree
        (live_undo_push ctx node r) hlt hdata
      have hret : (engineWrite ⟨ctx.txId, r.maxTransVersion⟩ arg (r.push ctx node).mvccUndo).1 =
          (engineWrite ⟨ctx.txId, r.maxTransVersion⟩ arg r).1 :=
        (Answer.written.inj (hsame.output (.write _ arg))).1
      rw [haccepted, hrefused] at hret
      cases hret
    · have hanswer := hsame.output .scan
      simp only [call, scanFrom_eq hsound, scanFrom_eq hsound', versions_undo_push] at hanswer
      exact Answer.read.inj hanswer
  · rintro ⟨hwatermark, hnewest⟩
    apply bisimulation_alike.indistinguishable
    refine ⟨⟨hsound', hsound⟩, live_undo_push ctx node r, ?_, hwatermark⟩
    rw [versions_undo_push]
    exact hnewest

theorem undo_neutral_iff_example :
    Indistinguishable call (engineWrite {} ⟨1, some {}⟩ ObMvccRow.new).2.2.mvccUndo
      ObMvccRow.new :=
  have hwrite : engineWrite {} ⟨1, some {}⟩ ObMvccRow.new = (0, false, _) := rfl
  (undo_neutral_iff .new hwrite).mpr ⟨Or.inl rfl, rfl⟩

/-- The undone write at snapshot 10 lets a write at snapshot 5 fail. -/
theorem undone_write_still_refuses :
    let undone := (engineWrite ⟨1, 10⟩ ⟨1, some {}⟩ ObMvccRow.new).2.2.mvccUndo
    (engineWrite ⟨1, 10⟩ ⟨1, some {}⟩ ObMvccRow.new).1 = 0 ∧
      (call undone (.write ⟨2, 5⟩ ⟨2, some {}⟩)).1 = .written (-1) false ∧
      (call ObMvccRow.new (.write ⟨2, 5⟩ ⟨2, some {}⟩)).1 = .written 0 false ∧
      ¬ Indistinguishable call undone ObMvccRow.new := by
  refine ⟨by decide +kernel, by decide +kernel, by decide +kernel, fun hsame => ?_⟩
  exact absurd (hsame.output (.write ⟨2, 5⟩ ⟨2, some {}⟩)) (by decide +kernel)

end Undo

end MvccUndo
