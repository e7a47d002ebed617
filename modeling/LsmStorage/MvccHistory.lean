import LsmStorage.MvccRow
import Mathlib.Data.List.Pairwise

/-! # Interleavings of writers, commits and aborts on one row

Writers add undecided nodes; a transaction is later committed or aborted as a whole. In every
reachable row one transaction at most is in flight and it sits on top of the committed
versions, which is what makes the first node that is not aborted decide about a conflict.
The snapshot check looks at snapshots of accepted writes only, never at commit versions. -/
namespace MvccHistory

open HeapChain MvccRow ObMvccRow ObMvccTransNode

inductive RowEvent where
  | write (ctx : ObStoreCtx) (data : ObMemtableData)
  | commit (tx commitVersion : ℤ)
  | abort (tx : ℤ)
  deriving DecidableEq, Repr

def newNode (ctx : ObStoreCtx) (data : ObMemtableData) : ObMvccTransNode :=
  { txId := ctx.txId, data := data }

theorem isUndecided_newNode (ctx : ObStoreCtx) (data : ObMemtableData) :
    (newNode ctx data).isUndecided = true := by
  have hbits : TransNodeFlag.fInit &&& TransNodeFlag.fCommitted = 0 ∧
      TransNodeFlag.fInit &&& TransNodeFlag.fAborted = 0 := by decide
  simp [isUndecided, isCommitted, isAborted,
    newNode, hbits]

/-- A row with what has happened to it: the valid snapshots of the accepted writes, and the
commit versions that were given to nodes of the row. -/
structure Observed where
  row : ObMvccRow := ObMvccRow.new
  snapshots : List ℤ := []
  commits : List ℤ := []

def observe (o : Observed) : RowEvent → Observed
  | .write ctx data =>
    let (ret, _, row) := o.row.mvccWrite ctx (newNode ctx data)
    { o with
      row := row
      snapshots :=
        if ret = 0 ∧ ctx.snapshotVersion ≠ obInvalidVersion then
          ctx.snapshotVersion :: o.snapshots
        else o.snapshots }
  | .commit tx commitVersion =>
    { o with
      row := o.row.commitTx tx commitVersion
      commits :=
        if o.row.versions.any fun n => n.isUndecided && n.txId == tx then
          commitVersion :: o.commits
        else o.commits }
  | .abort tx => { o with row := o.row.abortTx tx }

inductive Reachable : Observed → Prop where
  | new : Reachable {}
  | step {o : Observed} (e : RowEvent) : Reachable o → Reachable (observe o e)

/-- Who may hold undecided nodes, and where, in a list of versions from newest to oldest. -/
structure Exclusive (vs : List ObMvccTransNode) : Prop where
  one_writer : ∀ a ∈ vs, ∀ b ∈ vs, a.isUndecided = true → b.isUndecided = true → a.txId = b.txId
  none_below : vs.Pairwise fun a b => a.isCommitted = true → b.isUndecided = false
  one_status : ∀ a ∈ vs, a.isCommitted = true → a.isAborted = false

theorem isUndecided_iff (n : ObMvccTransNode) :
    n.isUndecided = true ↔ n.isCommitted = false ∧ n.isAborted = false := by
  simp [isUndecided]

theorem mem_dropWhile_of_not_aborted {vs : List ObMvccTransNode} {n : ObMvccTransNode}
    (hn : n ∈ vs) (ha : n.isAborted = false) :
    n ∈ vs.dropWhile isAborted := by
  rw [← List.takeWhile_append_dropWhile (p := isAborted) (l := vs)] at hn
  rcases List.mem_append.mp hn with hn | hn
  · have := List.mem_takeWhile_imp hn
    simp [ha] at this
  · exact hn

theorem conflicts_iff {vs : List ObMvccTransNode} (h : Exclusive vs) (tx : ℤ) :
    conflicts tx vs = true ↔ ∃ n ∈ vs, n.isUndecided = true ∧ n.txId ≠ tx := by
  unfold conflicts
  cases hfind : vs.find? fun n => !n.isAborted with
  | none =>
    have hall := List.find?_eq_none.mp hfind
    constructor
    · intro hfalse
      cases hfalse
    · rintro ⟨n, hn, hu, -⟩
      have haborted := hall n hn
      simp [((isUndecided_iff n).mp hu).2] at haborted
  | some first =>
    obtain ⟨hlive, pre, post, rfl, hpre⟩ := List.find?_eq_some_iff_append.mp hfind
    have hfirst : first ∈ pre ++ first :: post := by simp
    constructor
    · intro hc
      have hc : first.isCommitted = false ∧ first.txId ≠ tx := by simpa using hc
      exact ⟨first, hfirst, (isUndecided_iff first).mpr ⟨hc.1, by simpa using hlive⟩, hc.2⟩
    · rintro ⟨n, hn, hu, htx⟩
      have hcommitted : first.isCommitted = false := by
        by_contra hc
        rcases List.mem_append.mp hn with hn | hn
        · have haborted := hpre n hn
          simp [((isUndecided_iff n).mp hu).2] at haborted
        rcases List.mem_cons.mp hn with rfl | hn
        · exact hc ((isUndecided_iff n).mp hu).1
        · have hbelow := (List.pairwise_append.mp h.none_below).2.1
          have hdecided := (List.pairwise_cons.mp hbelow).1 n hn (by simpa using hc)
          simp [hu] at hdecided
      have hund : first.isUndecided = true :=
        (isUndecided_iff first).mpr ⟨hcommitted, by simpa using hlive⟩
      have hsame := h.one_writer first hfirst n hn hund hu
      simp [hcommitted, hsame, htx]

theorem exclusive_push {vs : List ObMvccTransNode} (h : Exclusive vs) {node : ObMvccTransNode}
    (hnode : node.isUndecided = true)
    (hfree : ∀ n ∈ vs, n.isUndecided = true → n.txId = node.txId) :
    Exclusive (node :: vs.dropWhile isAborted) := by
  have hsub := List.dropWhile_sublist (l := vs) isAborted
  constructor
  · intro a ha b hb hua hub
    have htx : ∀ n ∈ node :: vs.dropWhile isAborted, n.isUndecided = true →
        n.txId = node.txId := by
      intro n hn hu
      rcases List.mem_cons.mp hn with rfl | hn
      · rfl
      · exact hfree n (hsub.subset hn) hu
    exact (htx a ha hua).trans (htx b hb hub).symm
  · refine List.pairwise_cons.mpr ⟨fun b _ hc => ?_, h.none_below.sublist hsub⟩
    simp [((isUndecided_iff node).mp hnode).1] at hc
  · intro a ha hc
    rcases List.mem_cons.mp ha with rfl | ha
    · simp [((isUndecided_iff a).mp hnode).1] at hc
    · exact h.one_status a (hsub.subset ha) hc

theorem exclusive_onUndecided {vs : List ObMvccTransNode} (h : Exclusive vs) (tx : ℤ)
    {f : ObMvccTransNode → ObMvccTransNode} (hdecided : ∀ n, (f n).isUndecided = false)
    (hstatus : ∀ n, (f n).isCommitted = true → (f n).isAborted = false) :
    Exclusive (vs.map (onUndecided tx f)) := by
  have hone : ∀ n ∈ vs.map (onUndecided tx f),
      n.isCommitted = true → n.isAborted = false := by
    intro n hn hc
    obtain ⟨m, hm, rfl⟩ := List.mem_map.mp hn
    unfold onUndecided at hc ⊢
    split at hc
    · rw [if_pos (by assumption)]
      exact hstatus m hc
    · rw [if_neg (by assumption)]
      exact h.one_status m hm hc
  by_cases hother : ∃ n ∈ vs, n.isUndecided = true ∧ n.txId ≠ tx
  · obtain ⟨n, hn, hu, htx⟩ := hother
    have hid : vs.map (onUndecided tx f) = vs := by
      refine (List.map_congr_left fun m hm => ?_).trans (List.map_id vs)
      unfold onUndecided
      refine if_neg fun hmine => ?_
      have hmine : m.isUndecided = true ∧ m.txId = tx := by simpa using hmine
      exact htx ((h.one_writer n hn m hm hu hmine.1).trans hmine.2)
    rw [hid]
    exact h
  · have hnone : ∀ n ∈ vs.map (onUndecided tx f), n.isUndecided = false := by
      intro n hn
      obtain ⟨m, hm, rfl⟩ := List.mem_map.mp hn
      unfold onUndecided
      split
      · exact hdecided m
      · next hmine =>
        by_contra hu
        refine hother ⟨m, hm, by simpa using hu, fun htx => hmine ?_⟩
        simpa [htx] using hu
    constructor
    · intro a ha b _ hua
      simp [hnone a ha] at hua
    · exact List.Pairwise.imp_of_mem (fun _ hb _ _ => hnone _ hb)
        (List.pairwise_of_forall (R := fun _ _ => True) (fun _ _ => trivial))
    · exact hone

theorem versions_new : ObMvccRow.new.versions = [] := rfl

variable {o : Observed}

theorem exclusive_step (h : Exclusive o.row.versions) (e : RowEvent) :
    Exclusive (observe o e).row.versions := by
  cases e with
  | write ctx data =>
    have hconf := conflicts_iff h ctx.txId
    simp only [observe, mvccWrite_eq]
    split
    · exact h
    split
    · exact h
    · next hno _ =>
      rw [versions_push]
      refine exclusive_push h (isUndecided_newNode ctx data) fun n hn hu => ?_
      by_contra htx
      exact hno (hconf.mpr ⟨n, hn, hu, htx⟩)
  | commit tx commitVersion =>
    simp only [observe, versions_commitTx]
    exact exclusive_onUndecided h tx (by simp) (by simp)
  | abort tx =>
    simp only [observe, versions_abortTx]
    exact exclusive_onUndecided h tx (by simp) (by simp)

theorem exclusive_of_reachable (h : Reachable o) : Exclusive o.row.versions := by
  induction h with
  | new => exact ⟨by simp [versions_new], by simp [versions_new], by simp [versions_new]⟩
  | step e _ ih => exact exclusive_step ih e

/-- In every interleaving the chain is a finite doubly linked list, one transaction at most is
in flight and nothing undecided lies below a committed node; a write reports a conflict
exactly when another transaction is in flight, and a failed write changes nothing. -/
theorem chain_of_reachable {o : Observed} (h : Reachable o) :
    Path o.row.heap prev o.row.listHead o.row.chain ∧
    o.row.chain.Nodup ∧
    (∀ a ∈ o.row.chain, ∀ n, o.row.heap a = some n → ∀ b, n.prev = some b →
      ∃ m, o.row.heap b = some m ∧ m.next = some a) ∧
    (∀ a ∈ o.row.versions, ∀ b ∈ o.row.versions, a.isUndecided = true → b.isUndecided = true →
      a.txId = b.txId) ∧
    (o.row.versions.Pairwise fun a b => a.isCommitted = true → b.isUndecided = false) ∧
    ∀ ctx node,
      ((o.row.mvccWrite ctx node).2.1 = true ↔
        ∃ n ∈ o.row.versions, n.isUndecided = true ∧ n.txId ≠ ctx.txId) ∧
      ((o.row.mvccWrite ctx node).1 ≠ 0 → (o.row.mvccWrite ctx node).2.2 = o.row) := by
  have hlinked := o.row.linked_chain
  have hexcl := exclusive_of_reachable h
  refine ⟨hlinked.path, hlinked.path.nodup, hlinked.back, hexcl.one_writer, hexcl.none_below, ?_⟩
  intro ctx node
  refine ⟨?_, mvccWrite_failed⟩
  rw [← conflicts_iff hexcl, mvccWrite_eq]
  split
  · next hc => simp [hc]
  · next hc => split <;> simpa using hc

/-- Transaction 1 has written and not committed: transaction 2 is turned away. -/
theorem chain_of_reachable_example :
    let o := observe {} (.write { txId := 1, snapshotVersion := 5 } { dmlFlag := .dfInsert })
    (o.row.mvccWrite { txId := 2, snapshotVersion := 9 } (newNode { txId := 2 } {})).2.1 = true :=
  ((chain_of_reachable (.step _ .new)).2.2.2.2.2 { txId := 2, snapshotVersion := 9 }
    (newNode { txId := 2 } {})).1.mpr (by decide)

/-- What the observed history says about the row: `max_trans_version_` is the largest accepted
snapshot or 0, and the committed versions are the recorded commit versions. -/
structure Recorded (o : Observed) : Prop where
  snapshots : ∀ s, s < o.row.maxTransVersion ↔ s < 0 ∨ ∃ v ∈ o.snapshots, s < v
  commits : ∀ v, (∃ n ∈ o.row.versions, n.isCommitted = true ∧ n.transVersion = v) ↔
    v ∈ o.commits

theorem recorded_write (h : Recorded o) (hexcl : Exclusive o.row.versions) (ctx : ObStoreCtx)
    (data : ObMemtableData) : Recorded (observe o (.write ctx data)) := by
  simp only [observe, mvccWrite_eq]
  split
  · exact ⟨by simpa using h.snapshots, h.commits⟩
  split
  · exact ⟨by simpa using h.snapshots, h.commits⟩
  constructor
  · intro s
    have hs := h.snapshots s
    simp only [push, true_and]
    by_cases hvalid : ctx.snapshotVersion = obInvalidVersion
    · simpa [hvalid] using hs
    · have hor : (s < 0 ∨ s < ctx.snapshotVersion ∨ ∃ v ∈ o.snapshots, s < v) ↔
          s < o.row.maxTransVersion ∨ s < ctx.snapshotVersion := by
        rw [hs, or_assoc, or_comm (b := s < ctx.snapshotVersion)]
      simp only [hvalid, ne_eq, not_false_eq_true, and_true, ↓reduceIte,
        List.exists_mem_cons_iff, hor]
      split <;> omega
  · intro v
    rw [← h.commits v, versions_push]
    constructor
    · rintro ⟨n, hn, hc, hv⟩
      rcases List.mem_cons.mp hn with rfl | hn
      · have hu := isUndecided_newNode ctx data
        rw [isCommitted_bare] at hc
        simp [isUndecided, hc] at hu
      · exact ⟨n, (List.dropWhile_sublist _).subset hn, hc, hv⟩
    · rintro ⟨n, hn, hc, hv⟩
      refine ⟨n, List.mem_cons_of_mem _ ?_, hc, hv⟩
      exact mem_dropWhile_of_not_aborted hn (hexcl.one_status n hn hc)

theorem recorded_commit (h : Recorded o) (tx commitVersion : ℤ) :
    Recorded (observe o (.commit tx commitVersion)) := by
  refine ⟨h.snapshots, fun v => ?_⟩
  have hcommits : v ∈ (observe o (.commit tx commitVersion)).commits ↔
      v ∈ o.commits ∨ (v = commitVersion ∧
        ∃ n ∈ o.row.versions, n.isUndecided = true ∧ n.txId = tx) := by
    simp only [observe]
    split
    · next hany =>
      have hany : ∃ n ∈ o.row.versions, n.isUndecided = true ∧ n.txId = tx := by
        simpa [List.any_eq_true] using hany
      rw [List.mem_cons]
      tauto
    · next hany =>
      have hany : ¬ ∃ n ∈ o.row.versions, n.isUndecided = true ∧ n.txId = tx := by
        simpa [List.any_eq_true] using hany
      exact ⟨Or.inl, fun hor => hor.resolve_right fun hr => hany hr.2⟩
  rw [hcommits, ← h.commits v]
  simp only [observe, versions_commitTx]
  constructor
  · rintro ⟨n, hn, hc, hv⟩
    obtain ⟨m, hm, rfl⟩ := List.mem_map.mp hn
    unfold onUndecided at hc hv
    split at hv
    · next hmine => exact Or.inr ⟨hv.symm, m, hm, by simpa using hmine⟩
    · next hmine =>
      rw [if_neg hmine] at hc
      exact Or.inl ⟨m, hm, hc, hv⟩
  · rintro (⟨n, hn, hc, hv⟩ | ⟨rfl, n, hn, hu, htx⟩)
    · refine ⟨n, List.mem_map.mpr ⟨n, hn, ?_⟩, hc, hv⟩
      simp [onUndecided, isUndecided, hc]
    · refine ⟨n.transCommit v, List.mem_map.mpr ⟨n, hn, ?_⟩, by simp, rfl⟩
      simp [onUndecided, hu, htx]

theorem recorded_abort (h : Recorded o) (tx : ℤ) :
    Recorded (observe o (.abort tx)) := by
  refine ⟨h.snapshots, fun v => ?_⟩
  simp only [observe, versions_abortTx]
  rw [← h.commits v]
  constructor
  · rintro ⟨n, hn, hc, hv⟩
    obtain ⟨m, hm, rfl⟩ := List.mem_map.mp hn
    unfold onUndecided at hc hv
    split at hc
    · simp at hc
    · next hmine =>
      rw [if_neg hmine] at hv
      exact ⟨m, hm, hc, hv⟩
  · rintro ⟨n, hn, hc, hv⟩
    refine ⟨n, List.mem_map.mpr ⟨n, hn, ?_⟩, hc, hv⟩
    simp [onUndecided, isUndecided, hc]

theorem recorded_of_reachable (h : Reachable o) : Recorded o := by
  induction h with
  | new => exact ⟨by simp [ObMvccRow.new], by simp [versions_new]⟩
  | step e ho ih =>
    cases e with
    | write ctx data => exact recorded_write ih (exclusive_of_reachable ho) ctx data
    | commit tx commitVersion => exact recorded_commit ih tx commitVersion
    | abort tx => exact recorded_abort ih tx

def NoLostUpdate (r : ObMvccRow) (ctx : ObStoreCtx) (node : ObMvccTransNode) : Prop :=
  ((r.mvccWrite ctx node).1 = 0 →
    ∀ n ∈ r.versions, n.isCommitted = true → n.transVersion ≤ ctx.snapshotVersion) ∧
  ((r.mvccWrite ctx node).1 ≠ 0 ∧ (r.mvccWrite ctx node).2.1 = false →
    ∃ n ∈ r.versions, n.isCommitted = true ∧ ctx.snapshotVersion < n.transVersion)

instance (r : ObMvccRow) (ctx : ObStoreCtx) (node : ObMvccTransNode) :
    Decidable (NoLostUpdate r ctx node) :=
  inferInstanceAs (Decidable (_ ∧ _))

/-- The check is right exactly when another transaction is in flight, or when the snapshot is
behind an accepted snapshot (or negative) just in case it is behind a commit version. -/
theorem noLostUpdate_iff {o : Observed} (h : Reachable o) (ctx : ObStoreCtx)
    (node : ObMvccTransNode) (hvalid : ctx.snapshotVersion ≠ obInvalidVersion) :
    NoLostUpdate o.row ctx node ↔
      (∃ n ∈ o.row.versions, n.isUndecided = true ∧ n.txId ≠ ctx.txId) ∨
      ((ctx.snapshotVersion < 0 ∨ ∃ v ∈ o.snapshots, ctx.snapshotVersion < v) ↔
        ∃ v ∈ o.commits, ctx.snapshotVersion < v) := by
  have hrec := recorded_of_reachable h
  have hcommits : (∃ v ∈ o.commits, ctx.snapshotVersion < v) ↔
      ∃ n ∈ o.row.versions, n.isCommitted = true ∧ ctx.snapshotVersion < n.transVersion := by
    constructor
    · rintro ⟨v, hv, hlt⟩
      obtain ⟨n, hn, hc, rfl⟩ := (hrec.commits v).mpr hv
      exact ⟨n, hn, hc, hlt⟩
    · rintro ⟨n, hn, hc, hlt⟩
      exact ⟨_, (hrec.commits _).mp ⟨n, hn, hc, rfl⟩, hlt⟩
  rw [← hrec.snapshots, hcommits, ← conflicts_iff (exclusive_of_reachable h), NoLostUpdate,
    mvccWrite_eq]
  by_cases hconf : conflicts ctx.txId o.row.versions = true
  · simp [hconf]
  · by_cases hlt : ctx.snapshotVersion < o.row.maxTransVersion
    · simp [hconf, isTransactionSetViolation, hvalid, hlt]
    · simp [hconf, isTransactionSetViolation, hvalid, hlt]

/-- A commit version equal to the writer's snapshot: the check is right for snapshot 3. -/
theorem noLostUpdate_when_commit_is_snapshot :
    NoLostUpdate (observe (observe {} (.write { txId := 1, snapshotVersion := 5 } {}))
      (.commit 1 5)).row { txId := 2, snapshotVersion := 3 } (newNode { txId := 2 } {}) :=
  (noLostUpdate_iff (.step _ (.step _ .new)) _ _ (by decide)).mpr (Or.inr (by decide))

/-- Transaction 1 writes at snapshot 5 and commits as version 20. Transaction 2, whose snapshot
10 does not contain that version, writes over it. -/
theorem lost_update :
    ¬ NoLostUpdate (observe (observe {} (.write { txId := 1, snapshotVersion := 5 } {}))
      (.commit 1 20)).row { txId := 2, snapshotVersion := 10 } (newNode { txId := 2 } {}) := by
  decide

end MvccHistory
