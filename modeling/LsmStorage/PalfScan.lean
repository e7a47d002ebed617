import LsmStorage.PalfHandle

/-! # The header walks of `init` and `load`

Both loops read a header at `scan_lsn` and go on at the end it names. `init` stops at the
first end that does not advance. `load` stops only at end `0` or where it finds no header. -/
namespace PalfScan

open ByteCodec PosixFiles PalfLogEntry PalfLogStorage PalfHandle BoundedLoop
open PalfHandleImpl (scanTurn loadTurn scanBufSize)
open LogGroupEntryHeader (getSerializeSize deserialize)

variable {δ : Type*}

def header? (buf : Bytes) : Option LogGroupEntryHeader :=
  match deserialize buf 0 with
  | none => none
  | some (hdr, _) => if hdr.isValid then some hdr else none

theorem header?_of_short {buf : Bytes} (h : buf.length < getSerializeSize) :
    header? buf = none := by
  simp [header?, deserialize, h]

variable {g : LogGroupEntryHeader}

theorem header?_eq_some {buf : Bytes} {pos : ℕ} (hdes : deserialize buf 0 = some (g, pos))
    (hv : g.isValid = true) : header? buf = some g := by
  simp [header?, hdes, hv]

theorem header?_append {buf : Bytes} (tail : Bytes) (h : getSerializeSize ≤ buf.length) :
    header? (buf ++ tail) = header? buf := by
  rw [header?, header?, LogGroupEntryHeader.deserialize_append tail h]

theorem committedEndLsn_lt {buf : Bytes} (h : header? buf = some g) :
    g.committedEndLsn < 2 ^ 64 := by
  unfold header? deserialize at h
  split at h
  · cases h
  · next hdr pos hdes =>
    split at hdes
    · cases hdes
    obtain ⟨rfl, -⟩ := Prod.mk.inj (Option.some.inj hdes)
    split at h
    · obtain rfl := Option.some.inj h
      have hlt := ofLE_lt (slice buf (0 + 32) 8)
      have hlen : (slice buf (0 + 32) 8).length ≤ 8 := List.length_take_le _ _
      exact lt_of_lt_of_le hlt (Nat.pow_le_pow_right (by norm_num) hlen)
    · cases h

theorem deserialize_pos {buf : Bytes} {pos : ℕ} (hdes : deserialize buf 0 = some (g, pos)) :
    pos = getSerializeSize := by
  unfold deserialize at hdes
  split at hdes
  · cases hdes
  · exact (Prod.mk.inj (Option.some.inj hdes)).2.symm.trans (Nat.zero_add _)

theorem checks_eq {α : Type*} (buf : Bytes) (stop : α) (found : LogGroupEntryHeader → ℕ → α) :
    (if buf.length < getSerializeSize then stop
      else match deserialize buf 0 with
        | none => stop
        | some (hdr, pos) => if !hdr.isValid then stop else found hdr pos) =
      match header? buf with
      | none => stop
      | some hdr => found hdr getSerializeSize := by
  by_cases hshort : buf.length < getSerializeSize
  · rw [if_pos hshort, header?_of_short hshort]
  · rw [if_neg hshort, header?]
    cases hdes : deserialize buf 0 with
    | none => rfl
    | some res =>
      obtain ⟨hdr, pos⟩ := res
      obtain rfl := deserialize_pos hdes
      cases hv : hdr.isValid <;> simp [hv]

def headerAt (s : LogStorage δ) (disk : Disk δ) (lsn : ℕ) : Option LogGroupEntryHeader :=
  (s.read disk lsn scanBufSize scanBufSize).bind header?

theorem committedEndLsn_lt_of_headerAt {s : LogStorage δ} {disk : Disk δ} {lsn : ℕ}
    (h : headerAt s disk lsn = some g) : g.committedEndLsn < 2 ^ 64 := by
  obtain ⟨buf, -, hg⟩ := Option.bind_eq_some_iff.mp h
  exact committedEndLsn_lt hg

theorem scanTurn_eq (s : LogStorage δ) (disk : Disk δ) (lsn last : ℕ) :
    scanTurn s disk (lsn, last) =
      match headerAt s disk lsn with
      | none => .stop last
      | some hdr =>
        if hdr.committedEndLsn ≤ lsn then .stop hdr.committedEndLsn
        else .again (hdr.committedEndLsn, hdr.committedEndLsn) := by
  unfold scanTurn headerAt
  dsimp only
  cases s.read disk lsn scanBufSize scanBufSize with
  | none => rfl
  | some buf => exact checks_eq buf _ fun _ _ => _

theorem loadTurn_eq (s : LogStorage δ) (disk : Disk δ) (lsn : ℕ) :
    loadTurn s disk lsn =
      match headerAt s disk lsn with
      | none => .stop lsn
      | some hdr =>
        if hdr.committedEndLsn ≤ 0 then .stop hdr.committedEndLsn
        else .again hdr.committedEndLsn := by
  unfold loadTurn headerAt
  cases s.read disk lsn scanBufSize scanBufSize with
  | none => rfl
  | some buf => exact checks_eq buf _ fun _ _ => _

theorem scan_halts (s : LogStorage δ) (disk : Disk δ) (lsn last : ℕ) :
    Halts (scanTurn s disk) (lsn, last) := by
  refine halts_of_measure (I := fun _ => True) (fun st => 2 ^ 64 - st.1) ?_ trivial
  rintro ⟨l, v⟩ t - hturn
  rw [scanTurn_eq] at hturn
  cases hat : headerAt s disk l with
  | none => simp [hat] at hturn
  | some g =>
    have hlt := committedEndLsn_lt_of_headerAt hat
    by_cases hle : g.committedEndLsn ≤ l
    · simp [hat, hle] at hturn
    · simp only [hat, hle, ↓reduceIte, Turn.again.injEq] at hturn
      subst hturn
      exact ⟨trivial, by dsimp only; omega⟩

/-- `load` starts where `init` started and comes to the end that `init` has found. If that is
`0` it stops there, otherwise it goes on from there. -/
theorem load_yields_iff {s : LogStorage δ} {disk : Disk δ} {lsn last : ℕ}
    (h : Yields (scanTurn s disk) (lsn, lsn) last) (r : ℕ) :
    Yields (loadTurn s disk) lsn r ↔
      (last = 0 ∧ r = 0) ∨ (last ≠ 0 ∧ Yields (loadTurn s disk) last r) := by
  have hstop : ∀ {l q : ℕ}, loadTurn s disk l = .stop q →
      (Yields (loadTurn s disk) l r ↔ r = q) := by
    intro l q hq
    refine ⟨fun hr => hr.unique (yields_stop hq), ?_⟩
    rintro rfl
    exact yields_stop hq
  obtain ⟨n, hn⟩ := h
  induction n generalizing lsn with
  | zero => cases hn
  | succ n ih =>
    rw [run, scanTurn_eq] at hn
    have hload := loadTurn_eq s disk lsn
    cases hat : headerAt s disk lsn with
    | none =>
      simp only [hat, Option.some.injEq] at hn hload
      subst hn
      by_cases hz : lsn = 0
      · subst hz
        simp [hstop hload]
      · simp [hz]
    | some g =>
      simp only [hat] at hn hload
      by_cases hle : g.committedEndLsn ≤ lsn
      · simp only [hle, ↓reduceIte, Option.some.injEq] at hn
        subst hn
        by_cases hz : g.committedEndLsn = 0
        · simp only [hz, le_refl, ↓reduceIte] at hload
          simp [hz, hstop hload]
        · rw [if_neg (by omega)] at hload
          simp [hz, yields_iff_of_again hload]
      · simp only [hle, ↓reduceIte] at hn
        rw [if_neg (by omega)] at hload
        rw [yields_iff_of_again hload]
        exact ih hn

theorem headerAt_of_load_yields {s : LogStorage δ} {disk : Disk δ} {lsn r : ℕ}
    (h : Yields (loadTurn s disk) lsn r) (hr : r ≠ 0) : headerAt s disk r = none := by
  obtain ⟨n, hn⟩ := h
  induction n generalizing lsn with
  | zero => cases hn
  | succ n ih =>
    rw [run, loadTurn_eq] at hn
    cases hat : headerAt s disk lsn with
    | none =>
      simp only [hat, Option.some.injEq] at hn
      exact hn ▸ hat
    | some g =>
      by_cases hle : g.committedEndLsn ≤ 0
      · simp only [hat, hle, ↓reduceIte, Option.some.injEq] at hn
        omega
      · simp only [hat, hle, ↓reduceIte] at hn
        exact ih hn

theorem load_yields_self_iff {s : LogStorage δ} {disk : Disk δ} {lsn : ℕ} (hne : lsn ≠ 0) :
    Yields (loadTurn s disk) lsn lsn ↔ headerAt s disk lsn = none := by
  refine ⟨fun h => headerAt_of_load_yields h hne, fun hat => yields_stop ?_⟩
  rw [loadTurn_eq, hat]

end PalfScan
