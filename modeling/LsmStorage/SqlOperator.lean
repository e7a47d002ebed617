import LsmStorage.BoundedLoop
import LsmStorage.ResultCode

/-! # PhysicalOperator

The virtual functions of an operator, a caller that reads it to its end, and what an operator
promises that can be opened again. -/
namespace SqlOperator

open BoundedLoop ResultCode

variable {T σ π τ : Type*}

/-- The virtual functions of an operator over its state `σ`. A `Trx *` is a `T`, a `Tuple *` that
is not null a `π`, and `deref` is the tuple that stands at an address now. -/
structure PhysicalOperator (T σ π τ : Type*) where
  openWith : T → σ → RC × σ
  next : σ → RC × σ
  close : σ → RC × σ
  currentTuple : σ → Option π
  deref : σ → π → Option τ

namespace PhysicalOperator

variable (op : PhysicalOperator T σ π τ)

def tupleNow (s : σ) : Option τ := (op.currentTuple s).bind (op.deref s)

def after (s : σ) : ℕ → σ
  | 0 => s
  | n + 1 => after (op.next s).2 n

def answer (s : σ) (n : ℕ) : RC := (op.next (op.after s n)).1

theorem after_succ (s : σ) (n : ℕ) : op.after s (n + 1) = (op.next (op.after s n)).2 := by
  induction n generalizing s with
  | zero => rfl
  | succ n ih => exact ih (op.next s).2

end PhysicalOperator

/-- A turn of a caller that collects the tuples. A `next` that does not return is `none`. -/
def drainTurn (next : σ → Option (RC × σ)) (tuple : σ → Option τ) :
    σ × List (Option τ) → Turn (σ × List (Option τ)) (Option (RC × List (Option τ) × σ))
  | (s, tuples) =>
    match next s with
    | none => .stop none
    | some (rc, s) =>
      if rc ≠ .success then .stop (some (rc, tuples, s)) else .again (s, tuples ++ [tuple s])

def drain (next : σ → Option (RC × σ)) (tuple : σ → Option τ) (fuel : ℕ) (s : σ) :
    Option (RC × List (Option τ) × σ) :=
  (run (drainTurn next tuple) fuel (s, [])).join

theorem drain_unique {next : σ → Option (RC × σ)} {tuple : σ → Option τ} {fuel fuel' : ℕ} {s : σ}
    {r r' : RC × List (Option τ) × σ} (h : drain next tuple fuel s = some r)
    (h' : drain next tuple fuel' s = some r') : r = r' := by
  rw [drain, Option.join_eq_some_iff] at h h'
  exact Option.some.inj (Yields.unique ⟨fuel, h⟩ ⟨fuel', h'⟩)

/-- What a call of `next` gives with these rows still to come. -/
def Answers (tuple : σ → Option τ) (rest : σ → List τ → Prop) (ended : σ → Prop) (out : RC × σ) :
    List τ → Prop
  | [] => out.1 = .recordEof ∧ ended out.2
  | t :: ts => out.1 = .success ∧ rest out.2 ts ∧ tuple out.2 = some t

theorem drain_of_answers {next : σ → RC × σ} {tuple : σ → Option τ} {rest : σ → List τ → Prop}
    {ended : σ → Prop} (hsteps : ∀ s ts, rest s ts → Answers tuple rest ended (next s) ts)
    {fuel : ℕ} {s : σ} {ts : List τ} (h : rest s ts) (hfuel : ts.length < fuel) :
    ∃ s', ended s' ∧
      drain (fun s => some (next s)) tuple fuel s = some (.recordEof, ts.map some, s') := by
  suffices hrun : ∀ tuples, ∃ s', ended s' ∧
      run (drainTurn (fun s => some (next s)) tuple) fuel (s, tuples) =
        some (some (.recordEof, tuples ++ ts.map some, s')) by
    obtain ⟨s', hended, hrun⟩ := hrun []
    exact ⟨s', hended, by rw [drain, hrun]; rfl⟩
  intro tuples
  induction ts generalizing s fuel tuples with
  | nil =>
    obtain ⟨n, rfl⟩ := Nat.exists_eq_succ_of_ne_zero (Nat.ne_zero_of_lt hfuel)
    obtain ⟨hcode, hended⟩ := hsteps s [] h
    exact ⟨_, hended, by simp [run, drainTurn, hcode]⟩
  | cons t ts ih =>
    obtain ⟨n, rfl⟩ := Nat.exists_eq_succ_of_ne_zero (Nat.ne_zero_of_lt hfuel)
    obtain ⟨hcode, hrest, hread⟩ := hsteps s (t :: ts) h
    obtain ⟨s', hended, hrun⟩ := ih hrest (Nat.lt_of_succ_lt_succ hfuel) (tuples ++ [some t])
    refine ⟨s', hended, ?_⟩
    simp [run, drainTurn, hcode, hread, hrun]

section Contract

variable (op : PhysicalOperator T σ π τ)

/-- An operator that hands out `rows` after every `open`. `closed`, `rest` and `ended` say where it
stands: it can be opened, these rows are still to come, it has returned `RECORD_EOF`. -/
structure ReopenableIterator (trx : T) (rows : List τ) where
  closed : σ → Prop
  rest : σ → List τ → Prop
  ended : σ → Prop
  opens : ∀ s, closed s → (op.openWith trx s).1 = .success ∧ rest (op.openWith trx s).2 rows
  steps : ∀ s ts, rest s ts → Answers op.tupleNow rest ended (op.next s) ts
  closes : ∀ s, ended s → (op.close s).1 = .success ∧ closed (op.close s).2

/-- It can also be asked at its end, and closed before it. -/
structure Iterates (trx : T) (rows : List τ) extends ReopenableIterator op trx rows where
  stays : ∀ s, ended s → rest s []
  stops : ∀ s ts, rest s ts → (op.close s).1 = .success ∧ closed (op.close s).2
  ended := fun s => rest s []
  closes := fun s hended => stops s [] (stays s hended)

end Contract

def listScan (rows : List τ) : PhysicalOperator Unit (Option ℕ) Unit τ where
  openWith _ _ := (.success, some 0)
  next
    | none => (.internal, none)
    | some i => if i < rows.length then (.success, some (i + 1)) else (.recordEof, some i)
  close _ := (.success, none)
  currentTuple _ := some ()
  deref s _ := s.bind fun i => rows[i - 1]?

def listScanIterates (rows : List τ) : Iterates (listScan rows) () rows where
  closed s := s = none
  rest s ts := ∃ i, s = some i ∧ rows.drop i = ts
  opens _ _ := ⟨rfl, 0, rfl, rfl⟩
  steps := by
    rintro s ts ⟨i, rfl, rfl⟩
    rcases lt_or_ge i rows.length with hi | hi
    · rw [List.drop_eq_getElem_cons hi]
      exact ⟨by simp [listScan, hi], ⟨i + 1, by simp [listScan, hi], rfl⟩,
        by simp [PhysicalOperator.tupleNow, listScan, hi]⟩
    · rw [List.drop_eq_nil_of_le hi]
      exact ⟨by simp [listScan, hi.not_gt], i, by simp [listScan, hi.not_gt],
        List.drop_eq_nil_of_le hi⟩
  stays _ hended := hended
  stops _ _ _ := ⟨rfl, rfl⟩

end SqlOperator
