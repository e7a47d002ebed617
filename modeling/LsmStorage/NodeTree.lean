import Mathlib.Data.List.Nodup
import Mathlib.Data.List.Infix

/-! # Trees of nodes with child pointers

A node has a list of child pointers, and a pointer may be null. A place in the tree is the list of
the child numbers on the way to it. -/
namespace NodeTree

abbrev Path := List ℕ

/-- The child pointers of each node; the way down comes to an end. -/
structure Shape (N : Type*) where
  children : N → List (Option N)
  wf : WellFounded fun c n => some c ∈ children n

variable {N α σ ε : Type*}

namespace Shape

variable (T : Shape N)

def fold (f : N → List (Option α) → α) (n : N) : α :=
  f n ((T.children n).attach.map fun c =>
    match c with
    | ⟨none, _⟩ => none
    | ⟨some c, _⟩ => some (fold f c))
termination_by T.wf.wrap n
decreasing_by assumption

theorem fold_eq (f : N → List (Option α) → α) (n : N) :
    T.fold f n = f n ((T.children n).map (Option.map (T.fold f))) := by
  rw [fold]
  congr 1
  conv_rhs => rw [← List.attach_map_subtype_val (T.children n), List.map_map]
  refine List.map_congr_left fun c _ => ?_
  obtain ⟨c, hc⟩ := c
  cases c <;> rfl

@[elab_as_elim]
theorem ind {motive : N → Prop}
    (node : ∀ n, (∀ c, some c ∈ T.children n → motive c) → motive n) (n : N) : motive n :=
  T.wf.induction n node

def nodeAt : N → Path → Option N
  | n, [] => some n
  | n, j :: path => ((T.children n)[j]?.join).bind fun c => nodeAt c path

inductive Throughout (P : N → Prop) : N → Prop
  | node {n : N} (here : P n) (children : ∀ c, some c ∈ T.children n → Throughout P c) :
      Throughout P n

def Complete : N → Prop := T.Throughout fun n => none ∉ T.children n

variable {T}

theorem throughout_iff {P : N → Prop} {n : N} :
    T.Throughout P n ↔ ∀ path m, T.nodeAt n path = some m → P m := by
  constructor
  · intro h
    induction h with
    | node here _ ih =>
      intro path m hm
      cases path with
      | nil =>
        cases hm
        exact here
      | cons j path =>
        obtain ⟨c, hc, hm⟩ := Option.bind_eq_some_iff.mp hm
        have hmem := List.mem_of_getElem? (Option.join_eq_some_iff.mp hc)
        exact ih c hmem path m hm
  · intro h
    induction n using T.ind with
    | node n ih =>
      refine .node (h [] n rfl) fun c hc => ih c hc fun path m hm => ?_
      obtain ⟨j, hj⟩ := List.mem_iff_getElem?.mp hc
      exact h (j :: path) m (by rw [nodeAt, hj]; exact hm)

end Shape

section Preorder

def under : ℕ → List (Option (List (Path × N))) → List (Path × N)
  | _, [] => []
  | k, b :: bs => (b.getD []).map (fun x => (k :: x.1, x.2)) ++ under (k + 1) bs

def Shape.preorder (T : Shape N) : N → List (Path × N) :=
  T.fold fun n below => ([], n) :: under 0 below

theorem Shape.preorder_eq (T : Shape N) (n : N) :
    T.preorder n = ([], n) :: under 0 ((T.children n).map (Option.map T.preorder)) :=
  T.fold_eq _ n

theorem head_of_mem_under {k : ℕ} {bs : List (Option (List (Path × N)))} {x : Path × N}
    (h : x ∈ under k bs) : ∃ j path, k ≤ j ∧ x.1 = j :: path := by
  induction bs generalizing k with
  | nil => cases h
  | cons b bs ih =>
    rcases List.mem_append.mp h with h | h
    · obtain ⟨y, -, rfl⟩ := List.mem_map.mp h
      exact ⟨k, y.1, Nat.le_refl k, rfl⟩
    · obtain ⟨j, path, hj, hx⟩ := ih h
      exact ⟨j, path, Nat.le_of_succ_le hj, hx⟩

theorem nodup_under {k : ℕ} {bs : List (Option (List (Path × N)))}
    (h : ∀ b, some b ∈ bs → (b.map Prod.fst).Nodup) : ((under k bs).map Prod.fst).Nodup := by
  induction bs generalizing k with
  | nil => exact List.nodup_nil
  | cons b bs ih =>
    have hrest := ih (k := k + 1) fun c hc => h c (List.mem_cons_of_mem b hc)
    rw [under, List.map_append, List.map_map]
    refine List.nodup_append.mpr ⟨?_, hrest, ?_⟩
    · cases b with
      | none => exact List.nodup_nil
      | some b =>
        have hb := (h b List.mem_cons_self).map (List.cons_injective (a := k))
        rwa [List.map_map] at hb
    · intro p hp q hq heq
      obtain ⟨x, -, rfl⟩ := List.mem_map.mp hp
      obtain ⟨y, hy, rfl⟩ := List.mem_map.mp hq
      obtain ⟨j, path, hj, hpath⟩ := head_of_mem_under hy
      rw [hpath] at heq
      obtain ⟨rfl, -⟩ := List.cons_eq_cons.mp heq
      omega

theorem Shape.nodup_preorder (T : Shape N) (n : N) : ((T.preorder n).map Prod.fst).Nodup := by
  induction n using T.ind with
  | node n ih =>
    rw [T.preorder_eq, List.map_cons, List.nodup_cons]
    constructor
    · intro hmem
      obtain ⟨x, hx, heq⟩ := List.mem_map.mp hmem
      obtain ⟨j, path, -, hpath⟩ := head_of_mem_under hx
      rw [hpath] at heq
      cases heq
    · apply nodup_under
      intro b hb
      obtain ⟨c, hc, hmap⟩ := List.mem_map.mp hb
      obtain ⟨d, rfl, rfl⟩ := Option.map_eq_some_iff.mp hmap
      exact ih d hc

end Preorder

section Search

def Shape.reaches (T : Shape N) (stop goal : N → Bool) : N → Bool :=
  T.fold fun n below => !stop n && (goal n || below.any fun b => b.getD false)

theorem Shape.reaches_eq (T : Shape N) (stop goal : N → Bool) (n : N) :
    T.reaches stop goal n = (!stop n && (goal n ||
      (T.children n).any fun c => (c.map (T.reaches stop goal)).getD false)) := by
  rw [reaches, fold_eq, List.any_map]
  rfl

theorem Shape.reaches_iff (T : Shape N) (stop goal : N → Bool) (n : N) :
    T.reaches stop goal n = true ↔ ∃ path m, T.nodeAt n path = some m ∧ goal m = true ∧
      ∀ front, front <+: path → ∀ m', T.nodeAt n front = some m' → stop m' = false := by
  induction n using T.ind with
  | node n ih =>
    rw [T.reaches_eq, Bool.and_eq_true, Bool.not_eq_true', Bool.or_eq_true, List.any_eq_true]
    constructor
    · rintro ⟨hstop, hgoal | ⟨c, hc, hbelow⟩⟩
      · refine ⟨[], n, rfl, hgoal, fun front hfront m' hm' => ?_⟩
        rw [List.prefix_nil.mp hfront] at hm'
        cases hm'
        exact hstop
      · cases c with
        | none => cases hbelow
        | some c =>
          obtain ⟨path, m, hm, hgoal, hopen⟩ := (ih c hc).mp hbelow
          obtain ⟨j, hj⟩ := List.mem_iff_getElem?.mp hc
          have hstep (rest : Path) : T.nodeAt n (j :: rest) = T.nodeAt c rest := by
            rw [nodeAt, hj]
            rfl
          refine ⟨j :: path, m, (hstep path).trans hm, hgoal, fun front hfront m' hm' => ?_⟩
          rcases List.prefix_cons_iff.mp hfront with rfl | ⟨rest, rfl, hrest⟩
          · cases hm'
            exact hstop
          · exact hopen rest hrest m' ((hstep rest).symm.trans hm')
    · rintro ⟨path, m, hm, hgoal, hopen⟩
      refine ⟨hopen [] List.nil_prefix n rfl, ?_⟩
      cases path with
      | nil =>
        cases hm
        exact .inl hgoal
      | cons j path =>
        obtain ⟨c, hc, hm⟩ := Option.bind_eq_some_iff.mp hm
        have hj := Option.join_eq_some_iff.mp hc
        have hmem := List.mem_of_getElem? hj
        refine .inr ⟨some c, hmem, (ih c hmem).mpr ⟨path, m, hm, hgoal, ?_⟩⟩
        intro front hfront m' hm'
        refine hopen (j :: front) (List.cons_prefix_cons.mpr ⟨rfl, hfront⟩) m' ?_
        rw [nodeAt, hj]
        exact hm'

end Search

section Walk

/-- The calls for the child pointers in turn; a call for a null pointer fails. -/
def callEach (null : ε) (path : Path) :
    ℕ → List (Option (Path → σ → Except ε σ)) → σ → Except ε σ
  | _, [], s => .ok s
  | _, none :: _, _ => .error null
  | k, some call :: calls, s => (call (path ++ [k]) s).bind (callEach null path (k + 1) calls)

/-- A callback that calls itself for the children of a node: what it does at a node may use
`next`, the calls for the children. -/
def Shape.walk (T : Shape N) (null : ε)
    (body : N → Path → (σ → Except ε σ) → σ → Except ε σ) : N → Path → σ → Except ε σ :=
  T.fold fun n calls path => body n path (callEach null path 0 calls)

variable {T : Shape N} {null : ε} {body : N → Path → (σ → Except ε σ) → σ → Except ε σ}

theorem Shape.walk_eq (T : Shape N) (null : ε)
    (body : N → Path → (σ → Except ε σ) → σ → Except ε σ) (n : N) (path : Path) :
    T.walk null body n path = body n path
      (callEach null path 0 ((T.children n).map (Option.map (T.walk null body)))) := by
  rw [walk, fold_eq]

def effectEach (effect : N → Path → σ → σ) (path : Path) : ℕ → List N → σ → σ
  | _, [], s => s
  | k, c :: cs, s => effectEach effect path (k + 1) cs (effect c (path ++ [k]) s)

theorem callEach_of_effect (effect : N → Path → σ → σ) {call : N → Path → σ → Except ε σ}
    {path : Path} {k : ℕ} {cs : List N}
    (h : ∀ j c, cs[j]? = some c → ∀ s,
      call c (path ++ [k + j]) s = .ok (effect c (path ++ [k + j]) s)) (s : σ) :
    callEach null path k ((cs.map some).map (Option.map call)) s =
      .ok (effectEach effect path k cs s) := by
  induction cs generalizing k s with
  | nil => rfl
  | cons c cs ih =>
    have hc := h 0 c rfl s
    rw [Nat.add_zero] at hc
    rw [List.map_cons, List.map_cons, Option.map_some, callEach, hc]
    refine ih (k := k + 1) (fun j d hd t => ?_) _
    have hd' := h (j + 1) d hd t
    rwa [← Nat.add_assoc, Nat.add_right_comm] at hd'

theorem exists_map_some {l : List (Option α)} (h : none ∉ l) : ∃ cs : List α, l = cs.map some := by
  induction l with
  | nil => exact ⟨[], rfl⟩
  | cons o l ih =>
    obtain ⟨ho, hl⟩ := not_or.mp (mt List.mem_cons.mpr h)
    obtain ⟨cs, rfl⟩ := ih hl
    cases o with
    | none => exact absurd rfl ho
    | some c => exact ⟨c :: cs, rfl⟩

def Within (P : ε → Prop) : Except ε σ → Prop
  | .ok _ => True
  | .error e => P e

theorem Within.bind {P : ε → Prop} {r : Except ε σ} {f : σ → Except ε σ} (h : Within P r)
    (hf : ∀ s, Within P (f s)) : Within P (r.bind f) := by
  cases r with
  | ok s => exact hf s
  | error e => exact h

theorem callEach_within {P : ε → Prop} (hnull : P null)
    {calls : List (Option (Path → σ → Except ε σ))}
    (h : ∀ call, some call ∈ calls → ∀ path s, Within P (call path s)) (path : Path) (k : ℕ)
    (s : σ) : Within P (callEach null path k calls s) := by
  induction calls generalizing k s with
  | nil => trivial
  | cons call calls ih =>
    cases call with
    | none => exact hnull
    | some call =>
      exact (h call List.mem_cons_self _ s).bind fun t =>
        ih (fun c hc => h c (List.mem_cons_of_mem _ hc)) (k + 1) t

theorem Shape.Throughout.walk_within {P : ε → Prop} {Q : N → Prop} (hnull : P null)
    (hbody : ∀ n path next, Q n → (∀ s, Within P (next s)) → ∀ s, Within P (body n path next s))
    {n : N} (h : T.Throughout Q n) (path : Path) (s : σ) :
    Within P (T.walk null body n path s) := by
  induction h generalizing path s with
  | node here _ ih =>
    rw [T.walk_eq]
    refine hbody _ path _ here (fun t => callEach_within hnull ?_ path 0 t) s
    intro call hcall
    obtain ⟨c, hc, hmap⟩ := List.mem_map.mp hcall
    obtain ⟨d, rfl, rfl⟩ := Option.map_eq_some_iff.mp hmap
    exact ih d hc

theorem mem_of_callEach_ok {path : Path} {k : ℕ}
    {calls : List (Option (Path → σ → Except ε σ))} {s s' : σ}
    (h : callEach null path k calls s = .ok s') :
    ∀ c ∈ calls, ∃ call place t t', c = some call ∧ call place t = .ok t' := by
  induction calls generalizing k s with
  | nil => exact fun c hc => absurd hc List.not_mem_nil
  | cons call calls ih =>
    cases call with
    | none => cases h
    | some call =>
      rw [callEach] at h
      cases hcall : call (path ++ [k]) s with
      | error e =>
        rw [hcall] at h
        cases h
      | ok t =>
        rw [hcall] at h
        exact List.forall_mem_cons.mpr ⟨⟨call, _, s, t, rfl, hcall⟩, ih h⟩

theorem Shape.complete_of_walk_ok
    (hbody : ∀ n path next s s', body n path next s = .ok s' → ∃ t t', next t = .ok t')
    {n : N} {path : Path} {s s' : σ} (h : T.walk null body n path s = .ok s') : T.Complete n := by
  induction n using T.ind generalizing path s s' with
  | node n ih =>
    rw [T.walk_eq] at h
    obtain ⟨t, t', hnext⟩ := hbody _ _ _ _ _ h
    have hcalls := mem_of_callEach_ok hnext
    refine .node ?_ ?_
    · intro hnone
      obtain ⟨call, place, u, u', hc, -⟩ := hcalls none (List.mem_map_of_mem hnone)
      cases hc
    · intro c hc
      obtain ⟨call, place, u, u', hmap, hok⟩ :=
        hcalls (some (T.walk null body c)) (List.mem_map_of_mem hc)
      cases hmap
      exact ih c hc hok

end Walk

section Marks

variable {V : Type*}

def overlay (written : Path → Option V) (path : Path) (marks : Path → V) : Path → V :=
  fun place =>
    if path <+: place then (written (place.drop path.length)).getD (marks place) else marks place

variable {written : Path → Option V} {path : Path} {marks : Path → V}

@[simp] theorem overlay_append (written : Path → Option V) (path : Path) (marks : Path → V)
    (rest : Path) :
    overlay written path marks (path ++ rest) =
      (written rest).getD (marks (path ++ rest)) := by
  rw [overlay, if_pos (List.prefix_append path rest), List.drop_left]

theorem overlay_outside {place : Path} (h : ¬ path <+: place) :
    overlay written path marks place = marks place :=
  if_neg h

theorem marks_ext {m m' : Path → V} (path : Path)
    (hbelow : ∀ rest, m (path ++ rest) = m' (path ++ rest))
    (helse : ∀ place, ¬ path <+: place → m place = m' place) : m = m' := by
  funext place
  by_cases h : path <+: place
  · obtain ⟨rest, rfl⟩ := h
    exact hbelow rest
  · exact helse place h

theorem overlay_none (path : Path) (marks : Path → V) :
    overlay (fun _ => none) path marks = marks := by
  refine marks_ext path (fun rest => ?_) fun place h => overlay_outside h
  rw [overlay_append, Option.getD_none]

theorem overlay_overlay (written' written : Path → Option V) (path : Path) (marks : Path → V) :
    overlay written' path (overlay written path marks) =
      overlay (fun rest => (written' rest).or (written rest)) path marks := by
  refine marks_ext path (fun rest => ?_) fun place h => ?_
  · rw [overlay_append, overlay_append, overlay_append]
    cases written' rest <;> rfl
  · rw [overlay_outside h, overlay_outside h, overlay_outside h]

def writtenEach (written : N → Path → Option V) (k : ℕ) (cs : List N) : Path → Option V
  | [] => none
  | j :: rest => if k ≤ j then cs[j - k]?.bind fun c => written c rest else none

theorem effectEach_overlay (written : N → Path → Option V) (path : Path) (k : ℕ) (cs : List N)
    (marks : Path → V) :
    effectEach (fun c => overlay (written c)) path k cs marks =
      overlay (writtenEach written k cs) path marks := by
  induction cs generalizing k marks with
  | nil =>
    have hnone : writtenEach written k ([] : List N) = fun _ => none := by
      funext rest
      cases rest <;> simp [writtenEach]
    rw [effectEach, hnone, overlay_none]
  | cons c cs ih =>
    rw [effectEach, ih]
    refine marks_ext path (fun rest => ?_) fun place h => ?_
    · rw [overlay_append, overlay_append]
      cases rest with
      | nil =>
        have hplace : ¬ path ++ [k] <+: path ++ [] := by
          intro h
          have hle := h.length_le
          simp only [List.length_append, List.length_singleton, List.length_nil] at hle
          omega
        rw [overlay_outside hplace]
        rfl
      | cons j rest =>
        rcases Nat.lt_trichotomy j k with hlt | rfl | hlt
        · have hplace : ¬ path ++ [k] <+: path ++ j :: rest := by
            simp [List.prefix_append_right_inj, List.cons_prefix_cons, Nat.ne_of_gt hlt]
          rw [overlay_outside hplace, writtenEach, writtenEach, if_neg (by omega),
            if_neg (by omega)]
        · have hplace : path ++ j :: rest = (path ++ [j]) ++ rest := by simp
          rw [hplace, overlay_append, writtenEach, writtenEach, if_neg (by omega),
            if_pos (Nat.le_refl j), Nat.sub_self]
          rfl
        · have hplace : ¬ path ++ [k] <+: path ++ j :: rest := by
            simp [List.prefix_append_right_inj, List.cons_prefix_cons, Nat.ne_of_lt hlt]
          have hindex : j - k = j - (k + 1) + 1 := by omega
          rw [overlay_outside hplace, writtenEach, writtenEach, if_pos (by omega),
            if_pos (by omega), hindex, List.getElem?_cons_succ]
    · have hplace : ¬ path ++ [k] <+: place := fun hk => h ((List.prefix_append path [k]).trans hk)
      rw [overlay_outside h, overlay_outside h, overlay_outside hplace]

end Marks

end NodeTree
