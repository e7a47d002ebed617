import LsmStorage.Int32Range
import LsmStorage.RunInvariant
import Mathlib.Data.Finset.Basic
import Mathlib.Data.List.Nodup

/-! # MemPoolSimple

A pool is an array of items; an item is named by its array and its place in it. The state of the
objects is part of the model, as `free` resets an item before it looks whether the item is in use.
`new` succeeds, and `size` is an `int` that wraps around. -/
namespace MemPool

open Int32Range RunInvariant Int32

variable {T : Type*}

abbrev Item := ℕ × ℕ

structure ItemClass (T : Type*) where
  construct : T
  reinit : T → T
  reset : T → T

structure MemPoolSimple (T : Type*) where
  size : Int32 := 0
  dynamic : Bool := true
  itemNumPerPool : Int32 := 0
  pools : List ℕ := []
  used : Finset Item := ∅
  frees : List Item := []
  items : Item → T

namespace MemPoolSimple

variable (c : ItemClass T)

def itemsOf (n pool : ℕ) : List Item := (List.range n).map fun i => (pool, i)

def extend (p : MemPoolSimple T) : ℤ × MemPoolSimple T :=
  if p.dynamic = false then (-1, p)
  else
    let pool := p.pools.length
    (0, { p with
      pools := p.pools ++ [pool]
      size := p.size + p.itemNumPerPool
      frees := p.frees ++ itemsOf p.itemNumPerPool.toNatClampNeg pool
      items := fun item => if item.1 = pool then c.construct else p.items item })

/-- The loop of `init`. The first call that fails ends it. -/
def extendTimes : ℕ → MemPoolSimple T → ℤ × MemPoolSimple T
  | 0, p => (0, p)
  | n + 1, p =>
    let (ret, p) := p.extend c
    if ret < 0 then (-1, p) else extendTimes n p

def init (p : MemPoolSimple T) (dynamic : Bool) (poolNum itemNumPerPool : Int32) :
    ℤ × MemPoolSimple T :=
  if p.pools ≠ [] then (0, p)
  else if poolNum ≤ 0 ∨ itemNumPerPool ≤ 0 then (-1, p)
  else
    let (ret, p) := extendTimes c poolNum.toNatClampNeg { p with itemNumPerPool, dynamic := true }
    if ret < 0 then (-1, p) else (0, { p with dynamic })

def take (p : MemPoolSimple T) : Option Item × MemPoolSimple T :=
  match p.frees with
  | [] => (none, p)
  | buffer :: frees =>
    (some buffer, { p with
      frees
      used := insert buffer p.used
      items := fun item => if item = buffer then c.reinit (p.items item) else p.items item })

def alloc (p : MemPoolSimple T) : Option Item × MemPoolSimple T :=
  if p.frees = [] then
    if p.dynamic = false then (none, p)
    else
      let (ret, p) := p.extend c
      if ret < 0 then (none, p) else p.take c
  else p.take c

def free (buf : Item) (p : MemPoolSimple T) : MemPoolSimple T :=
  let p := { p with
    items := fun item => if item = buf then c.reset (p.items item) else p.items item }
  if buf ∉ p.used then p
  else { p with used := p.used.erase buf, frees := p.frees ++ [buf] }

def all (p : MemPoolSimple T) : List Item :=
  p.pools.flatMap (itemsOf p.itemNumPerPool.toNatClampNeg)

end MemPoolSimple

open MemPoolSimple

open MemPoolSimple

section Partition

structure Partition (p : MemPoolSimple T) : Prop where
  mem_all : ∀ item, item ∈ p.all ↔ item ∈ p.used ∨ item ∈ p.frees
  disjoint : ∀ item ∈ p.used, item ∉ p.frees
  nodup : p.frees.Nodup

structure Inv (p : MemPoolSimple T) : Prop extends Partition p where
  pools : p.pools = List.range p.pools.length
  positive : 0 < p.itemNumPerPool.toNatClampNeg
  size : p.size = ofNat p.all.length

variable {c : ItemClass T} {p : MemPoolSimple T}

theorem mem_itemsOf {n pool : ℕ} {item : Item} :
    item ∈ itemsOf n pool ↔ item.1 = pool ∧ item.2 < n := by
  obtain ⟨q, i⟩ := item
  simp [itemsOf, and_comm, eq_comm]

theorem nodup_itemsOf (n pool : ℕ) : (itemsOf n pool).Nodup :=
  List.nodup_range.map fun _ _ h => (Prod.mk.inj h).2

theorem Inv.pool_lt (h : Inv p) {item : Item} (hitem : item ∈ p.all) : item.1 < p.pools.length := by
  obtain ⟨pool, hpool, hmem⟩ := List.mem_flatMap.mp hitem
  rw [h.pools, List.mem_range] at hpool
  rw [(mem_itemsOf.mp hmem).1]
  exact hpool

theorem ofNat_add_of_positive {n : ℕ} {k : Int32} (hk : 0 < k.toNatClampNeg) :
    ofNat n + k = ofNat (n + k.toNatClampNeg) := by
  have hk' : ofNat k.toNatClampNeg = k := by
    apply ofNat_toNatClampNeg
    rw [le_iff_toInt_le]
    rw [← toNat_toInt] at hk
    show 0 ≤ k.toInt
    omega
  conv_lhs => rw [← hk']
  rw [← ofNat_add]

structure Grown (p p' : MemPoolSimple T) : Prop where
  used : p'.used = p.used
  frees : p'.frees = p.frees ++ itemsOf p.itemNumPerPool.toNatClampNeg p.pools.length
  pools : p'.pools = p.pools ++ [p.pools.length]
  itemNumPerPool : p'.itemNumPerPool = p.itemNumPerPool
  dynamic : p'.dynamic = p.dynamic
  size : p'.size = p.size + p.itemNumPerPool

theorem grown_extend (hdynamic : p.dynamic = true) :
    (p.extend c).1 = 0 ∧ Grown p (p.extend c).2 := by
  rw [MemPoolSimple.extend, if_neg (by rw [hdynamic]; decide)]
  exact ⟨rfl, rfl, rfl, rfl, rfl, rfl, rfl⟩

variable {p' : MemPoolSimple T}

theorem Grown.all (h : Grown p p') :
    p'.all = p.all ++ itemsOf p.itemNumPerPool.toNatClampNeg p.pools.length := by
  rw [MemPoolSimple.all, h.pools, h.itemNumPerPool, List.flatMap_append, List.flatMap_singleton]
  rfl

theorem Grown.length_all (h : Grown p p') :
    p'.all.length = p.all.length + p.itemNumPerPool.toNatClampNeg := by
  rw [h.all, List.length_append, itemsOf, List.length_map, List.length_range]

theorem Inv.grown (h : Inv p) (hgrown : Grown p p') : Inv p' := by
  have hnew : ∀ item ∈ itemsOf p.itemNumPerPool.toNatClampNeg p.pools.length,
      item ∉ p.used ∧ item ∉ p.frees := by
    intro item hitem
    have hout : item ∉ p.all := fun hold =>
      (h.pool_lt hold).ne (mem_itemsOf.mp hitem).1
    rw [h.mem_all, not_or] at hout
    exact hout
  refine ⟨⟨?_, ?_, ?_⟩, ?_, ?_, ?_⟩
  · intro item
    rw [hgrown.all, hgrown.used, hgrown.frees, List.mem_append, List.mem_append, h.mem_all,
      or_assoc]
  · intro item hitem hfree
    rw [hgrown.used] at hitem
    rw [hgrown.frees, List.mem_append] at hfree
    rcases hfree with hfree | hfree
    · exact h.disjoint item hitem hfree
    · exact (hnew item hfree).1 hitem
  · rw [hgrown.frees, List.nodup_append]
    refine ⟨h.nodup, nodup_itemsOf _ _, ?_⟩
    rintro item hitem item' hitem' rfl
    exact (hnew item hitem').2 hitem
  · rw [hgrown.pools, List.length_append, List.length_singleton, List.range_succ, ← h.pools]
  · rw [hgrown.itemNumPerPool]
    exact h.positive
  · rw [hgrown.size, h.size, hgrown.length_all, ofNat_add_of_positive h.positive]

structure Taken (p p' : MemPoolSimple T) (buffer : Item) : Prop where
  frees : p.frees = buffer :: p'.frees
  used : p'.used = insert buffer p.used
  pools : p'.pools = p.pools
  itemNumPerPool : p'.itemNumPerPool = p.itemNumPerPool
  size : p'.size = p.size

theorem taken_take (hfrees : p.frees ≠ []) :
    ∃ buffer, (p.take c).1 = some buffer ∧ Taken p (p.take c).2 buffer := by
  obtain ⟨buffer, frees, heq⟩ := List.exists_cons_of_ne_nil hfrees
  rw [MemPoolSimple.take, heq]
  exact ⟨buffer, rfl, heq, rfl, rfl, rfl, rfl⟩

theorem Taken.all {buffer : Item} (h : Taken p p' buffer) : p'.all = p.all := by
  rw [MemPoolSimple.all, h.pools, h.itemNumPerPool]
  rfl

theorem Inv.taken (h : Inv p) {buffer : Item} (htaken : Taken p p' buffer) :
    Inv p' ∧ buffer ∉ p.used ∧ buffer ∈ p.all := by
  have hfree : buffer ∈ p.frees := by
    rw [htaken.frees]
    exact List.mem_cons_self
  have hnodup := h.nodup
  rw [htaken.frees, List.nodup_cons] at hnodup
  have hunused : buffer ∉ p.used := fun hused => h.disjoint buffer hused hfree
  refine ⟨⟨⟨?_, ?_, hnodup.2⟩, ?_, ?_, ?_⟩, hunused, (h.mem_all buffer).mpr (.inr hfree)⟩
  · intro item
    rw [htaken.all, h.mem_all, htaken.frees, htaken.used, Finset.mem_insert, List.mem_cons,
      or_assoc, or_left_comm]
  · intro item hitem hin
    rw [htaken.used, Finset.mem_insert] at hitem
    rcases hitem with rfl | hitem
    · exact hnodup.1 hin
    · exact h.disjoint item hitem (htaken.frees ▸ List.mem_cons_of_mem buffer hin)
  · rw [htaken.pools]
    exact h.pools
  · rw [htaken.itemNumPerPool]
    exact h.positive
  · rw [htaken.size, htaken.all]
    exact h.size

/-- `alloc` on a pool that keeps the invariant: nothing, or an item that was not in use, after an
extension where no item was free. -/
theorem Inv.alloc (h : Inv p) :
    (p.frees = [] ∧ p.dynamic = false ∧ p.alloc c = (none, p)) ∨
      ∃ q buffer, (q = p ∧ p.frees ≠ [] ∨ Grown p q ∧ p.frees = [] ∧ p.dynamic = true) ∧
        (p.alloc c).1 = some buffer ∧ Taken q (p.alloc c).2 buffer := by
  by_cases hfrees : p.frees = []
  · by_cases hdynamic : p.dynamic = false
    · exact .inl ⟨hfrees, hdynamic, by rw [MemPoolSimple.alloc, if_pos hfrees, if_pos hdynamic]⟩
    · have hdynamic' : p.dynamic = true := by simpa using hdynamic
      obtain ⟨hret, hgrown⟩ := grown_extend (c := c) hdynamic'
      have halloc : p.alloc c = (p.extend c).2.take c := by
        rw [MemPoolSimple.alloc, if_pos hfrees, if_neg hdynamic]
        exact if_neg (show ¬ (p.extend c).1 < 0 by rw [hret]; decide)
      have hmore : (p.extend c).2.frees ≠ [] := by
        rw [hgrown.frees, hfrees, List.nil_append]
        exact List.ne_nil_of_length_pos (by rw [itemsOf]; simpa using h.positive)
      obtain ⟨buffer, hsome, htaken⟩ := taken_take (c := c) hmore
      rw [halloc]
      exact .inr ⟨_, buffer, .inr ⟨hgrown, hfrees, hdynamic'⟩, hsome, htaken⟩
  · have halloc : p.alloc c = p.take c := by
      rw [MemPoolSimple.alloc, if_neg hfrees]
    obtain ⟨buffer, hsome, htaken⟩ := taken_take (c := c) hfrees
    rw [halloc]
    exact .inr ⟨p, buffer, .inl ⟨rfl, hfrees⟩, hsome, htaken⟩

theorem Inv.free (h : Inv p) (buf : Item) :
    Inv (p.free c buf) ∧ (p.free c buf).used = p.used.erase buf ∧
      (p.free c buf).all = p.all := by
  rw [MemPoolSimple.free]
  by_cases hused : buf ∈ p.used
  · rw [if_neg (not_not.mpr hused)]
    refine ⟨⟨⟨?_, ?_, ?_⟩, h.pools, h.positive, h.size⟩, rfl, rfl⟩
    · intro item
      show item ∈ p.all ↔ item ∈ p.used.erase buf ∨ item ∈ p.frees ++ [buf]
      rw [h.mem_all, Finset.mem_erase, List.mem_append, List.mem_singleton]
      by_cases hitem : item = buf
      · simp [hitem, hused]
      · simp [hitem]
    · intro item hitem hfree
      rw [Finset.mem_erase] at hitem
      rcases List.mem_append.mp hfree with hfree | hfree
      · exact h.disjoint item hitem.2 hfree
      · exact hitem.1 (List.mem_singleton.mp hfree)
    · show (p.frees ++ [buf]).Nodup
      rw [List.nodup_append]
      refine ⟨h.nodup, List.nodup_singleton _, ?_⟩
      rintro item hitem item' hitem' rfl
      rw [List.mem_singleton] at hitem'
      exact h.disjoint buf hused (hitem' ▸ hitem)
  · rw [if_pos hused]
    exact ⟨⟨⟨h.mem_all, h.disjoint, h.nodup⟩, h.pools, h.positive, h.size⟩,
      (Finset.erase_eq_of_notMem hused).symm, rfl⟩

end Partition

section Init

variable {c : ItemClass T}

theorem extendTimes_spec (n : ℕ) {p : MemPoolSimple T} (h : Inv p) (hdynamic : p.dynamic = true) :
    (extendTimes c n p).1 = 0 ∧ Inv (extendTimes c n p).2 ∧
      (extendTimes c n p).2.used = p.used ∧
      (extendTimes c n p).2.all.length = p.all.length + n * p.itemNumPerPool.toNatClampNeg := by
  induction n generalizing p with
  | zero => exact ⟨rfl, h, rfl, by rw [Nat.zero_mul]; rfl⟩
  | succ n ih =>
    obtain ⟨hret, hgrown⟩ := grown_extend (c := c) hdynamic
    have hloop : extendTimes c (n + 1) p = extendTimes c n (p.extend c).2 := by
      rw [extendTimes]
      exact if_neg (show ¬ (p.extend c).1 < 0 by rw [hret]; decide)
    obtain ⟨hzero, hinv, hused, hlen⟩ := ih (h.grown hgrown) (hgrown.dynamic.trans hdynamic)
    rw [hloop]
    refine ⟨hzero, hinv, hused.trans hgrown.used, ?_⟩
    rw [hlen, hgrown.length_all, hgrown.itemNumPerPool, Nat.succ_mul]
    omega

def fresh (items : Item → T) : MemPoolSimple T := { items }

theorem init_spec {items : Item → T} {dynamic : Bool} {poolNum itemNumPerPool : Int32}
    (haccept : ((fresh items).init c dynamic poolNum itemNumPerPool).1 = 0) :
    Inv ((fresh items).init c dynamic poolNum itemNumPerPool).2 ∧
      ((fresh items).init c dynamic poolNum itemNumPerPool).2.used = ∅ ∧
      ((fresh items).init c dynamic poolNum itemNumPerPool).2.all.length =
        poolNum.toNatClampNeg * itemNumPerPool.toNatClampNeg := by
  rw [MemPoolSimple.init, if_neg (by simp [fresh])] at haccept ⊢
  by_cases hargs : poolNum ≤ 0 ∨ itemNumPerPool ≤ 0
  · rw [if_pos hargs] at haccept
    cases haccept
  rw [if_neg hargs]
  have hpositive : 0 < itemNumPerPool.toNatClampNeg := by
    rw [← toNat_toInt]
    have hnot := (not_or.mp hargs).2
    rw [le_iff_toInt_le] at hnot
    have hzero : toInt 0 = 0 := rfl
    omega
  have hstart : Inv ({ fresh items with itemNumPerPool, dynamic := true } : MemPoolSimple T) :=
    ⟨⟨fun item => by simp [fresh, MemPoolSimple.all], fun item hitem => by simp [fresh] at hitem,
      List.nodup_nil⟩, rfl, hpositive, rfl⟩
  obtain ⟨hzero, hinv, hused, hlen⟩ :=
    extendTimes_spec (c := c) poolNum.toNatClampNeg hstart rfl
  dsimp only
  rw [if_neg (by rw [hzero]; decide)]
  refine ⟨⟨⟨hinv.mem_all, hinv.disjoint, hinv.nodup⟩, hinv.pools, hinv.positive, hinv.size⟩,
    hused, hlen.trans ?_⟩
  exact Nat.zero_add _

end Init

section History

variable (c : ItemClass T)

inductive Call where
  | alloc
  | free (item : Item)

structure State (T : Type*) where
  pool : MemPoolSimple T
  held : Finset Item := ∅
  handed : Finset Item := ∅

def step (s : State T) : Call → State T
  | .alloc =>
    match s.pool.alloc c with
    | (none, pool) => { s with pool }
    | (some buffer, pool) =>
      { pool, held := insert buffer s.held, handed := insert buffer s.handed }
  | .free item => { s with pool := s.pool.free c item, held := s.held.erase item }

def Admissible (s : State T) : Call → Prop
  | .alloc => True
  | .free item => item ∈ s.handed

instance (s : State T) : DecidablePred (Admissible s)
  | .alloc => inferInstanceAs (Decidable True)
  | .free item => inferInstanceAs (Decidable (item ∈ s.handed))

def Right (s : State T) : Call → Prop
  | .alloc => ∀ buffer, (s.pool.alloc c).1 = some buffer → buffer ∉ s.held
  | .free item => item ∉ s.held → s.pool.free c item = s.pool

structure Sound (s : State T) : Prop extends Partition s.pool where
  size : s.pool.size.toInt = s.pool.all.length

/-- The pool does not grow beyond what an `int` counts, and an item that is not in use is as a reset
leaves it. -/
def Ok (s : State T) : Call → Prop
  | .alloc => s.pool.frees = [] → s.pool.dynamic = true →
      s.pool.all.length + s.pool.itemNumPerPool.toNatClampNeg < 2 ^ 31
  | .free item => item ∈ s.pool.used ∨ c.reset (s.pool.items item) = s.pool.items item

instance [DecidableEq T] (s : State T) : DecidablePred (Ok c s)
  | .alloc => inferInstanceAs (Decidable (_ → _ → _))
  | .free _ => inferInstanceAs (Decidable (_ ∨ _))

structure Tracks (s : State T) : Prop where
  inv : Inv s.pool
  held : s.held = s.pool.used

variable {c} {s : State T}

theorem Inv.size_iff {p : MemPoolSimple T} (h : Inv p) :
    p.size.toInt = p.all.length ↔ p.all.length < 2 ^ 31 := by
  rw [h.size]
  constructor
  · intro heq
    have hlt := (ofNat p.all.length).toInt_lt
    omega
  · exact fun hlt => counts_ofNat hlt

theorem Tracks.sound_iff (h : Tracks s) : Sound s ↔ s.pool.all.length < 2 ^ 31 := by
  rw [← h.inv.size_iff]
  exact ⟨fun hsound => hsound.size, fun hsize => ⟨h.inv.toPartition, hsize⟩⟩

theorem Tracks.alloc_step (h : Tracks s) :
    Tracks (step c s .alloc) ∧ Right c s .alloc ∧
      (Sound s → (Sound (step c s .alloc) ↔ Ok c s .alloc)) := by
  rcases h.inv.alloc (c := c) with ⟨hfrees, hfixed, halloc⟩ | ⟨q, buffer, hq, hsome, htaken⟩
  · rw [step, Right, halloc]
    refine ⟨⟨h.inv, h.held⟩, fun _ hnone => (by cases hnone), fun hsound => ?_⟩
    refine ⟨fun _ _ hdynamic => ?_, fun _ => ⟨hsound.toPartition, hsound.size⟩⟩
    rw [hfixed] at hdynamic
    cases hdynamic
  · have halloc : s.pool.alloc c = (some buffer, (s.pool.alloc c).2) := Prod.ext hsome rfl
    have hqinv : Inv q ∧ q.used = s.pool.used := by
      rcases hq with ⟨rfl, -⟩ | ⟨hgrown, -⟩
      · exact ⟨h.inv, rfl⟩
      · exact ⟨h.inv.grown hgrown, hgrown.used⟩
    obtain ⟨hinv, hunused, -⟩ := hqinv.1.taken htaken
    have htracks : Tracks (step c s .alloc) := by
      rw [step, halloc]
      exact ⟨hinv, by rw [htaken.used, hqinv.2, h.held]⟩
    refine ⟨htracks, ?_, fun hsound => ?_⟩
    · intro b hb
      rw [hsome] at hb
      rw [← Option.some.inj hb, h.held, ← hqinv.2]
      exact hunused
    · have hall : (step c s .alloc).pool.all = q.all := by
        rw [step, halloc]
        exact htaken.all
      have hlt := h.sound_iff.mp hsound
      rw [htracks.sound_iff, hall, Ok]
      rcases hq with ⟨rfl, hmore⟩ | ⟨hgrown, hfrees, hdynamic⟩
      · exact ⟨fun _ hnone => absurd hnone hmore, fun _ => hlt⟩
      · rw [hgrown.length_all]
        exact ⟨fun hle _ _ => hle, fun hok => hok hfrees hdynamic⟩

theorem Tracks.free_step (h : Tracks s) (item : Item) :
    Tracks (step c s (.free item)) ∧ (Right c s (.free item) ↔ Ok c s (.free item)) ∧
      (Sound s → Sound (step c s (.free item))) := by
  obtain ⟨hinv, hused, hall⟩ := h.inv.free (c := c) item
  have htracks : Tracks (step c s (.free item)) := ⟨hinv, by rw [step, hused, h.held]⟩
  refine ⟨htracks, ?_, fun hsound => ?_⟩
  · rw [Right, Ok, h.held]
    by_cases hitem : item ∈ s.pool.used
    · exact ⟨fun _ => .inl hitem, fun _ hnot => absurd hitem hnot⟩
    · have hfree : s.pool.free c item = { s.pool with
          items := fun i => if i = item then c.reset (s.pool.items i) else s.pool.items i } := by
        rw [MemPoolSimple.free]
        exact if_pos hitem
      rw [hfree]
      constructor
      · intro hright
        have hitems := congrFun (congrArg items (hright hitem)) item
        dsimp only at hitems
        rw [if_pos rfl] at hitems
        exact .inr hitems
      · rintro (hin | hreset) -
        · exact absurd hin hitem
        · have hitems : (fun i => if i = item then c.reset (s.pool.items i) else s.pool.items i) =
              s.pool.items := by
            funext i
            split
            · next heq => rw [heq, hreset]
            · rfl
          rw [hitems]
  · rw [htracks.sound_iff]
    exact (congrArg List.length hall).trans_lt (h.sound_iff.mp hsound)

theorem Tracks.step (h : Tracks s) (call : Call) : Tracks (step c s call) := by
  cases call with
  | alloc => exact h.alloc_step.1
  | free item => exact (h.free_step item).1

def start (c : ItemClass T) (items : Item → T) (dynamic : Bool) (poolNum itemNumPerPool : Int32) :
    State T :=
  { pool := ((fresh items).init c dynamic poolNum itemNumPerPool).2 }

/-- The partition, the size and the exclusive use hold throughout, and a free of an item that is not
in use changes nothing, exactly where the items can be counted and every such item is as a reset
leaves it. -/
theorem pool_partition_iff (c : ItemClass T) (items : Item → T) (dynamic : Bool)
    (poolNum itemNumPerPool : Int32)
    (haccept : ((fresh items).init c dynamic poolNum itemNumPerPool).1 = 0) (calls : List Call)
    (hcalls : Each (step c) Admissible (start c items dynamic poolNum itemNumPerPool) calls) :
    (Each (step c) (Right c) (start c items dynamic poolNum itemNumPerPool) calls ∧
        Always (step c) Sound (start c items dynamic poolNum itemNumPerPool) calls) ↔
      poolNum.toNatClampNeg * itemNumPerPool.toNatClampNeg < 2 ^ 31 ∧
        Each (step c) (Ok c) (start c items dynamic poolNum itemNumPerPool) calls := by
  obtain ⟨hinv, hused, hlen⟩ := init_spec haccept
  have htracks : Tracks (start c items dynamic poolNum itemNumPerPool) := ⟨hinv, hused.symm⟩
  have hstart : Sound (start c items dynamic poolNum itemNumPerPool) ↔
      poolNum.toNatClampNeg * itemNumPerPool.toNatClampNeg < 2 ^ 31 := by
    rw [htracks.sound_iff, ← hlen]
    rfl
  have halways : Always (step c) Tracks (start c items dynamic poolNum itemNumPerPool) calls :=
    always_of_step htracks fun _ call h => h.step (c := c) call
  by_cases hsmall : poolNum.toNatClampNeg * itemNumPerPool.toNatClampNeg < 2 ^ 31
  · rw [and_iff_right hsmall]
    refine each_and_always_iff halways hcalls (hstart.mpr hsmall) fun s call h _ hsound => ?_
    cases call with
    | alloc =>
      obtain ⟨-, hright, hiff⟩ := h.alloc_step (c := c)
      rw [and_iff_right hright]
      exact hiff hsound
    | free item =>
      obtain ⟨-, hiff, hkeep⟩ := h.free_step (c := c) item
      rw [and_iff_left (hkeep hsound)]
      exact hiff
  · refine ⟨fun h => absurd (hstart.mp (h.2 [] List.nil_prefix)) hsmall, fun h => absurd h.1 hsmall⟩

/-- Items that a reset leaves as they are. -/
theorem pool_partition_plain :
    let calls : List Call := [.alloc, .free (0, 0), .free (0, 0), .alloc, .alloc]
    let s := start (T := ℕ) ⟨0, id, id⟩ (fun _ => 0) true 1 1
    Each (step ⟨0, id, id⟩) (Right ⟨0, id, id⟩) s calls ∧ Always (step ⟨0, id, id⟩) Sound s calls :=
  (pool_partition_iff ⟨0, id, id⟩ (fun _ => 0) true 1 1 (by decide)
    [.alloc, .free (0, 0), .free (0, 0), .alloc, .alloc] (by decide)).mpr ⟨by decide, by decide⟩

/-- Items that count their resets. The second free finds the item not in use and resets it all the
same. -/
theorem free_resets_unused :
    ((fresh fun _ => 0).init ⟨0, id, Nat.succ⟩ true 1 1).1 = 0 ∧
      Each (step ⟨0, id, Nat.succ⟩) Admissible (start ⟨0, id, Nat.succ⟩ (fun _ => 0) true 1 1)
        [.alloc, .free (0, 0), .free (0, 0)] ∧
      ¬ (Each (step ⟨0, id, Nat.succ⟩) (Right ⟨0, id, Nat.succ⟩)
          (start ⟨0, id, Nat.succ⟩ (fun _ => 0) true 1 1) [.alloc, .free (0, 0), .free (0, 0)] ∧
        Always (step ⟨0, id, Nat.succ⟩) Sound (start ⟨0, id, Nat.succ⟩ (fun _ => 0) true 1 1)
          [.alloc, .free (0, 0), .free (0, 0)]) := by
  refine ⟨by decide, by decide, fun h => ?_⟩
  have hright := h.1 [.alloc, .free (0, 0)] (.free (0, 0)) List.prefix_rfl
  have hitems := congrFun (congrArg items (hright (by decide))) (0, 0)
  revert hitems
  decide

end History

end MemPool
