import LsmStorage.BoundedLoop
import LsmStorage.Int32Range
import LsmStorage.RingBuffer
import LsmStorage.RunInvariant

/-! # RingBuffer with its `int32_t` counters

The class as it is compiled: all counters are `Int32` and the loops run on a budget. With a
capacity of at most `2 ^ 30` each call does what `Net.RingBuffer` does, and a history of calls is
that of a bounded queue of bytes. -/
namespace RingBufferFifo

open BoundedLoop ByteCodec Int32Range ResultCode RunInvariant Net.RingBuffer

def memory (data : ℕ → UInt8) (start len : ℕ) : Bytes :=
  (List.range len).map fun i => data (start + i)

structure RingBuffer where
  buffer : Bytes
  dataSize : Int32 := 0
  writePos : Int32 := 0

namespace RingBuffer

def new (size : ℕ) : RingBuffer := { buffer := List.replicate size 0 }

def capacity (r : RingBuffer) : Int32 := Int32.ofNat r.buffer.length

def size (r : RingBuffer) : Int32 := r.dataSize

def remain (r : RingBuffer) : Int32 := r.capacity - r.size

def readPos (r : RingBuffer) : Int32 := (r.writePos - r.size + r.capacity) % r.capacity

def bufferRange (r : RingBuffer) : Int32 × Int32 :=
  if r.size = 0 then (0, 0)
  else if r.readPos < r.writePos then (r.readPos, r.writePos - r.readPos)
  else (r.readPos, r.capacity - r.readPos)

def view (r : RingBuffer) : Bytes :=
  slice r.buffer r.bufferRange.1.toNatClampNeg r.bufferRange.2.toNatClampNeg

def forward (size : Int32) (r : RingBuffer) : RC × RingBuffer :=
  if size ≤ 0 then (.invalidArgument, r)
  else if size > r.size then (.invalidArgument, r)
  else (.success, { r with dataSize := r.dataSize - size })

def readTurn (size : Int32) (s : Int32 × Bytes × RingBuffer) :
    Turn (Int32 × Bytes × RingBuffer) (RC × Bytes × RingBuffer) :=
  let (readSize, out, r) := s
  if readSize < size ∧ r.size > 0 then
    let copySize := min (size - readSize) r.bufferRange.2
    let out := out ++ slice r.buffer r.bufferRange.1.toNatClampNeg copySize.toNatClampNeg
    let (rc, r) := r.forward copySize
    if rc = .success then .again (readSize + copySize, out, r) else .stop (rc, out, r)
  else .stop (.success, out, r)

/-- The result is `none` where the budget of `size + 1` turns runs out. -/
def read (size : Int32) (r : RingBuffer) : Option (RC × Bytes × RingBuffer) :=
  if size < 0 then some (.invalidArgument, [], r)
  else run (readTurn size) (size.toNatClampNeg + 1) (0, [], r)

/-- One turn of `write`, with `write_size`. The source is memory behind a pointer. -/
def writeTurn (data : ℕ → UInt8) (size : Int32) (s : Int32 × RingBuffer) :
    Turn (Int32 × RingBuffer) (Int32 × RingBuffer) :=
  let (writeSize, r) := s
  if writeSize < size ∧ r.remain > 0 then
    let tmpBufSize :=
      if r.readPos ≤ r.writePos then r.capacity - r.writePos else r.readPos - r.writePos
    let copySize := min (size - writeSize) tmpBufSize
    let src := memory data writeSize.toNatClampNeg copySize.toNatClampNeg
    .again (writeSize + copySize,
      { buffer := overwrite r.buffer r.writePos.toNatClampNeg src
        dataSize := r.dataSize + copySize
        writePos := (r.writePos + copySize) % r.capacity })
  else .stop (writeSize, r)

/-- The code, `write_size` where it is set, and the buffer. -/
def write (data : ℕ → UInt8) (size : Int32) (r : RingBuffer) :
    Option (RC × Option Int32 × RingBuffer) :=
  if size < 0 then some (.invalidArgument, none, r)
  else (run (writeTurn data size) (size.toNatClampNeg + 1) (0, r)).map fun (writeSize, r) =>
    (.success, some writeSize, r)

def contents (r : RingBuffer) : Bytes :=
  (List.range r.size.toNatClampNeg).map fun i =>
    r.buffer.getD ((r.readPos.toNatClampNeg + i) % r.buffer.length) 0

end RingBuffer

section Refinement

structure Represents (r : RingBuffer) (s : Net.RingBuffer) : Prop where
  buffer : r.buffer = s.buffer
  dataSize : Counts r.dataSize s.dataSize
  writePos : Counts r.writePos s.writePos
  capacity_le : s.capacity ≤ 2 ^ 30

variable {r : RingBuffer} {s : Net.RingBuffer}

theorem Represents.capacity (h : Represents r s) : Counts r.capacity s.capacity := by
  have hle := h.capacity_le
  rw [RingBuffer.capacity, h.buffer]
  exact counts_ofNat (show s.capacity < 2 ^ 31 by omega)

theorem Represents.size (h : Represents r s) : Counts r.size s.size := h.dataSize

theorem Represents.remain (h : Represents r s) : Counts r.remain s.remain :=
  h.capacity.sub h.size s.size_le

theorem Represents.readPos (h : Represents r s) : Counts r.readPos s.readPos := by
  have hpos : s.writePos < s.capacity := s.pos_lt
  have hsize : s.size ≤ s.capacity := s.size_le
  have hle := h.capacity_le
  exact (h.writePos.sub_add h.size h.capacity (by omega) (by omega)).mod h.capacity

theorem Represents.bufferRange (h : Represents r s) :
    Counts r.bufferRange.1 s.bufferRange.1 ∧ Counts r.bufferRange.2 s.bufferRange.2 := by
  have hread := h.readPos
  have hpos := h.writePos
  rw [RingBuffer.bufferRange, Net.RingBuffer.bufferRange]
  simp only [h.size.eq_iff counts_zero, hread.lt_iff hpos]
  split
  · exact ⟨counts_zero, counts_zero⟩
  · split
    · next hlt => exact ⟨hread, hpos.sub hread (le_of_lt hlt)⟩
    · exact ⟨hread, h.capacity.sub hread (le_of_lt s.readPos_lt)⟩

theorem Represents.view (h : Represents r s) : r.view = s.view := by
  rw [RingBuffer.view, Net.RingBuffer.view, h.bufferRange.1.toNat, h.bufferRange.2.toNat, h.buffer]

theorem Represents.contents (h : Represents r s) : r.contents = s.contents := by
  rw [RingBuffer.contents, Net.RingBuffer.contents, h.size.toNat, h.readPos.toNat, h.buffer]
  rfl

theorem Represents.forward (h : Represents r s) {size : Int32} {n : ℕ} (hsize : Counts size n) :
    (r.forward size).1 = (s.forward n).1 ∧ Represents (r.forward size).2 (s.forward n).2 := by
  rw [RingBuffer.forward, Net.RingBuffer.forward]
  simp only [hsize.le_iff counts_zero, Nat.le_zero, gt_iff_lt, h.size.lt_iff hsize]
  split
  · exact ⟨rfl, h⟩
  · split
    · exact ⟨rfl, h⟩
    · next hle =>
      exact ⟨rfl, h.buffer, h.dataSize.sub hsize (Nat.le_of_not_lt hle), h.writePos, h.capacity_le⟩

theorem Represents.chunkSize (h : Represents r s) :
    Counts (if r.readPos ≤ r.writePos then r.capacity - r.writePos else r.readPos - r.writePos)
      s.chunkSize := by
  rw [Net.RingBuffer.chunkSize]
  simp only [h.readPos.le_iff h.writePos]
  split
  · exact h.capacity.sub h.writePos (le_of_lt s.pos_lt)
  · next hlt => exact h.readPos.sub h.writePos (le_of_lt (Nat.lt_of_not_le hlt))

section Memory

variable (data : ℕ → UInt8) (start len k : ℕ)

@[simp] theorem length_memory : (memory data start len).length = len := by simp [memory]

theorem memory_append :
    memory data start k ++ memory data (start + k) len = memory data start (k + len) := by
  rw [memory, memory, memory, List.range_add, List.map_append, List.map_map]
  simp only [Function.comp_def, Nat.add_assoc]

end Memory

variable {data : ℕ → UInt8} {size : Int32} {n : ℕ}

theorem Represents.writeTurn_again (h : Represents r s) (data : ℕ → UInt8)
    (hsize : Counts size n) {w : ℕ} {writeSize : Int32} (hw : Counts writeSize w) (hlt : w < n)
    (hremain : 0 < s.remain) :
    ∃ k writeSize' r' s', 0 < k ∧ k ≤ n - w ∧ k ≤ s.remain ∧
      RingBuffer.writeTurn data size (writeSize, r) = .again (writeSize', r') ∧
      Counts writeSize' (w + k) ∧ Represents r' s' ∧ s'.capacity = s.capacity ∧
      s'.contents = s.contents ++ memory data w k := by
  have hfree := chunkSize_le_remain hremain
  have hchunk := s.chunkSize_pos
  have hle := h.capacity_le
  have hfits : s.size ≤ s.capacity := s.size_le
  have hn := hsize.lt_max
  have hturn : writeSize < size ∧ r.remain > 0 :=
    ⟨(hw.lt_iff hsize).mpr hlt, (counts_zero.lt_iff h.remain).mpr hremain⟩
  have hcopy := (hsize.sub hw (le_of_lt hlt)).min h.chunkSize
  rw [RingBuffer.writeTurn, if_pos hturn]
  dsimp only
  generalize hk : min (n - w) s.chunkSize = k at hcopy
  rw [hw.toNat, hcopy.toNat, h.writePos.toNat]
  have hsrc : (memory data w k).length ≤ s.chunkSize := by
    rw [length_memory]
    omega
  have hroom := copyIn_room hsrc
  rw [length_memory] at hroom
  refine ⟨k, _, _, s.copyIn (memory data w k) hremain hsrc, by omega, by omega, by omega, rfl,
    hw.add hcopy (by omega), ⟨?_, ?_, ?_, ?_⟩, capacity_copyIn _ _,
    contents_copyIn _ _⟩
  · rw [h.buffer]
    rfl
  · have hroom := hfree
    unfold Net.RingBuffer.remain Net.RingBuffer.size at hroom hfits
    have hsum := h.dataSize.add hcopy (by omega)
    rw [← length_memory data w k] at hsum
    exact hsum
  · have hsum := (h.writePos.add hcopy (by omega)).mod h.capacity
    rw [← length_memory data w k] at hsum
    exact hsum
  · rw [capacity_copyIn]
    exact hle

theorem Represents.write_loop (h : Represents r s) (data : ℕ → UInt8) (hsize : Counts size n)
    {w : ℕ} {writeSize : Int32} (hw : Counts writeSize w) (hle : w ≤ n) :
    ∃ writeSize' r' s',
      run (RingBuffer.writeTurn data size) (n - w + 1) (writeSize, r) = some (writeSize', r') ∧
      Counts writeSize' (w + min (n - w) s.remain) ∧ Represents r' s' ∧
      s'.capacity = s.capacity ∧
      s'.contents = s.contents ++ memory data w (min (n - w) s.remain) := by
  -- by induction on the bytes that are left, as every turn copies at least one of them
  induction hleft : n - w using Nat.strong_induction_on generalizing w writeSize r s with
  | _ left ih =>
    by_cases hmore : w < n ∧ 0 < s.remain
    · obtain ⟨k, writeSize₁, r₁, s₁, hpos, hk, hfree, hturn, hw₁, hrep₁, hcap₁, hcontents₁⟩ :=
        h.writeTurn_again data hsize hw hmore.1 hmore.2
      obtain ⟨writeSize₂, r₂, s₂, hrun, hw₂, hrep₂, hcap₂, hcontents₂⟩ :=
        ih (n - (w + k)) (by omega) hrep₁ hw₁ (by omega) rfl
      have hsize₁ : s₁.size = s.size + k := by
        rw [← length_contents, hcontents₁, List.length_append, length_memory,
          length_contents]
      have hremain₁ : s₁.remain = s.remain - k := by
        rw [Net.RingBuffer.remain, hcap₁, hsize₁, Net.RingBuffer.remain, Nat.sub_sub]
      have hmin : k + min (n - (w + k)) (s.remain - k) = min left s.remain := by omega
      rw [hremain₁] at hw₂ hcontents₂
      refine ⟨writeSize₂, r₂, s₂, ?_, ?_, hrep₂, hcap₂.trans hcap₁, ?_⟩
      · rw [run, hturn]
        exact run_mono hrun (by omega)
      · rw [← hmin, ← Nat.add_assoc]
        exact hw₂
      · rw [hcontents₂, hcontents₁, List.append_assoc, memory_append, hmin]
    · have hturn : ¬ (writeSize < size ∧ r.remain > 0) := by
        rw [hw.lt_iff hsize, gt_iff_lt, counts_zero.lt_iff h.remain]
        exact hmore
      have hnone : min left s.remain = 0 := by omega
      refine ⟨writeSize, r, s, ?_, ?_, h, rfl, ?_⟩
      · rw [run, RingBuffer.writeTurn, if_neg hturn]
      · rw [hnone]
        exact hw
      · rw [hnone]
        exact (List.append_nil _).symm

theorem Represents.readTurn_again (h : Represents r s) (hsize : Counts size n) {w : ℕ}
    {readSize : Int32} (hw : Counts readSize w) (hlt : w < n) (hstored : 0 < s.size) (out : Bytes) :
    ∃ k readSize' r' s', 0 < k ∧ k ≤ n - w ∧ k ≤ s.size ∧
      RingBuffer.readTurn size (readSize, out, r) =
        .again (readSize', out ++ s.contents.take k, r') ∧
      Counts readSize' (w + k) ∧ Represents r' s' ∧ s'.capacity = s.capacity ∧
      s'.contents = s.contents.drop k := by
  obtain ⟨-, hpos, hle, -⟩ := bufferRange_spec hstored
  have hn := hsize.lt_max
  have hturn : readSize < size ∧ r.size > 0 :=
    ⟨(hw.lt_iff hsize).mpr hlt, (counts_zero.lt_iff h.size).mpr hstored⟩
  have hcopy := (hsize.sub hw (le_of_lt hlt)).min h.bufferRange.2
  generalize hk : min (n - w) s.bufferRange.2 = k at hcopy
  obtain ⟨hrc, hrep⟩ := h.forward hcopy
  obtain ⟨hcontents, hcap, -⟩ :=
    forward_spec (r := s) (n := k) (by omega) (by omega)
  have hsuccess : (s.forward k).1 = .success := by
    rw [Net.RingBuffer.forward, if_neg (by omega), if_neg (by omega)]
  have hpiece : slice r.buffer r.bufferRange.1.toNatClampNeg k = s.contents.take k := by
    have hview := congrArg (List.take k) (view_eq_take hstored)
    rw [Net.RingBuffer.view, slice, List.take_take, List.take_take, Nat.min_eq_left (by omega)]
      at hview
    rw [h.bufferRange.1.toNat, h.buffer, slice, hview]
  rw [RingBuffer.readTurn, if_pos hturn]
  dsimp only
  rw [hcopy.toNat, hpiece, if_pos (hrc.trans hsuccess)]
  exact ⟨k, _, _, _, by omega, by omega, by omega, rfl, hw.add hcopy (by omega), hrep, hcap,
    hcontents⟩

theorem Represents.read_loop (h : Represents r s) (hsize : Counts size n) {w : ℕ}
    {readSize : Int32} (hw : Counts readSize w) (hle : w ≤ n) (out : Bytes) :
    ∃ r' s', run (RingBuffer.readTurn size) (n - w + 1) (readSize, out, r) =
        some (.success, out ++ s.contents.take (n - w), r') ∧
      Represents r' s' ∧ s'.capacity = s.capacity ∧ s'.contents = s.contents.drop (n - w) := by
  induction hleft : n - w using Nat.strong_induction_on generalizing w readSize r s out with
  | _ left ih =>
    by_cases hmore : w < n ∧ 0 < s.size
    · obtain ⟨k, readSize₁, r₁, s₁, hpos, hk, hstored, hturn, hw₁, hrep₁, hcap₁, hcontents₁⟩ :=
        h.readTurn_again hsize hw hmore.1 hmore.2 out
      obtain ⟨r₂, s₂, hrun, hrep₂, hcap₂, hcontents₂⟩ :=
        ih (n - (w + k)) (by omega) hrep₁ hw₁ (by omega) (out ++ s.contents.take k) rfl
      have hleft' : k + (n - (w + k)) = left := by omega
      refine ⟨r₂, s₂, ?_, hrep₂, hcap₂.trans hcap₁, ?_⟩
      · rw [hcontents₁, List.append_assoc, ← List.take_add, hleft'] at hrun
        rw [run, hturn]
        exact run_mono hrun (by omega)
      · rw [hcontents₂, hcontents₁, List.drop_drop, hleft']
    · have hturn : ¬ (readSize < size ∧ r.size > 0) := by
        rw [hw.lt_iff hsize, gt_iff_lt, counts_zero.lt_iff h.size]
        exact hmore
      have hnone : s.contents.take left = [] ∧ s.contents.drop left = s.contents := by
        rcases Nat.eq_zero_or_pos left with hzero | hpos
        · rw [hzero]
          exact ⟨rfl, rfl⟩
        · have hempty : s.contents = [] := by
            rw [← List.length_eq_zero_iff, length_contents]
            omega
          rw [hempty]
          exact ⟨List.take_nil, List.drop_nil⟩
      refine ⟨r, s, ?_, h, rfl, hnone.2.symm⟩
      rw [run, RingBuffer.readTurn, if_neg hturn, hnone.1, List.append_nil]

end Refinement

section History

inductive Call where
  | write (data : ℕ → UInt8) (size : Int32)
  | read (size : Int32)
  | buffer
  | forward (size : Int32)

structure State where
  ring : RingBuffer
  written : Bytes := []
  taken : Bytes := []

def start (capacity : ℕ) : State := { ring := RingBuffer.new capacity }

/-- A successful `forward` takes what stands first, which is what `buffer` points at. -/
def step (s : State) : Call → State
  | .write data size =>
    match s.ring.write data size with
    | some (_, writeSize, ring) =>
      { s with ring, written := s.written ++ memory data 0 (writeSize.getD 0).toNatClampNeg }
    | none => s
  | .read size =>
    match s.ring.read size with
    | some (_, out, ring) => { s with ring, taken := s.taken ++ out }
    | none => s
  | .buffer => s
  | .forward size =>
    match s.ring.forward size with
    | (.success, ring) =>
      { s with ring, taken := s.taken ++ s.ring.contents.take size.toNatClampNeg }
    | (_, ring) => { s with ring }

def Conforms (s : State) : Call → Prop
  | .write data size =>
    if size < 0 then s.ring.write data size = some (.invalidArgument, none, s.ring)
    else ∃ writeSize ring, s.ring.write data size = some (.success, some writeSize, ring) ∧
      writeSize.toInt = min size.toInt s.ring.remain.toInt ∧
      ring.contents = s.ring.contents ++ memory data 0 writeSize.toNatClampNeg
  | .read size =>
    if size < 0 then s.ring.read size = some (.invalidArgument, [], s.ring)
    else ∃ ring, s.ring.read size =
        some (.success, s.ring.contents.take size.toNatClampNeg, ring) ∧
      ring.contents = s.ring.contents.drop size.toNatClampNeg
  | .buffer => s.ring.view <+: s.ring.contents ∧ (s.ring.contents ≠ [] → s.ring.view ≠ [])
  | .forward size =>
    if 1 ≤ size ∧ size ≤ s.ring.size then
      (s.ring.forward size).1 = .success ∧
        (s.ring.forward size).2.contents = s.ring.contents.drop size.toNatClampNeg
    else s.ring.forward size = (.invalidArgument, s.ring)

structure Sound (capacity : ℕ) (s : State) : Prop where
  length : s.ring.buffer.length = capacity
  dataSize_nonneg : 0 ≤ s.ring.dataSize.toInt
  dataSize_le : s.ring.dataSize.toInt ≤ capacity
  writePos_nonneg : 0 ≤ s.ring.writePos.toInt
  writePos_lt : s.ring.writePos.toInt < capacity
  stored : s.ring.contents.length = s.ring.dataSize.toInt
  fifo : s.written = s.taken ++ s.ring.contents

def Queues (capacity : ℕ) (s : State) : Prop :=
  ∃ a : Net.RingBuffer, Represents s.ring a ∧ a.capacity = capacity ∧
    s.written = s.taken ++ a.contents

variable {capacity : ℕ} {s : State}

theorem queues_start (hpos : 1 ≤ capacity) (hmax : capacity ≤ 2 ^ 30) :
    Queues capacity (start capacity) := by
  have hcap : (Net.RingBuffer.new capacity hpos).capacity = capacity := List.length_replicate
  exact ⟨Net.RingBuffer.new capacity hpos, ⟨rfl, counts_zero, counts_zero, hcap.le.trans hmax⟩,
    hcap, rfl⟩

theorem Queues.sound (h : Queues capacity s) : Sound capacity s := by
  obtain ⟨a, hrep, rfl, hfifo⟩ := h
  have hsize : s.ring.dataSize.toInt = a.dataSize := hrep.dataSize
  have hpos : s.ring.writePos.toInt = a.writePos := hrep.writePos
  have hle := a.size_le
  have hlt := a.pos_lt
  unfold Net.RingBuffer.capacity at *
  refine ⟨by rw [hrep.buffer], by omega, by omega, by omega, by omega, ?_, ?_⟩
  · rw [hrep.contents, length_contents, hsize]
    rfl
  · rw [hrep.contents]
    exact hfifo

theorem Queues.write (h : Queues capacity s) (data : ℕ → UInt8) (size : Int32) :
    Conforms s (.write data size) ∧ Queues capacity (step s (.write data size)) := by
  obtain ⟨a, hrep, hcap, hfifo⟩ := h
  by_cases hneg : size < 0
  · have hwrite : s.ring.write data size = some (.invalidArgument, none, s.ring) := if_pos hneg
    rw [Conforms, if_pos hneg, step, hwrite]
    refine ⟨rfl, a, hrep, hcap, ?_⟩
    show s.written ++ [] = _
    rw [List.append_nil, hfifo]
  · have hsize := counts_of_nonneg (Int32.not_lt.mp hneg)
    obtain ⟨writeSize, r, a', hrun, hcount, hrep', hcap', hcontents⟩ :=
      hrep.write_loop data hsize counts_zero (Nat.zero_le _)
    rw [Nat.zero_add, Nat.sub_zero] at hcount
    rw [Nat.sub_zero, ← hcount.toNat] at hcontents
    have hwrite : s.ring.write data size = some (.success, some writeSize, r) := by
      rw [RingBuffer.write, if_neg hneg]
      exact congrArg (Option.map _) hrun
    rw [Conforms, if_neg hneg, step, hwrite]
    refine ⟨⟨writeSize, r, rfl, ?_, ?_⟩, a', hrep', hcap'.trans hcap, ?_⟩
    · rw [show writeSize.toInt = _ from hcount, show size.toInt = _ from hsize,
        show s.ring.remain.toInt = _ from hrep.remain]
      omega
    · rw [hrep'.contents, hrep.contents, hcontents]
    · show s.written ++ memory data 0 writeSize.toNatClampNeg = s.taken ++ a'.contents
      rw [hcontents, hfifo, List.append_assoc]

theorem Queues.read (h : Queues capacity s) (size : Int32) :
    Conforms s (.read size) ∧ Queues capacity (step s (.read size)) := by
  obtain ⟨a, hrep, hcap, hfifo⟩ := h
  by_cases hneg : size < 0
  · have hread : s.ring.read size = some (.invalidArgument, [], s.ring) := if_pos hneg
    rw [Conforms, if_pos hneg, step, hread]
    refine ⟨rfl, a, hrep, hcap, ?_⟩
    show s.written = s.taken ++ [] ++ a.contents
    rw [List.append_nil, hfifo]
  · have hsize := counts_of_nonneg (Int32.not_lt.mp hneg)
    obtain ⟨r, a', hrun, hrep', hcap', hcontents⟩ :=
      hrep.read_loop hsize counts_zero (Nat.zero_le _) []
    rw [Nat.sub_zero, List.nil_append, ← hrep.contents] at hrun
    rw [Nat.sub_zero] at hcontents
    have hread : s.ring.read size =
        some (.success, s.ring.contents.take size.toNatClampNeg, r) := by
      rw [RingBuffer.read, if_neg hneg]
      exact hrun
    rw [Conforms, if_neg hneg, step, hread]
    refine ⟨⟨r, rfl, ?_⟩, a', hrep', hcap'.trans hcap, ?_⟩
    · rw [hrep'.contents, hrep.contents, hcontents]
    · show s.written = s.taken ++ s.ring.contents.take size.toNatClampNeg ++ a'.contents
      rw [hcontents, hrep.contents, List.append_assoc, List.take_append_drop, hfifo]

theorem Queues.buffer (h : Queues capacity s) : Conforms s .buffer := by
  obtain ⟨a, hrep, -, -⟩ := h
  rw [Conforms, hrep.view, hrep.contents]
  rcases Nat.eq_zero_or_pos a.size with hzero | hpos
  · have hempty : a.contents = [] := by
      rw [← List.length_eq_zero_iff, length_contents, hzero]
    have hview : a.view = [] := by
      rw [Net.RingBuffer.view, Net.RingBuffer.bufferRange, if_pos hzero]
      exact List.take_zero
    rw [hview]
    exact ⟨List.nil_prefix, fun hne => absurd hempty hne⟩
  · rw [view_eq_take hpos]
    refine ⟨List.take_prefix _ _, fun _ htake => ?_⟩
    have hlen := congrArg List.length htake
    rw [List.length_take, length_contents, List.length_nil] at hlen
    have := bufferRange_spec hpos
    omega

theorem Queues.forward (h : Queues capacity s) (size : Int32) :
    Conforms s (.forward size) ∧ Queues capacity (step s (.forward size)) := by
  obtain ⟨a, hrep, hcap, hfifo⟩ := h
  rw [Conforms, step]
  by_cases hvalid : 1 ≤ size ∧ size ≤ s.ring.size
  · rw [if_pos hvalid]
    have hone : Counts 1 1 := rfl
    have hsize : Counts size size.toNatClampNeg :=
      counts_of_nonneg (Int32.le_trans (by decide) hvalid.1)
    have hpos := (hone.le_iff hsize).mp hvalid.1
    have hle := (hsize.le_iff hrep.size).mp hvalid.2
    obtain ⟨hrc, hrep'⟩ := hrep.forward hsize
    obtain ⟨hcontents, hcap', -⟩ := forward_spec hpos hle
    have hsuccess : (a.forward size.toNatClampNeg).1 = .success := by
      rw [Net.RingBuffer.forward, if_neg (by omega), if_neg (by omega)]
    have hforward : s.ring.forward size = (.success, (s.ring.forward size).2) :=
      Prod.ext (hrc.trans hsuccess) rfl
    rw [hforward]
    refine ⟨⟨rfl, ?_⟩, _, hrep', hcap'.trans hcap, ?_⟩
    · rw [hrep'.contents, hrep.contents, hcontents]
    · show s.written = s.taken ++ s.ring.contents.take size.toNatClampNeg ++ _
      rw [hcontents, hrep.contents, List.append_assoc, List.take_append_drop, hfifo]
  · rw [if_neg hvalid]
    have hforward : s.ring.forward size = (.invalidArgument, s.ring) := by
      rw [RingBuffer.forward]
      split
      · rfl
      · split
        · rfl
        · next hpos hle =>
          refine absurd ⟨?_, Int32.not_lt.mp hle⟩ hvalid
          rw [Int32.le_iff_toInt_le] at *
          have hone : Int32.toInt 1 = 1 := rfl
          have hzero : Int32.toInt 0 = 0 := rfl
          omega
    rw [hforward]
    exact ⟨rfl, a, hrep, hcap, hfifo⟩

theorem Queues.step (h : Queues capacity s) (call : Call) :
    Conforms s call ∧ Queues capacity (step s call) := by
  cases call with
  | write data size => exact h.write data size
  | read size => exact h.read size
  | buffer => exact ⟨h.buffer, h⟩
  | forward size => exact h.forward size

/-- A buffer of any capacity up to `2 ^ 30` is a bounded queue of bytes under every history of
calls with any sizes. -/
theorem bounded_fifo (capacity : ℕ) (hpos : 1 ≤ capacity) (hmax : capacity ≤ 2 ^ 30)
    (calls : List Call) :
    Each step Conforms (start capacity) calls ∧
      Always step (Sound capacity) (start capacity) calls := by
  have halways : Always step (Queues capacity) (start capacity) calls :=
    always_of_step (queues_start hpos hmax) fun _ call h => (h.step call).2
  constructor
  · intro front call hpre
    exact ((halways front ((List.prefix_append _ _).trans hpre)).step call).1
  · exact fun front hpre => (halways front hpre).sound

/-- Three bytes for a buffer of two, one of them skipped, and a read across the end. -/
theorem bounded_fifo_wraps :
    Each step Conforms (start 2) [.write (fun i => UInt8.ofNat i) 3, .forward 1,
        .write (fun _ => 7) 1, .buffer, .read 5] ∧
      Always step (Sound 2) (start 2) [.write (fun i => UInt8.ofNat i) 3, .forward 1,
        .write (fun _ => 7) 1, .buffer, .read 5] :=
  bounded_fifo 2 (by decide) (by decide) _

example : (([.write (fun i => UInt8.ofNat i) 3, .forward 1, .write (fun _ => 7) 1,
    .read 5] : List Call).foldl step (start 2)).taken = [0, 1, 7] := by
  decide

end History

end RingBufferFifo
