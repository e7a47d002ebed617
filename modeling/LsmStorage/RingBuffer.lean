import LsmStorage.ByteCodec
import LsmStorage.ResultCode

/-! # RingBuffer

A vector of bytes, the number of bytes in use and the place of the next write. With a
capacity of at most `2 ^ 30` no `int32_t` of the class overflows, so they are natural numbers.
The structure keeps both counters in their range. -/
namespace Net

open ByteCodec ResultCode

structure RingBuffer where
  buffer : Bytes
  dataSize : ℕ
  writePos : ℕ
  size_le : dataSize ≤ buffer.length
  pos_lt : writePos < buffer.length

namespace RingBuffer

def new (size : ℕ) (h : 0 < size) : RingBuffer where
  buffer := List.replicate size 0
  dataSize := 0
  writePos := 0
  size_le := Nat.zero_le _
  pos_lt := by simpa using h

def capacity (r : RingBuffer) : ℕ := r.buffer.length

def size (r : RingBuffer) : ℕ := r.dataSize

def remain (r : RingBuffer) : ℕ := r.capacity - r.size

def readPos (r : RingBuffer) : ℕ := (r.writePos + r.capacity - r.size) % r.capacity

def bufferRange (r : RingBuffer) : ℕ × ℕ :=
  if r.size = 0 then (0, 0)
  else if r.readPos < r.writePos then (r.readPos, r.writePos - r.readPos)
  else (r.readPos, r.capacity - r.readPos)

def forward (n : ℕ) (r : RingBuffer) : RC × RingBuffer :=
  if n = 0 then (.invalidArgument, r)
  else if n > r.size then (.invalidArgument, r)
  else (.success, { r with dataSize := r.dataSize - n, size_le := by have := r.size_le; omega })

def chunkSize (r : RingBuffer) : ℕ :=
  if r.readPos ≤ r.writePos then r.capacity - r.writePos else r.readPos - r.writePos

theorem readPos_lt (r : RingBuffer) : r.readPos < r.capacity :=
  Nat.mod_lt _ (Nat.zero_lt_of_lt r.pos_lt)

theorem readPos_cases (r : RingBuffer) :
    (r.size ≤ r.writePos ∧ r.readPos = r.writePos - r.size) ∨
      (r.writePos < r.size ∧ r.readPos = r.writePos + r.capacity - r.size) := by
  have hpos : r.writePos < r.capacity := r.pos_lt
  have hsize : r.size ≤ r.capacity := r.size_le
  rcases Nat.lt_or_ge r.writePos r.size with hlt | hge
  · exact Or.inr ⟨hlt, Nat.mod_eq_of_lt (by omega)⟩
  · refine Or.inl ⟨hge, ?_⟩
    have hsplit : r.writePos + r.capacity - r.size = r.writePos - r.size + r.capacity := by omega
    rw [readPos, hsplit, Nat.add_mod_right, Nat.mod_eq_of_lt (by omega)]

theorem chunkSize_pos (r : RingBuffer) : 0 < r.chunkSize := by
  have hpos : r.writePos < r.capacity := r.pos_lt
  unfold chunkSize
  split <;> omega

theorem chunkSize_le_remain {r : RingBuffer} (h : 0 < r.remain) : r.chunkSize ≤ r.remain := by
  have hpos : r.writePos < r.capacity := r.pos_lt
  unfold chunkSize remain at *
  rcases r.readPos_cases with ⟨hle, hread⟩ | ⟨hlt, hread⟩
  · rw [if_pos (by omega)]
    omega
  · rw [if_neg (by omega)]
    omega

theorem writePos_add_chunkSize_le (r : RingBuffer) : r.writePos + r.chunkSize ≤ r.capacity := by
  have hread := r.readPos_lt
  have hpos : r.writePos < r.capacity := r.pos_lt
  unfold chunkSize
  split <;> omega

def copyIn (src : Bytes) (r : RingBuffer) (hremain : 0 < r.remain)
    (hsrc : src.length ≤ r.chunkSize) : RingBuffer where
  buffer := overwrite r.buffer r.writePos src
  dataSize := r.dataSize + src.length
  writePos := (r.writePos + src.length) % r.capacity
  size_le := by
    have hroom := r.writePos_add_chunkSize_le
    have hfree := chunkSize_le_remain hremain
    rw [length_overwrite (le_trans (Nat.add_le_add_left hsrc _) hroom)]
    unfold remain capacity size at hfree
    have := r.size_le
    omega
  pos_lt := by
    have hroom := r.writePos_add_chunkSize_le
    rw [length_overwrite (le_trans (Nat.add_le_add_left hsrc _) hroom)]
    exact Nat.mod_lt _ (Nat.zero_lt_of_lt r.pos_lt)

def write (data : Bytes) (r : RingBuffer) : ℕ × RingBuffer :=
  if h : data ≠ [] ∧ 0 < r.remain then
    let copySize := min data.length r.chunkSize
    let r' := r.copyIn (data.take copySize) h.2 (by
      rw [List.length_take]
      exact le_trans (min_le_left _ _) (min_le_right _ _))
    let (n, r'') := write (data.drop copySize) r'
    (copySize + n, r'')
  else (0, r)
termination_by data.length
decreasing_by
  have hdata := List.length_pos_iff.mpr h.1
  have hchunk := r.chunkSize_pos
  rw [List.length_drop]
  omega

section Contents

def contents (r : RingBuffer) : Bytes :=
  (List.range r.size).map fun i => r.buffer.getD ((r.readPos + i) % r.capacity) 0

@[simp] theorem length_contents (r : RingBuffer) : r.contents.length = r.size := by
  simp [contents]

theorem getElem?_contents (r : RingBuffer) {i : ℕ} (hi : i < r.size) :
    r.contents[i]? = r.buffer[(r.readPos + i) % r.capacity]? := by
  have hmod : (r.readPos + i) % r.capacity < r.buffer.length :=
    Nat.mod_lt _ (Nat.zero_lt_of_lt r.pos_lt)
  rw [contents, List.getElem?_map, List.getElem?_range hi, Option.map_some,
    List.getD_eq_getElem?_getD, List.getElem?_eq_getElem hmod, Option.getD_some]

theorem readPos_add_size (r : RingBuffer) : (r.readPos + r.size) % r.capacity = r.writePos := by
  have hpos : r.writePos < r.capacity := r.pos_lt
  rcases r.readPos_cases with ⟨hle, hread⟩ | ⟨hlt, hread⟩
  · rw [hread, Nat.sub_add_cancel hle, Nat.mod_eq_of_lt hpos]
  · have hsize : r.size ≤ r.capacity := r.size_le
    have hsum : r.readPos + r.size = r.writePos + r.capacity := by omega
    rw [hsum, Nat.add_mod_right, Nat.mod_eq_of_lt hpos]

section CopyIn

variable {src : Bytes} {r : RingBuffer} (hremain : 0 < r.remain)
  (hsrc : src.length ≤ r.chunkSize)

include hsrc in
theorem copyIn_room : r.writePos + src.length ≤ r.capacity :=
  le_trans (Nat.add_le_add_left hsrc _) r.writePos_add_chunkSize_le

theorem capacity_copyIn : (r.copyIn src hremain hsrc).capacity = r.capacity :=
  length_overwrite (copyIn_room hsrc)

theorem readPos_copyIn : (r.copyIn src hremain hsrc).readPos = r.readPos := by
  have hcap := capacity_copyIn hremain hsrc
  have hfree := chunkSize_le_remain hremain
  have hroom := copyIn_room hsrc
  have hpos : r.writePos < r.capacity := r.pos_lt
  have hnew : (r.copyIn src hremain hsrc).readPos =
      ((r.writePos + src.length) % r.capacity + r.capacity - (r.size + src.length)) %
        r.capacity := by
    rw [readPos, hcap]
    rfl
  unfold remain at hfree
  rw [hnew, readPos]
  rcases Nat.lt_or_ge (r.writePos + src.length) r.capacity with hlt | hge
  · rw [Nat.mod_eq_of_lt hlt]
    congr 1
    omega
  · have heq : r.writePos + src.length = r.capacity := le_antisymm hroom hge
    have hwrap : r.writePos + r.capacity - r.size =
        0 + r.capacity - (r.size + src.length) + r.capacity := by omega
    rw [heq, Nat.mod_self, hwrap, Nat.add_mod_right]

theorem contents_copyIn : (r.copyIn src hremain hsrc).contents = r.contents ++ src := by
  have hcap := capacity_copyIn hremain hsrc
  have hread := readPos_copyIn hremain hsrc
  have hroom := copyIn_room hsrc
  have hfree := chunkSize_le_remain hremain
  have hsize : (r.copyIn src hremain hsrc).size = r.size + src.length := rfl
  have hfits : r.size ≤ r.capacity := r.size_le
  have hpos : r.writePos < r.capacity := r.pos_lt
  unfold remain at hfree
  apply List.ext_getElem?
  intro i
  rcases Nat.lt_or_ge i (r.size + src.length) with hi | hi
  · rw [getElem?_contents _ (by rw [hsize]; exact hi), hread, hcap]
    show (overwrite r.buffer r.writePos src)[(r.readPos + i) % r.capacity]? = _
    rw [getElem?_overwrite hroom]
    rcases Nat.lt_or_ge i r.size with hold | hnew
    · -- an old byte lies outside the range that was written
      have hout : ¬ (r.writePos ≤ (r.readPos + i) % r.capacity ∧
          (r.readPos + i) % r.capacity < r.writePos + src.length) := by
        rcases r.readPos_cases with ⟨hle, hpos'⟩ | ⟨hlt, hpos'⟩
        · rw [Nat.mod_eq_of_lt (by omega)]
          omega
        · rcases Nat.lt_or_ge (r.readPos + i) r.capacity with hin | hwrap
          · rw [Nat.mod_eq_of_lt hin]
            omega
          · rw [Nat.mod_eq_sub_mod hwrap, Nat.mod_eq_of_lt (by omega)]
            omega
      rw [if_neg hout, List.getElem?_append_left (by rw [length_contents]; exact hold),
        getElem?_contents r hold]
    · have hplace : (r.readPos + i) % r.capacity = r.writePos + (i - r.size) := by
        have hsplit : r.readPos + i = r.readPos + r.size + (i - r.size) := by omega
        rw [hsplit, Nat.add_mod, readPos_add_size,
          Nat.mod_eq_of_lt (show i - r.size < r.capacity by omega), Nat.mod_eq_of_lt (by omega)]
      rw [hplace, if_pos (by omega),
        List.getElem?_append_right (by rw [length_contents]; exact hnew), length_contents]
      congr 1
      omega
  · rw [List.getElem?_eq_none (by rw [length_contents, hsize]; exact hi),
      List.getElem?_eq_none (by rw [List.length_append, length_contents]; exact hi)]

end CopyIn

theorem write_spec (data : Bytes) (r : RingBuffer) :
    (r.write data).1 = min data.length r.remain ∧
      (r.write data).2.contents = r.contents ++ data.take (r.write data).1 ∧
      (r.write data).2.capacity = r.capacity := by
  fun_induction write data r with
  | case1 data r h copySize r' n r'' hrest ih =>
    -- the first piece is copied and the rest goes into what is then left
    rw [hrest] at ih
    obtain ⟨ihn, ihcontents, ihcap⟩ := ih
    have hfree := chunkSize_le_remain h.2
    have hcopy : (data.take copySize).length = copySize := by
      rw [List.length_take]
      exact min_eq_left (min_le_left _ _)
    have hremain : r'.remain = r.remain - copySize := by
      have hcap : r'.capacity = r.capacity := capacity_copyIn _ _
      have hsize : r'.size = r.size + (data.take copySize).length := rfl
      rw [remain, remain, hcap, hsize, hcopy]
      omega
    have hcontents : r'.contents = r.contents ++ data.take copySize := contents_copyIn _ _
    refine ⟨?_, ?_, ihcap.trans (capacity_copyIn _ _)⟩
    · rw [List.length_drop, hremain] at ihn
      have hmin : copySize = min data.length r.chunkSize := rfl
      show copySize + n = _
      have : n = _ := ihn
      omega
    · show r''.contents = r.contents ++ data.take (copySize + n)
      rw [ihcontents, hcontents, List.append_assoc, List.take_add]
  | case2 data r h =>
    refine ⟨?_, by simp, rfl⟩
    rcases not_and_or.mp h with hdata | hremain
    · rw [not_not.mp hdata]
      simp
    · simp [Nat.eq_zero_of_not_pos hremain]

theorem write_takes_some {data : Bytes} {r : RingBuffer} (hdata : data ≠ [])
    (hremain : 0 < r.remain) : 0 < (r.write data).1 := by
  rw [(write_spec data r).1]
  have := List.length_pos_iff.mpr hdata
  omega

def view (r : RingBuffer) : Bytes := slice r.buffer r.bufferRange.1 r.bufferRange.2

theorem bufferRange_spec {r : RingBuffer} (h : 0 < r.size) :
    r.bufferRange.1 = r.readPos ∧ 0 < r.bufferRange.2 ∧ r.bufferRange.2 ≤ r.size ∧
      r.readPos + r.bufferRange.2 ≤ r.capacity := by
  have hpos : r.writePos < r.capacity := r.pos_lt
  have hsize : r.size ≤ r.capacity := r.size_le
  rw [bufferRange, if_neg (Nat.ne_of_gt h)]
  rcases r.readPos_cases with ⟨hle, hrp⟩ | ⟨hlt, hrp⟩
  · rw [if_pos (by omega)]
    dsimp only
    omega
  · rw [if_neg (by omega)]
    dsimp only
    omega

theorem view_eq_take {r : RingBuffer} (h : 0 < r.size) :
    r.view = r.contents.take r.bufferRange.2 := by
  obtain ⟨hstart, -, hle, hroom⟩ := bufferRange_spec h
  apply List.ext_getElem?
  intro i
  rw [view, hstart, getElem?_slice, List.getElem?_take]
  split
  · rename_i hi
    rw [getElem?_contents r (by omega), Nat.mod_eq_of_lt (by omega)]
  · rfl

theorem forward_spec {n : ℕ} {r : RingBuffer} (hn : 0 < n) (hle : n ≤ r.size) :
    (r.forward n).2.contents = r.contents.drop n ∧ (r.forward n).2.capacity = r.capacity ∧
      (r.forward n).2.size = r.size - n := by
  have hfwd : r.forward n = (.success, { r with
      dataSize := r.dataSize - n, size_le := by have := r.size_le; omega }) := by
    rw [forward, if_neg (by omega), if_neg (by omega)]
  rw [hfwd]
  refine ⟨?_, rfl, rfl⟩
  apply List.ext_getElem?
  intro i
  rw [List.getElem?_drop]
  rcases Nat.lt_or_ge i (r.size - n) with hi | hi
  · rw [getElem?_contents _ (show i < r.dataSize - n from hi), getElem?_contents r (by omega)]
    -- the read position moves on by `n`
    show r.buffer[((r.writePos + r.capacity - (r.size - n)) % r.capacity + i) % r.capacity]? = _
    rw [readPos, Nat.mod_add_mod, Nat.mod_add_mod]
    have hsize : r.size ≤ r.capacity := r.size_le
    have hsame : r.writePos + r.capacity - (r.size - n) + i =
        r.writePos + r.capacity - r.size + (n + i) := by omega
    rw [hsame]
  · rw [List.getElem?_eq_none (by rw [length_contents]; exact hi),
      List.getElem?_eq_none (by rw [length_contents]; omega)]

end Contents

end RingBuffer

end Net
