import LsmStorage.ByteCodec

/-! # Rowkeys and their hash

A rowkey is a byte string. Both indexes of a memtable are keyed by the 64-bit hash of the
rowkey, never by its bytes; an invalid (empty) rowkey leaves a key with hash 0. -/
namespace RowkeyHash

open ByteCodec

namespace Murmur

def m : UInt64 := 0xc6a4a7935bd1e995

def r : UInt64 := 47

def mixWord (h k : UInt64) : UInt64 :=
  let k := k * m
  let k := k ^^^ (k >>> r)
  let k := k * m
  (h ^^^ k) * m

def mixWords : ℕ → Bytes → UInt64 → UInt64 × Bytes
  | 0, data, h => (h, data)
  | n + 1, data, h => mixWords n (data.drop 8) (mixWord h (UInt64.ofNat (ofLE (data.take 8))))

/-- The cases 7 to 1 fall through, so the last byte comes first. -/
def mixTail (tail : Bytes) (h : UInt64) : UInt64 :=
  if tail = [] then h
  else tail.zipIdx.foldr (fun b h => h ^^^ (b.1.toUInt64 <<< UInt64.ofNat (8 * b.2))) h * m

def hash (data : Bytes) (seed : UInt64) : UInt64 :=
  if data = [] then seed
  else
    let (h, tail) := mixWords (data.length / 8) data (seed ^^^ (UInt64.ofNat data.length * m))
    let h := mixTail tail h
    let h := h ^^^ (h >>> r)
    let h := h * m
    h ^^^ (h >>> r)

end Murmur

/-- `memcmp` of arrays of one length. Only the sign of its result is specified. -/
def memcmp : Bytes → Bytes → ℤ
  | a :: as, b :: bs => if a < b then -1 else if b < a then 1 else memcmp as bs
  | _, _ => 0

/-- An owned key of `length_` bytes; `is_valid` is that there are any. -/
structure ObStoreRowkey where
  buf : Bytes := []
  deriving DecidableEq, Repr

namespace ObStoreRowkey

def getLength (k : ObStoreRowkey) : ℕ := k.buf.length

def isValid (k : ObStoreRowkey) : Bool := k.buf.length > 0

/-- A shorter key comes before a longer one. -/
def compare (k other : ObStoreRowkey) : ℤ :=
  if k.getLength < other.getLength then -1
  else if k.getLength > other.getLength then 1
  else if k.getLength = 0 then 0
  else memcmp k.buf other.buf

def murmurhash (seed : UInt64) (k : ObStoreRowkey) : UInt64 := Murmur.hash k.buf seed

end ObStoreRowkey

/-- A key of the indexes: the hash and the rowkey it was encoded from. -/
structure ObMemtableKey where
  hashVal : UInt64 := 0
  rowkey : Option ObStoreRowkey := none
  deriving DecidableEq, Repr

namespace ObMemtableKey

def murmurhash (seed : UInt64) (keyData : Bytes) : UInt64 := Murmur.hash keyData seed

def ofData (data : Bytes) : ObMemtableKey :=
  { hashVal := if data.length > 0 then murmurhash 0 data else 0 }

/-- An invalid rowkey is refused and the key stays as it was. -/
def encode (rowkey : ObStoreRowkey) (key : ObMemtableKey) : ℤ × ObMemtableKey :=
  if !rowkey.isValid then (-1, key)
  else (0, { hashVal := murmurhash 0 rowkey.buf, rowkey := some rowkey })

/-- `ObStoreRowkeyWrapper::hash` of the rowkey behind the key. -/
def wrapperHash (key : ObMemtableKey) : UInt64 :=
  match key.rowkey with
  | none => 0
  | some rowkey => rowkey.murmurhash 0

/-- The key that `get` and `set` use for a rowkey; the code of `encode` is not looked at. -/
def ofRowkey (rowkey : ObStoreRowkey) : ObMemtableKey := (encode rowkey {}).2

theorem wrapperHash_ofRowkey (rowkey : ObStoreRowkey) :
    (ofRowkey rowkey).wrapperHash = (ofRowkey rowkey).hashVal := by
  unfold ofRowkey encode
  split <;> rfl

end ObMemtableKey

open ObMemtableKey

def slot (rowkey : ObStoreRowkey) : UInt64 := (ofRowkey rowkey).hashVal

theorem slot_of_valid {rowkey : ObStoreRowkey} (h : rowkey.buf ≠ []) :
    slot rowkey = rowkey.murmurhash 0 := by
  have hvalid : rowkey.isValid = true := by
    simpa [ObStoreRowkey.isValid, List.length_pos_iff] using h
  simp [slot, ofRowkey, encode, hvalid, murmurhash,
    ObStoreRowkey.murmurhash]

theorem slot_eq_murmurhash (rowkey : ObStoreRowkey) : slot rowkey = rowkey.murmurhash 0 := by
  by_cases h : rowkey.buf = []
  · obtain ⟨buf⟩ := rowkey
    obtain rfl : buf = [] := h
    rfl
  · exact slot_of_valid h

theorem hashVal_ofData (rowkey : ObStoreRowkey) :
    (ofData rowkey.buf).hashVal = rowkey.murmurhash 0 := by
  by_cases h : rowkey.buf = []
  · simp [ofData, ObStoreRowkey.murmurhash, Murmur.hash, h]
  · have hpos : 0 < rowkey.buf.length := List.length_pos_iff.mpr h
    simp [ofData, murmurhash, ObStoreRowkey.murmurhash, hpos]

end RowkeyHash
