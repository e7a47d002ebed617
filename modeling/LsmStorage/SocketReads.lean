import LsmStorage.ByteCodec

/-! # Reads from a stream socket

The bytes that the peer sends before it closes, and the operating system as the list of its
answers to `read`. An answer that delivers gives at least one byte, and at most what was asked for
and what is left; with nothing left, or nothing asked for, it returns 0. -/
namespace SocketReads

open ByteCodec

inductive Errno where
  | eagain
  | eintr
  | other (code : ℕ)
  deriving DecidableEq

/-- `deliver k`: up to `k + 1` bytes. -/
inductive Answer where
  | deliver (k : ℕ)
  | fail (errno : Errno)
  deriving DecidableEq

def Answer.delivers : Answer → Bool
  | .deliver _ => true
  | .fail _ => false

def read (a : Answer) (size : ℕ) (input : Bytes) : Except Errno (Bytes × Bytes) :=
  match a with
  | .deliver k => .ok (input.take (min (k + 1) size), input.drop (min (k + 1) size))
  | .fail errno => .error errno

theorem read_deliver {k size : ℕ} {input : Bytes} (hsize : 0 < size) (hinput : input ≠ []) :
    ∃ got rest, read (.deliver k) size input = .ok (got, rest) ∧ input = got ++ rest ∧
      got ≠ [] ∧ got.length ≤ size := by
  refine ⟨_, _, rfl, (List.take_append_drop _ _).symm, ?_, ?_⟩
  · rw [ne_eq, List.take_eq_nil_iff]
    rintro (hzero | hnil)
    · omega
    · exact hinput hnil
  · rw [List.length_take]
    omega

theorem read_deliver_nil (k size : ℕ) : read (.deliver k) size [] = .ok ([], []) := by
  simp [read]

theorem read_deliver_zero (k : ℕ) (input : Bytes) :
    read (.deliver k) 0 input = .ok ([], input) := by
  simp [read]

def deliveries (answers : List Answer) : ℕ := answers.countP Answer.delivers

@[simp] theorem deliveries_deliver (k : ℕ) (answers : List Answer) :
    deliveries (.deliver k :: answers) = deliveries answers + 1 :=
  List.countP_cons_of_pos rfl

@[simp] theorem deliveries_fail (errno : Errno) (answers : List Answer) :
    deliveries (.fail errno :: answers) = deliveries answers :=
  List.countP_cons_of_neg (by simp [Answer.delivers])

end SocketReads
