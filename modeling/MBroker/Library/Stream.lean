import Mathlib.Data.List.Basic

/-!
# Reading from a byte stream

A reader takes a fixed number of bytes off the front of a stream, or fails when
they are not there.

Results:
1. `takeBytes_append`: what was written last in front is read first.
2. `takeBytes_length`: a read makes the stream shorter.
3. `takeBytes_longer`: a read does not look behind the bytes that it takes.
-/

namespace ByteStream

/-- The first `n` bytes and what is left. -/
def takeBytes (n : Nat) (input : List UInt8) : Option (List UInt8 × List UInt8) :=
  if n ≤ input.length then some (input.take n, input.drop n) else none

variable {n : Nat} {bytes rest input : List UInt8}

theorem takeBytes_append (h : bytes.length = n) :
    takeBytes n (bytes ++ rest) = some (bytes, rest) := by
  have hle : n ≤ (bytes ++ rest).length := by
    rw [List.length_append, h]
    exact Nat.le_add_right n _
  rw [takeBytes, if_pos hle, List.take_left' h, List.drop_left' h]

theorem takeBytes_length (h : takeBytes n input = some (bytes, rest)) :
    bytes.length = n ∧ rest.length + n = input.length := by
  unfold takeBytes at h
  split at h
  · next hle =>
    cases h
    rw [List.length_take, List.length_drop]
    exact ⟨Nat.min_eq_left hle, Nat.sub_add_cancel hle⟩
  · cases h

theorem takeBytes_longer (h : takeBytes n input = some (bytes, rest)) (more : List UInt8) :
    takeBytes n (input ++ more) = some (bytes, rest ++ more) := by
  unfold takeBytes at h
  split at h
  · next hle =>
    cases h
    have hle' : n ≤ (input ++ more).length := by
      rw [List.length_append]
      exact Nat.le_trans hle (Nat.le_add_right _ _)
    rw [takeBytes, if_pos hle', List.take_append_of_le_length hle,
      List.drop_append_of_le_length hle]
  · cases h

end ByteStream
