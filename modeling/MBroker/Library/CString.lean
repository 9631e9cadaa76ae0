import Mathlib.Algebra.GroupWithZero.Nat
import Mathlib.Data.List.TakeWhile
import Mathlib.Data.List.Infix

/-!
# C strings, character arrays and streams of terminated strings

A C string is a byte string without NUL. A `char[n]` that holds a string is an
array of `n` bytes with a NUL in it, so neither `strlen` nor `strcmp` runs past
its end. A stream of strings, each followed by its NUL, can be read back one
string at a time.

Results:
1. `CharArray.str_ofStr`, `CharArray.str_clear`: what an array holds after a
   string was copied to it, and after its first byte was zeroed.
2. `encode_inj`: a stream determines its strings.
-/

/-- A NUL-free byte string: what a `char const *` points to, up to its NUL. -/
structure CStr where
  bytes : List UInt8
  nul_notMem : (0 : UInt8) ∉ bytes
deriving DecidableEq

namespace CStr

theorem ext {s t : CStr} (h : s.bytes = t.bytes) : s = t := by
  cases s
  cases t
  simpa using h

/-- `strlen`. -/
def length (s : CStr) : Nat := s.bytes.length

/-- The empty string. -/
def empty : CStr := ⟨[], by simp⟩

/-- The string one character further on (`s + 1`). -/
def tail (s : CStr) : CStr := ⟨s.bytes.tail, fun h => s.nul_notMem (List.mem_of_mem_tail h)⟩

theorem takeWhile_nul_notMem (l : List UInt8) : (0 : UInt8) ∉ l.takeWhile (· != 0) := by
  intro h
  simpa using List.mem_takeWhile_imp h

/-- The string that starts at the first of these bytes. -/
def ofBytes (l : List UInt8) : CStr := ⟨l.takeWhile (· != 0), takeWhile_nul_notMem l⟩

theorem length_ofBytes_le (l : List UInt8) : (ofBytes l).length ≤ l.length :=
  (List.takeWhile_prefix _).length_le

/-- A string followed by its NUL is found again, whatever comes after. -/
theorem ofBytes_append_nul (s : CStr) (l : List UInt8) : ofBytes (s.bytes ++ 0 :: l) = s := by
  refine ext ?_
  have hall : ∀ b ∈ s.bytes, (b != 0) = true := fun b hb => by
    rw [bne_iff_ne]
    rintro rfl
    exact s.nul_notMem hb
  simp [ofBytes, List.takeWhile_append_of_pos hall]

/-- A string that fills its bytes to the end. -/
theorem ofBytes_self (s : CStr) : ofBytes s.bytes = s := by
  refine ext ?_
  rw [ofBytes, List.takeWhile_eq_self_iff]
  intro b hb
  rw [bne_iff_ne]
  rintro rfl
  exact s.nul_notMem hb

/-- Bytes with a NUL in them: a string, its NUL, and the rest. -/
theorem eq_ofBytes_append {l : List UInt8} (h : (0 : UInt8) ∈ l) :
    ∃ v, l = (ofBytes l).bytes ++ 0 :: v := by
  obtain ⟨u, v, rfl, hu⟩ := List.eq_append_cons_of_mem h
  refine ⟨v, ?_⟩
  rw [ofBytes_append_nul ⟨u, hu⟩]

theorem length_ofBytes_lt {l : List UInt8} (h : (0 : UInt8) ∈ l) :
    (ofBytes l).length < l.length := by
  obtain ⟨v, hv⟩ := eq_ofBytes_append h
  have hlength := congrArg List.length hv
  rw [List.length_append, List.length_cons] at hlength
  exact hlength ▸ Nat.lt_add_of_pos_right (Nat.succ_pos _)

/-- The string at the start of a buffer, with its NUL; the byte behind the buffer is
a NUL. -/
theorem take_ofBytes (l : List UInt8) :
    (l ++ [0]).take ((ofBytes l).length + 1) = (ofBytes l).bytes ++ [0] := by
  obtain ⟨v, hv⟩ := eq_ofBytes_append (l := l ++ [0]) (by simp)
  have hstr : ofBytes (l ++ [0]) = ofBytes l := by
    by_cases hl : (0 : UInt8) ∈ l
    · obtain ⟨u, hu⟩ := eq_ofBytes_append hl
      rw [hu, List.append_assoc, List.cons_append, ofBytes_append_nul, ofBytes_append_nul]
    · rw [ofBytes_append_nul ⟨l, hl⟩, ofBytes_self ⟨l, hl⟩]
  rw [hstr] at hv
  rw [hv, length, List.take_length_add_append]
  rfl

end CStr

/-- A `char[n]` that holds a NUL-terminated string. -/
structure CharArray (n : Nat) where
  bytes : List UInt8
  size : bytes.length = n
  terminated : (0 : UInt8) ∈ bytes
deriving DecidableEq

namespace CharArray

variable {n : Nat}

/-- The string in the array. -/
def str (a : CharArray n) : CStr := .ofBytes a.bytes

/-- `a[0] = '\0'`. -/
def clear (a : CharArray n) : CharArray n where
  bytes := a.bytes.set 0 0
  size := by simp [a.size]
  terminated := by
    cases h : a.bytes with
    | nil => simpa [h] using a.terminated
    | cons b l => simp

/-- `a[n - 1] = '\0'`. -/
def terminate (a : CharArray n) : CharArray n where
  bytes := a.bytes.set (n - 1) 0
  size := by simp [a.size]
  terminated := by
    have hpos : n - 1 < a.bytes.length := by
      have := List.length_pos_of_mem a.terminated
      have := a.size
      omega
    exact List.mem_set hpos 0

/-- A string copied into an array of zeros. -/
def ofStr (s : CStr) (h : s.length < n) : CharArray n where
  bytes := s.bytes ++ List.replicate (n - s.length) 0
  size := by simp only [List.length_append, List.length_replicate, CStr.length] at h ⊢; omega
  terminated := by
    refine List.mem_append_right _ (List.mem_replicate.mpr ⟨?_, rfl⟩)
    omega

theorem str_length_lt (a : CharArray n) : a.str.length < n :=
  (CStr.length_ofBytes_lt a.terminated).trans_eq a.size

theorem str_tail_length_lt (a : CharArray n) : a.str.tail.length < n :=
  lt_of_le_of_lt (List.length_tail.le.trans (Nat.sub_le _ _)) a.str_length_lt

@[simp] theorem str_clear (a : CharArray n) : a.clear.str = .empty := by
  refine CStr.ext ?_
  cases h : a.bytes with
  | nil => simpa [h] using a.terminated
  | cons b l => simp [str, clear, CStr.ofBytes, h, CStr.empty]

/-- The string ends before the last byte, or there. -/
@[simp] theorem str_terminate (a : CharArray n) : a.terminate.str = a.str := by
  obtain ⟨v, hv⟩ := CStr.eq_ofBytes_append a.terminated
  have hsize := congrArg List.length hv
  rw [a.size, List.length_append, List.length_cons] at hsize
  have hset : a.terminate.bytes = (CStr.ofBytes a.bytes).bytes
      ++ (0 :: v : List UInt8).set (n - 1 - (CStr.ofBytes a.bytes).bytes.length) 0 := by
    rw [terminate, ← List.set_append_right _ _ (by omega), ← hv]
  rw [str, hset]
  cases n - 1 - (CStr.ofBytes a.bytes).bytes.length with
  | zero => exact CStr.ofBytes_append_nul _ _
  | succ k => exact CStr.ofBytes_append_nul _ _

@[simp] theorem str_ofStr (s : CStr) (h : s.length < n) : (ofStr s h).str = s := by
  obtain ⟨d, hd⟩ := Nat.exists_eq_add_of_lt h
  have hrep : List.replicate (n - s.length) (0 : UInt8) = 0 :: List.replicate d 0 := by
    rw [show n - s.length = d + 1 by omega]
    rfl
  simp only [str, ofStr, hrep]
  exact CStr.ofBytes_append_nul s _

end CharArray

/-! ## Streams of terminated strings -/

namespace TerminatedStream

/-- The strings one after the other, each followed by its NUL. -/
def encode (ms : List CStr) : List UInt8 := ms.flatMap fun m => m.bytes ++ [0]

@[simp] theorem encode_nil : encode [] = [] := rfl

@[simp] theorem encode_cons (m : CStr) (ms : List CStr) :
    encode (m :: ms) = m.bytes ++ 0 :: encode ms := by
  simp [encode]

theorem encode_append (ms ns : List CStr) : encode (ms ++ ns) = encode ms ++ encode ns := by
  simp [encode]

theorem encode_concat (ms : List CStr) (m : CStr) :
    encode (ms ++ [m]) = encode ms ++ (m.bytes ++ [0]) := by
  simp [encode]

theorem length_encode (ms : List CStr) :
    (encode ms).length = (ms.map fun m => m.length + 1).sum := by
  induction ms with
  | nil => rfl
  | cons m ms ih =>
    rw [encode_cons, List.length_append, List.length_cons, ih, List.map_cons,
      List.sum_cons, CStr.length]
    omega

/-- The first string of a stream. -/
theorem ofBytes_encode_cons (m : CStr) (ms : List CStr) :
    CStr.ofBytes (encode (m :: ms)) = m := by
  rw [encode_cons, CStr.ofBytes_append_nul]

/-- What follows the first string and its NUL. -/
theorem drop_encode_cons (m : CStr) (ms : List CStr) :
    (encode (m :: ms)).drop (m.length + 1) = encode ms := by
  rw [encode_cons, List.append_cons]
  exact List.drop_left' (by simp [CStr.length])

theorem encode_eq_nil {ms : List CStr} : encode ms = [] ↔ ms = [] := by
  cases ms <;> simp

theorem encode_inj {ms ns : List CStr} (h : encode ms = encode ns) : ms = ns := by
  induction ms generalizing ns with
  | nil => exact (encode_eq_nil.mp h.symm).symm
  | cons m ms ih =>
    cases ns with
    | nil => simp at h
    | cons n ns =>
      have hhead : m = n := by
        rw [← ofBytes_encode_cons m ms, h, ofBytes_encode_cons]
      subst hhead
      have htail : encode ms = encode ns := by
        rw [← drop_encode_cons m ms, h, drop_encode_cons]
      rw [ih htail]

/-- Bytes off the front of a stream that are one string and its NUL are the first string of
the stream. -/
theorem eq_of_take_encode {m n : CStr} {ms : List CStr} {k : Nat}
    (h : (encode (m :: ms)).take k = n.bytes ++ [0]) :
    n = m := by
  rcases Nat.lt_or_ge m.length k with hlt | hle
  · obtain ⟨d, rfl⟩ := Nat.exists_eq_add_of_lt hlt
    have htake : (encode (m :: ms)).take (m.length + d + 1) = m.bytes ++ 0
      :: (encode ms).take d := by
      rw [encode_cons, Nat.add_assoc]
      exact List.take_length_add_append (d + 1)
    rw [← CStr.ofBytes_append_nul n [], ← h, htake, CStr.ofBytes_append_nul]
  · -- the NUL of the first string is not among the bytes
    have hzero : (0 : UInt8) ∈ (encode (m :: ms)).take k := by
      rw [h]
      exact List.mem_append_right _ (List.mem_singleton.mpr rfl)
    rw [encode_cons, List.take_append_of_le_length hle] at hzero
    exact absurd (List.mem_of_mem_take hzero) m.nul_notMem

end TerminatedStream
