import Mathlib.Data.List.Basic
import Mathlib.Data.Nat.Notation
import Mathlib.Tactic.Linarith
import Mathlib.Tactic.Ring

/-!
# Flat byte memory

A memory is a function from addresses to bytes. `read` and `write` copy a range
out of it and into it, as `memcpy` does; `overlay` is the effect of a write on
the bytes of a range that starts before it.

Results:
1. `read_write_same`, `read_write_disjoint`: a range just written reads back,
   a range apart from it is unchanged.
2. `read_write_overlay`: a write inside or right after a range overlays it.
3. `int32_le32`, `natLe_le64`: an integer survives its little-endian encoding.
-/

namespace ByteMemory

/-- `n` bytes from address `a`. -/
def read (m : Nat → UInt8) (a n : Nat) : List UInt8 := (List.range n).map fun k => m (a + k)

/-- The memory with `bs` copied to address `a`. -/
def write (m : Nat → UInt8) (a : Nat) (bs : List UInt8) : Nat → UInt8 := fun x =>
  if a ≤ x then (bs[x - a]?).getD (m x) else m x

/-- `bs` laid over the byte string `c` from offset `o`, extending it where needed. -/
def overlay (c : List UInt8) (o : Nat) (bs : List UInt8) : List UInt8 :=
  c.take o ++ bs ++ c.drop (o + bs.length)

variable {m m' : Nat → UInt8} {a b n k o x : Nat} {bs c : List UInt8}

@[simp] theorem length_read (m : Nat → UInt8) (a n : Nat) : (read m a n).length = n := by
  simp [read]

@[simp] theorem read_zero (m : Nat → UInt8) (a : Nat) : read m a 0 = [] := rfl

theorem getElem_read (h : k < (read m a n).length) : (read m a n)[k] = m (a + k) := by
  simp [read]

theorem read_congr (h : ∀ x, a ≤ x → x < a + n → m x = m' x) : read m a n = read m' a n := by
  refine List.map_congr_left fun k hk => h _ (by omega) ?_
  have := List.mem_range.mp hk
  omega

theorem read_add (m : Nat → UInt8) (a n k : Nat) :
    read m a (n + k) = read m a n ++ read m (a + n) k := by
  simp [read, List.range_add, Function.comp_def, Nat.add_assoc]

theorem read_succ (m : Nat → UInt8) (a n : Nat) : read m a (n + 1) = m a :: read m (a + 1) n := by
  rw [Nat.add_comm n 1, read_add]
  rfl

theorem take_read (h : k ≤ n) : (read m a n).take k = read m a k := by
  obtain ⟨d, rfl⟩ := Nat.exists_eq_add_of_le h
  rw [read_add]
  exact List.take_left' (length_read m a k)

theorem drop_read (h : k ≤ n) : (read m a n).drop k = read m (a + k) (n - k) := by
  obtain ⟨d, rfl⟩ := Nat.exists_eq_add_of_le h
  rw [read_add, List.drop_left' (length_read m a k), Nat.add_sub_cancel_left]

theorem write_of_lt (h : x < a) : write m a bs x = m x := by
  simp [write, Nat.not_le.mpr h]

theorem write_of_ge (h : a + bs.length ≤ x) : write m a bs x = m x := by
  have hout : bs[x - a]? = none := List.getElem?_eq_none (by omega)
  simp [write, hout]

theorem write_of_mem (hk : k < bs.length) : write m a bs (a + k) = bs[k] := by
  simp [write, hk]

theorem read_write_same (m : Nat → UInt8) (a : Nat) (bs : List UInt8) :
    read (write m a bs) a bs.length = bs := by
  refine List.ext_getElem (by simp) fun k h1 h2 => ?_
  rw [getElem_read, write_of_mem h2]

theorem read_write_disjoint (h : a + n ≤ b ∨ b + bs.length ≤ a) :
    read (write m b bs) a n = read m a n := by
  refine read_congr fun x h1 h2 => ?_
  rcases h with h | h
  · exact write_of_lt (by omega)
  · exact write_of_ge (by omega)

/-- Overlaying at the end appends. -/
theorem overlay_length (c bs : List UInt8) : overlay c c.length bs = c ++ bs := by
  simp [overlay]

/-- A write that starts inside a range, or right at its end, overlays the bytes
of the range. -/
theorem read_write_overlay (h : o ≤ n) :
    read (write m (a + o) bs) a (max n (o + bs.length)) = overlay (read m a n) o bs := by
  have hsplit : max n (o + bs.length) = o + (bs.length + (n - (o + bs.length))) := by omega
  have hhead : read (write m (a + o) bs) a o = (read m a n).take o := by
    rw [take_read h, read_write_disjoint (Or.inl (le_refl _))]
  have htail : read (write m (a + o) bs) (a + o + bs.length) (n - (o + bs.length))
      = (read m a n).drop (o + bs.length) := by
    rw [read_write_disjoint (Or.inr (le_refl _))]
    rcases Nat.le_total (o + bs.length) n with hle | hle
    · rw [drop_read hle, Nat.add_assoc]
    · rw [Nat.sub_eq_zero_of_le hle, read_zero, List.drop_eq_nil_of_le (by simpa using hle)]
  rw [hsplit, read_add, read_add, hhead, htail, read_write_same, overlay, List.append_assoc]

/-! ## Little-endian integers -/

/-- The four bytes of an `int`, lowest first. -/
def le32 (z : Int) : List UInt8 :=
  let v := (z % 4294967296).toNat
  [UInt8.ofNat (v % 256), UInt8.ofNat (v / 256 % 256), UInt8.ofNat (v / 65536 % 256),
    UInt8.ofNat (v / 16777216 % 256)]

/-- The `int` of four bytes. -/
def int32 : List UInt8 → Int
  | [b0, b1, b2, b3] =>
    let v := b0.toNat + b1.toNat * 256 + b2.toNat * 65536 + b3.toNat * 16777216
    if v < 2147483648 then v else (v : Int) - 4294967296
  | _ => 0

/-- The eight bytes of a `uint64_t`, lowest first. -/
def le64 (n : Nat) : List UInt8 := (List.range 8).map fun i => UInt8.ofNat (n / 256 ^ i % 256)

@[simp] theorem length_le32 (z : Int) : (le32 z).length = 4 := rfl

theorem int32_le32 {z : Int} (lo : -2147483648 ≤ z) (hi : z < 2147483648) :
    int32 (le32 z) = z := by
  have hv : ((z % 4294967296).toNat : Int) = z % 4294967296 := Int.toNat_of_nonneg (by omega)
  have hlt : (z % 4294967296).toNat < 4294967296 := by omega
  simp only [le32, int32, UInt8.toNat_ofNat']
  split <;> omega

/-- The number of some bytes, lowest first. -/
def natLe (bytes : List UInt8) : Nat := bytes.foldr (fun byte n => byte.toNat + 256 * n) 0

@[simp] theorem length_le64 (n : Nat) : (le64 n).length = 8 := by simp [le64]

theorem natLe_digits (k n : Nat) :
    natLe ((List.range k).map fun i => UInt8.ofNat (n / 256 ^ i % 256)) = n % 256 ^ k := by
  induction k generalizing n with
  | zero => simp [natLe, Nat.mod_one]
  | succ k ih =>
    have hrest : (List.range k).map (fun i => UInt8.ofNat (n / 256 ^ (i + 1) % 256))
        = (List.range k).map fun i => UInt8.ofNat (n / 256 / 256 ^ i % 256) :=
      List.map_congr_left fun i _ => by rw [Nat.div_div_eq_div_mul, Nat.pow_succ']
    rw [List.range_succ_eq_map, List.map_cons, List.map_map]
    have hcons : natLe (UInt8.ofNat (n / 256 ^ 0 % 256)
        :: (List.range k).map (fun i => UInt8.ofNat (n / 256 ^ (i + 1) % 256)))
          = n % 256 + 256 * (n / 256 % 256 ^ k) := by
      rw [hrest, ← ih (n / 256)]
      simp [natLe]
    rw [Nat.pow_succ', Nat.mod_mul]
    exact hcons

theorem natLe_le64 {n : Nat} (h : n < 18446744073709551616) : natLe (le64 n) = n := by
  rw [le64, natLe_digits]
  exact Nat.mod_eq_of_lt h

/-- Only the number in 64 bits is stored. -/
theorem le64_mod (n : Nat) : le64 (n % 18446744073709551616) = le64 n := by
  refine List.map_congr_left fun i hi => congrArg UInt8.ofNat ?_
  have hlt : i < 8 := List.mem_range.mp hi
  obtain ⟨d, hd⟩ : ∃ d, 8 = i + (d + 1) := ⟨7 - i, by omega⟩
  have hword : 18446744073709551616 = 256 ^ i * 256 ^ (d + 1) := by
    rw [← Nat.pow_add, ← hd]
  have hbyte : 256 ∣ 256 ^ (d + 1) := Dvd.intro_left (256 ^ d) rfl
  rw [hword, Nat.mod_mul_right_div_self, Nat.mod_mod_of_dvd _ hbyte]

end ByteMemory
