import MBroker.Library.CString

/-!
# Constants and machine arithmetic shared by the programs

The constants of `utils/common.h` and `fs/config.h`, and the arithmetic of
`size_t`, `uint64_t` and `ssize_t` on a 64-bit machine.
-/

namespace MBroker

def clientNamedPipePathLength : Nat := 255
def boxNameLength : Nat := 31
def messageLength : Nat := 1023
def maxBoxes : Nat := 64
def boxSize : Nat := 16384

def rootDirInum : Nat := 0
def maxFileName : Nat := 40

/-! ## Operation codes -/

def opCodeRegistPub : UInt8 := 1
def opCodeRegistSub : UInt8 := 2
def opCodeCreateBox : UInt8 := 3
def opCodeCreateBoxAnswer : UInt8 := 4
def opCodeRemoveBox : UInt8 := 5
def opCodeRemoveBoxAnswer : UInt8 := 6
def opCodeListBoxes : UInt8 := 7
def opCodeListBoxesAnswer : UInt8 := 8
def opCodePublisher : UInt8 := 9
def opCodeSubscriber : UInt8 := 10

/-! ## File opening modes -/

def tfsOCreat : Nat := 1
def tfsOTrunc : Nat := 2
def tfsOAppend : Nat := 4

/-! ## 64-bit arithmetic -/

def word : Nat := 18446744073709551616

/-- `a + b` in `size_t`. -/
def addSize (a b : Nat) : Nat := (a + b) % word

/-- `a - b` in `size_t`. -/
def subSize (a b : Nat) : Nat := (a + (word - b % word)) % word

/-- A `size_t` returned as `ssize_t`. -/
def toSsize (n : Nat) : Int := if n < 9223372036854775808 then n else (n : Int) - word

/-- An `ssize_t` cast to `uint64_t`. -/
def ofSsize (z : Int) : Nat := (z % word).toNat

theorem addSize_of_lt {a b : Nat} (h : a + b < word) : addSize a b = a + b := Nat.mod_eq_of_lt h

theorem subSize_of_le {a b : Nat} (h : b ≤ a) (ha : a < word) : subSize a b = a - b := by
  unfold subSize word at *
  omega

/-- A subtraction that passes below 0 wraps. -/
theorem subSize_of_lt {a b : Nat} (h : a < b) (hb : b < word) : subSize a b = a + word - b := by
  unfold subSize word at *
  omega

theorem subSize_eq_zero_iff {a b : Nat} (ha : a < word) (hb : b < word) :
    subSize a b = 0 ↔ a = b := by
  unfold subSize word at *
  omega

theorem ofSsize_lt (z : Int) : ofSsize z < word := by
  unfold ofSsize word
  omega

theorem toSsize_of_lt {n : Nat} (h : n < 9223372036854775808) : toSsize n = n := if_pos h

end MBroker
