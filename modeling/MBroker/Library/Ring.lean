import Mathlib.Data.List.GetD
import Mathlib.Data.Nat.ModEq
import Mathlib.Logic.Function.Basic
import Mathlib.Tactic.Linarith

/-!
# A ring of slots that holds a window of a list

Elements are stored one after another into the slots 0, 1, ..., n - 1, 0, 1, ...
`Window slots n a l` says that the elements of the list `l` from position `a` on
are in the ring. Storing one more element keeps the window as long as it is
shorter than the ring; taking the first one moves its start.

Results:
1. `Window.push`, `Window.pop`: both ends of the window.
2. `Window.first`: what the slot at its start holds.
3. `Window.held`: the elements in the ring, counted from its start.
-/

namespace Ring

variable {α : Type*} {slots : Nat → Option α} {n a : Nat} {l : List α} {x : α}

/-- The elements of `l` from position `a` on are in their slots. -/
structure Window (slots : Nat → Option α) (n a : Nat) (l : List α) : Prop where
  start_le : a ≤ l.length
  short : l.length ≤ a + n
  stored : ∀ i, a ≤ i → i < l.length → slots (i % n) = l[i]?

theorem window_nil (slots : Nat → Option α) (n : Nat) : Window slots n 0 [] :=
  ⟨le_refl _, Nat.zero_le _, fun i _ hi => absurd hi (Nat.not_lt_zero i)⟩

/-- Positions of one window are in different slots. -/
theorem slot_ne {i j : Nat} (hij : i < j) (hn : j < i + n) : i % n ≠ j % n := by
  intro heq
  have hdvd : n ∣ j - i := (Nat.modEq_iff_dvd' (Nat.le_of_lt hij)).mp heq
  exact absurd (Nat.le_of_dvd (by omega) hdvd) (by omega)

theorem Window.push (h : Window slots n a l) (room : l.length < a + n) (x : α) :
    Window (Function.update slots (l.length % n) (some x)) n a (l ++ [x]) := by
  have hstart := h.start_le
  refine ⟨by simp; omega, by simp; omega, fun i hai hi => ?_⟩
  rw [List.length_append, List.length_singleton] at hi
  rcases Nat.eq_or_lt_of_le (Nat.le_of_lt_succ hi) with rfl | hlt
  · rw [Function.update_self, List.getElem?_append_right (le_refl _), Nat.sub_self]
    rfl
  · rw [Function.update_of_ne (slot_ne hlt (by omega)), List.getElem?_append_left hlt]
    exact h.stored i hai hlt

theorem Window.first (h : Window slots n a l) (some_left : a < l.length) :
    slots (a % n) = l[a]? := h.stored a (le_refl a) some_left

theorem Window.pop (h : Window slots n a l) (some_left : a < l.length) :
    Window slots n (a + 1) l := by
  have := h.short
  exact ⟨some_left, by omega, fun i hai hi => h.stored i (by omega) hi⟩

/-- The elements in the ring, in order. -/
theorem Window.held (h : Window slots n a l) {i : Nat} (hi : i < (l.drop a).length) :
    slots ((a + i) % n) = (l.drop a)[i]? := by
  rw [List.length_drop] at hi
  rw [List.getElem?_drop]
  exact h.stored (a + i) (by omega) (by omega)

/-- A longer prefix by one position. -/
theorem prefix_snoc {l : List α} {p : List (Option α)} (h : p <+: l.map some)
    (hlt : p.length < l.length) : p ++ [l[p.length]?] <+: l.map some := by
  obtain ⟨rest, hrest⟩ := h
  cases rest with
  | nil =>
    have := congrArg List.length hrest
    simp at this
    omega
  | cons y rest =>
    refine ⟨rest, ?_⟩
    have hget : (l.map some)[p.length]? = some y := by
      rw [← hrest, List.getElem?_append_right (le_refl _), Nat.sub_self]
      rfl
    rw [List.getElem?_map, Option.map_eq_some_iff] at hget
    obtain ⟨z, hz, rfl⟩ := hget
    rw [hz, List.append_assoc]
    exact hrest

/-! ## A list of bounded length, first in, first out -/

/-- What is done at its two ends. -/
inductive FifoOp (β : Type*)
  | put (x : β)
  | get (x : β)

/-- An element is put only where there is room, and the first element is got. -/
inductive FifoStep {β : Type*} (capacity : Nat) : List β → FifoOp β → List β → Prop
  | put {l : List β} {x : β} : l.length < capacity → FifoStep capacity l (.put x) (l ++ [x])
  | get {l : List β} {x : β} : FifoStep capacity (x :: l) (.get x) l

/-- The part of `l` from position `a` on, with one more element stored. -/
theorem FifoStep.push {capacity : Nat} (hlen : a ≤ l.length)
    (room : l.length < a + capacity) (x : α) :
    FifoStep capacity (l.drop a) (.put x) ((l ++ [x]).drop a) := by
  rw [List.drop_append_of_le_length hlen]
  exact .put (by rw [List.length_drop]; omega)

/-- The part of `l` from position `a` on loses its first element. -/
theorem FifoStep.pop {capacity : Nat} (first : l[a]? = some x) :
    FifoStep capacity (l.drop a) (.get x) (l.drop (a + 1)) := by
  obtain ⟨hlt, rfl⟩ := List.getElem?_eq_some_iff.mp first
  rw [List.drop_eq_getElem_cons hlt]
  exact .get

end Ring
