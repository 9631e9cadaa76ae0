import Mathlib.Logic.Function.Basic
import Mathlib.Order.Interval.Finset.Nat
import Mathlib.Data.Nat.Count

/-!
# First-fit search and occupancy counts

The loop `for (i = 0; i < n; i++) if (p(i)) return i;` over a table, and the
number of entries of a table that satisfy a predicate. Allocation from a table
of free marks is a first-fit search; how full the table is, is a count.
-/

namespace FirstFit

/-- The search loop with `n` entries left, at index `i`. -/
def findFrom (p : Nat → Bool) : Nat → Nat → Option Nat
  | 0, _ => none
  | n + 1, i => if p i then some i else findFrom p n (i + 1)

/-- The first index below `n` with `p`. -/
def firstIndex (p : Nat → Bool) (n : Nat) : Option Nat := findFrom p n 0

variable {p q : Nat → Bool} {n m i k : Nat}

theorem findFrom_eq_some : findFrom p n k = some i →
    k ≤ i ∧ i < k + n ∧ p i = true ∧ ∀ j, k ≤ j → j < i → p j = false := by
  induction n generalizing k with
  | zero => simp [findFrom]
  | succ n ih =>
    intro h
    unfold findFrom at h
    split at h
    · next hk =>
      cases h
      exact ⟨le_refl _, by omega, hk, fun j h1 h2 => by omega⟩
    · next hk =>
      obtain ⟨h1, h2, h3, h4⟩ := ih h
      refine ⟨by omega, by omega, h3, fun j hj hji => ?_⟩
      rcases Nat.eq_or_lt_of_le hj with rfl | hlt
      · simpa using hk
      · exact h4 j hlt hji

theorem findFrom_eq_none : findFrom p n k = none ↔ ∀ j, k ≤ j → j < k + n → p j = false := by
  induction n generalizing k with
  | zero => simp [findFrom]; omega
  | succ n ih =>
    unfold findFrom
    by_cases hk : p k = true
    · simp only [hk, if_true, reduceCtorEq, false_iff, not_forall]
      exact ⟨k, le_refl _, by omega, by simp [hk]⟩
    · rw [if_neg hk, ih]
      constructor
      · intro h j hj hjn
        rcases Nat.eq_or_lt_of_le hj with rfl | hlt
        · simpa using hk
        · exact h j hlt (by omega)
      · intro h j hj hjn
        exact h j (by omega) (by omega)

theorem firstIndex_eq_none : firstIndex p n = none ↔ ∀ j < n, p j = false := by
  simp [firstIndex, findFrom_eq_none]

theorem firstIndex_eq_some :
    firstIndex p n = some i ↔ i < n ∧ p i = true ∧ ∀ j < i, p j = false := by
  constructor
  · intro h
    obtain ⟨-, h2, h3, h4⟩ := findFrom_eq_some h
    exact ⟨by omega, h3, fun j hj => h4 j (Nat.zero_le _) hj⟩
  · rintro ⟨hi, hp, hj⟩
    cases h : firstIndex p n with
    | none => simp [firstIndex_eq_none.mp h i hi] at hp
    | some j =>
      obtain ⟨-, -, h3, h4⟩ := findFrom_eq_some h
      rcases Nat.lt_trichotomy i j with hlt | rfl | hlt
      · simp [h4 i (Nat.zero_le _) hlt] at hp
      · rfl
      · simp [hj j hlt] at h3

theorem firstIndex_congr (h : ∀ j < n, p j = q j) : firstIndex p n = firstIndex q n := by
  cases hq : firstIndex q n with
  | none =>
    rw [firstIndex_eq_none] at hq ⊢
    exact fun j hj => (h j hj).trans (hq j hj)
  | some i =>
    rw [firstIndex_eq_some] at hq ⊢
    obtain ⟨hi, hp, hj⟩ := hq
    exact ⟨hi, (h i hi).trans hp, fun j hji => (h j (by omega)).trans (hj j hji)⟩

/-- At most one hit: the search finds it wherever it stands. -/
theorem firstIndex_of_unique (hi : i < n) (hp : p i = true)
    (unique : ∀ j < n, p j = true → j = i) : firstIndex p n = some i := by
  rw [firstIndex_eq_some]
  refine ⟨hi, hp, fun j hj => ?_⟩
  by_contra hpj
  have := unique j (by omega) (by simpa using hpj)
  omega

/-! ## Counts -/

section Count

variable {P Q : Nat → Prop} [DecidablePred P] [DecidablePred Q]

theorem count_congr (h : ∀ j < n, P j ↔ Q j) : Nat.count P n = Nat.count Q n := by
  rw [Nat.count_eq_card_filter_range, Nat.count_eq_card_filter_range]
  congr 1
  exact Finset.filter_congr fun j hj => h j (Finset.mem_range.mp hj)

/-- One more entry satisfies the predicate. -/
theorem count_gain (hi : i < n) (hP : ¬ P i) (hQ : Q i) (other : ∀ j < n, j ≠ i → (Q j ↔ P j)) :
    Nat.count Q n = Nat.count P n + 1 := by
  have hfilter : (Finset.range n).filter Q = insert i ((Finset.range n).filter P) := by
    ext j
    simp only [Finset.mem_filter, Finset.mem_range, Finset.mem_insert]
    by_cases hj : j = i
    · subst hj
      simp [hi, hQ]
    · simp only [hj, false_or]
      exact ⟨fun h => ⟨h.1, (other j h.1 hj).mp h.2⟩, fun h => ⟨h.1, (other j h.1 hj).mpr h.2⟩⟩
  rw [Nat.count_eq_card_filter_range, Nat.count_eq_card_filter_range, hfilter]
  exact Finset.card_insert_of_notMem (by simp [hP])

/-- The table is full exactly when every search for a free entry fails. -/
theorem firstIndex_none_iff_count (h : ∀ j, P j ↔ p j = false) :
    firstIndex p n = none ↔ Nat.count P n = n := by
  rw [firstIndex_eq_none, Nat.count_iff_forall]
  exact forall₂_congr fun j _ => (h j).symm

theorem count_pos_of_mem (hi : i < n) (hP : P i) : 0 < Nat.count P n := by
  rw [Nat.count_eq_card_filter_range]
  exact Finset.card_pos.mpr ⟨i, by simp [hi, hP]⟩

theorem count_zero (h : ∀ j < n, ¬ P j) : Nat.count P n = 0 := by
  rw [Nat.count_eq_card_filter_range, Finset.card_eq_zero, Finset.filter_eq_empty_iff]
  exact fun j hj => h j (Finset.mem_range.mp hj)

theorem count_only_zero (hn : 0 < n) (h0 : P 0) (h : ∀ j < n, j ≠ 0 → ¬ P j) :
    Nat.count P n = 1 := by
  have hgain := count_gain (P := fun _ => False) hn not_false h0 fun j hj hne =>
    iff_of_false (h j hj hne) not_false
  rw [hgain, count_zero fun _ _ => not_false]

/-- The entries that satisfy the predicate and those that do not make up the table. -/
theorem count_compl (h : ∀ j, Q j ↔ ¬ P j) (n : Nat) : Nat.count P n + Nat.count Q n = n := by
  have hcompl : (Finset.range n).filter Q = (Finset.range n).filter fun j => ¬ P j :=
    Finset.filter_congr fun j _ => h j
  rw [Nat.count_eq_card_filter_range, Nat.count_eq_card_filter_range, hcompl,
    Finset.card_filter_add_card_filter_not, Finset.card_range]

/-- Two counts are equal if the entries of one table correspond one to one to those
of the other. -/
theorem count_bij (f : Nat → Nat) (maps : ∀ i < n, P i → f i < m ∧ Q (f i))
    (inj : ∀ i < n, ∀ j < n, P i → P j → f i = f j → i = j)
    (surj : ∀ k < m, Q k → ∃ i < n, P i ∧ f i = k) : Nat.count P n = Nat.count Q m := by
  rw [Nat.count_eq_card_filter_range, Nat.count_eq_card_filter_range]
  refine Finset.card_bij (fun i _ => f i) (fun i hi => ?_) (fun i hi j hj heq => ?_)
    fun k hk => ?_
  · rw [Finset.mem_filter, Finset.mem_range] at hi ⊢
    exact maps i hi.1 hi.2
  · rw [Finset.mem_filter, Finset.mem_range] at hi hj
    exact inj i hi.1 j hj.1 hi.2 hj.2 heq
  · rw [Finset.mem_filter, Finset.mem_range] at hk
    obtain ⟨i, hi, hP, hf⟩ := surj k hk.1 hk.2
    exact ⟨i, by rw [Finset.mem_filter, Finset.mem_range]; exact ⟨hi, hP⟩, hf⟩

/-- Entries of one table that correspond to entries of another one, no two to the
same, are no more than those. -/
theorem count_le_of_rel (R : Nat → Nat → Prop)
    (total : ∀ i < n, P i → ∃ k < m, Q k ∧ R i k)
    (inj : ∀ i < n, ∀ j < n, ∀ k, R i k → R j k → i = j) : Nat.count P n ≤ Nat.count Q m := by
  classical
  have hchoose : ∀ i, ∃ k, i < n → P i → k < m ∧ Q k ∧ R i k := by
    intro i
    by_cases h : i < n ∧ P i
    · obtain ⟨k, hk⟩ := total i h.1 h.2
      exact ⟨k, fun _ _ => hk⟩
    · exact ⟨0, fun hi hP => absurd ⟨hi, hP⟩ h⟩
  choose f hf using hchoose
  rw [Nat.count_eq_card_filter_range, Nat.count_eq_card_filter_range]
  refine Finset.card_le_card_of_injOn f (fun i hi => ?_) fun i hi j hj heq => ?_
  · rw [Finset.mem_coe, Finset.mem_filter, Finset.mem_range] at hi ⊢
    exact ⟨(hf i hi.1 hi.2).1, (hf i hi.1 hi.2).2.1⟩
  · rw [Finset.mem_coe, Finset.mem_filter, Finset.mem_range] at hi hj
    exact inj i hi.1 j hj.1 (f i) (hf i hi.1 hi.2).2.2 (heq ▸ (hf j hj.1 hj.2).2.2)

/-- The count after one entry of a table is replaced. -/
theorem count_update {β : Type*} (f : β → Bool) (table : Nat → β) (hi : i < n) (x : β) :
    Nat.count (fun j => f (Function.update table i x j) = true) n + (f (table i)).toNat
      = Nat.count (fun j => f (table j) = true) n + (f x).toNat := by
  have hother : ∀ j < n, j ≠ i → (f (Function.update table i x j) = true ↔ f (table j) = true) :=
    fun j _ hj => by rw [Function.update_of_ne hj]
  cases hold : f (table i) <;> cases hnew : f x
  · refine congrArg (· + 0) (count_congr fun j hj => ?_)
    by_cases hji : j = i
    · subst hji
      rw [Function.update_self, hold, hnew]
    · exact hother j hj hji
  · have := count_gain hi (by rw [hold]; simp)
      (show f (Function.update table i x i) = true by rw [Function.update_self, hnew]) hother
    simpa using this
  · have := count_gain hi
      (show ¬ f (Function.update table i x i) = true by rw [Function.update_self, hnew]; simp)
      hold fun j hj hji => (hother j hj hji).symm
    simpa using this.symm
  · refine congrArg (· + 1) (count_congr fun j hj => ?_)
    by_cases hji : j = i
    · subst hji
      rw [Function.update_self, hold, hnew]
    · exact hother j hj hji

end Count

end FirstFit
