import Mathlib.Data.List.Perm.Basic
import Mathlib.Data.List.Perm.Subperm
import Mathlib.Logic.Function.Basic

/-!
# Items in several hands

Parties `0, 1, …` each hold a list of items. `total` is what the first `n` of them hold
together. Items change hands one list at a time, so what is said about all of them is up to
order.

Results:
1. `total_update`: one party's items are exchanged for others.
2. `exists_subperm`: where two lists are related item by item, what is in the one is related
   to as many items of the other.
-/

namespace Holders

open List

variable {α β : Type*} {f g : Nat → List α} {c n : Nat}

/-- Everything that the first `n` parties hold. -/
def total (f : Nat → List α) (n : Nat) : List α := (List.range n).flatMap f

theorem total_succ (f : Nat → List α) (n : Nat) : total f (n + 1) = total f n ++ f n := by
  rw [total, List.range_succ, List.flatMap_append, List.flatMap_singleton]
  rfl

theorem total_congr (h : ∀ v < n, f v = g v) : total f n = total g n := by
  induction n with
  | zero => rfl
  | succ n ih =>
    rw [total_succ, total_succ, ih fun v hv => h v (Nat.lt_succ_of_lt hv), h n (Nat.lt_succ_self n)]

theorem total_nil (h : ∀ v < n, f v = []) : total f n = [] :=
  List.flatMap_eq_nil_iff.mpr fun v hv => h v (List.mem_range.mp hv)

theorem append_swap (l l₁ l₂ : List α) : l ++ l₁ ++ l₂ ~ l ++ l₂ ++ l₁ := by
  rw [List.append_assoc, List.append_assoc]
  exact perm_append_comm.append_left l

/-- A party gives away what it holds and gets `l` for it. -/
theorem total_update (hc : c < n) (l : List α) :
    total (Function.update f c l) n ++ f c ~ total f n ++ l := by
  induction n with
  | zero => exact absurd hc (Nat.not_lt_zero c)
  | succ n ih =>
    rw [total_succ, total_succ]
    rcases Nat.eq_or_lt_of_le (Nat.le_of_lt_succ hc) with rfl | hlt
    · have hsame : total (Function.update f c l) c = total f c :=
        total_congr fun v hv => Function.update_of_ne (Nat.ne_of_lt hv) ..
      rw [hsame, Function.update_self]
      exact append_swap ..
    · rw [Function.update_of_ne (Nat.ne_of_gt hlt)]
      calc total (Function.update f c l) n ++ f n ++ f c
          ~ total (Function.update f c l) n ++ f c ++ f n := append_swap ..
        _ ~ total f n ++ l ++ f n := (ih hlt).append_right _
        _ ~ total f n ++ f n ++ l := append_swap ..

/-! ## Items that are there -/

theorem filterMap_map_some (l : List α) : (l.map some).filterMap id = l := by
  rw [List.filterMap_map]
  exact List.filterMap_some

theorem perm_of_map_some {l₁ l₂ : List α} (h : l₁.map some ~ l₂.map some) : l₁ ~ l₂ := by
  simpa only [filterMap_map_some] using h.filterMap id

theorem sublist_of_map_some {l₁ l₂ : List α} (h : l₁.map some <+ l₂.map some) : l₁ <+ l₂ := by
  simpa only [filterMap_map_some] using h.filterMap id

theorem prefix_of_map_some {l₁ l₂ : List α} (h : l₁.map some <+: l₂.map some) : l₁ <+: l₂ := by
  simpa only [filterMap_map_some] using h.filterMap id

theorem subperm_of_map_some {l₁ l₂ : List α} (h : l₁.map some <+~ l₂.map some) : l₁ <+~ l₂ := by
  obtain ⟨l, hperm, hsub⟩ := h
  refine ⟨l.filterMap id, ?_, ?_⟩
  · simpa only [filterMap_map_some] using hperm.filterMap id
  · simpa only [filterMap_map_some] using hsub.filterMap id

/-! ## Lists that are related item by item -/

variable {R : α → β → Prop} {as : List α} {bs cs : List β}

theorem exists_sublist (h : Forall₂ R as bs) (hsub : cs <+ bs) :
    ∃ ds, ds <+ as ∧ Forall₂ R ds cs := by
  induction hsub generalizing as with
  | slnil => exact ⟨[], nil_sublist as, .nil⟩
  | cons b _ ih =>
    cases h with
    | cons _ hrest =>
      obtain ⟨ds, hds, hrel⟩ := ih hrest
      exact ⟨ds, hds.cons _, hrel⟩
  | cons_cons b _ ih =>
    cases h with
    | cons hfirst hrest =>
      obtain ⟨ds, hds, hrel⟩ := ih hrest
      exact ⟨_, hds.cons_cons _, .cons hfirst hrel⟩

theorem exists_mem (h : Forall₂ R as bs) {b : β} (hb : b ∈ bs) : ∃ a ∈ as, R a b := by
  obtain ⟨ds, hds, hrel⟩ := exists_sublist h (singleton_sublist.mpr hb)
  cases hrel with
  | @cons a _ _ _ hfirst _ => exact ⟨a, hds.subset mem_cons_self, hfirst⟩

theorem exists_subperm (h : Forall₂ R as bs) (hsub : cs <+~ bs) :
    ∃ ds, ds <+~ as ∧ Forall₂ R ds cs := by
  obtain ⟨ls, hperm, hls⟩ := hsub
  obtain ⟨es, hes, hrel⟩ := exists_sublist h hls
  obtain ⟨ds, hds, hperm'⟩ := perm_comp_forall₂ hperm.symm hrel.flip
  exact ⟨ds, hperm'.subperm.trans hes.subperm, hds.flip⟩

end Holders
