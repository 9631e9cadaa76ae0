import Mathlib.Data.List.Basic
import Mathlib.Data.List.TakeWhile

/-!
# Lines of a text

A text is a sequence of characters, one of which is the newline. Each newline ends a
line, and what comes behind the last one is a line of its own if there is anything.

Results:
1. `lines_line`, `lines_last`: the first line of a text, and an unterminated line.
2. `lines_induction`: every text is empty, an unterminated line, or a line in front of
   a text.
3. `closed_eq_self_iff`: the texts in which every line is terminated.
-/

namespace TextLines

variable {α : Type*} {newline : α} {line rest text : List α}

section Lines

variable [DecidableEq α]

/-- The lines of a text, without their newlines. -/
def lines (newline : α) : List α → List (List α)
  | [] => []
  | c :: text =>
    if c = newline then [] :: lines newline text
    else
      match lines newline text with
      | [] => [[c]]
      | line :: others => (c :: line) :: others

/-- The line up to the first newline. -/
theorem lines_line (h : newline ∉ line) (rest : List α) :
    lines newline (line ++ newline :: rest) = line :: lines newline rest := by
  induction line with
  | nil => rw [List.nil_append, lines, if_pos rfl]
  | cons c line ih =>
    obtain ⟨hc, hline⟩ := List.ne_and_not_mem_of_not_mem_cons h
    rw [List.cons_append, lines, if_neg (Ne.symm hc), ih hline]

/-- A text without newlines is one line. -/
theorem lines_last (hne : line ≠ []) (h : newline ∉ line) : lines newline line = [line] := by
  induction line with
  | nil => exact absurd rfl hne
  | cons c line ih =>
    obtain ⟨hc, hline⟩ := List.ne_and_not_mem_of_not_mem_cons h
    rw [lines, if_neg (Ne.symm hc)]
    cases line with
    | nil => rfl
    | cons d line => rw [ih (List.cons_ne_nil d line) hline]

/-- Induction over the lines of a text. -/
@[elab_as_elim]
theorem lines_induction (newline : α) {motive : List α → Prop} (text : List α) (nil : motive [])
    (last : ∀ line, line ≠ [] → newline ∉ line → motive line)
    (line : ∀ line rest, newline ∉ line → motive rest → motive (line ++ newline :: rest)) :
    motive text := by
  induction hlen : text.length using Nat.strong_induction_on generalizing text with
  | _ n ih =>
    by_cases hmem : newline ∈ text
    · obtain ⟨first, rest, rfl, hfirst⟩ := List.eq_append_cons_of_mem hmem
      have hlt : rest.length < n := by
        rw [← hlen, List.length_append, List.length_cons]
        exact Nat.lt_of_lt_of_le (Nat.lt_succ_self _) (Nat.le_add_left _ _)
      exact line first rest hfirst (ih _ hlt rest rfl)
    · cases text with
      | nil => exact nil
      | cons c text => exact last _ (List.cons_ne_nil c text) hmem

end Lines

/-! ## Terminated lines -/

/-- The text with a newline in the place of its last character. -/
def closed (newline : α) : List α → List α
  | [] => []
  | [_] => [newline]
  | c :: d :: text => c :: closed newline (d :: text)

theorem closed_last (hne : line ≠ []) : closed newline line = line.dropLast ++ [newline] := by
  induction line with
  | nil => exact absurd rfl hne
  | cons c line ih =>
    cases line with
    | nil => rfl
    | cons d line => rw [closed, ih (List.cons_ne_nil d line)]; rfl

theorem closed_line (line rest : List α) :
    closed newline (line ++ newline :: rest) = line ++ newline :: closed newline rest := by
  induction line with
  | nil => cases rest <;> rfl
  | cons c line ih =>
    have hne : line ++ newline :: rest ≠ [] :=
      List.append_ne_nil_of_right_ne_nil _ (List.cons_ne_nil _ _)
    obtain ⟨d, text, htext⟩ := List.exists_cons_of_ne_nil hne
    rw [List.cons_append, List.cons_append, ← ih, htext]
    rfl

/-- Every line of the text is terminated: it is empty, or its last character is a newline. -/
theorem closed_eq_self_iff :
    closed newline text = text ↔ text = [] ∨ text.getLast? = some newline := by
  rcases List.eq_nil_or_concat' text with rfl | ⟨init, c, rfl⟩
  · exact iff_of_true rfl (Or.inl rfl)
  · have hne : init ++ [c] ≠ [] := List.append_ne_nil_of_right_ne_nil _ (List.cons_ne_nil _ _)
    rw [closed_last hne, List.dropLast_concat, List.getLast?_concat, List.append_cancel_left_eq,
      List.cons.injEq, Option.some.injEq]
    exact ⟨fun h => Or.inr h.1.symm, fun h => ⟨(h.resolve_left hne).symm, rfl⟩⟩

end TextLines
