import Mathlib.Logic.Relation

/-!
# Runs of a partial step function

A machine is a partial step function `step : σ → ε → Option σ`: an event `ε`
either fires in a state and gives the next state, or is not enabled. The runs
of interest are often those whose steps all meet a condition `ok` on the state
before the step and the event.

Results:
1. `Reaches.invariant`: what holds initially and is kept by every step that
   meets the condition holds in every state reached.
2. `Reaches.of_exec`: a concrete list of events that fires and meets the
   condition reaches its final state.
3. `exec_determined`: where one event is the machine's own, the others decide the run.
4. `Reaches.project`: a part of a machine only reaches what it reaches alone.
5. `Reaches.of_drive`: an environment that picks the next event from the state reaches
   the state in which it is done.
6. `Passes.next`: a step that a run has made stays behind it.
7. `Reaches.noted`: a record that is kept beside the machine follows every run.
8. `countP_le_rank`: what each of some events lowers, and no other event raises, bounds how
   many of them a run has.
-/

namespace Transition

variable {σ ε : Type*}

/-- `Reaches step ok s t`: some run from `s` to `t` has only steps that meet
`ok`. -/
inductive Reaches (step : σ → ε → Option σ) (ok : σ → ε → Prop) (s : σ) : σ → Prop
  | refl : Reaches step ok s s
  | next {t u : σ} {e : ε} : Reaches step ok s t → ok t e → step t e = some u →
      Reaches step ok s u

/-- The condition that every step meets. -/
def anyStep (_ : σ) (_ : ε) : Prop := True

/-- Run a list of events, stopping at the first one that is not enabled. -/
def exec (step : σ → ε → Option σ) : σ → List ε → Option σ
  | s, [] => some s
  | s, e :: es => (step s e).bind fun t => exec step t es

/-- Every event of the list meets `ok` in the state it fires in. -/
def execOk (step : σ → ε → Option σ) (ok : σ → ε → Prop) : σ → List ε → Prop
  | _, [] => True
  | s, e :: es => ok s e ∧ ∀ t, step s e = some t → execOk step ok t es

/-- At most `n` steps, each on the event that `choose` picks, until the machine is
`done`; none if it is not done by then or the event does not fire. -/
def drive (step : σ → ε → Option σ) (choose : σ → ε) (done : σ → Bool) : Nat → σ → Option σ
  | 0, s => if done s then some s else none
  | n + 1, s => if done s then some s else (step s (choose s)).bind (drive step choose done n)

/-- Some step of a run from `s` to `t` is as `R` says. -/
def Passes (step : σ → ε → Option σ) (ok : σ → ε → Prop) (R : σ → ε → σ → Prop) (s t : σ) : Prop :=
  ∃ x e y, Reaches step ok s x ∧ ok x e ∧ step x e = some y ∧ R x e y ∧ Reaches step ok y t

/-- The machine with a record beside its state, which no step reads. -/
def noted {γ : Type*} (step : σ → ε → Option σ) (note : σ → ε → σ → γ → γ) (s : σ × γ) (e : ε) :
    Option (σ × γ) :=
  (step s.1 e).map fun t => (t, note s.1 e t s.2)

variable {step : σ → ε → Option σ} {ok : σ → ε → Prop} {s t u : σ}

theorem Reaches.invariant {I : σ → Prop} (h : Reaches step ok s t) (start : I s)
    (keep : ∀ t e u, I t → ok t e → step t e = some u → I u) : I t := by
  induction h with
  | refl => exact start
  | next _ hok hstep ih => exact keep _ _ _ ih hok hstep

theorem Reaches.trans (h : Reaches step ok s t) (h' : Reaches step ok t u) :
    Reaches step ok s u := by
  induction h' with
  | refl => exact h
  | next _ hok hstep ih => exact ih.next hok hstep

theorem Reaches.mono {ok' : σ → ε → Prop} (h : Reaches step ok s t)
    (imp : ∀ t e, ok t e → ok' t e) : Reaches step ok' s t := by
  induction h with
  | refl => exact .refl
  | next _ hok hstep ih => exact ih.next (imp _ _ hok) hstep

/-- Where an invariant gives a stronger condition, the run has it. -/
theorem Reaches.strengthen {ok' : σ → ε → Prop} {I : σ → Prop}
    (h : Reaches step ok s t) (start : I s)
    (keep : ∀ t e u, I t → ok t e → step t e = some u → I u ∧ ok' t e) :
    I t ∧ Reaches step ok' s t := by
  induction h with
  | refl => exact ⟨start, .refl⟩
  | next _ hok hstep ih =>
    obtain ⟨hi, hok'⟩ := keep _ _ _ ih.1 hok hstep
    exact ⟨hi, ih.2.next hok' hstep⟩

/-- A part of a machine that is a machine: what the whole does to it, if anything, is a step
of the part. So the part only reaches what it reaches alone. -/
theorem Reaches.project {σ' ε' : Type*} {step' : σ' → ε' → Option σ'}
    {ok' : σ' → ε' → Prop} {part : σ → σ'}
    (h : Reaches step ok s t) (steps : ∀ t e u, ok t e → step t e = some u →
      part u = part t ∨ ∃ e', ok' (part t) e' ∧ step' (part t) e' = some (part u)) :
    Reaches step' ok' (part s) (part t) := by
  induction h with
  | refl => exact .refl
  | next _ hok hstep ih =>
    rcases steps _ _ _ hok hstep with hsame | ⟨e', hok', hstep'⟩
    · rwa [hsame]
    · exact ih.next hok' hstep'

theorem Passes.next {R : σ → ε → σ → Prop} {e : ε} (h : Passes step ok R s t) (hok : ok t e)
    (hs : step t e = some u) :
    Passes step ok R s u := by
  obtain ⟨x, d, y, hx, hd, hxy, hr, hy⟩ := h
  exact ⟨x, d, y, hx, hd, hxy, hr, hy.next hok hs⟩

section Noted

variable {γ : Type*} {note : σ → ε → σ → γ → γ}

theorem Reaches.noted (h : Reaches step ok s t) (r : γ) :
    ∃ r', Reaches (noted step note) (fun s e => ok s.1 e) (s, r) (t, r') := by
  induction h with
  | refl => exact ⟨r, .refl⟩
  | next _ hok hs ih =>
    obtain ⟨r', hrun⟩ := ih
    exact ⟨_, hrun.next hok (congrArg (Option.map _) hs)⟩

end Noted

theorem Reaches.of_exec {es : List ε} (run : exec step s es = some t)
    (meets : execOk step ok s es) : Reaches step ok s t := by
  induction es generalizing s with
  | nil =>
    simp only [exec, Option.some.injEq] at run
    subst run
    exact .refl
  | cons e es ih =>
    simp only [exec] at run
    obtain ⟨u, hu, rest⟩ := Option.bind_eq_some_iff.mp run
    exact (Reaches.refl.next meets.1 hu).trans (ih rest (meets.2 u hu))

instance execOk.decidable [∀ s e, Decidable (ok s e)] :
    ∀ s es, Decidable (execOk step ok s es)
  | _, [] => isTrue trivial
  | s, e :: es =>
    have : Decidable (∀ t, step s e = some t → execOk step ok t es) :=
      match step s e with
      | none => isTrue fun _ ht => nomatch ht
      | some t =>
        have := execOk.decidable t es
        decidable_of_iff (execOk step ok t es)
          ⟨fun h _ ht => Option.some.inj ht ▸ h, fun h => h t rfl⟩
    inferInstanceAs (Decidable (ok s e ∧ ∀ t, step s e = some t → execOk step ok t es))

theorem execOk_anyStep (s : σ) (es : List ε) : execOk step anyStep s es := by
  induction es generalizing s with
  | nil => trivial
  | cons e es ih => exact ⟨trivial, fun t _ => ih t⟩

theorem countP_le_rank (rank : σ → Nat) (mine : ε → Bool) (I : σ → Prop) {es : List ε}
    (run : exec step s es = some t) (meets : execOk step ok s es) (start : I s)
    (keep : ∀ s e t, I s → ok s e → step s e = some t → I t)
    (lowers : ∀ s e t, I s → ok s e → step s e = some t → mine e = true → rank t < rank s)
    (beside : ∀ s e t, I s → ok s e → step s e = some t → mine e = false → rank t ≤ rank s) :
    es.countP mine + rank t ≤ rank s := by
  induction es generalizing s with
  | nil =>
    obtain rfl := Option.some.inj run
    exact Nat.le_of_eq (Nat.zero_add _)
  | cons e es ih =>
    obtain ⟨u, hu, hrest⟩ := Option.bind_eq_some_iff.mp run
    have hle := ih hrest (meets.2 u hu) (keep s e u start meets.1 hu)
    cases hmine : mine e with
    | true =>
      have hlt := lowers s e u start meets.1 hu hmine
      rw [List.countP_cons_of_pos hmine]
      omega
    | false =>
      have hno := beside s e u start meets.1 hu hmine
      rw [List.countP_cons_of_neg (by rw [hmine]; decide)]
      omega

/-- A run stays inside of `P`, or leaves it on the way. -/
theorem execOk_or_leaves {P : σ → Prop} {es : List ε} (run : exec step s es = some t)
    (meets : execOk step ok s es) :
    execOk step (fun s e => ok s e ∧ P s) s es ∨ ∃ es' u, es' <+: es ∧
    exec step s es' = some u ∧ ¬ P u := by
  induction es generalizing s with
  | nil => exact .inl trivial
  | cons e es ih =>
    obtain ⟨u, hu, hrest⟩ := Option.bind_eq_some_iff.mp run
    by_cases hin : P s
    · rcases ih hrest (meets.2 u hu) with hstays | ⟨es', v, hprefix, hv, hout⟩
      · refine .inl ⟨⟨meets.1, hin⟩, fun u' hu' => ?_⟩
        obtain rfl := Option.some.inj (hu.symm.trans hu')
        exact hstays
      · refine .inr ⟨e :: es', v, List.cons_prefix_cons.mpr ⟨rfl, hprefix⟩, ?_, hout⟩
        rw [exec, hu]
        exact hv
    · exact .inr ⟨[], s, List.nil_prefix, rfl, hin⟩

/-! ## Events that come from outside -/

theorem exec_cons {e : ε} (h : step s e = some t) (es : List ε) :
    exec step s (e :: es) = exec step t es := by
  rw [exec, h]
  rfl

/-- The event `τ` comes from within: where it fires no other one does. Two runs that get the
same events from outside, up to states where `τ` does not fire, end in one state. -/
theorem exec_determined [DecidableEq ε] {τ : ε}
    (hτ : ∀ s t e, step s τ = some t → e ≠ τ → step s e = none)
    {es es' : List ε} (h : exec step s es = some t) (h' : exec step s es' = some u)
    (hsame : es.filter (· ≠ τ) = es'.filter (· ≠ τ)) (ht : step t τ = none)
    (hu : step u τ = none) : t = u := by
  have hcons : ∀ {s t : σ} {e : ε} {es : List ε}, exec step s (e :: es) = some t →
      ∃ v, step s e = some v ∧ exec step v es = some t := fun h => Option.bind_eq_some_iff.mp h
  induction es generalizing s es' with
  | nil =>
    obtain rfl := Option.some.inj h
    cases es' with
    | nil => exact Option.some.inj h'
    | cons e' es' =>
      obtain ⟨v, hv, -⟩ := hcons h'
      by_cases he : e' = τ
      · rw [he, ht] at hv
        cases hv
      · rw [List.filter_cons_of_pos (by simpa using he)] at hsame
        cases hsame
  | cons e es ih =>
    obtain ⟨v, hv, hrest⟩ := hcons h
    cases es' with
    | nil =>
      obtain rfl := Option.some.inj h'
      by_cases he : e = τ
      · rw [he, hu] at hv
        cases hv
      · rw [List.filter_cons_of_pos (by simpa using he)] at hsame
        cases hsame
    | cons e' es' =>
      obtain ⟨v', hv', hrest'⟩ := hcons h'
      by_cases he : e = τ
      · by_cases he' : e' = τ
        · rw [he] at hv
          rw [he', hv] at hv'
          obtain rfl := Option.some.inj hv'
          rw [he, he', List.filter_cons_of_neg (by simp),
            List.filter_cons_of_neg (by simp)] at hsame
          exact ih hrest hrest' hsame
        · rw [hτ s v e' (he ▸ hv) he'] at hv'
          cases hv'
      · by_cases he' : e' = τ
        · rw [hτ s v' e (he' ▸ hv') he] at hv
          cases hv
        · rw [List.filter_cons_of_pos (by simpa using he),
            List.filter_cons_of_pos (by simpa using he')] at hsame
          obtain ⟨rfl, htail⟩ := List.cons.inj hsame
          rw [hv] at hv'
          obtain rfl := Option.some.inj hv'
          exact ih hrest hrest' htail

/-! ## An environment that picks the events -/

variable {choose : σ → ε} {done : σ → Bool} {n : Nat}

theorem drive_done (h : done s = true) : drive step choose done n s = some s := by
  cases n <;> exact if_pos h

theorem drive_next (h : done s = false) (hs : step s (choose s) = some t) :
    drive step choose done (n + 1) s = drive step choose done n t := by
  rw [drive, h, hs]
  rfl

/-- The invariant `I` is kept while the machine is driven, and gives the condition. -/
theorem Reaches.of_drive_of {I : σ → Prop} (h : drive step choose done n s = some t) (start : I s)
    (keep : ∀ u v, I u → done u = false → step u (choose u) = some v → I v)
    (meets : ∀ u, I u → done u = false → ok u (choose u)) : Reaches step ok s t := by
  induction n generalizing s with
  | zero =>
    unfold drive at h
    split at h
    · exact Option.some.inj h ▸ .refl
    · cases h
  | succ n ih =>
    unfold drive at h
    split at h
    · exact Option.some.inj h ▸ .refl
    · next hdone =>
      obtain ⟨u, hu, rest⟩ := Option.bind_eq_some_iff.mp h
      have hnot : done s = false := by simpa using hdone
      exact (Reaches.refl.next (meets s start hnot) hu).trans (ih rest (keep s u start hnot hu))

theorem Reaches.of_drive (h : drive step choose done n s = some t)
    (meets : ∀ u, done u = false → ok u (choose u)) : Reaches step ok s t :=
  .of_drive_of (I := fun _ => True) h trivial (fun _ _ _ _ _ => trivial) fun u _ => meets u

end Transition
