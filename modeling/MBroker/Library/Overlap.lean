import MBroker.Library.Runs
import Mathlib.Logic.Function.Basic

/-!
# Steps that take time

In a machine of threads a step is made at once. Here it takes time: the thread begins it,
perhaps waits in a call for its answer, has its answer, and ends it. In between the others
go on. What a step does is what the machine says as long as it clashes with no other one that
is being carried out; where two clash, anything may come of it.

Results:
1. `Timed.moves_of_timed`: an event leaves the state of the machine, or makes a step of it.
2. `Reaches.of_timed`: a run in which no two steps clash is a run of the machine.
3. `Reaches.timed`: a run of the machine is one in which each step has ended before the next
   one is begun.
-/

namespace Transition

variable {σ ι α κ : Type*}

/-- A machine of threads. A thread that begins a step takes a `note`, and `allows` says which
answers it can get then. -/
structure Threads (σ ι α κ : Type*) where
  step : σ → ι × α → Option σ
  note : σ → ι → κ
  allows : κ → α → Bool
  /-- the two steps are not safe beside each other -/
  clash : σ → ι × α → ι × α → Bool

/-- The steps that are under way: of each the note, and the answer once the thread has it. -/
structure Timed (σ ι α κ : Type*) where
  state : σ
  under : ι → Option (κ × Option α)

inductive TimedEvent (σ ι α κ : Type*)
  | begins (i : ι)
  | answered (i : ι) (a : α)
  | ends (i : ι)
  /-- the steps of `i` and `j` clash, and this comes of it -/
  | undefined (i j : ι) (next : Timed σ ι α κ)

namespace Timed

/-- No step is under way. -/
def quiet (s : σ) : Timed σ ι α κ := ⟨s, fun _ => none⟩

/-- Only the step of `i` is under way. -/
def one [DecidableEq ι] (s : σ) (i : ι) (x : κ × Option α) : Timed σ ι α κ :=
  ⟨s, Function.update (fun _ => none) i (some x)⟩

/-- A step ends while no other thread carries out one. -/
def Alone (s : Timed σ ι α κ) (e : TimedEvent σ ι α κ) : Prop :=
  ∀ i, e = .ends i → ∀ j, j ≠ i → s.under j = none

end Timed

namespace Threads

variable [DecidableEq ι] (m : Threads σ ι α κ)

/-- Both threads carry out steps, and these clash. -/
def clashing (s : Timed σ ι α κ) (i j : ι) : Bool :=
  match s.under i, s.under j with
  | some (_, some a), some (_, some c) => i ≠ j && m.clash s.state (i, a) (j, c)
  | _, _ => false

def timed (s : Timed σ ι α κ) : TimedEvent σ ι α κ → Option (Timed σ ι α κ)
  | .begins i =>
    match s.under i with
    | none => some { s with under := Function.update s.under i (some (m.note s.state i, none)) }
    | some _ => none
  | .answered i a =>
    match s.under i with
    | some (k, none) =>
      if m.allows k a && (m.step s.state (i, a)).isSome then
        some { s with under := Function.update s.under i (some (k, some a)) }
      else none
    | _ => none
  | .ends i =>
    match s.under i with
    | some (_, some a) =>
      (m.step s.state (i, a)).map fun t => ⟨t, Function.update s.under i none⟩
    | _ => none
  | .undefined i j next => if m.clashing s i j then some next else none

/-- No two steps clash, and a step that ends meets `ok` then. -/
structure Meets (ok : σ → ι × α → Prop) (s : Timed σ ι α κ) (e : TimedEvent σ ι α κ) : Prop where
  calm : ∀ i j, m.clashing s i j = false
  ends : ∀ i k a, e = .ends i → s.under i = some (k, some a) → ok s.state (i, a)

/-- What an event does that no clash is behind. -/
inductive Moves (s : Timed σ ι α κ) : TimedEvent σ ι α κ → Timed σ ι α κ → Prop
  | begins {i : ι} : s.under i = none → Moves s (.begins i)
      ⟨s.state, Function.update s.under i (some (m.note s.state i, none))⟩
  | answered {i : ι} {a : α} {k : κ} : s.under i = some (k, none) → m.allows k a = true →
      (m.step s.state (i, a)).isSome = true →
      Moves s (.answered i a) ⟨s.state, Function.update s.under i (some (k, some a))⟩
  | ends {i : ι} {a : α} {k : κ} {t : σ} : s.under i = some (k, some a) →
      m.step s.state (i, a) = some t → Moves s (.ends i) ⟨t, Function.update s.under i none⟩

variable {m} {ok : σ → ι × α → Prop} {s t : Timed σ ι α κ} {e : TimedEvent σ ι α κ}

theorem moves_of_timed (calm : ∀ i j, m.clashing s i j = false) (hs : m.timed s e = some t) :
    m.Moves s e t := by
  cases e with
  | begins i =>
    unfold timed at hs
    dsimp only at hs
    split at hs
    · next hunder => exact Option.some.inj hs ▸ .begins hunder
    · cases hs
  | answered i a =>
    unfold timed at hs
    dsimp only at hs
    split at hs
    · next k hunder =>
      obtain ⟨hboth, hs⟩ := Option.ite_none_right_eq_some.mp hs
      obtain ⟨hallows, hstep⟩ := Bool.and_eq_true_iff.mp hboth
      exact Option.some.inj hs ▸ .answered hunder hallows hstep
    · cases hs
  | ends i =>
    unfold timed at hs
    dsimp only at hs
    split at hs
    · next k a hunder =>
      obtain ⟨u, hu, rfl⟩ := Option.map_eq_some_iff.mp hs
      exact .ends hunder hu
    · cases hs
  | undefined i j next =>
    have hnone : m.timed s (.undefined i j next) = none := if_neg (by rw [calm i j]; decide)
    rw [hnone] at hs
    cases hs

/-- An event leaves the state of the machine as it is, or makes a step of it. -/
theorem Moves.state (h : m.Moves s e t) (hok : m.Meets ok s e) :
    t.state = s.state ∨ ∃ d, ok s.state d ∧ m.step s.state d = some t.state := by
  cases h with
  | begins => exact .inl rfl
  | answered => exact .inl rfl
  | @ends i a k u hunder hu => exact .inr ⟨(i, a), hok.ends i k a rfl hunder, hu⟩

end Threads

section Runs

variable [DecidableEq ι] {m : Threads σ ι α κ} {ok : σ → ι × α → Prop}

theorem Reaches.of_timed {s t : Timed σ ι α κ} (h : Reaches m.timed (m.Meets ok) s t) :
    Reaches m.step ok s.state t.state :=
  h.project fun _ _ _ hok hs => (Threads.moves_of_timed hok.calm hs).state hok

theorem Timed.one_self (s : σ) (i : ι) (x : κ × Option α) : (Timed.one s i x).under i = some x := by
  unfold Timed.one
  dsimp only
  rw [Function.update_self]

theorem Timed.one_of_ne (s : σ) {i j : ι} (x : κ × Option α) (h : j ≠ i) :
    (Timed.one s i x).under j = none := by
  unfold Timed.one
  dsimp only
  rw [Function.update_of_ne h]

/-- A step does not clash with itself. -/
theorem Timed.one_calm (s : σ) (i : ι) (x : κ × Option α) (j l : ι) :
    m.clashing (Timed.one s i x) j l = false := by
  unfold Threads.clashing
  split
  · next hj hl =>
    have honly : ∀ {j : ι} {y : κ × Option α}, (Timed.one s i x).under j = some y → j = i := by
      intro j y hj
      refine Decidable.byContradiction fun hne => ?_
      rw [Timed.one_of_ne s x hne] at hj
      cases hj
    rw [honly hj, honly hl, decide_eq_false (not_not_intro rfl), Bool.false_and]
  · rfl

section One

variable {s t : σ} {i : ι} {a : α} {k : κ}

theorem Timed.one_ends (hs : m.step s (i, a) = some t) :
    m.timed (Timed.one s i (k, some a)) (.ends i) = some (.quiet t) := by
  unfold Threads.timed
  dsimp only
  rw [Timed.one_self]
  refine (congrArg (Option.map _) hs).trans ?_
  unfold Timed.one Timed.quiet
  dsimp only [Option.map_some]
  rw [Function.update_idem, Function.update_eq_self_iff.mpr rfl]

theorem Timed.one_meets (hok : ok s (i, a)) : m.Meets ok (Timed.one s i (k, some a)) (.ends i) := by
  refine ⟨Timed.one_calm s i _, fun j l c he hunder => ?_⟩
  cases he
  rw [Timed.one_self] at hunder
  cases hunder
  exact hok

/-- A step begins and has its answer while the others wait. -/
theorem Reaches.timed_answered (hs : m.step s (i, a) = some t)
    (hallows : m.allows (m.note s i) a = true) :
    Reaches m.timed (fun s e => m.Meets ok s e ∧ s.Alone e) (.quiet s)
      (Timed.one s i (m.note s i, some a)) := by
  have hbegins : m.timed (.quiet s) (.begins i) = some (Timed.one s i (m.note s i, none)) := rfl
  have hanswered : m.timed (Timed.one s i (m.note s i, none)) (.answered i a)
      = some (Timed.one s i (m.note s i, some a)) := by
    unfold Threads.timed
    dsimp only
    rw [Timed.one_self]
    refine (if_pos ?_).trans ?_
    · rw [show (Timed.one s i (m.note s i, none)).state = s from rfl, hallows, hs]
      rfl
    · unfold Timed.one
      rw [Function.update_idem]
  have hbegun : m.Meets ok (.quiet s) (.begins i) ∧
      (Timed.quiet s : Timed σ ι α κ).Alone (.begins i) :=
    ⟨⟨fun _ _ => rfl, fun _ _ _ he => by cases he⟩, fun _ he => by cases he⟩
  have hgot : m.Meets ok (Timed.one s i (m.note s i, none)) (.answered i a) ∧
      (Timed.one s i (m.note s i, none)).Alone (.answered i a) :=
    ⟨⟨Timed.one_calm s i _, fun _ _ _ he => by cases he⟩, fun _ he => by cases he⟩
  have hfirst : Reaches m.timed (fun s e => m.Meets ok s e ∧ s.Alone e) (.quiet s)
      (Timed.one s i (m.note s i, none)) := Reaches.refl.next hbegun hbegins
  exact hfirst.next hgot hanswered

/-- A step begins, has its answer and ends while the others wait. -/
theorem Reaches.timed_one (hs : m.step s (i, a) = some t) (hok : ok s (i, a))
    (hallows : m.allows (m.note s i) a = true) :
    Reaches m.timed (fun s e => m.Meets ok s e ∧ s.Alone e) (.quiet s) (.quiet t) := by
  refine (Reaches.timed_answered hs hallows).next ⟨Timed.one_meets hok, fun j he l hne => ?_⟩
    (Timed.one_ends hs)
  cases he
  exact Timed.one_of_ne s _ hne

end One

theorem Reaches.timed {s t : σ}
    (h : Reaches m.step (fun s e => ok s e ∧ m.allows (m.note s e.1) e.2 = true) s t) :
    Reaches m.timed (fun s e => m.Meets ok s e ∧ s.Alone e) (.quiet s) (.quiet t) := by
  induction h with
  | refl => exact .refl
  | next _ hok hs ih => exact ih.trans (.timed_one hs hok.1 hok.2)

end Runs

end Transition
