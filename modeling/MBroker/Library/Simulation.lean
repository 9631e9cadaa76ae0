import MBroker.Library.Runs

/-!
# Forward simulation with labels

A partial step function shows a label on some of its steps and nothing on the others. An
abstract machine is a relation over labels. A relation between the states of both is a
simulation when each labelled step is matched by the abstract step of that label, and each
other step by no step at all.

Result: `Simulation.run`, the labels of every run are those of an abstract run, and the states
reached are related.
-/

namespace Transition

variable {σ ε τ ω : Type*}

/-- The labels that a list of events shows. -/
def labels (step : σ → ε → Option σ) (label : σ → ε → Option ω) : σ → List ε → List ω
  | _, [] => []
  | s, e :: es => (label s e).toList ++ (step s e).elim [] fun t => labels step label t es

/-- The runs of the abstract machine. -/
inductive Steps (next : τ → ω → τ → Prop) : τ → List ω → τ → Prop
  | nil {a : τ} : Steps next a [] a
  | cons {a b c : τ} {o : ω} {os : List ω} :
    next a o b → Steps next b os c → Steps next a (o :: os) c

/-- What the abstract machine does while the concrete one shows the label, or nothing. -/
def Matches (next : τ → ω → τ → Prop) (a : τ) : Option ω → τ → Prop
  | some o, b => next a o b
  | none, b => b = a

/-- Each concrete step is matched. -/
structure Simulation (step : σ → ε → Option σ) (label : σ → ε → Option ω)
    (next : τ → ω → τ → Prop) (R : σ → τ → Prop) : Prop where
  matched : ∀ s e t a, R s a → step s e = some t → ∃ b, Matches next a (label s e) b ∧ R t b

variable {step : σ → ε → Option σ} {label : σ → ε → Option ω} {next : τ → ω → τ → Prop}
  {R : σ → τ → Prop}

theorem Steps.of_matches {a b c : τ} {o : Option ω} {os : List ω} (h : Matches next a o b)
    (rest : Steps next b os c) : Steps next a (o.toList ++ os) c := by
  cases o with
  | some o => exact .cons h rest
  | none =>
    obtain rfl : b = a := h
    exact rest

theorem Simulation.run (sim : Simulation step label next R) {s t : σ} {a : τ} {es : List ε}
    (related : R s a) (run : exec step s es = some t) :
    ∃ b, Steps next a (labels step label s es) b ∧ R t b := by
  induction es generalizing s a with
  | nil =>
    obtain rfl : s = t := Option.some.inj run
    exact ⟨a, .nil, related⟩
  | cons e es ih =>
    obtain ⟨u, hu, rest⟩ := Option.bind_eq_some_iff.mp run
    obtain ⟨b, hmatch, hrelated⟩ := sim.matched s e u a related hu
    obtain ⟨c, hsteps, hend⟩ := ih hrelated rest
    refine ⟨c, ?_, hend⟩
    rw [labels, hu]
    exact Steps.of_matches hmatch hsteps

end Transition
