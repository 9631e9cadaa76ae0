import MBroker.Queue.Order

/-!
# Where the elements are

An element is with its pusher until it is stored, and with the popper that took it until
`pcq_dequeue` returns. Nothing else happens to it, whatever the interleaving and however
many poppers there are.

Results:
1. `Next.carries`: what a step does to the elements at either end.
2. `Genuine.next`: what is taken was stored, unless the slot was never filled.
-/

namespace MBroker.Queue

open FirstFit Transition

variable {α : Type*}

/-- The element that a call of `pcq_enqueue` has not stored yet. -/
def PusherPc.entering : PusherPc α → List α
  | .testing elem | .asleep elem | .passed elem => [elem]
  | _ => []

/-- What a call of `pcq_dequeue` has taken and not returned yet. -/
def PopperPc.inHand : PopperPc α → List (Option α)
  | .taken elem | .signalling elem => [elem]
  | _ => []

/-- The event is a call of `pcq_enqueue`, or the section with which `pcq_dequeue` returns. -/
def Event.atEnds : Event α → Bool
  | .enqueue .. | .signalPusher .. => true
  | _ => false

namespace PcQueue

def entering (q : PcQueue α) (p : Nat) : List α := (q.pushers p).entering

def inHand (q : PcQueue α) (c : Nat) : List (Option α) := (q.poppers c).inHand

variable {q r : PcQueue α} {e : Event α} {p c : Nat}

theorem entering_setPusher (q : PcQueue α) (p : Nat) (pc : PusherPc α) :
    (q.setPusher p pc).entering = Function.update q.entering p pc.entering :=
  funext fun v => Function.apply_update (fun _ => PusherPc.entering) q.pushers p pc v

theorem inHand_setPopper (q : PcQueue α) (c : Nat) (pc : PopperPc α) :
    (q.setPopper c pc).inHand = Function.update q.inHand c pc.inHand :=
  funext fun v => Function.apply_update (fun _ => PopperPc.inHand) q.poppers c pc v

/-- A step that moves no element. -/
structure Still (q r : PcQueue α) : Prop where
  nPushers : r.nPushers = q.nPushers
  nPoppers : r.nPoppers = q.nPoppers
  buffer : r.pcqBuffer = q.pcqBuffer
  pushed : r.pushed = q.pushed
  popped : r.popped = q.popped
  entering : r.entering = q.entering
  inHand : r.inHand = q.inHand

theorem Still.refl (q : PcQueue α) : Still q q := ⟨rfl, rfl, rfl, rfl, rfl, rfl, rfl⟩

theorem Still.setPusher {pc : PusherPc α} (h : pc.entering = (q.pushers p).entering) :
    Still q (q.setPusher p pc) := by
  refine ⟨rfl, rfl, rfl, rfl, rfl, ?_, rfl⟩
  rw [entering_setPusher, h]
  exact Function.update_eq_self p q.entering

theorem Still.setPopper {pc : PopperPc α} (h : pc.inHand = (q.poppers c).inHand) :
    Still q (q.setPopper c pc) := by
  refine ⟨rfl, rfl, rfl, rfl, rfl, rfl, ?_⟩
  rw [inHand_setPopper, h]
  exact Function.update_eq_self c q.inHand

theorem Still.counted (hs : Still q r) (size : Nat) : Still q { r with pcqCurrentSize := size } :=
  { hs with }

theorem still_wakePusher (hr : q.wakePusher p = some r) : Still q r := by
  obtain ⟨-, elem, hpc, rfl⟩ := wakePusher_eq_some hr
  exact .setPusher (by rw [hpc]; rfl)

theorem still_wakePopper (hr : q.wakePopper c = some r) : Still q r := by
  obtain ⟨-, hpc, rfl⟩ := wakePopper_eq_some hr
  exact .setPopper (by rw [hpc]; rfl)

theorem still_signalPoppers {woken : Option Nat} (hr : q.signalPoppers woken = some r) :
    Still q r := by
  cases woken with
  | some c => exact still_wakePopper hr
  | none =>
    obtain ⟨-, hr⟩ := Option.ite_none_right_eq_some.mp hr
    exact Option.some.inj hr ▸ .refl q

theorem signalPushers_poppers {woken : Option Nat} (hr : q.signalPushers woken = some r) :
    r.poppers = q.poppers := by
  cases woken with
  | some p =>
    obtain ⟨-, elem, -, rfl⟩ := wakePusher_eq_some hr
    rfl
  | none =>
    obtain ⟨-, hr⟩ := Option.ite_none_right_eq_some.mp hr
    exact Option.some.inj hr ▸ rfl

theorem still_signalPushers {woken : Option Nat} (hr : q.signalPushers woken = some r) :
    Still q r := by
  cases woken with
  | some p => exact still_wakePusher hr
  | none =>
    obtain ⟨-, hr⟩ := Option.ite_none_right_eq_some.mp hr
    exact Option.some.inj hr ▸ .refl q

/-- What a step does to the elements. -/
inductive Carries (q : PcQueue α) : Event α → PcQueue α → Prop
  | still {e : Event α} {r : PcQueue α} : e.atEnds = false → Still q r → Carries q e r
  | enters {p : Nat} {elem : α} {r : PcQueue α} : p < q.nPushers → q.pushers p = .idle →
      r = q.setPusher p (.testing elem) → Carries q (.enqueue p elem) r
  | stored {p : Nat} {elem : α} {r : PcQueue α} : p < q.nPushers → q.entering p = [elem] →
      r.nPushers = q.nPushers → r.nPoppers = q.nPoppers →
      r.pcqBuffer = Function.update q.pcqBuffer q.pcqTail (some elem) →
      r.pushed = q.pushed ++ [elem] →
      r.popped = q.popped → r.entering = Function.update q.entering p [] → r.inHand = q.inHand →
      Carries q (.store p) r
  | taken {c : Nat} {r : PcQueue α} : c < q.nPoppers → q.poppers c = .passed →
      r.nPushers = q.nPushers → r.nPoppers = q.nPoppers → r.pcqBuffer = q.pcqBuffer →
      r.pushed = q.pushed →
      r.popped = q.popped ++ [q.pcqBuffer q.pcqHead] → r.entering = q.entering →
      r.inHand = Function.update q.inHand c [q.pcqBuffer q.pcqHead] → Carries q (.take c) r
  | returns {c : Nat} {elem : Option α} {woken : Option Nat} {r : PcQueue α} : c < q.nPoppers →
      q.poppers c = .signalling elem → Still (q.setPopper c .idle) r →
      r.poppers = Function.update q.poppers c .idle → Carries q (.signalPusher c woken) r

theorem Next.carries (hn : Next q e r) : Carries q e r := by
  cases hn with
  | enqueue hp hpc => exact .enters hp hpc rfl
  | pusherSleeps _ hpc _ => exact .still rfl (.setPusher (by rw [hpc]; rfl))
  | pusherPasses _ hpc _ => exact .still rfl (.setPusher (by rw [hpc]; rfl))
  | @store p elem hp hpc =>
    refine .stored hp (by rw [entering, hpc]; rfl) rfl rfl rfl rfl rfl ?_ rfl
    exact entering_setPusher q p .stored
  | @countUp p _ hpc =>
    have hstill : Still q (q.setPusher p .signalling) := .setPusher (by rw [hpc]; rfl)
    exact .still rfl (hstill.counted _)
  | @signalPopper p _ _ _ hpc hr =>
    have hstill : Still q (q.setPusher p .idle) := .setPusher (by rw [hpc]; rfl)
    have hwoken := still_signalPoppers hr
    exact .still rfl ⟨hwoken.nPushers, hwoken.nPoppers, hwoken.buffer, hwoken.pushed, hwoken.popped,
      hwoken.entering.trans hstill.entering, hwoken.inHand⟩
  | pusherWakes hr => exact .still rfl (still_wakePusher hr)
  | dequeue _ hpc => exact .still rfl (.setPopper (by rw [hpc]; rfl))
  | popperSleeps _ hpc _ => exact .still rfl (.setPopper (by rw [hpc]; rfl))
  | popperPasses _ hpc _ => exact .still rfl (.setPopper (by rw [hpc]; rfl))
  | @take c hc hpc =>
    refine .taken hc hpc rfl rfl rfl rfl rfl rfl ?_
    exact inHand_setPopper q c (.taken (q.pcqBuffer q.pcqHead))
  | @countDown c elem _ hpc =>
    have hstill : Still q (q.setPopper c (.signalling elem)) := .setPopper (by rw [hpc]; rfl)
    exact .still rfl (hstill.counted _)
  | signalPusher hc hpc hr =>
    exact .returns hc hpc (still_signalPushers hr) (signalPushers_poppers hr)
  | popperWakes hr => exact .still rfl (still_wakePopper hr)

theorem setPopper_idle {pc : PopperPc α} {v : Nat} (hc : q.poppers c ≠ .idle)
    (hv : q.poppers v = .idle) :
    (q.setPopper c pc).poppers v = .idle := by
  have hne : v ≠ c := fun h => hc (h ▸ hv)
  exact (Function.update_of_ne hne pc q.poppers).trans hv

theorem counted_idle {size v : Nat} (hv : q.poppers v = .idle) :
    { q with pcqCurrentSize := size }.poppers v = .idle := hv

/-- A thread outside `pcq_dequeue` stays outside until it calls it. -/
theorem Next.idle (hn : Next q e r) (hc : q.poppers c = .idle) :
    r.poppers c = .idle ∨ e = .dequeue c := by
  cases hn with
  | @signalPopper p woken _ _ _ hr =>
    cases woken with
    | none =>
      obtain ⟨-, hr⟩ := Option.ite_none_right_eq_some.mp hr
      exact .inl (Option.some.inj hr ▸ hc)
    | some v =>
      obtain ⟨-, hpc, rfl⟩ := wakePopper_eq_some hr
      refine .inl (setPopper_idle ?_ hc)
      rw [hpc]
      nofun
  | pusherWakes hr =>
    obtain ⟨-, elem, -, rfl⟩ := wakePusher_eq_some hr
    exact .inl hc
  | @dequeue v hv hpc =>
    rcases eq_or_ne v c with rfl | hne
    · exact .inr rfl
    · exact .inl ((Function.update_of_ne hne.symm ..).trans hc)
  | popperSleeps _ hpc _ => exact .inl (setPopper_idle (by rw [hpc]; nofun) hc)
  | popperPasses _ hpc _ => exact .inl (setPopper_idle (by rw [hpc]; nofun) hc)
  | take _ hpc => exact .inl (setPopper_idle (by rw [hpc]; nofun) hc)
  | countDown _ hpc => exact .inl (counted_idle (setPopper_idle (by rw [hpc]; nofun) hc))
  | @signalPusher v woken elem _ _ hpc hr =>
    have hidle : (q.setPopper v .idle).poppers c = .idle := setPopper_idle (by rw [hpc]; nofun) hc
    cases woken with
    | none =>
      obtain ⟨-, hr⟩ := Option.ite_none_right_eq_some.mp hr
      exact .inl (Option.some.inj hr ▸ hidle)
    | some p =>
      obtain ⟨-, elem, -, rfl⟩ := wakePusher_eq_some hr
      exact .inl hidle
  | popperWakes hr =>
    obtain ⟨-, hpc, rfl⟩ := wakePopper_eq_some hr
    refine .inl (setPopper_idle ?_ hc)
    rw [hpc]
    nofun
  | _ => exact .inl hc

/-! ## What is taken was stored -/

/-- The slots and what was taken from them. A slot that was never filled is not spoken of. -/
structure Genuine (q : PcQueue α) : Prop where
  slots : ∀ i elem, q.pcqBuffer i = some elem → elem ∈ q.pushed
  popped : ∀ elem, some elem ∈ q.popped → elem ∈ q.pushed

theorem Still.genuine (hs : Still q r) (h : Genuine q) : Genuine r := by
  refine ⟨fun i elem hi => ?_, fun elem he => ?_⟩
  · rw [hs.pushed]
    exact h.slots i elem (hs.buffer ▸ hi)
  · rw [hs.pushed]
    exact h.popped elem (hs.popped ▸ he)

theorem Genuine.next (h : Genuine q) (hn : Next q e r) : Genuine r := by
  cases hn.carries with
  | still _ hs => exact hs.genuine h
  | enters _ _ hr => exact hr ▸ ⟨h.slots, h.popped⟩
  | @stored p elem _ hp _ _ _ hbuffer hpushed hpopped =>
    refine ⟨fun i x hx => ?_, fun x hx => ?_⟩
    · rw [hpushed]
      rw [hbuffer] at hx
      rcases eq_or_ne i q.pcqTail with rfl | hi
      · rw [Function.update_self] at hx
        obtain rfl := Option.some.inj hx
        exact List.mem_append_right _ List.mem_cons_self
      · rw [Function.update_of_ne hi] at hx
        exact List.mem_append_left _ (h.slots i x hx)
    · rw [hpushed]
      rw [hpopped] at hx
      exact List.mem_append_left _ (h.popped x hx)
  | taken _ _ _ _ hbuffer hpushed hpopped =>
    refine ⟨fun i x hx => ?_, fun x hx => ?_⟩
    · rw [hpushed]
      exact h.slots i x (hbuffer ▸ hx)
    · rw [hpushed]
      rw [hpopped] at hx
      rcases List.mem_append.mp hx with hold | hnew
      · exact h.popped x hold
      · exact h.slots q.pcqHead x (List.mem_singleton.mp hnew).symm
  | returns _ _ hs _ => exact hs.genuine ⟨h.slots, h.popped⟩

end PcQueue

end MBroker.Queue
