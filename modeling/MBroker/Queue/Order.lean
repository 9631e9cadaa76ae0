import MBroker.Library.Ring
import MBroker.Queue.Model

/-!
# The order of the elements in the queue

The test of `pcq_current_size`, the access to the slot and the update of the size
are three sections under three locks. Between its test and its update a thread
holds a claim on an element, or on room for one, that the size does not show
yet. The queue is a FIFO list in every run in which a test passes only where the
size exceeds, or leaves room beyond, the claims already held.

Results:
1. `fifo_of_claims`: in such a run the elements taken are a prefix of those
   stored, and the size stays between 0 and the capacity.
2. `two_poppers_one_element`: without the condition two poppers pass the test for
   one element, and one of them reads a slot that was never filled.
-/

namespace MBroker.Queue

open FirstFit Transition

variable {α : Type*}

def PusherPc.isPassed : PusherPc α → Bool
  | .passed _ => true
  | _ => false

def PusherPc.isStored : PusherPc α → Bool
  | .stored => true
  | _ => false

def PopperPc.isPassed : PopperPc α → Bool
  | .passed => true
  | _ => false

def PopperPc.isTaken : PopperPc α → Bool
  | .taken _ => true
  | _ => false

namespace PcQueue

/-- Pushers between their test and their access to a slot. -/
def pushersPassed (q : PcQueue α) : Nat :=
  Nat.count (fun p => (q.pushers p).isPassed = true) q.nPushers

/-- Pushers between their access to a slot and their update of the size. -/
def pushersStored (q : PcQueue α) : Nat :=
  Nat.count (fun p => (q.pushers p).isStored = true) q.nPushers

def poppersPassed (q : PcQueue α) : Nat :=
  Nat.count (fun c => (q.poppers c).isPassed = true) q.nPoppers

def poppersTaken (q : PcQueue α) : Nat :=
  Nat.count (fun c => (q.poppers c).isTaken = true) q.nPoppers

/-- A test passes only if the size exceeds the elements claimed by other poppers,
or leaves room beyond that claimed by other pushers. -/
def Claims (q : PcQueue α) : Event α → Prop
  | .pusherTest _ => q.pcqCurrentSize ≠ q.pcqCapacity →
      q.pcqCurrentSize + (q.pushersPassed + q.pushersStored) < q.pcqCapacity
  | .popperTest _ => q.pcqCurrentSize ≠ 0 →
      q.poppersPassed + q.poppersTaken < q.pcqCurrentSize
  | _ => True

instance (q : PcQueue α) (e : Event α) : Decidable (q.Claims e) := by
  cases e with
  | pusherTest p => exact inferInstanceAs (Decidable (_ → _))
  | popperTest c => exact inferInstanceAs (Decidable (_ → _))
  | _ => exact isTrue trivial

/-- First in, first out, and no more elements than the capacity. -/
structure Fifo (q : PcQueue α) : Prop where
  order : q.popped <+: q.pushed.map some
  size_le : q.pcqCurrentSize ≤ q.pcqCapacity

/-! ## Steps -/

/-- Every step of the queue. -/
inductive Next (q : PcQueue α) : Event α → PcQueue α → Prop
  | enqueue {p : Nat} {elem : α} : p < q.nPushers → q.pushers p = .idle →
      Next q (.enqueue p elem) (q.setPusher p (.testing elem))
  | pusherSleeps {p : Nat} {elem : α} : p < q.nPushers → q.pushers p = .testing elem →
      q.pcqCurrentSize = q.pcqCapacity → Next q (.pusherTest p) (q.setPusher p (.asleep elem))
  | pusherPasses {p : Nat} {elem : α} : p < q.nPushers → q.pushers p = .testing elem →
      q.pcqCurrentSize ≠ q.pcqCapacity → Next q (.pusherTest p) (q.setPusher p (.passed elem))
  | store {p : Nat} {elem : α} : p < q.nPushers → q.pushers p = .passed elem →
      Next q (.store p) { q.setPusher p .stored with
        pcqBuffer := Function.update q.pcqBuffer q.pcqTail (some elem)
        pcqTail := (q.pcqTail + 1) % q.pcqCapacity
        pushed := q.pushed ++ [elem] }
  | countUp {p : Nat} : p < q.nPushers → q.pushers p = .stored →
      Next q (.countUp p)
        { q.setPusher p .signalling with pcqCurrentSize := addSize q.pcqCurrentSize 1 }
  | signalPopper {p : Nat} {woken : Option Nat} {r : PcQueue α} : p < q.nPushers →
      q.pushers p = .signalling → (q.setPusher p .idle).signalPoppers woken = some r →
      Next q (.signalPopper p woken) r
  | pusherWakes {p : Nat} {r : PcQueue α} : q.wakePusher p = some r → Next q (.pusherWakes p) r
  | dequeue {c : Nat} : c < q.nPoppers → q.poppers c = .idle →
      Next q (.dequeue c) (q.setPopper c .testing)
  | popperSleeps {c : Nat} : c < q.nPoppers → q.poppers c = .testing → q.pcqCurrentSize = 0 →
      Next q (.popperTest c) (q.setPopper c .asleep)
  | popperPasses {c : Nat} : c < q.nPoppers → q.poppers c = .testing → q.pcqCurrentSize ≠ 0 →
      Next q (.popperTest c) (q.setPopper c .passed)
  | take {c : Nat} : c < q.nPoppers → q.poppers c = .passed →
      Next q (.take c) { q.setPopper c (.taken (q.pcqBuffer q.pcqHead)) with
        pcqHead := (q.pcqHead + 1) % q.pcqCapacity
        popped := q.popped ++ [q.pcqBuffer q.pcqHead] }
  | countDown {c : Nat} {elem : Option α} : c < q.nPoppers → q.poppers c = .taken elem →
      Next q (.countDown c)
        { q.setPopper c (.signalling elem) with pcqCurrentSize := subSize q.pcqCurrentSize 1 }
  | signalPusher {c : Nat} {woken : Option Nat} {elem : Option α} {r : PcQueue α} :
      c < q.nPoppers → q.poppers c = .signalling elem →
      (q.setPopper c .idle).signalPushers woken = some r → Next q (.signalPusher c woken) r
  | popperWakes {c : Nat} {r : PcQueue α} : q.wakePopper c = some r → Next q (.popperWakes c) r

variable {q r : PcQueue α} {e : Event α} {i : Nat}

theorem next_of_pusherStep {p : Nat} (hp : p < q.nPushers)
    (h : q.pusherStep p e (q.pushers p) = some r)
    (he : e = .pusherTest p ∨ e = .store p ∨ e = .countUp p ∨ (∃ elem, e = .enqueue p elem) ∨
      ∃ woken, e = .signalPopper p woken) : Next q e r := by
  cases hpc : q.pushers p <;> rw [hpc] at h <;>
    rcases he with rfl | rfl | rfl | ⟨elem, rfl⟩ | ⟨woken, rfl⟩ <;>
    simp only [pusherStep, reduceCtorEq, Option.some.injEq] at h
  · subst h
    exact .enqueue hp hpc
  · subst h
    split
    · next hfull => exact .pusherSleeps hp hpc hfull
    · next hroom => exact .pusherPasses hp hpc hroom
  · subst h
    exact .store hp hpc
  · subst h
    exact .countUp hp hpc
  · exact .signalPopper hp hpc h

theorem next_of_popperStep {c : Nat} (hc : c < q.nPoppers)
    (h : q.popperStep c e (q.poppers c) = some r)
    (he : e = .popperTest c ∨ e = .take c ∨ e = .countDown c ∨ e = .dequeue c ∨
      ∃ woken, e = .signalPusher c woken) : Next q e r := by
  cases hpc : q.poppers c <;> rw [hpc] at h <;>
    rcases he with rfl | rfl | rfl | rfl | ⟨woken, rfl⟩ <;>
    simp only [popperStep, reduceCtorEq, Option.some.injEq] at h
  · subst h
    exact .dequeue hc hpc
  · subst h
    split
    · next hempty => exact .popperSleeps hc hpc hempty
    · next hsome => exact .popperPasses hc hpc hsome
  · subst h
    exact .take hc hpc
  · subst h
    exact .countDown hc hpc
  · exact .signalPusher hc hpc h

theorem next_of_step (h : q.step e = some r) : Next q e r := by
  cases e with
  | pusherWakes p => exact .pusherWakes h
  | popperWakes c => exact .popperWakes h
  | enqueue p elem =>
    obtain ⟨hp, h⟩ := Option.ite_none_right_eq_some.mp h
    exact next_of_pusherStep hp h (by simp)
  | pusherTest p =>
    obtain ⟨hp, h⟩ := Option.ite_none_right_eq_some.mp h
    exact next_of_pusherStep hp h (by simp)
  | store p =>
    obtain ⟨hp, h⟩ := Option.ite_none_right_eq_some.mp h
    exact next_of_pusherStep hp h (by simp)
  | countUp p =>
    obtain ⟨hp, h⟩ := Option.ite_none_right_eq_some.mp h
    exact next_of_pusherStep hp h (by simp)
  | signalPopper p woken =>
    obtain ⟨hp, h⟩ := Option.ite_none_right_eq_some.mp h
    exact next_of_pusherStep hp h (by simp)
  | dequeue c =>
    obtain ⟨hc, h⟩ := Option.ite_none_right_eq_some.mp h
    exact next_of_popperStep hc h (by simp)
  | popperTest c =>
    obtain ⟨hc, h⟩ := Option.ite_none_right_eq_some.mp h
    exact next_of_popperStep hc h (by simp)
  | take c =>
    obtain ⟨hc, h⟩ := Option.ite_none_right_eq_some.mp h
    exact next_of_popperStep hc h (by simp)
  | countDown c =>
    obtain ⟨hc, h⟩ := Option.ite_none_right_eq_some.mp h
    exact next_of_popperStep hc h (by simp)
  | signalPusher c woken =>
    obtain ⟨hc, h⟩ := Option.ite_none_right_eq_some.mp h
    exact next_of_popperStep hc h (by simp)

/-! ## Sleepers that are woken -/

theorem wakePusher_eq_some {p : Nat} (hr : q.wakePusher p = some r) :
    p < q.nPushers ∧ ∃ elem, q.pushers p = .asleep elem ∧ r = q.setPusher p (.testing elem) := by
  unfold wakePusher at hr
  split at hr
  · next elem hpc =>
    obtain ⟨hp, hr⟩ := Option.ite_none_right_eq_some.mp hr
    exact ⟨hp, elem, hpc, (Option.some.inj hr).symm⟩
  · cases hr

theorem wakePopper_eq_some {c : Nat} (hr : q.wakePopper c = some r) :
    c < q.nPoppers ∧ q.poppers c = .asleep ∧ r = q.setPopper c .testing := by
  unfold wakePopper at hr
  split at hr
  · next hpc =>
    obtain ⟨hc, hr⟩ := Option.ite_none_right_eq_some.mp hr
    exact ⟨hc, hpc, (Option.some.inj hr).symm⟩
  · cases hr

/-! ## The invariant -/

/-- The elements between `pcq_head` and `pcq_tail` are those stored and not
taken; the size differs from their number by the updates that are still due. -/
structure Inv (q : PcQueue α) : Prop where
  cap_word : q.pcqCapacity < word
  window : Ring.Window q.pcqBuffer q.pcqCapacity q.popped.length q.pushed
  order : q.popped <+: q.pushed.map some
  head : q.pcqHead = q.popped.length % q.pcqCapacity
  tail : q.pcqTail = q.pushed.length % q.pcqCapacity
  size : q.pcqCurrentSize + q.pushersStored + q.popped.length = q.pushed.length + q.poppersTaken
  poppers : q.poppersPassed + q.poppersTaken ≤ q.pcqCurrentSize
  pushers : q.pcqCurrentSize + (q.pushersPassed + q.pushersStored) ≤ q.pcqCapacity

theorem pushersPassed_set {p : Nat} (hp : p < q.nPushers) (pc : PusherPc α) :
    (q.setPusher p pc).pushersPassed + (q.pushers p).isPassed.toNat
      = q.pushersPassed + pc.isPassed.toNat := count_update _ _ hp _

theorem pushersStored_set {p : Nat} (hp : p < q.nPushers) (pc : PusherPc α) :
    (q.setPusher p pc).pushersStored + (q.pushers p).isStored.toNat
      = q.pushersStored + pc.isStored.toNat := count_update _ _ hp _

theorem poppersPassed_set {c : Nat} (hc : c < q.nPoppers) (pc : PopperPc α) :
    (q.setPopper c pc).poppersPassed + (q.poppers c).isPassed.toNat
      = q.poppersPassed + pc.isPassed.toNat := count_update _ _ hc _

theorem poppersTaken_set {c : Nat} (hc : c < q.nPoppers) (pc : PopperPc α) :
    (q.setPopper c pc).poppersTaken + (q.poppers c).isTaken.toNat
      = q.poppersTaken + pc.isTaken.toNat := count_update _ _ hc _

/-- A pusher that moves without taking or giving up a claim. -/
theorem Inv.setPusher (h : Inv q) {p : Nat} (hp : p < q.nPushers) {pc : PusherPc α}
    (hpassed : pc.isPassed = (q.pushers p).isPassed)
    (hstored : pc.isStored = (q.pushers p).isStored) : Inv (q.setPusher p pc) := by
  have h1 := pushersPassed_set hp pc
  have h2 := pushersStored_set hp pc
  have h3 : (q.setPusher p pc).pushersPassed = q.pushersPassed := by
    rw [hpassed] at h1
    omega
  have h4 : (q.setPusher p pc).pushersStored = q.pushersStored := by
    rw [hstored] at h2
    omega
  refine ⟨h.cap_word, h.window, h.order, h.head, h.tail, ?_, h.poppers, ?_⟩
  · rw [h4]
    exact h.size
  · rw [h3, h4]
    exact h.pushers

theorem Inv.setPopper (h : Inv q) {c : Nat} (hc : c < q.nPoppers) {pc : PopperPc α}
    (hpassed : pc.isPassed = (q.poppers c).isPassed)
    (htaken : pc.isTaken = (q.poppers c).isTaken) : Inv (q.setPopper c pc) := by
  have h1 := poppersPassed_set hc pc
  have h2 := poppersTaken_set hc pc
  have h3 : (q.setPopper c pc).poppersPassed = q.poppersPassed := by
    rw [hpassed] at h1
    omega
  have h4 : (q.setPopper c pc).poppersTaken = q.poppersTaken := by
    rw [htaken] at h2
    omega
  refine ⟨h.cap_word, h.window, h.order, h.head, h.tail, ?_, ?_, h.pushers⟩
  · rw [h4]
    exact h.size
  · rw [h3, h4]
    exact h.poppers

theorem Inv.wakePusher (h : Inv q) {p : Nat} (hr : q.wakePusher p = some r) : Inv r := by
  obtain ⟨hp, elem, hpc, rfl⟩ := wakePusher_eq_some hr
  exact h.setPusher hp (by rw [hpc]; rfl) (by rw [hpc]; rfl)

theorem Inv.wakePopper (h : Inv q) {c : Nat} (hr : q.wakePopper c = some r) : Inv r := by
  obtain ⟨hc, hpc, rfl⟩ := wakePopper_eq_some hr
  exact h.setPopper hc (by rw [hpc]; rfl) (by rw [hpc]; rfl)

theorem Inv.signalPoppers (h : Inv q) {woken : Option Nat} (hr : q.signalPoppers woken = some r) :
    Inv r := by
  cases woken with
  | some c => exact h.wakePopper hr
  | none =>
    obtain ⟨-, hr⟩ := Option.ite_none_right_eq_some.mp hr
    rw [Option.some.injEq] at hr
    exact hr ▸ h

theorem Inv.signalPushers (h : Inv q) {woken : Option Nat} (hr : q.signalPushers woken = some r) :
    Inv r := by
  cases woken with
  | some p => exact h.wakePusher hr
  | none =>
    obtain ⟨-, hr⟩ := Option.ite_none_right_eq_some.mp hr
    rw [Option.some.injEq] at hr
    exact hr ▸ h

/-- The claim that a pusher took at its test is room for its element. -/
theorem Inv.store (h : Inv q) {p : Nat} {elem : α} (hp : p < q.nPushers)
    (hpc : q.pushers p = .passed elem) :
    Inv { q.setPusher p .stored with
      pcqBuffer := Function.update q.pcqBuffer q.pcqTail (some elem)
      pcqTail := (q.pcqTail + 1) % q.pcqCapacity
      pushed := q.pushed ++ [elem] } := by
  have h1 := pushersPassed_set hp .stored
  have h2 := pushersStored_set hp .stored
  rw [hpc] at h1 h2
  simp only [PusherPc.isPassed, PusherPc.isStored, Bool.toNat_true, Bool.toNat_false] at h1 h2
  have hsize := h.size
  have hpoppers := h.poppers
  have hpushers := h.pushers
  have hroom : q.pushed.length < q.popped.length + q.pcqCapacity := by omega
  refine ⟨h.cap_word, ?_, ?_, h.head, ?_, ?_, h.poppers, ?_⟩
  · show Ring.Window (Function.update q.pcqBuffer q.pcqTail (some elem)) q.pcqCapacity
      q.popped.length (q.pushed ++ [elem])
    rw [h.tail]
    exact h.window.push hroom elem
  · show q.popped <+: (q.pushed ++ [elem]).map some
    rw [List.map_append]
    exact h.order.trans (List.prefix_append _ _)
  · show (q.pcqTail + 1) % q.pcqCapacity = (q.pushed ++ [elem]).length % q.pcqCapacity
    rw [h.tail, List.length_append, List.length_singleton, Nat.mod_add_mod]
  · show q.pcqCurrentSize + (q.setPusher p .stored).pushersStored + q.popped.length
      = (q.pushed ++ [elem]).length + q.poppersTaken
    rw [List.length_append, List.length_singleton]
    omega
  · show q.pcqCurrentSize + ((q.setPusher p .stored).pushersPassed
      + (q.setPusher p .stored).pushersStored) ≤ q.pcqCapacity
    omega

/-- The claim that a popper took at its test is an element to take. -/
theorem Inv.take (h : Inv q) {c : Nat} (hc : c < q.nPoppers) (hpc : q.poppers c = .passed) :
    Inv { q.setPopper c (.taken (q.pcqBuffer q.pcqHead)) with
      pcqHead := (q.pcqHead + 1) % q.pcqCapacity
      popped := q.popped ++ [q.pcqBuffer q.pcqHead] } := by
  generalize helem : q.pcqBuffer q.pcqHead = elem
  have h1 := poppersPassed_set hc (.taken elem)
  have h2 := poppersTaken_set hc (.taken elem)
  rw [hpc] at h1 h2
  simp only [PopperPc.isPassed, PopperPc.isTaken, Bool.toNat_true, Bool.toNat_false] at h1 h2
  have hsize := h.size
  have hpoppers := h.poppers
  have hpushers := h.pushers
  have hleft : q.popped.length < q.pushed.length := by omega
  have hfirst : elem = q.pushed[q.popped.length]? := by
    rw [← helem, h.head, h.window.first hleft]
  refine ⟨h.cap_word, ?_, ?_, ?_, h.tail, ?_, ?_, h.pushers⟩
  · show Ring.Window q.pcqBuffer q.pcqCapacity (q.popped ++ [elem]).length q.pushed
    rw [List.length_append, List.length_singleton]
    exact h.window.pop hleft
  · show q.popped ++ [elem] <+: q.pushed.map some
    rw [hfirst]
    exact Ring.prefix_snoc h.order hleft
  · show (q.pcqHead + 1) % q.pcqCapacity = (q.popped ++ [elem]).length % q.pcqCapacity
    rw [h.head, List.length_append, List.length_singleton, Nat.mod_add_mod]
  · show q.pcqCurrentSize + q.pushersStored + (q.popped ++ [elem]).length
      = q.pushed.length + (q.setPopper c (.taken elem)).poppersTaken
    rw [List.length_append, List.length_singleton]
    omega
  · show (q.setPopper c (.taken elem)).poppersPassed + (q.setPopper c (.taken elem)).poppersTaken
      ≤ q.pcqCurrentSize
    omega

theorem Inv.countUp (h : Inv q) {p : Nat} (hp : p < q.nPushers) (hpc : q.pushers p = .stored) :
    Inv { q.setPusher p .signalling with pcqCurrentSize := addSize q.pcqCurrentSize 1 } := by
  have h1 := pushersPassed_set hp .signalling
  have h2 := pushersStored_set hp .signalling
  rw [hpc] at h1 h2
  simp only [PusherPc.isPassed, PusherPc.isStored, Bool.toNat_true, Bool.toNat_false] at h1 h2
  have hsize := h.size
  have hpoppers := h.poppers
  have hpushers := h.pushers
  have hword := h.cap_word
  rw [addSize_of_lt (by omega)]
  refine ⟨h.cap_word, h.window, h.order, h.head, h.tail, ?_, ?_, ?_⟩
  · show q.pcqCurrentSize + 1 + (q.setPusher p .signalling).pushersStored + q.popped.length
      = q.pushed.length + q.poppersTaken
    omega
  · show q.poppersPassed + q.poppersTaken ≤ q.pcqCurrentSize + 1
    omega
  · show q.pcqCurrentSize + 1 + ((q.setPusher p .signalling).pushersPassed
      + (q.setPusher p .signalling).pushersStored) ≤ q.pcqCapacity
    omega

theorem Inv.countDown (h : Inv q) {c : Nat} {elem : Option α} (hc : c < q.nPoppers)
    (hpc : q.poppers c = .taken elem) :
    Inv { q.setPopper c (.signalling elem) with pcqCurrentSize := subSize q.pcqCurrentSize 1 } := by
  have h1 := poppersPassed_set hc (.signalling elem)
  have h2 := poppersTaken_set hc (.signalling elem)
  rw [hpc] at h1 h2
  simp only [PopperPc.isPassed, PopperPc.isTaken, Bool.toNat_true, Bool.toNat_false] at h1 h2
  have hsize := h.size
  have hpoppers := h.poppers
  have hpushers := h.pushers
  have hword := h.cap_word
  rw [subSize_of_le (by omega) (by omega)]
  refine ⟨h.cap_word, h.window, h.order, h.head, h.tail, ?_, ?_, ?_⟩
  · show q.pcqCurrentSize - 1 + q.pushersStored + q.popped.length
      = q.pushed.length + (q.setPopper c (.signalling elem)).poppersTaken
    omega
  · show (q.setPopper c (.signalling elem)).poppersPassed
      + (q.setPopper c (.signalling elem)).poppersTaken ≤ q.pcqCurrentSize - 1
    omega
  · show q.pcqCurrentSize - 1 + (q.pushersPassed + q.pushersStored) ≤ q.pcqCapacity
    omega

theorem Inv.pusherPasses (h : Inv q) {p : Nat} {elem : α} (hp : p < q.nPushers)
    (hpc : q.pushers p = .testing elem)
    (hroom : q.pcqCurrentSize + (q.pushersPassed + q.pushersStored) < q.pcqCapacity) :
    Inv (q.setPusher p (.passed elem)) := by
  have h1 := pushersPassed_set hp (.passed elem)
  have h2 := pushersStored_set hp (.passed elem)
  rw [hpc] at h1 h2
  simp only [PusherPc.isPassed, PusherPc.isStored, Bool.toNat_true, Bool.toNat_false] at h1 h2
  have hsize := h.size
  refine ⟨h.cap_word, h.window, h.order, h.head, h.tail, ?_, h.poppers, ?_⟩
  · show q.pcqCurrentSize + (q.setPusher p (.passed elem)).pushersStored + q.popped.length
      = q.pushed.length + q.poppersTaken
    omega
  · show q.pcqCurrentSize + ((q.setPusher p (.passed elem)).pushersPassed
      + (q.setPusher p (.passed elem)).pushersStored) ≤ q.pcqCapacity
    omega

theorem Inv.popperPasses (h : Inv q) {c : Nat} (hc : c < q.nPoppers)
    (hpc : q.poppers c = .testing)
    (hleft : q.poppersPassed + q.poppersTaken < q.pcqCurrentSize) :
    Inv (q.setPopper c .passed) := by
  have h1 := poppersPassed_set hc .passed
  have h2 := poppersTaken_set hc .passed
  rw [hpc] at h1 h2
  simp only [PopperPc.isPassed, PopperPc.isTaken, Bool.toNat_true, Bool.toNat_false] at h1 h2
  have hsize := h.size
  refine ⟨h.cap_word, h.window, h.order, h.head, h.tail, ?_, ?_, h.pushers⟩
  · show q.pcqCurrentSize + q.pushersStored + q.popped.length
      = q.pushed.length + (q.setPopper c .passed).poppersTaken
    omega
  · show (q.setPopper c .passed).poppersPassed + (q.setPopper c .passed).poppersTaken
      ≤ q.pcqCurrentSize
    omega

theorem Inv.next (h : Inv q) (hc : q.Claims e) (hn : Next q e r) : Inv r := by
  cases hn with
  | enqueue hp hpc => exact h.setPusher hp (by rw [hpc]; rfl) (by rw [hpc]; rfl)
  | pusherSleeps hp hpc _ => exact h.setPusher hp (by rw [hpc]; rfl) (by rw [hpc]; rfl)
  | pusherPasses hp hpc hne => exact h.pusherPasses hp hpc (hc hne)
  | store hp hpc => exact h.store hp hpc
  | countUp hp hpc => exact h.countUp hp hpc
  | signalPopper hp hpc hr =>
    exact (h.setPusher hp (by rw [hpc]; rfl) (by rw [hpc]; rfl)).signalPoppers hr
  | pusherWakes hr => exact h.wakePusher hr
  | dequeue hc' hpc => exact h.setPopper hc' (by rw [hpc]; rfl) (by rw [hpc]; rfl)
  | popperSleeps hc' hpc _ => exact h.setPopper hc' (by rw [hpc]; rfl) (by rw [hpc]; rfl)
  | popperPasses hc' hpc hne => exact h.popperPasses hc' hpc (hc hne)
  | take hc' hpc => exact h.take hc' hpc
  | countDown hc' hpc => exact h.countDown hc' hpc
  | signalPusher hc' hpc hr =>
    exact (h.setPopper hc' (by rw [hpc]; rfl) (by rw [hpc]; rfl)).signalPushers hr
  | popperWakes hr => exact h.wakePopper hr

theorem inv_create {capacity np nc : Nat} (hcap : capacity < word)
    (h : pcqCreate capacity true np nc = some q) : Inv q := by
  obtain ⟨-, h⟩ := Option.ite_none_left_eq_some.mp h
  rw [Option.some.injEq] at h
  subst h
  have h1 : Nat.count (fun _ : Nat => (PusherPc.idle : PusherPc α).isPassed = true) np = 0 :=
    count_zero fun _ _ => Bool.false_ne_true
  have h2 : Nat.count (fun _ : Nat => (PusherPc.idle : PusherPc α).isStored = true) np = 0 :=
    count_zero fun _ _ => Bool.false_ne_true
  have h3 : Nat.count (fun _ : Nat => (PopperPc.idle : PopperPc α).isPassed = true) nc = 0 :=
    count_zero fun _ _ => Bool.false_ne_true
  have h4 : Nat.count (fun _ : Nat => (PopperPc.idle : PopperPc α).isTaken = true) nc = 0 :=
    count_zero fun _ _ => Bool.false_ne_true
  refine ⟨hcap, Ring.window_nil _ _, List.nil_prefix, (Nat.zero_mod _).symm, (Nat.zero_mod _).symm,
    ?_, ?_, ?_⟩
  · simp only [pushersStored, poppersTaken, h2, h4, List.length_nil]
  · simp only [poppersPassed, poppersTaken, h3, h4]
    exact Nat.zero_le _
  · simp only [pushersPassed, pushersStored, h1, h2]
    omega

/-- First in, first out, whatever the number of pushers and poppers. -/
theorem fifo_of_claims {capacity np nc : Nat} (hcap : capacity < word)
    (hcreate : pcqCreate capacity true np nc = some q)
    (hrun : Reaches step Claims q r) : Fifo r := by
  have hinv := hrun.invariant (inv_create hcap hcreate) fun _ _ _ hi hc hs =>
    hi.next hc (next_of_step hs)
  have hpushers := hinv.pushers
  exact ⟨hinv.order, by omega⟩

/-! ## One element, two poppers -/

/-- A queue for two elements, one pusher and two poppers. -/
def twoPoppers : PcQueue Nat where
  pcqCapacity := 2
  pcqCurrentSize := 0
  pcqHead := 0
  pcqTail := 0
  pcqBuffer := fun _ => none
  nPushers := 1
  nPoppers := 2
  pushers := fun _ => .idle
  poppers := fun _ => .idle
  pushed := []
  popped := []

/-- One element is stored and counted. -/
def pushOne : List (Event Nat) :=
  [.enqueue 0 7, .pusherTest 0, .store 0, .countUp 0]

theorem fifo_pushOne : ∃ r, exec step twoPoppers pushOne = some r ∧ Fifo r := by
  have hrun : (exec step twoPoppers pushOne).isSome = true := by decide
  obtain ⟨r, hr⟩ := Option.isSome_iff_exists.mp hrun
  refine ⟨r, hr, fifo_of_claims (show 2 < word by decide)
    (show pcqCreate 2 true 1 2 = some twoPoppers from rfl) (Reaches.of_exec hr ?_)⟩
  refine ⟨trivial, fun q1 h1 => ⟨fun _ => ?_, fun q2 _ => ⟨trivial, fun q3 _ =>
    ⟨trivial, fun _ _ => trivial⟩⟩⟩⟩
  obtain rfl : q1 = _ := (Option.some.inj h1).symm
  decide

/-- Both poppers pass the test while the size is 1; the second one reads a slot
that was never filled. -/
theorem two_poppers_one_element :
    ¬ ∀ (capacity np nc : Nat) (q r : PcQueue Nat), capacity < word →
      pcqCreate capacity true np nc = some q → Reaches step anyStep q r → Fifo r := by
  intro hall
  have hrun : (exec step twoPoppers (pushOne ++ [.dequeue 0, .dequeue 1, .popperTest 0,
      .popperTest 1, .take 0, .take 1])).any (fun r => r.popped == [some 7, none] &&
        r.pushed == [7]) = true := by
    decide
  obtain ⟨r, hr, hfacts⟩ := (Option.any_eq_true _ _).mp hrun
  rw [Bool.and_eq_true, beq_iff_eq, beq_iff_eq] at hfacts
  have hfifo := hall 2 1 2 twoPoppers r (by decide) rfl
    (Reaches.of_exec hr (execOk_anyStep _ _))
  have hlen := hfifo.order.length_le
  rw [hfacts.1, hfacts.2] at hlen
  exact absurd hlen (by decide)

end PcQueue

end MBroker.Queue
