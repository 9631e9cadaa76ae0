import MBroker.Library.Simulation
import MBroker.Queue.Order

/-!
# One pusher and one popper

With one thread at each end no claim but its own is open when a thread tests the size. So
each test that passes finds an element, or room for one, in every interleaving, and the queue
is a list of bounded length: an element enters when it is stored and leaves when it is taken.
`pcq_current_size` is behind by the updates that the two threads still owe.

Results:
1. `simulation`: every step of the queue is a step of the list or leaves it as it is.
2. `refines_fifo`: after every run the list is laid out in the ring as `Holds` says.
-/

namespace MBroker.Queue

open FirstFit Transition Ring

variable {α : Type*}

namespace PcQueue

/-- What a step does to the list. -/
def op (q : PcQueue α) : Event α → Option (FifoOp (Option α))
  | .store p =>
    match q.pushers p with
    | .passed elem => some (.put (some elem))
    | _ => none
  | .take _ => some (.get (q.pcqBuffer q.pcqHead))
  | _ => none

/-- The list `l` is in the ring of `capacity` slots. -/
structure Holds (capacity : Nat) (q : PcQueue α) (l : List (Option α)) : Prop where
  size : l.length + (q.poppers 0).isTaken.toNat = q.pcqCurrentSize + (q.pushers 0).isStored.toNat
  short : l.length ≤ capacity
  slots : ∀ (i : Nat) (hi : i < l.length), q.pcqBuffer ((q.pcqHead + i) % capacity) = l[i]
  tail : q.pcqTail = (q.pcqHead + l.length) % capacity
  /-- the update that the popper owes does not wrap -/
  countsDown : (q.poppers 0).isTaken.toNat ≤ q.pcqCurrentSize
  /-- nor does that of the pusher -/
  countsUp : q.pcqCurrentSize + (q.pushers 0).isStored.toNat ≤ capacity

/-- The elements stored and not taken. -/
def held (q : PcQueue α) : List (Option α) := (q.pushed.map some).drop q.popped.length

/-- The invariant with one thread at each end. -/
structure OneEach (capacity : Nat) (q : PcQueue α) : Prop where
  inv : Inv q
  cap : q.pcqCapacity = capacity
  pusher : q.nPushers = 1
  popper : q.nPoppers = 1

variable {q r : PcQueue α} {e : Event α} {capacity : Nat}

/-! ## The size, counted over one thread -/

theorem count_one (P : Nat → Prop) [DecidablePred P] : Nat.count P 1 = if P 0 then 1 else 0 := by
  rw [Nat.count_succ, Nat.count_zero, Nat.zero_add]

theorem toNat_eq_ite (b : Bool) : b.toNat = if b = true then 1 else 0 := by cases b <;> rfl

theorem OneEach.stored (h : OneEach capacity q) :
    q.pushersStored = (q.pushers 0).isStored.toNat := by
  rw [pushersStored, h.pusher, count_one, toNat_eq_ite]

theorem OneEach.pusherPassed (h : OneEach capacity q) :
    q.pushersPassed = (q.pushers 0).isPassed.toNat := by
  rw [pushersPassed, h.pusher, count_one, toNat_eq_ite]

theorem OneEach.taken (h : OneEach capacity q) : q.poppersTaken = (q.poppers 0).isTaken.toNat := by
  rw [poppersTaken, h.popper, count_one, toNat_eq_ite]

theorem OneEach.popperPassed (h : OneEach capacity q) :
    q.poppersPassed = (q.poppers 0).isPassed.toNat := by
  rw [poppersPassed, h.popper, count_one, toNat_eq_ite]

/-- A thread that tests has no claim, and nobody else is at its end. -/
theorem OneEach.claims (h : OneEach capacity q) (hn : Next q e r) : q.Claims e := by
  have hpushers := h.inv.pushers
  rw [h.stored, h.pusherPassed] at hpushers
  cases hn with
  | pusherSleeps hp hpc hfull => exact fun hne => absurd hfull hne
  | popperSleeps hc hpc hempty => exact fun hne => absurd hempty hne
  | @pusherPasses p elem hp hpc hne =>
    intro _
    obtain rfl : p = 0 := Nat.lt_one_iff.mp (h.pusher ▸ hp)
    rw [h.stored, h.pusherPassed]
    rw [hpc] at hpushers ⊢
    exact Nat.lt_of_le_of_ne hpushers hne
  | @popperPasses c hc hpc hne =>
    intro _
    obtain rfl : c = 0 := Nat.lt_one_iff.mp (h.popper ▸ hc)
    rw [h.taken, h.popperPassed, hpc]
    exact Nat.pos_of_ne_zero hne
  | _ => trivial

/-! ## Steps -/

/-- What no step changes, and what only a store or a take changes. -/
structure Quiet (q r : PcQueue α) : Prop where
  cap : r.pcqCapacity = q.pcqCapacity
  pusher : r.nPushers = q.nPushers
  popper : r.nPoppers = q.nPoppers
  pushed : r.pushed = q.pushed
  popped : r.popped = q.popped

theorem quiet_refl (q : PcQueue α) : Quiet q q := ⟨rfl, rfl, rfl, rfl, rfl⟩

theorem Quiet.held (h : Quiet q r) : r.held = q.held := by
  rw [PcQueue.held, h.pushed, h.popped]
  rfl

theorem quiet_wakePusher {p : Nat} (hr : q.wakePusher p = some r) : Quiet q r := by
  obtain ⟨-, elem, -, rfl⟩ := wakePusher_eq_some hr
  exact ⟨rfl, rfl, rfl, rfl, rfl⟩

theorem quiet_wakePopper {c : Nat} (hr : q.wakePopper c = some r) : Quiet q r := by
  obtain ⟨-, -, rfl⟩ := wakePopper_eq_some hr
  exact ⟨rfl, rfl, rfl, rfl, rfl⟩

theorem quiet_signalPoppers {woken : Option Nat} (hr : q.signalPoppers woken = some r) :
    Quiet q r := by
  cases woken with
  | some c => exact quiet_wakePopper hr
  | none =>
    obtain ⟨-, hr⟩ := Option.ite_none_right_eq_some.mp hr
    exact Option.some.inj hr ▸ quiet_refl q

theorem quiet_signalPushers {woken : Option Nat} (hr : q.signalPushers woken = some r) :
    Quiet q r := by
  cases woken with
  | some p => exact quiet_wakePusher hr
  | none =>
    obtain ⟨-, hr⟩ := Option.ite_none_right_eq_some.mp hr
    exact Option.some.inj hr ▸ quiet_refl q

/-- Of all the steps two show something. -/
theorem Next.quiet (hn : Next q e r) :
    Quiet q r ∧ q.op e = none ∨ (∃ p, e = .store p) ∨ ∃ c, e = .take c := by
  cases hn with
  | store | take => simp
  | signalPopper _ _ hr =>
    have hquiet := quiet_signalPoppers hr
    exact Or.inl ⟨⟨hquiet.cap, hquiet.pusher, hquiet.popper, hquiet.pushed, hquiet.popped⟩, rfl⟩
  | signalPusher _ _ hr =>
    have hquiet := quiet_signalPushers hr
    exact Or.inl ⟨⟨hquiet.cap, hquiet.pusher, hquiet.popper, hquiet.pushed, hquiet.popped⟩, rfl⟩
  | pusherWakes hr => exact Or.inl ⟨quiet_wakePusher hr, rfl⟩
  | popperWakes hr => exact Or.inl ⟨quiet_wakePopper hr, rfl⟩
  | _ => exact Or.inl ⟨⟨rfl, rfl, rfl, rfl, rfl⟩, rfl⟩

/-- An element is stored: there is room for it, as the pusher has found. -/
theorem OneEach.put (h : OneEach capacity q) {p : Nat} (hn : Next q (.store p) r) :
    Matches (FifoStep capacity) q.held (q.op (.store p)) r.held ∧ OneEach capacity r := by
  have hinv := h.inv.next (h.claims hn) hn
  cases hn with
  | @store _ elem hp hpc =>
    refine ⟨?_, hinv, h.cap, h.pusher, h.popper⟩
    have hop : q.op (.store p) = some (.put (some elem)) := by rw [op, hpc]
    have hroom : (q.pushed ++ [elem]).length ≤ q.popped.length + q.pcqCapacity := hinv.window.short
    have hstart := h.inv.window.start_le
    rw [List.length_append, List.length_singleton, h.cap] at hroom
    have hpush : FifoStep capacity q.held (.put (some elem)) _ :=
      FifoStep.push (by rw [List.length_map]; exact hstart) (by rw [List.length_map]; exact hroom)
        (some elem)
    rw [hop]
    show FifoStep capacity q.held (.put (some elem))
      (((q.pushed ++ [elem]).map some).drop q.popped.length)
    rw [List.map_append]
    exact hpush

/-- An element is taken: it is the first of the list, as the popper has found one. -/
theorem OneEach.get (h : OneEach capacity q) {c : Nat} (hn : Next q (.take c) r) :
    Matches (FifoStep capacity) q.held (q.op (.take c)) r.held ∧ OneEach capacity r := by
  have hinv := h.inv.next (h.claims hn) hn
  cases hn with
  | take hc hpc =>
    refine ⟨?_, hinv, h.cap, h.pusher, h.popper⟩
    have hleft : (q.popped ++ [q.pcqBuffer q.pcqHead]).length ≤ q.pushed.length :=
      hinv.window.start_le
    rw [List.length_append, List.length_singleton] at hleft
    have hfirst : (q.pushed.map some)[q.popped.length]? = some (q.pcqBuffer q.pcqHead) := by
      rw [h.inv.head, h.inv.window.first hleft, List.getElem?_map, List.getElem?_eq_getElem hleft]
      rfl
    show FifoStep capacity q.held (.get (q.pcqBuffer q.pcqHead))
      ((q.pushed.map some).drop (q.popped ++ [q.pcqBuffer q.pcqHead]).length)
    rw [List.length_append, List.length_singleton]
    exact FifoStep.pop hfirst

theorem OneEach.next (h : OneEach capacity q) (hn : Next q e r) :
    Matches (FifoStep capacity) q.held (q.op e) r.held ∧ OneEach capacity r := by
  rcases hn.quiet with ⟨hquiet, hop⟩ | ⟨p, rfl⟩ | ⟨c, rfl⟩
  · refine ⟨?_, h.inv.next (h.claims hn) hn, hquiet.cap.trans h.cap, hquiet.pusher.trans h.pusher,
      hquiet.popper.trans h.popper⟩
    rw [hop]
    exact hquiet.held
  · exact h.put hn
  · exact h.get hn

/-- The ring refines the list of bounded length. -/
theorem simulation (capacity : Nat) : Simulation (ε := Event α) step op (FifoStep capacity)
    fun q l => OneEach capacity q ∧ l = q.held := by
  refine ⟨?_⟩
  rintro q e r _ ⟨hone, rfl⟩ hstep
  obtain ⟨hmatch, hnext⟩ := hone.next (next_of_step hstep)
  exact ⟨r.held, hmatch, hnext, rfl⟩

/-! ## Runs -/

theorem oneEach_create (hcap : capacity < word) (h : pcqCreate capacity true 1 1 = some q) :
    OneEach capacity q ∧ q.held = [] := by
  have hinv := inv_create hcap h
  obtain ⟨-, h⟩ := Option.ite_none_left_eq_some.mp h
  obtain rfl := Option.some.inj h
  exact ⟨⟨hinv, rfl, rfl, rfl⟩, rfl⟩

/-- How the list lies in the ring. -/
theorem OneEach.holds (h : OneEach capacity q) : Holds capacity q q.held := by
  have hinv := h.inv
  have hstart := hinv.window.start_le
  have hshort := hinv.window.short
  have hsize := hinv.size
  have hpoppers := hinv.poppers
  have hpushers := hinv.pushers
  rw [h.stored, h.taken] at hsize
  rw [h.taken] at hpoppers
  rw [h.stored, h.cap] at hpushers
  rw [h.cap] at hshort
  have hlen : q.held.length = q.pushed.length - q.popped.length := by
    rw [held, List.length_drop, List.length_map]
  refine ⟨by omega, by omega, fun i hi => ?_, ?_, by omega, by omega⟩
  · have hdrop : i < (q.pushed.drop q.popped.length).length := by
      rw [List.length_drop]
      omega
    have hslot := hinv.window.held hdrop
    rw [hinv.head, h.cap, Nat.mod_add_mod]
    rw [h.cap, List.getElem?_eq_getElem hdrop] at hslot
    rw [hslot]
    simp only [held, List.getElem_drop, List.getElem_map]
  · rw [hinv.tail, hinv.head, h.cap, Nat.mod_add_mod, hlen]
    congr 1
    omega

/-- After every run the queue holds a list that the stores and takes of the run have made of
the empty one, first in, first out, and never more than the capacity. -/
theorem refines_fifo {es : List (Event α)} (hcap : capacity < word)
    (hcreate : pcqCreate capacity true 1 1 = some q) (hrun : exec step q es = some r) :
    ∃ l, Steps (FifoStep capacity) [] (labels step op q es) l ∧ Holds capacity r l := by
  obtain ⟨hone, hempty⟩ := oneEach_create hcap hcreate
  obtain ⟨l, hsteps, hend, rfl⟩ := (simulation capacity).run ⟨hone, hempty.symm⟩ hrun
  exact ⟨r.held, hsteps, hend.holds⟩

/-- One slot, and one thread at each end. -/
def oneSlot : PcQueue Nat where
  pcqCapacity := 1
  pcqCurrentSize := 0
  pcqHead := 0
  pcqTail := 0
  pcqBuffer := fun _ => none
  nPushers := 1
  nPoppers := 1
  pushers := fun _ => .idle
  poppers := fun _ => .idle
  pushed := []
  popped := []

/-- The popper has taken the element while the size still counts it. -/
theorem refines_fifo_oneSlot :
    ∃ r l, exec step oneSlot (pushOne ++ [.dequeue 0, .popperTest 0, .take 0]) = some r ∧
      Holds 1 r l := by
  have hrun :
    (exec step oneSlot (pushOne ++ [.dequeue 0, .popperTest 0, .take 0])).isSome = true := by
    decide
  obtain ⟨r, hr⟩ := Option.isSome_iff_exists.mp hrun
  obtain ⟨l, -, hl⟩ := refines_fifo (show 1 < word by decide)
    (show pcqCreate 1 true 1 1 = some oneSlot from rfl) hr
  exact ⟨r, l, hr, hl⟩

end PcQueue

end MBroker.Queue
