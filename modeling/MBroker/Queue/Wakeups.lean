import MBroker.Queue.Order

/-!
# No wake-up is lost

The size is changed under one lock, and tested and signalled under two others. Still, a
thread that has changed the size signals afterwards, and a sleeper that the signal wakes
tests again. So poppers sleep all together only while the size is 0, or while the signal of
a pusher is still to come; and pushers only while the size is the capacity, or while the
signal of a popper is still to come.

Results:
1. `Woken.next`: every step keeps this.
2. `never_deadlocked`: pushers and poppers are never all asleep.
3. `Attended.next`: while a popper sleeps, every element that is counted has a popper on its
   way or a signal still to come, as long as the tests count the calls between their locks.
-/

namespace MBroker.Queue

open FirstFit Transition

variable {α : Type*}

namespace PcQueue

def AllPushersAsleep (q : PcQueue α) : Prop := ∀ p < q.nPushers, q.pusherAsleep p = true

def AllPoppersAsleep (q : PcQueue α) : Prop := ∀ c < q.nPoppers, q.popperAsleep c = true

/-- A pusher has counted its element and not signalled yet. -/
def PopperSignalDue (q : PcQueue α) : Prop := ∃ p < q.nPushers, q.pushers p = .signalling

/-- A popper has counted its slot and not signalled yet. -/
def PusherSignalDue (q : PcQueue α) : Prop :=
  ∃ c < q.nPoppers, ∃ elem, q.poppers c = .signalling elem

/-- Every thread sleeps on its condition variable, and no thread is about to signal. -/
structure Deadlocked (q : PcQueue α) : Prop where
  pushers : q.AllPushersAsleep
  poppers : q.AllPoppersAsleep
  popperSignal : ¬ q.PopperSignalDue
  pusherSignal : ¬ q.PusherSignalDue

/-- The invariant: why sleepers sleep. -/
structure Woken (q : PcQueue α) : Prop where
  capacity : 0 < q.pcqCapacity
  somePusher : 0 < q.nPushers
  somePopper : 0 < q.nPoppers
  poppers : q.AllPoppersAsleep → q.pcqCurrentSize = 0 ∨ q.PopperSignalDue
  pushers : q.AllPushersAsleep → q.pcqCurrentSize = q.pcqCapacity ∨ q.PusherSignalDue

variable {q r : PcQueue α} {e : Event α} {p c : Nat} {pc : PusherPc α}

/-! ## Threads that move -/

theorem not_allPushersAsleep (hp : p < q.nPushers) (hawake : q.pusherAsleep p = false) :
    ¬ q.AllPushersAsleep := fun hall => by
  rw [hall p hp] at hawake
  cases hawake

theorem not_allPoppersAsleep (hc : c < q.nPoppers) (hawake : q.popperAsleep c = false) :
    ¬ q.AllPoppersAsleep := fun hall => by
  rw [hall c hc] at hawake
  cases hawake

theorem pusherAsleep_set :
    (q.setPusher p pc).pusherAsleep p = true ↔ ∃ elem, pc = .asleep elem := by
  rw [pusherAsleep, show (q.setPusher p pc).pushers p = pc from Function.update_self ..]
  cases pc <;> simp

theorem popperAsleep_set {pc : PopperPc α} :
    (q.setPopper c pc).popperAsleep c = true ↔ pc = .asleep := by
  rw [popperAsleep, show (q.setPopper c pc).poppers c = pc from Function.update_self ..]
  cases pc <;> simp

/-- A pusher that was not about to signal moves; it goes to sleep only at the capacity. -/
theorem Woken.setPusher (h : Woken q) (hp : p < q.nPushers) (hpc : q.pushers p ≠ .signalling)
    (hsleep : ∀ elem, pc = .asleep elem → q.pcqCurrentSize = q.pcqCapacity) :
    Woken (q.setPusher p pc) := by
  refine ⟨h.capacity, h.somePusher, h.somePopper, fun hall => ?_, fun hall => ?_⟩
  · refine (h.poppers hall).imp_right fun ⟨p', hp', hdue⟩ => ⟨p', hp', ?_⟩
    have hne : p' ≠ p := by
      rintro rfl
      exact hpc hdue
    exact (Function.update_of_ne hne ..).trans hdue
  · obtain ⟨elem, hasleep⟩ := pusherAsleep_set.mp (hall p hp)
    exact Or.inl (hsleep elem hasleep)

/-- A popper that was not about to signal moves; it goes to sleep only at size 0. -/
theorem Woken.setPopper (h : Woken q) {pc : PopperPc α} (hc : c < q.nPoppers)
    (hpc : ∀ elem, q.poppers c ≠ .signalling elem) (hsleep : pc = .asleep → q.pcqCurrentSize = 0) :
    Woken (q.setPopper c pc) := by
  refine ⟨h.capacity, h.somePusher, h.somePopper, fun hall => ?_, fun hall => ?_⟩
  · exact Or.inl (hsleep (popperAsleep_set.mp (hall c hc)))
  · refine (h.pushers hall).imp_right fun ⟨c', hc', elem, hdue⟩ => ⟨c', hc', elem, ?_⟩
    have hne : c' ≠ c := by
      rintro rfl
      exact hpc elem hdue
    exact (Function.update_of_ne hne ..).trans hdue

/-! ## Signals -/

/-- After a signal some popper is awake. -/
theorem signalPoppers_awake {woken : Option Nat} (hsome : 0 < q.nPoppers)
    (hr : q.signalPoppers woken = some r) :
    ¬ r.AllPoppersAsleep ∧
    (r = q ∨ ∃ c < q.nPoppers, q.poppers c = .asleep ∧ r = q.setPopper c .testing) := by
  cases woken with
  | some c =>
    obtain ⟨hc, hpc, rfl⟩ := wakePopper_eq_some hr
    refine ⟨fun hall => ?_, Or.inr ⟨c, hc, hpc, rfl⟩⟩
    cases popperAsleep_set.mp (hall c hc)
  | none =>
    obtain ⟨hnone, hr⟩ := Option.ite_none_right_eq_some.mp hr
    obtain rfl := Option.some.inj hr
    refine ⟨not_allPoppersAsleep hsome ?_, Or.inl rfl⟩
    have hawake := firstIndex_eq_none.mp (Option.isNone_iff_eq_none.mp hnone) 0 hsome
    simpa using hawake

/-- After a signal some pusher is awake. -/
theorem signalPushers_awake {woken : Option Nat} (hsome : 0 < q.nPushers)
    (hr : q.signalPushers woken = some r) : ¬ r.AllPushersAsleep ∧
      (r = q ∨ ∃ p < q.nPushers, ∃ elem, q.pushers p = .asleep elem ∧
        r = q.setPusher p (.testing elem)) := by
  cases woken with
  | some p =>
    obtain ⟨hp, elem, hpc, rfl⟩ := wakePusher_eq_some hr
    refine ⟨fun hall => ?_, Or.inr ⟨p, hp, elem, hpc, rfl⟩⟩
    obtain ⟨elem', hc⟩ := pusherAsleep_set.mp (hall p hp)
    cases hc
  | none =>
    obtain ⟨hnone, hr⟩ := Option.ite_none_right_eq_some.mp hr
    obtain rfl := Option.some.inj hr
    refine ⟨not_allPushersAsleep hsome ?_, Or.inl rfl⟩
    have hawake := firstIndex_eq_none.mp (Option.isNone_iff_eq_none.mp hnone) 0 hsome
    simpa using hawake

/-- A pusher has signalled: it is awake itself, and so is some popper. -/
theorem Woken.signalPopper (h : Woken q) (hp : p < q.nPushers) {woken : Option Nat}
    (hr : (q.setPusher p .idle).signalPoppers woken = some r) : Woken r := by
  have hself : (q.setPusher p .idle).pusherAsleep p = false := by
    rw [← Bool.not_eq_true, pusherAsleep_set]
    exact fun ⟨_, hc⟩ => nomatch hc
  obtain ⟨hpoppers, rfl | ⟨c, -, -, rfl⟩⟩ :=
    signalPoppers_awake (q := q.setPusher p .idle) h.somePopper hr
  · exact ⟨h.capacity, h.somePusher, h.somePopper, fun hall => absurd hall hpoppers,
      fun hall => absurd hall (not_allPushersAsleep hp hself)⟩
  · exact ⟨h.capacity, h.somePusher, h.somePopper, fun hall => absurd hall hpoppers,
      fun hall => absurd hall (not_allPushersAsleep (q := q.setPusher p .idle) hp hself)⟩

/-- A popper has signalled: it is awake itself, and so is some pusher. -/
theorem Woken.signalPusher (h : Woken q) (hc : c < q.nPoppers) {woken : Option Nat}
    (hr : (q.setPopper c .idle).signalPushers woken = some r) : Woken r := by
  have hself : (q.setPopper c .idle).popperAsleep c = false := by
    rw [← Bool.not_eq_true, popperAsleep_set]
    exact fun hc => nomatch hc
  obtain ⟨hpushers, rfl | ⟨p, -, elem, -, rfl⟩⟩ :=
    signalPushers_awake (q := q.setPopper c .idle) h.somePusher hr
  · exact ⟨h.capacity, h.somePusher, h.somePopper,
      fun hall => absurd hall (not_allPoppersAsleep hc hself), fun hall => absurd hall hpushers⟩
  · exact ⟨h.capacity, h.somePusher, h.somePopper,
      fun hall => absurd hall (not_allPoppersAsleep (q := q.setPopper c .idle) hc hself),
      fun hall => absurd hall hpushers⟩

/-! ## Steps and runs -/

/-- A pusher has counted its element: it is awake, and its signal is due. -/
theorem Woken.countUp (h : Woken q) (hp : p < q.nPushers) {size : Nat} :
    Woken { q.setPusher p .signalling with pcqCurrentSize := size } := by
  have hself : (q.setPusher p .signalling).pusherAsleep p = false := by
    rw [← Bool.not_eq_true, pusherAsleep_set]
    exact fun ⟨_, hc⟩ => nomatch hc
  exact ⟨h.capacity, h.somePusher, h.somePopper, fun _ => Or.inr ⟨p, hp, Function.update_self ..⟩,
    fun hall => absurd hall (not_allPushersAsleep (q := q.setPusher p .signalling) hp hself)⟩

theorem Woken.countDown (h : Woken q) (hc : c < q.nPoppers) {elem : Option α} {size : Nat} :
    Woken { q.setPopper c (.signalling elem) with pcqCurrentSize := size } := by
  have hself : (q.setPopper c (.signalling elem)).popperAsleep c = false := by
    rw [← Bool.not_eq_true, popperAsleep_set]
    exact fun hc => nomatch hc
  exact ⟨h.capacity, h.somePusher, h.somePopper,
    fun hall => absurd hall (not_allPoppersAsleep (q := q.setPopper c (.signalling elem)) hc hself),
    fun _ => Or.inr ⟨c, hc, elem, Function.update_self ..⟩⟩

/-- The step lemma: the threads that sleep together have a reason. -/
theorem Woken.next (h : Woken q) (hn : Next q e r) : Woken r := by
  cases hn with
  | enqueue hp hpc => exact h.setPusher hp (by rw [hpc]; nofun) nofun
  | pusherSleeps hp hpc hfull => exact h.setPusher hp (by rw [hpc]; nofun) fun _ _ => hfull
  | pusherPasses hp hpc _ => exact h.setPusher hp (by rw [hpc]; nofun) nofun
  | store hp hpc =>
    have hmoved : Woken (q.setPusher _ .stored) := h.setPusher hp (by rw [hpc]; nofun) nofun
    exact ⟨hmoved.capacity, hmoved.somePusher, hmoved.somePopper, hmoved.poppers, hmoved.pushers⟩
  | countUp hp _ => exact h.countUp hp
  | signalPopper hp _ hr => exact h.signalPopper hp hr
  | pusherWakes hr =>
    obtain ⟨hp, elem, hpc, rfl⟩ := wakePusher_eq_some hr
    exact h.setPusher hp (by rw [hpc]; nofun) nofun
  | dequeue hc hpc => exact h.setPopper hc (by rw [hpc]; nofun) nofun
  | popperSleeps hc hpc hempty => exact h.setPopper hc (by rw [hpc]; nofun) fun _ => hempty
  | popperPasses hc hpc _ => exact h.setPopper hc (by rw [hpc]; nofun) nofun
  | take hc hpc =>
    have hmoved : Woken (q.setPopper _ (.taken (q.pcqBuffer q.pcqHead))) :=
      h.setPopper hc (by rw [hpc]; nofun) nofun
    exact ⟨hmoved.capacity, hmoved.somePusher, hmoved.somePopper, hmoved.poppers, hmoved.pushers⟩
  | countDown hc _ => exact h.countDown hc
  | signalPusher hc _ hr => exact h.signalPusher hc hr
  | popperWakes hr =>
    obtain ⟨hc, hpc, rfl⟩ := wakePopper_eq_some hr
    exact h.setPopper hc (by rw [hpc]; nofun) nofun

/-- All asleep with no signal due: the size would be both 0 and the capacity. -/
theorem Woken.not_deadlocked (h : Woken q) : ¬ q.Deadlocked := by
  intro hd
  have hempty := (h.poppers hd.poppers).resolve_right hd.popperSignal
  have hfull := (h.pushers hd.pushers).resolve_right hd.pusherSignal
  have := h.capacity
  omega

theorem woken_create {capacity np nc : Nat} (hnp : 0 < np) (hnc : 0 < nc)
    (h : pcqCreate capacity true np nc = some q) : Woken q := by
  obtain ⟨hcap, h⟩ := Option.ite_none_left_eq_some.mp h
  rw [not_or] at hcap
  obtain rfl := Option.some.inj h
  exact ⟨Nat.pos_of_ne_zero hcap.1, hnp, hnc, fun _ => Or.inl rfl, fun hall => nomatch hall 0 hnp⟩

/-- In no run of any pushers and poppers, at least one of each, do all of them sleep with
no signal still to come. -/
theorem never_deadlocked {capacity np nc : Nat} (hnp : 0 < np) (hnc : 0 < nc)
    (hcreate : pcqCreate capacity true np nc = some q) (hrun : Reaches step anyStep q r) :
    ¬ r.Deadlocked :=
  (hrun.invariant (woken_create hnp hnc hcreate) fun _ _ _ h _ hs => h.next
    (next_of_step hs)).not_deadlocked

/-- Both poppers sleep while an element is on its way. -/
theorem never_deadlocked_sleepers :
    ∃ r, exec step twoPoppers ([.dequeue 0, .dequeue 1, .popperTest 0, .popperTest 1]
      ++ pushOne) = some r ∧
      ¬ r.Deadlocked := by
  have hrun : (exec step twoPoppers
      ([.dequeue 0, .dequeue 1, .popperTest 0, .popperTest 1] ++ pushOne)).isSome
        = true := by decide
  obtain ⟨r, hr⟩ := Option.isSome_iff_exists.mp hrun
  exact ⟨r, hr, never_deadlocked (show 0 < 1 by decide) (show 0 < 2 by decide)
    (show pcqCreate 2 true 1 2 = some twoPoppers from rfl)
      (Reaches.of_exec hr (execOk_anyStep _ _))⟩

/-! ## While a popper sleeps -/

end PcQueue

def PusherPc.isSignalling : PusherPc α → Bool
  | .signalling => true
  | _ => false

def PopperPc.isTesting : PopperPc α → Bool
  | .testing => true
  | _ => false

namespace PcQueue

variable {q r : PcQueue α} {e : Event α} {p c : Nat} {pc : PusherPc α}

def pushersSignalling (q : PcQueue α) : Nat :=
  Nat.count (fun p => (q.pushers p).isSignalling = true) q.nPushers

def poppersTesting (q : PcQueue α) : Nat :=
  Nat.count (fun c => (q.poppers c).isTesting = true) q.nPoppers

def PopperAsleep (q : PcQueue α) : Prop := ∃ c < q.nPoppers, q.poppers c = .asleep

/-- If a popper sleeps, each element that is counted has a popper or a signal. -/
def Attended (q : PcQueue α) : Prop :=
  q.PopperAsleep → q.pcqCurrentSize ≤
    q.poppersTesting + (q.poppersPassed + q.poppersTaken) + q.pushersSignalling

theorem pushersSignalling_set (hp : p < q.nPushers) (pc : PusherPc α) :
    (q.setPusher p pc).pushersSignalling + (q.pushers p).isSignalling.toNat
      = q.pushersSignalling + pc.isSignalling.toNat := count_update _ _ hp _

theorem poppersTesting_set (hc : c < q.nPoppers) (pc : PopperPc α) :
    (q.setPopper c pc).poppersTesting + (q.poppers c).isTesting.toNat
      = q.poppersTesting + pc.isTesting.toNat := count_update _ _ hc _

theorem popperAsleep_setPopper {pc : PopperPc α} (h : (q.setPopper c pc).PopperAsleep)
    (hpc : pc ≠ .asleep) : q.PopperAsleep := by
  obtain ⟨v, hv, hasleep⟩ := h
  rcases eq_or_ne v c with rfl | hne
  · have hself : (q.setPopper v pc).poppers v = pc := Function.update_self ..
    exact absurd (hself.symm.trans hasleep) hpc
  · have hother : (q.setPopper c pc).poppers v = q.poppers v := Function.update_of_ne hne ..
    exact ⟨v, hv, hother.symm.trans hasleep⟩

/-- A pusher that has no signal to give before or after. -/
theorem Attended.setPusher (h : Attended q) (hp : p < q.nPushers)
    (hbefore : (q.pushers p).isSignalling = false)
    (hafter : pc.isSignalling = false) : Attended (q.setPusher p pc) := by
  intro hasleep
  have hsignals := pushersSignalling_set hp pc
  rw [hbefore, hafter] at hsignals
  have hsize := h hasleep
  show q.pcqCurrentSize ≤ q.poppersTesting + (q.poppersPassed + q.poppersTaken) + _
  omega

/-- A popper that does not fall asleep and stays on its way if it was. -/
theorem Attended.setPopper (h : Attended q) {pc : PopperPc α}
    (hc : c < q.nPoppers) (hpc : pc ≠ .asleep)
    (hon : (q.poppers c).isTesting.toNat
      + ((q.poppers c).isPassed.toNat + (q.poppers c).isTaken.toNat)
      ≤ pc.isTesting.toNat + (pc.isPassed.toNat + pc.isTaken.toNat)) :
      Attended (q.setPopper c pc) := by
  intro hasleep
  have htesting := poppersTesting_set hc pc
  have hpassed := poppersPassed_set hc pc
  have htaken := poppersTaken_set hc pc
  have hsize := h (popperAsleep_setPopper hasleep hpc)
  show q.pcqCurrentSize ≤ _ + (_ + _) + q.pushersSignalling
  omega

/-- The signal of a pusher becomes a popper that tests, or nobody sleeps. -/
theorem Attended.signalPopper (h : Attended q) (hp : p < q.nPushers)
    (hpc : q.pushers p = .signalling)
    {woken : Option Nat} (hr : (q.setPusher p .idle).signalPoppers woken = some r) :
    Attended r := by
  intro hasleep
  cases woken with
  | none =>
    obtain ⟨hnone, hr⟩ := Option.ite_none_right_eq_some.mp hr
    obtain rfl := Option.some.inj hr
    obtain ⟨v, hv, hasleep⟩ := hasleep
    have hawake := firstIndex_eq_none.mp (Option.isNone_iff_eq_none.mp hnone) v hv
    rw [popperAsleep, hasleep] at hawake
    cases hawake
  | some c =>
    obtain ⟨hc, hpc', rfl⟩ := wakePopper_eq_some hr
    have hsignals := pushersSignalling_set hp .idle
    have htesting := poppersTesting_set (q := q.setPusher p .idle) hc .testing
    have hpassed := poppersPassed_set (q := q.setPusher p .idle) hc .testing
    have htaken := poppersTaken_set (q := q.setPusher p .idle) hc .testing
    rw [hpc'] at htesting hpassed htaken
    rw [hpc] at hsignals
    have hsize := h (popperAsleep_setPopper hasleep nofun)
    change _ = q.poppersTesting + _ at htesting
    change _ = q.poppersPassed + _ at hpassed
    change _ = q.poppersTaken + _ at htaken
    simp only [PusherPc.isSignalling, PopperPc.isTesting, PopperPc.isPassed,
      PopperPc.isTaken, Bool.toNat_true,
      Bool.toNat_false] at hsignals htesting hpassed htaken
    show q.pcqCurrentSize ≤ _ + (_ + _) + (q.setPusher p .idle).pushersSignalling
    omega

theorem Attended.counted {size : Nat} (h : q.PopperAsleep → size ≤
    q.poppersTesting + (q.poppersPassed + q.poppersTaken) + q.pushersSignalling) :
    Attended { q with pcqCurrentSize := size } := h

theorem Attended.countUp (h : Attended q) (hp : p < q.nPushers) (hpc : q.pushers p = .stored) :
    Attended { q.setPusher p .signalling with pcqCurrentSize := addSize q.pcqCurrentSize 1 } := by
  refine .counted fun hasleep => ?_
  have hsignals := pushersSignalling_set hp .signalling
  rw [hpc] at hsignals
  have hsize := h hasleep
  have hcount : addSize q.pcqCurrentSize 1 ≤ q.pcqCurrentSize + 1 := Nat.mod_le ..
  simp only [PusherPc.isSignalling, Bool.toNat_true, Bool.toNat_false] at hsignals
  show addSize q.pcqCurrentSize 1 ≤ q.poppersTesting + (q.poppersPassed + q.poppersTaken) +
    (q.setPusher p .signalling).pushersSignalling
  omega

theorem Attended.countDown (h : Attended q) (hinv : Inv q) {elem : Option α} (hc : c < q.nPoppers)
    (hpc : q.poppers c = .taken elem) :
    Attended { q.setPopper c (.signalling elem)
      with pcqCurrentSize := subSize q.pcqCurrentSize 1 } := by
  refine .counted fun hasleep => ?_
  have htesting := poppersTesting_set hc (.signalling elem)
  have hpassed := poppersPassed_set hc (.signalling elem)
  have htaken := poppersTaken_set hc (.signalling elem)
  rw [hpc] at htesting hpassed htaken
  have hsize := h (popperAsleep_setPopper hasleep nofun)
  simp only [PopperPc.isTesting, PopperPc.isPassed, PopperPc.isTaken,
    Bool.toNat_true, Bool.toNat_false]
    at htesting hpassed htaken
  -- the popper that counts its element down is one of those that the size still counts
  have hleft := hinv.poppers
  have hroom := hinv.pushers
  have hword := hinv.cap_word
  have hcount : subSize q.pcqCurrentSize 1 = q.pcqCurrentSize - 1 :=
    subSize_of_le (by omega) (by omega)
  show subSize q.pcqCurrentSize 1 ≤ _ + (_ + _) + q.pushersSignalling
  omega

theorem Attended.next (h : Attended q) (hinv : Inv q) (hn : Next q e r) : Attended r := by
  cases hn with
  | enqueue hp hpc => exact h.setPusher hp (by rw [hpc]; rfl) rfl
  | pusherSleeps hp hpc _ => exact h.setPusher hp (by rw [hpc]; rfl) rfl
  | pusherPasses hp hpc _ => exact h.setPusher hp (by rw [hpc]; rfl) rfl
  | store hp hpc => exact h.setPusher hp (by rw [hpc]; rfl) rfl
  | countUp hp hpc => exact h.countUp hp hpc
  | signalPopper hp hpc hr => exact h.signalPopper hp hpc hr
  | pusherWakes hr =>
    obtain ⟨hp, elem, hpc, rfl⟩ := wakePusher_eq_some hr
    exact h.setPusher hp (by rw [hpc]; rfl) rfl
  | dequeue hc hpc => exact h.setPopper hc nofun (by rw [hpc]; exact Nat.zero_le _)
  | popperSleeps hc hpc hempty => exact fun _ => hempty.trans_le (Nat.zero_le _)
  | popperPasses hc hpc _ => exact h.setPopper hc nofun (by rw [hpc]; exact Nat.le_refl 1)
  | @take c hc hpc =>
    have hmoved : Attended (q.setPopper c (.taken (q.pcqBuffer q.pcqHead))) :=
      h.setPopper hc nofun (by rw [hpc]; exact Nat.le_refl 1)
    exact hmoved
  | countDown hc hpc => exact h.countDown hinv hc hpc
  | @signalPusher c woken elem _ hc hpc hr =>
    have hmoved : Attended (q.setPopper c .idle) :=
      h.setPopper hc nofun (by rw [hpc]; exact Nat.le_refl 0)
    cases woken with
    | some p =>
      obtain ⟨hp, elem, hpc, rfl⟩ := wakePusher_eq_some hr
      exact hmoved.setPusher hp (by rw [hpc]; rfl) rfl
    | none =>
      obtain ⟨-, hr⟩ := Option.ite_none_right_eq_some.mp hr
      exact Option.some.inj hr ▸ hmoved
  | popperWakes hr =>
    obtain ⟨hc, hpc, rfl⟩ := wakePopper_eq_some hr
    exact h.setPopper hc nofun (by rw [hpc]; exact Nat.zero_le _)

theorem attended_create {capacity np nc : Nat} (h : pcqCreate capacity true np nc = some q) :
    Attended q := by
  obtain ⟨-, h⟩ := Option.ite_none_left_eq_some.mp h
  obtain rfl := Option.some.inj h
  exact fun _ => Nat.zero_le _

/-- Nobody is on the way: an element that is counted means that no popper sleeps. -/
theorem Attended.size_zero (h : Attended q) (hasleep : q.PopperAsleep)
    (hmain : q.pushersSignalling = 0)
    (hcalm : ∀ c < q.nPoppers, q.poppers c = .idle ∨ q.poppers c = .asleep) :
    q.pcqCurrentSize = 0 ∧ q.poppersTaken = 0 := by
  have hnone : ∀ f : PopperPc α → Bool, f .idle = false → f .asleep = false →
      Nat.count (fun c => f (q.poppers c) = true) q.nPoppers = 0 := by
    intro f hidle hsleep
    refine count_zero fun c hc htrue => ?_
    rcases hcalm c hc with hpc | hpc <;> rw [hpc] at htrue
    · exact Bool.noConfusion (hidle.symm.trans htrue)
    · exact Bool.noConfusion (hsleep.symm.trans htrue)
  have htesting : q.poppersTesting = 0 := hnone _ rfl rfl
  have hpassed : q.poppersPassed = 0 := hnone _ rfl rfl
  have htaken : q.poppersTaken = 0 := hnone _ rfl rfl
  have hsize := h hasleep
  omega

end PcQueue

end MBroker.Queue
