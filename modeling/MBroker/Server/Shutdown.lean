import MBroker.Broker.Calls
import MBroker.Server.Dispatch

/-!
# Nobody closes the server (`close_server`)

A handler that returns -1 is to close the server, and so is `main` when one of its calls fails.
But `close_server` first joins worker 0, and a worker returns only if `pcq_dequeue` gives it
`NULL`, which it never does where the tests of `pcq_current_size` count the calls under way.
Two threads in `pthread_join` for one worker are undefined and left out here.

Results:
1. `Steady.step`: the thread of no worker returns, and `main` goes to `close_server` only when
   one of its calls has failed.
2. `close_server_waits`: who calls `close_server` stays in `pthread_join`, and the others go
   on.
-/

namespace MBroker

open Queue Transition PcQueue

namespace Server

variable {s t u : Server} {e : ServerEvent} {d : MainEvent} {w : Nat}

/-- The clients' names fit, the tests of `pcq_current_size` count, and no two threads are in
`close_server`. -/
structure Singly (s : Server) (d : MainEvent) : Prop where
  counted : ∀ e, d = .server e → CountedTests s e
  closers : s.closers ≤ 1

instance (s : Server) (d : MainEvent) : Decidable (Singly s d) :=
  match d with
  | .server e => decidable_of_iff (CountedTests s e ∧ s.closers ≤ 1)
      ⟨fun h => ⟨fun _ he => MainEvent.server.inj he ▸ h.1, h.2⟩,
        fun h => ⟨h.counted e rfl, h.closers⟩⟩
  | .fails => decidable_of_iff (s.closers ≤ 1)
      ⟨fun h => ⟨fun _ he => MainEvent.noConfusion he, h⟩, fun h => h.closers⟩
  | .leaves => decidable_of_iff (s.closers ≤ 1)
      ⟨fun h => ⟨fun _ he => MainEvent.noConfusion he, h⟩, fun h => h.closers⟩

/-- No worker has returned, and `main` reads whole requests until it is in `close_server`. -/
structure Steady (s : Server) : Prop where
  ended : ∀ w, s.ended w = false
  custody : Custody s
  counted : Counted s
  reading : s.closing = true ∨ Reading s

/-- What `pcq_dequeue` returns was stored. -/
theorem Custody.returned_some (h : Custody s) (hinv : Inv s.queue) : s.returned w ≠ some none := by
  intro hnull
  have hmem : none ∈ s.transit w :=
    List.mem_append_right _ (by rw [hnull]; exact List.mem_singleton_self _)
  have hpopped : none ∈ s.queue.popped := (h.each w).subset (List.mem_append_right _ hmem)
  obtain ⟨r, -, hr⟩ := List.mem_map.mp (hinv.order.subset hpopped)
  cases hr

/-- `pthread_join` waits for worker 0. -/
theorem join_none (hended : s.ended 0 = false) (hone : s.closers ≤ 1) : s.step .join = none := by
  have hwaits : (0 < s.closers && s.ended 0 || 1 < s.closers) = false := by
    rw [hended, Bool.and_false, Bool.false_or]
    exact decide_eq_false (Nat.not_lt.mpr hone)
  unfold step
  dsimp only
  rw [hwaits]
  exact ite_self _

theorem parse_none {fresh : CharArray 32} (h : s.closing = true) :
    s.step (.parse fresh) = none := by
  unfold step
  dsimp only
  unfold parse
  rw [h]
  exact ite_self _

/-- The parser takes whatever `main` finds in the pipe. -/
theorem Steady.parses (h : Steady s) {fresh : CharArray 32} {opCode : UInt8} {input : List UInt8}
    (hs : s.step (.parse fresh) = some t) (hpipe : s.pipe = opCode :: input) :
    ∃ r rest, parser fresh opCode input = .request r rest := by
  rcases h.reading with hclosing | hreading
  · rw [parse_none hclosing] at hs
    cases hs
  · obtain ⟨c, r, read, rest, frames, -, -, -, -, hparse⟩ := hreading.head hpipe fresh
    exact ⟨r, _, hparse⟩

/-- What a step leaves as it is. -/
theorem Steady.keeps (h : Steady s) (hone : s.closers ≤ 1) (hs : s.step e = some t) :
    t.ended = s.ended ∧ t.closing = s.closing ∧ t.exited = s.exited := by
  cases moves_of_step hs with
  | failed hpipe hparser =>
    obtain ⟨r, rest, hparse⟩ := h.parses hs hpipe
    cases hparser.symm.trans hparse
  | overrun hpipe hparser =>
    obtain ⟨r, rest, hparse⟩ := h.parses hs hpipe
    cases hparser.symm.trans hparse
  -- A thread returns only when it gets `NULL`, and only stored requests come out of the queue.
  | ended hnull => exact absurd hnull (h.custody.returned_some h.counted.inv)
  | wild hnull => exact absurd hnull (h.custody.returned_some h.counted.inv)
  | exit =>
    rw [join_none (h.ended 0) hone] at hs
    cases hs
  | _ => exact ⟨rfl, rfl, rfl⟩

theorem running_of_step (hs : s.step e = some t) : s.exited = false := by
  obtain ⟨hrunning, -⟩ := Option.ite_none_left_eq_some.mp hs
  rw [Bool.or_eq_true_iff, not_or] at hrunning
  exact Bool.eq_false_of_not_eq_true hrunning.1

theorem Steady.step (h : Steady s) (hok : Singly s d) (hs : s.mainStep d = some t) : Steady t := by
  cases d with
  | server e =>
    have hmoves := moves_of_step hs
    obtain ⟨hended, hclosing, -⟩ := h.keeps hok.closers hs
    have hcounts := hok.counted e rfl
    refine ⟨fun w => hended ▸ h.ended w, h.custody.moves hmoves, h.counted.moves hcounts hmoves, ?_⟩
    rcases h.reading with hin | hreading
    · exact .inl (hclosing.trans hin)
    · exact .inr (hreading.moves (fun c hc => by subst hc; exact hcounts) hmoves)
  | fails =>
    obtain ⟨-, hs⟩ := Option.ite_none_right_eq_some.mp hs
    obtain rfl := Option.some.inj hs
    have hc := h.custody
    exact ⟨h.ended, ⟨hc.main, hc.genuine, hc.returned, hc.workers, hc.all, hc.each⟩,
      ⟨h.counted.inv, h.counted.attended⟩, .inl rfl⟩
  | leaves =>
    obtain ⟨-, hs⟩ := Option.ite_none_right_eq_some.mp hs
    obtain rfl := Option.some.inj hs
    have hc := h.custody
    exact ⟨h.ended, ⟨hc.main, hc.genuine, hc.returned, hc.workers, hc.all, hc.each⟩,
      ⟨h.counted.inv, h.counted.attended⟩, h.reading.imp_right fun hr =>
        ⟨hr.main, hr.closing, hr.fits, hr.split⟩⟩

/-- `main` calls `close_server` only where one of its calls fails, and the process ends only
where its pipe is gone. -/
theorem Steady.ends (h : Steady s) (hok : Singly s d) (hs : s.mainStep d = some t) :
    (t.closing = true → s.closing = true ∨ d = .fails) ∧ (t.exited = true → d = .leaves) := by
  cases d with
  | server e =>
    obtain ⟨-, hclosing, hexited⟩ := h.keeps hok.closers hs
    refine ⟨fun hin => .inl (hclosing ▸ hin), fun hout => ?_⟩
    cases (hexited.symm.trans hout).symm.trans (running_of_step hs)
  | fails =>
    obtain ⟨hreads, hs⟩ := Option.ite_none_right_eq_some.mp hs
    obtain rfl := Option.some.inj hs
    refine ⟨fun _ => .inr rfl, fun hout => ?_⟩
    replace hout : s.exited = true := hout
    unfold reads at hreads
    split at hreads
    · rw [hout] at hreads
      cases hreads
    · cases hreads
  | leaves =>
    obtain ⟨-, hs⟩ := Option.ite_none_right_eq_some.mp hs
    obtain rfl := Option.some.inj hs
    exact ⟨.inl, fun _ => rfl⟩

/-- A worker in `pthread_join` has no section of its own. -/
theorem closing_step (hs : s.step e = some t) (hclosing : s.broker.pcs w = .closing) :
    t.broker.pcs w = .closing := by
  have hkeep : ∀ {v : Nat} {a : Answer} {b : Broker}, s.broker.step (v, a) = some b →
    b.pcs w = .closing := by
    intro v a b hb
    rcases eq_or_ne w v with rfl | hne
    · replace hb := (Broker.step_eq_some.mp hb).2.2
      rw [hclosing] at hb
      cases a <;> cases hb
    · exact (Broker.step_others hb hne).keep (P := fun pc => pc = .closing)
        (fun _ _ hc => by cases hc) hclosing
  cases moves_of_step hs with
  | dispatched _ hb => exact hkeep hb
  | worker _ hb => exact hkeep hb
  | _ => exact hclosing

theorem closing_mainStep (hs : s.mainStep d = some t) (hclosing : s.broker.pcs w = .closing) :
    t.broker.pcs w = .closing := by
  cases d with
  | server e => exact closing_step hs hclosing
  | fails =>
    obtain ⟨-, hs⟩ := Option.ite_none_right_eq_some.mp hs
    exact Option.some.inj hs ▸ hclosing
  | leaves =>
    obtain ⟨-, hs⟩ := Option.ite_none_right_eq_some.mp hs
    exact Option.some.inj hs ▸ hclosing

/-- `main` in `close_server` stays there. -/
theorem Steady.stays (h : Steady s) (hok : Singly s d) (hs : s.mainStep d = some t)
    (hclosing : s.closing = true) : t.closing = true := by
  cases d with
  | server e => exact (h.keeps hok.closers hs).2.1.trans hclosing
  | fails =>
    obtain ⟨-, hs⟩ := Option.ite_none_right_eq_some.mp hs
    exact Option.some.inj hs ▸ rfl
  | leaves =>
    obtain ⟨-, hs⟩ := Option.ite_none_right_eq_some.mp hs
    exact Option.some.inj hs ▸ hclosing

section Runs

variable {maxSessions : Nat} {malloced : Bool} {clients : Nat → Client}
  {m : Fs.Malloc} {fds : Nat → Bool}

theorem steady_reached (hcap : maxSessions < word)
    (hstart : start maxSessions malloced clients m fds = some s)
    (hrun : Reaches mainStep Singly s t) :
    Steady t := by
  have hbegin : Steady s := by
    obtain ⟨hcustody, hreading, hcounted⟩ := counted_reached hcap hstart .refl
    have hended : ∀ w, s.ended w = false := by
      obtain ⟨queue, tfs, -, -, rfl⟩ := start_eq_some hstart
      exact fun _ => rfl
    exact ⟨hended, hcustody, hcounted, .inr hreading⟩
  exact hrun.invariant hbegin fun _ _ _ h hok hs => h.step hok hs

/-- Whoever calls `close_server` waits in `pthread_join` in every continuation, however far the
others get: no worker returns. `main` is there only if one of its calls has failed, and
`close_server` does not end the process. -/
theorem close_server_waits (hcap : maxSessions < word)
    (hstart : start maxSessions malloced clients m fds = some s)
    (hrun : Reaches mainStep Singly s t) :
    (∀ w, t.ended w = false) ∧ (t.closers ≤ 1 → t.step .join = none) ∧
      (∀ d u, Singly t d → t.mainStep d = some u →
        (u.closing = true → t.closing = true ∨ d = .fails) ∧ (u.exited = true → d = .leaves)) ∧
      ∀ u, Reaches mainStep Singly t u → (t.closing = true → u.closing = true) ∧
        ∀ w, t.broker.pcs w = .closing → u.broker.pcs w = .closing := by
  have h := steady_reached hcap hstart hrun
  refine ⟨h.ended, join_none (h.ended 0), fun d u => h.ends,
    fun u hmore => ⟨fun hclosing => ?_, fun w hclosing => ?_⟩⟩
  · have hboth : Steady u ∧ u.closing = true :=
      hmore.invariant (I := fun s => Steady s ∧ s.closing = true)
        ⟨h, hclosing⟩ fun _ _ _ hin hok hs =>
        ⟨hin.1.step hok hs, hin.1.stays hok hs hin.2⟩
    exact hboth.2
  · exact hmore.invariant hclosing fun _ _ _ hin _ hs => closing_mainStep hs hin

end Runs

/-- Worker 1 cannot open the pipe of a manager, and worker 0 takes on the next request. -/
def failedList : List ServerEvent :=
  .write (.listBoxes (.ofBytes [113])) :: servedBy 1
    ++ [.worker 1 (.opened (.ofBytes [113]) none), .worker 1 .none]

theorem close_server_waits_failed :
    ∃ t u : Server, t.broker.pcs 1 = .closing ∧ u.handled.length = 2 ∧
    u.broker.pcs 1 = .closing := by
  have hrun : (exec mainStep (fresh 3) (failedList.map .server)).any fun t =>
      t.broker.pcs 1 = .closing ∧
      ((exec mainStep t ((writeCreate :: servedBy 0).map .server)).any
        fun u => u.handled.length = 2) = true ∧
        execOk mainStep Singly t ((writeCreate :: servedBy 0).map .server) := by decide +kernel
  obtain ⟨t, hrun, ht⟩ := (Option.any_eq_true _ _).mp hrun
  obtain ⟨hclosing, hmore, hok⟩ := of_decide_eq_true ht
  obtain ⟨u, hmore, hhandled⟩ := (Option.any_eq_true _ _).mp hmore
  have hreached : Reaches mainStep Singly (fresh 3) t := .of_exec hrun (by decide +kernel)
  have hwaits := (close_server_waits (by decide) (start_fresh 2) hreached).2.2.2
  exact ⟨t, u, hclosing, of_decide_eq_true hhandled, (hwaits u (.of_exec hmore hok)).2 1 hclosing⟩

end Server

end MBroker
