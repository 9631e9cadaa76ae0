import MBroker.Broker.Sleepers

/-!
# What `boxes_lock` guards

A removal that fails half way leaves a table that is out of order: the slot is free and has
a name still. The handler returns -1 without giving `boxes_lock` back, so nobody else looks
at that table.

Results:
1. `step_locks`: who takes `boxes_lock` and who gives it back.
2. `Guarded.step`: the table is in order, or the worker whose removal failed keeps the lock.
3. `Guarded.table_free`: whoever can take `boxes_lock` finds the table in order.
-/

namespace MBroker

open FirstFit Transition Fs

namespace Broker

variable {b b' x : Broker} {v w : Nat} {pc : Pc} {a : Answer}

/-! ## Taking the lock and giving it back -/

/-- What a section of worker `w` does to `boxes_lock`. -/
inductive LockStep (b x : Broker) (w : Nat) : Prop
  | kept :
    x.boxesLock = b.boxesLock → ((x.pcs w).HasTableLock → (b.pcs w).HasTableLock) → LockStep b x w
  | taken : b.boxesLock = none → x.boxesLock = some w → LockStep b x w
  | released :
    (b.pcs w).HasTableLock → x.boxesLock = none → ¬ (x.pcs w).HasTableLock → LockStep b x w

theorem LockStep.of_setPc {y : Broker} (hlock : y.boxesLock = b.boxesLock)
    (hpc : pc.HasTableLock → (b.pcs w).HasTableLock) : LockStep b (y.setPc w pc) w := by
  refine .kept hlock fun h => hpc ?_
  rwa [setPc_self] at h

theorem not_hasTableLock_of_inSession (h : pc.InSession = true) : ¬ pc.HasTableLock := by
  intro hlock
  cases pc <;> first | exact hlock.elim | cases h

theorem Continues.boxesLock (h : Continues b w pc x) : x.boxesLock = b.boxesLock := by
  cases h with
  | historySendOp _ _ hx =>
    obtain ⟨sent, rfl⟩ := emit_sent hx
    rfl
  | historyNext hx =>
    obtain ⟨sent, rfl⟩ := emit_sent hx
    rfl
  | historyLast hx =>
    obtain ⟨sent, rfl⟩ := emit_sent hx
    rfl
  | followSendOp hx =>
    obtain ⟨sent, rfl⟩ := emit_sent hx
    rfl
  | followSendMessage hx =>
    obtain ⟨sent, rfl⟩ := emit_sent hx
    rfl
  | _ => rfl

theorem returnFinish_locks {y : Broker} (hlock : y.boxesLock = b.boxesLock) :
    LockStep b (y.returnFinish w) w :=
  .of_setPc ((finishClientSession_frame y w).boxesLock.trans hlock) nofun

theorem registerBox_locks (stack : List UInt8) : LockStep b (b.registerBox w stack) w := by
  have hlock : (b.registerBox w stack).boxesLock = b.boxesLock := by
    cases hget : b.getBox (b.clients w).boxName.str with
    | none =>
      rw [registerBox_absent hget]
      exact (close_frame b w _).boxesLock
    | some i =>
      by_cases hop : (b.clients w).opcode = opCodeRegistPub
      · by_cases hone : (b.boxes i).nPublishers = 1
        · rw [registerBox_rejected hget hop hone]
          exact (finishClientSession_frame (b.attach w i) w).boxesLock
        · rw [registerBox_publisher hget hop hone]
          rfl
      · rw [registerBox_subscriber hget hop]
        rfl
  refine .kept hlock fun hhas => ?_
  unfold Broker.registerBox at hhas
  dsimp only at hhas
  split at hhas
  · rw [setPc_self] at hhas
    exact hhas.elim
  · split at hhas
    · split at hhas
      · rw [returnFinish, setPc_self] at hhas
        exact hhas.elim
      · rw [setPc_self] at hhas
        exact hhas.elim
    · rw [setPc_self] at hhas
      exact hhas.elim

theorem Serves.locks (h : Serves b w pc a x) (hpc : b.pcs w = pc) : LockStep b x w := by
  have hmove : ∀ {y : Broker} {next : Pc}, y.boxesLock = b.boxesLock →
      (next.HasTableLock → pc.HasTableLock) →
      LockStep b (y.setPc w next) w := fun hlock hnext => .of_setPc hlock (hpc ▸ hnext)
  cases h with
  | @request r =>
    refine .kept rfl fun hhas => ?_
    rw [show (b.dequeued w r).pcs w = handlerOf r.opcode from setPc_self ..] at hhas
    unfold Broker.handlerOf at hhas
    split_ifs at hhas <;> exact hhas.elim
  | @returned result =>
    unfold Broker.returned
    split
    · split
      · exact .kept rfl id
      · exact hmove rfl False.elim
    · exact hmove rfl False.elim
  | @opened pc next _ fd hnext =>
    refine hmove rfl fun hhas => ?_
    cases pc <;> cases hnext <;> first | exact hhas.elim | trivial
  | notOpened => exact hmove rfl False.elim
  | registerBox => exact registerBox_locks _
  | @createLock malloced hfree =>
    refine hmove ?_ False.elim
    rcases createSection_cases b w malloced with ⟨msg, heq, -⟩ | ⟨-, -, -, ⟨j, -, heq⟩ | ⟨-, heq⟩⟩
    · rw [heq]
    · rw [heq]
      rfl
    · rw [heq]
  | createNotOpened => exact hmove rfl False.elim
  | createCrash => exact .kept rfl id
  | createFailed => exact hmove rfl False.elim
  | createFile => exact hmove rfl False.elim
  | removeLock hfree => exact .taken hfree rfl
  | removeNotOpened =>
    refine .released (hpc ▸ trivial) rfl fun hhas => ?_
    rw [setPc_self] at hhas
    exact hhas.elim
  | removeBody => exact .kept (removeBody_removes b w).sameLocks.2 fun _ => hpc ▸ trivial
  | @answering bytes writes locked y hy =>
    obtain ⟨sent, rfl⟩ := emit_sent hy
    refine hmove rfl fun hhas => ?_
    cases locked
    · exact hhas.elim
    · trivial
  | notAnswered hy =>
    obtain ⟨sent, rfl⟩ := emit_sent hy
    exact hmove rfl False.elim
  | @answered locked =>
    cases locked with
    | false => exact returnFinish_locks rfl
    | true =>
      refine .released (hpc ▸ trivial) (finishClientSession_frame _ w).boxesLock fun hhas => ?_
      rw [Broker.answered, if_pos rfl, returnFinish, setPc_self] at hhas
      exact hhas.elim
  | listEnd => exact returnFinish_locks rfl
  | listSkip => exact hmove rfl False.elim
  | listWrite hy =>
    obtain ⟨sent, rfl⟩ := emit_sent hy
    exact hmove rfl False.elim
  | listFailed hy =>
    obtain ⟨sent, rfl⟩ := emit_sent hy
    exact hmove rfl False.elim

theorem step_locks (hs : b.step (w, a) = some b') : LockStep b b' w := by
  rcases step_cases hs with hends | hcrash | hgoes | hserves
  · obtain ⟨r, hret⟩ := hends.returns
    refine .kept hends.sameLocks.2 fun hhas => ?_
    rw [hret] at hhas
    exact hhas.elim
  · refine .kept hcrash.sameLocks.2 fun hhas => ?_
    rwa [hcrash.same.1] at hhas
  · exact .kept hgoes.boxesLock fun hhas =>
      absurd hhas (not_hasTableLock_of_inSession hgoes.goesOn.session)
  · exact hserves.locks rfl

/-! ## The table under the lock -/

/-- Who is in a section under `boxes_lock` has it. The table is in order, or the worker whose
removal failed has the lock and never gives it back. -/
structure Guarded (b : Broker) : Prop where
  owned : ∀ v, (b.pcs v).HasTableLock → b.boxesLock = some v
  table : TableInvariant b ∨ ∃ v, b.boxesLock = some v ∧ (b.pcs v = .ret (-1) ∨ b.pcs v = .closing)

theorem Guarded.table_free (h : Guarded b) (hfree : b.boxesLock = none) : TableInvariant b := by
  rcases h.table with htable | ⟨v, hlock, -⟩
  · exact htable
  · cases hfree.symm.trans hlock

theorem TableInvariant.createLock (h : TableInvariant b) {malloced : Bool}
    (hs : b.createLock w malloced = some b') : TableInvariant b' := by
  obtain ⟨-, hs⟩ := Option.ite_none_right_eq_some.mp hs
  obtain rfl := Option.some.inj hs
  rcases createSection_cases b w malloced with ⟨errorMsg, heq, -⟩ | ⟨hn, hnew, -,
    ⟨i, hi, heq⟩ | ⟨hnone, heq⟩⟩
  · rw [heq]
    exact h.of_same ⟨rfl, rfl, fun _ => rfl⟩
  · rw [heq]
    exact (h.addBox hi hnew hn).of_same ⟨rfl, rfl, fun _ => rfl⟩
  · obtain ⟨i, hi⟩ := h.freeSlot hn
    cases hnone.symm.trans hi

/-- The box is removed whole, or the handler returns -1. -/
theorem TableInvariant.removes (h : TableInvariant b) (hx : Removes b w x) :
    x.pcs w = .ret (-1) ∨ TableInvariant x := by
  cases hx with
  | absent => exact .inr (h.of_same ⟨rfl, rfl, fun _ => rfl⟩)
  | unfinished => exact .inl (setPc_self ..)
  | crash _ hfinish =>
    have hsame := (Kept.of_finish hfinish).sameTable
    exact .inr (h.of_same ⟨hsame.numBoxes, hsame.freeBoxes, hsame.boxName⟩)
  | notUnlinked => exact .inl (setPc_self ..)
  | removed _ hfinish _ hr hret =>
    obtain rfl := (removeBox_ret hr).resolve_left hret
    have hremoved := (h.of_same (Kept.of_finish hfinish).sameTable).removeBox hr
    exact .inr (hremoved.of_same ⟨rfl, rfl, fun _ => rfl⟩)

/-- Every section but a removal keeps the table in order. -/
theorem TableInvariant.step (h : TableInvariant b) (hs : b.step (w, a) = some b') :
    (b.pcs w = .removeBody ∧ b'.pcs w = .ret (-1)) ∨ TableInvariant b' := by
  by_cases hcreate : b.pcs w = .createLock
  · have hserves := step_serves hs (by rw [hcreate]; rfl)
    rw [hcreate] at hserves
    cases hserves with
    | opened hnext => cases hnext
    | notOpened hpc => rcases hpc with hpc | hpc <;> cases hpc
    | createLock hlock => exact .inr (h.createLock (if_pos hlock))
  · by_cases hremove : b.pcs w = .removeBody
    · obtain rfl := removeBody_of_step hs hremove
      exact (h.removes (removeBody_removes b w)).imp (⟨hremove, ·⟩) id
    · exact .inr (h.of_same (step_sameTable hs hcreate hremove))

/-- A handler that has returned -1 leads to `close_server`, and stays there. -/
theorem failed_stays (hs : b.step (w, a) = some b')
    (hpc : b.pcs v = .ret (-1) ∨ b.pcs v = .closing) :
    b'.pcs v = .ret (-1) ∨ b'.pcs v = .closing := by
  rcases eq_or_ne v w with rfl | hne
  · have hserves := step_serves hs (by rcases hpc with hpc | hpc <;> rw [hpc] <;> rfl)
    rcases hpc with hpc | hpc
    · rw [hpc] at hserves
      cases hserves with
      | returned =>
        unfold Broker.returned
        split
        · split
          · exact .inl hpc
          · exact .inr (setPc_self ..)
        · next hne => exact absurd rfl hne
      | opened hnext => cases hnext
      | notOpened hpc => rcases hpc with hpc | hpc <;> cases hpc
    · rw [hpc] at hserves
      cases hserves with
      | opened hnext => cases hnext
      | notOpened hpc => rcases hpc with hpc | hpc <;> cases hpc
  · rcases step_others hs hne with hsame | ⟨i, n, hasleep, -⟩
    · rwa [hsame]
    · rcases hpc with hpc | hpc <;> cases hasleep.symm.trans hpc

theorem Guarded.step (h : Guarded b) (hs : b.step (w, a) = some b') : Guarded b' := by
  -- Nobody but the owner gives the lock back.
  have hkept : ∀ v ≠ w, b.boxesLock = some v → b'.boxesLock = some v := by
    intro v hv hlock
    cases step_locks hs with
    | kept hsame => exact hsame.trans hlock
    | taken hfree => cases hfree.symm.trans hlock
    | released hhas => exact absurd (Option.some.inj (hlock.symm.trans (h.owned w hhas))) hv
  refine ⟨fun v hhas => ?_, ?_⟩
  · rcases eq_or_ne v w with rfl | hv
    · cases step_locks hs with
      | kept hsame hbefore => exact hsame.trans (h.owned v (hbefore hhas))
      | taken _ htaken => exact htaken
      | released _ _ hnot => exact absurd hhas hnot
    · refine hkept v hv (h.owned v ?_)
      rcases step_others hs hv with hsame | ⟨i, n, -, hwoken⟩
      · rwa [hsame] at hhas
      · rw [hwoken] at hhas
        exact hhas.elim
  · rcases h.table with htable | ⟨v, hlock, hfailed⟩
    · rcases htable.step hs with ⟨hremove, hret⟩ | htable'
      · refine .inr ⟨w, ?_, .inl hret⟩
        obtain rfl := removeBody_of_step hs hremove
        exact (removeBody_removes b w).sameLocks.2.trans (h.owned w (hremove ▸ trivial))
      · exact .inl htable'
    · refine .inr ⟨v, ?_, failed_stays hs hfailed⟩
      rcases eq_or_ne v w with rfl | hv
      · cases step_locks hs with
        | kept hsame => exact hsame.trans hlock
        | taken hfree => cases hfree.symm.trans hlock
        | released hhas => rcases hfailed with hpc
        | hpc <;> exact absurd hhas (by rw [hpc]; exact id)
      · exact hkept v hv hlock

theorem Guarded.reached (h : Guarded b) (hrun : Reaches Broker.step anyStep b b') : Guarded b' :=
  hrun.invariant h fun _ _ _ h _ hs => h.step hs

theorem Guarded.of_start (maxSessions : Nat) (clients : Nat → Client)
    (m : Malloc) (fds : Nat → Bool) :
    Guarded (start maxSessions clients m fds) :=
  ⟨fun _ => False.elim, .inl (.of_start ..)⟩

end Broker

end MBroker
