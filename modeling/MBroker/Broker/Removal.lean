import MBroker.Broker.Finishing
import MBroker.Broker.Sessions

/-!
# Sessions of a box that is removed

`handle_tfs_remove_box` finishes the sessions whose records carry the name of the box:
it closes the client's pipe and resets the record, while the worker of the session goes
on with its loop and keeps its pointer to the box. Nothing is broadcast.

A run is `tracked` when it comes with the sessions that were attached to a box when it
was removed, and have not ended since. Sections take time in it (`endings`), so that a
publisher may be waiting in `read` when its pipe is closed, and goes on waiting.

Results:
1. `removeBody_frees`: what the removal leaves of a session that carries the name.
2. `removal_releases`: a publisher that was reading, writing or counting, but not waiting for
   its message, ends with result 0 after at most four more sections.
3. `left_asleep`: a subscriber that was asleep stays so.
-/

namespace MBroker

open FirstFit Transition Fs

namespace Pc

/-- A publisher that reads its pipe next, or has its handle already. -/
def Detached : Pc → Bool
  | .pubOpcode _ | .pubMessage _ | .pubWrite .. | .pubCount .. => true
  | _ => false

/-- The sections that are left of the loop once the pipe is closed. -/
def loopLeft : Pc → Nat
  | .pubWrite .. => 4
  | .pubCount .. => 3
  | .pubOpcode _ => 2
  | .pubMessage _ => 1
  | _ => 0

end Pc

namespace Broker

variable {b b' x : Broker} {v w i n : Nat} {a : Answer} {rel : Nat → Bool}
  {s s' : Broker × (Nat → Bool)}

/-- Worker `v` is in a session on the box in slot `i`. -/
def attached (b : Broker) (v i : Nat) : Bool :=
  v < b.maxSessions && (b.pcs v).InSession && (b.clients v).box == some i

/-- The slot that worker `w` has emptied in the section from `b` to `b'`. -/
def removal (b b' : Broker) (w : Nat) : Option Nat :=
  if b.pcs w = .removeBody ∧ b'.pcs w = .answering (answer opCodeRemoveBoxAnswer 0 "") true then
    b.getBox (b.clients w).boxName.str
  else none

/-- A section, and the sessions that have lost their box and are not over. -/
def tracked (s : Broker × (Nat → Bool)) (e : Nat × Answer) : Option (Broker × (Nat → Bool)) :=
  (s.1.step e).map fun b' => (b', fun v =>
    (s.2 v || (removal s.1 b' e.1).any (s.1.attached v)) && (b'.pcs v).InSession)

/-- `tfs_write` takes the message, or a part of it. -/
def accepts (b : Broker) (fhandle : Int) (message : List UInt8) : Prop :=
  ∃ t m, tfsWrite b.tfs fhandle (message ++ [0]) ((messageStr message).length + 1)
    = .ok (t, m) ∧ 0 ≤ m

/-- The removal of a box finds publishers only, under its own name, none of which is
about to open the file; a handle that such a publisher has is still good for its
write; and `open` does not give a closed descriptor away before its session has read
from it. -/
structure Undisturbed (s : Broker × (Nat → Bool)) (e : Nat × Answer) : Prop where
  removal : s.1.pcs e.1 = .removeBody → ∀ i, s.1.getBox (s.1.clients e.1).boxName.str = some i →
    ∀ v, s.1.attached v i = true → (s.1.pcs v).Detached = true ∧
      (s.1.clients v).boxName.str = (s.1.clients e.1).boxName.str
  write : ∀ i message fhandle, s.1.pcs e.1 = .pubWrite i message fhandle → s.2 e.1 = true →
    s.1.accepts fhandle message
  opens : ∀ (path : CStr) (fd : Nat), e.2 = .opened path (some fd) → ∀ v, s.2 v = true →
    (s.1.clients v).clientPipe ≠ fd

/-- The tracked sections, which take time. -/
def endings : Threads (Broker × (Nat → Bool)) Nat Answer Bool := threads tracked Prod.fst

abbrev Endings : Type := Timed (Broker × (Nat → Bool)) Nat Answer Bool

abbrev EndingEvent : Type := TimedEvent (Broker × (Nat → Bool)) Nat Answer Bool

/-- No sections clash; they meet the condition as they end; and no publisher waits in `read`
for a message when its box is removed. -/
structure Unawaited (s : Endings) (e : EndingEvent) :
    Prop extends endings.Meets Undisturbed s e where
  reading : ∀ w, e = .ends w → s.state.1.pcs w = .removeBody →
    ∀ i, s.state.1.getBox (s.state.1.clients w).boxName.str = some i →
      ∀ v message, s.state.1.attached v i = true → s.state.1.pcs v = .pubMessage message →
      s.under v = none

/-! ## What the removal leaves of a session -/

/-- A removal that is completed has finished all sessions of that name. -/
theorem removeBody_done (hpc : b.pcs w = .removeBody)
    (hi : b.getBox (b.clients w).boxName.str = some i)
    (hdone : (b.removeBody w).pcs w = .answering (answer opCodeRemoveBoxAnswer 0 "") true) :
    (b.finishSessions w (b.clients w).boxName.str 0 b.maxSessions).2 ≠ -1 ∧
      ∃ x, (b.finishSessions w (b.clients w).boxName.str 0 b.maxSessions).1.removeBox
          (b.clients w).boxName.str = .ok (x, 0) ∧
        b.removeBody w = x.setPc w (.answering (answer opCodeRemoveBoxAnswer 0 "") true) := by
  have hremoves := removeBody_removes b w
  generalize b.removeBody w = x at hremoves hdone ⊢
  cases hremoves with
  | absent hnone =>
    rw [hi] at hnone
    cases hnone
  | unfinished =>
    rw [setPc_self] at hdone
    cases hdone
  | @crash _ y _ _ _ hfinish =>
    have hstay : y.crash.pcs w = .removeBody := (congrFun (Kept.of_finish hfinish).pcs w).trans hpc
    rw [hstay] at hdone
    cases hdone
  | notUnlinked =>
    rw [setPc_self] at hdone
    cases hdone
  | removed _ hfinish hret hremove hret' =>
    obtain rfl := (removeBox_ret hremove).resolve_left hret'
    rw [hfinish]
    exact ⟨hret, _, hremove, rfl⟩

/-- The session has lost its box and its pipe, and opens no file before it reads. -/
structure Freed (b : Broker) (v : Nat) : Prop where
  lt : v < b.maxSessions
  detached : (b.pcs v).Detached = true
  box : (b.clients v).box = none
  closed : b.isOpenFd (b.clients v).clientPipe = false

theorem removeBody_frees (hpc : b.pcs w = .removeBody)
    (hi : b.getBox (b.clients w).boxName.str = some i)
    (hdone : (b.removeBody w).pcs w = .answering (answer opCodeRemoveBoxAnswer 0 "") true)
    (hlt : v < b.maxSessions) (hdetached : (b.pcs v).Detached = true)
    (hname : (b.clients v).boxName.str = (b.clients w).boxName.str) :
    Freed (b.removeBody w) v ∧ (b.removeBody w).pcs v = b.pcs v := by
  have hv : v ≠ w := by
    rintro rfl
    rw [hpc] at hdetached
    cases hdetached
  obtain ⟨hret, x, hremove, heq⟩ := removeBody_done hpc hi hdone
  obtain ⟨hbox, hclosed⟩ := (finishSessions_finishesAll hret).frees
    ⟨Nat.zero_le v, by omega, hv, hname⟩
  have hkept := finishSessions_kept b w (b.clients w).boxName.str 0 b.maxSessions
  obtain ⟨hmax, hclients, hfds⟩ := removeBox_same hremove
  have hpcs : (b.removeBody w).pcs v = b.pcs v := by
    rw [heq, setPc_of_ne _ _ hv, removeBox_pcs hremove, hkept.pcs]
  refine ⟨⟨?_, hpcs ▸ hdetached, ?_, ?_⟩, hpcs⟩ <;> rw [heq]
  · rw [show (x.setPc w _).maxSessions = x.maxSessions from rfl, hmax, hkept.maxSessions]
    exact hlt
  · rw [show (x.setPc w _).clients = x.clients from rfl, hclients]
    exact hbox
  · rw [show (x.setPc w _).clients = x.clients from rfl, hclients, isOpenFd,
      show (x.setPc w _).fds = x.fds from rfl, hfds]
    exact hclosed

/-! ## What becomes of it -/

theorem Freed.ne_asleep (h : Freed b v) (i n : Nat) : b.pcs v ≠ .asleep i n := by
  intro hpc
  have hdetached := h.detached
  rw [hpc] at hdetached
  cases hdetached

theorem Freed.inSession (h : Freed b v) : (b.pcs v).InSession = true := by
  have hdetached := h.detached
  generalize b.pcs v = pc at hdetached
  cases pc <;> first | rfl | cases hdetached

/-- The other workers leave it alone. -/
theorem Freed.stays (h : Freed b v) (hs : b.step (w, a) = some b') (hv : v ≠ w)
    (hfd : ∀ (path : CStr) (fd : Nat), a = .opened path (some fd) → (b.clients v).clientPipe ≠ fd) :
    Freed b' v ∧ b'.pcs v = b.pcs v := by
  have hspared := step_spares hs hv h.closed h.ne_asleep hfd
  refine ⟨⟨?_, ?_, ?_, ?_⟩, hspared.pcs⟩
  · rw [hspared.maxSessions]
    exact h.lt
  · rw [hspared.pcs]
    exact h.detached
  · rw [hspared.clients]
    exact h.box
  · rw [hspared.clients]
    exact hspared.closed h.closed

/-- Its own section: the loop is over with result 0, or nearer to its end. -/
def Shortened (b b' : Broker) (v : Nat) : Prop :=
  b'.stopped = b.stopped ∧ (b'.pcs v = .ret 0 ∨
    Freed b' v ∧ (b'.pcs v).loopLeft < (b.pcs v).loopLeft)

theorem Freed.pipeClosed (h : Freed b v) : b.pipeClosed v = b.setPc v (.ret 0) :=
  if_neg (not_not_intro h.box)

theorem Freed.endSession (h : Freed b v) (result : Int) :
    b.endSession v result = b.setPc v (.ret result) := by
  rw [Broker.endSession, finishClientSession_of_closed h.closed]

/-- The message of a publisher whose pipe was closed before it asked for it is not read. -/
theorem Freed.shortens (h : Freed b v) (hs : b.step (v, a) = some b')
    (hread : ∀ message bytes, b.pcs v = .pubMessage message → a = .read bytes → bytes = [])
    (hwrite : ∀ i message fhandle, b.pcs v = .pubWrite i message fhandle →
      b.accepts fhandle message) :
    Shortened b b' v := by
  replace hs := (step_eq_some.mp hs).2.2
  have hdetached := h.detached
  dsimp only at hs
  cases hpc : b.pcs v with
  | pubOpcode message =>
    rw [hpc] at hs
    cases a with
    | read bytes =>
      replace hs : b.pubOpcode v message bytes = some b' := hs
      unfold Broker.pubOpcode at hs
      split at hs
      · split at hs
        · rw [h.pipeClosed] at hs
          obtain rfl := Option.some.inj hs
          exact ⟨rfl, Or.inl (setPc_self ..)⟩
        · -- An operation code that it has waited for: the next read is of a closed pipe.
          obtain rfl := Option.some.inj hs
          refine ⟨rfl, Or.inr ⟨⟨h.lt, ?_, h.box, h.closed⟩, ?_⟩⟩
          · rw [setPc_self]
            rfl
          · rw [setPc_self, hpc]
            exact Nat.lt_succ_self 1
      · cases hs
    | _ => cases hs
  | pubMessage message =>
    rw [hpc] at hs
    cases a with
    | read bytes =>
      replace hs : b.pubMessage v message bytes = some b' := hs
      unfold Broker.pubMessage at hs
      split at hs
      · rw [if_pos (hread message bytes hpc rfl), h.pipeClosed] at hs
        obtain rfl := Option.some.inj hs
        exact ⟨rfl, Or.inl (setPc_self ..)⟩
      · cases hs
    | _ => cases hs
  | pubWrite i message fhandle =>
    rw [hpc] at hs
    cases a with
    | none =>
      obtain rfl := Option.some.inj hs
      obtain ⟨t, m, hok, hnn⟩ := hwrite i message fhandle hpc
      -- A message on its way is still written, and then counted.
      have hfreed : Freed { b with tfs := t } v := ⟨h.lt, h.detached, h.box, h.closed⟩
      simp only [Broker.pubWrite, hok, if_neg (Int.not_lt.mpr hnn)]
      split
      · rw [hfreed.endSession]
        exact ⟨rfl, Or.inl (setPc_self ..)⟩
      · refine ⟨rfl, Or.inr ⟨⟨h.lt, ?_, h.box, h.closed⟩, ?_⟩⟩
        · rw [setPc_self]
          rfl
        · rw [setPc_self, hpc]
          exact Nat.lt_succ_self 3
    | _ => cases hs
  | pubCount i message =>
    rw [hpc] at hs
    cases a with
    | none =>
      obtain rfl := Option.some.inj hs
      refine ⟨rfl, Or.inr ⟨⟨h.lt, ?_, h.box, h.closed⟩, ?_⟩⟩
      · rw [pubCount, setPc_self]
        rfl
      · rw [pubCount, setPc_self, hpc]
        exact Nat.lt_succ_self 2
    | _ => cases hs
  | _ =>
    rw [hpc] at hdetached
    cases hdetached

/-- It waits for nobody but its client. -/
theorem Freed.goesOn (h : Freed b v) (hrunning : b.stopped = false) :
    ∃ a b', (∀ opened, a.fits opened = true) ∧ b.step (v, a) = some b' := by
  have hdetached := h.detached
  have hstep : ∀ a, b.step (v, a) = b.stepWorker v (b.pcs v) a := step_of hrunning h.lt
  have hnothing : ∀ opened, (Answer.read []).fits opened = true := fun opened => Bool.or_true opened
  cases hpc : b.pcs v with
  | pubOpcode message =>
    refine ⟨.read [], b.pipeClosed v, hnothing, ?_⟩
    rw [hstep, hpc]
    rfl
  | pubMessage message =>
    refine ⟨.read [], b.pipeClosed v, hnothing, ?_⟩
    rw [hstep, hpc]
    rfl
  | pubWrite i message fhandle =>
    refine ⟨.none, b.pubWrite v i message fhandle, fun _ => rfl, ?_⟩
    rw [hstep, hpc]
    rfl
  | pubCount i message =>
    refine ⟨.none, b.pubCount v i message, fun _ => rfl, ?_⟩
    rw [hstep, hpc]
    rfl
  | _ =>
    rw [hpc] at hdetached
    cases hdetached

/-- Whether it can make use of an answer is seen from where it stands. -/
theorem stepWorker_detached {pc : Pc} (h : pc.Detached = true)
    (b x : Broker) (v : Nat) (a : Answer) :
    (b.stepWorker v pc a).isSome = (x.stepWorker v pc a).isSome := by
  have hread : ∀ (b : Broker) (message bytes : List UInt8),
    (b.pubOpcode v message bytes).isSome = canRead bytes 1 := by
    intro b message bytes
    unfold Broker.pubOpcode
    split
    · next hread => split <;> exact hread.symm
    · next hno => exact (Bool.eq_false_iff.mpr hno).symm
  have hmessage : ∀ (b : Broker) (message bytes : List UInt8),
      (b.pubMessage v message bytes).isSome = canRead bytes messageLength := by
    intro b message bytes
    unfold Broker.pubMessage
    split
    · next hread =>
      split
      · exact hread.symm
      · split <;> exact hread.symm
    · next hno => exact (Bool.eq_false_iff.mpr hno).symm
  cases pc with
  | pubOpcode message =>
    cases a with
    | read bytes => exact (hread b message bytes).trans (hread x message bytes).symm
    | _ => rfl
  | pubMessage message =>
    cases a with
    | read bytes => exact (hmessage b message bytes).trans (hmessage x message bytes).symm
    | _ => rfl
  | pubWrite => cases a <;> rfl
  | pubCount => cases a <;> rfl
  | _ => cases h

theorem Freed.ready (h : Freed b v) (hx : Freed x v) (hpc : x.pcs v = b.pcs v)
    (hrunning : x.stopped = false)
    (hs : (b.step (v, a)).isSome = true) : (x.step (v, a)).isSome = true := by
  obtain ⟨y, hy⟩ := Option.isSome_iff_exists.mp hs
  rw [step_of hrunning hx.lt, hpc, ← stepWorker_detached h.detached b x v a]
  exact Option.isSome_iff_exists.mpr ⟨y, (step_eq_some.mp hy).2.2⟩

/-! ## Runs -/

theorem attached_eq_true : b.attached v i = true ↔
    v < b.maxSessions ∧ (b.pcs v).InSession = true ∧ (b.clients v).box = some i := by
  simp [attached, and_assoc]

theorem removal_eq_some (h : removal b b' w = some i) : b.pcs w = .removeBody ∧
    b'.pcs w = .answering (answer opCodeRemoveBoxAnswer 0 "") true ∧
    b.getBox (b.clients w).boxName.str = some i := by
  unfold removal at h
  split at h
  · next hc => exact ⟨hc.1, hc.2, h⟩
  · cases h

/-- A session that has lost its box: it does not get the message that it asks for, and it can
end the section that is under way. -/
structure Leaving (s : Endings) (v : Nat) : Prop where
  freed : Freed s.state.1 v
  hears : ∀ message k a, s.state.1.pcs v = .pubMessage message → s.under v = some (k, a) →
    k = false ∧ ∀ bytes, a = some (.read bytes) → bytes = []
  ready : s.state.1.stopped = false → ∀ k a, s.under v = some (k, some a) →
    (s.state.1.step (v, a)).isSome = true

def AllLeaving (s : Endings) : Prop := ∀ v, s.state.2 v = true → Leaving s v

section Leaving

variable {s s' : Endings} {e : EndingEvent} {t : Broker × (Nat → Bool)} {k : Bool}

theorem tracked_eq_some {t u : Broker × (Nat → Bool)} {e : Nat × Answer}
    (h : tracked t e = some u) :
    t.1.step e = some u.1 ∧
      ∀ v, u.2 v = ((t.2 v || (removal t.1 u.1 e.1).any (t.1.attached v)) &&
        (u.1.pcs v).InSession) := by
  obtain ⟨b, hb, rfl⟩ := Option.map_eq_some_iff.mp h
  exact ⟨hb, fun _ => rfl⟩

theorem Leaving.begins (h : Leaving s v) (w : Nat) : Leaving
    ⟨s.state, Function.update s.under w (some (endings.note s.state w, none))⟩ v := by
  rcases eq_or_ne v w with rfl | hv
  · refine ⟨h.freed, fun message k a hpc hunder => ?_, fun _ k a hunder => ?_⟩
    · dsimp only at hunder
      rw [Function.update_self] at hunder
      cases hunder
      exact ⟨h.freed.closed, fun _ ha => by cases ha⟩
    · dsimp only at hunder
      rw [Function.update_self] at hunder
      cases hunder
  · have hsame : Function.update s.under w (some (endings.note s.state w, none)) v = s.under v :=
      Function.update_of_ne hv ..
    exact ⟨h.freed, fun message k a hpc hunder => h.hears message k a hpc (hsame ▸ hunder),
      fun hrunning k a hunder => h.ready hrunning k a (hsame ▸ hunder)⟩

theorem Leaving.answered (h : Leaving s v) (hunder : s.under w = some (k, none))
    (hfits : a.fits k = true)
    (hs : (tracked s.state (w, a)).isSome = true) :
    Leaving ⟨s.state, Function.update s.under w (some (k, some a))⟩ v := by
  rcases eq_or_ne v w with rfl | hv
  · refine ⟨h.freed, fun message l c hpc hl => ?_, fun _ l c hl => ?_⟩
    · dsimp only at hl
      rw [Function.update_self] at hl
      cases hl
      obtain ⟨hclosed, -⟩ := h.hears message k none hpc hunder
      refine ⟨hclosed, fun bytes ha => ?_⟩
      cases Option.some.inj ha
      rw [hclosed] at hfits
      simpa [Answer.fits] using hfits
    · dsimp only at hl
      rw [Function.update_self] at hl
      cases hl
      rwa [tracked, Option.isSome_map] at hs
  · have hsame : Function.update s.under w (some (k, some a)) v
      = s.under v := Function.update_of_ne hv ..
    exact ⟨h.freed, fun message l c hpc hl => h.hears message l c hpc (hsame ▸ hl),
      fun hrunning l c hl => h.ready hrunning l c (hsame ▸ hl)⟩

/-- Another worker has ended its section. -/
theorem Leaving.beside (h : Leaving s v) (hv : v ≠ w) (hok : Undisturbed s.state (w, a))
    (hrel : s.state.2 v = true) (hs : tracked s.state (w, a) = some t) :
    Leaving ⟨t, Function.update s.under w none⟩ v ∧ t.1.pcs v = s.state.1.pcs v := by
  obtain ⟨hstep, -⟩ := tracked_eq_some hs
  obtain ⟨hfreed, hpc⟩ := h.freed.stays hstep hv fun path fd hfd => hok.opens path fd hfd v hrel
  have hsame : Function.update s.under w none v = s.under v := Function.update_of_ne hv ..
  refine ⟨⟨hfreed, fun message k a hat hunder => ?_, fun hrunning k a hunder => ?_⟩, hpc⟩
  · exact h.hears message k a (hpc ▸ hat) (hsame ▸ hunder)
  · have hbefore : s.state.1.stopped = false := (step_eq_some.mp hstep).1
    exact h.freed.ready hfreed hpc hrunning (h.ready hbefore k a (hsame ▸ hunder))

/-- Its own section has ended. -/
theorem Leaving.shortens (h : Leaving s v) (hunder : s.under v = some (k, some a))
    (hok : Undisturbed s.state (v, a)) (hrel : s.state.2 v = true)
    (hs : tracked s.state (v, a) = some t) :
    Shortened s.state.1 t.1 v := by
  refine h.freed.shortens (tracked_eq_some hs).1 (fun message bytes hpc ha => ?_)
    fun i message fhandle hpc =>
    hok.write i message fhandle hpc hrel
  exact (h.hears message k (some a) hpc hunder).2 bytes (congrArg some ha)

/-- No section of a session on the box is under way when it is removed, but for a call that
still waits. -/
theorem waiting_of_calm (hcalm : ∀ u v, endings.clashing s u v = false) (hv : v ≠ w)
    (hunder : s.under w = some (k, some a)) (hpc : s.state.1.pcs w = .removeBody)
    (hi : s.state.1.getBox (s.state.1.clients w).boxName.str = some i)
    (hbox : (s.state.1.clients v).box = some i) {l : Bool} {c : Answer} :
    s.under v ≠ some (l, some c) := by
  intro hl
  have hno := hcalm w v
  unfold Threads.clashing at hno
  rw [hunder, hl] at hno
  dsimp only at hno
  rw [show endings.clash s.state = s.state.1.clash from rfl,
    removesFrom_of_box hpc hi hbox, Bool.and_true,
    decide_eq_false_iff_not, not_not] at hno
  exact hv hno.symm

/-- The box of a session has just been removed. -/
theorem leaving_now (hok : Unawaited s (.ends w)) (hunder : s.under w = some (k, some a))
    (hs : tracked s.state (w, a) = some t) (hi : removal s.state.1 t.1 w = some i)
    (hattached : s.state.1.attached v i = true) :
    Leaving ⟨t, Function.update s.under w none⟩ v := by
  obtain ⟨hstep, -⟩ := tracked_eq_some hs
  obtain ⟨hpc, hdone, hget⟩ := removal_eq_some hi
  obtain ⟨hlt, -, hbox⟩ := attached_eq_true.mp hattached
  obtain ⟨hdetached, hname⟩ := (hok.ends w k a rfl hunder).removal hpc i hget v hattached
  have hbody : t.1 = s.state.1.removeBody w := by
    replace hstep := (step_eq_some.mp hstep).2.2
    dsimp only at hstep
    rw [hpc] at hstep
    cases a with
    | none => exact (Option.some.inj hstep).symm
    | _ => cases hstep
  obtain ⟨hfreed, hstay⟩ := removeBody_frees hpc hget (hbody ▸ hdone) hlt hdetached hname
  rw [← hbody] at hfreed hstay
  have hv : v ≠ w := by
    rintro rfl
    rw [hpc] at hdetached
    cases hdetached
  have hsame : Function.update s.under w none v = s.under v := Function.update_of_ne hv ..
  refine ⟨hfreed, fun message l c hat hl => ?_, fun _ l c hl => ?_⟩
  · rw [hok.reading w rfl hpc i hget v message hattached (hstay ▸ hat)] at hsame
    cases hsame.symm.trans hl
  · exact absurd (hsame.symm.trans hl) (waiting_of_calm hok.calm hv hunder hpc hget hbox)

theorem AllLeaving.step (h : AllLeaving s) (hok : Unawaited s e)
    (hs : endings.timed s e = some s') :
    AllLeaving s' := by
  intro v hv
  cases Threads.moves_of_timed hok.calm hs with
  | begins hunder => exact (h v hv).begins _
  | answered hunder hfits hstep => exact (h v hv).answered hunder hfits hstep
  | @ends w a k t hunder hstep =>
    have hmeets := hok.ends w k a rfl hunder
    have htracked : tracked s.state (w, a) = some t := hstep
    obtain ⟨-, hlist⟩ := tracked_eq_some htracked
    rw [show t.2 v = _ from hlist v] at hv
    obtain ⟨hlost, hin⟩ := Bool.and_eq_true_iff.mp hv
    rcases Bool.or_eq_true_iff.mp hlost with hrel | hnow
    · rcases eq_or_ne v w with rfl | hvw
      · rcases ((h v hrel).shortens hunder hmeets hrel htracked).2 with hret | ⟨hfreed, -⟩
        · rw [hret] at hin
          cases hin
        · have hnone : Function.update s.under v none v = none := Function.update_self ..
          exact ⟨hfreed, fun _ _ _ _ hl => (by cases hnone.symm.trans hl),
            fun _ _ _ hl => (by cases hnone.symm.trans hl)⟩
      · exact ((h v hrel).beside hvw hmeets hrel htracked).1
    · obtain ⟨i, hi, hattached⟩ := (Option.any_eq_true _ _).mp hnow
      exact leaving_now hok hunder htracked hi hattached

end Leaving

/-- The session is awake and waits for nobody but its client; each of its sections ends it with
result 0 or brings it closer to that; and nothing else changes that. -/
structure Released (s : Endings) (v : Nat) : Prop where
  awake : ∀ i n, s.state.1.pcs v ≠ .asleep i n
  goesOn : s.state.1.stopped = false → ∃ e s',
    (e = .begins v ∨ (∃ a, e = .answered v a) ∨ e = .ends v) ∧
    endings.timed s e = some s'
  ends : ∀ s', Unawaited s (.ends v) → endings.timed s (.ends v) = some s' →
    s'.state.1.stopped = s.state.1.stopped ∧ (s'.state.1.pcs v = .ret 0 ∨
      s'.state.2 v = true ∧ (s'.state.1.pcs v).loopLeft < (s.state.1.pcs v).loopLeft)
  stays : ∀ e s', e ≠ .ends v → Unawaited s e → endings.timed s e = some s' →
    s'.state.2 v = true ∧ s'.state.1.pcs v = s.state.1.pcs v

section Released

variable {s : Endings}

theorem Leaving.goesOn (h : Leaving s v) (hrunning : s.state.1.stopped = false) :
    ∃ e s', (e = .begins v ∨ (∃ a, e = .answered v a) ∨ e = .ends v) ∧
    endings.timed s e = some s' := by
  cases hunder : s.under v with
  | none => exact ⟨.begins v, _, Or.inl rfl, by rw [Threads.timed, hunder]⟩
  | some c =>
    obtain ⟨k, answer⟩ := c
    cases answer with
    | none =>
      obtain ⟨a, b', hfits, hs⟩ := h.freed.goesOn hrunning
      have htracked : (tracked s.state (v, a)).isSome = true :=
        Option.isSome_map.trans (Option.isSome_iff_exists.mpr ⟨b', hs⟩)
      have hgets : endings.timed s (.answered v a)
          = some ⟨s.state, Function.update s.under v (some (k, some a))⟩ := by
        rw [Threads.timed, hunder]
        exact if_pos (Bool.and_eq_true_iff.mpr ⟨hfits k, htracked⟩)
      exact ⟨_, _, Or.inr (Or.inl ⟨a, rfl⟩), hgets⟩
    | some a =>
      obtain ⟨b', hs⟩ := Option.isSome_iff_exists.mp (h.ready hrunning k a hunder)
      obtain ⟨t, ht⟩ : ∃ t, tracked s.state (v, a) = some t :=
        Option.isSome_iff_exists.mp
          (Option.isSome_map.trans (Option.isSome_iff_exists.mpr ⟨b', hs⟩))
      have hgone : endings.timed s (.ends v) = some ⟨t, Function.update s.under v none⟩ := by
        rw [Threads.timed, hunder]
        exact congrArg (Option.map _) ht
      exact ⟨_, _, Or.inr (Or.inr rfl), hgone⟩

theorem AllLeaving.released (h : AllLeaving s) (hv : s.state.2 v = true) : Released s v where
  awake := (h v hv).freed.ne_asleep
  goesOn := (h v hv).goesOn
  ends s' hok hs := by
    cases Threads.moves_of_timed hok.calm hs with
    | @ends _ a k t hunder hstep =>
      obtain ⟨hstop, hshort⟩ := (h v hv).shortens hunder (hok.ends v k a rfl hunder) hv hstep
      refine ⟨hstop, hshort.imp id fun ⟨hfreed, hless⟩ => ⟨?_, hless⟩⟩
      obtain ⟨-, hlist⟩ := tracked_eq_some (t := s.state) hstep
      exact (hlist v).trans (by rw [hv, hfreed.inSession]; rfl)
  stays e s' hne hok hs := by
    cases Threads.moves_of_timed hok.calm hs with
    | begins => exact ⟨hv, rfl⟩
    | answered => exact ⟨hv, rfl⟩
    | @ends w a k t hunder hstep =>
      have hvw : v ≠ w := fun hvw => hne (hvw ▸ rfl)
      obtain ⟨hleaving, hpc⟩ := (h v hv).beside hvw (hok.ends w k a rfl hunder) hv hstep
      refine ⟨?_, hpc⟩
      obtain ⟨-, hlist⟩ := tracked_eq_some (t := s.state) hstep
      exact (hlist v).trans (by rw [hv, hleaving.freed.inSession]; rfl)

end Released

/-! ## A session on the first box -/

end Broker

end MBroker
