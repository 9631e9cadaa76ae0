import MBroker.Broker.Victims

/-!
# No descriptor is left open

A handler opens the pipe of its client and closes it with `finish_client_session`. Where it
returns -1 it may leave the pipe open, on its way to `close_server`.

Results:
1. `step_pipe`: what a section does to the descriptors and to the pipe of its worker.
2. `Accounted.step`: each descriptor that was opened since the start belongs to a worker that
   has the pipe or has failed.
3. `descriptors_conserved`: so nothing is left open when all workers are idle.
-/

namespace MBroker

open Transition Fs

/-- A handler has returned -1. -/
def Pc.Failed : Pc → Bool
  | .ret result => result == -1
  | .closing => true
  | _ => false

theorem Pc.not_failed {pc : Pc} (h : pc.InSession = true) : pc.Failed = false := by
  cases pc <;> first | rfl | cases h

namespace Broker

variable {b b' x : Broker} {v w i : Nat} {pc : Pc} {a : Answer} {fds : Nat → Bool}

/-- Worker `v` answers for its descriptor. -/
def Keeps (b : Broker) (v : Nat) : Prop := b.HoldsPipe v ∨ (b.pcs v).Failed = true

/-- The descriptors stay and so does the pipe; or a pipe is opened; or it is closed. -/
inductive PipeStep (b x : Broker) (w : Nat) : Prop
  | same : x.fds = b.fds →
      (b.Keeps w → x.Keeps w ∧ (x.clients w).clientPipe = (b.clients w).clientPipe) →
      (x.HoldsPipe w → (x.clients w).clientPipe = -1 ∨
        b.HoldsPipe w ∧ (x.clients w).clientPipe = (b.clients w).clientPipe) → PipeStep b x w
  | opened {fd : Nat} : b.fds fd = false → x.fds = Function.update b.fds fd true →
      (x.clients w).clientPipe = fd → x.HoldsPipe w → ¬ b.Keeps w → PipeStep b x w
  | closed : (∀ fd : Nat, x.fds fd = true ↔ b.fds fd = true ∧ (b.clients w).clientPipe ≠ fd) →
      b.HoldsPipe w →
      ¬ x.HoldsPipe w → PipeStep b x w

theorem isOpenFd_natCast (b : Broker) (fd : Nat) : b.isOpenFd (fd : Int) = b.fds fd := by
  simp [isOpenFd]

theorem not_holdsPipe_setPc {y : Broker} {next : Pc} (hhas : next.HasPipe = false) :
    ¬ (y.setPc w next).HoldsPipe w := by
  intro hc
  have hpipe := hc.1
  rw [setPc_self, hhas] at hpipe
  cases hpipe

theorem holdsPipe_setPc {y : Broker} {next : Pc} (hhas : next.HasPipe = true)
    (hnext : next.InSession = false) :
    (y.setPc w next).HoldsPipe w := by
  rw [HoldsPipe, setPc_self, hnext]
  exact ⟨hhas, fun hin => absurd hin Bool.false_ne_true⟩

theorem failed_setPc (y : Broker) (w : Nat) : ((y.setPc w (.ret (-1))).pcs w).Failed = true := by
  rw [setPc_self]
  rfl

theorem PipeStep.of_finish {y : Broker} {r : Int} (hfds : y.fds = b.fds)
    (hpipe : (y.clients w).clientPipe = (b.clients w).clientPipe) (hholds : b.HoldsPipe w) :
    PipeStep b ((y.finishClientSession w).1.setPc w (.ret r)) w := by
  refine .closed (fun fd => ?_) hholds (not_holdsPipe_setPc rfl)
  have hopen := finish_isOpenFd y w fd
  rw [isOpenFd_natCast, isOpenFd_natCast, hfds, hpipe, ne_comm] at hopen
  exact hopen

/-- A worker that has no pipe goes on without one. -/
theorem PipeStep.of_none {y : Broker} {next : Pc} (hkeeps : ¬ b.Keeps w) (hfds : y.fds = b.fds)
    (hhas : next.HasPipe = false) : PipeStep b (y.setPc w next) w :=
  .same hfds (fun hc => absurd hc hkeeps) fun hc => absurd hc (not_holdsPipe_setPc hhas)

theorem PipeStep.of_failed {y : Broker} (hfds : y.fds = b.fds)
    (hpipe : (y.clients w).clientPipe = (b.clients w).clientPipe) :
    PipeStep b (y.setPc w (.ret (-1))) w :=
  .same hfds (fun _ => ⟨.inr (failed_setPc y w), hpipe⟩) fun hc =>
    absurd hc (not_holdsPipe_setPc rfl)

/-- A worker that has the pipe goes on with it. -/
theorem PipeStep.of_goes {y : Broker} {next : Pc} (hfds : y.fds = b.fds)
    (hpipe : (y.clients w).clientPipe = (b.clients w).clientPipe)
    (hbefore : (b.pcs w).HasPipe = true)
    (hout : (b.pcs w).InSession = false) (hhas : next.HasPipe = true)
    (hnext : next.InSession = false) :
    PipeStep b (y.setPc w next) w := by
  have hholds : b.HoldsPipe w :=
    ⟨hbefore, fun hin => absurd (hout.symm.trans hin) Bool.false_ne_true⟩
  exact .same hfds (fun _ => ⟨.inl (holdsPipe_setPc hhas hnext), hpipe⟩) fun _ =>
    .inr ⟨hholds, hpipe⟩

theorem not_keeps (hhas : (b.pcs w).HasPipe = false) (hfailed : (b.pcs w).Failed = false) :
    ¬ b.Keeps w := by
  rintro (hc | hc)
  · exact nomatch hhas.symm.trans hc.1
  · exact nomatch hfailed.symm.trans hc

theorem Ends.pipe (h : Ends b w pc a x) (hpc : b.pcs w = pc) (hin : pc.InSession = true)
    (hok : b.FinishesOnce w a pc) : PipeStep b x w := by
  have hholds : (b.clients w).box ≠ none → b.HoldsPipe w := fun hbox =>
    ⟨Pc.hasPipe_of_inSession (hpc ▸ hin), fun _ => hbox⟩
  cases h with
  | pipeClosed =>
    unfold Broker.pipeClosed
    split
    · next hbox => exact .of_finish rfl rfl (hholds hbox)
    -- A removal has finished the session and closed the pipe before.
    · next hbox =>
      refine .of_none ?_ rfl rfl
      rintro (hc | hc)
      · exact hbox (hc.2 (hpc ▸ hin))
      · exact nomatch (Pc.not_failed (hpc ▸ hin)).symm.trans hc
  | @pubOpen i _ t fhandle hopen hneg =>
    exact .of_finish (y := { b with tfs := t }) rfl rfl (hholds (hok _ _ hopen hneg))
  | @pubWrite i _ t _ _ result hwrite hcut =>
    exact .of_finish (y := { b with tfs := t }) rfl rfl (hholds (hok _ _ hwrite hcut).1)
  | @historyOpen t fhandle hopen hneg =>
    exact .of_finish (y := ({ b with tfs := t } : Broker).setClient w
      { b.clients w with boxFd := fhandle }) rfl
      (field_setClient Client.clientPipe rfl) (hholds (hok _ _ hopen hneg))
  | @historyRead t _ _ hread hneg =>
    exact .of_finish (y := { b with tfs := t }) rfl rfl (hholds (hok _ _ _ hread hneg))
  -- The loop over the history returns -1 with the pipe open.
  | historySendOp he =>
    obtain ⟨sent, rfl⟩ := emit_sent he
    exact .of_failed rfl rfl
  | historySendMessage he =>
    obtain ⟨sent, rfl⟩ := emit_sent he
    exact .of_failed rfl rfl
  | @followNone _ t _ hread =>
    exact .of_finish (y := { b with tfs := t }) rfl rfl (hholds (hok _ _ _ hread le_rfl))
  | @followRead _ t _ _ hread hneg =>
    exact .of_finish (y := { b with tfs := t }) rfl rfl
      (hholds (hok _ _ _ hread (Int.le_of_lt hneg)))
  | followSendOp he hne =>
    have hbox := (hok fun hc => hne (Answer.wrote.inj hc)).1
    obtain ⟨sent, rfl⟩ := emit_sent he
    exact .of_finish (y := { b with sent := sent }) rfl rfl (hholds hbox)
  | followSendMessage he hne =>
    have hbox := (hok fun hc => hne (Answer.wrote.inj hc)).1
    obtain ⟨sent, rfl⟩ := emit_sent he
    exact .of_finish (y := { b with sent := sent }) rfl rfl (hholds hbox)

theorem GoesOn.pipeStep (h : GoesOn b x w) (hin : (b.pcs w).InSession = true) : PipeStep b x w := by
  have hholds : x.HoldsPipe w ↔ b.HoldsPipe w := by
    rw [HoldsPipe, HoldsPipe, h.box, h.session, hin, Pc.hasPipe_of_inSession h.session,
      Pc.hasPipe_of_inSession hin]
  refine .same h.fds (fun hkeeps => ⟨.inl (hholds.mpr ?_), h.pipe⟩) fun hc =>
    .inr ⟨hholds.mp hc, h.pipe⟩
  refine hkeeps.resolve_right fun hfailed => ?_
  cases (Pc.not_failed hin).symm.trans hfailed

theorem Crashes.pipe (h : Crashes b pc x) : PipeStep b x w := by
  have hfds : x.fds = b.fds := by cases h <;> rfl
  obtain ⟨hpcs, hclients⟩ := h.same
  have hholds : x.HoldsPipe w ↔ b.HoldsPipe w := by rw [HoldsPipe, HoldsPipe, hpcs, hclients]
  refine .same hfds (fun hkeeps => ⟨?_, by rw [hclients]⟩) fun hc =>
    .inr ⟨hholds.mp hc, by rw [hclients]⟩
  rwa [Keeps, hholds, hpcs]

theorem registerBox_pipe (hpc : b.pcs w = .registerBox) (stack : List UInt8) :
    PipeStep b (b.registerBox w stack) w := by
  have hhas : (b.pcs w).HasPipe = true := by
    rw [hpc]
    rfl
  have hholds : b.HoldsPipe w := ⟨hhas, fun hin => by rw [hpc] at hin; cases hin⟩
  have hjoins : ∀ {i : Nat} {box : Box} {next : Pc}, next.InSession = true →
      PipeStep b (((b.attach w i).setBox i box).setPc w next) w := by
    intro i box next hin
    have hclient : ((((b.attach w i).setBox i box).setPc w next).clients w)
      = { b.clients w with box := some i } :=
      setClient_self ..
    refine .same rfl (fun _ => ⟨.inl ⟨?_, fun _ => ?_⟩, ?_⟩) fun _ => .inr ⟨hholds, ?_⟩
    · rw [setPc_self]
      exact Pc.hasPipe_of_inSession hin
    · rw [hclient]
      exact Option.some_ne_none i
    · rw [hclient]
    · rw [hclient]
  cases hbox : b.getBox (b.clients w).boxName.str with
  | none =>
    rw [registerBox_absent hbox]
    refine .closed (fun fd => ?_) hholds (not_holdsPipe_setPc rfl)
    rw [← isOpenFd_natCast, ← isOpenFd_natCast, ne_comm]
    exact close_isOpenFd b _ fd
  | some i =>
    by_cases hop : (b.clients w).opcode = opCodeRegistPub
    · by_cases hone : (b.boxes i).nPublishers = 1
      · rw [registerBox_rejected hbox hop hone]
        exact .of_finish (y := b.attach w i) rfl (field_setClient Client.clientPipe rfl) hholds
      · rw [registerBox_publisher hbox hop hone]
        exact hjoins rfl
    · rw [registerBox_subscriber hbox hop]
      exact hjoins rfl

/-- A worker that has no pipe opens one. -/
theorem PipeStep.of_opened {next : Pc} {fd : Nat} (hfree : b.fds fd = false) (hkeeps : ¬ b.Keeps w)
    (hhas : next.HasPipe = true) (hnext : next.InSession = false) :
    PipeStep b ((b.pipeOpened w fd).setPc w next) w :=
  .opened hfree rfl (congrArg Client.clientPipe (setClient_self ..))
    (holdsPipe_setPc hhas hnext) hkeeps

theorem returned_pipe {result : Int} (hpc : b.pcs w = .ret result) :
    PipeStep b (b.returned w result) w := by
  have hnot : ¬ b.HoldsPipe w := fun hc => by
    have hhas := hc.1
    rw [hpc] at hhas
    cases hhas
  unfold Broker.returned
  split
  · next hfail =>
    split
    · exact (Crashes.crash : Crashes b .idle b.crash).pipe
    · refine .same rfl (fun _ => ⟨.inr ?_, rfl⟩) fun hc => absurd hc (not_holdsPipe_setPc rfl)
      rw [setPc_self]
      rfl
  · next hok =>
    refine .of_none (not_keeps ?_ ?_) rfl rfl
    · rw [hpc]
      rfl
    · rw [hpc]
      exact beq_eq_false_iff_ne.mpr hok

theorem Serves.pipe (h : Serves b w pc a x) (hpc : b.pcs w = pc) (hremove : pc ≠ .removeBody) :
    PipeStep b x w := by
  have hnone : pc.HasPipe = false → pc.Failed = false → ¬ b.Keeps w := fun hhas hfailed =>
    not_keeps (hpc ▸ hhas) (hpc ▸ hfailed)
  have hholds : pc.HasPipe = true → pc.InSession = false → b.HoldsPipe w := fun hhas hout =>
    ⟨hpc ▸ hhas, fun hin => nomatch (hpc ▸ hout).symm.trans hin⟩
  cases h with
  | request =>
    exact .of_none (y := { b.setClient w _ with sent := Function.update b.sent w [] })
      (hnone rfl rfl) rfl
      (handlerOf_cases _).1
  | returned => exact returned_pipe hpc
  | @opened pc next _ fd hnext hfd =>
    unfold afterOpen at hnext
    split at hnext <;> cases hnext <;> exact .of_opened hfd (hnone rfl rfl) rfl rfl
  | notOpened => exact .of_failed rfl rfl
  | registerBox => exact registerBox_pipe hpc _
  | @createLock malloced =>
    refine .of_none (hnone rfl rfl) ?_ rfl
    rcases createSection_cases b w malloced with ⟨msg, heq, -⟩ | ⟨-, -, -, ⟨j, -, heq⟩ | ⟨-, heq⟩⟩
    · rw [heq]
    · rw [heq]
      rfl
    · rw [heq]
  -- `handle_tfs_create_box` goes on without a pipe: -1 is the number of no descriptor.
  | createNotOpened =>
    refine .same rfl (fun hc => absurd hc (hnone rfl rfl)) fun _ => .inl ?_
    exact congrArg Client.clientPipe (setClient_self ..)
  | createCrash => exact (Crashes.crash : Crashes b .idle b.crash).pipe
  | @createFailed code msg t => exact .of_failed (y := { b with tfs := t }) rfl rfl
  | @createFile code msg t fhandle =>
    exact .of_goes (y := ({ b with tfs := t } : Broker).setClient w
      { b.clients w with boxFd := fhandle }) rfl
      (field_setClient Client.clientPipe rfl) (congrArg Pc.HasPipe hpc)
        (congrArg Pc.InSession hpc) rfl rfl
  | removeLock => exact .of_none (y := { b with boxesLock := some w }) (hnone rfl rfl) rfl rfl
  | removeNotOpened => exact .of_failed (y := { b with boxesLock := none }) rfl rfl
  | removeBody => exact absurd rfl hremove
  | answering hy =>
    obtain ⟨sent, rfl⟩ := emit_sent hy
    exact .of_goes (y := { b with sent := sent }) rfl rfl (congrArg Pc.HasPipe hpc)
      (congrArg Pc.InSession hpc) rfl rfl
  | notAnswered hy =>
    obtain ⟨sent, rfl⟩ := emit_sent hy
    exact .of_failed (y := { b with sent := sent }) rfl rfl
  | @answered locked =>
    cases locked with
    | false => exact .of_finish rfl rfl (hholds rfl rfl)
    | true => exact .of_finish (y := { b with boxesLock := none }) rfl rfl (hholds rfl rfl)
  | listEnd => exact .of_finish rfl rfl (hholds rfl rfl)
  | listSkip => exact .of_goes rfl rfl (congrArg Pc.HasPipe hpc) (congrArg Pc.InSession hpc) rfl rfl
  | listWrite hy =>
    obtain ⟨sent, rfl⟩ := emit_sent hy
    exact .of_goes (y := { b with sent := sent }) rfl rfl (congrArg Pc.HasPipe hpc)
      (congrArg Pc.InSession hpc) rfl rfl
  | listFailed hy =>
    obtain ⟨sent, rfl⟩ := emit_sent hy
    exact .of_failed (y := { b with sent := sent }) rfl rfl

/-- What a section does to the descriptors and to the pipe of its worker. -/
theorem step_pipe (hs : b.step (w, a) = some b') (hok : Recognises b (w, a))
    (hremove : b.pcs w ≠ .removeBody) :
    PipeStep b b' w := by
  cases hin : (b.pcs w).InSession with
  | true =>
    rcases step_session hs hin with hends | hcrash | hgoes
    · exact hends.pipe rfl hin hok.finish
    · exact hcrash.pipe
    · exact hgoes.goesOn.pipeStep hin
  | false => exact (step_serves hs hin).pipe rfl hremove

/-! ## All workers -/

/-- A worker answers for descriptor `fd`: its pipe is open there, or it has failed. -/
def Owned (b : Broker) (fd : Nat) : Prop :=
  ∃ v < b.maxSessions, (b.clients v).clientPipe = fd ∧ b.Keeps v

/-- The descriptors of `fds` are open and are no worker's pipe; a worker answers for each of
the others that is open. -/
structure Accounted (fds : Nat → Bool) (b : Broker) : Prop where
  recognised : Recognised b
  kept : ∀ fd, fds fd = true → b.fds fd = true
  foreign : ∀ v fd, b.HoldsPipe v → (b.clients v).clientPipe = (fd : Nat) → fds fd = false
  owned : ∀ fd, b.fds fd = true → fds fd = true ∨ b.Owned fd

theorem Unnamed.accounted (h : Unnamed b) : Accounted b.fds b where
  recognised := h.recognised
  kept _ := id
  foreign v _ hholds := by
    have hhas := hholds.1
    rw [h.idle v] at hhas
    cases hhas
  owned _ := .inl

theorem Stays.keeps (h : Stays b x v) (hclient : x.clients v = b.clients v) :
    x.Keeps v ↔ b.Keeps v := by
  rw [Keeps, Keeps, h.holdsPipe hclient]
  rcases h with hsame | ⟨i, n, hasleep, hwoken⟩
  · rw [hsame]
  · rw [hasleep, hwoken]
    rfl

/-- A section that is no removal: only `w` and its pipe change. -/
theorem PipeStep.accounted (h : PipeStep b x w) (hb : Accounted fds b)
    (hrec : Recognised x) (hw : w < b.maxSessions)
    (hmax : x.maxSessions = b.maxSessions) (hstays : ∀ v, v ≠ w → Stays b x v)
    (hclients : ∀ v, v ≠ w → x.clients v = b.clients v) : Accounted fds x := by
  -- the others still answer for their descriptors
  have hothers : ∀ {fd : Nat} {v : Nat}, v ≠ w → v < b.maxSessions →
      (b.clients v).clientPipe = fd → b.Keeps v →
      x.Owned fd := fun hv hlt hpipe hkeeps =>
    ⟨_, hmax.symm ▸ hlt, by rw [hclients _ hv,
      hpipe], ((hstays _ hv).keeps (hclients _ hv)).mpr hkeeps⟩
  have hforeign : (∀ fd : Nat, x.HoldsPipe w → (x.clients w).clientPipe = fd → fds fd = false) →
      ∀ v (fd : Nat), x.HoldsPipe v → (x.clients v).clientPipe = fd → fds fd = false := by
    intro hself v fd hholds hpipe
    rcases eq_or_ne v w with rfl | hv
    · exact hself fd hholds hpipe
    · rw [hclients v hv] at hpipe
      exact hb.foreign v fd (((hstays v hv).holdsPipe (hclients v hv)).mp hholds) hpipe
  cases h with
  | same hfds hforward hback =>
    refine ⟨hrec, fun fd hfd => hfds ▸ hb.kept fd hfd, hforeign fun fd hholds hpipe => ?_,
      fun fd hfd => ?_⟩
    · rcases hback hholds with hnone | ⟨hbefore, hsame⟩
      · exact absurd (hpipe.symm.trans hnone) (by omega)
      · exact hb.foreign w fd hbefore (hsame ▸ hpipe)
    · refine (hb.owned fd (hfds ▸ hfd)).imp_right ?_
      rintro ⟨v, hlt, hpipe, hkeeps⟩
      rcases eq_or_ne v w with rfl | hv
      · exact ⟨v, hmax.symm ▸ hlt, (hforward hkeeps).2.trans hpipe, (hforward hkeeps).1⟩
      · exact hothers hv hlt hpipe hkeeps
  | @opened new hfree hfds hpipe hholds hkeeps =>
    have hkept : ∀ fd, b.fds fd = true → x.fds fd = true := by
      intro fd hfd
      rw [hfds, Function.update_apply]
      split
      · rfl
      · exact hfd
    refine ⟨hrec, fun fd hfd => hkept fd (hb.kept fd hfd), hforeign fun fd _ hfd => ?_,
      fun fd hfd => ?_⟩
    · obtain rfl : fd = new := by exact_mod_cast hfd.symm.trans hpipe
      exact Bool.eq_false_iff.mpr fun hc => nomatch hfree.symm.trans (hb.kept fd hc)
    · rcases eq_or_ne fd new with rfl | hne
      · exact .inr ⟨w, hmax.symm ▸ hw, hpipe, .inl hholds⟩
      · rw [hfds, Function.update_of_ne hne] at hfd
        refine (hb.owned fd hfd).imp_right ?_
        rintro ⟨v, hlt, hvpipe, hvkeeps⟩
        refine hothers ?_ hlt hvpipe hvkeeps
        rintro rfl
        exact hkeeps hvkeeps
  | closed hfds hbefore hafter =>
    refine ⟨hrec, fun fd hfd => (hfds fd).mpr ⟨hb.kept fd hfd, fun hc => ?_⟩,
      hforeign fun _ hc => absurd hc hafter,
      fun fd hfd => ?_⟩
    · exact nomatch hfd.symm.trans (hb.foreign w fd hbefore hc)
    · obtain ⟨hopen, hne⟩ := (hfds fd).mp hfd
      refine (hb.owned fd hopen).imp_right ?_
      rintro ⟨v, hlt, hpipe, hkeeps⟩
      refine hothers ?_ hlt hpipe hkeeps
      rintro rfl
      exact hne hpipe

/-- The worker that removes a box still has its pipe, unless it has failed. -/
theorem Removes.keeps (h : Removes b w x) (hpc : b.pcs w = .removeBody) : x.Keeps w := by
  cases h with
  | absent => exact .inl (holdsPipe_setPc rfl rfl)
  | unfinished => exact .inr (failed_setPc _ w)
  | @crash i y ret e _ hy =>
    have hkept := finishSessions_kept b w (b.clients w).boxName.str 0 b.maxSessions
    rw [hy] at hkept
    have hstay : y.crash.pcs w = .removeBody := (congrFun hkept.pcs w).trans hpc
    refine .inl ⟨?_, fun hin => ?_⟩
    · rw [hstay]
      rfl
    · rw [hstay] at hin
      cases hin
  | notUnlinked => exact .inr (failed_setPc _ w)
  | removed => exact .inl (holdsPipe_setPc rfl rfl)

/-- A removal closes the pipes of the sessions on its box. -/
theorem removal_accounted (hb : Accounted fds b) (hpc : b.pcs w = .removeBody)
    (hw : w < b.maxSessions)
    (hi : b.getBox (b.clients w).boxName.str = some i) (hok : Recognises b (w, a))
    (hs : b.step (w, a) = some (b.removeBody w)) : Accounted fds (b.removeBody w) := by
  have hrec := hb.recognised
  have hopen : ∀ fd : Nat, (b.removeBody w).fds fd = true ↔
      b.fds fd = true ∧ ∀ v, b.attached v i = true → (b.clients v).clientPipe ≠ fd := fun fd => by
    rw [← isOpenFd_natCast, ← isOpenFd_natCast b]
    exact removal_isOpenFd hrec hpc hi hok fd
  refine ⟨removal_recognised hrec hpc hi hok hs,
    fun fd hfd => (hopen fd).mpr ⟨hb.kept fd hfd, fun v hv hc => ?_⟩,
    fun v fd hv hpipe => ?_, fun fd hfd => ?_⟩
  · exact nomatch hfd.symm.trans (hb.foreign v fd (hrec.attached_open hv).1 hc)
  · obtain ⟨hatt, hbefore⟩ := removal_holdsPipe hrec hpc hi hok hs hv
    rw [(removal_clients hrec hpc hi hok v).2 hatt] at hpipe
    exact hb.foreign v fd hbefore hpipe
  · obtain ⟨hbefore, hclosed⟩ := (hopen fd).mp hfd
    refine (hb.owned fd hbefore).imp_right ?_
    rintro ⟨v, hlt, hpipe, hkeeps⟩
    have hatt : b.attached v i = false := Bool.eq_false_iff.mpr fun hc => hclosed v hc hpipe
    refine ⟨v, (step_maxSessions hs).symm ▸
      hlt, by rw [(removal_clients hrec hpc hi hok v).2 hatt, hpipe], ?_⟩
    -- Whoever answers for what is left open had no session on the box.
    rcases eq_or_ne v w with rfl | hv
    · exact (removeBody_removes b v).keeps hpc
    · exact ((step_others hs hv).keeps ((removal_clients hrec hpc hi hok v).2 hatt)).mpr hkeeps

/-- A removal of a box that does not exist. -/
theorem absent_pipe (hpc : b.pcs w = .removeBody)
    (hnone : b.getBox (b.clients w).boxName.str = none) :
    PipeStep b (b.removeBody w) w := by
  rw [removeBody_absent hnone]
  exact .of_goes rfl rfl (congrArg Pc.HasPipe hpc) (congrArg Pc.InSession hpc) rfl rfl

/-- The step lemma. -/
theorem Accounted.step (h : Accounted fds b) (hok : Recognises b (w, a))
    (hs : b.step (w, a) = some b') :
    Accounted fds b' := by
  have hrec := h.recognised.step hs hok
  have hw := (step_eq_some.mp hs).2.1
  have hothers : PipeStep b b' w → (∀ v, v ≠ w → b'.clients v = b.clients v) → Accounted fds b' :=
    fun hpipe hclients =>
    hpipe.accounted h hrec hw (step_maxSessions hs) (fun _ hv => step_others hs hv) hclients
  by_cases hremove : b.pcs w = .removeBody
  · obtain rfl := removeBody_of_step hs hremove
    cases hi : b.getBox (b.clients w).boxName.str with
    | none =>
      refine hothers (absent_pipe hremove hi) fun v _ => ?_
      rw [removeBody_absent hi]
      rfl
    | some i => exact removal_accounted h hremove hw hi hok hs
  · exact hothers (step_pipe hs hok hremove) fun v hv => (step_beside hs hv hremove).clients

/-! ## Runs -/

/-- No descriptor leaks: those that were open at the start stay open, each other one that is
open is the pipe of a worker, which is serving its client or has failed, and when all workers
are idle the same descriptors are open as at the start. -/
theorem descriptors_conserved (b₀ b : Broker) (h₀ : Unnamed b₀)
    (hrun : Reaches Broker.step Recognises b₀ b) :
    (∀ fd, b₀.fds fd = true → b.fds fd = true) ∧
    (∀ fd, b.fds fd = true → b₀.fds fd = true ∨ b.Owned fd) ∧
      ((∀ v, b.pcs v = .idle) → b.fds = b₀.fds) := by
  have h : Accounted b₀.fds b := hrun.invariant h₀.accounted fun _ _ _ hb hok hs => hb.step hok hs
  refine ⟨h.kept, h.owned, fun hidle => funext fun fd => Bool.eq_iff_iff.mpr
    ⟨fun hfd => ?_, h.kept fd⟩⟩
  refine (h.owned fd hfd).resolve_right ?_
  rintro ⟨v, -, -, hkeeps⟩
  exact not_keeps (by rw [hidle]; rfl) (by rw [hidle]; rfl) hkeeps

/-- A publisher registers with worker 1, whose pipe is the one descriptor that was opened. -/
theorem descriptors_conserved_register :
    ∃ b, Reaches Broker.step Recognises threeWorkers b ∧ b.fds 3 = true ∧
    threeWorkers.fds 3 = false ∧ b.Owned 3 := by
  have hstates : ∃ b₁ b₂ : Broker,
      threeWorkers.step (1, .request (sampleRequest opCodeRegistPub)) = some b₁ ∧
      (b₁.step (1, .opened samplePath (some 3)) = some b₂ ∧ b₁.pcs 1 = .registerOpen) ∧
      b₂.fds 3 = true :=
    ⟨_, _, rfl, ⟨rfl, rfl⟩, rfl⟩
  obtain ⟨b₁, b₂, hs₁, ⟨hs₂, hpc₁⟩, hfd⟩ := hstates
  have hfirst : Recognises threeWorkers (1, .request (sampleRequest opCodeRegistPub)) :=
    recognises_waiting (Or.inl rfl) fun r hr => Answer.request.inj hr ▸ by decide
  have hsecond : Recognises b₁ (1, .opened samplePath (some 3)) :=
    recognises_waiting (Or.inr (Or.inr (Or.inr hpc₁))) fun _ hr => by cases hr
  have hrun := (Reaches.refl.next hfirst hs₁).next hsecond hs₂
  have hnew : threeWorkers.fds 3 = false := rfl
  refine ⟨b₂, hrun, hfd, hnew, ?_⟩
  refine ((descriptors_conserved _ _ threeWorkers_unnamed hrun).2.1 3 hfd).resolve_left fun hc => ?_
  cases hnew.symm.trans hc

end Broker

end MBroker
