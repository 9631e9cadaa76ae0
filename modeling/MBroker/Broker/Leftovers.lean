import MBroker.Broker.Counters

/-!
# What earlier sessions leave in a record (`client_t`)

A worker serves every request with the same record. The handlers write the fields that they
read, except for two: `finish_client_session` reads `box_fd`, which only a subscription and
a create request set, and the loops of a subscriber read `offset`, which is counted up and
never reset.

Results:
1. `stepWorker_alike`: a section does the same with two records that agree on the fields
   that are still read.
2. `servesAlike_iff`: a request is served alike with two records, if and only if they agree
   on `box_fd` for a publisher or a removal, and on `offset` for a subscriber.
-/

namespace MBroker

open FirstFit Transition Fs

namespace Pc

/-- The handler may be here that serves a request with this code. -/
def Serves (opcode : UInt8) : Pc → Prop
  | .registerOpen | .registerBox => opcode = opCodeRegistPub ∨ opcode = opCodeRegistSub
  | .pubOpcode _ | .pubMessage _ | .pubLock .. | .pubOpen .. | .pubWrite ..
  | .pubCount .. => opcode = opCodeRegistPub
  | .historyLock _ | .historyOpen | .historyTest | .historyRead
  | .historySendOp .. | .historySendMessage ..
  | .followLock _ | .asleep .. | .followRead _ | .followSendOp ..
  | .followSendMessage .. => opcode = opCodeRegistSub
  | .createLock | .createOpen .. | .createFile .. => opcode = opCodeCreateBox
  | .removeLock | .removeOpen | .removeBody => opcode = opCodeRemoveBox
  | .answering .. => opcode = opCodeCreateBox ∨ opcode = opCodeRemoveBox
  | .listOpen | .listing .. => opcode = opCodeListBoxes
  | .idle | .ret _ | .closing => False

/-- The name of the box is read here or later. -/
def Names : Pc → Bool
  | .registerOpen | .registerBox | .historyLock _ | .historyOpen | .createLock
  | .createOpen .. | .createFile ..
  | .removeLock | .removeOpen | .removeBody => true
  | _ => false

def Answers : Pc → Bool
  | .answering .. => true
  | _ => false

theorem names_reading {pc : Pc} (hr : pc.Reads = true) : pc.Names = false := by
  cases pc <;> first | rfl | cases hr

theorem serves_reading {pc : Pc} {opcode : UInt8} (hr : pc.Reads = true) (h : pc.Serves opcode) :
    opcode = opCodeRegistSub := by
  cases pc <;> first | exact h | cases hr

end Pc

namespace Broker

variable {b x y : Broker} {w i : Nat} {pc pc' : Pc} {a : Answer} {c d e : Client} {r : Request}

/-- Two records that agree on the fields that a handler at `pc` still reads. -/
structure Agree (pc : Pc) (c d : Client) : Prop where
  serves : pc.Serves c.opcode
  opcode : d.opcode = c.opcode
  clientPipename : d.clientPipename = c.clientPipename
  boxName : pc.Names = true → d.boxName = c.boxName
  pipe : pc.HasPipe = true → d.clientPipe = c.clientPipe
  box : pc.InSession = true → d.box = c.box
  boxFd : c.opcode = opCodeRegistPub ∨ c.opcode = opCodeRemoveBox ∨ pc.Answers = true →
    (d.boxFd = -1 ↔ c.boxFd = -1)
  handle : pc.Reads = true → d.boxFd = c.boxFd
  valid : pc.Reads = true → validPathname (some c.boxName.str) = true
  offset : c.opcode = opCodeRegistSub → validPathname (some c.boxName.str) = true →
    ofSsize d.offset = ofSsize c.offset

/-- The handler has returned, or goes on with a record that agrees with `d`. -/
def Agrees (w : Nat) (x : Broker) (d : Client) : Prop :=
  (∃ result, x.pcs w = .ret result) ∨ Agree (x.pcs w) (x.clients w) d

/-- The same section with another record of the worker. -/
def Matches (w : Nat) (x x' : Broker) : Prop := ∃ e, x' = x.setClient w e ∧ Agrees w x e

@[simp] theorem setClient_setClient : (b.setClient w c).setClient w d = b.setClient w d := by
  simp [setClient]

/-! ## The end of a session -/

/-- What `finish_client_session` reads of a record. -/
structure EndsAlike (c d : Client) : Prop where
  opcode : d.opcode = c.opcode
  pipe : d.clientPipe = c.clientPipe
  box : c.opcode = opCodeRegistPub ∨ c.opcode = opCodeRegistSub → d.box = c.box
  boxFd : c.opcode = opCodeListBoxes ∨ (d.boxFd = -1 ↔ c.boxFd = -1)

/-- Only a publisher or a subscriber counts in its box. -/
theorem left_other
    (h : ¬ ((b.clients w).opcode = opCodeRegistPub ∨ (b.clients w).opcode = opCodeRegistSub)) :
    b.left w = b := by
  rw [not_or] at h
  unfold left
  split
  · rw [leaveBox, if_neg h.1, if_neg h.2]
  · rfl

theorem leaveBox_setClient {opcode : UInt8} :
    (b.setClient w d).leaveBox opcode i = (b.leaveBox opcode i).setClient w d := by
  unfold leaveBox
  split
  · rfl
  · split <;> rfl

theorem close_setClient (fd : Int) :
    (b.setClient w d).close fd = ((b.close fd).1.setClient w d, (b.close fd).2) := by
  have hopen : (b.setClient w d).isOpenFd fd = b.isOpenFd fd := rfl
  rw [close, close, hopen]
  cases b.isOpenFd fd <;> rfl

theorem left_setClient (h : EndsAlike (b.clients w) d) :
    (b.setClient w d).left w = (b.left w).setClient w d := by
  by_cases hop : (b.clients w).opcode = opCodeRegistPub ∨ (b.clients w).opcode = opCodeRegistSub
  · unfold left
    rw [setClient_self, h.box hop, h.opcode]
    cases (b.clients w).box with
    | none => rfl
    | some i => exact leaveBox_setClient
  · rw [left_other hop, left_other (by rw [setClient_self, h.opcode]; exact hop)]

theorem finish_setClient (h : EndsAlike (b.clients w) d) :
    ∃ e, (b.setClient w d).finishClientSession w
    = ((b.finishClientSession w).1.setClient w e, (b.finishClientSession w).2) := by
  have hself : (b.setClient w d).clients w = d := setClient_self ..
  cases hopen : b.isOpenFd (b.clients w).clientPipe with
  | false =>
    have hopen' : (b.setClient w d).isOpenFd ((b.setClient w d).clients w).clientPipe = false := by
      rw [hself, h.pipe]
      exact hopen
    rw [finishClientSession_of_closed hopen, finishClientSession_of_closed hopen']
    exact ⟨d, rfl⟩
  | true =>
    have hopen' : (b.setClient w d).isOpenFd ((b.setClient w d).clients w).clientPipe = true := by
      rw [hself, h.pipe]
      exact hopen
    have hfd' : d.opcode = opCodeListBoxes ∨ d.boxFd ≠ -1 ↔
        (b.clients w).opcode = opCodeListBoxes ∨ (b.clients w).boxFd ≠ -1 := by
      rw [h.opcode]
      rcases h.boxFd with hlist | hfd
      · exact iff_of_true (Or.inl hlist) (Or.inl hlist)
      · exact or_congr_right (not_congr hfd)
    by_cases hfd : (b.clients w).opcode = opCodeListBoxes ∨ (b.clients w).boxFd ≠ -1
    · rw [finishClientSession_of_boxFd hopen hfd,
        finishClientSession_of_boxFd hopen' (by rw [hself]; exact hfd'.mpr hfd),
        hself, h.pipe, close_setClient]
      have hclients : (b.close (b.clients w).clientPipe).1.clients w = b.clients w :=
        (close_frame b (w + 1) _).clients w (Nat.ne_of_lt (Nat.lt_succ_self w))
      refine ⟨Client.finished d, ?_⟩
      rw [left_setClient (by rw [hclients]; exact h), setClient_setClient, setClient_setClient]
    · have hno := not_or.mp hfd
      have hno' := not_or.mp (mt hfd'.mp hfd)
      rw [finishClientSession_of_no_boxFd hopen hno.1 (not_not.mp hno.2),
        finishClientSession_of_no_boxFd hopen' (by rw [hself]; exact hno'.1)
          (by rw [hself]; exact not_not.mp hno'.2),
        hself, h.pipe, close_setClient]
      exact ⟨d, rfl⟩

theorem agrees_ret {result : Int} : Agrees w (x.setPc w (.ret result)) d :=
  Or.inl ⟨result, setPc_self ..⟩

theorem Matches.returns {result : Int} :
    Matches w (x.setPc w (.ret result)) ((x.setClient w d).setPc w (.ret result)) :=
  ⟨d, rfl, agrees_ret⟩

theorem endSession_matches (h : EndsAlike (b.clients w) d) (result : Int) :
    Matches w (b.endSession w result) ((b.setClient w d).endSession w result) := by
  obtain ⟨e, he⟩ := finish_setClient h
  refine ⟨e, ?_, agrees_ret⟩
  rw [endSession, he]
  rfl

theorem returnFinish_matches (h : EndsAlike (b.clients w) d) :
    Matches w (b.returnFinish w) ((b.setClient w d).returnFinish w) := by
  obtain ⟨e, he⟩ := finish_setClient h
  refine ⟨e, ?_, agrees_ret⟩
  rw [returnFinish, he]
  rfl

/-- The session of another worker. -/
theorem finish_setClient_of_ne {v : Nat} (hv : v ≠ w) : (b.setClient w d).finishClientSession v
    = ((b.finishClientSession v).1.setClient w d, (b.finishClientSession v).2) := by
  have hother : (b.setClient w d).clients v = b.clients v := setClient_of_ne _ _ hv
  have hswap : ∀ (y : Broker) (c : Client), (y.setClient w d).setClient v c
    = (y.setClient v c).setClient w d := by
    intro y c
    simp only [setClient]
    rw [Function.update_comm hv]
  unfold finishClientSession
  simp only [hother, close_setClient]
  generalize b.close (b.clients v).clientPipe = p
  obtain ⟨y, closed⟩ := p
  cases closed with
  | false => rfl
  | true =>
    dsimp only
    split
    · rfl
    · cases (b.clients v).box with
      | none => rw [hswap]
      | some j =>
        dsimp only
        rw [leaveBox_setClient, hswap]

theorem finishSessions_setClient {boxName : CStr} {n : Nat} :
    (b.setClient w d).finishSessions w boxName i n
    = ((b.finishSessions w boxName i n).1.setClient w d, (b.finishSessions w boxName i n).2) := by
  induction n generalizing b i with
  | zero => rfl
  | succ n ih =>
    unfold finishSessions
    by_cases hi : i = w
    · rw [if_neg fun hc => hc.2 hi, if_neg fun hc => hc.2 hi]
      exact ih
    · rw [setClient_of_ne _ _ hi]
      split
      · rw [finish_setClient_of_ne hi]
        dsimp only
        split
        · rfl
        · exact ih
      · exact ih

/-- The record of the worker itself is left alone. -/
theorem finishSessions_self (b : Broker) (w : Nat) (boxName : CStr) (i n : Nat) :
    (b.finishSessions w boxName i n).1.clients w = b.clients w := by
  have h := @finishSessions_setClient b w i (b.clients w) boxName n
  rw [show b.setClient w (b.clients w) = b by simp [setClient]] at h
  exact (congrArg (fun p : Broker × Int => p.1.clients w) h).trans (setClient_self ..)

theorem removeBox_setClient {name : CStr} : (b.setClient w d).removeBox name
    = (b.removeBox name).map fun p => (p.1.setClient w d, p.2) := by
  unfold removeBox
  rw [show (b.setClient w d).getBox name = b.getBox name from rfl]
  cases b.getBox name with
  | none => rfl
  | some i =>
    dsimp only
    rw [show tfsUnlink (b.setClient w d).tfs = tfsUnlink b.tfs from rfl,
      show (b.setClient w d).boxes = b.boxes from rfl]
    cases tfsUnlink b.tfs (some (b.boxes i).boxName.str) with
    | error e => rfl
    | ok u =>
      obtain ⟨t, ret⟩ := u
      simp only [Except.map, bind, Except.bind]
      split <;> rfl

/-! ## The sections -/

theorem Matches.moves (h : Agree pc (x.clients w) d) :
    Matches w (x.setPc w pc) ((x.setClient w d).setPc w pc) := by
  refine ⟨d, rfl, Or.inr ?_⟩
  rw [setPc_self]
  exact h

theorem Matches.crash (h : Agree (x.pcs w) (x.clients w) d) :
    Matches w x.crash (x.setClient w d).crash :=
  ⟨d, rfl, Or.inr h⟩

namespace Agree

theorem of_client {c' : Client} (h : Agree pc c d) (hc : c = c') : Agree pc c' d := hc ▸ h

/-- The handler goes on and reads no more than before. -/
theorem goes (h : Agree pc c d) (hserves : pc'.Serves c.opcode)
    (hnames : pc'.Names = true → pc.Names = true)
    (hpipe : pc'.HasPipe = true → pc.HasPipe = true)
    (hbox : pc'.InSession = true → pc.InSession = true)
    (hanswers : pc'.Answers = true → pc.Answers = true)
    (hreads : pc'.Reads = true → pc.Reads = true) :
    Agree pc' c d where
  serves := hserves
  opcode := h.opcode
  clientPipename := h.clientPipename
  boxName hn := h.boxName (hnames hn)
  pipe hp := h.pipe (hpipe hp)
  box hb := h.box (hbox hb)
  boxFd hf := h.boxFd (hf.imp_right fun hc => hc.imp_right hanswers)
  handle hr := h.handle (hreads hr)
  valid hr := h.valid (hreads hr)
  offset := h.offset

/-- The pipe is opened. -/
theorem opened (h : Agree pc c d) (fd : Int) (hserves : pc'.Serves c.opcode)
    (hnames : pc'.Names = true → pc.Names = true) (hbox : pc'.InSession = false)
    (hanswers : pc'.Answers = false) :
    Agree pc' { c with clientPipe := fd } { d with clientPipe := fd } where
  serves := hserves
  opcode := h.opcode
  clientPipename := h.clientPipename
  boxName hn := h.boxName (hnames hn)
  pipe _ := rfl
  box hb := by
    rw [hbox] at hb
    cases hb
  boxFd hf := h.boxFd (hf.imp_right fun hc => Or.inl (hc.resolve_right fun ha => by
    rw [hanswers] at ha
    cases ha))
  handle hr := nomatch hbox.symm.trans (Pc.inSession_of_reads hr)
  valid hr := nomatch hbox.symm.trans (Pc.inSession_of_reads hr)
  offset := h.offset

/-- The record knows its box. -/
theorem attached (h : Agree .registerBox c d) (hserves : pc.Serves c.opcode)
    (hanswers : pc.Answers = false)
    (hreads : pc.Reads = false) : Agree pc { c with box := some i } { d with box := some i } where
  serves := hserves
  opcode := h.opcode
  clientPipename := h.clientPipename
  boxName _ := h.boxName rfl
  pipe _ := h.pipe rfl
  box _ := rfl
  boxFd hf := h.boxFd (hf.imp_right fun hc => Or.inl (hc.resolve_right fun ha => by
    rw [hanswers] at ha
    cases ha))
  handle hr := nomatch hreads.symm.trans hr
  valid hr := nomatch hreads.symm.trans hr
  offset := h.offset

theorem ends_publisher (h : Agree pc c d) (hin : pc.InSession = true)
    (hop : c.opcode = opCodeRegistPub) :
    EndsAlike c d :=
  ⟨h.opcode, h.pipe (Pc.hasPipe_of_inSession hin), fun _ => h.box hin,
    Or.inr (h.boxFd (Or.inl hop))⟩

theorem ends_subscriber (h : Agree pc c d) (hr : pc.Reads = true) : EndsAlike c d :=
  ⟨h.opcode, h.pipe (Pc.hasPipe_of_inSession (Pc.inSession_of_reads hr)),
    fun _ => h.box (Pc.inSession_of_reads hr),
    Or.inr (by rw [h.handle hr])⟩

end Agree

/-- Both records are changed in the same way. -/
theorem Matches.updates (f : Client → Client) (h : Agree pc' (f (y.clients w)) (f d)) :
    Matches w ((y.setClient w (f (y.clients w))).setPc w pc')
      (((y.setClient w d).setClient w (f ((y.setClient w d).clients w))).setPc w pc') := by
  have hswap : y.setClient w (f d) = (y.setClient w (f (y.clients w))).setClient w (f d) :=
    setClient_setClient.symm
  rw [setClient_self, setClient_setClient, hswap]
  refine .moves ?_
  rw [setClient_self]
  exact h

theorem emit_setClient {bytes : List UInt8} {result : WriteResult}
    (hpipe : d.clientPipe = (b.clients w).clientPipe)
    (hx : b.emit w bytes result = some x) :
    (b.setClient w d).emit w bytes result = some (x.setClient w d) ∧
    x.clients w = b.clients w ∧ x.pcs w = b.pcs w := by
  obtain ⟨sent, rfl⟩ := emit_sent hx
  refine ⟨?_, rfl, rfl⟩
  unfold emit at hx ⊢
  rw [setClient_self, hpipe]
  split at hx
  · next hopen =>
    rw [if_pos hopen]
    cases result with
    | wrote n =>
      dsimp only at hx ⊢
      split at hx
      · next hn =>
        rw [if_pos hn]
        exact congrArg (fun y : Option Broker => y.map fun z => z.setClient w d) hx
      · cases hx
    | epipe => exact congrArg (fun y : Option Broker => y.map fun z => z.setClient w d) hx
    | error => exact congrArg (fun y : Option Broker => y.map fun z => z.setClient w d) hx
  · next hclosed =>
    rw [if_neg hclosed]
    split at hx
    · next herror =>
      rw [if_pos herror]
      exact congrArg (fun y : Option Broker => y.map fun z => z.setClient w d) hx
    · cases hx

/-- The pipe of the client is opened, in any handler. -/
theorem opened_matches {fd : Nat} (hs : (b.takeFd fd).bind (fun y =>
      some ((y.setClient w { y.clients w with clientPipe := (fd : Int) }).setPc w pc')) = some x)
    (h : Agree pc' { b.clients w with clientPipe := (fd : Int) }
      { d with clientPipe := (fd : Int) }) :
    ∃ x', ((b.setClient w d).takeFd fd).bind (fun y =>
      some ((y.setClient w { y.clients w with clientPipe := (fd : Int) }).setPc w pc')) = some x' ∧
        Matches w x x' := by
  obtain ⟨y, hy, hs⟩ := Option.bind_eq_some_iff.mp hs
  obtain rfl := Option.some.inj hs
  obtain ⟨hfree, rfl⟩ := takeFd_eq_some.mp hy
  have htake : (b.setClient w d).takeFd fd
      = some ((({ b with fds := Function.update b.fds fd true } : Broker)).setClient w d) :=
    takeFd_eq_some.mpr ⟨hfree, rfl⟩
  refine ⟨_, by rw [htake]; rfl, ?_⟩
  exact .updates (y := { b with fds := Function.update b.fds fd true })
    (fun c => { c with clientPipe := (fd : Int) }) h

/-- The path comes from the request. -/
theorem Agree.opens (h : Agree pc (b.clients w) d) (path : CStr) :
    (b.setClient w d).opens w path = b.opens w path := by
  unfold Broker.opens
  rw [setClient_self, h.clientPipename]

section Opens

variable {path : CStr} {fd : Option Nat}

theorem registerOpen_matches (h : Agree .registerOpen (b.clients w) d)
    (hs : b.registerOpen w path fd = some x) :
    ∃ x', (b.setClient w d).registerOpen w path fd = some x' ∧ Matches w x x' := by
  unfold registerOpen at hs ⊢
  rw [h.opens]
  obtain ⟨hpath, hs⟩ := Option.ite_none_right_eq_some.mp hs
  rw [if_pos hpath]
  cases fd with
  | none => exact ⟨_, rfl, Option.some.inj hs ▸ .returns⟩
  | some fd => exact opened_matches hs (h.opened fd h.serves (fun _ => rfl) rfl rfl)

theorem createOpen_matches {returnCode : Int} {errorMsg : String}
    (h : Agree (.createOpen returnCode errorMsg) (b.clients w) d)
    (hs : b.createOpen w returnCode errorMsg path fd = some x) :
    ∃ x', (b.setClient w d).createOpen w returnCode errorMsg path fd = some x' ∧
    Matches w x x' := by
  unfold createOpen at hs ⊢
  rw [h.opens]
  obtain ⟨hpath, hs⟩ := Option.ite_none_right_eq_some.mp hs
  rw [if_pos hpath]
  cases fd with
  | none =>
    obtain rfl := Option.some.inj hs
    exact ⟨_, rfl, .updates (fun c => { c with clientPipe := -1 })
      (h.opened (-1) h.serves (fun _ => rfl) rfl rfl)⟩
  | some fd => exact opened_matches hs (h.opened fd h.serves (fun _ => rfl) rfl rfl)

theorem removeOpen_matches (h : Agree .removeOpen (b.clients w) d)
    (hs : b.removeOpen w path fd = some x) :
    ∃ x', (b.setClient w d).removeOpen w path fd = some x' ∧ Matches w x x' := by
  unfold removeOpen at hs ⊢
  rw [h.opens]
  obtain ⟨hpath, hs⟩ := Option.ite_none_right_eq_some.mp hs
  rw [if_pos hpath]
  cases fd with
  | none => exact ⟨_, rfl, Option.some.inj hs ▸ .returns (x := { b with boxesLock := none })⟩
  | some fd => exact opened_matches hs (h.opened fd h.serves (fun _ => rfl) rfl rfl)

theorem listOpen_matches (h : Agree .listOpen (b.clients w) d)
    (hs : b.listOpen w path fd = some x) :
    ∃ x', (b.setClient w d).listOpen w path fd = some x' ∧ Matches w x x' := by
  unfold listOpen at hs ⊢
  rw [h.opens]
  obtain ⟨hpath, hs⟩ := Option.ite_none_right_eq_some.mp hs
  rw [if_pos hpath]
  cases fd with
  | none => exact ⟨_, rfl, Option.some.inj hs ▸ .returns⟩
  | some fd =>
    obtain ⟨y, hy, hs⟩ := Option.bind_eq_some_iff.mp hs
    obtain ⟨hfree, rfl⟩ := takeFd_eq_some.mp hy
    have htake : (b.setClient w d).takeFd fd
        = some (({ b with fds := Function.update b.fds fd true } : Broker).setClient w d) :=
      takeFd_eq_some.mpr ⟨hfree, rfl⟩
    have hagree : Agree (.listing 0 0 (if b.numBoxes = 0 then 1 else 0))
        { b.clients w with clientPipe := (fd : Int) }
        { d with clientPipe := (fd : Int) } := h.opened fd h.serves nofun rfl rfl
    have hm := Matches.updates (y := { b with fds := Function.update b.fds fd true })
      (fun c => { c with clientPipe := (fd : Int) }) hagree
    refine ⟨_, ?_, Option.some.inj hs ▸ hm⟩
    dsimp only
    rw [htake]
    rfl

end Opens

theorem attach_setClient :
    (b.setClient w d).attach w i = (b.attach w i).setClient w { d with box := some i } := by
  rw [attach, setClient_self, setClient_setClient, attach, setClient_setClient]

theorem registerBox_matches (h : Agree .registerBox (b.clients w) d) (stack : List UInt8) :
    Matches w (b.registerBox w stack) ((b.setClient w d).registerBox w stack) := by
  have hself : (b.setClient w d).clients w = d := setClient_self ..
  have hget : (b.setClient w d).getBox ((b.setClient w d).clients w).boxName.str
    = b.getBox (b.clients w).boxName.str := by
    rw [hself, h.boxName rfl]
    rfl
  cases hg : b.getBox (b.clients w).boxName.str with
  | none =>
    rw [registerBox_absent hg, registerBox_absent (hget.trans hg), hself,
      h.pipe rfl, close_setClient]
    exact .returns
  | some i =>
    have hjoins : ∀ {pc : Pc} {box : Box}, pc.Serves (b.clients w).opcode →
        pc.Answers = false → pc.Reads = false →
        Matches w (((b.attach w i).setBox i box).setPc w pc)
          (((((b.attach w i).setClient w { d with box := some i }).setBox i box)).setPc w pc) := by
      intro pc box hserves hanswers hreads
      exact .moves (x := (b.attach w i).setBox i box)
        ((h.attached hserves hanswers hreads).of_client (setClient_self ..).symm)
    by_cases hop : (b.clients w).opcode = opCodeRegistPub
    · have hop' : ((b.setClient w d).clients w).opcode
        = opCodeRegistPub := by rw [hself, h.opcode, hop]
      by_cases hone : (b.boxes i).nPublishers = 1
      · rw [registerBox_rejected hg hop hone, registerBox_rejected (hget.trans hg) hop' hone,
          attach_setClient]
        refine returnFinish_matches ?_
        rw [show (b.attach w i).clients w
          = { b.clients w with box := some i } from setClient_self ..]
        exact ⟨h.opcode, h.pipe rfl, fun _ => rfl, Or.inr (h.boxFd (Or.inl hop))⟩
      · rw [registerBox_publisher hg hop hone, registerBox_publisher (hget.trans hg) hop' hone,
          attach_setClient]
        exact hjoins hop rfl rfl
    · have hop' : ((b.setClient w d).clients w).opcode ≠ opCodeRegistPub := by rwa [hself, h.opcode]
      rw [registerBox_subscriber hg hop, registerBox_subscriber (hget.trans hg) hop',
        attach_setClient]
      exact hjoins (h.serves.resolve_left hop) rfl rfl

/-! ## A publisher -/

section Publisher

variable {message bytes : List UInt8} {fhandle : Int}

theorem pipeClosed_matches (h : Agree pc (b.clients w) d) (hin : pc.InSession = true)
    (hop : (b.clients w).opcode = opCodeRegistPub) :
    Matches w (b.pipeClosed w) ((b.setClient w d).pipeClosed w) := by
  unfold pipeClosed
  rw [setClient_self, h.box hin]
  split
  · exact endSession_matches (h.ends_publisher hin hop) 0
  · exact .returns

theorem pubOpcode_matches (h : Agree (.pubOpcode message) (b.clients w) d)
    (hs : b.pubOpcode w message bytes = some x) :
    ∃ x', (b.setClient w d).pubOpcode w message bytes = some x' ∧ Matches w x x' := by
  unfold pubOpcode at hs ⊢
  split at hs
  · next hread =>
    rw [if_pos hread]
    split at hs <;> obtain rfl := Option.some.inj hs
    · next hend => exact ⟨_, if_pos hend, pipeClosed_matches h rfl h.serves⟩
    · next hmore => exact ⟨_, if_neg hmore, .moves (h.goes h.serves nofun id id nofun nofun)⟩
  · cases hs

theorem pubMessage_matches (h : Agree (.pubMessage message) (b.clients w) d)
    (hat : b.pcs w = .pubMessage message) (hs : b.pubMessage w message bytes = some x) :
    ∃ x', (b.setClient w d).pubMessage w message bytes = some x' ∧ Matches w x x' := by
  unfold pubMessage at hs ⊢
  rw [setClient_self, h.box rfl]
  split at hs
  · next hread =>
    rw [if_pos hread]
    split at hs
    · next hend =>
      obtain rfl := Option.some.inj hs
      exact ⟨_, if_pos hend, pipeClosed_matches h rfl h.serves⟩
    · next hmore =>
      rw [if_neg hmore]
      cases hbox : (b.clients w).box with
      | none =>
        rw [hbox] at hs
        obtain rfl := Option.some.inj hs
        exact ⟨_, rfl, .crash (hat ▸ h)⟩
      | some i =>
        rw [hbox] at hs
        obtain rfl := Option.some.inj hs
        exact ⟨_, rfl, .moves (h.goes h.serves nofun id id nofun nofun)⟩
  · cases hs

/-- The lock of a box is taken, by a publisher or by a subscriber. -/
theorem lockBox_matches (h : Agree pc' (b.clients w) d) (hs : b.lockBox w i pc' = some x) :
    ∃ x', (b.setClient w d).lockBox w i pc' = some x' ∧ Matches w x x' := by
  unfold lockBox at hs ⊢
  split at hs
  · next hfree =>
    obtain rfl := Option.some.inj hs
    exact ⟨_, if_pos hfree, .moves (x := b.setBox i _) h⟩
  · cases hs

theorem pubOpen_matches (h : Agree (.pubOpen i message) (b.clients w) d)
    (hat : b.pcs w = .pubOpen i message) :
    Matches w (b.pubOpen w i message) ((b.setClient w d).pubOpen w i message) := by
  have htfs : tfsOpen (b.setClient w d).tfs
      (some ((b.setClient w d).boxes i).boxName.str) tfsOAppend
      = tfsOpen b.tfs (some (b.boxes i).boxName.str) tfsOAppend := rfl
  unfold Broker.pubOpen
  rw [htfs]
  cases tfsOpen b.tfs (some (b.boxes i).boxName.str) tfsOAppend with
  | error f => exact .crash (hat ▸ h)
  | ok u =>
    dsimp only
    split
    · exact endSession_matches (b := { b with tfs := u.1 }) (h.ends_publisher rfl h.serves) (-1)
    · exact .moves (x := { b with tfs := u.1 }) (h.goes h.serves nofun id id nofun nofun)

theorem pubWrite_matches (h : Agree (.pubWrite i message fhandle) (b.clients w) d)
    (hat : b.pcs w = .pubWrite i message fhandle) :
    Matches w (b.pubWrite w i message fhandle)
    ((b.setClient w d).pubWrite w i message fhandle) := by
  have htfs : tfsWrite (b.setClient w d).tfs = tfsWrite b.tfs := rfl
  have hends : ∀ (t : Fs.State) (result : Int),
      Matches w (({ b with tfs := t } : Broker).endSession w result)
      (({ b.setClient w d with tfs := t } : Broker).endSession w result) := fun t result =>
    endSession_matches (b := { b with tfs := t }) (h.ends_publisher rfl h.serves) result
  unfold Broker.pubWrite
  dsimp only
  rw [htfs]
  cases tfsWrite b.tfs fhandle (message ++ [0]) ((messageStr message).length + 1) with
  | error f => exact .crash (hat ▸ h)
  | ok u =>
    dsimp only
    split
    · exact hends u.1 (-1)
    · split
      · exact hends u.1 0
      · exact .moves (x := { b with tfs := u.1 }) (h.goes h.serves nofun id id nofun nofun)

theorem pubCount_matches (h : Agree (.pubCount i message) (b.clients w) d) :
    Matches w (b.pubCount w i message) ((b.setClient w d).pubCount w i message) :=
  .moves (x := ((b.setBox i { b.boxes i with
    boxSize := addSize (b.boxes i).boxSize ((messageStr message).length + 1) }).broadcast
      i).unlockBox i)
    (h.goes h.serves nofun id id nofun nofun)

end Publisher

/-! ## A subscriber -/

section Subscriber

variable {rest message : List UInt8} {n : Nat} {result : WriteResult}

theorem historyOpen_matches (h : Agree .historyOpen (b.clients w) d)
    (hat : b.pcs w = .historyOpen) :
    Matches w (b.historyOpen w) ((b.setClient w d).historyOpen w) := by
  have htfs : tfsOpen (b.setClient w d).tfs = tfsOpen b.tfs := rfl
  unfold Broker.historyOpen
  rw [setClient_self, htfs, h.boxName rfl]
  cases hopen : tfsOpen b.tfs (some (b.clients w).boxName.str) tfsOCreat with
  | error f => exact .crash (hat ▸ h)
  | ok u =>
    obtain ⟨t, fhandle⟩ := u
    dsimp only
    have hclient :
        (({ b with tfs := t } : Broker).setClient w { b.clients w with boxFd := fhandle }).clients w
        = { b.clients w with boxFd := fhandle } := setClient_self ..
    have hswap : ({ b.setClient w d with tfs := t } : Broker).setClient w
        { d with boxFd := fhandle }
        = (({ b with tfs := t } : Broker).setClient w
          { b.clients w with boxFd := fhandle }).setClient w
          { d with boxFd := fhandle } :=
            (setClient_setClient (b := { b with tfs := t })).trans setClient_setClient.symm
    rw [hswap]
    split
    · exact endSession_matches
        (by rw [hclient]; exact ⟨h.opcode, h.pipe rfl, fun _ => h.box rfl, Or.inr Iff.rfl⟩) (-1)
    · next hpos =>
      have hvalid : validPathname (some (b.clients w).boxName.str) = true := by
        by_contra hno
        rw [tfsOpen_invalid (Bool.not_eq_true _ ▸ hno)] at hopen
        obtain ⟨-, rfl⟩ := Prod.mk.inj (Except.ok.inj hopen)
        exact hpos (by decide)
      refine .moves ?_
      rw [hclient]
      exact ⟨h.serves, h.opcode, h.clientPipename, nofun, fun _ => h.pipe rfl, fun _ => h.box rfl,
        fun _ => Iff.rfl, fun _ => rfl,
        fun _ => hvalid, h.offset⟩

theorem historyDone_matches (h : Agree pc (b.clients w) d) (hr : pc.Reads = true)
    (hat : b.pcs w = pc) :
    Matches w (b.historyDone w) ((b.setClient w d).historyDone w) := by
  unfold Broker.historyDone
  rw [setClient_self, h.box (Pc.inSession_of_reads hr)]
  cases (b.clients w).box with
  | none => exact .crash (hat ▸ h)
  | some i =>
    exact .moves (x := b.unlockBox i) (h.goes (Pc.serves_reading hr h.serves) nofun
      (fun _ => Pc.hasPipe_of_inSession (Pc.inSession_of_reads hr))
        (fun _ => Pc.inSession_of_reads hr) nofun fun _ => hr)

theorem unread_setClient (h : ofSsize d.offset = ofSsize (b.clients w).offset) :
    (b.setClient w d).unread w i = b.unread w i := by
  rw [unread, setClient_self, h]
  rfl

theorem historyTest_matches (h : Agree .historyTest (b.clients w) d)
    (hat : b.pcs w = .historyTest) :
    Matches w (b.historyTest w) ((b.setClient w d).historyTest w) := by
  unfold Broker.historyTest
  rw [setClient_self, h.box rfl]
  cases (b.clients w).box with
  | none => exact .crash (hat ▸ h)
  | some i =>
    dsimp only
    rw [unread_setClient (h.offset h.serves (h.valid rfl))]
    split
    · exact .moves (h.goes h.serves nofun id id nofun id)
    · exact historyDone_matches h rfl hat

theorem historyRead_matches (h : Agree .historyRead (b.clients w) d)
    (hat : b.pcs w = .historyRead) :
    Matches w (b.historyRead w) ((b.setClient w d).historyRead w) := by
  have htfs : tfsRead (b.setClient w d).tfs = tfsRead b.tfs := rfl
  unfold Broker.historyRead
  rw [setClient_self, htfs, h.handle rfl]
  cases tfsRead b.tfs (b.clients w).boxFd boxSize with
  | error f => exact .crash (hat ▸ h)
  | ok u =>
    obtain ⟨t, bytesRead, bytes⟩ := u
    dsimp only
    split
    · exact historyDone_matches (b := { b with tfs := t }) h rfl hat
    · split
      · exact endSession_matches (b := { b with tfs := t }) (h.ends_subscriber rfl) (-1)
      · exact .moves (x := { b with tfs := t }) (h.goes h.serves nofun id id nofun fun _ => rfl)

theorem historySendOp_matches (h : Agree (.historySendOp rest n) (b.clients w) d)
    (hat : b.pcs w = .historySendOp rest n)
    (hs : b.historySendOp w rest n result = some x) :
    ∃ x', (b.setClient w d).historySendOp w rest n result = some x' ∧ Matches w x x' := by
  unfold historySendOp at hs ⊢
  split at hs
  · next hbad =>
    obtain rfl := Option.some.inj hs
    exact ⟨_, if_pos hbad, .crash (hat ▸ h)⟩
  · next hgood =>
    rw [if_neg hgood]
    obtain ⟨y, hy, hs⟩ := Option.bind_eq_some_iff.mp hs
    obtain ⟨hemit, hclients, -⟩ := emit_setClient (h.pipe rfl) hy
    rw [hemit]
    dsimp only [bind, Option.bind]
    split at hs
    · next hwhole =>
      obtain rfl := Option.some.inj hs
      exact ⟨_, if_pos hwhole,
        .moves (by rw [hclients]; exact h.goes h.serves nofun id id nofun id)⟩
    · next hcut =>
      obtain rfl := Option.some.inj hs
      exact ⟨_, if_neg hcut, .returns⟩

/-- The offset is counted up by what was read. -/
theorem counted_matches {y : Broker} (h : Agree pc (b.clients w) d) (hr : pc.Reads = true)
    (hclients : y.clients w = b.clients w) (hr' : pc'.Reads = true)
    (hserves : pc'.Serves (b.clients w).opcode) :
    Matches w ((y.setClient w { y.clients w with offset := (y.clients w).offset + n }).setPc w pc')
      (((y.setClient w d).setClient w { (y.setClient w d).clients w with
        offset := ((y.setClient w d).clients w).offset + n }).setPc w pc') := by
  have hin := Pc.inSession_of_reads hr
  have hoffset : ofSsize (d.offset + n) = ofSsize ((b.clients w).offset + n) := by
    have hsame := h.offset (Pc.serves_reading hr h.serves) (h.valid hr)
    unfold ofSsize word at hsame ⊢
    omega
  refine .updates (fun c => { c with offset := c.offset + n }) ?_
  rw [hclients]
  refine ⟨hserves, h.opcode, h.clientPipename, fun hn => ?_,
    fun _ => h.pipe (Pc.hasPipe_of_inSession hin), fun _ => h.box hin,
    fun _ => ?_, fun _ => h.handle hr, fun _ => h.valid hr, fun _ _ => hoffset⟩
  · rw [Pc.names_reading hr'] at hn
    cases hn
  · exact iff_of_eq (congrArg (· = (-1 : Int)) (h.handle hr))

theorem historySendMessage_matches (h : Agree (.historySendMessage rest n) (b.clients w) d)
    (hs : b.historySendMessage w rest n result = some x) :
    ∃ x', (b.setClient w d).historySendMessage w rest n result = some x' ∧ Matches w x x' := by
  unfold historySendMessage at hs ⊢
  obtain ⟨y, hy, hs⟩ := Option.bind_eq_some_iff.mp hs
  obtain ⟨hemit, hclients, -⟩ := emit_setClient (h.pipe rfl) hy
  rw [hemit]
  dsimp only [bind, Option.bind] at hs ⊢
  split at hs
  · next hwhole =>
    rw [if_pos hwhole]
    split at hs
    · next hend =>
      obtain rfl := Option.some.inj hs
      exact ⟨_, if_pos hend, counted_matches h rfl hclients rfl h.serves⟩
    · next hmore =>
      obtain rfl := Option.some.inj hs
      exact ⟨_, if_neg hmore, .moves (by rw [hclients]; exact h.goes h.serves nofun id id nofun id)⟩
  · next hcut =>
    obtain rfl := Option.some.inj hs
    exact ⟨_, if_neg hcut, .returns⟩

theorem followLock_matches (h : Agree (.followLock i) (b.clients w) d)
    (hs : b.followLock w i = some x) :
    ∃ x', (b.setClient w d).followLock w i = some x' ∧ Matches w x x' := by
  unfold followLock at hs ⊢
  rw [unread_setClient (h.offset h.serves (h.valid rfl))]
  split at hs
  · next hfree =>
    rw [show (b.setClient w d).boxes = b.boxes from rfl, if_pos hfree]
    split at hs
    · next hnone =>
      obtain rfl := Option.some.inj hs
      exact ⟨_, if_pos hnone, .moves (h.goes h.serves nofun id id nofun id)⟩
    · next hsome =>
      obtain rfl := Option.some.inj hs
      exact ⟨_, if_neg hsome, .moves (h.goes h.serves nofun id id nofun id)⟩
  · cases hs

theorem followRead_matches (h : Agree (.followRead i) (b.clients w) d)
    (hat : b.pcs w = .followRead i) :
    Matches w (b.followRead w i) ((b.setClient w d).followRead w i) := by
  have htfs : tfsRead (b.setClient w d).tfs = tfsRead b.tfs := rfl
  unfold Broker.followRead
  rw [setClient_self, htfs, h.handle rfl]
  cases tfsRead b.tfs (b.clients w).boxFd messageLength with
  | error f => exact .crash (hat ▸ h)
  | ok u =>
    obtain ⟨t, bytesRead, bytes⟩ := u
    dsimp only
    split
    · exact returnFinish_matches (b := { b with tfs := t }) (h.ends_subscriber rfl)
    · split
      · exact endSession_matches (b := { b with tfs := t }) (h.ends_subscriber rfl) (-1)
      · exact .moves (x := { b with tfs := t }) (h.goes h.serves nofun id id nofun fun _ => rfl)

theorem followSendOp_matches (h : Agree (.followSendOp i message n) (b.clients w) d)
    (hs : b.followSendOp w i message n result = some x) :
    ∃ x', (b.setClient w d).followSendOp w i message n result = some x' ∧ Matches w x x' := by
  unfold followSendOp at hs ⊢
  obtain ⟨y, hy, hs⟩ := Option.bind_eq_some_iff.mp hs
  obtain ⟨hemit, hclients, -⟩ := emit_setClient (h.pipe rfl) hy
  have hends : EndsAlike (y.clients w) d := hclients ▸ h.ends_subscriber rfl
  rw [hemit]
  dsimp only [bind, Option.bind] at hs ⊢
  split at hs
  · next hclosed =>
    obtain rfl := Option.some.inj hs
    exact ⟨_, if_pos hclosed, endSession_matches hends 0⟩
  · next hopen =>
    rw [if_neg hopen]
    split at hs
    · next hwhole =>
      obtain rfl := Option.some.inj hs
      exact ⟨_, if_pos hwhole,
        .moves (by rw [hclients]; exact h.goes h.serves nofun id id nofun id)⟩
    · next hcut =>
      obtain rfl := Option.some.inj hs
      exact ⟨_, if_neg hcut, endSession_matches hends (-1)⟩

theorem followSendMessage_matches (h : Agree (.followSendMessage i message n) (b.clients w) d)
    (hs : b.followSendMessage w i message n result = some x) :
    ∃ x', (b.setClient w d).followSendMessage w i message n result = some x' ∧ Matches w x x' := by
  unfold followSendMessage at hs ⊢
  obtain ⟨y, hy, hs⟩ := Option.bind_eq_some_iff.mp hs
  obtain ⟨hemit, hclients, -⟩ := emit_setClient (h.pipe rfl) hy
  have hends : EndsAlike (y.clients w) d := hclients ▸ h.ends_subscriber rfl
  rw [hemit]
  dsimp only [bind, Option.bind] at hs ⊢
  split at hs
  · next hclosed =>
    obtain rfl := Option.some.inj hs
    exact ⟨_, if_pos hclosed, endSession_matches hends 0⟩
  · next hopen =>
    rw [if_neg hopen]
    split at hs
    · next hwhole =>
      obtain rfl := Option.some.inj hs
      exact ⟨_, if_pos hwhole, counted_matches h rfl hclients rfl h.serves⟩
    · next hcut =>
      obtain rfl := Option.some.inj hs
      exact ⟨_, if_neg hcut, endSession_matches hends (-1)⟩

end Subscriber

/-! ## The other requests -/

section Requests

variable {returnCode : Int} {errorMsg : String} {bytes : List UInt8}
  {writes : List (List UInt8)} {locked malloced : Bool}
  {result : WriteResult} {count : Nat} {last : UInt8}

theorem createBox_setClient {name : CharArray 32} : (b.setClient w d).createBox name malloced
    = ((b.createBox name malloced).1.setClient w d, (b.createBox name malloced).2) := by
  have hfree : (b.setClient w d).freeBoxes = b.freeBoxes := rfl
  cases malloced with
  | false => rfl
  | true =>
    unfold createBox getFreeBox
    dsimp only
    rw [hfree]
    cases firstIndex b.freeBoxes maxBoxes with
    | none => rfl
    | some i =>
      dsimp only
      split <;> rfl

theorem createLock_matches (h : Agree .createLock (b.clients w) d)
    (hs : b.createLock w malloced = some x) :
    ∃ x', (b.setClient w d).createLock w malloced = some x' ∧ Matches w x x' := by
  have hsection : (b.setClient w d).createSection w malloced
      = ((b.createSection w malloced).1.setClient w d, (b.createSection w malloced).2) ∧
      (b.createSection w malloced).1.clients w = b.clients w := by
    constructor
    · unfold createSection
      dsimp only
      rw [setClient_self, h.boxName rfl, createBox_setClient,
        show (b.setClient w d).numBoxes = b.numBoxes from rfl,
        show (b.setClient w d).getBox = b.getBox from rfl]
      by_cases hfull : b.numBoxes = maxBoxes
      · simp only [if_pos hfull]
      · simp only [if_neg hfull]
        by_cases hname : b.getBox (b.clients w).boxName.str ≠ none
        · simp only [if_pos hname]
        · simp only [if_neg hname]
          by_cases hret : (b.createBox (b.clients w).boxName malloced).2 < 0
          · simp only [if_pos hret]
          · simp only [if_neg hret]
    · rcases createSection_cases b w malloced with ⟨msg, heq, -⟩ | ⟨-, -, -, ⟨j, -, heq⟩ | ⟨-, heq⟩⟩
      · rw [heq]
      · rw [heq]
        rfl
      · rw [heq]
  unfold createLock at hs ⊢
  rw [hsection.1]
  split at hs
  · next hfree =>
    obtain rfl := Option.some.inj hs
    refine ⟨_, if_pos hfree, .moves ?_⟩
    rw [hsection.2]
    exact h.goes h.serves (fun _ => rfl) id id nofun id
  · cases hs

theorem createFile_matches (h : Agree (.createFile returnCode errorMsg) (b.clients w) d)
    (hat : b.pcs w = .createFile returnCode errorMsg) :
    Matches w (b.createFile w returnCode errorMsg)
    ((b.setClient w d).createFile w returnCode errorMsg) := by
  have htfs : tfsOpen (b.setClient w d).tfs = tfsOpen b.tfs := rfl
  have hname : ((b.setClient w d).clients w).boxName = (b.clients w).boxName := by
    rw [setClient_self, h.boxName rfl]
  unfold Broker.createFile
  rw [htfs, hname]
  cases tfsOpen b.tfs (some (b.clients w).boxName.str) tfsOCreat with
  | error f => exact .crash (hat ▸ h)
  | ok u =>
    obtain ⟨t, fhandle⟩ := u
    dsimp only
    split
    · exact .returns (x := { b with tfs := t })
    · exact .updates (y := { b with tfs := t }) (fun c => { c with boxFd := fhandle })
        ⟨Or.inl h.serves, h.opcode, h.clientPipename, nofun, fun _ => h.pipe rfl, nofun,
          fun _ => Iff.rfl, nofun, nofun, h.offset⟩

theorem answering_matches (h : Agree (.answering (bytes :: writes) locked) (b.clients w) d)
    (hs : b.answering w bytes writes locked result = some x) :
    ∃ x', (b.setClient w d).answering w bytes writes locked result = some x' ∧ Matches w x x' := by
  unfold answering at hs ⊢
  obtain ⟨y, hy, hs⟩ := Option.bind_eq_some_iff.mp hs
  obtain ⟨hemit, hclients, -⟩ := emit_setClient (h.pipe rfl) hy
  rw [hemit]
  dsimp only [bind, Option.bind] at hs ⊢
  split at hs
  · next hwhole =>
    obtain rfl := Option.some.inj hs
    exact ⟨_, if_pos hwhole, .moves (by rw [hclients]; exact h.goes h.serves nofun id id id id)⟩
  · next hcut =>
    obtain rfl := Option.some.inj hs
    exact ⟨_, if_neg hcut, .returns⟩

theorem answered_matches (h : Agree (.answering [] locked) (b.clients w) d) :
    Matches w (b.answered w locked) ((b.setClient w d).answered w locked) := by
  have hno : ¬ ((b.clients w).opcode = opCodeRegistPub ∨
    (b.clients w).opcode = opCodeRegistSub) := by
    rcases h.serves with hop | hop <;> rw [hop] <;> decide
  have hends : EndsAlike (b.clients w) d :=
    ⟨h.opcode, h.pipe rfl, fun hc => absurd hc hno, Or.inr (h.boxFd (Or.inr (Or.inr rfl)))⟩
  cases locked with
  | false => exact returnFinish_matches hends
  | true => exact returnFinish_matches (b := { b with boxesLock := none }) hends

theorem removeBody_matches (h : Agree .removeBody (b.clients w) d) (hat : b.pcs w = .removeBody) :
    Matches w (b.removeBody w) ((b.setClient w d).removeBody w) := by
  have hname : ((b.setClient w d).clients w).boxName = (b.clients w).boxName := by
    rw [setClient_self, h.boxName rfl]
  have hanswers : ∀ {y : Broker} {writes : List (List UInt8)}, y.clients w = b.clients w →
      Matches w (y.setPc w (.answering writes true))
        ((y.setClient w d).setPc w (.answering writes true)) := by
    intro y writes hclients
    refine .moves ?_
    rw [hclients]
    exact ⟨Or.inr h.serves, h.opcode, h.clientPipename, nofun, fun _ => h.pipe rfl, nofun,
      fun _ => h.boxFd (Or.inr (Or.inl h.serves)), nofun, nofun, h.offset⟩
  have hkept := finishSessions_kept b w (b.clients w).boxName.str 0 b.maxSessions
  have hself := finishSessions_self b w (b.clients w).boxName.str 0 b.maxSessions
  unfold Broker.removeBody
  dsimp only
  rw [hname, show (b.setClient w d).getBox = b.getBox from rfl,
    show (b.setClient w d).maxSessions = b.maxSessions from rfl, finishSessions_setClient]
  split
  · exact hanswers rfl
  · dsimp only
    rw [removeBox_setClient]
    generalize b.finishSessions w (b.clients w).boxName.str 0 b.maxSessions = p at hkept hself
    split
    · exact .returns
    · cases hr : p.1.removeBox (b.clients w).boxName.str with
      | error f => exact .crash (by rw [hself, hkept.pcs]; exact hat ▸ h)
      | ok u =>
        obtain ⟨y, ret⟩ := u
        simp only [Except.map]
        split
        · exact .returns
        · exact hanswers ((congrFun (removeBox_same hr).2.1 w).trans hself)

theorem listWrite_matches (h : Agree (.listing i count last) (b.clients w) d)
    (hs : b.listWrite w i count last result = some x) :
    ∃ x', (b.setClient w d).listWrite w i count last result = some x' ∧ Matches w x x' := by
  unfold listWrite at hs ⊢
  rw [show (b.setClient w d).numBoxes = b.numBoxes from rfl,
    show (b.setClient w d).listFrame = b.listFrame from rfl]
  generalize (if ((count + 1 : Nat) : Int) = b.numBoxes then (1 : UInt8) else last) = last' at hs ⊢
  obtain ⟨y, hy, hs⟩ := Option.bind_eq_some_iff.mp hs
  obtain ⟨hemit, hclients, -⟩ := emit_setClient (h.pipe rfl) hy
  dsimp only
  rw [hemit]
  dsimp only [bind, Option.bind] at hs ⊢
  split at hs
  · next hwhole =>
    obtain rfl := Option.some.inj hs
    exact ⟨_, if_pos hwhole, .moves (by rw [hclients]; exact h.goes h.serves nofun id id nofun id)⟩
  · next hcut =>
    obtain rfl := Option.some.inj hs
    exact ⟨_, if_neg hcut, .returns⟩

end Requests

/-- The step lemma: a section does the same with two records that agree. -/
theorem stepWorker_alike (h : Agree pc (b.clients w) d) (hat : b.pcs w = pc)
    (hs : b.stepWorker w pc a = some x) :
    ∃ x', (b.setClient w d).stepWorker w pc a = some x' ∧ Matches w x x' := by
  have hdone : ∀ {y y' : Broker}, some y = some x → Matches w y y' → ∃ x',
    some y' = some x' ∧ Matches w x x' :=
    fun hy hm => ⟨_, rfl, Option.some.inj hy ▸ hm⟩
  -- One case for each branch of `stepWorker`, in its order.
  unfold stepWorker at hs
  split at hs
  · exact h.serves.elim
  · exact h.serves.elim
  · exact registerOpen_matches h hs
  · split at hs
    · next hlen =>
      obtain ⟨x', hx', hm⟩ := hdone hs (registerBox_matches h _)
      exact ⟨x', (if_pos hlen).trans hx', hm⟩
    · cases hs
  · exact pubOpcode_matches h hs
  · exact pubMessage_matches h hat hs
  · exact lockBox_matches (h.goes h.serves nofun id id nofun nofun) hs
  · exact hdone hs (pubOpen_matches h hat)
  · exact hdone hs (pubWrite_matches h hat)
  · exact hdone hs (pubCount_matches h)
  · exact lockBox_matches (h.goes h.serves id id id nofun nofun) hs
  · exact hdone hs (historyOpen_matches h hat)
  · exact hdone hs (historyTest_matches h hat)
  · exact hdone hs (historyRead_matches h hat)
  · exact historySendOp_matches h hat hs
  · exact historySendMessage_matches h hs
  · exact followLock_matches h hs
  · exact hdone hs (.moves (h.goes h.serves nofun id id nofun id))
  · exact hdone hs (followRead_matches h hat)
  · exact followSendOp_matches h hs
  · exact followSendMessage_matches h hs
  · exact createLock_matches h hs
  · exact createOpen_matches h hs
  · exact hdone hs (createFile_matches h hat)
  · unfold removeLock at hs
    split at hs
    · next hfree =>
      obtain ⟨x', hx', hm⟩ := hdone hs (Matches.moves (x := { b with boxesLock := some w })
        (h.goes h.serves (fun _ => rfl) id id nofun id))
      exact ⟨x', (if_pos hfree).trans hx', hm⟩
    · cases hs
  · exact removeOpen_matches h hs
  · exact hdone hs (removeBody_matches h hat)
  · exact answering_matches h hs
  · exact hdone hs (answered_matches h)
  · exact listOpen_matches h hs
  · split at hs
    · next hend =>
      have hno : ¬ ((b.clients w).opcode = opCodeRegistPub ∨
        (b.clients w).opcode = opCodeRegistSub) := by
        rw [show (b.clients w).opcode = opCodeListBoxes from h.serves]
        decide
      obtain ⟨x', hx', hm⟩ := hdone hs (returnFinish_matches
        ⟨h.opcode, h.pipe rfl, fun hc => absurd hc hno, Or.inl h.serves⟩)
      exact ⟨x', (if_pos hend).trans hx', hm⟩
    · next hmore =>
      split at hs
      · next hskip =>
        obtain ⟨x', hx', hm⟩ := hdone hs (.moves (h.goes h.serves nofun id id nofun id))
        exact ⟨x', (if_neg hmore).trans ((if_pos hskip).trans hx'), hm⟩
      · cases hs
  · split at hs
    · next hwrites =>
      obtain ⟨x', hx', hm⟩ := listWrite_matches h hs
      exact ⟨x', (if_pos hwrites).trans hx', hm⟩
    · cases hs
  · cases hs

/-! ## A request, from first to last -/

/-- One section of worker `w`, until its handler has returned. -/
def handle (w : Nat) (b : Broker) (a : Answer) : Option Broker :=
  match b.pcs w with
  | .ret _ => none
  | _ => b.step (w, a)

/-- Worker `w` serves the request, and its handler returns `result` in state `x`. `script` is
what the handler gets from outside. -/
def Returns (b : Broker) (w : Nat) (r : Request) (script : List Answer)
    (result : Int) (x : Broker) : Prop :=
  ∃ as, as.filter (· ≠ .none) = script ∧ exec (handle w) b (.request r :: as) = some x ∧
    x.pcs w = .ret result

/-- Whatever the boxes, the file system and the script: with record `d` the worker writes the
same, leaves the same table and returns the same as with record `c`. -/
def ServesAlike (r : Request) (c d : Client) : Prop :=
  ∀ (b : Broker) (w : Nat) (script : List Answer) (result : Int) (x : Broker), b.pcs w = .idle →
    Returns (b.setClient w c) w r script result x → ∃ x',
    Returns (b.setClient w d) w r script result x' ∧
      x'.sent = x.sent ∧ x'.boxes = x.boxes ∧ x'.freeBoxes = x.freeBoxes ∧ x'.numBoxes = x.numBoxes

/-- The two records agree where the handler reads what it has not written: `box_fd` for a
publisher and a removal, `offset` for a subscriber whose box can be opened. -/
structure LeftAlike (r : Request) (c d : Client) : Prop where
  boxFd : r.opcode = opCodeRegistPub ∨ r.opcode = opCodeRemoveBox → (d.boxFd = -1 ↔ c.boxFd = -1)
  offset : r.opcode = opCodeRegistSub → validPathname (some r.boxName.str) = true →
    ofSsize d.offset = ofSsize c.offset

theorem handle_eq_some :
    b.handle w a = some x ↔ (∀ result, b.pcs w ≠ .ret result) ∧ b.step (w, a) = some x := by
  unfold handle
  split
  · next result hpc => exact iff_of_false nofun fun hc => hc.1 result hpc
  · next hpc => exact (and_iff_right hpc).symm

theorem dequeued_matches (h : LeftAlike r (b.clients w) d) :
    Matches w (b.dequeued w r) ((b.setClient w d).dequeued w r) := by
  have hswap : (b.setClient w d).dequeued w r = (b.dequeued w r).setClient w (r.record d) := by
    rw [dequeued_eq, dequeued_eq, setClient_self]
    simp [place, setClient]
  have hat : (b.dequeued w r).pcs w = handlerOf r.opcode := setPc_self ..
  have hclient : (b.dequeued w r).clients w = r.record (b.clients w) := setClient_self ..
  refine ⟨_, hswap, ?_⟩
  rw [Agrees, hat, hclient]
  have hname : r.opcode ≠ opCodeListBoxes → (r.record d).boxName
      = (r.record (b.clients w)).boxName ∧
      (r.record (b.clients w)).boxName = r.boxName :=
        fun hno => ⟨(if_pos hno).trans (if_pos hno).symm, if_pos hno⟩
  have hoffset : r.opcode = opCodeRegistSub →
      validPathname (some (r.record (b.clients w)).boxName.str) = true →
      ofSsize d.offset = ofSsize (b.clients w).offset := by
    intro hop hvalid
    rw [(hname (by rw [hop]; decide)).2] at hvalid
    exact h.offset hop hvalid
  have hboxFd : r.opcode = opCodeRegistPub ∨ r.opcode = opCodeRemoveBox ∨ False →
      (d.boxFd = -1 ↔ (b.clients w).boxFd = -1) :=
        fun hc => h.boxFd (hc.imp_right fun ho => ho.resolve_right id)
  -- where the handler starts, most of these questions are about other places
  have hnot : ∀ {P : Prop}, false = true → P := fun hc => Bool.noConfusion hc
  unfold handlerOf
  split
  · next hop =>
    have hno : r.opcode ≠ opCodeListBoxes := by rcases hop with hop | hop <;> rw [hop] <;> decide
    exact Or.inr ⟨hop, rfl, rfl, fun _ => (hname hno).1, hnot, hnot,
      fun hc => hboxFd (hc.imp_right fun ho => ho.imp_right Bool.false_ne_true),
      hnot, hnot, hoffset⟩
  · split
    · next hop =>
      exact Or.inr ⟨hop, rfl, rfl, fun _ => (hname (by rw [hop]; decide)).1, hnot, hnot,
        fun hc => hboxFd (hc.imp_right fun ho => ho.imp_right Bool.false_ne_true), hnot,
        hnot, hoffset⟩
    · split
      · next hop =>
        exact Or.inr ⟨hop, rfl, rfl, fun _ => (hname (by rw [hop]; decide)).1, hnot, hnot,
          fun hc => hboxFd (hc.imp_right fun ho => ho.imp_right Bool.false_ne_true), hnot,
          hnot, hoffset⟩
      · split
        · next hop =>
          exact Or.inr ⟨hop, rfl, rfl, hnot, hnot, hnot,
            fun hc => hboxFd (hc.imp_right fun ho => ho.imp_right Bool.false_ne_true), hnot,
            hnot, hoffset⟩
        · exact Or.inl ⟨0, rfl⟩

/-- The run lemma: from two records that agree, the handler does the same. -/
theorem exec_alike (h : Agrees w b d) {as : List Answer} (hrun : exec (handle w) b as = some x) :
    ∃ e, exec (handle w) (b.setClient w d) as = some (x.setClient w e) := by
  induction as generalizing b d with
  | nil =>
    obtain rfl := Option.some.inj hrun
    exact ⟨d, rfl⟩
  | cons a as ih =>
    obtain ⟨y, hy, hrest⟩ := Option.bind_eq_some_iff.mp hrun
    obtain ⟨hret, hs⟩ := handle_eq_some.mp hy
    have hagree : Agree (b.pcs w) (b.clients w) d :=
      h.resolve_left fun ⟨result, hpc⟩ => hret result hpc
    obtain ⟨hstop, hw, hs⟩ := step_eq_some.mp hs
    obtain ⟨y', hy', e, rfl, he⟩ := stepWorker_alike hagree rfl hs
    obtain ⟨e', hrun'⟩ := ih he hrest
    have hfirst : (b.setClient w d).handle w a = some (y.setClient w e) :=
      handle_eq_some.mpr ⟨hret, step_eq_some.mpr ⟨hstop, hw, hy'⟩⟩
    exact ⟨e', (exec_cons hfirst as).trans hrun'⟩

/-- Two records that agree there are served alike. -/
theorem LeftAlike.servesAlike (h : LeftAlike r c d) : ServesAlike r c d := by
  rintro b w script result x hpc ⟨as, hscript, hrun, hret⟩
  obtain ⟨y, hy, hrest⟩ := Option.bind_eq_some_iff.mp hrun
  obtain ⟨hno, hs⟩ := handle_eq_some.mp hy
  obtain ⟨hstop, hw, hs⟩ := step_eq_some.mp hs
  dsimp only at hs
  rw [show (b.setClient w c).pcs w = .idle from hpc] at hs
  obtain rfl := Option.some.inj hs
  have hself : (b.setClient w c).clients w = c := setClient_self ..
  obtain ⟨e, he, hagree⟩ := dequeued_matches (b := b.setClient w c) (w := w) (d := d)
    (r := r) (by rw [hself]; exact h)
  rw [setClient_setClient] at he
  obtain ⟨e', hrun'⟩ := exec_alike hagree hrest
  have hfirst : (b.setClient w d).handle w (.request r)
    = some ((b.setClient w d).dequeued w r) := by
    refine handle_eq_some.mpr ⟨hno, step_eq_some.mpr ⟨hstop, hw, ?_⟩⟩
    dsimp only
    rw [show (b.setClient w d).pcs w = .idle from hpc]
    rfl
  exact ⟨x.setClient w e', ⟨as, hscript, (exec_cons hfirst as).trans (he ▸ hrun'), hret⟩, rfl,
    rfl, rfl, rfl⟩

/-! ## Two records that are not served alike -/

/-- Where a section needs nothing from outside, it takes nothing. -/
theorem handle_inner (h : handle w b .none = some x) (ha : a ≠ .none) : handle w b a = none := by
  have hinner : ∀ {pc : Pc}, b.stepWorker w pc .none = some x → b.stepWorker w pc a = none := by
    intro pc hs
    cases pc with
    | listing i count last =>
      cases a with
      | none => exact absurd rfl ha
      | wrote result =>
        refine if_neg fun hwrites => ?_
        dsimp only [stepWorker] at hs
        rw [if_neg (Nat.not_le.mpr hwrites.1),
          if_neg (by rw [hwrites.2]; exact Bool.false_ne_true)] at hs
        cases hs
      | _ => rfl
    | answering writes locked =>
      cases writes with
      | cons bytes writes => cases hs
      | nil => cases a <;> first | rfl | exact absurd rfl ha
    | _ => first | (cases hs; done) | (cases a <;> first | rfl | exact absurd rfl ha)
  obtain ⟨hret, hs⟩ := handle_eq_some.mp h
  obtain ⟨-, -, hs⟩ := step_eq_some.mp hs
  cases hx : handle w b a with
  | none => rfl
  | some y =>
    obtain ⟨-, -, hy⟩ := step_eq_some.mp (handle_eq_some.mp hx).2
    exact nomatch hy.symm.trans (hinner hs)

theorem handle_ret {result : Int} (h : b.pcs w = .ret result) : handle w b a = none := by
  rw [handle, h]

/-- The script decides where the handler comes to its end. -/
theorem Returns.determined {script as : List Answer} {result : Int}
    (h : Returns b w r script result x)
    (has : as.filter (· ≠ .none) = script) (hrun : exec (handle w) b (.request r :: as) = some y)
    (hend : handle w y .none = none) : y = x := by
  obtain ⟨as', has', hrun', hret⟩ := h
  refine exec_determined (τ := .none) (fun s t e hs => handle_inner hs) hrun hrun'
    ?_ hend (handle_ret hret)
  rw [List.filter_cons_of_pos (by simp), List.filter_cons_of_pos (by simp), has, has']

theorem handle_of (hstop : b.stopped = false) (hw : w < b.maxSessions) (hpc : b.pcs w = pc)
    (hret : ∀ result, pc ≠ .ret result) (hs : b.stepWorker w pc a = some x) :
    handle w b a = some x := by
  refine handle_eq_some.mpr ⟨fun result hc => hret result (hpc.symm.trans hc), ?_⟩
  rw [step_of hstop hw, hpc]
  exact hs

theorem handle_place {sent : List (Nat × List UInt8)} (hstop : b.stopped = false)
    (hw : w < b.maxSessions)
    (hret : ∀ result, pc ≠ .ret result) (hs : (b.place w c pc sent).stepWorker w pc a = some x) :
    handle w (b.place w c pc sent) a = some x :=
  handle_of hstop hw place_pcs hret hs

/-- A registration up to the section that looks for the box. -/
theorem register_runs {fd : Nat} (hstop : b.stopped = false)
    (hw : w < b.maxSessions) (hpc : b.pcs w = .idle)
    (hfd : b.fds fd = false) (hr : r.opcode = opCodeRegistPub ∨ r.opcode = opCodeRegistSub)
    (as : List Answer) :
    exec (handle w) b (.request r :: .opened r.clientPipename.str (some fd) :: as)
      = exec (handle w) ((b.withFd fd).place w (Client.joining (b.clients w) r fd)
        .registerBox []) as := by
  have hrequest : handle w b (.request r)
    = some (b.place w (r.record (b.clients w)) .registerOpen []) := by
    refine handle_of hstop hw hpc (fun _ hc => Pc.noConfusion hc) ?_
    rw [stepWorker, dequeued_eq, handlerOf, if_pos hr]
  have hopened : handle w (b.place w (r.record (b.clients w)) .registerOpen [])
      (.opened r.clientPipename.str (some fd))
      = some ((b.withFd fd).place w (Client.joining (b.clients w) r fd) .registerBox []) :=
    handle_place hstop hw (fun _ hc => Pc.noConfusion hc) (registerOpen_place hfd)
  rw [exec_cons hrequest, exec_cons hopened]

/-- A broker with one box, of this name and size. -/
def boxNamed (name : CharArray 32) (t : Fs.State) (size : Nat) : Broker :=
  { oneBox t size with boxes := Function.update (fun _ => staticBox) 0 ⟨name, size, 0, 0, 1, none⟩ }

theorem boxNamed_getBox (name : CharArray 32) (t : Fs.State) (size : Nat) :
    (boxNamed name t size).getBox name.str = some 0 :=
  firstIndex_zero (by decide) (by simp [boxNamed])

/-- A publisher that closes its pipe at once: the counter tells whether `box_fd` was -1. -/
theorem publisher_returns (hr : r.opcode = opCodeRegistPub) {stack : List UInt8}
    (hstack : stack.length = messageLength)
    (c : Client) : ∃ x, Returns ((boxNamed r.boxName (tfsStart .zeros) 0).setClient 0 c) 0 r
      [.opened r.clientPipename.str (some 3), .stack stack, .read []] 0 x ∧
      (x.boxes 0).nPublishers = if c.boxFd = -1 then 1 else 0 := by
  generalize hb : (boxNamed r.boxName (tfsStart .zeros) 0).setClient 0 c = b
  have hclient : b.clients 0 = c := by rw [← hb, setClient_self]
  have hready := @register_runs b 0 r 3 (by rw [← hb]; rfl) (by rw [← hb]; exact Nat.one_pos)
    (by rw [← hb]; rfl) (by rw [← hb]; rfl) (Or.inl hr)
  have hjoining : (Client.joining (b.clients 0) r 3).boxName = r.boxName :=
    joining_name (by rw [hr]; decide) _ _
  have hopcode : (Client.joining (b.clients 0) r 3).opcode = opCodeRegistPub := hr
  have hfd : (Client.joining (b.clients 0) r 3).boxFd = c.boxFd := by rw [hclient]; rfl
  have hpipe : (Client.joining (b.clients 0) r 3).clientPipe = 3 := rfl
  generalize Client.joining (b.clients 0) r 3 = c₁ at hready hjoining hopcode hfd hpipe
  generalize hz : (b.withFd 3).place 0 c₁ .registerBox [] = z at hready
  have hzclient : z.clients 0 = c₁ := by rw [← hz, place_clients]
  have hg : z.getBox (z.clients 0).boxName.str = some 0 := by
    rw [hzclient, hjoining, ← hz, ← hb]
    exact boxNamed_getBox r.boxName (tfsStart .zeros) 0
  have hzero : (z.boxes 0).nPublishers = 0 := by
    rw [← hz, ← hb]
    rfl
  have hregistered := @registerBox_publisher z 0 0 stack hg (by rw [hzclient]; exact hopcode)
    (by rw [hzero]; exact Nat.zero_ne_one)
  rw [hzero] at hregistered
  generalize hy : ((z.attach 0 0).setBox 0 _).setPc 0 _ = y at hregistered
  have hyclient : y.clients 0 = { c₁ with box := some 0 } := by
    rw [← hy, ← hzclient]
    exact z.setClient_self 0 { z.clients 0 with box := some 0 }
  have hcount : (y.boxes 0).nPublishers = 1 := by
    rw [← hy]
    exact congrArg Box.nPublishers (setBox_self ..)
  have hopen : y.isOpenFd (y.clients 0).clientPipe = true := by
    rw [hyclient, ← hy, ← hz, ← hb]
    exact congrArg (fun fd : Int => Broker.isOpenFd _ fd) hpipe
  have hregister : handle 0 z (.stack stack) = some y :=
    handle_of (by rw [← hz, ← hb]; rfl) (by rw [← hz, ← hb]; exact Nat.one_pos)
      (show z.pcs 0 = .registerBox by rw [← hz, place_pcs]) nofun
      ((if_pos hstack).trans (congrArg some hregistered))
  -- The client closed its pipe: `read` gives 0 and the session ends.
  have hclosed : handle 0 y (.read []) = some (y.endSession 0 0) := by
    refine handle_of (by rw [← hy, ← hz, ← hb]; rfl) (by rw [← hy, ← hz, ← hb]; exact Nat.one_pos)
      (show y.pcs 0 = .pubOpcode stack by rw [← hy, setPc_self]) nofun ?_
    have hpipeClosed : y.stepWorker 0 (.pubOpcode stack) (.read []) = some (y.pipeClosed 0) := rfl
    refine hpipeClosed.trans (congrArg some (if_pos ?_))
    rw [hyclient]
    exact Option.some_ne_none 0
  refine ⟨y.endSession 0 0, ⟨_, ?_, (hready [.stack stack, .read []]).trans ?_, setPc_self ..⟩, ?_⟩
  · simp
  · rw [exec_cons hregister, exec_cons hclosed]
    rfl
  · have hcounter := finishClientSession_counter (r := .publisher) (j := 0) hopen
      (by rw [hyclient]; exact hopcode)
      (by rw [hyclient]) .publisher 0
    refine Eq.trans hcounter ?_
    rw [hyclient, hfd, show Role.counter .publisher (y.boxes 0) = 1 from hcount]
    by_cases hno : c.boxFd = -1
    · rw [if_neg fun hc => hc.1 hno, if_pos hno]
    · rw [if_pos ⟨hno, rfl, rfl⟩, if_neg hno]
      rfl

/-- A remove request up to the section that looks for the box. -/
theorem remove_runs {fd : Nat} (hstop : b.stopped = false) (hw : w < b.maxSessions)
    (hpc : b.pcs w = .idle)
    (hfd : b.fds fd = false) (hlock : b.boxesLock = none) (hr : r.opcode = opCodeRemoveBox)
    (as : List Answer) :
    exec (handle w) b (.request r :: .none :: .opened r.clientPipename.str (some fd) :: as)
      = exec (handle w) (({ b.withFd fd with boxesLock := some w } : Broker).place w
        (Client.joining (b.clients w) r fd)
        .removeBody []) as := by
  have hrequest : handle w b (.request r)
    = some (b.place w (r.record (b.clients w)) .removeLock []) := by
    refine handle_of hstop hw hpc (fun _ hc => Pc.noConfusion hc) ?_
    rw [stepWorker, dequeued_eq, hr]
    rfl
  have hlocked : handle w (b.place w (r.record (b.clients w)) .removeLock []) .none
      = some (({ b with boxesLock := some w } : Broker).place w
        (r.record (b.clients w)) .removeOpen []) :=
    handle_place hstop hw (fun _ hc => Pc.noConfusion hc) (removeLock_place hlock)
  have hopened : handle w (({ b with boxesLock := some w } : Broker).place w
      (r.record (b.clients w)) .removeOpen [])
      (.opened r.clientPipename.str (some fd))
        = some (({ b.withFd fd with boxesLock := some w } : Broker).place w
        (Client.joining (b.clients w) r fd) .removeBody []) :=
    handle_place (b := { b with boxesLock := some w }) hstop hw (fun _ hc => Pc.noConfusion hc)
      (removeOpen_place hfd)
  rw [exec_cons hrequest, exec_cons hlocked, exec_cons hopened]

/-- The writes of an answer, each taken whole. -/
theorem answering_runs {writes : List (List UInt8)} {locked : Bool}
    (hstop : b.stopped = false) (hw : w < b.maxSessions)
    (hpc : b.pcs w = .answering writes locked)
    (hopen : b.isOpenFd (b.clients w).clientPipe = true) :
    ∃ y, (∀ as,
      exec (handle w) b (writes.map (fun bytes => Answer.wrote (.wrote bytes.length)) ++ as)
        = exec (handle w) y as) ∧ y.stopped = false ∧ w < y.maxSessions ∧
      y.pcs w = .answering [] locked ∧
      y.clients = b.clients ∧ y.fds = b.fds := by
  induction writes generalizing b with
  | nil => exact ⟨b, fun _ => rfl, hstop, hw, hpc, rfl, rfl⟩
  | cons bytes writes ih =>
    have hfirst : handle w b (.wrote (.wrote bytes.length))
      = some ((b.wrote w bytes).setPc w (.answering writes locked)) := by
      refine handle_of hstop hw hpc nofun ?_
      dsimp only [stepWorker, answering]
      rw [emit_whole hopen]
      exact if_pos rfl
    obtain ⟨y, hrun, hystop, hyw, hypc, hyclients, hyfds⟩ := ih
      (b := (b.wrote w bytes).setPc w (.answering writes locked))
      hstop hw (setPc_self ..) hopen
    exact ⟨y, fun as => (exec_cons hfirst _).trans (hrun as), hystop, hyw, hypc, hyclients, hyfds⟩

/-- The request to remove a box that does not exist returns -1 if `box_fd` was -1. -/
theorem removal_returns (hr : r.opcode = opCodeRemoveBox) :
    ∃ (b : Broker) (script : List Answer), b.pcs 0 = .idle ∧
    ∀ c : Client, ∃ x, Returns (b.setClient 0 c) 0 r script (if c.boxFd = -1 then -1 else 0) x := by
  -- Every slot holds a name that is not the one of the request.
  obtain ⟨name, hname⟩ : ∃ name : CharArray 32, name.str ≠ r.boxName.str := by
    by_cases hempty : r.boxName.str = staticBox.boxName.str
    · exact ⟨sampleName, by rw [hempty]; decide⟩
    · exact ⟨staticBox.boxName, fun hc => hempty hc.symm⟩
  refine ⟨{ fresh 1 with boxes := fun _ => { staticBox with boxName := name } },
    .opened r.clientPipename.str (some 3)
      :: (answer opCodeRemoveBoxAnswer (-1) "Box does not exist").map
      fun bytes => .wrote (.wrote bytes.length), rfl, fun c => ?_⟩
  generalize hb :
    ({ fresh 1 with boxes := fun _ => { staticBox with boxName := name } } : Broker).setClient 0 c
      = b
  have hclient : b.clients 0 = c := by rw [← hb, setClient_self]
  have hready := @remove_runs b 0 r 3 (by rw [← hb]; rfl) (by rw [← hb]; exact Nat.one_pos)
    (by rw [← hb]; rfl) (by rw [← hb]; rfl) (by rw [← hb]; rfl) hr
  have hjoining : (Client.joining (b.clients 0) r 3).boxName = r.boxName :=
    joining_name (by rw [hr]; decide) _ _
  have hopcode : (Client.joining (b.clients 0) r 3).opcode = opCodeRemoveBox := hr
  have hfd : (Client.joining (b.clients 0) r 3).boxFd = c.boxFd := by rw [hclient]; rfl
  have hpipe : (Client.joining (b.clients 0) r 3).clientPipe = 3 := rfl
  generalize Client.joining (b.clients 0) r 3 = c₁ at hready hjoining hopcode hfd hpipe
  generalize hz : ({ b.withFd 3 with boxesLock := some 0 } : Broker).place 0 c₁
    .removeBody [] = z at hready
  have hzclient : z.clients 0 = c₁ := by rw [← hz, place_clients]
  have hg : z.getBox (z.clients 0).boxName.str = none := by
    refine getBox_eq_none.mpr fun i _ => ?_
    rw [hzclient, hjoining, ← hz, ← hb]
    exact hname
  have hbody : handle 0 z .none
      = some
        (z.setPc 0 (.answering (answer opCodeRemoveBoxAnswer (-1) "Box does not exist") true)) :=
    handle_of (by rw [← hz, ← hb]; rfl) (by rw [← hz, ← hb]; exact Nat.one_pos)
      (show z.pcs 0 = .removeBody by rw [← hz, place_pcs]) nofun (congrArg some (if_pos hg))
  have hopen : z.isOpenFd (z.clients 0).clientPipe = true := by
    rw [hzclient, hpipe, ← hz, ← hb]
    rfl
  obtain ⟨y, hanswers, hystop, hyw, hypc, hyclients, hyfds⟩ := answering_runs
    (b := z.setPc 0 (.answering (answer opCodeRemoveBoxAnswer (-1) "Box does not exist") true))
      (w := 0)
    (by rw [← hz, ← hb]; rfl) (by rw [← hz, ← hb]; exact Nat.one_pos) (setPc_self ..) hopen
  have hend : handle 0 y .none = some (({ y with boxesLock := none } : Broker).returnFinish 0) :=
    handle_of hystop hyw hypc nofun rfl
  have hyclient : y.clients 0 = c₁ := by rw [hyclients, ← hzclient]; rfl
  have hyopen : ({ y with boxesLock := none } : Broker).isOpenFd
    (y.clients 0).clientPipe = true := by
    rw [hyclient, ← hzclient, isOpenFd, show Broker.fds { y with boxesLock := none }
      = z.fds from hyfds]
    exact hopen
  have hresult : (({ y with boxesLock := none } : Broker).finishClientSession 0).2 = if c.boxFd
    = -1 then -1 else 0 := by
    by_cases hno : c.boxFd = -1
    · rw [finishClientSession_of_no_boxFd hyopen
        (by rw [show Broker.clients { y with boxesLock := none } 0
          = c₁ from hyclient, hopcode]; decide)
        (by rw [show Broker.clients { y with boxesLock := none } 0 = c₁ from hyclient, hfd, hno]),
        if_pos hno]
    · rw [finishClientSession_of_boxFd hyopen
        (Or.inr (by rw [show Broker.clients { y with boxesLock := none } 0
          = c₁ from hyclient, hfd]; exact hno)),
        if_neg hno]
  refine ⟨({ y with boxesLock := none } : Broker).returnFinish 0,
    .none :: .opened r.clientPipename.str (some 3) :: .none
      :: ((answer opCodeRemoveBoxAnswer (-1) "Box does not exist").map
    (fun bytes => Answer.wrote (.wrote bytes.length)) ++ [.none]), ?_, (hready _).trans ?_, ?_⟩
  · simp [answer]
  · rw [exec_cons hbody, hanswers, exec_cons hend]
    rfl
  · rw [returnFinish, setPc_self, hresult]

section Subscriber

variable {name : CharArray 32} {t : Fs.State} {size : Nat}

/-- A subscriber up to the first test of its offset, in a box whose file is empty. -/
theorem subscriber_runs (hr : r.opcode = opCodeRegistSub)
    (hopen : tfsOpen (tfsStart .zeros) (some r.boxName.str) tfsOCreat = .ok (t, 0))
    {stack : List UInt8} (hstack : stack.length = messageLength) (size : Nat) (c : Client) :
    ∃ (b : Broker) (d : Client),
    (∀ as, exec (handle 0) ((boxNamed r.boxName (tfsStart .zeros) size).setClient 0 c)
        (.request r :: .opened r.clientPipename.str (some 3)
          :: .stack stack :: .none :: .none :: as)
      = exec (handle 0) (b.place 0 d .historyTest []) as) ∧ b.stopped = false ∧ 0 < b.maxSessions ∧
      (b.boxes 0).boxSize = size ∧ b.tfs = t ∧ b.isOpenFd d.clientPipe = true ∧
        d.box = some 0 ∧ d.boxFd = 0 ∧
      d.offset = c.offset := by
  generalize hb : (boxNamed r.boxName (tfsStart .zeros) size).setClient 0 c = b
  have hclient : b.clients 0 = c := by rw [← hb, setClient_self]
  have hready := @register_runs b 0 r 3 (by rw [← hb]; rfl) (by rw [← hb]; exact Nat.one_pos)
    (by rw [← hb]; rfl) (by rw [← hb]; rfl) (Or.inr hr)
  have hjoining : (Client.joining (b.clients 0) r 3).boxName = r.boxName :=
    joining_name (by rw [hr]; decide) _ _
  have hopcode : (Client.joining (b.clients 0) r 3).opcode = opCodeRegistSub := hr
  have hoffset : (Client.joining (b.clients 0) r 3).offset = c.offset := by rw [hclient]; rfl
  have hpipe : (Client.joining (b.clients 0) r 3).clientPipe = 3 := rfl
  generalize Client.joining (b.clients 0) r 3 = c₁ at hready hjoining hopcode hoffset hpipe
  have hg : ((b.withFd 3).place 0 c₁ .registerBox []).getBox
      (((b.withFd 3).place 0 c₁ .registerBox []).clients 0).boxName.str = some 0 := by
    rw [place_clients, hjoining, ← hb]
    exact boxNamed_getBox r.boxName (tfsStart .zeros) size
  have hregistered := @registerBox_subscriber _ 0 0 stack hg
    (by rw [place_clients, hopcode]; decide)
  rw [attach, place_clients, place_setClient, place_setBox, place_setPc] at hregistered
  generalize hy : Broker.setBox _ 0 _ = y at hregistered
  have hystop : y.stopped = false := by rw [← hy, ← hb]; rfl
  have hyw : 0 < y.maxSessions := by rw [← hy, ← hb]; exact Nat.one_pos
  have hybox : (y.boxes 0).boxSize = size ∧ (y.boxes 0).lock = none := by
    rw [← hy, ← hb]
    exact ⟨rfl, rfl⟩
  have hytfs : y.tfs = tfsStart .zeros := by rw [← hy, ← hb]; rfl
  have hyopen : y.isOpenFd c₁.clientPipe = true := by
    rw [hpipe, ← hy]
    rfl
  have hregister : handle 0 ((b.withFd 3).place 0 c₁ .registerBox []) (.stack stack)
      = some (y.place 0 { c₁ with box := some 0 } (.historyLock 0) []) :=
    handle_place (by rw [← hb]; rfl) (by rw [← hb]; exact Nat.one_pos)
      (fun _ hc => Pc.noConfusion hc)
      ((if_pos hstack).trans (congrArg some hregistered))
  have hlocked : handle 0 (y.place 0 { c₁ with box := some 0 } (.historyLock 0) []) .none
      = some ((y.setBox 0 { y.boxes 0 with lock := some 0 }).place 0
        { c₁ with box := some 0 } .historyOpen []) :=
    handle_place hystop hyw (fun _ hc => Pc.noConfusion hc) (historyLock_place hybox.2)
  generalize hz : y.setBox 0 { y.boxes 0 with lock := some 0 } = z at hlocked
  have hopened : handle 0 (z.place 0 { c₁ with box := some 0 } .historyOpen []) .none
      = some (({ z with tfs := t } : Broker).place 0 { c₁ with box := some 0, boxFd := 0 }
        .historyTest []) := by
    refine handle_place (by rw [← hz]; exact hystop) (by rw [← hz]; exact hyw)
      (fun _ hc => Pc.noConfusion hc)
      (congrArg some (historyOpen_place (j := 0) ?_))
    rw [show z.tfs = tfsStart .zeros by rw [← hz]; exact hytfs]
    exact (congrArg (fun name : CharArray 32 => tfsOpen (tfsStart .zeros) (some name.str) tfsOCreat)
      hjoining).trans hopen
  refine ⟨{ z with tfs := t }, { c₁ with box := some 0, boxFd := 0 },
    fun as => ?_, by rw [← hz]; exact hystop, by rw [← hz]; exact hyw, ?_, rfl, ?_, rfl,
    rfl, hoffset⟩
  · rw [hready, exec_cons hregister, exec_cons hlocked, exec_cons hopened]
  · rw [← hz]
    exact (field_setBox (b := y) (x := { y.boxes 0 with lock := some 0 })
      Box.boxSize rfl 0).trans hybox.1
  · rw [← hz]
    exact hyopen

/-- The offset is where the broker thinks that the box ends: the subscriber sleeps. -/
theorem subscriber_sleeps_at (hstop : b.stopped = false) (hw : 0 < b.maxSessions)
    (hbox : c.box = some 0)
    (hsize : (b.boxes 0).boxSize = ofSsize c.offset) :
    ∃ y, exec (handle 0) (b.place 0 c .historyTest []) [.none, .none] = some y ∧
    handle 0 y .none = none ∧
      ∀ result, y.pcs 0 ≠ .ret result := by
  have hzero : ∀ x : Broker, (x.boxes 0).boxSize = ofSsize c.offset →
    subSize (x.boxes 0).boxSize (ofSsize c.offset) = 0 :=
    fun x hx => (subSize_eq_zero_iff (hx ▸ ofSsize_lt _) (ofSsize_lt _)).mpr hx
  have htest : handle 0 (b.place 0 c .historyTest []) .none
      = some ((b.setBox 0 { b.boxes 0 with lock := none }).place 0 c (.followLock 0) []) :=
    handle_place hstop hw nofun (congrArg some (historyTest_place hbox (hzero b hsize)))
  generalize hy : b.setBox 0 { b.boxes 0 with lock := none } = y at htest
  have hybox : (y.boxes 0).boxSize = ofSsize c.offset ∧ (y.boxes 0).lock = none := by
    rw [← hy, setBox_self]
    exact ⟨hsize, rfl⟩
  have hfollow : handle 0 (y.place 0 c (.followLock 0) []) .none
      = some ((y.place 0 c (.followLock 0) []).setPc 0 (.asleep 0 (y.boxes 0).cond)) := by
    refine handle_place (by rw [← hy]; exact hstop) (by rw [← hy]; exact hw) nofun ?_
    refine (if_pos hybox.2).trans (if_pos ?_)
    rw [unread, place_clients]
    exact hzero y hybox.1
  refine ⟨_, (exec_cons htest _).trans (exec_cons hfollow _), ?_, fun result hc => ?_⟩
  · cases hx :
      handle 0 ((y.place 0 c (.followLock 0) []).setPc 0 (.asleep 0 (y.boxes 0).cond)) .none with
    | none => rfl
    | some x =>
      have hs := (step_eq_some.mp (handle_eq_some.mp hx).2).2.2
      dsimp only at hs
      rw [setPc_self] at hs
      cases hs
  · rw [setPc_self] at hc
    cases hc

/-- The offset is elsewhere: the subscriber finds nothing to read, and its session ends. -/
theorem subscriber_ends_at (hstop : b.stopped = false) (hw : 0 < b.maxSessions)
    (hbox : c.box = some 0)
    (hfd : c.boxFd = 0) (hopen : b.isOpenFd c.clientPipe = true)
    (hempty : ∀ len, tfsRead b.tfs 0 len = .ok (b.tfs, 0, []))
    (hsize : subSize (b.boxes 0).boxSize (ofSsize c.offset) ≠ 0) :
    ∃ y, exec (handle 0) (b.place 0 c .historyTest []) [.none, .none, .none, .none] = some y ∧
    y.pcs 0 = .ret 0 := by
  have hread : ∀ {x : Broker} {pc : Pc} {len : Nat}, x.tfs = b.tfs →
      tfsRead (x.place 0 c pc []).tfs ((x.place 0 c pc []).clients 0).boxFd len
        = .ok (b.tfs, 0, []) := by
    intro x pc len htfs
    rw [place_clients, hfd, show (x.place 0 c pc []).tfs = b.tfs from htfs]
    exact hempty len
  -- Both loops find the size different from the offset, and both read nothing.
  have htest : handle 0 (b.place 0 c .historyTest []) .none
    = some (b.place 0 c .historyRead []) := by
    refine handle_place hstop hw (fun _ hc => Pc.noConfusion hc) (congrArg some ?_)
    have hmore : (b.place 0 c .historyTest []).unread 0 0 > 0 := by
      rw [unread, place_clients]
      exact Nat.pos_of_ne_zero hsize
    simp only [historyTest, place_clients, hbox, if_pos hmore, place_setPc]
  have hnothing : handle 0 (b.place 0 c .historyRead []) .none
      = some ((b.setBox 0 { b.boxes 0 with lock := none }).place 0 c (.followLock 0) []) := by
    refine handle_place hstop hw (fun _ hc => Pc.noConfusion hc) (congrArg some ?_)
    have hdone : ({ b.place 0 c .historyRead [] with tfs := b.tfs } : Broker).historyDone 0
        = (b.setBox 0 { b.boxes 0 with lock := none }).place 0 c (.followLock 0) [] := by
      rw [show ({ b.place 0 c .historyRead [] with tfs := b.tfs } : Broker)
        = b.place 0 c .historyRead [] from rfl]
      simp only [historyDone, place_clients, hbox, unlockBox, place_setBox, place_setPc]
      rfl
    simp only [historyRead, hread (x := b) rfl, if_true]
    exact hdone
  generalize hy : b.setBox 0 { b.boxes 0 with lock := none } = y at hnothing
  have hybox : (y.boxes 0).boxSize = (b.boxes 0).boxSize ∧ (y.boxes 0).lock = none := by
    rw [← hy, setBox_self]
    exact ⟨rfl, rfl⟩
  have hytfs : y.tfs = b.tfs := by rw [← hy]; rfl
  have hfollow : handle 0 (y.place 0 c (.followLock 0) []) .none
    = some (y.place 0 c (.followRead 0) []) := by
    refine handle_place (by rw [← hy]; exact hstop) (by rw [← hy]; exact hw)
      (fun _ hc => Pc.noConfusion hc) ?_
    refine (if_pos hybox.2).trans ((if_neg ?_).trans (congrArg some place_setPc))
    rw [unread, place_clients, show ((y.place 0 c (.followLock 0) []).boxes 0).boxSize
      = _ from hybox.1]
    exact hsize
  have hend : handle 0 (y.place 0 c (.followRead 0) []) .none
    = some ((y.place 0 c (.followRead 0) []).returnFinish 0) := by
    refine handle_place (by rw [← hy]; exact hstop) (by rw [← hy]; exact hw)
      (fun _ hc => Pc.noConfusion hc) (congrArg some ?_)
    simp only [followRead, hread (x := y) hytfs, if_true]
    rw [← hytfs]
    rfl
  refine ⟨_, (exec_cons htest _).trans
    ((exec_cons hnothing _).trans ((exec_cons hfollow _).trans (exec_cons hend _))), ?_⟩
  have hyopen : (y.place 0 c (.followRead 0) []).isOpenFd
    ((y.place 0 c (.followRead 0) []).clients 0).clientPipe = true := by
    rw [place_clients, ← hy]
    exact hopen
  rw [returnFinish, setPc_self, finishClientSession_of_boxFd hyopen
    (Or.inr (by rw [place_clients, hfd]; decide))]

/-- A read from the file that was just created. -/
theorem oneFile_read {m : Malloc} {n : CStr} (hpos : 0 < n.length)
    (hlen : n.length ≤ 39) (len : Nat) :
    tfsRead (oneFile m n) 0 len = .ok (oneFile m n, 0, []) := by
  have hwf := @oneFile_wellFormed m n hpos hlen
  obtain ⟨k, hl, hh⟩ := @oneFile_cursor m n hpos hlen
  have hlive := hwf.linked.live n k hl
  have hsize : ((oneFile m n).inodeTable k).iSize = 0 := by
    have hfile := file_of_lookup hl
    rw [oneFile_file hpos hlen, if_pos rfl] at hfile
    rw [← length_content, ← Option.some.inj hfile]
    rfl
  refine tfsRead_nothing (m := 0) hwf.toFilesWf.root.toSized hh.handle hh.inumber hlive.lt ?_ rfl
  rw [hsize, hh.offset]
  exact (if_neg (Nat.not_lt_zero len)).symm

end Subscriber

/-- Two records that are served alike agree where the handler reads what it has not written. -/
theorem ServesAlike.leftAlike (h : ServesAlike r c d) : LeftAlike r c d := by
  obtain ⟨stack, hstack⟩ : ∃ stack : List UInt8, stack.length = messageLength :=
    ⟨List.replicate messageLength 0, List.length_replicate⟩
  refine ⟨fun hop => ?_, fun hop hvalid => ?_⟩
  · rcases hop with hop | hop
    · obtain ⟨x, hx, hcount⟩ := publisher_returns hop hstack c
      obtain ⟨y, hy, hcount'⟩ := publisher_returns hop hstack d
      obtain ⟨x', ⟨as, has, hrun, hret⟩, -, hboxes, -⟩ := h _ 0 _ 0 x rfl hx
      obtain rfl := hy.determined has hrun (handle_ret hret)
      rw [hboxes, hcount] at hcount'
      by_cases hc : c.boxFd = -1
      · by_cases hd : d.boxFd = -1
        · exact iff_of_true hd hc
        · rw [if_pos hc, if_neg hd] at hcount'
          cases hcount'
      · by_cases hd : d.boxFd = -1
        · rw [if_neg hc, if_pos hd] at hcount'
          cases hcount'
        · exact iff_of_false hd hc
    · obtain ⟨b, script, hpc, hreturns⟩ := removal_returns hop
      obtain ⟨x, hx⟩ := hreturns c
      obtain ⟨y, hy⟩ := hreturns d
      obtain ⟨x', ⟨as, has, hrun, hret⟩, -⟩ := h b 0 script _ x hpc hx
      obtain rfl := hy.determined has hrun (handle_ret hret)
      obtain ⟨-, -, -, hret'⟩ := hy
      have hsame := Pc.ret.inj (hret.symm.trans hret')
      by_cases hc : c.boxFd = -1
      · by_cases hd : d.boxFd = -1
        · exact iff_of_true hd hc
        · rw [if_pos hc, if_neg hd] at hsame
          cases hsame
      · by_cases hd : d.boxFd = -1
        · rw [if_neg hc, if_pos hd] at hsame
          cases hsame
        · exact iff_of_false hd hc
  · by_contra hne
    have hlen : r.boxName.str.tail.length ≤ 39 := r.boxName.str_tail_length_lt.le.trans (by decide)
    have hpos := validPathname_pos hvalid
    have hopen := @tfsOpen_first .zeros r.boxName.str hvalid hlen
    -- the box ends where `d` says: with `d` the subscriber sleeps, with `c` it does not
    obtain ⟨b, e, hruns, hstop, hw, hsize, htfs, hpipe, hbox, hfd, hoffset⟩ :=
      subscriber_runs hop hopen hstack (ofSsize d.offset) c
    obtain ⟨x, hx, hxret⟩ := subscriber_ends_at hstop hw hbox hfd hpipe
      (by rw [htfs]; exact fun len => oneFile_read hpos hlen len)
      (by rw [hsize, hoffset, Ne, subSize_eq_zero_iff (ofSsize_lt _) (ofSsize_lt _)]; exact hne)
    obtain ⟨b', e', hruns', hstop', hw', hsize', -, -, hbox', -, hoffset'⟩ :=
      subscriber_runs hop hopen hstack (ofSsize d.offset) d
    obtain ⟨y, hy, hyend, hyret⟩ := subscriber_sleeps_at hstop' hw' hbox' (by rw [hsize', hoffset'])
    obtain ⟨x', hx', -⟩ := h _ 0 [.opened r.clientPipename.str (some 3), .stack stack] 0 x rfl
      ⟨_, by simp, (hruns [.none, .none, .none, .none]).trans hx, hxret⟩
    obtain rfl := hx'.determined (by simp) ((hruns' [.none, .none]).trans hy) hyend
    obtain ⟨-, -, -, hret⟩ := hx'
    exact hyret 0 hret

/-- A request is served alike with two records, if and only if they agree on `box_fd` for a
publisher or a removal, and on `offset` for a subscriber whose box can be opened. -/
theorem servesAlike_iff (r : Request) (c d : Client) : ServesAlike r c d ↔ LeftAlike r c d :=
  ⟨ServesAlike.leftAlike, LeftAlike.servesAlike⟩

/-- A publisher that is served with a record from `malloc`, and with one from a session that
was finished. -/
theorem leftover_served : ¬ ∀ (r : Request) (c d : Client), ServesAlike r c d := by
  intro h
  have hsame :=
    (h (sampleRequest opCodeRegistPub) zeroClient (Client.finished zeroClient)).leftAlike
  exact absurd ((hsame.boxFd (Or.inl rfl)).mp rfl) (by decide)

end Broker

end MBroker
