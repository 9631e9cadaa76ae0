import MBroker.Broker.Following
import MBroker.Broker.Sleepers
import MBroker.Wire.Lines
import MBroker.Wire.Subscriber

/-!
# From the publisher's input to the subscriber's output

The publisher program, its pipe, the broker, the subscriber's pipe and the subscriber
program, with the steps of all of them in any order. A pipe is the bytes in it: `write` adds
a message whole, and `read` takes what there is, up to the count asked for; with nothing in
the pipe it waits until the other end is closed.

Results:
1. `upstream_publisher`, `upstream_worker`, `upstream_beside`: what each step does to the lines
   between the publisher's input and the box.
2. `downstream_receive`, `downstream_serve`, `downstream_print`: what it does to the messages
   between the subscriber's worker and the subscriber's output.
3. `relayed`: the subscriber prints the lines of the publisher, in order, none lost, none
   twice; once nothing is on its way, all of them.
-/

namespace MBroker

open ByteMemory Transition TextLines

namespace Relay

/-- `main` of the publisher: its buffer and its standard input, or its end. -/
inductive PublisherState
  | running (message : List UInt8) (stdin : Publisher.Stdin)
  | returned (code : Int)
  /-- `getline` has called `realloc` on the buffer -/
  | grown

structure System where
  publisher : PublisherState
  pubPipe : List UInt8
  broker : Broker
  subPipe : List UInt8
  subscriber : Subscriber.Program

/-- Worker `p` serves the publisher over descriptor `pubFd`, and worker `s` the subscriber
over `fd`. -/
structure Wiring where
  p : Nat
  s : Nat
  pubFd : Nat
  fd : Nat

inductive Event
  /-- the publisher writes its next line, or returns -/
  | publisher
  /-- a section of a worker -/
  | broker (w : Nat) (a : Answer)
  /-- `try_read` returns in the subscriber -/
  | reads
  | prints

namespace System

variable (c : Wiring) (x : System)

/-- The broker runs and has its end of the pipe open. -/
def hasEnd (fd : Nat) : Bool := x.broker.fds fd && !x.broker.stopped

/-- A turn of the loop of the publisher. Its `write` is whole, or fails because the broker
has closed its end. -/
def publish : Option System :=
  match x.publisher with
  | .running message stdin =>
    match Publisher.turn message stdin with
    | .returned code => some { x with publisher := .returned code }
    | .grown => some { x with publisher := .grown }
    | .writes message stdin =>
      if x.hasEnd c.pubFd then some
        { x with publisher := .running message stdin, pubPipe := x.pubPipe ++ message }
      else some { x with publisher := .returned 0 }
  | _ => none

def published : Bool :=
  match x.publisher with
  | .running .. => false
  | _ => true

/-- The bytes that a worker asks for. -/
def asked : Pc → Nat
  | .pubOpcode _ => 1
  | _ => messageLength

/-- What is left in the publisher's pipe when worker `p` gets this answer. -/
def consumed (w : Nat) (a : Answer) : Option (List UInt8) :=
  match a with
  | .read bytes =>
    if w = c.p then
      if bytes = x.pubPipe.take (asked (x.broker.pcs w)) ∧ (bytes = [] → x.published = true) then
        some (x.pubPipe.drop bytes.length)
      else none
    else some x.pubPipe
  | _ => some x.pubPipe

/-- A section of the broker; what it writes for the subscriber goes to the pipe. -/
def serve (w : Nat) (a : Answer) : Option System :=
  match x.consumed c w a, x.broker.step (w, a) with
  | some pubPipe, some b => some
    { x with
      pubPipe := pubPipe
      broker := b
      subPipe := x.subPipe ++ (b.output c.s c.fd).drop (x.broker.output c.s c.fd).length }
  | _, _ => none

def receive : Option System :=
  let count := if x.subscriber.place = .opCode then 1 else messageLength
  if x.subPipe = [] ∧ x.hasEnd c.fd = true then none
  else (x.subscriber.step (.read (some (x.subPipe.take count)))).map fun t =>
    { x with subscriber := t, subPipe := x.subPipe.drop count }

def step (e : Event) : Option System :=
  match e with
  | .publisher => x.publish c
  | .broker w a => x.serve c w a
  | .reads => x.receive c
  | .prints => (x.subscriber.step .print).map fun t => { x with subscriber := t }

end System

/-! ## Upstream -/

/-- The input of the publisher, every line with its newline. -/
def textOf (lines : List CStr) : List UInt8 := lines.flatMap fun m => m.bytes ++ [Publisher.newline]

/-- The lines as the publisher writes them. -/
def frames (lines : List CStr) : List UInt8 := lines.flatMap fun m => Publisher.frame m.bytes

/-- The message that a worker has read and not counted yet. -/
def inHand : Pc → List CStr
  | .pubLock _ message | .pubOpen _ message | .pubWrite _ message _ | .pubCount _ message =>
    [messageStr message]
  | _ => []

/-- These lines are in the pipe of the publisher; the operation code of the first one may
have been read. -/
def Holds (pubPipe : List UInt8) (queued : List CStr) : Pc → Prop
  | .pubMessage _ => ∃ m ms, queued = m :: ms ∧
    pubPipe = zeroPadded m.bytes messageLength ++ frames ms
  | _ => pubPipe = frames queued

/-- The publisher has these lines still to read. -/
def Sends (rest : List CStr) : PublisherState → Prop
  | .running message stdin => stdin = ⟨textOf rest, false, false⟩ ∧
      ∃ text, message = opCodePublisher :: text ∧ text.length = messageLength
  | .returned _ => rest = []
  | .grown => False

/-- What a section of the publisher's worker does to the place of that worker. -/
inductive Turns : Pc → Answer → Pc → Prop
  | opCode {message bytes : List UInt8} : bytes ≠ [] →
      Turns (.pubOpcode message) (.read bytes) (.pubMessage message)
  | message {message bytes : List UInt8} {i : Nat} : bytes ≠ [] →
      Turns (.pubMessage message) (.read bytes) (.pubLock i (bytes ++ message.drop bytes.length))
  | closed {pc : Pc} {message : List UInt8} : pc = .pubOpcode message ∨ pc = .pubMessage message →
      Turns pc (.read []) (.ret 0)
  | lock {message : List UInt8} {i : Nat} : Turns (.pubLock i message) .none (.pubOpen i message)
  | opened {message : List UInt8} {i : Nat} {fhandle : Int} :
      Turns (.pubOpen i message) .none (.pubWrite i message fhandle)
  | written {message : List UInt8} {i : Nat} {fhandle : Int} :
      Turns (.pubWrite i message fhandle) .none (.pubCount i message)
  | counted {message : List UInt8} {i : Nat} :
    Turns (.pubCount i message) .none (.pubOpcode message)
  | failed {pc : Pc} : Turns pc .none (.ret (-1))
  | returned {result : Int} : result ≠ -1 → Turns (.ret result) .none .idle
  | closing : Turns (.ret (-1)) .none .closing

section Publisher

open Broker Fs TerminatedStream

variable {b b' : Broker} {p s i fd w j : Nat} {q : CStr} {ms done : List CStr}
  {message : List UInt8} {a : Answer}

theorem pipeClosed_place (b : Broker) (w : Nat) : (b.pipeClosed w).pcs w = .ret 0 := by
  unfold Broker.pipeClosed
  split
  · rw [(endSession_frame b w 0).2.2]
    exact Function.update_self ..
  · exact setPc_self ..

/-- A publish that fits is whole or fails. -/
theorem pubWrite_place (h : Delivers b p s i fd q ms done) {fh : Int}
    (hpc : b.pcs p = .pubWrite j message fh)
    (hfits : ∀ c, b.fileOf j = some c → c.length + ((messageStr message).length + 1) ≤ boxSize) :
    (b.pubWrite p j message fh).pcs p = .ret (-1) ∨ (b.pubWrite p j message fh).pcs p
      = .pubCount j message := by
  have hplace := h.writer.place
  rw [hpc] at hplace
  obtain ⟨rfl, hlen⟩ := hplace
  have hshelf := h.shelf
  have hfile := hshelf.file
  rw [show uncounted (b.pcs p) = [] by rw [hpc]; rfl, List.append_nil] at hfile
  have hroom := hfits _ ((congrArg (fun p => b.tfs.file (CStr.tail p)) hshelf.path).trans hfile)
  have hsize : (messageStr message).length + 1 ≤ (message ++ [0]).length := messageStr_fits message
  have hword : (messageStr message).length + 1 < 9223372036854775808 := by
    have hle := messageStr_le hlen
    unfold messageLength at hle
    omega
  have hall : (messageStr message).length + 1
      = min ((messageStr message).length + 1) (b.tfs.fsParams.blockSize - (encode ms).length) := by
    have hblock : b.tfs.fsParams.blockSize = boxSize := congrArg TfsParams.blockSize hshelf.params
    omega
  rcases tfsWrite_append hshelf.wf hfile (h.writer.cursor j message fh hpc) hsize hword hall with
    ⟨hwrite, -⟩ | ⟨t, hwrite, -, -⟩
  · rw [pubWrite_refused hwrite, (endSession_frame _ p (-1)).2.2]
    exact .inl (Function.update_self ..)
  · rw [pubWrite_whole hwrite rfl]
    exact .inr (setPc_self ..)

theorem publisher_turns (h : Delivers b p s i fd q ms done) (hok : Alongside p s b (p, a))
    (hs : b.step (p, a) = some b') (hrunning : b'.stopped = false)
    (hbox : (b.pcs p).InSession = true → (b.clients p).box = some i) :
    Turns (b.pcs p) a (b'.pcs p) := by
  obtain ⟨-, -, hs⟩ := step_eq_some.mp hs
  dsimp only at hs
  have hplace := h.writer.place
  cases hpc : b.pcs p with
  | idle =>
    rw [hpc] at hs
    cases a with
    | request r => exact absurd rfl (hok.session r)
    | _ => cases hs
  | ret result =>
    rw [hpc] at hs
    cases a with
    | none =>
      obtain rfl := Option.some.inj hs
      by_cases hfailed : result = -1
      · subst hfailed
        by_cases hp : p = 0
        · rw [Broker.returned, if_pos rfl, if_pos hp] at hrunning
          cases hrunning
        · rw [Broker.returned, if_pos rfl, if_neg hp, setPc_self]
          exact .closing
      · rw [Broker.returned, if_neg hfailed, setPc_self]
        exact .returned hfailed
    | _ => cases hs
  | closing =>
    rw [hpc] at hs
    cases a <;> cases hs
  | pubOpcode message =>
    rw [hpc] at hs
    cases a with
    | read bytes =>
      obtain ⟨-, hs⟩ := Option.ite_none_right_eq_some.mp hs
      split at hs
      · next hnone =>
        obtain rfl := Option.some.inj hs
        subst hnone
        rw [pipeClosed_place]
        exact .closed (.inl rfl)
      · next hsome =>
        obtain rfl := Option.some.inj hs
        rw [setPc_self]
        exact .opCode hsome
    | _ => cases hs
  | pubMessage message =>
    rw [hpc] at hs
    cases a with
    | read bytes =>
      obtain ⟨-, hs⟩ := Option.ite_none_right_eq_some.mp hs
      split at hs
      · next hnone =>
        obtain rfl := Option.some.inj hs
        subst hnone
        rw [pipeClosed_place]
        exact .closed (.inr rfl)
      · next hsome =>
        rw [hbox (by rw [hpc]; rfl)] at hs
        obtain rfl := Option.some.inj hs
        rw [setPc_self]
        exact .message hsome
    | _ => cases hs
  | pubLock j message =>
    rw [hpc] at hs
    cases a with
    | none =>
      obtain ⟨-, hs⟩ := Option.ite_none_right_eq_some.mp hs
      obtain rfl := Option.some.inj hs
      rw [setPc_self]
      exact .lock
    | _ => cases hs
  | pubOpen j message =>
    rw [hpc] at hs
    cases a with
    | none =>
      obtain rfl := Option.some.inj hs
      unfold Broker.pubOpen at hrunning ⊢
      split at hrunning
      · cases hrunning
      · next t fhandle hopen =>
        dsimp only at hrunning ⊢
        split
        · rw [(endSession_frame _ p (-1)).2.2, Function.update_self]
          exact .failed
        · rw [setPc_self]
          exact .opened
    | _ => cases hs
  | pubWrite j message fhandle =>
    rw [hpc] at hs
    cases a with
    | none =>
      obtain rfl := Option.some.inj hs
      rcases pubWrite_place h hpc (hok.fits j message fhandle hpc) with hret | hnext
      · rw [hret]
        exact .failed
      · rw [hnext]
        exact .written
    | _ => cases hs
  | pubCount j message =>
    rw [hpc] at hs
    cases a with
    | none =>
      obtain rfl := Option.some.inj hs
      unfold Broker.pubCount
      rw [setPc_self]
      exact .counted
    | _ => cases hs
  | _ =>
    rw [hpc] at hplace
    exact hplace.elim

/-- A session that goes on keeps its box, and no descriptor is opened or closed. -/
theorem session_keeps (hs : b.step (w, a) = some b') (hin : (b.pcs w).InSession = true)
    (hin' : (b'.pcs w).InSession = true) (hrunning : b'.stopped = false) :
    (b'.clients w).box = (b.clients w).box ∧ b'.fds = b.fds := by
  rcases step_session hs hin with hends | hcrash | hgoes
  · exact absurd hin' (by rw [hends.ended]; decide)
  · generalize b.pcs w = pc at hcrash
    cases hcrash <;> cases hrunning
  · exact ⟨hgoes.goesOn.box, hgoes.goesOn.fds⟩

end Publisher

/-! ### What is on its way to the box -/

/-- A line that `getline` finds room for. -/
def IsLine (m : CStr) : Prop := Publisher.newline ∉ m.bytes ∧ m.length ≤ 1021

/-- `all` are the messages that belong into the box; `ms` are there. -/
structure Upstream (c : Wiring) (i : Nat) (all ms : List CStr) (x : System) : Prop where
  sofar : ms <+: all
  session : x.broker.stopped = false → (x.broker.pcs c.p).InSession = true →
    (x.broker.clients c.p).box = some i ∧ x.broker.fds c.pubFd = true ∧
      ∃ queued rest, all = ms ++ inHand (x.broker.pcs c.p) ++ queued ++ rest ∧
      (∀ m ∈ queued ++ rest, IsLine m) ∧
        Holds x.pubPipe queued (x.broker.pcs c.p) ∧ Sends rest x.publisher
  /-- a session that did not fail has ended with the input -/
  ended : x.broker.stopped = false →
    (x.broker.pcs c.p = .idle ∨ ∃ r, x.broker.pcs c.p = .ret r ∧ r ≠ -1) →
    ms = all

section Upstream

open Broker

variable {c : Wiring} {i : Nat} {q : CStr} {all ms done queued rest : List CStr}
  {x y : System} {m : CStr}
  {message : List UInt8} {pc : Pc} {a : Answer}

theorem frames_append (ms ns : List CStr) : frames (ms ++ ns) = frames ms ++ frames ns :=
  List.flatMap_append

theorem frames_cons (m : CStr) (ms : List CStr) :
    frames (m :: ms) = opCodePublisher :: (zeroPadded m.bytes messageLength ++ frames ms) :=
      List.flatMap_cons

theorem Holds.append (h : Holds message queued pc) (ms : List CStr) :
    Holds (message ++ frames ms) (queued ++ ms) pc := by
  cases pc with
  | pubMessage =>
    obtain ⟨m, ns, rfl, rfl⟩ := h
    exact ⟨m, ns ++ ms, rfl, by rw [frames_append, List.append_assoc]⟩
  | _ => exact (congrArg (· ++ frames ms) h).trans (frames_append queued ms).symm

theorem turn_nil {text : List UInt8} :
    Publisher.turn (opCodePublisher :: text) ⟨textOf [], false, false⟩ = .returned 0 := rfl

/-- The publisher writes its next line. -/
theorem turn_cons {text : List UInt8} (hm : IsLine m) (hlen : text.length = messageLength) :
    Publisher.turn (opCodePublisher :: text) ⟨textOf (m :: rest), false, false⟩
      = .writes (Publisher.frame m.bytes) ⟨textOf rest, false, false⟩ := by
  have htext : textOf (m :: rest) = m.bytes ++ Publisher.newline :: textOf rest := by
    rw [textOf, List.flatMap_cons, List.append_assoc]
    rfl
  have hnul : (0 : UInt8) ∉ m.bytes ++ [Publisher.newline] := by
    intro h
    rcases List.mem_append.mp h with h | h
    · exact m.nul_notMem h
    · cases List.mem_singleton.mp h
  have hfit : (m.bytes ++ [Publisher.newline]).length + 1 ≤ messageLength := by
    have hshort := hm.2
    rw [List.length_append]
    show m.length + 1 + 1 ≤ 1023
    omega
  rw [htext, Publisher.turn_line rfl (Publisher.getline_line hm.1 (textOf rest))
    (by simp) hnul hfit hlen,
    List.dropLast_concat]

theorem upstream_publisher (h : Upstream c i all ms x) (hs : x.publish c = some y) :
    Upstream c i all ms y ∧ y.broker = x.broker ∧ y.subPipe = x.subPipe ∧
    y.subscriber = x.subscriber := by
  unfold System.publish at hs
  split at hs
  swap
  · cases hs
  next message stdin hstate =>
  have hkeep : ∀ state pubPipe, (x.broker.stopped = false → (x.broker.pcs c.p).InSession = true →
      ∀ queued rest, (∀ m ∈ queued ++ rest, IsLine m) → Holds x.pubPipe queued (x.broker.pcs c.p) →
        Sends rest x.publisher → ∃ queued' rest', queued ++ rest = queued' ++ rest' ∧
          Holds pubPipe queued' (x.broker.pcs c.p) ∧ Sends rest' state) →
      Upstream c i all ms { x with publisher := state, pubPipe := pubPipe } := by
    intro state pubPipe hmove
    refine ⟨h.sofar, fun hrunning hin => ?_, h.ended⟩
    obtain ⟨hbox, hfd, queued, rest, hall, hlines, hholds, hsends⟩ := h.session hrunning hin
    obtain ⟨queued', rest', heq, hholds', hsends'⟩ :=
      hmove hrunning hin queued rest hlines hholds hsends
    refine ⟨hbox, hfd, queued', rest', ?_, heq ▸ hlines, hholds', hsends'⟩
    rw [hall, List.append_assoc, heq, ← List.append_assoc]
  -- In a session the publisher runs on the lines that are left, so its turn is known.
  have hturn : ∀ rest, Sends rest x.publisher → (∀ m ∈ rest, IsLine m) →
      (rest = [] ∧ Publisher.turn message stdin = .returned 0) ∨ ∃ m ms, rest = m :: ms ∧
        Publisher.turn message stdin = .writes (Publisher.frame m.bytes)
          ⟨textOf ms, false, false⟩ := by
    intro rest hsends hlines
    rw [hstate] at hsends
    obtain ⟨rfl, text, rfl, hlen⟩ := hsends
    cases rest with
    | nil => exact .inl ⟨rfl, turn_nil⟩
    | cons m ms => exact .inr ⟨m, ms, rfl, turn_cons (hlines m List.mem_cons_self) hlen⟩
  have hlater : ∀ {queued rest : List CStr}, (∀ m ∈ queued ++ rest, IsLine m) →
    ∀ m ∈ rest, IsLine m :=
    fun hlines m hm => hlines m (List.mem_append_right _ hm)
  split at hs
  · next code heq =>
    obtain rfl := Option.some.inj hs
    refine ⟨hkeep _ _ fun _ _ queued rest hlines hholds hsends => ?_, rfl, rfl, rfl⟩
    rcases hturn rest hsends (hlater hlines) with ⟨hnil, -⟩ | ⟨m, ms, -, hwrites⟩
    · exact ⟨queued, rest, rfl, hholds, hnil⟩
    · cases heq.symm.trans hwrites
  · next heq =>
    obtain rfl := Option.some.inj hs
    refine ⟨hkeep _ _ fun _ _ queued rest hlines hholds hsends => ?_, rfl, rfl, rfl⟩
    rcases hturn rest hsends (hlater hlines) with ⟨-, hreturned⟩ | ⟨m, ms, -, hwrites⟩
    · cases heq.symm.trans hreturned
    · cases heq.symm.trans hwrites
  · next message' stdin' heq =>
    split at hs
    · obtain rfl := Option.some.inj hs
      refine ⟨hkeep _ _ fun _ _ queued rest hlines hholds hsends => ?_, rfl, rfl, rfl⟩
      rcases hturn rest hsends (hlater hlines) with ⟨-, hreturned⟩ | ⟨m, ms, rfl, hwrites⟩
      · cases heq.symm.trans hreturned
      · obtain ⟨rfl, rfl⟩ := Publisher.Turn.writes.inj (heq.symm.trans hwrites)
        have hframe : Publisher.frame m.bytes = frames [m] := (List.append_nil _).symm
        refine ⟨queued ++ [m], ms, List.append_cons queued m ms, ?_, rfl, _,
          rfl, length_zeroPadded _ _⟩
        rw [hframe]
        exact hholds.append [m]
    · next hclosed =>
      obtain rfl := Option.some.inj hs
      refine ⟨hkeep _ _ fun hrunning hin queued rest hlines hholds hsends => ?_, rfl, rfl, rfl⟩
      have hopen : x.hasEnd c.pubFd = true := by
        rw [System.hasEnd, (h.session hrunning hin).2.1, hrunning]
        rfl
      exact absurd hopen hclosed

theorem Upstream.of_same (h : Upstream c i all ms x) (hbroker : y.broker = x.broker)
    (hpipe : y.pubPipe = x.pubPipe)
    (hpublisher : y.publisher = x.publisher) : Upstream c i all ms y := by
  refine ⟨h.sofar, ?_, ?_⟩
  · rw [hbroker, hpipe, hpublisher]
    exact h.session
  · rw [hbroker]
    exact h.ended

theorem serve_eq_some {w : Nat} (hs : x.serve c w a = some y) :
    ∃ pubPipe b, x.consumed c w a = some pubPipe ∧ x.broker.step (w, a) = some b ∧ y = { x with
      pubPipe := pubPipe
      broker := b
      subPipe := x.subPipe ++ (b.output c.s c.fd).drop (x.broker.output c.s c.fd).length } := by
  unfold System.serve at hs
  split at hs
  · next pubPipe b hconsumed hstep => exact ⟨pubPipe, b, hconsumed, hstep,
      (Option.some.inj hs).symm⟩
  · cases hs

theorem consumed_read {bytes pubPipe : List UInt8}
    (h : x.consumed c c.p (.read bytes) = some pubPipe) :
    bytes = x.pubPipe.take (System.asked (x.broker.pcs c.p)) ∧ (bytes = [] → x.published = true) ∧
      pubPipe = x.pubPipe.drop bytes.length := by
  unfold System.consumed at h
  dsimp only at h
  rw [if_pos rfl] at h
  obtain ⟨⟨hbytes, hclosed⟩, h⟩ := Option.ite_none_right_eq_some.mp h
  exact ⟨hbytes, hclosed, (Option.some.inj h).symm⟩

/-- Nothing is left in the pipe, and the publisher is done. -/
theorem Holds.nothing_left (hholds : Holds x.pubPipe queued pc)
    (hpc : pc = .pubOpcode message ∨ pc = .pubMessage message)
    (hsends : Sends rest x.publisher) (hnil : [] = x.pubPipe.take (System.asked pc))
    (hdone : x.published = true) :
    queued = [] ∧ rest = [] := by
  refine ⟨?_, ?_⟩
  · rcases hpc with rfl | rfl
    · cases queued with
      | nil => rfl
      | cons m ms =>
        have hpipe : x.pubPipe = frames (m :: ms) := hholds
        rw [hpipe, frames_cons] at hnil
        cases hnil
    · obtain ⟨m, ms, -, hpipe⟩ := hholds
      have hlength := congrArg List.length hnil
      rw [hpipe, List.length_take, List.length_append, length_zeroPadded] at hlength
      simp only [System.asked, List.length_nil] at hlength
      unfold messageLength at hlength
      omega
  · unfold System.published at hdone
    cases hstate : x.publisher with
    | running =>
      rw [hstate] at hdone
      cases hdone
    | returned code =>
      rw [hstate] at hsends
      exact hsends
    | grown =>
      rw [hstate] at hsends
      exact hsends.elim

/-- What a worker leaves in the pipe. -/
def Leaves (pubPipe : List UInt8) (pc : Pc) (pubPipe' : List UInt8) : Answer → Prop
  | .read bytes => bytes = pubPipe.take (System.asked pc) ∧ pubPipe' = pubPipe.drop bytes.length
  | _ => pubPipe' = pubPipe

theorem consumed_moved {pubPipe : List UInt8} (h : x.consumed c c.p a = some pubPipe) :
    Leaves x.pubPipe (x.broker.pcs c.p) pubPipe a := by
  cases a with
  | read bytes =>
    obtain ⟨hbytes, -, hpipe⟩ := consumed_read h
    exact ⟨hbytes, hpipe⟩
  | _ => exact (Option.some.inj h).symm

theorem Turns.inSession {pc pc' : Pc} (h : Turns pc a pc') (hin : pc'.InSession = true) :
    pc.InSession = true := by
  cases h with
  | closed | failed | returned | closing => cases hin
  | _ => rfl

/-- A session ends without a failure when the pipe is closed. -/
theorem Turns.over {pc pc' : Pc} (h : Turns pc a pc')
    (hdone : pc' = .idle ∨ ∃ r, pc' = .ret r ∧ r ≠ -1) :
    (∃ message, (pc = .pubOpcode message ∨ pc = .pubMessage message) ∧ a = .read []) ∨
      ∃ r, pc = .ret r ∧ r ≠ -1 := by
  cases h with
  | closed hpc => exact .inl ⟨_, hpc, rfl⟩
  | returned hne => exact .inr ⟨_, rfl, hne⟩
  | failed =>
    obtain ⟨r, hr, hne⟩ := hdone.resolve_left nofun
    exact absurd (Pc.ret.inj hr).symm hne
  | _ =>
    obtain ⟨r, hr, -⟩ := hdone.resolve_left nofun
    cases hr

/-- A section moves a line from the pipe to the hand, or from the hand to the count. -/
theorem Turns.line {pc pc' : Pc} {pubPipe pubPipe' : List UInt8} (h : Turns pc a pc')
    (hplace : PublishesTo i pc)
    (hin : pc'.InSession = true) (hholds : Holds pubPipe queued pc)
    (hshort : ∀ m ∈ queued, m.length ≤ 1021)
    (hleaves : Leaves pubPipe pc pubPipe' a) :
    ∃ queued', inHand pc ++ queued = uncounted pc ++ inHand pc' ++ queued' ∧
    Holds pubPipe' queued' pc' ∧
      queued' ⊆ queued := by
  cases h with
  | opCode hne =>
    obtain ⟨rfl, rfl⟩ := hleaves
    have hpipe : pubPipe = frames queued := hholds
    cases queued with
    | nil =>
      rw [hpipe] at hne
      exact absurd rfl hne
    | cons m ms =>
      refine ⟨m :: ms, rfl, ⟨m, ms, rfl, ?_⟩, List.Subset.refl _⟩
      rw [hpipe, frames_cons]
      rfl
  | @message message bytes j hne =>
    obtain ⟨hbytes, rfl⟩ := hleaves
    obtain ⟨m, ms, rfl, rfl⟩ := hholds
    have hwhole : bytes = zeroPadded m.bytes messageLength :=
      hbytes.trans (List.take_left' (length_zeroPadded _ _))
    have hlength : bytes.length = messageLength := hwhole ▸ length_zeroPadded _ _
    have hrest : message.drop bytes.length = [] :=
      List.drop_of_length_le (Nat.le_of_eq (Eq.trans hplace hlength.symm))
    have hm : m.length ≤ messageLength :=
      Nat.le_trans (hshort m List.mem_cons_self) (by unfold messageLength; omega)
    refine ⟨ms, ?_, ?_, List.subset_cons_self m ms⟩
    · show [] ++ m :: ms = [] ++ [messageStr (bytes ++ message.drop bytes.length)] ++ ms
      rw [hrest, List.append_nil, hwhole, messageStr_zeroPadded hm]
      rfl
    · show (zeroPadded m.bytes messageLength ++ frames ms).drop bytes.length = frames ms
      rw [hwhole]
      exact List.drop_left
  | lock => exact ⟨queued, rfl, hleaves ▸ hholds, List.Subset.refl _⟩
  | opened => exact ⟨queued, rfl, hleaves ▸ hholds, List.Subset.refl _⟩
  | written => exact ⟨queued, rfl, hleaves ▸ hholds, List.Subset.refl _⟩
  | counted => exact ⟨queued, rfl, hleaves ▸ hholds, List.Subset.refl _⟩
  | closed | failed | returned | closing => cases hin

/-- A section of the publisher's worker: it takes a line from the pipe, or adds it to the box. -/
theorem upstream_worker (h : Upstream c i all ms x)
    (hd : Delivers x.broker c.p c.s i c.fd q ms done)
    (hok : Alongside c.p c.s x.broker (c.p, a)) (hs : x.serve c c.p a = some y) :
    Upstream c i all (ms ++ uncounted (x.broker.pcs c.p)) y := by
  obtain ⟨pubPipe, b, hconsumed, hstep, rfl⟩ := serve_eq_some hs
  have hbefore : x.broker.stopped = false := (step_eq_some.mp hstep).1
  have hsession := h.session hbefore
  have hsofar : ms ++ uncounted (x.broker.pcs c.p) <+: all := by
    cases hpc : x.broker.pcs c.p with
    | pubCount j message =>
      obtain ⟨-, -, queued, rest, hall, -⟩ := hsession (by rw [hpc]; rfl)
      rw [hpc, List.append_assoc] at hall
      exact ⟨_, hall.symm⟩
    | _ =>
      refine List.IsPrefix.trans ?_ h.sofar
      exact ⟨[], (List.append_nil _).trans (List.append_nil ms)⟩
  by_cases hstopped : b.stopped = true
  · exact ⟨hsofar, fun hrunning => Bool.noConfusion (hrunning.symm.trans hstopped),
      fun hrunning => Bool.noConfusion (hrunning.symm.trans hstopped)⟩
  have hrunning : b.stopped = false := by simpa using hstopped
  have hturns := publisher_turns hd hok hstep hrunning fun hin => (hsession hin).1
  have hkeeps : (x.broker.pcs c.p).InSession = true → (b.pcs c.p).InSession = true →
      (b.clients c.p).box = some i ∧ b.fds c.pubFd = true := by
    intro hin hin'
    obtain ⟨hbox, hfds⟩ := session_keeps hstep hin hin' hrunning
    exact ⟨hbox.trans (hsession hin).1, (congrFun hfds _).trans (hsession hin).2.1⟩
  have hplace := hd.writer.place
  refine ⟨hsofar, fun _ hin' => ?_, fun _ hdone => ?_⟩
  · have hin : (x.broker.pcs c.p).InSession = true := hturns.inSession hin'
    obtain ⟨hbox, hfd⟩ := hkeeps hin hin'
    obtain ⟨-, -, queued, rest, hall, hlines, hholds, hsends⟩ := hsession hin
    obtain ⟨queued', hmoved, hholds', hsub⟩ := hturns.line hplace hin' hholds
      (fun m hm => (hlines m (List.mem_append_left _ hm)).2) (consumed_moved hconsumed)
    refine ⟨hbox, hfd, queued', rest, ?_, ?_, hholds', hsends⟩
    · rw [hall, List.append_assoc ms, hmoved]
      simp only [List.append_assoc]
    · intro m hm
      rcases List.mem_append.mp hm with hm | hm
      · exact hlines m (List.mem_append_left _ (hsub hm))
      · exact hlines m (List.mem_append_right _ hm)
  · rcases hturns.over hdone with ⟨message, hpc, rfl⟩ | ⟨r, hpc, hne⟩
    · have hin : (x.broker.pcs c.p).InSession
        = true := by rcases hpc with hpc | hpc <;> rw [hpc] <;> rfl
      obtain ⟨-, -, queued, rest, hall, -, hholds, hsends⟩ := hsession hin
      obtain ⟨hnil, hclosed, -⟩ := consumed_read hconsumed
      obtain ⟨rfl, rfl⟩ := hholds.nothing_left hpc hsends hnil (hclosed rfl)
      have hnone : uncounted (x.broker.pcs c.p) = [] ∧ inHand (x.broker.pcs c.p) = [] := by
        rcases hpc with hpc | hpc <;> rw [hpc] <;> exact ⟨rfl, rfl⟩
      show ms ++ uncounted (x.broker.pcs c.p) = all
      rw [hall, hnone.1, hnone.2]
      simp only [List.append_nil]
    · have hnone : uncounted (x.broker.pcs c.p) = [] := by
        rw [hpc]
        rfl
      rw [hnone, List.append_nil]
      exact h.ended hbefore (.inr ⟨r, hpc, hne⟩)

theorem inSession_of_follows {c : Client} {sent : List (Nat × List UInt8)}
    {cursor : Nat → Prop} {i fd : Nat}
    (h : FollowsAt c sent cursor i fd ms done pc) : pc.InSession = true := by
  cases pc <;> first | rfl | exact h.elim

/-- A section of the subscriber's worker. -/
theorem upstream_beside (h : Upstream c i all ms x)
    (hd : Delivers x.broker c.p c.s i c.fd q ms done)
    (hok : Alongside c.p c.s x.broker (c.s, a)) (hone : x.broker.TakesOne (c.s, a))
    (hs : x.serve c c.s a = some y) :
    Upstream c i all ms y := by
  obtain ⟨pubPipe, b, hconsumed, hstep, rfl⟩ := serve_eq_some hs
  have hbefore : x.broker.stopped = false := (step_eq_some.mp hstep).1
  have hin : (x.broker.pcs c.s).InSession = true := inSession_of_follows hd.reader.place
  have hremove : x.broker.pcs c.s ≠ .removeBody := by
    intro hpc
    rw [hpc] at hin
    cases hin
  obtain ⟨ds, hnext⟩ := hd.subscriber_step hok hone hstep
  have hbeside := step_beside hstep hd.apart hremove
  have hstays : b.pcs c.p = x.broker.pcs c.p := by
    rcases hbeside.stays with hsame | ⟨j, n, hasleep, -⟩
    · exact hsame
    · have hplace := hd.writer.place
      rw [hasleep] at hplace
      exact hplace.elim
  have hpipe : pubPipe = x.pubPipe := by
    unfold System.consumed at hconsumed
    split at hconsumed
    · rw [if_neg hd.apart.symm] at hconsumed
      exact (Option.some.inj hconsumed).symm
    · exact (Option.some.inj hconsumed).symm
  subst hpipe
  refine ⟨h.sofar, fun hrunning hinp => ?_, fun hrunning hended => ?_⟩
  · have hfds : b.fds = x.broker.fds := (session_keeps hstep hin
      (inSession_of_follows hnext.reader.place) hrunning).2
    dsimp only at hinp ⊢
    rw [hstays] at hinp ⊢
    rw [hbeside.clients, hfds]
    exact h.session hbefore hinp
  · dsimp only at hended
    rw [hstays] at hended
    exact h.ended hbefore hended

end Upstream

/-! ## Downstream -/

/-- The messages that the subscriber has read. -/
def seen (t : Subscriber.Program) : List CStr :=
  match t.place with
  | .printing => t.printed ++ [.ofBytes t.message.bytes]
  | _ => t.printed

/-- What the subscriber has read behind its last message. -/
def Begun (rest : List UInt8) : Subscriber.Place → Prop
  | .opCode | .printing => rest = []
  | .message => rest = [opCodeSubscriber]
  | .returned _ => True

/-- What the broker has written is what the subscriber has read and what is in the pipe. -/
structure Downstream (c : Wiring) (x : System) : Prop where
  short : ∀ m ∈ seen x.subscriber, m.length ≤ messageLength
  taken : ∃ rest, x.broker.output c.s c.fd = Broker.frameBytes (seen x.subscriber) ++ rest
    ++ x.subPipe ∧
    Begun rest x.subscriber.place

section Downstream

open Broker

variable {c : Wiring} {i : Nat} {q : CStr} {ms done : List CStr} {x y : System}
  {b b' : Broker} {w : Nat} {pc : Pc}
  {a : Answer} {output rest : List UInt8}

/-! ### What the broker writes -/

/-- A message is begun: its operation code is written. -/
def opening : Pc → List UInt8
  | .historySendMessage .. | .followSendMessage .. => [opCodeSubscriber]
  | _ => []

theorem opening_cases (pc : Pc) : opening pc = [] ∨ opening pc = [opCodeSubscriber] := by
  cases pc <;> first | exact .inl rfl | exact .inr rfl

theorem output_eq {p s i fd : Nat} (h : Delivers b p s i fd q ms done) :
    b.output s fd = frameBytes done ++ opening (b.pcs s) := by
  have hplace := h.reader.place
  have hnone : b.sent s = done.flatMap (frameLines fd) → b.output s fd = frameBytes done ++ [] := by
    intro hsent
    have hlines : b.sent s = done.flatMap (frameLines fd) ++ [] := by rw [hsent, List.append_nil]
    exact output_frames hlines nofun
  have hone : b.sent s = done.flatMap (frameLines fd) ++ [(fd, [opCodeSubscriber])] →
      b.output s fd = frameBytes done ++ [opCodeSubscriber] := by
    intro hsent
    refine output_frames hsent fun line hline => ?_
    rw [List.mem_singleton.mp hline]
  cases hpc : b.pcs s with
  | historyLock j =>
    rw [hpc] at hplace
    obtain ⟨-, rfl, hsent, -⟩ := hplace
    exact hnone hsent
  | historyOpen =>
    rw [hpc] at hplace
    obtain ⟨rfl, hsent, -⟩ := hplace
    exact hnone hsent
  | historyTest =>
    rw [hpc] at hplace
    exact hnone hplace.2
  | historyRead =>
    rw [hpc] at hplace
    exact hnone hplace.2
  | followLock j =>
    rw [hpc] at hplace
    exact hnone hplace.2.2
  | asleep j n =>
    rw [hpc] at hplace
    exact hnone hplace.2.2
  | followRead j =>
    rw [hpc] at hplace
    exact hnone hplace.2.2.1
  | historySendOp rest n =>
    rw [hpc] at hplace
    obtain ⟨rs, -, -, -, hsent⟩ := hplace
    exact hnone hsent
  | historySendMessage rest n =>
    rw [hpc] at hplace
    obtain ⟨rs, -, -, -, hsent⟩ := hplace
    exact hone hsent
  | followSendOp j message n =>
    rw [hpc] at hplace
    obtain ⟨-, m, -, -, hsent⟩ := hplace
    exact hnone hsent
  | followSendMessage j message n =>
    rw [hpc] at hplace
    obtain ⟨-, m, -, -, hsent⟩ := hplace
    exact hone hsent
  | _ =>
    rw [hpc] at hplace
    exact hplace.elim

theorem emit_grows {bytes : List UInt8} {result : WriteResult}
    (h : b.emit w bytes result = some b') :
    b.sent w <+: b'.sent w := by
  unfold Broker.emit at h
  split at h
  · cases result with
    | wrote n =>
      obtain ⟨-, h⟩ := Option.ite_none_right_eq_some.mp h
      obtain rfl := Option.some.inj h
      refine ⟨[((b.clients w).clientPipe.toNat, bytes.take n)], ?_⟩
      dsimp only
      rw [Function.update_self]
    | _ => exact Option.some.inj h ▸ List.prefix_refl _
  · obtain ⟨-, h⟩ := Option.ite_none_right_eq_some.mp h
    exact Option.some.inj h ▸ List.prefix_refl _

theorem continues_grows (h : Continues b w pc b') : b.sent w <+: b'.sent w := by
  cases h with
  | historySendOp _ _ hx => exact (emit_grows hx).trans (List.prefix_refl _)
  | historyNext hx => exact (emit_grows hx).trans (List.prefix_refl _)
  | historyLast hx => exact (emit_grows hx).trans (List.prefix_refl _)
  | followSendOp hx => exact (emit_grows hx).trans (List.prefix_refl _)
  | followSendMessage hx => exact (emit_grows hx).trans (List.prefix_refl _)
  | _ => exact List.prefix_refl _

theorem output_grows {fd : Nat} (h : b.sent w <+: b'.sent w) :
    b.output w fd <+: b'.output w fd := by
  obtain ⟨lines, hlines⟩ := h
  rw [Broker.output, Broker.output, ← hlines, List.filter_append, List.flatMap_append]
  exact List.prefix_append _ _

/-- No section takes back what was written. -/
theorem output_prefix {p s i fd : Nat} {ns ds : List CStr} (h : Delivers b p s i fd q ms done)
    (h' : Delivers b' p s i fd q ns ds) (hs : b.step (w, a) = some b') (hw : w = p ∨ w = s)
    (hsame : w = p → ds = done) : b.output s fd <+: b'.output s fd := by
  rcases hw with rfl | rfl
  · have hopening : opening (b'.pcs s) = opening (b.pcs s) := by
      rcases step_others hs h.apart.symm with hstays | ⟨j, n, hasleep, hwoken⟩
      · rw [hstays]
      · rw [hasleep, hwoken]
        rfl
    rw [output_eq h, output_eq h', hsame rfl, hopening]
  · have hin := inSession_of_follows h.reader.place
    rcases step_session hs hin with hends | hcrash | hgoes
    · cases (inSession_of_follows h'.reader.place).symm.trans hends.ended
    · refine output_grows ?_
      generalize b.pcs w = pc at hcrash
      cases hcrash <;> exact List.prefix_refl _
    · exact output_grows (continues_grows hgoes)

/-! ### What the subscriber reads -/

/-- The rest of the output is frames as well. -/
theorem rest_frames {tail : List UInt8} {ns : List CStr}
    (hshort : ∀ m ∈ done, m.length ≤ messageLength)
    (hshort' : ∀ m ∈ ns, m.length ≤ messageLength) (htail : tail = [] ∨ tail = [opCodeSubscriber])
    (h : frameBytes done ++ tail = frameBytes ns ++ rest) :
    ∃ ds, done = ns ++ ds ∧ rest = frameBytes ds ++ tail := by
  have hnone : received tail = [] := by
    rcases htail with rfl | rfl
    · exact received_nil
    · exact received_opcode _
  have hdone : done = ns ++ received rest := by
    have hboth := congrArg received h
    rwa [received_frames hshort, received_frames hshort', hnone, List.append_nil] at hboth
  refine ⟨received rest, hdone, ?_⟩
  rw [hdone, frameBytes, List.flatMap_append, List.append_assoc] at h
  exact (List.append_cancel_left h).symm

/-- What is in `message` after a whole message was read. -/
theorem stored_message {m : CStr} {message : Chars (messageLength + 1)}
    (hm : m.length ≤ messageLength)
    (h : (zeroPadded m.bytes messageLength).length ≤ messageLength) :
    CStr.ofBytes (Subscriber.Program.stored message
      (zeroPadded m.bytes messageLength) h).bytes = m := by
  have hstored : (Subscriber.Program.stored message (zeroPadded m.bytes messageLength) h).bytes
      = zeroPadded m.bytes messageLength ++ [0] := by
    show (overlay message.bytes 0 (zeroPadded m.bytes messageLength)).take messageLength ++ [0] = _
    rw [overlay, List.take_zero, List.nil_append, List.take_left' (length_zeroPadded _ _)]
  rw [hstored, zeroPadded_of_le hm, List.append_assoc, ← List.replicate_succ', List.replicate_succ]
  exact CStr.ofBytes_append_nul m _

theorem frameBytes_concat (ms : List CStr) (m : CStr) :
    frameBytes (ms ++ [m]) = frameBytes ms ++ opCodeSubscriber
      :: zeroPadded m.bytes messageLength := by
  rw [frameBytes, List.flatMap_append, List.flatMap_singleton]
  rfl

/-- What comes next is an operation code. -/
theorem next_opCode {ds : List CStr} {pipe tail : List UInt8}
    (htail : tail = [] ∨ tail = [opCodeSubscriber])
    (h : pipe = frameBytes ds ++ tail) : pipe = [] ∨ ∃ more, pipe = opCodeSubscriber :: more := by
  subst h
  cases ds with
  | nil => exact htail.imp_right fun hone => ⟨[], hone⟩
  | cons m ds => exact .inr ⟨_, rfl⟩

/-- Behind an operation code there is a whole message, or nothing yet. -/
theorem next_message {ds : List CStr} {pipe tail : List UInt8}
    (htail : tail = [] ∨ tail = [opCodeSubscriber])
    (h : opCodeSubscriber :: pipe = frameBytes ds ++ tail) :
    pipe = [] ∨ ∃ m ∈ ds, ∃ more, pipe = zeroPadded m.bytes messageLength ++ more := by
  cases ds with
  | nil =>
    have hpipe : opCodeSubscriber :: pipe = tail := h
    rcases htail with rfl | rfl
    · cases hpipe
    · exact .inl (List.cons.inj hpipe).2
  | cons m ds =>
    rw [frameBytes, List.flatMap_cons, List.append_assoc] at h
    exact .inr ⟨m, List.mem_cons_self, _, (List.cons.inj h).2⟩

theorem receive_eq_some (hs : x.receive c = some y) :
    ∃ count t, count = (if x.subscriber.place = .opCode then 1 else messageLength) ∧
    x.subscriber.step (.read (some (x.subPipe.take count))) = some t ∧
      y = { x with subscriber := t, subPipe := x.subPipe.drop count } := by
  obtain ⟨-, hs⟩ := Option.ite_none_left_eq_some.mp hs
  obtain ⟨t, ht, rfl⟩ := Option.map_eq_some_iff.mp hs
  exact ⟨_, t, rfl, ht, rfl⟩

theorem reads_nothing {count : Nat} (hcount : 0 < count) (h : x.subPipe.take count = []) :
    x.subPipe = [] :=
  (List.take_eq_nil_iff.mp h).resolve_left (Nat.ne_of_gt hcount)

/-- The subscriber reads an operation code, or a whole message. -/
theorem downstream_receive (h : Downstream c x) (hd : Delivers x.broker c.p c.s i c.fd q ms done)
    (hs : x.receive c = some y) :
    Downstream c y ∧ y.broker = x.broker ∧ y.pubPipe = x.pubPipe ∧ y.publisher = x.publisher := by
  obtain ⟨rest, htaken, hbegun⟩ := h.taken
  have hshort : ∀ m ∈ done, m.length ≤ messageLength :=
    fun m hm => hd.shelf.short m (hd.reader.sofar.subset hm)
  obtain ⟨ds, hdone, hrest⟩ := rest_frames hshort h.short (opening_cases _)
    (by rw [← output_eq hd, htaken, List.append_assoc])
  have hopening := opening_cases (x.broker.pcs c.s)
  obtain ⟨count, t, hcount, ht, rfl⟩ := receive_eq_some hs
  refine ⟨?_, rfl, rfl, rfl⟩
  cases hplace : x.subscriber.place with
  | opCode =>
    obtain rfl : count = 1 := by rw [hcount, if_pos hplace]
    obtain rfl : rest = [] := by
      rw [hplace] at hbegun
      exact hbegun
    have hseen : seen x.subscriber = x.subscriber.printed := by rw [seen, hplace]
    rcases Subscriber.Program.reads_opCode hplace ht with ⟨hnil, rfl⟩ | ⟨op, hop, rfl⟩
    · refine ⟨hseen ▸ h.short, [], ?_, trivial⟩
      rw [htaken, hseen, reads_nothing Nat.one_pos hnil]
      rfl
    · refine ⟨hseen ▸ h.short, [opCodeSubscriber], ?_, rfl⟩
      rcases next_opCode hopening (show x.subPipe = _ from hrest) with hempty | ⟨more, hmore⟩
      · rw [hempty] at hop
        cases hop
      · rw [htaken, hseen, hmore, List.append_nil, List.append_assoc]
        rfl
  | message =>
    obtain rfl : count = messageLength := by rw [hcount, hplace]; rfl
    obtain rfl : rest = [opCodeSubscriber] := by
      rw [hplace] at hbegun
      exact hbegun
    have hseen : seen x.subscriber = x.subscriber.printed := by rw [seen, hplace]
    rcases Subscriber.Program.reads_message hplace ht with ⟨hnil, rfl⟩ | ⟨hne, hle, rfl⟩
    · refine ⟨hseen ▸ h.short, [opCodeSubscriber], ?_, trivial⟩
      rw [htaken, hseen, reads_nothing (show 0 < messageLength by decide) hnil]
      rfl
    · rcases next_message hopening (show opCodeSubscriber :: x.subPipe = _ from hrest)
        with hempty | ⟨m, hm, more, hmore⟩
      · rw [hempty] at hne
        exact absurd rfl hne
      · have hlen : m.length ≤ messageLength := hshort m (hdone ▸ List.mem_append_right _ hm)
        have htake : x.subPipe.take messageLength = zeroPadded m.bytes messageLength := by
          rw [hmore, List.take_left' (length_zeroPadded _ _)]
        have hdrop : x.subPipe.drop messageLength = more := by
          rw [hmore, List.drop_left' (length_zeroPadded _ _)]
        have hread : CStr.ofBytes (Subscriber.Program.stored x.subscriber.message
            (x.subPipe.take messageLength) hle).bytes = m := by
          revert hle
          rw [htake]
          exact fun hle _ _ => stored_message hlen hle
        refine ⟨?_, [], ?_, rfl⟩
        · show ∀ n ∈ x.subscriber.printed ++ [CStr.ofBytes _], n.length ≤ messageLength
          rw [hread]
          intro n hn
          rcases List.mem_append.mp hn with hn | hn
          · exact h.short n (hseen ▸ hn)
          · rwa [List.mem_singleton.mp hn]
        · show x.broker.output c.s c.fd = frameBytes
            (x.subscriber.printed ++ [CStr.ofBytes _]) ++ [] ++
            x.subPipe.drop messageLength
          rw [hread, hdrop, htaken, hseen, hmore, frameBytes_concat, List.append_nil]
          simp only [List.append_assoc, List.cons_append, List.nil_append]
  | printing =>
    unfold Subscriber.Program.step at ht
    rw [hplace] at ht
    cases ht
  | returned code =>
    unfold Subscriber.Program.step at ht
    rw [hplace] at ht
    cases ht

/-- What the broker writes goes into the pipe. -/
theorem downstream_serve (h : Downstream c x) (hs : x.serve c w a = some y)
    (hgrows : x.broker.output c.s c.fd <+: y.broker.output c.s c.fd) :
    Downstream c y ∧ y.subscriber = x.subscriber := by
  obtain ⟨pubPipe, b, -, -, rfl⟩ := serve_eq_some hs
  obtain ⟨rest, htaken, hbegun⟩ := h.taken
  obtain ⟨more, hmore⟩ := hgrows
  refine ⟨⟨h.short, rest, ?_, hbegun⟩, rfl⟩
  show b.output c.s c.fd = _
    ++ (x.subPipe ++ (b.output c.s c.fd).drop (x.broker.output c.s c.fd).length)
  rw [← List.append_assoc, ← htaken, ← hmore, List.drop_left]

theorem seen_print {t t' : Subscriber.Program} (h : t.step .print = some t') :
    seen t' = seen t ∧ t.place = .printing ∧ t'.place = .opCode := by
  unfold Subscriber.Program.step at h
  cases hplace : t.place with
  | printing =>
    rw [hplace] at h
    obtain rfl := Option.some.inj h
    refine ⟨?_, rfl, rfl⟩
    rw [seen, seen, hplace]
  | _ =>
    rw [hplace] at h
    cases h

theorem downstream_print {t : Subscriber.Program} (h : Downstream c x)
    (hs : x.subscriber.step .print = some t) :
    Downstream c { x with subscriber := t } := by
  obtain ⟨rest, htaken, hbegun⟩ := h.taken
  obtain ⟨hseen, hplace, hplace'⟩ := seen_print hs
  refine ⟨hseen ▸ h.short, rest, hseen ▸ htaken, ?_⟩
  show Begun rest t.place
  rw [hplace']
  rwa [hplace] at hbegun

end Downstream

/-! ## The whole way -/

section Chain

open Broker TerminatedStream

variable {c : Wiring} {i w : Nat} {q : CStr} {all : List CStr} {x y : System} {e : Event}
  {b : Broker} {a : Answer}
  {pipe : List UInt8}

/-- The sections of the broker are those of the two sessions, and meet its conditions. -/
def Working (c : Wiring) (x : System) : Event → Prop
  | .broker w a => Delivering c.p c.s x.broker (w, a)
  | _ => True

structure Chain (c : Wiring) (i : Nat) (q : CStr) (all : List CStr) (x : System) : Prop where
  delivers : ∃ ms done, Delivers x.broker c.p c.s i c.fd q ms done ∧ Upstream c i all ms x
  downstream : Downstream c x
  rested : Rested x.broker c.s

theorem Chain.step (h : Chain c i q all x) (hok : Working c x e) (hs : x.step c e = some y) :
    Chain c i q all y := by
  obtain ⟨ms, done, hd, hup⟩ := h.delivers
  cases e with
  | publisher =>
    obtain ⟨hup', hbroker, hpipe, hsub⟩ := upstream_publisher hup hs
    have hdown : Downstream c y := by
      refine ⟨hsub ▸ h.downstream.short, ?_⟩
      rw [hbroker, hpipe, hsub]
      exact h.downstream.taken
    exact ⟨⟨ms, done, hbroker ▸ hd, hup'⟩, hdown, hbroker ▸ h.rested⟩
  | broker w a =>
    obtain ⟨hserves, hone⟩ := hok
    obtain ⟨pubPipe, b, -, hstep, hy⟩ := serve_eq_some hs
    have hbroker : y.broker = b := by rw [hy]
    have hrested : Rested y.broker c.s := hbroker ▸ h.rested.step hstep
    rcases hserves.worker with hw | hw
    · obtain rfl : w = c.p := hw
      have hd' := hd.publisher_step hserves hstep
      have hgrows := output_prefix hd hd' hstep (.inl rfl) fun _ => rfl
      refine ⟨⟨_, done, hbroker ▸ hd', upstream_worker hup hd hserves hs⟩, ?_, hrested⟩
      exact (downstream_serve h.downstream hs (hbroker ▸ hgrows)).1
    · obtain rfl : w = c.s := hw
      obtain ⟨ds, hd'⟩ := hd.subscriber_step hserves hone hstep
      have hgrows := output_prefix hd hd' hstep (.inr rfl) fun hsame => absurd hsame.symm hd.apart
      refine ⟨⟨ms, ds, hbroker ▸ hd', upstream_beside hup hd hserves hone hs⟩, ?_, hrested⟩
      exact (downstream_serve h.downstream hs (hbroker ▸ hgrows)).1
  | reads =>
    obtain ⟨hdown, hbroker, hpipe, hpub⟩ := downstream_receive h.downstream hd hs
    exact ⟨⟨ms, done, hbroker ▸ hd, hup.of_same hbroker hpipe hpub⟩, hdown, hbroker ▸ h.rested⟩
  | prints =>
    obtain ⟨t, ht, rfl⟩ := Option.map_eq_some_iff.mp hs
    exact ⟨⟨ms, done, hd, hup.of_same rfl rfl rfl⟩, downstream_print h.downstream ht, h.rested⟩

/-- The programs at the start: the publisher has its input, its buffer has the operation code,
and nothing is in the pipes. -/
def started (b : Broker) (text : List UInt8) (lines : List CStr)
    (garbage : Chars (messageLength + 1)) : System where
  publisher := .running (opCodePublisher :: text) ⟨textOf lines, false, false⟩
  pubPipe := []
  broker := b
  subPipe := []
  subscriber := .start garbage

theorem Chain.of_started {b : Broker} {text : List UInt8} {lines ms : List CStr}
    {garbage : Chars (messageLength + 1)}
    (h : Linked b c.p c.s i c.fd ms) (hpipe : b.fds c.pubFd = true)
    (htext : text.length = messageLength)
    (hlines : ∀ m ∈ lines, IsLine m) :
    Chain c i (b.path i) (ms ++ lines) (started b text lines garbage) := by
  obtain ⟨message, hpc, -⟩ := h.publisher
  refine ⟨⟨ms, [], h.delivers, List.prefix_append ms lines, fun _ _ => ?_, fun _ hended => ?_⟩,
    ⟨nofun, [], ?_, rfl⟩, ?_⟩
  · refine ⟨h.box, hpipe, [], lines, ?_, hlines, ?_, rfl, text, rfl, htext⟩
    · show ms ++ lines = ms ++ inHand (b.pcs c.p) ++ [] ++ lines
      rw [hpc]
      simp [inHand]
    · show Holds [] [] (b.pcs c.p)
      rw [hpc]
      rfl
  · replace hended : b.pcs c.p = .idle ∨ ∃ r, b.pcs c.p = .ret r ∧ r ≠ -1 := hended
    rw [hpc] at hended
    rcases hended with hc | ⟨r, hc, -⟩ <;> cases hc
  · show b.output c.s c.fd = []
    rw [Broker.output, h.unsent]
    rfl
  · intro j n hasleep
    cases h.subscriber.pc.symm.trans hasleep

/-- The publisher's session is over, its worker is free again, and the subscriber's worker
and the subscriber wait. -/
structure Settled (c : Wiring) (i : Nat) (x : System) : Prop where
  running : x.broker.stopped = false
  free : x.broker.pcs c.p = .idle
  asleep : x.broker.pcs c.s = .asleep i (x.broker.boxes i).cond
  subPipe : x.subPipe = []
  place : x.subscriber.place = .opCode

theorem Chain.printed (h : Chain c i q all x) : x.subscriber.printed <+: all := by
  obtain ⟨ms, done, hd, hup⟩ := h.delivers
  obtain ⟨rest, htaken, -⟩ := h.downstream.taken
  have hshort : ∀ m ∈ done, m.length ≤ messageLength :=
    fun m hm => hd.shelf.short m (hd.reader.sofar.subset hm)
  obtain ⟨ds, hdone, -⟩ := rest_frames hshort h.downstream.short (opening_cases _)
    (by rw [← output_eq hd, htaken, List.append_assoc])
  have hseen : x.subscriber.printed <+: seen x.subscriber := by
    rw [seen]
    split
    · exact List.prefix_append _ _
    · exact List.prefix_refl _
  exact ((hseen.trans ⟨ds, hdone.symm⟩).trans hd.reader.sofar).trans hup.sofar

/-- A subscriber that sleeps at the box has been sent all of it. -/
theorem sent_all {b : Broker} {p s fd : Nat} {ms done : List CStr}
    (hd : Delivers b p s i fd q ms done) (hrested : Rested b s)
    (hasleep : b.pcs s = .asleep i (b.boxes i).cond) : done = ms := by
  have hexists : b.path i ≠ .empty := by
    intro hempty
    have hvalid := hd.shelf.valid
    rw [← hd.shelf.path, hempty] at hvalid
    cases hvalid
  have hnone := (hrested i _ hasleep).2 rfl hexists
  have hplace := hd.reader.place
  rw [hasleep] at hplace
  obtain ⟨-, heven, -⟩ := hplace
  have hroom : (encode ms).length < word := by
    have hle := hd.shelf.room
    rw [encode_append, List.length_append] at hle
    exact Nat.lt_of_le_of_lt (Nat.le_trans (Nat.le_add_right _ _) hle) (by decide)
  have hsent : (encode done).length < word :=
    Nat.lt_of_le_of_lt (length_encode_le hd.reader.sofar) hroom
  rw [Broker.unread, heven.offset, hd.shelf.counted, ofSsize_natCast hsent,
    subSize_eq_zero_iff hroom hsent] at hnone
  refine hd.reader.caughtUp hd.shelf ?_
  rw [heven.offset, hd.shelf.counted, hnone]

theorem Chain.settled (h : Chain c i q all x) (hs : Settled c i x) :
    x.subscriber.printed = all := by
  obtain ⟨ms, done, hd, hup⟩ := h.delivers
  obtain ⟨rest, htaken, hbegun⟩ := h.downstream.taken
  obtain rfl : rest = [] := by
    rw [hs.place] at hbegun
    exact hbegun
  have hshort : ∀ m ∈ done, m.length ≤ messageLength :=
    fun m hm => hd.shelf.short m (hd.reader.sofar.subset hm)
  have hseen : seen x.subscriber = x.subscriber.printed := by rw [seen, hs.place]
  have hread : received (x.broker.output c.s c.fd) = seen x.subscriber := by
    rw [htaken, hs.subPipe, List.append_assoc, received_frames h.downstream.short]
    exact (congrArg _ received_nil).trans (List.append_nil _)
  have hall : done = seen x.subscriber := (hd.reader.delivered hd.shelf).symm.trans hread
  rw [← hseen, ← hall, sent_all hd h.rested hs.asleep]
  exact hup.ended hs.running (.inl hs.free)

/-! ### A line on its way -/

theorem serve_of (hconsumed : x.consumed c w a = some pipe) (hs : x.broker.step (w, a) = some b) :
    ∃ subPipe, x.step c (.broker w a) = some
    { x with pubPipe := pipe, broker := b, subPipe := subPipe } := by
  refine ⟨x.subPipe ++ (b.output c.s c.fd).drop (x.broker.output c.s c.fd).length, ?_⟩
  show x.serve c w a = _
  rw [System.serve, hconsumed, hs]

/-- Sections that leave the pipe of the publisher alone. -/
theorem served (hrun : Reaches Broker.step (Unread c.p c.s) x.broker b) :
    ∃ subPipe, Reaches (System.step c) (Working c) x
    { x with broker := b, subPipe := subPipe } := by
  induction hrun with
  | refl => exact ⟨x.subPipe, .refl⟩
  | @next b b' e _ hok hs ih =>
    obtain ⟨subPipe, hrun⟩ := ih
    have hconsumed : ({ x with broker := b, subPipe := subPipe } : System).consumed c e.1
      e.2 = some x.pubPipe := by
      unfold System.consumed
      split
      · next bytes hread => exact if_neg fun hw => hok.2 bytes (Prod.ext hw hread)
      · rfl
    obtain ⟨subPipe', hserve⟩ := serve_of hconsumed hs
    exact ⟨subPipe', hrun.next (e := .broker e.1 e.2) hok.1 hserve⟩

/-- A worker reads what its pipe holds. -/
theorem reads_pipe {bytes more : List UInt8} (hne : bytes ≠ []) (hpipe : x.pubPipe = bytes ++ more)
    (hasked : bytes.length = System.asked (x.broker.pcs c.p))
    (hok : Delivering c.p c.s x.broker (c.p, .read bytes))
    (hs : x.broker.step (c.p, .read bytes) = some b) : ∃ subPipe,
      Reaches (System.step c) (Working c) x
      { x with pubPipe := more, broker := b, subPipe := subPipe } := by
  have hconsumed : x.consumed c c.p (.read bytes) = some more := by
    rw [System.consumed, if_pos rfl, hpipe, ← hasked, List.take_left, List.drop_left]
    exact if_pos ⟨rfl, fun hnil => absurd hnil hne⟩
  obtain ⟨subPipe, hserve⟩ := serve_of hconsumed hs
  exact ⟨subPipe, Reaches.refl.next (e := .broker c.p (.read bytes)) hok hserve⟩

theorem receive_of {t : Subscriber.Program} {count : Nat} (hne : x.subPipe ≠ [])
    (hcount : count = if x.subscriber.place = .opCode then 1 else messageLength)
    (ht : x.subscriber.step (.read (some (x.subPipe.take count))) = some t) :
    x.step c .reads = some { x with subscriber := t, subPipe := x.subPipe.drop count } := by
  subst hcount
  show x.receive c = _
  rw [System.receive, if_neg fun hnil => hne hnil.1, ht]
  rfl

/-- The subscriber reads a frame and prints its message. -/
theorem prints_frame {m : CStr} (hm : m.length ≤ messageLength)
    (hplace : x.subscriber.place = .opCode)
    (hcount : x.subscriber.messageCount < Subscriber.intMax)
    (hpipe : x.subPipe = opCodeSubscriber :: zeroPadded m.bytes messageLength) :
    ∃ y, Reaches (System.step c) (Working c) x
      y ∧ y.subscriber.printed = x.subscriber.printed ++ [m] := by
  have hle : (zeroPadded m.bytes messageLength).length ≤ messageLength :=
    Nat.le_of_eq (length_zeroPadded _ _)
  have hne : zeroPadded m.bytes messageLength ≠ [] := fun hnil => by
    have hzero := congrArg List.length hnil
    rw [length_zeroPadded] at hzero
    cases hzero
  let t : Subscriber.Program := { x.subscriber with place := .message }
  let u : Subscriber.Program :=
    { t with
      place := .printing
      message := Subscriber.Program.stored t.message _ hle
      messageCount := t.messageCount + 1 }
  have hopCode : x.step c .reads
    = some { x with subscriber := t, subPipe := zeroPadded m.bytes messageLength } := by
    rw [receive_of (t := t) (by rw [hpipe]; exact List.cons_ne_nil _ _) rfl, hplace, hpipe]
    · rfl
    · rw [hplace, hpipe]
      exact Subscriber.Program.step_opCode hplace opCodeSubscriber
  have hread : t.step (.read (some ((zeroPadded m.bytes messageLength).take messageLength)))
    = some u := by
    rw [List.take_of_length_le hle]
    exact Subscriber.Program.step_message rfl hne hle hcount
  have hmessage := receive_of (c := c)
    (x := { x with subscriber := t, subPipe := zeroPadded m.bytes messageLength })
    hne rfl hread
  have hreads : Reaches (System.step c) (Working c) x _ :=
    (Reaches.refl.next (e := .reads) trivial hopCode).next (e := .reads) trivial hmessage
  refine ⟨_, hreads.next (e := .prints) trivial rfl, ?_⟩
  show x.subscriber.printed ++ [CStr.ofBytes u.message.bytes] = _
  rw [stored_message hm hle]

/-- The publisher writes its next line. -/
theorem publishes {message text : List UInt8} {stdin : Publisher.Stdin}
    (hrunning : x.publisher = .running message stdin)
    (hturn : Publisher.turn message stdin = .writes text ⟨[], false, false⟩)
    (hopen : x.hasEnd c.pubFd = true) :
    Reaches (System.step c) (Working c) x { x with
      publisher := .running text ⟨[], false, false⟩, pubPipe := x.pubPipe ++ text } := by
  have hstep : x.step c .publisher = some { x with
      publisher := .running text ⟨[], false, false⟩, pubPipe := x.pubPipe ++ text } := by
    show x.publish c = _
    rw [System.publish, hrunning]
    dsimp only
    rw [hturn]
    exact if_pos hopen
  exact Reaches.refl.next (e := .publisher) trivial hstep

/-! ### Any run -/

/-- A publisher program sends lines to a box, and a subscriber program follows the box from
its first message, with the steps of the programs and of their workers in any order. As long
as each message fits into the box and each read of the second loop takes one message, the
subscriber prints what the box held and then the lines, in order, none lost and none twice;
and it has printed all of them when nothing is on its way. -/
theorem relayed {b : Broker} {text : List UInt8} {lines ms : List CStr}
    {garbage : Chars (messageLength + 1)}
    (hlinked : Linked b c.p c.s i c.fd ms) (hpipe : b.fds c.pubFd = true)
    (htext : text.length = messageLength)
    (hlines : ∀ m ∈ lines, IsLine m)
    (hrun : Reaches (System.step c) (Working c) (started b text lines garbage) x) :
    x.subscriber.printed <+: ms ++ lines ∧
    (Settled c i x → x.subscriber.printed = ms ++ lines) := by
  have hchain := hrun.invariant (I := Chain c i (b.path i) (ms ++ lines))
    (.of_started hlinked hpipe htext hlines) fun _ _ _ h hok hs => h.step hok hs
  exact ⟨hchain.printed, hchain.settled⟩

/-- The line `x` goes all the way. -/
theorem relayed_prints : ∃ x : System, x.subscriber.printed = [letters 1] ∧
    x.subscriber.printed <+: [letters 1] ∧
    (Settled ⟨0, 1, 4, 3⟩ 0 x → x.subscriber.printed = [letters 1]) := by
  let c : Wiring := ⟨0, 1, 4, 3⟩
  have hlinked := newcomers_linked .zeros
  have hlines : ∀ m ∈ [letters 1], IsLine m := by
    intro m hm
    rw [List.mem_singleton.mp hm]
    exact ⟨by decide, by decide⟩
  have htext : shortMessage.length = messageLength := shortMessage_length
  let s := started (newcomers (oneFile .zeros sampleName.str.tail)) shortMessage
    [letters 1] Subscriber.zeroed
  -- the line is in the pipe, and both workers wait
  have hturn : Publisher.turn (opCodePublisher :: shortMessage) ⟨textOf [letters 1], false, false⟩
      = .writes (Publisher.frame (letters 1).bytes) ⟨[], false, false⟩ := by
    have hread : Publisher.getline ⟨textOf [letters 1], false, false⟩
        = (.line [120, Publisher.newline], ⟨[], false, false⟩) :=
      Publisher.getline_line (hlines (letters 1) (List.mem_singleton_self _)).1 []
    exact Publisher.turn_line rfl hread (by decide) (by decide) (by decide) htext
  have hwritten := publishes (c := c) (x := s) rfl hturn rfl
  obtain ⟨b₁, q, hrun₁, h₁⟩ := newcomers_waiting
  generalize hs₁ : ({ s with
    publisher := .running (Publisher.frame (letters 1).bytes) ⟨[], false, false⟩
    pubPipe := s.pubPipe ++ Publisher.frame (letters 1).bytes } : System) = s₁ at hwritten
  obtain ⟨subPipe₁, hserved₁⟩ := served (c := c) (x := s₁) (b := b₁) (by rw [← hs₁]; exact hrun₁)
  -- it is read
  obtain ⟨m, hm⟩ : ∃ m : List UInt8, m = zeroPadded (letters 1).bytes messageLength := ⟨_, rfl⟩
  have hlen : m.length = messageLength := hm ▸ length_zeroPadded _ _
  obtain ⟨message, hwaits⟩ := h₁.waits
  obtain ⟨old, hopCode, hmessage, -⟩ := h₁.receives hlen
  obtain ⟨subPipe₂, hserved₂⟩ := reads_pipe
    (c := c) (x := { s₁ with broker := b₁, subPipe := subPipe₁ })
    (List.cons_ne_nil opCodePublisher []) (show s₁.pubPipe = _ ++ m by rw [← hs₁, hm]; rfl)
    (by rw [show System.asked (b₁.pcs 0) = 1 by rw [hwaits]; rfl]; rfl) hopCode.1 hopCode.2
  obtain ⟨subPipe₃, hserved₃⟩ := reads_pipe (c := c)
    (x := { s₁ with broker := b₁.setPc 0 (.pubMessage old), pubPipe := m, subPipe := subPipe₂ })
    (fun hnil => by rw [hnil] at hlen; cases hlen) (List.append_nil m).symm
    (by rw [show System.asked ((b₁.setPc 0 (.pubMessage old)).pcs 0)
      = messageLength by rw [setPc_self]; rfl, hlen])
    hmessage.1 hmessage.2
  -- it is stored and sent
  have hone : messageStr m = letters 1 := hm ▸ messageStr_zeroPadded (by decide)
  obtain ⟨b₄, hrun₄, h₄⟩ := h₁.stores (by decide) hlen (by rw [hone]; decide)
  rw [hone] at h₄
  obtain ⟨subPipe₄, hserved₄⟩ := served (c := c)
    (x := { s₁ with broker := b₁.setPc 0 (.pubLock 0 m), pubPipe := [], subPipe := subPipe₃ }) hrun₄
  obtain ⟨b₅, hrun₅, -, -, hsent, -⟩ := h₄.reads (List.cons_ne_nil _ _)
  obtain ⟨subPipe₅, hserved₅⟩ := served (c := c)
    (x := { s₁ with broker := b₄, pubPipe := [], subPipe := subPipe₄ })
    (unread_of_reading (by decide) (oneMessage_singleton (by decide)) hrun₅)
  have hrun :=
    ((((hwritten.trans hserved₁).trans hserved₂).trans hserved₃).trans hserved₄).trans hserved₅
  -- what was sent is in the pipe
  have hchain := hrun.invariant (I := Chain c 0 _ [letters 1])
    (.of_started (c := c) hlinked rfl htext hlines) fun _ _ _ h hok hs => h.step hok hs
  obtain ⟨rest, htaken, hbegun⟩ := hchain.downstream.taken
  have hstarted : s₁.subscriber = .start Subscriber.zeroed := by rw [← hs₁]; rfl
  have hpipe : subPipe₅ = opCodeSubscriber :: zeroPadded (letters 1).bytes messageLength := by
    rw [hstarted] at htaken hbegun
    obtain rfl : rest = [] := hbegun
    have hout : b₅.output 1 3 = opCodeSubscriber
      :: (zeroPadded (letters 1).bytes messageLength ++ []) := by
      have hbytes : (encode [letters 1]).take messageLength = (letters 1).bytes ++ [0] := by decide
      rw [Broker.output, hsent, hbytes, zeroPadded_terminated]
      simp
    rw [← List.append_nil (zeroPadded _ _), ← hout]
    exact htaken.symm
  obtain ⟨x, hprints, hprinted⟩ := prints_frame (c := c) (m := letters 1)
    (x := { s₁ with broker := b₅, pubPipe := [], subPipe := subPipe₅ })
      (by decide) (by rw [hstarted]; rfl)
    (by rw [hstarted]; decide) hpipe
  have hall : x.subscriber.printed = [letters 1] := by rw [hprinted, hstarted]; rfl
  exact ⟨x, hall, relayed (c := c) hlinked rfl htext hlines (hrun.trans hprints)⟩

end Chain

end Relay

end MBroker
