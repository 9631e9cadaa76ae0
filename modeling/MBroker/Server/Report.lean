import MBroker.Broker.Verdicts
import MBroker.Wire.Manager

/-!
# What the manager is told

The broker serves a create or remove request beside everything else that its workers do, and
the manager reads what comes to its pipe. That is what any worker writes to a descriptor which
refers to the pipe then: a removal can close the descriptor of another worker, and `open` gives
it to somebody else. A read may find a part of the answer only, and may fail.

Results:
1. `Told.step`: as long as the pipe is the worker's own, what was read and what is in the pipe
   are a beginning of the answer that the decision on the request led to.
2. `told`: what the manager reports is what its worker did to the table under `boxes_lock`.
-/

namespace MBroker

open Transition

namespace Manager

structure System where
  broker : Broker
  /-- the descriptors of the broker that refer to the manager's pipe -/
  refers : List Nat
  pipe : List UInt8
  place : Place

inductive Event
  /-- a section of a worker -/
  | broker (v : Nat) (a : Answer)
  | reads
  /-- the manager reads at the end of the pipe, or its read fails -/
  | fails

namespace System

variable (path : CStr) (x : System)

/-- What worker `v` writes to the pipe in a section that leads to `b`. -/
def written (v : Nat) (b : Broker) : List UInt8 :=
  (((b.sent v).drop (x.broker.sent v).length).filter fun line => line.1 ∈ x.refers).flatMap Prod.snd

/-- The descriptors that refer to the pipe after a section with this answer. -/
def refersAfter (a : Answer) (b : Broker) : List Nat :=
  (match a with
    | .opened p (some fd) => if p = path then fd :: x.refers else x.refers
    | _ => x.refers).filter fun fd => b.isOpenFd fd

def serve (v : Nat) (a : Answer) : Option System :=
  (x.broker.step (v, a)).map fun b =>
    { x with broker := b, refers := x.refersAfter path a b, pipe := x.pipe ++ x.written v b }

def receive : Option System :=
  if x.place.running = true ∧ x.pipe ≠ [] then some
    { x with
      pipe := x.pipe.drop x.place.asked
      place := x.place.next (some (x.pipe.take x.place.asked)) }
  else none

/-- The manager's pipe has this path. -/
def step (e : Event) : Option System :=
  match e with
  | .broker v a => x.serve path v a
  | .reads => x.receive
  | .fails => if x.place.running then some { x with place := x.place.next none } else none

end System

def Event.requests (w : Nat) : Event → Bool
  | .broker v (.request _) => v == w
  | _ => false

/-- The pipe belongs to worker `w` for this request. -/
structure Stays (w : Nat) (path : CStr) (x : System) (e : Event) : Prop where
  /-- it takes no other request -/
  alone : e.requests w = false
  /-- another worker neither opens nor closes the pipe, and writes nothing to it -/
  apart : ∀ v a y, e = .broker v a → v ≠ w → x.serve path v a = some y →
    y.refers = x.refers ∧ y.pipe = x.pipe
  /-- and the worker itself closes it when it has answered -/
  ends : ∀ a y, e = .broker w a → (x.broker.pcs w).Answered = false → x.serve path w a = some y →
    ∀ fd ∈ x.refers, fd ∈ y.refers

/-- The two conditions on a section that is made. -/
def spares (w : Nat) (path : CStr) (x : System) (v : Nat) (a : Answer) : Bool :=
  (x.serve path v a).all fun y =>
    if v = w then (x.broker.pcs w).Answered || x.refers.all fun fd => fd ∈ y.refers
    else y.refers = x.refers ∧ y.pipe = x.pipe

theorem spares_iff {w v : Nat} {path : CStr} {x : System} {a : Answer} :
    spares w path x v a = true ↔
      (v ≠ w → ∀ y, x.serve path v a = some y → y.refers = x.refers ∧ y.pipe = x.pipe) ∧
        (v = w → (x.broker.pcs w).Answered = false → ∀ y, x.serve path v a = some y →
          ∀ fd ∈ x.refers, fd ∈ y.refers) := by
  unfold spares
  cases x.serve path v a with
  | none => simp
  | some y =>
    rcases eq_or_ne v w with rfl | hne
    · cases (x.broker.pcs v).Answered <;> simp
    · simp [hne]

instance (w : Nat) (path : CStr) (x : System) (e : Event) : Decidable (Stays w path x e) :=
  match e with
  | .broker v a => decidable_of_iff (Event.requests w (.broker v a) = false ∧
    spares w path x v a = true) <| by
      rw [spares_iff]
      constructor
      · rintro ⟨halone, hothers, hown⟩
        refine ⟨halone, fun u c y he hne => ?_, fun c y he hnot => ?_⟩
        · cases he
          exact hothers hne y
        · cases he
          exact hown rfl hnot y
      · refine fun h => ⟨h.alone, fun hne y => h.apart v a y rfl hne, fun heq hnot y => ?_⟩
        subst heq
        exact h.ends a y rfl hnot
  | .reads => isTrue ⟨rfl, nofun, nofun⟩
  | .fails => isTrue ⟨rfl, nofun, nofun⟩

/-- In a section between `b₀` and `b` worker `w` decided about the request. -/
def Decided (b₀ : Broker) (w : Nat) (r : Request) (b : Broker) (code : Int) (msg : String) : Prop :=
  Passes Broker.step anyStep (fun x e y => e.1 = w ∧ Broker.Decides r w x e.2 y code msg) b₀ b

section Told

open Broker

variable {b₀ b b' : Broker} {v w : Nat} {r : Request} {a : Answer} {x y : System} {e : Event}

/-- What the worker has written is what the manager has read and what is in the pipe, unless a
removal has finished the session before its pipe was open. -/
inductive Listens (w : Nat) (path : CStr) (x : System) : Prop
  | linked {taken : List UInt8} : x.place.Took taken → x.broker.spoken w = taken ++ x.pipe →
      ((x.broker.pcs w).Unopened = true → (x.broker.clients w).clientPipename.str
        = path ∧ x.refers = []) →
      ((x.broker.pcs w).HasPipe = true → 0 ≤ (x.broker.clients w).clientPipe →
        (x.broker.clients w).clientPipe.toNat ∈ x.refers) → Listens w path x
  | lost : x.place.Took [] → x.pipe = [] → x.refers = [] →
      (x.broker.clients w).clientPipename.str = .empty → path ≠ .empty → Listens w path x

structure Told (b₀ : Broker) (w : Nat) (r : Request) (x : System) : Prop where
  guarded : Guarded x.broker
  asks : x.broker.AsksFor w r
  reached : Reaches Broker.step anyStep b₀ x.broker
  speaks : Says r (Decided b₀ w r x.broker) (x.broker.clients w)
    (x.broker.spoken w) (x.broker.pcs w)
  listens : Listens w r.clientPipename.str x

theorem Decided.next {code : Int} {msg : String} (h : Decided b₀ w r b code msg)
    (hs : b.step (v, a) = some b') :
    Decided b₀ w r b' code msg := Passes.next h trivial hs

theorem AsksFor.names (h : b.AsksFor w r) (hnames : SameNames (b.clients w) (b'.clients w)) :
    b'.AsksFor w r := by
  rcases hnames.boxName with hsame | hcleared
  · rw [Broker.AsksFor, hsame]
    exact h
  · exact .inr hcleared

section Sections

variable {path : CStr}

/-- The pipe is still to be opened, by its path if the session has not been finished. -/
theorem Listens.unopened (htook : y.place.Took []) (hpipe : y.pipe = []) (hrefers : y.refers = [])
    (hspoken : y.broker.spoken w = []) (hpc : (y.broker.pcs w).Unopened = true)
    (hname : (y.broker.clients w).clientPipename.str = path ∨
      (y.broker.clients w).clientPipename.str = .empty) :
    Listens w path y := by
  have hpath : (y.broker.clients w).clientPipename.str = path → Listens w path y := fun hsame =>
    .linked htook (by rw [hspoken, hpipe]; rfl) (fun _ => ⟨hsame, hrefers⟩)
      fun hhas => nomatch (Pc.hasPipe_of_unopened hpc).symm.trans hhas
  rcases hname with hsame | hcleared
  · exact hpath hsame
  · rcases eq_or_ne path .empty with rfl | hne
    · exact hpath hcleared
    · exact .lost htook hpipe hrefers hcleared hne

theorem names_path {c c' : Client} (h : SameNames c c') (hpath : c.clientPipename.str = path) :
    c'.clientPipename.str = path ∨ c'.clientPipename.str = .empty := by
  rcases h.clientPipename with hsame | hcleared
  · exact .inl (hsame ▸ hpath)
  · exact .inr hcleared

variable {told : Int → String → Prop}

/-- Another worker leaves the pipe alone. -/
theorem Listens.beside (h : Listens w path x)
    (hspeaks : Says r told (x.broker.clients w) (x.broker.spoken w) (x.broker.pcs w))
    (hstep : x.broker.step (v, a) = some y.broker) (hv : w ≠ v) (hplace : y.place = x.place)
    (hrefers : y.refers = x.refers) (hpipe : y.pipe = x.pipe) : Listens w path y := by
  have hpc := hspeaks.stands hstep hv
  have hremembers := step_remembers hstep hv
  have hspoken := spoken_eq (step_sent hstep hv)
  cases h with
  | @linked taken htook hwritten hunopened hlinked =>
    cases hun : (x.broker.pcs w).Unopened with
    | true =>
      obtain ⟨hpath, hnone⟩ := hunopened hun
      rw [hspeaks.unspoken hun] at hwritten
      obtain ⟨rfl, hempty⟩ := List.append_eq_nil_iff.mp hwritten.symm
      exact .unopened (hplace ▸ htook) (hpipe.trans hempty) (hrefers.trans hnone)
        (hspoken.trans (hspeaks.unspoken hun))
        (hpc ▸ hun) (names_path hremembers.toSameNames hpath)
    | false =>
      refine .linked (hplace ▸ htook) (by rw [hspoken, hpipe]; exact hwritten)
        (fun hun' => ?_) fun hhas hpos => ?_
      · rw [hpc, hun] at hun'
        cases hun'
      · rw [hremembers.clientPipe] at hpos ⊢
        rw [hrefers]
        exact hlinked (hpc ▸ hhas) hpos
  | lost htook hnone hno hcleared hpath =>
    exact .lost (hplace ▸ htook) (hpipe.trans hnone) (hrefers.trans hno)
      (hremembers.clientPipename.elim (fun hsame => hsame ▸ hcleared) id) hpath

theorem refersAfter_of_not (ha : ∀ p fd, a ≠ .opened p (some fd))
    (hno : x.refers = []) (b : Broker) :
    x.refersAfter path a b = [] := by
  unfold System.refersAfter
  rw [hno]
  split
  · next p fd => exact absurd rfl (ha p fd)
  · rfl

/-- What the worker writes in a section of its own comes to the pipe. -/
theorem written_own
    (hspeaks : Says r told (x.broker.clients w) (x.broker.spoken w) (x.broker.pcs w))
    (hstep : x.broker.step (w, a) = some b) (halone : ∀ r', a ≠ .request r')
    (hlinked : (x.broker.pcs w).HasPipe = true → 0 ≤ (x.broker.clients w).clientPipe →
      (x.broker.clients w).clientPipe.toNat ∈ x.refers) :
    b.spoken w = x.broker.spoken w ++ x.written w b := by
  unfold Broker.spoken System.written
  rcases hspeaks.writes hstep halone with hsame | ⟨bytes, writes, locked, part, hpc, hpos, hsent⟩
  · rw [hsame, List.drop_length]
    exact (List.append_nil _).symm
  · have hmem := hlinked (by rw [hpc]; rfl) hpos
    rw [hsent, List.drop_left, List.flatMap_append]
    simp [hmem]

theorem written_nil (hno : x.refers = []) (v : Nat) (b : Broker) : x.written v b = [] := by
  unfold System.written
  rw [hno]
  simp

/-- A section of the worker itself. -/
theorem Listens.own (h : Listens w path x)
    (hspeaks : Says r told (x.broker.clients w) (x.broker.spoken w) (x.broker.pcs w))
    (hstep : x.broker.step (w, a) = some b) (halone : ∀ r', a ≠ .request r')
    (hkeeps : (x.broker.pcs w).Answered = false → ∀ fd ∈ x.refers, fd ∈ x.refersAfter path a b) :
    Listens w path { x with
      broker := b, refers := x.refersAfter path a b, pipe := x.pipe ++ x.written w b } := by
  have hnames := hspeaks.names hstep halone
  have hopening := hspeaks.opening hstep halone
  cases h with
  | @linked taken htook hwritten hunopened hlinked =>
    have hspoken := written_own hspeaks hstep halone hlinked
    have hsaid : b.spoken w = taken ++ (x.pipe ++ x.written w b) := by
      rw [hspoken, hwritten, List.append_assoc]
    cases hopening with
    | before hun hun' ha =>
      obtain ⟨hpath, hno⟩ := hunopened hun
      rw [hspeaks.unspoken hun, written_nil hno] at hspoken
      rw [hspoken] at hsaid
      obtain ⟨rfl, hempty⟩ := List.append_eq_nil_iff.mp hsaid.symm
      exact .unopened htook hempty (refersAfter_of_not ha hno b) hspoken hun'
        (names_path hnames hpath)
    | @opens fd hun hun' ha hfd hopen =>
      obtain ⟨hpath, hno⟩ := hunopened hun
      refine .linked htook hsaid (fun hc => ?_) fun _ _ => ?_
      · rw [hun'] at hc
        cases hc
      · show (b.clients w).clientPipe.toNat ∈ x.refersAfter path a b
        rw [hfd, ha, hpath, System.refersAfter, hno]
        simp [hopen]
    | after hhas hun' hmore _ hpipe =>
      refine .linked htook hsaid (fun hc => ?_) fun _ hpos => ?_
      · rw [hun'] at hc
        cases hc
      · replace hpos : 0 ≤ (b.clients w).clientPipe := hpos
        show (b.clients w).clientPipe.toNat ∈ x.refersAfter path a b
        rw [hpipe] at hpos ⊢
        exact hkeeps hmore _ (hlinked hhas hpos)
    | without hun' _ hnone =>
      refine .linked htook hsaid (fun hc => ?_) fun hhas hpos => ?_
      · rw [hun'] at hc
        cases hc
      · rcases hnone with hhasNot | hpipe
        · rw [hhasNot] at hhas
          cases hhas
        · replace hpos : 0 ≤ (b.clients w).clientPipe := hpos
          rw [hpipe] at hpos
          exact absurd hpos (by decide)
  | lost htook hnone hno hcleared hpath =>
    have hrefers : x.refersAfter path a b = [] := by
      cases hopening with
      | before _ _ ha => exact refersAfter_of_not ha hno b
      | opens _ _ ha =>
        rw [ha, hcleared, System.refersAfter, hno]
        simp [hpath.symm]
      | after _ _ _ ha => exact refersAfter_of_not ha hno b
      | without _ ha => exact refersAfter_of_not ha hno b
    exact .lost htook (by rw [hnone, written_nil hno]; rfl) hrefers
      (hnames.clientPipename.elim (fun hsame => hsame ▸ hcleared) id) hpath

end Sections

/-- A section of any worker. -/
theorem Told.serve (h : Told b₀ w r x) (hok : Stays w r.clientPipename.str x (.broker v a))
    (hs : x.serve r.clientPipename.str v a = some y) : Told b₀ w r y := by
  have hserve := hs
  obtain ⟨b, hstep, rfl⟩ := Option.map_eq_some_iff.mp hs
  have hguarded := h.guarded.step hstep
  have hreached := h.reached.next trivial hstep
  rcases eq_or_ne w v with rfl | hv
  · have halone : ∀ r', a ≠ .request r' := by
      rintro r' rfl
      exact absurd hok.alone (by simp [Event.requests])
    have hspeaks : Says r (Decided b₀ w r b) (b.clients w) (b.spoken w) (b.pcs w) :=
      h.speaks.own h.guarded h.asks hstep halone (fun _ _ htold => Decided.next htold hstep)
        fun code msg hdecides => ⟨x.broker, (w, a), b, h.reached, trivial, hstep,
          ⟨rfl, hdecides⟩, .refl⟩
    exact ⟨hguarded, AsksFor.names h.asks (h.speaks.names hstep halone), hreached, hspeaks,
      h.listens.own h.speaks hstep halone fun hmore => hok.ends a _ rfl hmore hserve⟩
  · have hspeaks := (h.speaks.beside hstep hv).mono fun code msg htold => Decided.next htold hstep
    obtain ⟨hrefers, hpipe⟩ := hok.apart v a _ rfl hv.symm hserve
    exact ⟨hguarded, h.asks.beside hstep hv, hreached, hspeaks,
      h.listens.beside h.speaks hstep hv rfl hrefers hpipe⟩

/-- The manager reads. -/
theorem Listens.receives {path : CStr} {place : Place} {pipe : List UInt8} (h : Listens w path x)
    (htook : ∀ taken, x.place.Took taken → ∃ more, place.Took (taken ++ more) ∧
      x.pipe = more ++ pipe) :
    Listens w path { x with pipe := pipe, place := place } := by
  cases h with
  | @linked taken hbefore hwritten hunopened hlinked =>
    obtain ⟨more, hafter, heq⟩ := htook taken hbefore
    exact .linked hafter (by rw [hwritten, heq, List.append_assoc]) hunopened hlinked
  | lost hbefore hnone hno hcleared hpath =>
    obtain ⟨more, hafter, heq⟩ := htook [] hbefore
    rw [hnone] at heq
    obtain ⟨rfl, hempty⟩ := List.append_eq_nil_iff.mp heq.symm
    exact .lost hafter hempty hno hcleared hpath

theorem Told.step (h : Told b₀ w r x) (hok : Stays w r.clientPipename.str x e)
    (hs : x.step r.clientPipename.str e = some y) : Told b₀ w r y := by
  cases e with
  | broker v a => exact h.serve hok hs
  | reads =>
    obtain ⟨⟨hrunning, -⟩, hs⟩ := Option.ite_none_right_eq_some.mp hs
    obtain rfl := Option.some.inj hs
    refine ⟨h.guarded, h.asks, h.reached, h.speaks, h.listens.receives fun taken htook => ?_⟩
    exact ⟨_, htook.next hrunning _, (List.take_append_drop _ _).symm⟩
  | fails =>
    obtain ⟨hrunning, hs⟩ := Option.ite_none_right_eq_some.mp hs
    obtain rfl := Option.some.inj hs
    refine ⟨h.guarded, h.asks, h.reached, h.speaks,
      h.listens.receives fun taken htook => ⟨[], ?_, rfl⟩⟩
    generalize x.place = place at hrunning
    cases place <;> first | exact trivial | cases hrunning

theorem Told.of_dequeued (hguarded : Guarded (b.dequeued w r))
    (hop : r.opcode = opCodeCreateBox ∨ r.opcode = opCodeRemoveBox) :
    Told (b.dequeued w r) w r ⟨b.dequeued w r, [], [], .opCode⟩ := by
  have hsent : (b.dequeued w r).sent w = [] := Function.update_self ..
  have hspoken : (b.dequeued w r).spoken w = [] := by rw [Broker.spoken, hsent, List.flatMap_nil]
  have hrecord := setClient_self b w { b.clients w with
    opcode := r.opcode
    clientPipename := r.clientPipename
    boxName := if r.opcode ≠ opCodeListBoxes then r.boxName else (b.clients w).boxName }
  have hname : ((b.dequeued w r).clients w).boxName = r.boxName := by
    refine (congrArg Client.boxName hrecord).trans (if_pos ?_)
    rcases hop with hop | hop <;> rw [hop] <;> decide
  have hpath : ((b.dequeued w r).clients w).clientPipename.str = r.clientPipename.str :=
    congrArg (fun c : Client => c.clientPipename.str) hrecord
  have hpc : (b.dequeued w r).pcs w = handlerOf r.opcode := setPc_self ..
  have hun : ((b.dequeued w r).pcs w).Unopened = true := by
    rw [hpc]
    rcases hop with hop | hop <;> rw [hop] <;> rfl
  refine ⟨hguarded, .inl hname, .refl, ?_, .unopened rfl rfl rfl hspoken hun (.inl hpath)⟩
  show Says r _ _ _ ((b.dequeued w r).pcs w)
  rw [hpc, hspoken]
  rcases hop with hop | hop
  · rw [hop]
    exact ⟨hop, rfl⟩
  · rw [hop]
    exact ⟨hop, rfl⟩

/-- A manager asks for a box to be created or removed, and its request comes to worker `w`.
Whatever the other workers do meanwhile, as long as they leave its pipe alone: if it reports "OK",
    its worker has added the box to
the table, or dropped it, in one section of the run; if it reports an error, its worker has
left the table as it was in one section, for the reason that the report gives. -/
theorem told {maxSessions : Nat} {clients : Nat → Client} {m : Fs.Malloc} {fds : Nat → Bool}
    (hreach : Reaches Broker.step anyStep (.start maxSessions clients m fds) b)
    (hrequest : b.step (w, .request r) = some b₀)
    (hop : r.opcode = opCodeCreateBox ∨ r.opcode = opCodeRemoveBox)
    (hrun : Reaches (System.step r.clientPipename.str) (Stays w r.clientPipename.str)
      ⟨b₀, [], [], .opCode⟩ x)
    {report : Report}
    (hreport : x.place = .reported report) :
    ∃ code msg, report = reportOf code msg ∧ Decided b₀ w r x.broker code msg := by
  have hguarded := ((Guarded.of_start maxSessions clients m fds).reached hreach).step hrequest
  obtain ⟨-, -, hdequeued⟩ := step_eq_some.mp hrequest
  dsimp only at hdequeued
  obtain rfl : b₀ = b.dequeued w r := by
    cases hpc : b.pcs w with
    | idle =>
      rw [hpc] at hdequeued
      exact (Option.some.inj hdequeued).symm
    | answering writes locked =>
      rw [hpc] at hdequeued
      cases writes <;> cases hdequeued
    | _ =>
      rw [hpc] at hdequeued
      cases hdequeued
  have htold := hrun.invariant (I := Told (b.dequeued w r) w r) (.of_dequeued hguarded hop)
    fun _ _ _ h hok hs => h.step hok hs
  obtain ⟨taken, htook, hspoken⟩ : ∃ taken, x.place.Took taken ∧
    x.broker.spoken w = taken ++ x.pipe := by
    cases htold.listens with
    | linked htook hspoken => exact ⟨_, htook, hspoken⟩
    | lost htook =>
      rw [hreport] at htook
      obtain ⟨op, bytes, errorMessage, -, -, htaken, -⟩ := htook
      cases htaken
  rw [hreport] at htook
  rcases htold.speaks.begun with hnone | ⟨rest, op, code, msg, hdecided, hanswer⟩
  · obtain ⟨op, bytes, errorMessage, -, -, rfl, -⟩ := htook
    rw [hnone] at hspoken
    cases hspoken
  · rw [hspoken, List.append_assoc] at hanswer
    have hcode : code = 0 ∨ code = -1 := by
      obtain ⟨_, _, _, -, -, -, ⟨-, hdecides⟩, -⟩ := hdecided
      exact hdecides.returnCode
    exact ⟨code, msg, Place.took_answer htook hcode hanswer, hdecided⟩

/-- The manager asks for a box that does not exist to be removed, and another worker starts to
create it. -/
def removeAbsent : List Event :=
  [.broker 0 .none, .broker 0 (.opened samplePath (some 3)), .broker 0 .none,
    .broker 0 (.wrote (.wrote 1)), .reads,
    .broker 1 (.request (sampleRequest opCodeCreateBox)), .broker 0 (.wrote (.wrote 4)),
    .broker 0 (.wrote (.wrote messageLength)), .reads, .broker 0 .none, .reads,
    .broker 1 (.malloced true)]

theorem told_absent : ∃ (x : System) (report : Report), x.place = .reported report ∧
    report ≠ .ok ∧ x.broker.numBoxes = 1 ∧
    ∃ code msg, report = reportOf code msg ∧
      Decided ((fresh 2).dequeued 0 (sampleRequest opCodeRemoveBox)) 0
      (sampleRequest opCodeRemoveBox) x.broker code msg := by
  generalize hr : sampleRequest opCodeRemoveBox = r
  generalize hbegin : (⟨(fresh 2).dequeued 0 r, [], [], .opCode⟩ : System) = x₀
  have hrun : (exec (System.step r.clientPipename.str) x₀ removeAbsent).any
      fun x => x.place = .reported (.error (textOf "Box does not exist")) ∧
      x.broker.numBoxes = 1 := by
    subst hbegin hr
    decide +kernel
  obtain ⟨x, hrun, hx⟩ := (Option.any_eq_true _ _).mp hrun
  obtain ⟨hreport, hnum⟩ := of_decide_eq_true hx
  have hstays : execOk (System.step r.clientPipename.str) (Stays 0 r.clientPipename.str) x₀
    removeAbsent := by
    subst hbegin hr
    decide +kernel
  have hrequest : (fresh 2).step (0, .request r) = some ((fresh 2).dequeued 0 r) := rfl
  have hreach : Reaches Broker.step anyStep (.start 2 (fun _ => zeroClient) .zeros fun _ => false)
    (fresh 2) := .refl
  have hop : r.opcode = opCodeCreateBox ∨ r.opcode = opCodeRemoveBox := by
    subst hr
    exact .inr rfl
  subst hbegin
  exact ⟨x, _, hreport, nofun, hnum, told hreach hrequest hop (.of_exec hrun hstays) hreport⟩

end Told

end Manager

end MBroker
