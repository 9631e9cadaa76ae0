import MBroker.Library.Holders
import MBroker.Queue.Custody
import MBroker.Queue.Refinement
import MBroker.Queue.Wakeups
import MBroker.Server.Model

/-!
# From the clients to the handlers

What the clients write comes to the workers through `parser`, the queue and `pcq_dequeue`,
with any number of workers and any interleaving.

Results:
1. `handled_authentic`: `main` never gives up on what the clients write, and a worker only
   handles what a client wrote.
2. `handled_once`: no request is handled more often than it was written, and each worker
   handles its requests in the order in which they were written.
3. `none_left`: no request waits in the queue while a worker sleeps.
4. `handled_in_order`: with one worker the requests are handled in the order of the writes.

The second and the third are about the runs whose tests of `pcq_current_size` count the calls
between their two locks (`PcQueue.Claims`). With one worker every run is one of them.
-/

namespace MBroker

open Queue Transition PcQueue

namespace Server

open List Holders

/-- What a step of the server does. -/
inductive Moves (s : Server) : ServerEvent → Server → Prop
  | write {c : ClientRequest} {bytes : List UInt8} : c.write = some bytes →
      Moves s (.write c) { s with pipe := s.pipe ++ bytes, written := s.written ++ [c] }
  | parsed {fresh : CharArray 32} {opCode : UInt8} {input rest : List UInt8} {r : Request}
      {q : PcQueue Request} :
      s.pipe = opCode :: input → parser fresh opCode input = .request r rest →
      s.queue.step (.enqueue 0 r) = some q →
      Moves s (.parse fresh) { s with pipe := rest, queue := q }
  | failed {fresh : CharArray 32} {opCode : UInt8} {input : List UInt8} : s.pipe = opCode :: input →
      parser fresh opCode input = .failed → Moves s (.parse fresh) { s with closing := true }
  | overrun {fresh : CharArray 32} {opCode : UInt8} {input : List UInt8} :
      s.pipe = opCode :: input →
      parser fresh opCode input = .overrun → Moves s (.parse fresh) { s with exited := true }
  | queue {e : Event Request} {q : PcQueue Request} : e.atEnds = false →
      (∀ w, e = .dequeue w → s.AtTop w) → s.queue.step e = some q → Moves s
      (.queue e) { s with queue := q }
  | returns {w : Nat} {woken : Option Nat} {elem : Option Request} {q : PcQueue Request} :
      s.queue.poppers w = .signalling elem → s.queue.step (.signalPusher w woken) = some q →
      Moves s (.queue (.signalPusher w woken))
        { s with queue := q, returned := Function.update s.returned w (some elem) }
  | dispatched {w : Nat} {null : Bool} {r : Request} {b : Broker} : s.returned w = some (some r) →
      s.broker.step (w, .request r) = some b → Moves s (.dispatch w null)
        { s with
          broker := b
          returned := Function.update s.returned w none
          handled := s.handled ++ [(w, r)] }
  | ended {w : Nat} : s.returned w = some none → Moves s (.dispatch w true)
      { s with returned := Function.update s.returned w none, ended :=
        Function.update s.ended w true }
  | wild {w : Nat} : s.returned w = some none →
    Moves s (.dispatch w false) { s with exited := true }
  | worker {w : Nat} {a : Answer} {b : Broker} : (∀ r, a ≠ .request r) →
      s.broker.step (w, a) = some b →
      Moves s (.worker w a) { s with broker := b }
  | exit : Moves s .join { s with exited := true }

variable {s t : Server} {e : ServerEvent}

theorem moves_of_parse {fresh : CharArray 32} (h : s.parse fresh = some t) : Moves s
    (.parse fresh) t := by
  unfold parse at h
  split at h
  · next opCode input _ _ hpipe =>
    split at h
    · next r rest hparser =>
      obtain ⟨q, hq, rfl⟩ := Option.map_eq_some_iff.mp h
      exact .parsed hpipe hparser hq
    · next hparser =>
      obtain rfl := Option.some.inj h
      exact .failed hpipe hparser
    · next hparser =>
      obtain rfl := Option.some.inj h
      exact .overrun hpipe hparser
  · cases h

theorem moves_of_queueSection {e : Event Request} (h : s.queueSection e = some t) : Moves s
    (.queue e) t := by
  cases e with
  | enqueue p elem => cases h
  | dequeue w =>
    obtain ⟨htop, h⟩ := Option.ite_none_right_eq_some.mp h
    obtain ⟨q, hq, rfl⟩ := Option.map_eq_some_iff.mp h
    refine .queue rfl (fun v hv => ?_) hq
    cases hv
    exact htop
  | signalPusher w woken =>
    unfold queueSection at h
    dsimp only at h
    split at h
    · next elem hpc =>
      obtain ⟨q, hq, rfl⟩ := Option.map_eq_some_iff.mp h
      exact .returns hpc hq
    · cases h
  | _ =>
    obtain ⟨q, hq, rfl⟩ := Option.map_eq_some_iff.mp h
    exact .queue rfl (fun v hv => by cases hv) hq

theorem moves_of_dispatch {w : Nat} {null : Bool} (h : s.dispatch w null = some t) :
    Moves s (.dispatch w null) t := by
  unfold dispatch at h
  split at h
  · next r hreturned =>
    obtain ⟨b, hb, rfl⟩ := Option.map_eq_some_iff.mp h
    exact .dispatched hreturned hb
  · next hreturned =>
    cases null with
    | true =>
      obtain rfl := Option.some.inj h
      exact .ended hreturned
    | false =>
      obtain rfl := Option.some.inj h
      exact .wild hreturned
  · cases h

theorem moves_of_step (h : s.step e = some t) : Moves s e t := by
  unfold step at h
  split at h
  · cases h
  · cases e with
    | write c =>
      obtain ⟨bytes, hbytes, rfl⟩ := Option.map_eq_some_iff.mp h
      exact .write hbytes
    | parse fresh => exact moves_of_parse h
    | queue e => exact moves_of_queueSection h
    | dispatch w null => exact moves_of_dispatch h
    | worker w a =>
      cases a with
      | request r => cases h
      | _ =>
        obtain ⟨b, hb, rfl⟩ := Option.map_eq_some_iff.mp h
        exact .worker (fun r hr => Answer.noConfusion hr) hb
    | join =>
      obtain ⟨-, h⟩ := Option.ite_none_right_eq_some.mp h
      exact Option.some.inj h ▸ .exit

/-! ## What the workers hold -/

/-- What a worker has got from the queue and not looked at yet. -/
def transit (s : Server) (w : Nat) : List (Option Request) :=
  s.queue.inHand w ++ (s.returned w).toList

def handledBy (s : Server) (w : Nat) : List Request := (s.handled.filter (·.1 == w)).map (·.2)

/-- Everything that was taken from the queue was handled, is with a worker, or was a slot that
was never filled. -/
structure Custody (s : Server) : Prop where
  main : s.queue.nPushers = 1
  genuine : PcQueue.Genuine s.queue
  returned : ∀ w, s.returned w ≠ none → w < s.queue.nPoppers ∧ s.queue.poppers w = .idle
  workers : ∀ h ∈ s.handled, h.1 < s.queue.nPoppers
  all : ∃ k, s.handled.map (fun h => some h.2) ++ total s.transit s.queue.nPoppers
    ++ replicate k none
    ~ s.queue.popped
  each : ∀ w, (s.handledBy w).map some ++ s.transit w <+ s.queue.popped

theorem transit_returned {w : Nat} (h : s.queue.poppers w = .idle) :
    s.transit w = (s.returned w).toList := by
  rw [transit, PcQueue.inHand, h]
  rfl

/-- A worker in `pcq_dequeue` has nothing from an earlier call. -/
theorem Custody.returned_none (h : Custody s) {w : Nat} (hw : s.queue.poppers w ≠ .idle) :
    s.returned w = none := by
  by_contra hsome
  exact hw (h.returned w hsome).2

theorem transit_set {w : Nat} {q : PcQueue Request} {elem : Option Request}
    (hw : s.returned w = none)
    (hhand : q.inHand = Function.update s.queue.inHand w [elem]) :
    ({ s with queue := q } : Server).transit = Function.update s.transit w [elem] := by
  funext v
  show q.inHand v ++ (s.returned v).toList = _
  rw [hhand]
  rcases eq_or_ne v w with rfl | hne
  · rw [Function.update_self, Function.update_self, hw]
    rfl
  · rw [Function.update_of_ne hne, Function.update_of_ne hne]
    rfl

/-- The queue moves on inside `pcq_enqueue` or `pcq_dequeue`. -/
theorem Custody.queue (h : Custody s) {e : Event Request} {q : PcQueue Request}
    (hends : e.atEnds = false)
    (htop : ∀ w, e = .dequeue w → s.AtTop w) (hn : Next s.queue e q) :
    Custody { s with queue := q } := by
  have hreturned : q.nPoppers = s.queue.nPoppers →
      ∀ w, s.returned w ≠ none → w < q.nPoppers ∧ q.poppers w = .idle := by
    intro hn' w hw
    obtain ⟨hlt, hidle⟩ := h.returned w hw
    refine ⟨hn' ▸ hlt, (hn.idle hidle).resolve_right fun hd => ?_⟩
    exact hw (htop w hd).2.1
  have hgenuine := h.genuine.next hn
  obtain ⟨k, hall⟩ := h.all
  have hsame : q.nPushers = s.queue.nPushers → q.nPoppers = s.queue.nPoppers →
      q.popped = s.queue.popped →
      q.inHand = s.queue.inHand → Custody { s with queue := q } := by
    intro hnp hnc hpopped hhand
    have htransit : ({ s with queue := q } : Server).transit = s.transit :=
      funext fun w => congrArg (· ++ _) (congrFun hhand w)
    refine ⟨hnp.trans h.main, hgenuine, hreturned hnc, hnc ▸ h.workers, ⟨k, ?_⟩, fun w => ?_⟩
    · rw [htransit, hpopped, hnc]
      exact hall
    · rw [htransit, hpopped]
      exact h.each w
  cases hn.carries with
  | still _ hs => exact hsame hs.nPushers hs.nPoppers hs.popped hs.inHand
  | enters => cases hends
  | returns => cases hends
  | stored _ _ hnp hnc _ _ hpopped _ hhand => exact hsame hnp hnc hpopped hhand
  | @taken c _ hc hpc hnp hnc _ _ hpopped _ hhand =>
    have hnone : s.returned c = none := h.returned_none (by rw [hpc]; nofun)
    have hempty : s.transit c = [] := by
      rw [transit, PcQueue.inHand, hpc, hnone]
      rfl
    have htransit := transit_set hnone hhand
    refine ⟨hnp.trans h.main, hgenuine, hreturned hnc, hnc ▸ h.workers, ⟨k, ?_⟩, fun w => ?_⟩
    · have htotal := total_update (f := s.transit) hc [s.queue.pcqBuffer s.queue.pcqHead]
      rw [htransit, hpopped, hnc, perm_iff_count]
      rw [hempty, append_nil] at htotal
      intro x
      have h1 := hall.count_eq x
      have h2 := htotal.count_eq x
      simp only [count_append] at h1 h2 ⊢
      omega
    · rw [htransit, hpopped]
      rcases eq_or_ne w c with rfl | hne
      · rw [Function.update_self]
        have heach := h.each w
        rw [hempty, append_nil] at heach
        exact heach.append_right _
      · rw [Function.update_of_ne hne]
        exact (h.each w).trans (sublist_append_left _ _)

/-- `pcq_dequeue` hands over what it took. -/
theorem Custody.returns (h : Custody s) {w : Nat} {woken : Option Nat} {elem : Option Request}
    {q : PcQueue Request} (hpc : s.queue.poppers w = .signalling elem)
    (hn : Next s.queue (.signalPusher w woken) q) :
    Custody { s with queue := q, returned := Function.update s.returned w (some elem) } := by
  have hgenuine := h.genuine.next hn
  have hnone : s.returned w = none := h.returned_none (by rw [hpc]; nofun)
  cases hn.carries with
  | still hends => cases hends
  | @returns _ elem' _ _ hw hpc' hs hpoppers =>
    have htransit : ({ s
        with queue := q, returned := Function.update s.returned w (some elem) } : Server).transit
        = s.transit := by
      funext v
      show q.inHand v ++ (Function.update s.returned w (some elem) v).toList = _
      rw [hs.inHand, inHand_setPopper]
      rcases eq_or_ne v w with rfl | hne
      · rw [Function.update_self, Function.update_self, transit, PcQueue.inHand, hpc, hnone]
        rfl
      · rw [Function.update_of_ne hne, Function.update_of_ne hne]
        rfl
    obtain ⟨k, hall⟩ := h.all
    refine ⟨hs.nPushers.trans h.main, hgenuine, fun v hv => ?_, ?_, ⟨k, ?_⟩, fun v => ?_⟩
    · rw [hpoppers, hs.nPoppers]
      rcases eq_or_ne v w with rfl | hne
      · exact ⟨hw, Function.update_self ..⟩
      · rw [Function.update_of_ne hne]
        exact h.returned v fun hv' => hv ((Function.update_of_ne hne ..).trans hv')
    · rw [hs.nPoppers]
      exact h.workers
    · rw [htransit, hs.popped, hs.nPoppers]
      exact hall
    · rw [htransit, hs.popped]
      exact h.each v

theorem transit_clear {w : Nat} (hpc : s.queue.poppers w = .idle) :
    ({ s with returned := Function.update s.returned w none } : Server).transit
      = Function.update s.transit w [] := by
  funext v
  show s.queue.inHand v ++ (Function.update s.returned w none v).toList = _
  rcases eq_or_ne v w with rfl | hne
  · rw [Function.update_self, Function.update_self, PcQueue.inHand, hpc]
    rfl
  · rw [Function.update_of_ne hne, Function.update_of_ne hne]
    rfl

theorem Custody.clear_returned (h : Custody s) {w v : Nat}
    (hv : Function.update s.returned w none v ≠ none) :
    v < s.queue.nPoppers ∧ s.queue.poppers v = .idle := by
  rcases eq_or_ne v w with rfl | hne
  · exact absurd (Function.update_self ..) hv
  · exact h.returned v fun hv' => hv ((Function.update_of_ne hne ..).trans hv')

/-- A worker takes on the request it got. -/
theorem Custody.dispatched (h : Custody s) {w : Nat} {r : Request} {b : Broker}
    (hw : s.returned w = some (some r)) :
    Custody { s with
      broker := b
      returned := Function.update s.returned w none
      handled := s.handled ++ [(w, r)] } := by
  obtain ⟨hlt, hidle⟩ := h.returned w (by rw [hw]; nofun)
  have hhad : s.transit w = [some r] := by rw [transit_returned hidle, hw]; rfl
  have htransit := transit_clear hidle
  obtain ⟨k, hall⟩ := h.all
  refine ⟨h.main, h.genuine, fun v hv => h.clear_returned hv, fun x hx => ?_, ⟨k, ?_⟩, fun v => ?_⟩
  · rcases mem_append.mp hx with hold | hnew
    · exact h.workers x hold
    · rw [mem_singleton.mp hnew]
      exact hlt
  · show map _ (s.handled ++ [(w, r)]) ++ total (transit { s with returned := _ }) _ ++ _ ~ _
    have htotal := total_update (f := s.transit) hlt []
    rw [htransit, perm_iff_count]
    rw [hhad, append_nil] at htotal
    intro x
    have h1 := hall.count_eq x
    have h2 := htotal.count_eq x
    simp only [map_append, map_cons, map_nil, count_append] at h1 h2 ⊢
    omega
  · show map some (map _ (filter _ (s.handled ++ [(w, r)])))
      ++ transit { s with returned := _ } v <+ _
    rw [htransit, filter_append, map_append, map_append]
    have heach := h.each v
    rcases eq_or_ne v w with rfl | hne
    · rw [hhad] at heach
      rw [Function.update_self, filter_cons_of_pos (by simp), append_nil]
      exact heach
    · rw [Function.update_of_ne hne, filter_cons_of_neg (by simpa using hne.symm),
        filter_nil, map_nil, map_nil,
        append_nil]
      exact heach

/-- A worker got nothing, and its thread returns. -/
theorem Custody.ended (h : Custody s) {w : Nat} (hw : s.returned w = some none) :
    Custody { s with
      returned := Function.update s.returned w none
      ended := Function.update s.ended w true } := by
  obtain ⟨hlt, hidle⟩ := h.returned w (by rw [hw]; nofun)
  have hhad : s.transit w = [none] := by rw [transit_returned hidle, hw]; rfl
  have htransit := transit_clear hidle
  obtain ⟨k, hall⟩ := h.all
  refine ⟨h.main, h.genuine, fun v hv => h.clear_returned hv, h.workers, ⟨k + 1, ?_⟩, fun v => ?_⟩
  · show map _ s.handled ++ total (transit { s with returned := _ }) _ ++ _ ~ _
    have htotal := total_update (f := s.transit) hlt []
    rw [htransit, perm_iff_count, replicate_succ']
    rw [hhad, append_nil] at htotal
    intro x
    have h1 := hall.count_eq x
    have h2 := htotal.count_eq x
    simp only [count_append] at h1 h2 ⊢
    omega
  · show map some (s.handledBy v) ++ transit { s with returned := _ } v <+ _
    rw [htransit]
    have heach := h.each v
    rcases eq_or_ne v w with rfl | hne
    · rw [Function.update_self, append_nil]
      exact (sublist_append_left _ _).trans heach
    · rw [Function.update_of_ne hne]
      exact heach

theorem Custody.moves (h : Custody s) (hm : Moves s e t) : Custody t := by
  cases hm with
  | parsed _ _ hq =>
    cases next_of_step hq with
    | enqueue _ _ => exact ⟨h.main, h.genuine.next (next_of_step hq),
      h.returned, h.workers, h.all, h.each⟩
  | queue hends htop hq => exact h.queue hends htop (next_of_step hq)
  | returns hpc hq => exact h.returns hpc (next_of_step hq)
  | dispatched hw _ => exact h.dispatched hw
  | ended hw => exact h.ended hw
  | _ => exact ⟨h.main, h.genuine, h.returned, h.workers, h.all, h.each⟩

/-! ## What `main` reads -/

/-- What was written is what `main` has read, now with the queue, and what is still in the
pipe as whole requests. -/
structure Reading (s : Server) : Prop where
  main : s.queue.nPushers = 1
  closing : s.closing = false
  fits : ∀ c ∈ s.written, c.Fits
  split : ∃ read rest frames, s.written = read ++ rest ∧
    rest.mapM ClientRequest.write = some frames ∧
    s.pipe = frames.flatten ∧ Forall₂ Decodes read (s.queue.pushed ++ s.queue.entering 0)

theorem frames_cons {c : ClientRequest} {rest : List ClientRequest} {frames : List (List UInt8)}
    (hfits : c.Fits) (h : (c :: rest).mapM ClientRequest.write = some frames) :
    ∃ frames', rest.mapM ClientRequest.write = some frames' ∧
      frames = (c.opcode :: (field clientNamedPipePathLength c.pipeName ++
        (c.boxName.map (field boxNameLength)).getD [])) :: frames' := by
  rw [mapM_cons, write_of hfits] at h
  obtain ⟨bytes, hbytes, h⟩ := Option.bind_eq_some_iff.mp h
  obtain ⟨frames', hrest, h⟩ := Option.bind_eq_some_iff.mp h
  obtain rfl := Option.some.inj hbytes
  exact ⟨frames', hrest, (Option.some.inj h).symm⟩

/-- `main` finds a whole request at the head of the pipe. -/
theorem Reading.head (h : Reading s) {opCode : UInt8} {input : List UInt8}
    (hpipe : s.pipe = opCode :: input)
    (fresh : CharArray 32) :
    ∃ c r read rest frames, s.written = read ++ c :: rest ∧
    rest.mapM ClientRequest.write = some frames ∧
      Forall₂ Decodes read (s.queue.pushed ++ s.queue.entering 0) ∧ Decodes c r ∧
      parser fresh opCode input = .request r frames.flatten := by
  obtain ⟨read, rest, frames, hwritten, hframes, hflat, hread⟩ := h.split
  cases rest with
  | nil =>
    obtain rfl := Option.some.inj hframes
    cases hflat.symm.trans hpipe
  | cons c rest =>
    have hfits : c.Fits := h.fits c (hwritten ▸ mem_append_right read mem_cons_self)
    obtain ⟨frames', hrest, rfl⟩ := frames_cons hfits hframes
    obtain ⟨r, hdec, hparse⟩ := parser_write hfits fresh frames'.flatten
    rw [hpipe, flatten_cons, cons_append] at hflat
    obtain ⟨rfl, rfl⟩ := cons.inj hflat
    exact ⟨c, r, read, rest, frames', hwritten, hrest, hread, hdec, hparse⟩

theorem Reading.write (h : Reading s) {c : ClientRequest} {bytes : List UInt8} (hfits : c.Fits)
    (hbytes : c.write = some bytes) :
    Reading { s with pipe := s.pipe ++ bytes, written := s.written ++ [c] } := by
  obtain ⟨read, rest, frames, hwritten, hframes, hflat, hread⟩ := h.split
  refine ⟨h.main, h.closing, fun c' hc' => ?_, read, rest ++ [c],
    frames ++ [bytes], ?_, ?_, ?_, hread⟩
  · rcases mem_append.mp hc' with hold | hnew
    · exact h.fits c' hold
    · rwa [mem_singleton.mp hnew]
  · show s.written ++ [c] = _
    rw [hwritten, append_assoc]
  · rw [mapM_append, hframes, mapM_cons, hbytes]
    rfl
  · show s.pipe ++ bytes = _
    rw [hflat, flatten_append, flatten_singleton]

/-- `main` puts the request at the head of the pipe into the queue. -/
theorem Reading.parsed (h : Reading s) {fresh : CharArray 32} {opCode : UInt8}
    {input rest : List UInt8}
    {r : Request} {q : PcQueue Request} (hpipe : s.pipe = opCode :: input)
    (hparser : parser fresh opCode input = .request r rest) (hn : Next s.queue (.enqueue 0 r) q) :
    Reading { s with pipe := rest, queue := q } := by
  obtain ⟨c, r', read, rest', frames, hwritten, hframes, hread, hdec, hparse⟩ := h.head hpipe fresh
  rw [hparser] at hparse
  obtain ⟨rfl, rfl⟩ := Parsed.request.inj hparse
  cases hn with
  | enqueue _ hpc =>
    have hempty : s.queue.entering 0 = [] := by
      rw [PcQueue.entering, hpc]
      rfl
    rw [hempty, append_nil] at hread
    refine ⟨h.main, h.closing, h.fits, read ++ [c], rest', frames, ?_, hframes, rfl, ?_⟩
    · show s.written = _
      rw [hwritten, append_assoc]
      rfl
    · show Forall₂ Decodes _ (s.queue.pushed ++ (s.queue.setPusher 0 (.testing r)).entering 0)
      rw [entering_setPusher, Function.update_self]
      exact rel_append hread (.cons hdec .nil)

theorem Reading.moves (h : Reading s)
    (hok : ∀ c, e = .write c → c.Fits) (hm : Moves s e t) : Reading t := by
  have hqueue : ∀ {q : PcQueue Request}, q.nPushers = s.queue.nPushers →
      q.pushed ++ q.entering 0 = s.queue.pushed ++ s.queue.entering 0 →
      Reading { s with queue := q } := by
    intro q hnp hsame
    refine ⟨hnp.trans h.main, h.closing, h.fits, ?_⟩
    show ∃ read rest frames, _ ∧ _ ∧ _ ∧ Forall₂ Decodes read (q.pushed ++ q.entering 0)
    rw [hsame]
    exact h.split
  cases hm with
  | write hbytes => exact h.write (hok _ rfl) hbytes
  | parsed hpipe hparser hq => exact h.parsed hpipe hparser (next_of_step hq)
  | failed hpipe hparser =>
    obtain ⟨c, r, read, rest, frames, -, -, -, -, hparse⟩ := h.head hpipe _
    cases hparser.symm.trans hparse
  | overrun hpipe hparser =>
    obtain ⟨c, r, read, rest, frames, -, -, -, -, hparse⟩ := h.head hpipe _
    cases hparser.symm.trans hparse
  | queue hends _ hq =>
    cases (next_of_step hq).carries with
    | still _ hs => exact hqueue hs.nPushers (by rw [hs.pushed, hs.entering])
    | enters => cases hends
    | returns => cases hends
    | @stored p elem _ hp hentering hnp _ _ hpushed _ hleft _ =>
      obtain rfl : p = 0 := by
        rw [h.main] at hp
        omega
      refine hqueue hnp ?_
      rw [hpushed, hleft, Function.update_self, hentering, append_nil]
    | taken _ _ hnp _ _ hpushed _ hentering _ => exact hqueue hnp (by rw [hpushed, hentering])
  | returns _ hq =>
    cases (next_of_step hq).carries with
    | still hends => cases hends
    | returns _ _ hs _ =>
      have hmoved := hqueue hs.nPushers (by rw [hs.pushed, hs.entering]; rfl)
      exact ⟨hmoved.main, hmoved.closing, hmoved.fits, hmoved.split⟩
  | _ => exact ⟨h.main, h.closing, h.fits, h.split⟩

/-! ## Conditions on a run -/

/-- The clients' names fit their fields. -/
def FittingClients (_ : Server) : ServerEvent → Prop
  | .write c => c.Fits
  | _ => True

instance (s : Server) (e : ServerEvent) : Decidable (FittingClients s e) := by
  cases e with
  | write c => exact inferInstanceAs (Decidable c.Fits)
  | _ => exact isTrue trivial

/-- The clients' names fit, and a test of `pcq_current_size` counts the calls between their
two locks. -/
def CountedTests (s : Server) : ServerEvent → Prop
  | .write c => c.Fits
  | .queue e => s.queue.Claims e
  | _ => True

instance (s : Server) (e : ServerEvent) : Decidable (CountedTests s e) := by
  cases e with
  | write c => exact inferInstanceAs (Decidable c.Fits)
  | queue e => exact inferInstanceAs (Decidable (s.queue.Claims e))
  | _ => exact isTrue trivial

theorem CountedTests.fitting (h : CountedTests s e) : FittingClients s e := by
  cases e with
  | write c => exact h
  | _ => trivial

/-- `main` has nothing to read, and no request is between `main` and a handler. -/
structure Calm (s : Server) : Prop where
  pipe : s.pipe = []
  main : s.queue.pushers 0 = .idle
  dequeue : ∀ w < s.queue.nPoppers, s.queue.poppers w = .idle ∨ s.queue.poppers w = .asleep
  returned : ∀ w < s.queue.nPoppers, s.returned w = none

deriving instance DecidableEq for PusherPc, PopperPc

instance (s : Server) : Decidable (Calm s) :=
  decidable_of_iff (s.pipe = [] ∧ s.queue.pushers 0 = .idle ∧
      (∀ w < s.queue.nPoppers, s.queue.poppers w = .idle ∨ s.queue.poppers w = .asleep) ∧
      ∀ w < s.queue.nPoppers, s.returned w = none)
    ⟨fun h => ⟨h.1, h.2.1, h.2.2.1, h.2.2.2⟩, fun h => ⟨h.pipe, h.main, h.dequeue, h.returned⟩⟩

instance (q : PcQueue Request) : Decidable q.PopperAsleep :=
  inferInstanceAs (Decidable (∃ c < q.nPoppers, q.poppers c = .asleep))

/-! ## A run with three workers -/

/-- The server with zeroed memory and no descriptor open. -/
def fresh (maxSessions : Nat) : Server :=
  { pipe := []
    queue :=
      { pcqCapacity := maxSessions
        pcqCurrentSize := 0
        pcqHead := 0
        pcqTail := 0
        pcqBuffer := fun _ => none
        nPushers := 1
        nPoppers := maxSessions
        pushers := fun _ => .idle
        poppers := fun _ => .idle
        pushed := []
        popped := [] }
    broker := .fresh maxSessions
    returned := fun _ => none
    closing := false
    ended := fun _ => false
    exited := false
    written := []
    handled := [] }

theorem start_fresh (n : Nat) :
    start (n + 1) true (fun _ => zeroClient) .zeros (fun _ => false) = some (fresh (n + 1)) := by
  have hqueue : pcqCreate (n + 1) true 1 (n + 1) = some (fresh (n + 1)).queue := if_neg (by simp)
  rw [start, hqueue, tfsInit_main rfl]
  rfl

/-- `main` takes the next request, and worker `w` gets it. -/
def servedBy (w : Nat) : List ServerEvent :=
  [.parse sampleName, .queue (.pusherTest 0), .queue (.store 0), .queue (.countUp 0),
    .queue (.signalPopper 0 none), .queue (.dequeue w), .queue (.popperTest w), .queue (.take w),
    .queue (.countDown w), .queue (.signalPusher w none), .dispatch w false]

def writeCreate : ServerEvent := .write (.createBox (.ofBytes [112]) (.ofBytes [47, 97]))

/-- Workers 1 and 0 get a request each, and worker 2 goes to sleep. -/
def twoCalls : List ServerEvent :=
  [writeCreate, .write (.listBoxes (.ofBytes [113]))] ++ servedBy 1 ++ servedBy 0 ++
    [.queue (.dequeue 2), .queue (.popperTest 2)]

theorem twoCalls_run : ∃ t, Reaches step CountedTests (fresh 3) t ∧ t.handled.length = 2 ∧ Calm t ∧
    t.queue.PopperAsleep := by
  have hrun : (exec step (fresh 3) twoCalls).any
      fun t => t.handled.length = 2 ∧ Calm t ∧ t.queue.PopperAsleep := by decide +kernel
  obtain ⟨t, hrun, hcalm⟩ := (Option.any_eq_true _ _).mp hrun
  exact ⟨t, .of_exec hrun (by decide +kernel), of_decide_eq_true hcalm⟩

theorem oneCall_run : ∃ t, Reaches step FittingClients (fresh 1) t ∧ t.handled.length = 1 := by
  have hrun : (exec step (fresh 1) (writeCreate :: servedBy 0)).any fun t =>
    t.handled.length = 1 := by
    decide +kernel
  obtain ⟨t, hrun, hhandled⟩ := (Option.any_eq_true _ _).mp hrun
  exact ⟨t, .of_exec hrun (by decide +kernel), of_decide_eq_true hhandled⟩

/-! ## Any interleaving -/

section Runs

variable {maxSessions : Nat} {malloced : Bool} {clients : Nat → Client}
  {m : Fs.Malloc} {fds : Nat → Bool}

theorem start_eq_some (h : start maxSessions malloced clients m fds = some s) :
    ∃ queue tfs, pcqCreate maxSessions true 1 maxSessions = some queue ∧
      Fs.tfsInit .static (some brokerParams) m = .ok (tfs, 0) ∧
      s = { pipe := []
            queue := queue
            broker := { Broker.start maxSessions clients m fds with tfs := tfs }
            returned := fun _ => none
            closing := false
            ended := fun _ => false
            exited := false
            written := []
            handled := [] } := by
  unfold start at h
  split at h
  · next queue tfs hqueue htfs =>
    cases malloced with
    | true => exact ⟨queue, tfs, hqueue, htfs, (Option.some.inj h).symm⟩
    | false =>
      obtain ⟨hnot, -⟩ := Option.ite_none_left_eq_some.mp hqueue
      exact absurd (.inr rfl) hnot
  · cases h

theorem custody_start (h : start maxSessions malloced clients m fds = some s) :
    Custody s ∧ Reading s := by
  obtain ⟨queue, tfs, hqueue, -, rfl⟩ := start_eq_some h
  obtain ⟨-, hqueue⟩ := Option.ite_none_left_eq_some.mp hqueue
  obtain rfl := Option.some.inj hqueue
  refine ⟨⟨rfl, ⟨nofun, nofun⟩, fun w hw => absurd rfl hw, nofun, ⟨0, ?_⟩, fun w => nil_sublist _⟩,
    rfl, rfl, nofun, [], [], [], rfl, rfl, rfl, .nil⟩
  have hnone : total (fun _ => ([] : List (Option Request))) maxSessions = [] :=
    total_nil fun _ _ => rfl
  show total (fun _ => ([] : List (Option Request))) maxSessions ++ [] ~ []
  rw [hnone]
  exact .nil

theorem custody_reached (hstart : start maxSessions malloced clients m fds = some s)
    (hrun : Reaches step FittingClients s t) : Custody t ∧ Reading t := by
  refine hrun.invariant (I := fun s => Custody s ∧
    Reading s) (custody_start hstart) fun s e t h hok hs => ?_
  have hm := moves_of_step hs
  exact ⟨h.1.moves hm, h.2.moves (fun c hc => by subst hc; exact hok) hm⟩

theorem Reading.decodes (h : Reading s) {r : Request} (hr : r ∈ s.queue.pushed) :
    ∃ c ∈ s.written, Decodes c r := by
  obtain ⟨read, rest, frames, hwritten, -, -, hread⟩ := h.split
  obtain ⟨c, hc, hdec⟩ := exists_mem hread (mem_append_left _ hr)
  exact ⟨c, hwritten ▸ mem_append_left _ hc, hdec⟩

/-- With any number of workers and in any interleaving, `main` never fails on what clients
write, and every request that a worker takes on decodes one that a client wrote. -/
theorem handled_authentic (hstart : start maxSessions malloced clients m fds = some s)
    (hrun : Reaches step FittingClients s t) :
    t.closing = false ∧ ∀ w r, (w, r) ∈ t.handled → ∃ c ∈ t.written, Decodes c r := by
  obtain ⟨hcustody, hreading⟩ := custody_reached hstart hrun
  refine ⟨hreading.closing, fun w r hr => ?_⟩
  obtain ⟨k, hall⟩ := hcustody.all
  have htaken : some r ∈ t.queue.popped := by
    refine hall.subset (mem_append_left _ (mem_append_left _ ?_))
    exact mem_map.mpr ⟨(w, r), hr, rfl⟩
  exact hreading.decodes (hcustody.genuine.popped r htaken)

theorem handled_authentic_three : ∃ t : Server, t.handled.length = 2 ∧ t.closing = false ∧
    ∀ w r, (w, r) ∈ t.handled → ∃ c ∈ t.written, Decodes c r := by
  obtain ⟨t, hrun, hhandled, -⟩ := twoCalls_run
  exact ⟨t, hhandled, handled_authentic (start_fresh 2) (hrun.mono fun _ _ => CountedTests.fitting)⟩

/-! ## Runs whose tests count the calls under way -/

/-- The order of the queue, and what its sleepers leave. -/
structure Counted (s : Server) : Prop where
  inv : Inv s.queue
  attended : Attended s.queue

theorem Counted.moves (h : Counted s) (hok : CountedTests s e) (hm : Moves s e t) : Counted t := by
  have hnext : ∀ {e : Event Request} {q : PcQueue Request}, s.queue.Claims
      e → s.queue.step e = some q →
      Inv q ∧ Attended q := fun hc hq =>
    ⟨h.inv.next hc (next_of_step hq), h.attended.next h.inv (next_of_step hq)⟩
  cases hm with
  | parsed _ _ hq =>
    obtain ⟨hinv, hattended⟩ := hnext (e := .enqueue 0 _) trivial hq
    exact ⟨hinv, hattended⟩
  | queue _ _ hq =>
    obtain ⟨hinv, hattended⟩ := hnext hok hq
    exact ⟨hinv, hattended⟩
  | returns _ hq =>
    obtain ⟨hinv, hattended⟩ := hnext (e := .signalPusher _ _) trivial hq
    exact ⟨hinv, hattended⟩
  | _ => exact ⟨h.inv, h.attended⟩

theorem counted_start (hcap : maxSessions < word)
    (h : start maxSessions malloced clients m fds = some s) :
    Counted s := by
  obtain ⟨queue, tfs, hqueue, -, rfl⟩ := start_eq_some h
  exact ⟨inv_create hcap hqueue, attended_create hqueue⟩

theorem counted_reached (hcap : maxSessions < word)
    (hstart : start maxSessions malloced clients m fds = some
      s) (hrun : Reaches step CountedTests s t) :
    Custody t ∧ Reading t ∧ Counted t := by
  obtain ⟨hcustody, hreading⟩ := custody_reached hstart (hrun.mono fun _ _ => CountedTests.fitting)
  refine ⟨hcustody, hreading, ?_⟩
  exact hrun.invariant (counted_start hcap hstart) fun s e t h hok hs => h.moves
    hok (moves_of_step hs)

/-- Requests that come after one another in the queue decode what was written. -/
theorem Reading.decodes_sublist (h : Reading s) {rs : List Request} (hrs : rs <+ s.queue.pushed) :
    ∃ cs, cs <+ s.written ∧ Forall₂ Decodes cs rs := by
  obtain ⟨read, rest, frames, hwritten, -, -, hread⟩ := h.split
  obtain ⟨cs, hcs, hdec⟩ := exists_sublist hread (hrs.trans (sublist_append_left _ _))
  exact ⟨cs, hwritten ▸ hcs.trans (sublist_append_left _ _), hdec⟩

theorem Reading.decodes_subperm (h : Reading s) {rs : List Request} (hrs : rs <+~ s.queue.pushed) :
    ∃ cs, cs <+~ s.written ∧ Forall₂ Decodes cs rs := by
  obtain ⟨read, rest, frames, hwritten, -, -, hread⟩ := h.split
  obtain ⟨cs, hcs, hdec⟩ := exists_subperm hread (hrs.trans (sublist_append_left _ _).subperm)
  exact ⟨cs, hwritten ▸ hcs.trans (sublist_append_left _ _).subperm, hdec⟩

/-- Nothing but what was stored comes out of the queue. -/
theorem Custody.all_genuine (h : Custody s) (hinv : Inv s.queue) :
    (s.handled.map Prod.snd).map some ++ total s.transit s.queue.nPoppers ~ s.queue.popped := by
  obtain ⟨k, hall⟩ := h.all
  cases k with
  | zero =>
    rw [replicate_zero, append_nil] at hall
    rw [map_map]
    exact hall
  | succ k =>
    have hmem : none ∈ s.queue.popped := hall.subset (mem_append_right _ mem_cons_self)
    obtain ⟨r, -, hr⟩ := mem_map.mp (hinv.order.subset hmem)
    cases hr

theorem Custody.handled_subperm (h : Custody s) (hinv : Inv s.queue) :
    s.handled.map Prod.snd <+~ s.queue.pushed :=
  subperm_of_map_some (((sublist_append_left _ _).subperm.trans (h.all_genuine hinv).subperm).trans
    hinv.order.sublist.subperm)

theorem Custody.handledBy_sublist (h : Custody s) (hinv : Inv s.queue) (w : Nat) :
    s.handledBy w <+ s.queue.pushed :=
  sublist_of_map_some (((sublist_append_left _ _).trans (h.each w)).trans hinv.order.sublist)

/-- As many requests are handled as were written, each at most once, and what one worker
handles it handles in the order in which it was written. -/
theorem handled_once (hcap : maxSessions < word)
    (hstart : start maxSessions malloced clients m fds = some s)
    (hrun : Reaches step CountedTests s t) :
    (∃ cs, cs <+~ t.written ∧ Forall₂ Decodes cs (t.handled.map Prod.snd)) ∧
      ∀ w, ∃ cs, cs <+ t.written ∧ Forall₂ Decodes cs (t.handledBy w) := by
  obtain ⟨hcustody, hreading, hcounted⟩ := counted_reached hcap hstart hrun
  exact ⟨hreading.decodes_subperm (hcustody.handled_subperm hcounted.inv), fun w =>
    hreading.decodes_sublist (hcustody.handledBy_sublist hcounted.inv w)⟩

theorem handled_once_three : ∃ t : Server, t.handled.length = 2 ∧
    (∃ cs, cs <+~ t.written ∧ Forall₂ Decodes cs (t.handled.map Prod.snd)) ∧
      ∀ w, ∃ cs, cs <+ t.written ∧ Forall₂ Decodes cs (t.handledBy w) := by
  obtain ⟨t, hrun, hhandled, -⟩ := twoCalls_run
  exact ⟨t, hhandled, handled_once (by decide) (start_fresh 2) hrun⟩

theorem Calm.transit_nil (h : Calm s) {w : Nat} (hw : w < s.queue.nPoppers) : s.transit w = [] := by
  rw [transit, h.returned w hw, PcQueue.inHand]
  rcases h.dequeue w hw with hpc | hpc <;> rw [hpc] <;> rfl

/-- No request is left in the pipe. -/
theorem Reading.all_read (h : Reading s) (hcalm : Calm s) :
    Forall₂ Decodes s.written s.queue.pushed := by
  obtain ⟨read, rest, frames, hwritten, hframes, hflat, hread⟩ := h.split
  have hnone : rest = [] := by
    cases rest with
    | nil => rfl
    | cons c rest =>
      obtain ⟨frames', -, rfl⟩ :=
        frames_cons (h.fits c (hwritten ▸ mem_append_right read mem_cons_self)) hframes
      cases hcalm.pipe.symm.trans hflat
  have hempty : s.queue.entering 0 = [] := by
    rw [PcQueue.entering, hcalm.main]
    rfl
  rw [hempty, append_nil] at hread
  rw [hwritten, hnone, append_nil]
  exact hread

/-- With a worker asleep, everything that was stored is taken. -/
theorem Counted.all_taken (h : Counted s) (hmain : s.queue.nPushers = 1) (hcalm : Calm s)
    (hasleep : s.queue.PopperAsleep) : s.queue.popped = s.queue.pushed.map some := by
  have hnone : ∀ f : PusherPc Request → Bool, f .idle = false →
      Nat.count (fun p => f (s.queue.pushers p) = true) s.queue.nPushers = 0 := by
    intro f hf
    rw [hmain]
    refine FirstFit.count_zero fun p hp htrue => ?_
    obtain rfl : p = 0 := Nat.lt_one_iff.mp hp
    rw [hcalm.main, hf] at htrue
    cases htrue
  have hstored : s.queue.pushersStored = 0 := hnone _ rfl
  obtain ⟨hsize, htaken⟩ := h.attended.size_zero hasleep (hnone _ rfl) hcalm.dequeue
  have hcount := h.inv.size
  refine h.inv.order.eq_of_length ?_
  rw [length_map]
  omega

/-- While a worker sleeps and nothing is under way, every request is with a handler or
handled, however many other workers are busy. -/
theorem none_left (hcap : maxSessions < word)
    (hstart : start maxSessions malloced clients m fds = some s)
    (hrun : Reaches step CountedTests s t) (hcalm : Calm t) (hasleep : t.queue.PopperAsleep) :
    ∃ cs, cs ~ t.written ∧ Forall₂ Decodes cs (t.handled.map Prod.snd) := by
  obtain ⟨hcustody, hreading, hcounted⟩ := counted_reached hcap hstart hrun
  have htaken := hcounted.all_taken hcustody.main hcalm hasleep
  have hread := hreading.all_read hcalm
  have hall := hcustody.all_genuine hcounted.inv
  rw [total_nil fun w hw => hcalm.transit_nil hw, append_nil, htaken] at hall
  obtain ⟨cs, hdec, hcs⟩ := perm_comp_forall₂ (perm_of_map_some hall) hread.flip
  exact ⟨cs, hcs, hdec.flip⟩

theorem none_left_three : ∃ t : Server, t.handled.length = 2 ∧
    ∃ cs, cs ~ t.written ∧ Forall₂ Decodes cs (t.handled.map Prod.snd) := by
  obtain ⟨t, hrun, hhandled, hcalm, hasleep⟩ := twoCalls_run
  exact ⟨t, hhandled, none_left (by decide) (start_fresh 2) hrun hcalm hasleep⟩

/-! ## One worker -/

theorem oneEach_reached (hstart : start 1 malloced clients m fds = some s)
    (hrun : Reaches step FittingClients s t) :
    OneEach 1 t.queue ∧ Reaches step CountedTests s t := by
  have hbegin : OneEach 1 s.queue := by
    obtain ⟨queue, tfs, hqueue, -, rfl⟩ := start_eq_some hstart
    exact (oneEach_create (by decide) hqueue).1
  refine hrun.strengthen (I := fun s => OneEach 1 s.queue) hbegin fun s e t h hok hs => ?_
  have hnext : ∀ {e : Event Request} {q : PcQueue Request}, s.queue.step e = some q →
      OneEach 1 q ∧ s.queue.Claims e := fun hq =>
    ⟨(h.next (next_of_step hq)).2, h.claims (next_of_step hq)⟩
  cases moves_of_step hs with
  | write => exact ⟨h, hok⟩
  | parsed _ _ hq => exact ⟨(hnext hq).1, trivial⟩
  | queue _ _ hq => exact hnext hq
  | returns _ hq => exact hnext hq
  | _ => exact ⟨h, trivial⟩

theorem Custody.handledBy_only (h : Custody s) (hone : s.queue.nPoppers = 1) :
    s.handledBy 0 = s.handled.map Prod.snd := by
  have hall : s.handled.filter (·.1 == 0) = s.handled := by
    refine filter_eq_self.mpr fun x hx => ?_
    have hlt := h.workers x hx
    rw [hone] at hlt
    exact beq_iff_eq.mpr (Nat.lt_one_iff.mp hlt)
  rw [handledBy, hall]

/-- Nothing was lost between the queue and the worker, so what is handled is what was stored
first. -/
theorem Custody.handled_prefix (h : Custody s) (hinv : Inv s.queue) (hone : s.queue.nPoppers = 1) :
    s.handled.map Prod.snd <+: s.queue.pushed := by
  have heach := h.each 0
  rw [h.handledBy_only hone] at heach
  have hlength := (h.all_genuine hinv).length_eq
  rw [hone, total_succ, total_nil fun v hv => absurd hv (Nat.not_lt_zero v), nil_append] at hlength
  have hsame := heach.eq_of_length hlength
  have hbegins : (s.handled.map Prod.snd).map some <+: s.queue.popped := ⟨_, hsame⟩
  exact prefix_of_map_some (hbegins.trans hinv.order)

/-- With one worker the requests are handled in the order in which they were written, none
twice and none passed over; and when the worker sleeps and nothing is under way, all are. -/
theorem handled_in_order (hstart : start 1 malloced clients m fds = some s)
    (hrun : Reaches step FittingClients s t) :
    Forall₂ Decodes (t.written.take t.handled.length) (t.handled.map Prod.snd) ∧
      (Calm t → t.queue.PopperAsleep → t.handled.length = t.written.length) := by
  obtain ⟨hone, hcounting⟩ := oneEach_reached hstart hrun
  obtain ⟨hcustody, hreading, hcounted⟩ := counted_reached (by decide) hstart hcounting
  obtain ⟨later, hlater⟩ := hcustody.handled_prefix hcounted.inv hone.popper
  refine ⟨?_, fun hcalm hasleep => ?_⟩
  · obtain ⟨read, rest, frames, hwritten, -, -, hread⟩ := hreading.split
    rw [← hlater, append_assoc] at hread
    have hlength := hread.length_eq
    rw [length_append, length_map] at hlength
    have htake := forall₂_take_append _ _ _ hread
    rw [length_map] at htake
    rw [hwritten, take_append_of_le_length (by omega)]
    exact htake
  · have htaken := hcounted.all_taken hcustody.main hcalm hasleep
    have hread := (hreading.all_read hcalm).length_eq
    have hlength := (hcustody.all_genuine hcounted.inv).length_eq
    rw [total_nil fun w hw => hcalm.transit_nil hw, append_nil, htaken, length_map, length_map,
      length_map] at hlength
    exact hlength.trans hread.symm

theorem handled_in_order_one : ∃ t : Server, t.handled.length = 1 ∧
    Forall₂ Decodes (t.written.take 1) (t.handled.map Prod.snd) := by
  obtain ⟨t, hrun, hhandled⟩ := oneCall_run
  have hboth := handled_in_order (start_fresh 0) hrun
  rw [hhandled] at hboth
  exact ⟨t, hhandled, hboth.1⟩

end Runs

end Server

end MBroker
