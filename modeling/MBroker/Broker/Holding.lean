import MBroker.Broker.Guarded
import MBroker.Broker.Handles
import MBroker.Broker.Replay
import MBroker.Fs.Advances

/-!
# Locks are given back

A worker with a lock asks for no other one: TecnicoFS locks inside of its calls, and
`boxes_lock` is not taken under the lock of a box nor the other way round. What it does under
the lock ends, also the loop that sends the history: each read moves its handle, and no call
of anybody moves a handle back.

Results:
1. `Keeper.goes`: whoever has a lock has a section to run.
2. `debt_own`, `debt_beside`: each section of its own brings it nearer to giving the lock
   back, and nobody else's takes it further away.
3. `lock_given_back`: so it has a bounded number of sections left, whatever the others do.
-/

namespace MBroker

open Transition Fs

/-- How many sections a worker has left under its locks, at most, with so many bytes between
its handle and the end of the data. -/
def Pc.tasks (readable data : Nat) : Pc → Nat
  | .pubOpen .. => 3
  | .pubWrite .. => 2
  | .pubCount .. => 1
  | .historyOpen => 6 * data + 3
  | .historyTest => 6 * readable + 2
  | .historyRead => 6 * readable + 1
  | .historySendOp rest _ => 6 * readable + 2 * rest.length + 4
  | .historySendMessage rest _ => 6 * readable + 2 * rest.length + 3
  | .removeOpen => 6
  | .removeBody => 5
  | .answering writes true => writes.length + 1
  | _ => 0

namespace Broker

variable {b b' x : Broker} {v w i : Nat} {pc : Pc} {a : Answer} {t : Fs.State}

/-- The bytes between the handle of worker `v` and the end of the data of TecnicoFS. -/
def readable (b : Broker) (v : Nat) : Nat :=
  if (b.clients v).boxFd = -1 then 0
  else b.tfs.heap.data - (b.tfs.openFileTable (b.clients v).boxFd.toNat).ofOffset

def debt (b : Broker) (v : Nat) : Nat :=
  if b.stopped then 0 else (b.pcs v).tasks (b.readable v) b.tfs.heap.data

/-! ## The calls -/

theorem tfsRead_advances {s t : Fs.State} (h : Robust s) {fhandle r : Int}
    {len : Nat} {bytes : List UInt8}
    (hr : tfsRead s fhandle len = .ok (t, r, bytes)) : Fs.Advances s t := by
  cases called_read h hr with
  | refused => exact .refl s
  | @read _ fd k _ result _ _ hreread =>
    have hsame : Reread s fd (result.1, result.2.1, result.2.2) := hreread
    exact hsame.advances

theorem Calls.advances (h : Robust b.tfs) (hc : Calls b w pc t) : Fs.Advances b.tfs t := by
  cases hc with
  | pubOpen ho => exact (called_open h ho).advances (by decide)
  | pubWrite hw =>
    rcases overwritten_of_write h (messageStr_fits _) hw with rfl | ⟨fd, k, -, -, hover⟩
    · exact .refl _
    · exact hover.advances
  | historyOpen ho => exact (called_open h ho).advances (by decide)
  | historyRead hr => exact tfsRead_advances h hr
  | followRead hr => exact tfsRead_advances h hr
  | createFile ho => exact (called_open h ho).advances (by decide)
  | removeBody hu => exact (called_unlink h hu).advances

theorem step_advances (h : Robust b.tfs) (hs : b.step (w, a) = some b') :
    Fs.Advances b.tfs b'.tfs := by
  rcases step_calls hs with heq | hc
  · exact heq ▸ .refl _
  · exact hc.advances h

/-! ## The keeper of a lock -/

/-- Worker `v`, none of whose calls has failed under a lock. -/
structure Keeper (b : Broker) (v : Nat) : Prop where
  owns : Owns b v
  robust : Robust b.tfs
  worker : b.maxSessions ≤ v → b.pcs v = .idle
  /-- a subscriber that was finished has lost its handle -/
  reading : (b.pcs v).Reads = true → (b.clients v).boxFd = -1 ∨
    ∃ fd : Nat, (b.clients v).boxFd = fd ∧ b.tfs.IsOpen fd

/-- The sections of worker `v` do not fail under a lock; the others do what they like. -/
def SmoothFor (v : Nat) (b : Broker) (e : Nat × Answer) : Prop := e.1 = v → Smooth b e

theorem Owns.own (h : Owns b w) (hs : b.step (w, a) = some b') (hok : Smooth b (w, a)) :
    Owns b' w := by
  rcases step_cases hs with hends | hcrash | hgoes | hserves
  · exact hends.owns rfl hok h
  · exact hcrash.owns h
  · exact hgoes.owns rfl h
  · exact hserves.owns rfl hok h

theorem Keeper.step (h : Keeper b v) (hok : SmoothFor v b (w, a)) (hs : b.step (w, a) = some b') :
    Keeper b' v := by
  have hrobust : Robust b'.tfs := by
    rcases step_calls hs with heq | hc
    · exact heq ▸ h.robust
    · exact hc.robust h.robust
  have hadv := step_advances h.robust hs
  rcases eq_or_ne v w with rfl | hv
  · have hlt := (step_eq_some.mp hs).2.1
    refine ⟨h.owns.own hs (hok rfl), hrobust, fun hle => ?_, fun hreads => ?_⟩
    · rw [step_maxSessions hs] at hle
      exact absurd hlt (Nat.not_lt.mpr hle)
    · rcases reads_before hs hreads with ⟨hold, hsame⟩ | hopen
      · rw [hsame]
        exact (h.reading hold).imp_right fun ⟨fd, hfd, hopen⟩ => ⟨fd, hfd, hadv.opened fd hopen⟩
      · have hopened := called_open h.robust hopen
        rcases opened_entries hopened with ⟨hminus, -⟩ | ⟨j, hj, -⟩
        · exact .inl hminus
        · have hhandle := hopened.handle_open (hj ▸ Int.natCast_nonneg j)
          rw [hj, Int.toNat_natCast] at hhandle
          exact .inr ⟨j, hj, hhandle⟩
  · have hstays := step_others hs hv
    refine ⟨h.owns.beside hs hv, hrobust, fun hle => ?_, fun hreads => ?_⟩
    · rw [step_maxSessions hs] at hle
      exact hstays.keep (P := (· = .idle)) (fun _ _ => nofun) (h.worker hle)
    · have hold : (b.pcs v).Reads = true := by
        rcases hstays with hsame | ⟨i, n, hasleep, -⟩
        · rwa [hsame] at hreads
        · rw [hasleep]
          rfl
      rcases step_recorded hs hv with hsame | ⟨-, hlost⟩
      · rw [hsame]
        exact (h.reading hold).imp_right fun ⟨fd, hfd, hopen⟩ => ⟨fd, hfd, hadv.opened fd hopen⟩
      · exact .inl hlost

theorem Keeper.reached {b₀ : Broker} (h : Keeper b₀ v)
    (hrun : Reaches Broker.step (SmoothFor v) b₀ b) : Keeper b v :=
  hrun.invariant (I := fun b => Keeper b v) h fun _ _ _ hkeeps hok hs => hkeeps.step hok hs

theorem Keeper.of_start (maxSessions : Nat) (clients : Nat → Client) (m : Malloc)
    (fds : Nat → Bool) (v : Nat) :
    Keeper (.start maxSessions clients m fds) v where
  owns := ⟨nofun, nofun, nofun⟩
  robust := initial_robust brokerParams_inRange.usable
  worker _ := rfl
  reading hreads := by cases hreads

/-! ## What is left to do -/

theorem tasks_pos (h : pc.Locked = true) (readable data : Nat) : 0 < pc.tasks readable data := by
  cases pc with
  | answering writes locked =>
    cases locked with
    | true => exact Nat.succ_pos _
    | false => cases h
  | _ => first | exact Nat.succ_pos _ | cases h

theorem tasks_zero (h : pc.Locked = false) (readable data : Nat) : pc.tasks readable data = 0 := by
  cases pc with
  | answering writes locked =>
    cases locked with
    | true => cases h
    | false => rfl
  | _ => first | rfl | cases h

theorem readable_le (b : Broker) (v : Nat) : b.readable v ≤ b.tfs.heap.data := by
  unfold readable
  split
  · exact Nat.zero_le _
  · exact Nat.sub_le ..

theorem readable_congr (hfd : (x.clients v).boxFd = (b.clients v).boxFd) (ht : x.tfs = b.tfs) :
    x.readable v = b.readable v := by
  unfold readable
  rw [hfd, ht]

/-- A read of the history leaves that much less to read. -/
theorem readable_read (h : Robust b.tfs) {r : Int} {bytes : List UInt8} {len : Nat}
    (hr : tfsRead b.tfs (b.clients v).boxFd len = .ok (t, r, bytes)) (hpos : 0 < r) :
    bytes ≠ [] ∧ ({ b with tfs := t } : Broker).readable v + bytes.length = b.readable v := by
  obtain ⟨fd, hfd, hne, hmoved, hend⟩ := tfsRead_moves h hr hpos
  have hheap := (tfsRead_advances h hr).heap
  refine ⟨hne, ?_⟩
  unfold readable
  dsimp only
  rw [hfd, if_neg (by omega), if_neg (by omega), Int.toNat_natCast, hmoved, hheap]
  omega

/-- Each section of a session under a lock brings its end nearer. -/
theorem Continues.tasks_lt (h : Continues b v pc x) (hrobust : Robust b.tfs)
    (hlock : pc.Locked = true) :
    (x.pcs v).tasks (x.readable v) x.tfs.heap.data < pc.tasks (b.readable v) b.tfs.heap.data := by
  have hends : ∀ {y : Broker} {next : Pc}, next.Locked = false →
      ((y.setPc v next).pcs v).tasks ((y.setPc v next).readable v) (y.setPc v next).tfs.heap.data
        < pc.tasks (b.readable v) b.tfs.heap.data := by
    intro y next hfree
    rw [setPc_self, tasks_zero hfree]
    exact tasks_pos hlock _ _
  cases h with
  | @pubOpen i message t fhandle =>
    rw [setPc_self]
    exact Nat.lt_succ_self 2
  | @pubWrite i message =>
    rw [setPc_self]
    exact Nat.lt_succ_self 1
  | pubCount => exact hends rfl
  | @historyOpen t fhandle ho hpos =>
    have hle := readable_le
      ((({ b with tfs := t } : Broker).setClient v { b.clients v with boxFd := fhandle }).setPc v
      .historyTest) v
    have hheap := (called_open hrobust ho).advances (by decide) |>.heap
    rw [setPc_self]
    show 6 * _ + 2 < 6 * _ + 3
    replace hle : _ ≤ t.heap.data := hle
    rw [hheap] at hle
    omega
  | historyTest =>
    rw [setPc_self]
    exact Nat.lt_succ_self _
  | historyNone => exact hends rfl
  | @historyRead t r bytes hr hpos =>
    obtain ⟨hne, hless⟩ := readable_read hrobust hr hpos
    have hlength := List.length_pos_iff.mpr hne
    rw [setPc_self]
    show 6 * ({ b with tfs := t } : Broker).readable v + 2 * bytes.length + 4 < 6 * b.readable v + 1
    omega
  | historyEnd => exact hends rfl
  | @historySendOp rest n y _ _ hx =>
    obtain ⟨sent, rfl⟩ := emit_sent hx
    rw [setPc_self]
    exact Nat.lt_succ_self _
  | @historyNext rest n y hx hmore =>
    obtain ⟨sent, rfl⟩ := emit_sent hx
    have hlength := List.length_pos_iff.mpr hmore
    rw [List.length_drop] at hlength
    rw [setPc_self]
    show 6 * b.readable v + 2 * (rest.drop _).length + 4 < 6 * b.readable v + 2 * rest.length + 3
    rw [List.length_drop]
    omega
  | @historyLast rest n y hx =>
    obtain ⟨sent, rfl⟩ := emit_sent hx
    have hsame : ((({ b with sent := sent } : Broker).setClient v
        { b.clients v with offset := (b.clients v).offset + n }).setPc v .historyTest).readable v
          = b.readable v :=
      readable_congr (field_setClient (b := { b with sent := sent }) (w := v)
        (c := { b.clients v with offset := (b.clients v).offset + n }) Client.boxFd rfl) rfl
    rw [setPc_self, hsame]
    show 6 * b.readable v + 2 < 6 * b.readable v + 2 * rest.length + 3
    omega
  | _ => cases hlock

theorem Serves.tasks_lt (h : Serves b v pc a x) (hlock : pc.Locked = true) :
    x.stopped = true ∨ (x.pcs v).tasks (x.readable v) x.tfs.heap.data
      < pc.tasks (b.readable v) b.tfs.heap.data := by
  have hends : ∀ {y : Broker} {next : Pc}, next.Locked = false →
      ((y.setPc v next).pcs v).tasks ((y.setPc v next).readable v) (y.setPc v next).tfs.heap.data
        < pc.tasks (b.readable v) b.tfs.heap.data := by
    intro y next hfree
    rw [setPc_self, tasks_zero hfree]
    exact tasks_pos hlock _ _
  cases h with
  | @opened pc next _ fd hnext =>
    right
    cases pc with
    | removeOpen =>
      obtain rfl := Option.some.inj hnext
      rw [setPc_self]
      exact Nat.lt_succ_self 5
    | _ => first | (cases hnext; done) | cases hlock
  | removeNotOpened => exact .inr (hends rfl)
  | removeBody =>
    have hanswers : ∀ {y : Broker} {code : Int} {msg : String},
        ((y.setPc v (.answering (answer opCodeRemoveBoxAnswer code msg) true)).pcs v).tasks
          (y.readable v)
          y.tfs.heap.data
          < Pc.tasks (b.readable v) b.tfs.heap.data .removeBody := by
      intro y code msg
      rw [setPc_self]
      exact Nat.lt_succ_self 4
    generalize hx : b.removeBody v = x
    have hremoves := removeBody_removes b v
    rw [hx] at hremoves
    cases hremoves with
    | absent => exact .inr hanswers
    | unfinished => exact .inr (hends rfl)
    | crash => exact .inl rfl
    | notUnlinked => exact .inr (hends rfl)
    | removed => exact .inr hanswers
  | @answering bytes writes locked y hy =>
    obtain ⟨sent, rfl⟩ := emit_sent hy
    cases locked with
    | false => cases hlock
    | true =>
      right
      rw [setPc_self]
      exact Nat.lt_succ_self _
  | notAnswered hy =>
    obtain ⟨sent, rfl⟩ := emit_sent hy
    exact .inr (hends rfl)
  | @answered locked => exact .inr (hends rfl)
  | notOpened hpc =>
    rcases hpc with rfl | rfl <;> cases hlock
  | _ => cases hlock

theorem debt_of_running (h : b.stopped = false) :
    b.debt v = (b.pcs v).tasks (b.readable v) b.tfs.heap.data :=
  if_neg (by rw [h]; decide)

theorem debt_own (hrobust : Robust b.tfs) (hs : b.step (v, a) = some b')
    (hlock : (b.pcs v).Locked = true) :
    b'.debt v < b.debt v := by
  have hrunning := (step_eq_some.mp hs).1
  rw [debt_of_running hrunning, debt]
  split
  · exact tasks_pos hlock _ _
  · next hgoing =>
    rcases step_cases hs with hends | hcrash | hgoes | hserves
    · obtain ⟨r, hret⟩ := hends.returns
      rw [hret]
      exact tasks_pos hlock _ _
    · exact absurd hcrash.stops hgoing
    · exact hgoes.tasks_lt hrobust hlock
    · exact hserves.tasks_lt hlock |>.resolve_left hgoing

theorem tasks_mono {r r' : Nat} (hle : r ≤ r') (pc : Pc) (data : Nat) :
    pc.tasks r data ≤ pc.tasks r' data := by
  cases pc with
  | answering writes locked => cases locked <;> exact Nat.le_refl _
  | _ =>
    dsimp only [Pc.tasks]
    omega

/-- Only a reader has something to read. -/
theorem tasks_of_not_reads (h : pc.Reads = false) (r r' data : Nat) :
    pc.tasks r data = pc.tasks r' data := by
  cases pc with
  | answering writes locked => cases locked <;> rfl
  | _ => first | rfl | cases h

theorem Keeper.readable_beside (h : Keeper b v) (hs : b.step (w, a) = some b') (hv : v ≠ w)
    (hreads : (b.pcs v).Reads = true) : b'.readable v ≤ b.readable v := by
  have hadv := step_advances h.robust hs
  unfold readable
  rcases step_recorded hs hv with hsame | ⟨-, hlost⟩
  · rw [hsame, hadv.heap]
    split
    · exact Nat.le_refl _
    · next hne =>
      obtain ⟨fd, hfd, hopen⟩ := (h.reading hreads).resolve_left hne
      rw [hfd, Int.toNat_natCast]
      exact Nat.sub_le_sub_left (hadv.offset fd hopen) _
  · rw [if_pos hlost]
    exact Nat.zero_le _

theorem Keeper.debt_beside (h : Keeper b v) (hs : b.step (w, a) = some b') (hv : v ≠ w)
    (hlock : (b.pcs v).Locked = true) : b'.debt v ≤ b.debt v := by
  have hrunning := (step_eq_some.mp hs).1
  have hsame : b'.pcs v = b.pcs v := by
    rcases step_others hs hv with hsame | ⟨i, n, hasleep, -⟩
    · exact hsame
    · rw [hasleep] at hlock
      cases hlock
  rw [debt_of_running hrunning, debt, hsame, (step_advances h.robust hs).heap]
  split
  · exact Nat.zero_le _
  · cases hreads : (b.pcs v).Reads with
    | true => exact tasks_mono (h.readable_beside hs hv hreads) _ _
    | false => exact Nat.le_of_eq (tasks_of_not_reads hreads ..)

/-! ## Giving back -/

theorem Keeper.locked (h : Keeper b v) (hheld : ¬ b.HoldsNothing v) : (b.pcs v).Locked = true := by
  by_contra hfree
  exact hheld (h.owns.holdsNothing (Bool.eq_false_of_not_eq_true hfree))

/-- A worker with a lock does not wait for another one. -/
theorem Keeper.goes (h : Keeper b v) (hrunning : b.stopped = false) (hheld : ¬ b.HoldsNothing v) :
    ∃ a b', b.step (v, a) = some b' := by
  have hlock := h.locked hheld
  have hlt : v < b.maxSessions := by
    by_contra hle
    rw [h.worker (Nat.not_lt.mp hle)] at hlock
    cases hlock
  have hemit : ∀ bytes, b.emit v bytes .error = some b := by
    intro bytes
    unfold emit
    split
    · rfl
    · exact if_pos rfl
  suffices ∃ a b', b.stepWorker v (b.pcs v) a = some b' by
    obtain ⟨a, b', hs⟩ := this
    exact ⟨a, b', step_eq_some.mpr ⟨hrunning, hlt, hs⟩⟩
  generalize b.pcs v = pc at hlock
  cases pc with
  | pubOpen => exact ⟨.none, _, rfl⟩
  | pubWrite => exact ⟨.none, _, rfl⟩
  | pubCount => exact ⟨.none, _, rfl⟩
  | historyOpen => exact ⟨.none, _, rfl⟩
  | historyTest => exact ⟨.none, _, rfl⟩
  | historyRead => exact ⟨.none, _, rfl⟩
  | historySendOp rest n =>
    refine ⟨.wrote .error, ?_⟩
    show ∃ b', b.historySendOp v rest n .error = some b'
    unfold Broker.historySendOp
    split
    · exact ⟨_, rfl⟩
    · rw [hemit]
      exact ⟨_, rfl⟩
  | historySendMessage rest n =>
    refine ⟨.wrote .error, ?_⟩
    show ∃ b', b.historySendMessage v rest n .error = some b'
    rw [Broker.historySendMessage, hemit]
    exact ⟨_, rfl⟩
  | removeOpen => exact ⟨.opened (b.clients v).clientPipename.str none, _, if_pos (opens_self b v)⟩
  | removeBody => exact ⟨.none, _, rfl⟩
  | answering writes locked =>
    cases writes with
    | nil => exact ⟨.none, _, rfl⟩
    | cons bytes writes =>
      refine ⟨.wrote .error, ?_⟩
      show ∃ b', b.answering v bytes writes locked .error = some b'
      rw [Broker.answering, hemit]
      exact ⟨_, rfl⟩
  | _ => cases hlock

/-- The sections of the others are any; those of `v` do not fail under a lock. If worker `v` has
a lock, it never waits for another one, and it gives its locks back before it has made more than
`debt` sections, whatever the others do in between. -/
theorem lock_given_back {maxSessions : Nat} {clients : Nat → Client} {m : Malloc} {fds : Nat → Bool}
    (hrun : Reaches Broker.step (SmoothFor v) (.start maxSessions clients m fds) b)
    (hrunning : b.stopped = false)
    (hheld : ¬ b.HoldsNothing v) :
    (∃ a b', b.step (v, a) = some b') ∧ ∀ es x, exec Broker.step b es = some x →
      execOk Broker.step (SmoothFor v) b es → b.debt v < es.countP (·.1 == v) →
        ∃ es' y, es' <+: es ∧ exec Broker.step b es' = some y ∧ y.HoldsNothing v := by
  have hkeeper := (Keeper.of_start maxSessions clients m fds v).reached hrun
  refine ⟨hkeeper.goes hrunning hheld, fun es x hexec hok hmany => ?_⟩
  rcases execOk_or_leaves (P := fun b => ¬ b.HoldsNothing v) hexec hok
    with hstays | ⟨es', y, hprefix, hy, hleft⟩
  · have hfew := countP_le_rank (fun b => b.debt v) (·.1 == v) (Keeper · v) hexec hstays hkeeper
      (fun _ _ _ hk hok hs => hk.step hok.1 hs) (fun b e b' hk hok hs hmine => ?_)
        (fun b e b' hk hok hs hother => ?_)
    · exact absurd hmany (by omega)
    · obtain rfl := beq_iff_eq.mp hmine
      exact debt_own hk.robust hs (hk.locked hok.2)
    · have hv : v ≠ e.1 := fun h => by rw [h, beq_self_eq_true] at hother; cases hother
      exact hk.debt_beside hs hv (hk.locked hok.2)
  · exact ⟨es', y, hprefix, hy, not_not.mp hleft⟩

/-- Worker 0 removes a box that does not exist, while worker 1 waits for `boxes_lock`. -/
def removing : Broker :=
  ({ (fresh 2).dequeued 0 (sampleRequest opCodeRemoveBox) with boxesLock := some 0 } : Broker).setPc
    0 .removeOpen

def removeAbsentBox : List (Nat × Answer) :=
  [(0, .opened samplePath (some 3)), (1, .request (sampleRequest opCodeCreateBox)),
    (0, .none), (0, .wrote (.wrote 1)),
    (0, .wrote (.wrote 4)), (0, .wrote (.wrote messageLength)), (0, .none), (0, .none)]

theorem answering_next {bytes : List UInt8} {writes : List (List UInt8)} {locked : Bool}
    (hpc : b.pcs w = .answering (bytes :: writes) locked)
    (hs : b.step (w, .wrote (.wrote bytes.length)) = some b') :
    b'.pcs w = .answering writes locked := by
  have hserves := step_serves hs (by rw [hpc]; rfl)
  rw [hpc] at hserves
  cases hserves with
  | answering => exact setPc_self ..
  | notAnswered _ hne => exact absurd rfl hne

theorem answered_next {locked : Bool} (hpc : b.pcs w = .answering [] locked)
    (hs : b.step (w, .none) = some b') :
    ∃ r, b'.pcs w = .ret r := by
  have hserves := step_serves hs (by rw [hpc]; rfl)
  rw [hpc] at hserves
  cases hserves
  exact ⟨_, setPc_self ..⟩

theorem removeAbsentBox_smooth : execOk Broker.step (SmoothFor 0) removing removeAbsentBox := by
  have hlength : (errorBytes "Box does not exist").length = messageLength := length_zeroPadded ..
  refine ⟨fun _ => trivial, fun t ht => ⟨nofun, ?_⟩⟩
  obtain rfl := Option.some.inj ht
  refine fun t ht => ?_
  obtain rfl := Option.some.inj ht
  refine ⟨fun _ hfound => absurd rfl hfound, fun t ht => ?_⟩
  obtain rfl := Option.some.inj ht
  refine ⟨fun _ => rfl, fun t ht => ?_⟩
  obtain rfl := Option.some.inj ht
  refine ⟨fun _ => rfl, fun t ht => ?_⟩
  obtain rfl := Option.some.inj ht
  refine ⟨fun _ => congrArg (fun n => Answer.wrote (.wrote n)) hlength.symm, fun t ht => ?_⟩
  rw [← hlength] at ht
  have hpc := answering_next rfl ht
  refine ⟨fun _ => ?_, fun u hu => ⟨fun _ => ?_, fun _ _ => trivial⟩⟩
  · rw [Smooth, hpc]
    trivial
  · obtain ⟨r, hret⟩ := answered_next hpc hu
    rw [Smooth, hret]
    trivial

theorem lock_given_back_removal :
    ∃ es x, exec Broker.step removing es = some x ∧ x.pcs 1 = .createLock ∧
    ∃ es' y, es' <+: es ∧ exec Broker.step removing es' = some y ∧ y.HoldsNothing 0 := by
  have hrun : (exec Broker.step removing removeAbsentBox).any fun x =>
    x.pcs 1 = .createLock := by decide +kernel
  obtain ⟨x, hrun, hx⟩ := (Option.any_eq_true _ _).mp hrun
  have hstart : Reaches Broker.step (SmoothFor 0) (fresh 2) removing :=
    .next (e := (0, .none)) (.next (e := (0, .request (sampleRequest opCodeRemoveBox)))
      .refl (fun _ => trivial) rfl)
      (fun _ => trivial) rfl
  have hgiven := (lock_given_back hstart rfl (fun h => h.1 rfl)).2 removeAbsentBox x
    hrun removeAbsentBox_smooth
    (by decide +kernel)
  exact ⟨removeAbsentBox, x, hrun, of_decide_eq_true hx, hgiven⟩

end Broker

end MBroker
