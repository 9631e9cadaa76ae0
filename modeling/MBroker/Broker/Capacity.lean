import MBroker.Broker.Visits

/-!
# How many boxes TecnicoFS holds

`main` gives TecnicoFS as many inodes and as many open file entries as there are
slots in `boxes`. The root directory takes one of the inodes, and every create
request takes an open file entry that nobody gives back.

Results:
1. `Counted.create`, `Counted.remove`: while 63 boxes have files and fewer than 64
   creates were served, a request is carried out.
2. `capacity_agrees`: so it is in every sequence of requests that keeps to this.
3. `sixty_fourth_box`: the 64th box is added to the table, and its file cannot be
   created.
-/

namespace MBroker

open FirstFit Transition Fs

namespace Broker

/-- A visit, which is then written down. -/
def logged (s : Broker × List Visit) (v : Visit) : Option (Broker × List Visit) :=
  (s.1.visit v).map fun b => (b, v :: s.2)

/-- How many create requests were served. -/
def creates (log : List Visit) : Nat := log.countP fun v => v.request.opcode == opCodeCreateBox

variable {b b' y : Broker} {s : Broker × List Visit} {v : Visit} {code result : Int}

/-- A request with a valid name for a worker that has served nothing before; creates
are for new boxes, of which there are never more than `MAX_BOXES`. -/
structure Lawful (s : Broker × List Visit) (v : Visit) : Prop extends Admits s.1 v where
  unserved : ∀ u ∈ s.2, u.worker ≠ v.worker
  valid : validPathname (some v.boxName) = true
  absent : v.request.opcode = opCodeCreateBox → ¬ s.1.HasBox v.boxName
  below : v.request.opcode = opCodeCreateBox → s.1.numBoxes < maxBoxes

/-- Moreover TecnicoFS has room for a new box. The memory that `malloc` gave for the
records does not hold the name of the box that is removed, or -1 for its handle. -/
structure Roomy (s : Broker × List Visit) (v : Visit) : Prop extends Lawful s v where
  handles : v.request.opcode = opCodeCreateBox → creates s.2 < maxBoxes
  inodes : v.request.opcode = opCodeCreateBox → s.1.numBoxes + 1 < maxBoxes
  granted : v.request.opcode = opCodeCreateBox → v.malloced = true
  record : v.request.opcode = opCodeRemoveBox → (s.1.clients v.worker).boxFd ≠ -1
  others : v.request.opcode = opCodeRemoveBox → ∀ w < s.1.maxSessions, w ≠ v.worker →
    (∀ u ∈ s.2, u.worker ≠ w) → (s.1.clients w).boxName.str ≠ v.boxName

/-- A create adds its box, a remove of a box that is there removes it, and the answer
says so. -/
def Fulfilled (b : Broker) (v : Visit) : Prop :=
  ∃ b', b.serve v.worker v.request v.fd v.malloced = some b' ∧
    (v.request.opcode = opCodeCreateBox → BoxAdded b b' v.request.boxName ∧
      ∃ msg, b'.output v.worker v.fd = (answer opCodeCreateBoxAnswer 0 msg).flatten) ∧
    (v.request.opcode = opCodeRemoveBox → b.HasBox v.boxName → BoxRemoved b b' v.request.boxName ∧
      ∃ msg, b'.output v.worker v.fd = (answer opCodeRemoveBoxAnswer 0 msg).flatten)

/-! ## What the visits have used up -/

structure Counted (s : Broker × List Visit) : Prop where
  tidy : Tidy s.1
  running : s.1.stopped = false
  idle : ∀ w, s.1.pcs w = .idle
  handles : Nat.count (fun j => s.1.tfs.freeOpenFileEntries j = .taken) maxBoxes = creates s.2
  cleared : ∀ u ∈ s.2, (s.1.clients u.worker).boxName.str = .empty

theorem Counted.freeHandle (h : Counted s) (hlt : creates s.2 < maxBoxes) :
    s.1.tfs.freeHandle ≠ none := by
  intro hnone
  have hfull : Nat.count (fun j => s.1.tfs.freeOpenFileEntries j = .taken) maxBoxes = maxBoxes := by
    refine (firstIndex_none_iff_count fun _ => AllocationState.taken_iff).mp ?_
    rw [← hnone, State.freeHandle, h.tidy.params]
    rfl
  rw [h.handles] at hfull
  omega

theorem Tidy.freeInode_iff (h : Tidy b) : b.tfs.freeInode = none ↔ b.numBoxes + 1 = maxBoxes := by
  rw [freeInode_eq_none_iff h.wf h.table h.named, h.params]
  rfl

theorem Tidy.freeSlot (h : Tidy b) : b.tfs.freeSlot ≠ none := by
  refine freeSlot_ne_none h.wf (fun n => (h.named.files n).mp) ?_
  rw [State.maxDirEntries, h.params]
  decide

/-- The worker goes back to its loop. -/
theorem Outcome.visited (h : Outcome b v code 0 y) (ha : Admits b v) :
    ∃ c sent, c.boxName.str = .empty ∧ b.visit v = some (y.place v.worker c .idle sent) := by
  obtain ⟨c, msg, hempty, hserve⟩ := h.served
  have hstop : y.stopped = false := by rw [h.frame]; exact ha.running
  have hw : v.worker < y.maxSessions := by rw [h.frame]; exact ha.worker
  have hback : ∀ sent, (y.place v.worker c (.ret 0) sent).step (v.worker, .none)
      = some (y.place v.worker c .idle sent) := by
    intro sent
    rw [step_of (b := y.place v.worker c (.ret 0) sent) hstop hw, place_pcs]
    exact congrArg some place_setPc
  have hvisit := congrArg (fun x => x.bind fun z => z.step (v.worker, .none)) hserve
  exact ⟨c, _, hempty rfl, hvisit.trans (hback _)⟩

/-- The worker of `v` has served its request. -/
theorem Counted.next (h : Counted s) (ha : Admits s.1 v) (hun : ∀ u ∈ s.2, u.worker ≠ v.worker)
    (hy : Outcome s.1 v code 0 y)
    (hcount : Nat.count (fun j => y.tfs.freeOpenFileEntries j = .taken) maxBoxes
      = creates (v :: s.2)) :
    ∃ c sent, logged s v = some (y.place v.worker c .idle sent, v :: s.2) ∧
      Counted (y.place v.worker c .idle sent, v :: s.2) := by
  obtain ⟨c, sent, hempty, hvisit⟩ := hy.visited ha
  have hpcs : y.pcs = s.1.pcs := by rw [hy.frame]
  have hclients : y.clients = s.1.clients := by rw [hy.frame]
  refine ⟨c, sent, by rw [logged, hvisit]; rfl, ?_, ?_, fun w => ?_, hcount, fun u hu => ?_⟩
  · exact hy.tidy.of_same hy.tidy.lock rfl ⟨rfl, rfl, fun _ => rfl⟩
  · rw [show (y.place v.worker c .idle sent).stopped = y.stopped from rfl, hy.frame]
    exact h.running
  · rcases eq_or_ne w v.worker with rfl | hne
    · exact place_pcs
    · exact (Function.update_of_ne hne ..).trans (congrFun hpcs w |>.trans (h.idle w))
  · rcases List.mem_cons.mp hu with rfl | hold
    · rw [place_clients]
      exact hempty
    · have hother : (y.place v.worker c .idle sent).clients u.worker = s.1.clients u.worker :=
        (Function.update_of_ne (hun u hold) ..).trans (congrFun hclients _)
      rw [hother]
      exact h.cleared u hold

/-- A create request that finds room. -/
theorem Counted.create (h : Counted s) (hv : Roomy s v) (hop : v.request.opcode = opCodeCreateBox) :
    ∃ y, Outcome s.1 v 0 0 y ∧ BoxAdded s.1 y v.request.boxName ∧
      Nat.count (fun j => y.tfs.freeOpenFileEntries j = .taken) maxBoxes = creates (v :: s.2) := by
  have hcan : s.1.tfs.CanOpen v.boxName := by
    refine ⟨hv.valid, h.freeHandle (hv.handles hop), Or.inr ⟨fun hnone => ?_, h.tidy.freeSlot⟩⟩
    have hfull := h.tidy.freeInode_iff.mp hnone
    have hroom := hv.inodes hop
    omega
  have hn : s.1.numBoxes ≠ maxBoxes := by
    have hbelow := hv.below hop
    omega
  obtain ⟨code, y, hy, ⟨j, hj, hentries⟩, hcase⟩ :=
    h.tidy.create hv.toAdmits hop hcan (Or.inr ⟨hn, hv.granted hop⟩)
  obtain ⟨-, rfl, hadded⟩ := hcase.resolve_left fun hthere =>
    hv.absent hop ((h.tidy.table.hasBox (ne_empty_of_valid hv.valid)).mpr hthere.1)
  refine ⟨y, hy, hadded, ?_⟩
  obtain ⟨hlt, hfree, -⟩ := firstIndex_eq_some.mp hj
  rw [h.tidy.params] at hlt
  have hgain : Nat.count (fun k => y.tfs.freeOpenFileEntries k = .taken) maxBoxes
      = Nat.count (fun k => s.1.tfs.freeOpenFileEntries k = .taken) maxBoxes + 1 := by
    refine count_gain hlt (fun ht => ?_) (by rw [hentries, Function.update_self]) fun k _ hk => by
      rw [hentries, Function.update_of_ne hk]
    rw [ht] at hfree
    cases hfree
  rw [hgain, h.handles, creates, creates, List.countP_cons_of_pos (by simp [hop])]

theorem creates_remove (hop : v.request.opcode = opCodeRemoveBox) (log : List Visit) :
    creates (v :: log) = creates log := by
  refine List.countP_cons_of_neg ?_
  rw [hop]
  decide

/-- A remove request for a box that is there. -/
theorem Counted.remove (h : Counted s) (hv : Roomy s v) (hop : v.request.opcode = opCodeRemoveBox)
    (hbox : s.1.HasBox v.boxName) :
    ∃ y, Outcome s.1 v 0 0 y ∧ BoxRemoved s.1 y v.request.boxName ∧
      Nat.count (fun j => y.tfs.freeOpenFileEntries j = .taken) maxBoxes = creates (v :: s.2) := by
  have hno : ∀ w < s.1.maxSessions, w ≠ v.worker → (s.1.clients w).boxName.str ≠ v.boxName := by
    intro w hw hne
    by_cases hserved : ∀ u ∈ s.2, u.worker ≠ w
    · exact hv.others hop w hw hne hserved
    · simp only [not_forall, not_not] at hserved
      obtain ⟨u, hu, rfl⟩ := hserved
      rw [h.cleared u hu]
      exact (ne_empty_of_valid hv.valid).symm
  have hzero : s.1.removeResult v = 0 := if_neg (hv.record hop)
  obtain ⟨y, hy, hremoved, hentries⟩ := h.tidy.remove_present hv.toAdmits hop hbox hno
  rw [hzero] at hy
  refine ⟨y, hy, hremoved, ?_⟩
  rw [hentries, h.handles, creates_remove hop]

theorem Counted.fulfilled (h : Counted s) (hv : Roomy s v) :
    Fulfilled s.1 v ∧ ∃ s', logged s v = some s' ∧ Counted s' := by
  rcases hv.opcode with hop | hop
  · obtain ⟨y, hy, hadded, hcount⟩ := h.create hv hop
    obtain ⟨c, sent, hlogged, hnext⟩ := h.next hv.toAdmits hv.unserved hy hcount
    obtain ⟨c', msg, -, hserve⟩ := hy.served
    have hanswer : answerOpcode v.request.opcode = opCodeCreateBoxAnswer := if_pos hop
    refine ⟨⟨_, hserve, fun _ => ⟨hadded, msg, ?_⟩, fun hrem => absurd hrem (create_ne_remove hop)⟩,
      _, hlogged, hnext⟩
    rw [output_of_sent place_sent, hanswer]
  · by_cases hbox : s.1.HasBox v.boxName
    · obtain ⟨y, hy, hremoved, hcount⟩ := h.remove hv hop hbox
      obtain ⟨c, sent, hlogged, hnext⟩ := h.next hv.toAdmits hv.unserved hy hcount
      obtain ⟨c', msg, -, hserve⟩ := hy.served
      refine ⟨⟨_, hserve, fun hc => absurd hop (create_ne_remove hc),
        fun _ _ => ⟨hremoved, msg, ?_⟩⟩,
        _, hlogged, hnext⟩
      rw [output_of_sent place_sent, opcode_remove hop]
    · have habsent : s.1.getBox v.boxName = none := by
        by_contra hg
        exact hbox ((h.tidy.table.hasBox (ne_empty_of_valid hv.valid)).mpr hg)
      have hy := h.tidy.remove_absent hv.toAdmits hop habsent
      rw [removeResult, if_neg (hv.record hop)] at hy
      have hcount := h.handles.trans (creates_remove hop s.2).symm
      obtain ⟨c, sent, hlogged, hnext⟩ := h.next hv.toAdmits hv.unserved hy hcount
      obtain ⟨c', msg, -, hserve⟩ := hy.served
      exact ⟨⟨_, hserve, fun hc => absurd hop (create_ne_remove hc), fun _ hb => absurd hb hbox⟩,
        _, hlogged, hnext⟩

theorem Counted.of_start {maxSessions : Nat} {clients : Nat → Client} {m : Fs.Malloc}
    {fds : Nat → Bool} : Counted (start maxSessions clients m fds, []) where
  tidy := .of_start
  running := rfl
  idle _ := rfl
  handles := count_zero fun j hj ht => by
    rw [show (start maxSessions clients m fds,
      ([] : List Visit)).1.tfs.freeOpenFileEntries j = .free
      from tfsStart_handle hj] at ht
    cases ht
  cleared u hu := nomatch hu

/-- In every sequence of requests that keeps to what TecnicoFS has room for, every
create adds its box and every remove of a box removes it, and the answers say so. -/
theorem capacity_agrees (maxSessions : Nat) (clients : Nat → Client) (m : Fs.Malloc)
    (fds : Nat → Bool) (hrun : Reaches logged Roomy (start maxSessions clients m fds, []) s)
    (hv : Roomy s v) : Fulfilled s.1 v := by
  have hcounted : Counted s := by
    refine hrun.invariant .of_start fun t u t' h hmeets hs => ?_
    obtain ⟨-, x, hx, hnext⟩ := h.fulfilled hmeets
    exact Option.some.inj (hx.symm.trans hs) ▸ hnext
  exact (hcounted.fulfilled hv).1

theorem sample_roomy : Roomy (fresh 1, []) sampleVisit := by
  have hadmits : Admits (fresh 1) sampleVisit := fresh_admits (Or.inl rfl)
  have habsent : (fresh 1).getBox sampleVisit.boxName = none := fresh_getBox (by decide) 1
  have hlawful : Lawful (fresh 1, []) sampleVisit :=
    ⟨hadmits, fun _ hu => (nomatch hu), by decide, fun _ hbox => hbox.getBox habsent,
      fun _ => by decide⟩
  refine ⟨hlawful,
    fun _ => by decide, fun _ => by decide, fun _ => rfl, fun hop => ?_, fun hop => ?_⟩
  · exact absurd hop (by decide)
  · exact absurd hop (by decide)

theorem capacity_agrees_first : Fulfilled (fresh 1) sampleVisit :=
  capacity_agrees 1 (fun _ => zeroClient) .zeros (fun _ => false)
    (s := (fresh 1, [])) .refl sample_roomy

/-! ## The 64th box -/

/-- 64 different names. -/
def nameAt (k : Nat) : CharArray 32 :=
  .ofStr (.ofBytes [47, UInt8.ofNat (k + 1)])
    (Nat.lt_of_le_of_lt (CStr.length_ofBytes_le _) (show 2 < 32 by decide))

theorem nameAt_valid : ∀ k < 64, validPathname (some (nameAt k).str) = true := by decide +kernel

theorem nameAt_inj : ∀ k < 64, ∀ j < 64, (nameAt k).str = (nameAt j).str → k = j := by
  decide +kernel

/-- Worker `k` is asked for box `k`. -/
def fillVisit (k : Nat) : Visit :=
  ⟨k, { sampleRequest opCodeCreateBox with boxName := nameAt k }, 3, true⟩

/-- The first `k` boxes were created. -/
structure Filled (k : Nat) (s : Broker × List Visit) : Prop extends Counted s where
  run : Reaches logged Lawful (fresh 64, []) s
  maxSessions : s.1.maxSessions = 64
  fds : s.1.fds 3 = false
  creates : creates s.2 = k
  numBoxes : s.1.numBoxes = k
  boxes : ∀ q, s.1.HasBox q → ∃ j < k, q = (nameAt j).str
  workers : ∀ u ∈ s.2, u.worker < k

theorem Filled.lawful {k : Nat} (h : Filled k s) (hk : k < 64) : Lawful s (fillVisit k) where
  running := h.running
  worker := by rw [h.maxSessions]; exact hk
  idle := h.idle _
  fd := h.fds
  opcode := Or.inl rfl
  unserved u hu := Nat.ne_of_lt (h.workers u hu)
  valid := nameAt_valid k hk
  absent _ hbox := by
    obtain ⟨j, hj, heq⟩ := h.boxes _ hbox
    exact Nat.ne_of_gt hj (nameAt_inj k hk j (hj.trans hk) heq)
  below _ := by
    rw [h.numBoxes]
    exact Int.ofNat_lt.mpr hk

theorem filled (k : Nat) (hk : k ≤ 63) : ∃ s, Filled k s := by
  -- Worker `k` creates box `k`, and each leaves its handle open.
  induction k with
  | zero =>
    refine ⟨(fresh 64, []), .of_start, .refl, rfl, rfl, rfl, rfl,
      fun q hq => ?_, fun u hu => nomatch hu⟩
    obtain ⟨i, -, hused, -⟩ := hq
    cases hused
  | succ k ih =>
    obtain ⟨s, hs⟩ := ih (Nat.le_of_succ_le hk)
    have hlawful := hs.lawful (Nat.lt_of_lt_of_le hk (by decide))
    have hroomy : Roomy s (fillVisit k) :=
      { toLawful := hlawful
        handles := fun _ => by rw [hs.creates]; exact Nat.lt_of_lt_of_le hk (by decide)
        inodes := fun _ => by rw [hs.numBoxes]; exact Int.ofNat_lt.mpr (Nat.lt_succ_of_le hk)
        granted := fun _ => rfl
        record := fun hop => absurd hop (create_ne_remove rfl)
        others := fun hop => absurd hop (create_ne_remove rfl) }
    obtain ⟨y, hy, ⟨i, hi, hnum, hfree, hboxes, -⟩, hcount⟩ := hs.create hroomy rfl
    obtain ⟨c, sent, hlogged, hnext⟩ := hs.next hlawful.toAdmits hlawful.unserved hy hcount
    have hhas : ∀ q, y.HasBox q ↔ q = (nameAt k).str ∨ s.1.HasBox q := by
      intro q
      rw [← hasBox_addBox hi, HasBox, HasBox, hfree, hboxes]
      rfl
    refine ⟨_, hnext, hs.run.next hlawful hlogged, ?_, ?_, ?_, ?_, fun q hq => ?_, fun u hu => ?_⟩
    · rw [show (y.place (fillVisit k).worker c .idle sent).maxSessions
        = y.maxSessions from rfl, hy.frame]
      exact hs.maxSessions
    · rw [show (y.place (fillVisit k).worker c .idle sent).fds = y.fds from rfl, hy.frame]
      exact hs.fds
    · rw [Broker.creates, List.countP_cons_of_pos (by rfl)]
      exact congrArg (· + 1) hs.creates
    · have hadd : y.numBoxes = s.1.numBoxes + 1 := hnum
      rw [hs.numBoxes] at hadd
      exact hadd
    · rcases (hhas q).mp hq with rfl | hold
      · exact ⟨k, Nat.lt_succ_self k, rfl⟩
      · obtain ⟨j, hj, heq⟩ := hs.boxes q hold
        exact ⟨j, Nat.lt_succ_of_lt hj, heq⟩
    · rcases List.mem_cons.mp hu with rfl | hold
      · exact Nat.lt_succ_self k
      · exact Nat.lt_succ_of_lt (hs.workers u hold)

/-- With 63 boxes TecnicoFS has no inode left for the 64th: its client gets no
answer. -/
theorem sixty_fourth_box :
    ¬ ∀ (maxSessions : Nat) (clients : Nat → Client) (m : Fs.Malloc) (fds : Nat → Bool)
      (s : Broker × List Visit) (v : Visit), m.granted = true →
      Reaches logged Lawful (start maxSessions clients m fds, []) s →
      Lawful s v → Fulfilled s.1 v := by
  intro h
  obtain ⟨s, hs⟩ := filled 63 (Nat.le_refl 63)
  have hlawful := hs.lawful (by decide)
  obtain ⟨b', hserve, hcreated, -⟩ := h 64 _ _ _ s (fillVisit 63) rfl hs.run hlawful
  obtain ⟨-, msg, hout⟩ := hcreated rfl
  obtain ⟨t, fhandle, hopen, -, -, hcase⟩ := tfsOpen_creat hs.tidy.wf (boxName_le (fillVisit 63))
  have hfull : s.1.tfs.freeInode = none := hs.tidy.freeInode_iff.mpr (by rw [hs.numBoxes]; rfl)
  have habsent : s.1.tfs.file (fillVisit 63).boxName.tail = none := by
    by_contra hfile
    exact hlawful.absent rfl ((hs.tidy.named.file_iff hlawful.valid).mp hfile)
  obtain ⟨-, rfl⟩ := hcase.resolve_right fun hc => hc.1.2.2.elim (fun hf => hf habsent)
    fun hf => hf.1 hfull
  obtain ⟨y, code, msg', -, -, hfailed⟩ := serve_create hs.running hlawful.worker hlawful.idle
    hs.tidy.lock hlawful.fd (r := (fillVisit 63).request) rfl hs.tidy.table hopen true
  obtain ⟨c, hserve'⟩ := hfailed (by decide)
  obtain rfl := Option.some.inj (hserve.symm.trans hserve')
  have hnothing : (({ y with tfs := t, fds := Function.update s.1.fds 3 true } : Broker).place 63 c
      (.ret (-1)) []).output 63 3 = [] := @output_of_sent _ 63 3 [] place_sent
  rw [show (fillVisit 63).worker = 63 from rfl, show (fillVisit 63).fd
    = 3 from rfl, hnothing] at hout
  cases hout

end Broker

end MBroker
