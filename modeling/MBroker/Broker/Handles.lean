import MBroker.Broker.Calls
import MBroker.Broker.Sessions

/-!
# The handles of the broker

A publish, a create request and a subscriber's session take an open file entry each.
Nothing in the broker calls `tfs_close`.

Results:
1. `handles_conserved`: as long as no section uses a handle for the last time, the
   entries that are taken are no more than the workers that use one.
2. `handle_lost`: the entry that a create request leaves behind.
-/

namespace MBroker

open FirstFit Transition Fs

namespace Pc

/-- The worker has a handle that it will use again. `handle_tfs_create_box` compares its
handle with -1 when it finishes. -/
def HasHandle : Pc → Bool
  | .pubWrite .. | .historyTest | .historyRead | .historySendOp .. | .historySendMessage ..
  | .followLock _ | .asleep .. | .followRead _ | .followSendOp .. | .followSendMessage ..
  | .answering _ false => true
  | _ => false

/-- In a subscriber's session, or between `tfs_open` and the last use of the handle. -/
def UsesFile : Pc → Bool
  | .historyLock _ | .historyOpen => true
  | pc => pc.HasHandle

/-- About to call `tfs_open`. -/
def OpensFile : Pc → Bool
  | .pubOpen .. | .historyOpen | .createFile .. => true
  | _ => false

theorem HasHandle.usesFile {pc : Pc} (h : pc.HasHandle = true) : pc.UsesFile = true := by
  cases pc <;> first | exact h | cases h

end Pc

namespace Broker

variable {b b' x : Broker} {v w i : Nat} {pc : Pc} {t : Fs.State} {a : Answer}

/-- In this section the worker uses its handle for the last time: it writes its message,
it finishes its create request, or its session ends because a read delivers nothing or
a write to the client's pipe is not done whole. -/
def LastUse (b : Broker) (e : Nat × Answer) : Prop :=
  match b.pcs e.1, e.2 with
  | .pubWrite .., _ => True
  | .historyRead, _ => ∃ t r bytes,
      tfsRead b.tfs (b.clients e.1).boxFd boxSize = .ok (t, r, bytes) ∧ r < 0
  | .historySendOp .., .wrote result => result ≠ .wrote 1
  | .historySendMessage .., .wrote result => result ≠ .wrote messageLength
  | .followRead _, _ => ∃ t r bytes,
      tfsRead b.tfs (b.clients e.1).boxFd messageLength = .ok (t, r, bytes) ∧ r ≤ 0
  | .followSendOp .., .wrote result => result ≠ .wrote 1
  | .followSendMessage .., .wrote result => result ≠ .wrote messageLength
  | .answering (bytes :: _) false, .wrote result => result ≠ .wrote bytes.length
  | .answering [] false, _ => True
  | _, _ => False

/-- The condition on the steps of a run. -/
def KeepsHandle (b : Broker) (e : Nat × Answer) : Prop := ¬ b.LastUse e

/-- How many entries of the open file table are taken. -/
def takenEntries (b : Broker) : Nat :=
  Nat.count (fun j => b.tfs.freeOpenFileEntries j = .taken) b.tfs.fsParams.maxOpenFilesCount

/-- How many workers have a handle. -/
def holders (b : Broker) : Nat := Nat.count (fun w => (b.pcs w).HasHandle = true) b.maxSessions

/-- How many workers are in a subscriber's session or use a handle. -/
def users (b : Broker) : Nat := Nat.count (fun w => (b.pcs w).UsesFile = true) b.maxSessions

/-! ## Entries of the open file table -/

/-- `tfs_open` takes a free entry, or none. -/
theorem opened_entries {s : Fs.State} {path : Option CStr} {mode : Nat} {r : Int}
    (h : Opened s path mode (t, r)) :
    (r = -1 ∧ t.freeOpenFileEntries = s.freeOpenFileEntries) ∨
      ∃ j : Nat, r = j ∧ s.freeHandle = some j ∧
        t.freeOpenFileEntries = Function.update s.freeOpenFileEntries j .taken := by
  have hhandle : ∀ (u : Fs.State) (k : Int) (offset : Nat), u.fsParams = s.fsParams →
      u.freeOpenFileEntries = s.freeOpenFileEntries → (t, r) = u.openHandle k offset →
      (r = -1 ∧ t.freeOpenFileEntries = s.freeOpenFileEntries) ∨
        ∃ j : Nat, r = j ∧ s.freeHandle = some j ∧
          t.freeOpenFileEntries = Function.update s.freeOpenFileEntries j .taken := by
    intro u k offset hp he heq
    have hfree : u.freeHandle = s.freeHandle := by rw [State.freeHandle, State.freeHandle, hp, he]
    rw [State.openHandle, hfree] at heq
    cases hj : s.freeHandle with
    | none =>
      rw [hj] at heq
      cases heq
      exact Or.inl ⟨rfl, he⟩
    | some j =>
      rw [hj] at heq
      cases heq
      exact Or.inr ⟨j, rfl, rfl, by rw [he]⟩
  generalize hres : (t, r) = res at h
  cases h with
  | refused =>
    cases hres
    exact Or.inl ⟨rfl, rfl⟩
  | noEntry =>
    cases hres
    exact Or.inl ⟨rfl, rfl⟩
  | @existing p k =>
    refine hhandle _ _ _ ?_ ?_ hres
    · unfold State.openState
      split <;> rfl
    · unfold State.openState
      split <;> rfl
  | @created p k i => exact hhandle (s.createFile k i p.tail) _ _ rfl rfl hres

/-- No other call touches the entries. -/
theorem Calls.entries (h : Robust b.tfs) (hc : Calls b w pc t) (hnot : pc.OpensFile = false) :
    t.freeOpenFileEntries = b.tfs.freeOpenFileEntries := by
  cases hc with
  | pubOpen => cases hnot
  | historyOpen => cases hnot
  | createFile => cases hnot
  | pubWrite hw =>
    rcases overwritten_of_write h (messageStr_fits _) hw with rfl | ⟨fd, k, -, -, hover⟩
    · rfl
    · cases hover <;> rfl
  | historyRead hr =>
    cases called_read h hr with
    | refused => rfl
    | read _ _ hread => cases hread <;> rfl
  | followRead hr =>
    cases called_read h hr with
    | refused => rfl
    | read _ _ hread => cases hread <;> rfl
  | removeBody hu => exact (called_unlink h hu).entries

/-! ## One section -/

/-- The end of a session is the last use of its handle. -/
theorem Ends.lastUse (h : Ends b w (b.pcs w) a x) (hpc : (b.pcs w).HasHandle = true) :
    b.LastUse (w, a) := by
  unfold LastUse
  dsimp only
  generalize b.pcs w = pc at h hpc
  cases h with
  | pipeClosed hat => rcases hat with rfl | rfl <;> cases hpc
  | pubOpen => cases hpc
  | pubWrite => trivial
  | historyOpen => cases hpc
  | historyRead hr hneg => exact ⟨_, _, _, hr, hneg⟩
  | historySendOp _ hne => exact hne
  | historySendMessage _ hne => exact hne
  | followNone hr => exact ⟨_, _, _, hr, le_rfl⟩
  | followRead hr hneg => exact ⟨_, _, _, hr, hneg.le⟩
  | followSendOp _ hne => exact hne
  | followSendMessage _ hne => exact hne

theorem Continues.hasHandle (h : Continues b w (b.pcs w) x) (hok : ¬ b.LastUse (w, a))
    (hpc : (b.pcs w).HasHandle = true) : (x.pcs w).HasHandle = true := by
  unfold LastUse at hok
  dsimp only at hok
  generalize b.pcs w = pc at h hok hpc
  cases h with
  | pubWrite => exact absurd trivial hok
  | pubOpcode => cases hpc
  | pubMessage => cases hpc
  | pubLock => cases hpc
  | pubOpen => cases hpc
  | pubCount => cases hpc
  | historyLock => cases hpc
  | historyOpen => cases hpc
  | _ =>
    rw [setPc_self]
    rfl

/-- An answer to a create request that is not over. -/
theorem Serves.hasHandle (h : Serves b w (b.pcs w) a x) (hok : ¬ b.LastUse (w, a))
    (hpc : (b.pcs w).HasHandle = true) : (x.pcs w).HasHandle = true := by
  unfold LastUse at hok
  dsimp only at hok
  generalize b.pcs w = pc at h hok hpc
  cases h with
  | @answering _ _ locked =>
    cases locked with
    | true => cases hpc
    | false =>
      rw [setPc_self]
      rfl
  | @notAnswered _ _ locked _ _ _ hne =>
    cases locked with
    | true => cases hpc
    | false => exact absurd hne hok
  | @answered locked =>
    cases locked with
    | true => cases hpc
    | false => exact absurd trivial hok
  | @opened pc _ _ _ hnext => cases pc <;> cases hnext <;> cases hpc
  | notOpened hat => rcases hat with rfl | rfl <;> cases hpc
  | _ => cases hpc

/-- A worker with a handle has it after a section in which it is not used for the last
time. -/
theorem step_hasHandle (hs : b.step (w, a) = some b') (hok : KeepsHandle b (w, a))
    (hpc : (b.pcs w).HasHandle = true) : (b'.pcs w).HasHandle = true := by
  rcases step_cases hs with hends | hcrash | hgoes | hserves
  · exact absurd (hends.lastUse hpc) hok
  · rw [hcrash.same.1]
    exact hpc
  · exact hgoes.hasHandle hok hpc
  · exact hserves.hasHandle hok hpc

/-- The entries after `tfs_open`. -/
theorem entries_of_open (h : Robust b.tfs) {p : CStr} {mode : Nat} {r : Int}
    (ho : tfsOpen b.tfs (some p) mode = .ok (t, r)) :
    (r < 0 → t.freeOpenFileEntries = b.tfs.freeOpenFileEntries) ∧
      (0 ≤ r → ∃ j, b.tfs.freeHandle = some j ∧
        t.freeOpenFileEntries = Function.update b.tfs.freeOpenFileEntries j .taken) := by
  rcases opened_entries (called_open h ho) with ⟨rfl, hsame⟩ | ⟨j, rfl, hj, hentries⟩
  · exact ⟨fun _ => hsame, fun hc => absurd hc (by decide)⟩
  · exact ⟨fun hc => absurd hc (by omega), fun _ => ⟨j, hj, hentries⟩⟩

/-- A section that opens a file takes an entry and gives it to its worker, or takes
none. -/
theorem step_opens (h : Robust b.tfs) (hs : b.step (w, a) = some b')
    (hpc : (b.pcs w).OpensFile = true) :
    b'.tfs.freeOpenFileEntries = b.tfs.freeOpenFileEntries ∨
      (b'.pcs w).HasHandle = true ∧ ∃ j, b.tfs.freeHandle = some j ∧
        b'.tfs.freeOpenFileEntries = Function.update b.tfs.freeOpenFileEntries j .taken := by
  have hgets : ∀ {y : Broker} {pc : Pc},
    pc.HasHandle = true → ((y.setPc w pc).pcs w).HasHandle = true := by
    intro y pc hpc
    rwa [setPc_self]
  rcases step_cases hs with hends | hcrash | hgoes | hserves
  · generalize b.pcs w = pc at hends hpc
    cases hends with
    | pipeClosed hat => rcases hat with rfl | rfl <;> cases hpc
    | pubOpen ho hneg => exact Or.inl ((congrArg _ (endSession_tfs ..)).trans
      ((entries_of_open h ho).1 hneg))
    | historyOpen ho hneg =>
      exact Or.inl ((congrArg _ (endSession_tfs ..)).trans ((entries_of_open h ho).1 hneg))
    | _ => cases hpc
  · generalize b.pcs w = pc at hcrash hpc
    cases hcrash with
    | crash => exact Or.inl rfl
    | historyRead => cases hpc
  · generalize b.pcs w = pc at hgoes hpc
    cases hgoes with
    | pubOpen ho hnn => exact Or.inr ⟨hgets rfl, (entries_of_open h ho).2 hnn⟩
    | historyOpen ho hnn => exact Or.inr ⟨hgets rfl, (entries_of_open h ho).2 hnn⟩
    | _ => cases hpc
  · generalize b.pcs w = pc at hserves hpc
    cases hserves with
    | createCrash => exact Or.inl rfl
    | createFailed ho hneg => exact Or.inl ((entries_of_open h ho).1 hneg)
    | createFile ho hnn => exact Or.inr ⟨hgets rfl, (entries_of_open h ho).2 hnn⟩
    | @opened pc _ _ _ hnext => cases pc <;> cases hnext <;> cases hpc
    | notOpened hat => rcases hat with rfl | rfl <;> cases hpc
    | _ => cases hpc

/-- Every entry that is taken is in some worker's hands. -/
structure EntriesHeld (b : Broker) : Prop where
  robust : Robust b.tfs
  held : b.takenEntries ≤ b.holders

theorem stays_hasHandle (h : Stays b b' v) : (b'.pcs v).HasHandle = (b.pcs v).HasHandle := by
  rcases h with hsame | ⟨i, n, hasleep, hwoken⟩
  · rw [hsame]
  · rw [hasleep, hwoken]
    rfl

theorem EntriesHeld.step (h : EntriesHeld b) (hok : KeepsHandle b (w, a))
    (hs : b.step (w, a) = some b') :
    EntriesHeld b' := by
  have hlt : w < b.maxSessions := (step_eq_some.mp hs).2.1
  have hmax := step_maxSessions hs
  have hcalls := step_calls hs
  have hothers : ∀ v ≠ w, (b'.pcs v).HasHandle = (b.pcs v).HasHandle := fun v hv =>
    stays_hasHandle (step_others hs hv)
  have hparams : b'.tfs.fsParams = b.tfs.fsParams := by
    rcases hcalls with hsame | hcall
    · rw [hsame]
    · exact hcall.params h.robust
  refine ⟨?_, ?_⟩
  · rcases hcalls with hsame | hcall
    · rw [hsame]
      exact h.robust
    · exact hcall.robust h.robust
  -- either the entries are the same, or the worker has got one
  have hcase : b'.tfs.freeOpenFileEntries = b.tfs.freeOpenFileEntries ∨
      (b.pcs w).HasHandle = false ∧ (b'.pcs w).HasHandle = true ∧ ∃ j, b.tfs.freeHandle = some j ∧
        b'.tfs.freeOpenFileEntries = Function.update b.tfs.freeOpenFileEntries j .taken := by
    cases hpc : (b.pcs w).OpensFile with
    | false =>
      left
      rcases hcalls with hsame | hcall
      · rw [hsame]
      · exact hcall.entries h.robust hpc
    | true =>
      have hno : (b.pcs w).HasHandle = false := by
        cases hat : b.pcs w <;> rw [hat] at hpc <;> first | rfl | cases hpc
      exact (step_opens h.robust hs hpc).imp_right fun hgot => ⟨hno, hgot⟩
  rcases hcase with hsame | ⟨hno, hgot, j, hj, hentries⟩
  · refine le_trans (le_of_eq ?_) (h.held.trans ?_)
    · rw [takenEntries, takenEntries, hparams, hsame]
    · rw [holders, holders, hmax]
      refine Nat.count_mono_left fun v _ hv => ?_
      rcases eq_or_ne v w with rfl | hne
      · exact step_hasHandle hs hok hv
      · rw [hothers v hne]
        exact hv
  · obtain ⟨hjlt, hfree, -⟩ := firstIndex_eq_some.mp hj
    rw [beq_iff_eq] at hfree
    have hmore : b'.takenEntries = b.takenEntries + 1 := by
      rw [takenEntries, takenEntries, hparams]
      refine count_gain hjlt (by rw [hfree]; simp) (by rw [hentries, Function.update_self])
        fun k _ hk => ?_
      rw [hentries, Function.update_of_ne hk]
    have hholders : b'.holders = b.holders + 1 := by
      rw [holders, holders, hmax]
      refine count_gain hlt (by rw [hno]; simp) hgot fun v _ hv => ?_
      rw [hothers v hv]
    rw [hmore, hholders]
    exact Nat.succ_le_succ h.held

theorem EntriesHeld.of_start {maxSessions : Nat} {clients : Nat → Client}
    {m : Malloc} {fds : Nat → Bool} :
    EntriesHeld (start maxSessions clients m fds) where
  robust := initial_robust brokerParams_inRange.usable
  held := by
    have hnone : (start maxSessions clients m fds).takenEntries = 0 := count_zero fun j hj ht => by
      rw [show (start maxSessions clients m fds).tfs.freeOpenFileEntries j
        = .free from tfsStart_handle hj] at ht
      cases ht
    rw [hnone]
    exact Nat.zero_le _

/-- No more entries are taken than workers use a file; so none is when every worker is
idle, and `tfs_open` finds one free unless there are as many users as entries. -/
structure Conserved (b : Broker) : Prop where
  entries : b.takenEntries ≤ b.users
  idle : (∀ w, b.pcs w = .idle) →
    ∀ j < b.tfs.fsParams.maxOpenFilesCount, b.tfs.freeOpenFileEntries j = .free
  full : b.tfs.freeHandle = none → b.tfs.fsParams.maxOpenFilesCount ≤ b.users

theorem EntriesHeld.conserved (h : EntriesHeld b) : Conserved b := by
  have hle : b.takenEntries ≤ b.users :=
    h.held.trans (Nat.count_mono_left fun _ _ hv => Pc.HasHandle.usesFile hv)
  refine ⟨hle, fun hidle j hj => ?_, fun hnone => ?_⟩
  · have hzero : b.users = 0 := count_zero fun v _ hv => by
      rw [hidle v] at hv
      cases hv
    cases hmark : b.tfs.freeOpenFileEntries j with
    | free => rfl
    | taken =>
      have hpos : 0 < b.takenEntries := count_pos_of_mem hj hmark
      omega
  · have hfull : b.takenEntries = b.tfs.fsParams.maxOpenFilesCount :=
      (firstIndex_none_iff_count fun _ => AllocationState.taken_iff).mp hnone
    exact hfull ▸ hle

/-- In every run of sessions of all kinds in which no handle is used for the last time,
the open file entries are conserved. -/
theorem handles_conserved (maxSessions : Nat) (clients : Nat → Client)
    (m : Malloc) (fds : Nat → Bool)
    (hrun : Reaches Broker.step KeepsHandle (start maxSessions clients m fds) b) : Conserved b :=
  (hrun.invariant EntriesHeld.of_start fun _ _ _ h hok hs => h.step hok hs).conserved

/-- A create request that has opened the first file and is about to answer. -/
theorem handles_conserved_creating : ∃ b, b.tfs.freeOpenFileEntries 0 = .taken ∧ Conserved b := by
  have hstates : ∃ b₁ b₂ b₃ : Broker,
      ((fresh 1).step (0, .request (sampleRequest opCodeCreateBox)) = some b₁ ∧
        b₁.pcs 0 = .createLock) ∧
      (b₁.step (0, .malloced true) = some b₂ ∧ b₂.pcs 0 = .createOpen 0 "") ∧
      (b₂.step (0, .opened samplePath (some 3)) = some b₃ ∧ b₃.pcs 0 = .createFile 0 "") ∧
      b₃.tfs = tfsStart .zeros ∧ (b₃.clients 0).boxName = sampleName ∧ b₃.stopped = false ∧
      b₃.maxSessions = 1 :=
    ⟨_, _, _, ⟨rfl, rfl⟩, ⟨rfl, rfl⟩, ⟨rfl, rfl⟩, rfl, rfl, rfl, rfl⟩
  obtain ⟨b₁, b₂, b₃, ⟨hs₁, hpc₁⟩, ⟨hs₂, hpc₂⟩, ⟨hs₃, hpc₃⟩, htfs, hname, hstop, hmax⟩ := hstates
  have hkeeps : ∀ {b : Broker} {a : Answer}, b.pcs 0 = .idle ∨ b.pcs 0 = .createLock ∨
      b.pcs 0 = .createOpen 0 "" ∨ b.pcs 0 = .createFile 0 "" → KeepsHandle b (0, a) := by
    rintro b a (hpc | hpc | hpc | hpc) hlast <;> rw [LastUse, hpc] at hlast <;> exact hlast
  have hopen : tfsOpen b₃.tfs (some (b₃.clients 0).boxName.str) tfsOCreat
      = .ok (oneFile .zeros sampleName.str.tail, 0) := by
    rw [htfs, hname]
    exact tfsOpen_first (by decide) (by decide)
  obtain ⟨b, hs, hbtfs⟩ : ∃ b, b₃.step (0, .none) = some b ∧
    b.tfs = oneFile .zeros sampleName.str.tail := by
    refine ⟨b₃.createFile 0 0 "", step_eq_some.mpr ⟨hstop, by rw [hmax]; decide, ?_⟩, ?_⟩
    · rw [hpc₃]
      rfl
    · rw [createFile, hopen]
      rfl
  have hrun : Reaches Broker.step KeepsHandle (fresh 1) b :=
    (((Reaches.refl.next (hkeeps (Or.inl rfl)) hs₁).next (hkeeps (Or.inr (Or.inl hpc₁))) hs₂).next
      (hkeeps (Or.inr (Or.inr (Or.inl hpc₂)))) hs₃).next (hkeeps (Or.inr (Or.inr (Or.inr hpc₃)))) hs
  refine ⟨b, ?_, handles_conserved 1 (fun _ => zeroClient) .zeros (fun _ => false) hrun⟩
  rw [hbtfs, oneFile_entries]
  exact Function.update_self ..

/-- The request is over, and its entry is still taken. -/
theorem handle_lost :
    ¬ ∀ (maxSessions : Nat) (clients : Nat → Client) (m : Malloc) (fds : Nat → Bool) (b : Broker),
      m.granted = true → Reaches Broker.step anyStep (start maxSessions clients m fds) b →
      Conserved b := by
  intro h
  obtain ⟨b, hrun, hb⟩ := box_created (show 0 < 1 by decide)
  have hidle : ∃ x, b.step (0, .none) = some x ∧ (∀ w, x.pcs w = .idle) ∧ x.tfs = b.tfs := by
    refine ⟨b.setPc 0 .idle, step_eq_some.mpr
      ⟨hb.stopped, by rw [hb.maxSessions]; decide, ?_⟩, ?_, rfl⟩
    · rw [hb.pcs, Function.update_self]
      rfl
    · intro w
      rcases eq_or_ne w 0 with rfl | hw
      · exact setPc_self ..
      · rw [setPc_of_ne _ _ hw, hb.pcs, Function.update_of_ne hw]
  obtain ⟨x, hs, hpcs, htfs⟩ := hidle
  have hconserved := h 1 _ _ _ x rfl ((hrun.mono fun _ _ _ => trivial).next trivial hs)
  have hparams : x.tfs.fsParams = brokerParams := by
    rw [htfs, hb.tfs]
    exact (sameFiles_openHandle _ _ _).params
  have hfree := hconserved.idle hpcs 0 (by rw [hparams]; decide)
  rw [htfs, hb.tfs, oneFile_entries, Function.update_self] at hfree
  cases hfree

end Broker

end MBroker
