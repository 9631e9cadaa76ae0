import MBroker.Fs.Isolation

/-!
# TecnicoFS under any use of handles

A handle may outlive its file: it then refers to an inode that is free, or that
belongs to a file created later. Its offset may pass the end of a file that was
emptied through another handle. `Robust` is what stays true in spite of this,
in every run that does not stop the process; `Called` lists everything a call
can do in such a state.

Results:
1. `Robust.called`, `Robust.step`: one call.
2. `directory_invariant`: the directory, the inode map and the inode table agree.
3. `blocks_apart`: no block belongs to two files or to a file and the root.
4. `blocks_conserved`: no block is lost, unless a write through the handle of an
   unlinked file takes one (`orphan_block`).
5. `no_panic_iff`: the one call that fails an assertion, a read at an offset
   behind an inode that has no block yet (`stale_read`).
-/

namespace MBroker.Fs

open FirstFit ByteMemory Transition

variable {s t : State} {i k k' b fd : Nat} {n : CStr} {op : Op}

/-- One call; not enabled where it stops the process. -/
def fsStep (s : State) (op : Op) : Option State :=
  match tfsStep s op with
  | .ok (t, _) => some t
  | .error _ => none

theorem fsStep_eq_some : fsStep s op = some t ↔ ∃ r, tfsStep s op = .ok (t, r) := by
  unfold fsStep
  cases h : tfsStep s op with
  | error e => simp
  | ok r =>
    obtain ⟨u, v⟩ := r
    simp

/-! ## The invariant -/

/-- What an inode holds once a file was created on it: no block yet, or a block
that is not the root's. -/
def State.Sound (s : State) (k : Nat) : Prop :=
  ((s.inodeTable k).iDataBlock = -1 ∧ (s.inodeTable k).iSize = 0) ∨
    ∃ b : Nat, (s.inodeTable k).iDataBlock = b ∧ 0 < b ∧ b < s.fsParams.maxBlockCount ∧
      (s.inodeTable k).iSize ≤ s.fsParams.blockSize

/-- Handle `fd` refers to an inode that is not the root, free or not. -/
structure State.Refers (s : State) (fd k : Nat) : Prop where
  inumber : (s.openFileTable fd).ofInumber = k
  pos : 0 < k
  lt : k < s.fsParams.maxInodeCount
  sound : s.Sound k
  offset : (s.openFileTable fd).ofOffset ≤ s.heap.data

structure Robust (s : State) : Prop extends FilesWf s where
  data_lt : s.heap.data < 4611686018427387904
  file : ∀ k, s.Live k → (s.inodeTable k).iNodeType = .tFile ∧ s.Sound k
  handles : ∀ fd, s.IsOpen fd → ∃ k, s.Refers fd k

theorem Robust.block_le (h : Robust s) : s.fsParams.blockSize ≤ s.heap.data :=
  (Nat.le_mul_of_pos_left _ h.root.block_pos).trans h.root.data

theorem Robust.refers (h : Robust s) {fhandle : Int} (hh : s.handle fhandle = some fd) :
    ∃ k, s.Refers fd k := h.handles fd (open_of_handle hh).2

/-! ## Writes and reads through any handle -/

/-- What `tfs_write` decides to write either fits in the block or is larger than
all of `fs_data`: the subtraction has wrapped, or the addition did. -/
theorem Robust.toWrite_fits (h : Robust s) (hoff : (s.openFileTable fd).ofOffset ≤ s.heap.data)
    (len : Nat) : ((s.openFileTable fd).ofOffset + s.toWrite fd len ≤ s.fsParams.blockSize ∧
      s.toWrite fd len ≤ len) ∨ s.heap.data < s.toWrite fd len := by
  have hlt := h.data_lt
  have hle := h.block_le
  unfold State.toWrite State.stateBlockSize addSize subSize word
  split <;> omega

theorem writeBlock_outside (hb : b < s.fsParams.maxBlockCount) {buffer : List UInt8} {m : Nat}
    (hm : s.heap.data < m) : writeBlock s fd k b buffer m = .error .outOfBounds := by
  have hget : dataBlockGet (s.setInode k { s.inodeTable k with iDataBlock := b }) b
      = .ok (b * s.fsParams.blockSize) := dataBlockGet_of hb
  have hout : s.heap.data < b * s.fsParams.blockSize + (s.openFileTable fd).ofOffset + m := by omega
  simp only [writeBlock, hget, ok_bind, heap_setInode, access_of_lt hout]
  by_cases hbuf : m ≤ buffer.length
  · rw [access_of_le hbuf, ok_bind, error_bind]
  · rw [access_of_lt (Nat.lt_of_not_le hbuf), error_bind]

/-- Everything `tfs_write` can do through handle `fd` of inode `k`. -/
inductive Overwritten (s : State) (fd k : Nat) (buffer : List UInt8) : State × Int → Prop
  | nothing : Overwritten s fd k buffer (s, 0)
  | full : Overwritten s fd k buffer (s, -1)
  | alloc {b m : Nat} : 0 < m → m ≤ buffer.length →
      (s.openFileTable fd).ofOffset + m ≤ s.fsParams.blockSize → (s.inodeTable k).iSize = 0 →
      s.freeBlock = some b →
      Overwritten s fd k buffer ((s.takeBlock b).writeAt fd k b (buffer.take m), (m : Int))
  | own {b m : Nat} : m ≤ buffer.length →
      (s.openFileTable fd).ofOffset + m ≤ s.fsParams.blockSize → 0 < (s.inodeTable k).iSize →
      (s.inodeTable k).iDataBlock = b → 0 < b → b < s.fsParams.maxBlockCount →
      Overwritten s fd k buffer (s.writeAt fd k b (buffer.take m), (m : Int))

theorem tfsWrite_outside (h : Robust s) {fhandle : Int} (hh : s.handle fhandle = some fd)
    (hk : s.Refers fd k) {buffer : List UInt8} {toWrite : Nat}
    (hbig : s.heap.data < s.toWrite fd toWrite) :
    tfsWrite s fhandle buffer toWrite = .error .outOfBounds ∨
      tfsWrite s fhandle buffer toWrite = .ok (s, -1) := by
  have hsized := h.root.toSized
  have hne : ¬ s.toWrite fd toWrite = 0 := by omega
  have hcut := hne
  unfold State.toWrite at hcut
  rcases Nat.eq_zero_or_pos (s.inodeTable k).iSize with hs | hs
  · cases hb : s.freeBlock with
    | none => exact Or.inr (tfsWrite_full hsized hh hk.inumber hk.lt rfl (by omega) hs hb)
    | some b =>
      have hout : writeBlock (s.takeBlock b) fd k b buffer (s.toWrite fd toWrite)
          = .error .outOfBounds :=
        writeBlock_outside (s := s.takeBlock b) (firstIndex_eq_some.mp hb).1 hbig
      have hbne : ¬ ((b : Int) = -1) := by omega
      left
      simp only [tfsWrite, getOpenFileEntry_eq hsized, hh, ok_bind, hk.inumber,
        inodeGet_of hsized hk.lt, hcut, hs, if_false, if_true, dataBlockAlloc_of hsized, hb, hbne]
      exact hout
  · obtain ⟨b, hb, -, hblt, -⟩ := hk.sound.resolve_left fun hc => by omega
    have hsne : ¬ (s.inodeTable k).iSize = 0 := by omega
    have hout : writeBlock s fd k b buffer (s.toWrite fd toWrite) = .error .outOfBounds :=
      writeBlock_outside hblt hbig
    left
    simp only [tfsWrite, getOpenFileEntry_eq hsized, hh, ok_bind, hk.inumber,
      inodeGet_of hsized hk.lt, hcut, hsne, if_false, hb]
    exact hout

/-- A write of `m` bytes, as many as it has decided to write, that fit in the block. -/
theorem tfsWrite_fitting (h : Robust s) {fhandle : Int} (hh : s.handle fhandle = some fd)
    (hk : s.Refers fd k) {buffer : List UInt8} {n m : Nat} (hcut : s.toWrite fd n = m)
    (hlen : m ≤ buffer.length) (hfit : (s.openFileTable fd).ofOffset + m ≤ s.fsParams.blockSize) :
    ∃ r, tfsWrite s fhandle buffer n = .ok r ∧ Overwritten s fd k buffer r ∧
      (r.2 = -1 ∨ r.2 = (m : Int)) := by
  have hsized := h.root.toSized
  rcases Nat.eq_zero_or_pos m with hzero | hpos
  · subst hzero
    exact ⟨_, tfsWrite_nothing hsized hh hk.inumber hk.lt hcut rfl, .nothing, Or.inr rfl⟩
  rcases Nat.eq_zero_or_pos (s.inodeTable k).iSize with hs | hs
  · cases hb : s.freeBlock with
    | none => exact ⟨_, tfsWrite_full hsized hh hk.inumber hk.lt hcut hpos hs hb, .full, Or.inl rfl⟩
    | some b =>
      exact ⟨_, tfsWrite_alloc hsized hh hk.inumber hk.lt hcut hlen hfit hpos hs hb,
        .alloc hpos hlen hfit hs hb, Or.inr rfl⟩
  · obtain ⟨b, hb, hb0, hblt, -⟩ := hk.sound.resolve_left fun hc => by omega
    exact ⟨_, tfsWrite_own hsized hh hk.inumber hk.lt hcut hlen hfit hpos hs hb hblt,
      .own hlen hfit hs hb hb0 hblt, Or.inr rfl⟩

/-- A write of the first `n` bytes of the caller's array. -/
theorem tfsWrite_part (h : Robust s) {fhandle : Int} (hh : s.handle fhandle = some fd)
    (hk : s.Refers fd k) {buffer : List UInt8} {n : Nat} (hn : n ≤ buffer.length) :
    tfsWrite s fhandle buffer n = .error .outOfBounds ∨
      ∃ r, tfsWrite s fhandle buffer n = .ok r ∧ Overwritten s fd k buffer r := by
  rcases h.toWrite_fits hk.offset n with ⟨hfit, hle⟩ | hbig
  · obtain ⟨r, hr, hw, -⟩ := tfsWrite_fitting h hh hk rfl (hle.trans hn) hfit
    exact Or.inr ⟨r, hr, hw⟩
  · rcases tfsWrite_outside h hh hk hbig with herr | hfull
    · exact Or.inl herr
    · exact Or.inr ⟨_, hfull, .full⟩

theorem tfsWrite_any (h : Robust s) {fhandle : Int} (hh : s.handle fhandle = some fd)
    (hk : s.Refers fd k) (buffer : List UInt8) :
    tfsWrite s fhandle buffer buffer.length = .error .outOfBounds ∨
      ∃ r, tfsWrite s fhandle buffer buffer.length = .ok r ∧ Overwritten s fd k buffer r :=
  tfsWrite_part h hh hk le_rfl

/-- How many bytes `tfs_read` decides to read. -/
def State.toRead (s : State) (fd k len : Nat) : Nat :=
  if subSize (s.inodeTable k).iSize (s.openFileTable fd).ofOffset > len then len
  else subSize (s.inodeTable k).iSize (s.openFileTable fd).ofOffset

/-- Everything `tfs_read` can do through handle `fd`, which may go past the end of
a block but not out of `fs_data`. -/
inductive Reread (s : State) (fd : Nat) : State × Int × List UInt8 → Prop
  | nothing : Reread s fd (s, 0, [])
  | some {m : Nat} {ret : Int} {bytes : List UInt8} :
      (s.openFileTable fd).ofOffset + m ≤ s.heap.data →
      Reread s fd (s.setOffset fd ((s.openFileTable fd).ofOffset + m), ret, bytes)

/-- `tfs_read` asks for the block of an inode that has none: the inode is empty and
the offset is not 0. -/
def State.NoBlock (s : State) (fd k len : Nat) : Prop :=
  0 < len ∧ 0 < (s.openFileTable fd).ofOffset ∧ (s.inodeTable k).iDataBlock = -1

theorem toRead_pos_of_noBlock (h : Robust s) (hk : s.Refers fd k) {len : Nat}
    (hb : (s.inodeTable k).iDataBlock = -1) :
    0 < s.toRead fd k len ↔ 0 < len ∧ 0 < (s.openFileTable fd).ofOffset := by
  have hlt := h.data_lt
  have hoff := hk.offset
  have hs : (s.inodeTable k).iSize = 0 := by
    rcases hk.sound with hc | ⟨b, hc, -⟩
    · exact hc.2
    · omega
  unfold State.toRead subSize word
  rw [hs]
  split <;> omega

theorem tfsRead_any (h : Robust s) {fhandle : Int} (hh : s.handle fhandle = some fd)
    (hk : s.Refers fd k) (len : Nat) :
    (s.NoBlock fd k len ∧ tfsRead s fhandle len
        = .error (.panic "data_block_get: invalid block number")) ∨
      (¬ s.NoBlock fd k len ∧ (tfsRead s fhandle len = .error .outOfBounds ∨
        ∃ r, tfsRead s fhandle len = .ok r ∧ Reread s fd r)) := by
  have hsized := h.root.toSized
  generalize hm : s.toRead fd k len = m
  have hcut := hm
  unfold State.toRead at hcut
  rcases Nat.eq_zero_or_pos m with hzero | hpos
  · refine Or.inr ⟨fun hno => ?_, Or.inr ⟨_, tfsRead_nothing hsized hh hk.inumber hk.lt hcut.symm
      hzero, .nothing⟩⟩
    have := (toRead_pos_of_noBlock h hk hno.2.2).mpr ⟨hno.1, hno.2.1⟩
    omega
  have hne : ¬ m = 0 := by omega
  rcases hk.sound with ⟨hb, -⟩ | ⟨b, hb, -, hblt, -⟩
  · left
    obtain ⟨hlen, hoff⟩ := (toRead_pos_of_noBlock h hk hb).mp (hm ▸ hpos)
    refine ⟨⟨hlen, hoff, hb⟩, ?_⟩
    simp only [tfsRead, getOpenFileEntry_eq hsized, hh, ok_bind, hk.inumber,
      inodeGet_of hsized hk.lt, hcut, hne, if_false, hb]
    rfl
  · right
    refine ⟨fun hno => by have := hno.2.2; omega, ?_⟩
    by_cases hend : b * s.fsParams.blockSize + (s.openFileTable fd).ofOffset + m ≤ s.heap.data
    · right
      have hlt := h.data_lt
      have hadd : addSize (s.openFileTable fd).ofOffset m = (s.openFileTable fd).ofOffset + m :=
        addSize_of_lt (by unfold word; omega)
      refine ⟨(s.setOffset fd ((s.openFileTable fd).ofOffset + m), toSsize m,
        ByteMemory.read s.fsData (b * s.fsParams.blockSize + (s.openFileTable fd).ofOffset) m), ?_,
        .some (by omega)⟩
      simp only [tfsRead, getOpenFileEntry_eq hsized, hh, ok_bind, hk.inumber,
        inodeGet_of hsized hk.lt, hcut, hne, if_false, hb, dataBlockGet_of hblt,
        access_of_le hend, hadd, pure_eq_ok]
    · left
      simp only [tfsRead, getOpenFileEntry_eq hsized, hh, ok_bind, hk.inumber,
        inodeGet_of hsized hk.lt, hcut, hne, if_false, hb, dataBlockGet_of hblt,
        access_of_lt (Nat.lt_of_not_le hend), error_bind]

/-! ## Everything a call can do -/

inductive Called (s : State) : Op → State → Prop
  | refused {op : Op} : Called s op s
  | opened {path : Option CStr} {mode : Nat} {r : State × Int} : Opened s path mode r →
      Called s (.tfsOpen path mode) r.1
  | closed {fhandle : Int} {fd : Nat} : s.handle fhandle = some fd →
      Called s (.tfsClose fhandle) (s.closeHandle fd)
  | wrote {fhandle : Int} {fd k : Nat} {buffer : List UInt8} {r : State × Int} :
      s.handle fhandle = some fd → s.Refers fd k → Overwritten s fd k buffer r →
      Called s (.tfsWrite fhandle buffer) r.1
  | read {fhandle : Int} {fd k len : Nat} {r : State × Int × List UInt8} :
      s.handle fhandle = some fd → s.Refers fd k → Reread s fd r →
      Called s (.tfsRead fhandle len) r.1
  | unlinked {target : Option CStr} {r : State × Int} : Unlinked s target r →
      Called s (.tfsUnlink target) r.1

theorem Robust.called (h : Robust s) (hs : fsStep s op = some t) : Called s op t := by
  obtain ⟨ret, hret⟩ := fsStep_eq_some.mp hs
  have hsized := h.root.toSized
  cases op with
  | tfsOpen path mode =>
    obtain ⟨r, hr, ho⟩ := tfsOpen_cases h.toFilesWf path mode
    rw [tfsStep, hr] at hret
    cases hret
    exact .opened ho
  | tfsClose fhandle =>
    rw [tfsStep, tfsClose_eq hsized] at hret
    cases hh : s.handle fhandle with
    | none =>
      rw [hh] at hret
      cases hret
      exact .refused
    | some fd =>
      rw [hh] at hret
      cases hret
      exact .closed hh
  | tfsWrite fhandle buffer =>
    cases hh : s.handle fhandle with
    | none =>
      rw [tfsStep, tfsWrite_closed hsized hh] at hret
      cases hret
      exact .refused
    | some fd =>
      obtain ⟨k, hk⟩ := h.refers hh
      rcases tfsWrite_any h hh hk buffer with herr | ⟨r, hr, hw⟩
      · rw [tfsStep, herr] at hret
        cases hret
      · rw [tfsStep, hr] at hret
        cases hret
        exact .wrote hh hk hw
  | tfsRead fhandle len =>
    cases hh : s.handle fhandle with
    | none =>
      rw [tfsStep, tfsRead_closed hsized hh] at hret
      cases hret
      exact .refused
    | some fd =>
      obtain ⟨k, hk⟩ := h.refers hh
      rcases tfsRead_any h hh hk len with ⟨-, hpanic⟩ | ⟨-, herr | ⟨r, hr, hread⟩⟩
      · rw [tfsStep, hpanic] at hret
        cases hret
      · rw [tfsStep, herr] at hret
        cases hret
      · rw [tfsStep, hr] at hret
        cases hret
        exact .read hh hk hread
  | tfsUnlink target =>
    obtain ⟨r, hr, hu⟩ := tfsUnlink_cases h.toFilesWf target
    rw [tfsStep, hr] at hret
    cases hret
    exact .unlinked hu

theorem Called.params (h : Called s op t) : t.fsParams = s.fsParams := by
  cases h with
  | refused => rfl
  | opened ho => exact ho.params
  | closed => rfl
  | wrote _ _ hw => cases hw <;> rfl
  | read _ _ hread => cases hread <;> rfl
  | unlinked hu => exact hu.params

/-! ## The invariant is kept -/

theorem State.Sound.of_inode (hp : t.fsParams = s.fsParams)
    (hk : t.inodeTable k = s.inodeTable k) (h : s.Sound k) : t.Sound k := by
  unfold State.Sound
  rw [hk, hp]
  exact h

theorem live_of_marks (hk : t.Live k) (hp : t.fsParams = s.fsParams)
    (hts : t.freeinodeTs = s.freeinodeTs) : s.Live k := (live_iff hp (by rw [hts])).mp hk

/-- The inodes that are sound in `s` are sound in `t`, and keep their type. -/
structure InodesKept (s t : State) : Prop where
  params : t.fsParams = s.fsParams
  heap : t.heap = s.heap
  sound : ∀ k, s.Sound k → t.Sound k
  file : ∀ k, (s.inodeTable k).iNodeType = .tFile → (t.inodeTable k).iNodeType = .tFile

theorem InodesKept.of_table (hp : t.fsParams = s.fsParams) (hh : t.heap = s.heap)
    (ht : t.inodeTable = s.inodeTable) : InodesKept s t where
  params := hp
  heap := hh
  sound _ hk := State.Sound.of_inode hp (by rw [ht]) hk
  file k hk := by
    rw [ht]
    exact hk

/-- One inode is replaced by one that is sound. -/
theorem InodesKept.of_update {inode : Inode} (hp : t.fsParams = s.fsParams)
    (hh : t.heap = s.heap) (ht : t.inodeTable = Function.update s.inodeTable k inode)
    (hsound : s.Sound k → t.Sound k)
    (hfile : (s.inodeTable k).iNodeType = .tFile → inode.iNodeType = .tFile) : InodesKept s t where
  params := hp
  heap := hh
  sound k' hk' := by
    by_cases hkk : k' = k
    · subst hkk
      exact hsound hk'
    · exact State.Sound.of_inode hp (by rw [ht, Function.update_of_ne hkk]) hk'
  file k' hk' := by
    by_cases hkk : k' = k
    · subst hkk
      rw [ht, Function.update_self]
      exact hfile hk'
    · rw [ht, Function.update_of_ne hkk]
      exact hk'

theorem State.Refers.kept (h : s.Refers fd k) (hkept : InodesKept s t)
    (hopen : t.openFileTable fd = s.openFileTable fd) : t.Refers fd k where
  inumber := by rw [hopen]; exact h.inumber
  pos := h.pos
  lt := by rw [hkept.params]; exact h.lt
  sound := hkept.sound k h.sound
  offset := by rw [hopen, hkept.heap]; exact h.offset

/-- The rule by which every call keeps the invariant: its files are in order, a
live inode is an old one or a new empty file, and each handle is an old one or
refers to some inode. -/
theorem Robust.of_kept (h : Robust s) (hfiles : FilesWf t) (hkept : InodesKept s t)
    (hlive : ∀ k, t.Live k → s.Live k ∨ t.inodeTable k = ⟨.tFile, 0, -1⟩)
    (hhandles : ∀ fd, t.IsOpen fd →
      (s.IsOpen fd ∧ t.openFileTable fd = s.openFileTable fd) ∨ ∃ k, t.Refers fd k) :
    Robust t := by
  refine ⟨hfiles, by rw [hkept.heap]; exact h.data_lt, fun k hk => ?_, fun fd hfd => ?_⟩
  · rcases hlive k hk with hold | hnew
    · obtain ⟨hfile, hsound⟩ := h.file k hold
      exact ⟨hkept.file k hfile, hkept.sound k hsound⟩
    · refine ⟨by rw [hnew], Or.inl ?_⟩
      rw [hnew]
      exact ⟨rfl, rfl⟩
  · rcases hhandles fd hfd with ⟨hold, hopen⟩ | hnew
    · obtain ⟨k, hk⟩ := h.handles fd hold
      exact ⟨k, hk.kept hkept hopen⟩
    · exact hnew

/-- A call that opens and closes no handle. -/
theorem Robust.of_same_handles (h : Robust s) (hfiles : FilesWf t) (hkept : InodesKept s t)
    (htable : t.openFileTable = s.openFileTable)
    (hmarks : t.freeOpenFileEntries = s.freeOpenFileEntries)
    (hlive : ∀ k, t.Live k → s.Live k ∨ t.inodeTable k = ⟨.tFile, 0, -1⟩) : Robust t := by
  refine h.of_kept hfiles hkept hlive fun fd hfd => Or.inl ⟨?_, by rw [htable]⟩
  obtain ⟨hlt, ht⟩ := hfd
  rw [hkept.params] at hlt
  rw [hmarks] at ht
  exact ⟨hlt, ht⟩

theorem Robust.setInode (h : Robust s) (h0 : 0 < k) (hdead : ¬ s.Live k) :
    Robust (s.setInode k ⟨.tFile, 0, -1⟩) := by
  refine h.of_same_handles (h.toFilesWf.setInode h0 hdead _)
    (.of_update rfl rfl rfl ?_ fun _ => rfl)
    rfl rfl fun k' hk' => Or.inl (live_of_marks hk' rfl rfl)
  intro _
  have hinode : (s.setInode k ⟨.tFile, 0, -1⟩).inodeTable k = ⟨.tFile, 0, -1⟩ :=
    Function.update_self ..
  refine Or.inl ?_
  rw [hinode]
  exact ⟨rfl, rfl⟩

theorem Robust.truncate (h : Robust s) (hk : s.Live k) : Robust (s.truncate k) := by
  have hinode : (s.truncate k).inodeTable k = { s.inodeTable k with iSize := 0 } :=
    Function.update_self ..
  refine h.of_same_handles (h.toFilesWf.truncate hk) (.of_update rfl rfl rfl ?_ fun hf => hf)
    rfl rfl fun k' hk' => Or.inl (live_of_marks hk' rfl rfl)
  rintro (⟨hb, -⟩ | ⟨b, hb, h0, hlt, -⟩)
  · refine Or.inl ?_
    rw [hinode]
    exact ⟨hb, rfl⟩
  · refine Or.inr ⟨b, ?_, h0, hlt, ?_⟩
    · rw [hinode]
      exact hb
    · rw [hinode]
      exact Nat.zero_le _

theorem inodeTable_createFile (s : State) (k i : Nat) (n : CStr) :
    (s.createFile k i n).inodeTable k = ⟨.tFile, 0, -1⟩ := Function.update_self ..

theorem Robust.createFile (h : Robust s) (hk : s.freeInode = some k) (hslot : s.freeSlot = some i)
    (hpos : 0 < n.length) (hlen : n.length ≤ 39) (hnew : s.lookup n = none) :
    Robust (s.createFile k i n) := by
  obtain ⟨h0, hlt, hfree⟩ := freeInode_some h.toFilesWf hk
  have hinode := inodeTable_createFile s k i n
  refine h.of_same_handles (h.toFilesWf.createFile h0 hlt hfree hslot hpos hlen hnew)
    (.of_update rfl rfl rfl ?_ fun _ => rfl) rfl rfl fun k' hk' => ?_
  · intro _
    refine Or.inl ?_
    rw [hinode]
    exact ⟨rfl, rfl⟩
  · rcases (live_createFile h0 hlt i n).mp hk' with rfl | hold
    · exact Or.inr hinode
    · exact Or.inl hold

theorem Robust.removeFile (h : Robust s) (hl : s.lookup n = some k) (hi : i < s.maxDirEntries)
    (he : s.entry i = some (n, k)) : Robust (s.removeFile k i) :=
  h.of_same_handles (h.toFilesWf.removeFile hl hi he) (.of_table rfl rfl rfl) rfl rfl
    fun _ hk' => Or.inl ((live_removeFile i).mp hk').2

theorem Robust.takeBlock (h : Robust s) (hb : s.freeBlocks b = .free) : Robust (s.takeBlock b) :=
  h.of_same_handles (h.toFilesWf.takeBlock hb) (.of_table rfl rfl rfl) rfl rfl
    fun _ hk' => Or.inl (live_of_marks hk' rfl rfl)

theorem Robust.openHandle (h : Robust s) (h0 : 0 < k) (hlt : k < s.fsParams.maxInodeCount)
    (hsound : s.Sound k) {offset : Nat} (ho : offset ≤ s.heap.data) :
    Robust (s.openHandle k offset).1 := by
  unfold State.openHandle
  cases hfree : s.freeHandle with
  | none => exact h
  | some j =>
    refine h.of_kept (h.toFilesWf.with_handles _ _) (.of_table rfl rfl rfl)
      (fun k' hk' => Or.inl (live_of_marks hk' rfl rfl)) fun fd hfd => ?_
    by_cases hj : fd = j
    · subst hj
      exact Or.inr ⟨k, by simp, h0, hlt, State.Sound.of_inode rfl rfl hsound, by simpa using ho⟩
    · refine Or.inl ⟨⟨hfd.1, ?_⟩, Function.update_of_ne hj ..⟩
      have := hfd.2
      simpa [Function.update_of_ne hj] using this

theorem Robust.closeHandle (h : Robust s) : Robust (s.closeHandle fd) := by
  refine h.of_kept (h.toFilesWf.with_handles _ _) (.of_table rfl rfl rfl)
    (fun k' hk' => Or.inl (live_of_marks hk' rfl rfl)) fun fd' hfd => Or.inl ⟨⟨hfd.1, ?_⟩, rfl⟩
  have hne : fd' ≠ fd := by
    rintro rfl
    have := hfd.2
    simp [State.closeHandle] at this
  have := hfd.2
  simpa [State.closeHandle, Function.update_of_ne hne] using this

theorem Robust.setOffset (h : Robust s) (hk : s.Refers fd k) {offset : Nat}
    (ho : offset ≤ s.heap.data) : Robust (s.setOffset fd offset) := by
  refine h.of_kept (h.toFilesWf.with_handles _ _) (.of_table rfl rfl rfl)
    (fun k' hk' => Or.inl (live_of_marks hk' rfl rfl)) fun fd' hfd => ?_
  by_cases hj : fd' = fd
  · subst hj
    refine Or.inr ⟨k, ?_, hk.pos, hk.lt, State.Sound.of_inode rfl rfl hk.sound, ?_⟩
    · simpa [State.setOffset] using hk.inumber
    · simpa [State.setOffset] using ho
  · exact Or.inl ⟨hfd, Function.update_of_ne hj ..⟩

/-- A write into block `b` through a handle on inode `k`, live or not. -/
theorem Robust.writeAt (h : Robust s) (hk : s.Refers fd k) {bytes : List UInt8} (hb : 0 < b)
    (hblt : b < s.fsParams.maxBlockCount)
    (hfit : (s.openFileTable fd).ofOffset + bytes.length ≤ s.fsParams.blockSize)
    (hroom : s.Live k → s.Room k b) : Robust (s.writeAt fd k b bytes) := by
  have hsize : (s.inodeTable k).iSize ≤ s.fsParams.blockSize := by
    rcases hk.sound with ⟨-, hs⟩ | ⟨-, -, -, -, hs⟩ <;> omega
  have hfiles : FilesWf (s.writeAt fd k b bytes) := by
    by_cases hlive : s.Live k
    · exact h.toFilesWf.writeAt hlive (hroom hlive) hfit hsize
    · exact h.toFilesWf.writeDead hk.pos hlive hb
  have hself : (s.writeAt fd k b bytes).inodeTable k =
      { s.inodeTable k with
        iDataBlock := b
        iSize := max (s.inodeTable k).iSize ((s.openFileTable fd).ofOffset + bytes.length) } :=
    Function.update_self ..
  have hsound : (s.writeAt fd k b bytes).Sound k := by
    refine Or.inr ⟨b, ?_, hb, hblt, ?_⟩
    · rw [hself]
    · rw [hself]
      exact max_le hsize hfit
  refine h.of_kept hfiles (.of_update rfl rfl rfl (fun _ => hsound) fun hf => hf)
    (fun k' hk' => Or.inl (live_of_marks hk' rfl rfl)) fun fd' hfd => ?_
  by_cases hj : fd' = fd
  · subst hj
    refine Or.inr ⟨k, ?_, hk.pos, hk.lt, hsound, ?_⟩
    · simpa [State.writeAt] using hk.inumber
    · have := h.block_le
      simp only [State.writeAt, Function.update_self]
      omega
  · exact Or.inl ⟨hfd, Function.update_of_ne hj ..⟩

theorem Opened.robust (h : Robust s) {path : Option CStr} {mode : Nat} {r : State × Int}
    (ho : Opened s path mode r) : Robust r.1 := by
  cases ho with
  | refused => exact h
  | noEntry hk =>
    obtain ⟨h0, -, hfree⟩ := freeInode_some h.toFilesWf hk
    exact h.setInode h0 (not_live_of_free hfree)
  | @existing p k hp hv hl =>
    have hlive := h.linked.live _ _ hl
    have hstate : Robust (s.openState mode k) := by
      unfold State.openState
      split
      · exact h.truncate hlive
      · exact h
    have hlive' : (s.openState mode k).Live k := live_openState.mpr hlive
    have hsize := size_le_block hstate.toFilesWf hlive'
    refine hstate.openHandle hlive'.pos hlive'.lt (hstate.file k hlive').2 ?_
    have := hstate.block_le
    unfold State.openOffset
    split <;> omega
  | created hp hv hl hk hslot hlen =>
    subst hp
    obtain ⟨h0, hlt, -⟩ := freeInode_some h.toFilesWf hk
    have hcreate := h.createFile hk hslot (validPathname_pos hv) hlen hl
    refine hcreate.openHandle h0 hlt (hcreate.file _ ((live_createFile h0 hlt _ _).mpr ?_)).2
      (Nat.zero_le _)
    exact Or.inl rfl

theorem Overwritten.robust (h : Robust s) (hk : s.Refers fd k) {buffer : List UInt8}
    {r : State × Int} (hw : Overwritten s fd k buffer r) : Robust r.1 := by
  cases hw with
  | nothing => exact h
  | full => exact h
  | alloc _ hlen hfit _ hb =>
    obtain ⟨hblt, hfree, -⟩ := firstIndex_eq_some.mp hb
    rw [beq_iff_eq] at hfree
    have hroom := h.toFilesWf.room_fresh hfree hblt k
    refine (h.takeBlock hfree).writeAt (hk.kept (.of_table rfl rfl rfl) rfl) hroom.pos hblt ?_
      fun _ => hroom
    rw [List.length_take, Nat.min_eq_left hlen]
    exact hfit
  | own hlen hfit hs hb h0 hblt =>
    refine h.writeAt hk h0 hblt ?_ fun hlive => ?_
    · rw [List.length_take, Nat.min_eq_left hlen]
      exact hfit
    · obtain ⟨b', hb', hroom⟩ := h.toFilesWf.room_own hlive hs
      obtain rfl : b' = _ := Int.ofNat_inj.mp (hb'.symm.trans hb)
      exact hroom

theorem Robust.step (h : Robust s) (hs : fsStep s op = some t) : Robust t := by
  cases h.called hs with
  | refused => exact h
  | opened ho => exact ho.robust h
  | closed => exact h.closeHandle
  | wrote _ hk hw => exact hw.robust h hk
  | read _ hk hread =>
    cases hread with
    | nothing => exact h
    | some hend => exact h.setOffset hk hend
  | unlinked hu =>
    cases hu with
    | refused => exact h
    | removed _ hl hi he => exact h.removeFile hl hi he

theorem initial_robust {q : TfsParams} {m : Malloc} (hq : q.Usable) : Robust (s.initial q m) where
  toFilesWf := (initial_wellFormed hq).toFilesWf
  data_lt := by
    have hdata : (s.initial q m).heap.data = q.maxBlockCount * q.blockSize := rfl
    have := Nat.mul_le_mul hq.blocks_le hq.block_le
    omega
  file k hk := absurd hk (not_live_initial k)
  handles fd hfd := by
    have hfree : (s.initial q m).freeOpenFileEntries fd = .free := freshTables_handle hfd.1
    have hopen := hfd.2
    rw [hfree] at hopen
    cases hopen

/-- The invariant holds after every run from `tfs_init` on. -/
theorem Robust.of_run {ok : State → Op → Prop} {params : Option TfsParams} {m : Malloc}
    (hp : (params.getD tfsDefaultParams).FitsInt) (hinit : tfsInit s params m = .ok (t, 0))
    {u : State} (hrun : Reaches fsStep ok t u) : Robust u := by
  obtain ⟨husable, rfl⟩ := tfsInit_inv hp hinit
  exact hrun.invariant (initial_robust husable) fun _ _ _ h _ hs => h.step hs

/-! ## The directory -/

/-- Entry `i` of the root directory is in use. -/
def State.Used (s : State) (i : Nat) : Prop := i < s.maxDirEntries ∧ s.dInumber 0 i ≠ -1

/-- The name in entry `i`, up to its NUL. -/
def State.dName (s : State) (i : Nat) : CStr := .ofBytes (s.nameField i)

/-- The directory in block 0, the inode map and the inode table agree. -/
structure DirectoryInvariant (s : State) : Prop where
  root : s.inodeTable rootDirInum = ⟨.tDirectory, s.fsParams.blockSize, 0⟩
  named : ∀ i, s.Used i →
    (0 : UInt8) ∈ s.nameField i ∧ 1 ≤ (s.dName i).length ∧ (s.dName i).length ≤ 39
  names : ∀ i j, s.Used i → s.Used j → s.dName i = s.dName j → i = j
  inumbers : ∀ i j, s.Used i → s.Used j → s.dInumber 0 i = s.dInumber 0 j → i = j
  file : ∀ i, s.Used i →
    ∃ k : Nat, s.dInumber 0 i = k ∧ s.Live k ∧ (s.inodeTable k).iNodeType = .tFile
  covered : ∀ k : Nat, s.Live k → ∃! i, s.Used i ∧ s.dInumber 0 i = k

theorem used_entry (hu : s.Used i) : s.entry i = some (s.dName i, (s.dInumber 0 i).toNat) :=
  if_neg hu.2

theorem Robust.used_file (h : Robust s) (hu : s.Used i) :
    ∃ k : Nat, s.dInumber 0 i = k ∧ s.lookup (s.dName i) = some k := by
  have he := used_entry hu
  obtain ⟨-, -, -, hnum⟩ := h.dir.named i hu.1 _ _ he
  exact ⟨_, hnum, (lookup_eq_some h.dir).mpr ⟨i, hu.1, he⟩⟩

theorem Robust.entry_used (h : Robust s) (hi : i < s.maxDirEntries) (he : s.entry i = some (n, k)) :
    s.Used i ∧ s.dInumber 0 i = k := by
  obtain ⟨-, -, -, hnum⟩ := h.dir.named i hi n k he
  exact ⟨⟨hi, by rw [hnum]; omega⟩, hnum⟩

theorem Robust.directory (h : Robust s) : DirectoryInvariant s := by
  have hnames : ∀ i j, s.Used i → s.Used j → s.dName i = s.dName j → i = j := by
    intro i j hi hj heq
    have hei := used_entry hi
    rw [heq] at hei
    exact h.dir.distinct i hi.1 j hj.1 _ _ _ hei (used_entry hj)
  have hinumbers : ∀ i j, s.Used i → s.Used j → s.dInumber 0 i = s.dInumber 0 j → i = j := by
    intro i j hi hj heq
    obtain ⟨k, hk, hl⟩ := h.used_file hi
    obtain ⟨k', hk', hl'⟩ := h.used_file hj
    obtain rfl : k = k' := Int.ofNat_inj.mp (hk.symm.trans (heq.trans hk'))
    exact hnames i j hi hj (h.linked.inj _ _ k hl hl')
  refine ⟨h.root.root_inode, fun i hi => ?_, hnames, hinumbers, fun i hi => ?_, fun k hk => ?_⟩
  · obtain ⟨hname, hpos, hlen, -⟩ := h.dir.named i hi.1 _ _ (used_entry hi)
    refine ⟨?_, hpos, hlen⟩
    rw [hname, dNameOf_eq hlen]
    simp
  · obtain ⟨k, hk, hl⟩ := h.used_file hi
    have hlive := h.linked.live _ k hl
    exact ⟨k, hk, hlive, (h.file k hlive).1⟩
  · obtain ⟨n, hn⟩ := h.linked.named k hk
    obtain ⟨i, hi, he⟩ := (lookup_eq_some h.dir).mp hn
    obtain ⟨hu, hnum⟩ := h.entry_used hi he
    exact ⟨i, ⟨hu, hnum⟩, fun j hj => hinumbers j i hj.1 hu (hj.2.trans hnum.symm)⟩

/-- After every run from `tfs_init` on, the directory names exactly the files. -/
theorem directory_invariant {params : Option TfsParams} {m : Malloc}
    (hp : (params.getD tfsDefaultParams).FitsInt) (hinit : tfsInit s params m = .ok (t, 0))
    {u : State} (hrun : Reaches fsStep anyStep t u) : DirectoryInvariant u :=
  (Robust.of_run hp hinit hrun).directory

/-- The run in which the inode of an unlinked file, whose handle is still open,
goes to a new file. -/
theorem directory_invariant_reuse :
    ∃ u, exec fsStep (State.static.initial smallParams .zeros) reuseRun = some u ∧
      DirectoryInvariant u := by
  have hrun : (exec fsStep (State.static.initial smallParams .zeros) reuseRun).isSome = true := by
    decide +kernel
  obtain ⟨u, hu⟩ := Option.isSome_iff_exists.mp hrun
  exact ⟨u, hu, directory_invariant
    (show TfsParams.FitsInt ((some smallParams).getD _) from smallParams_inRange.usable.toFitsInt)
    (show tfsInit .static (some smallParams) .zeros = .ok (_, 0) from
      tfsInit_of rfl smallParams_inRange.usable rfl rfl)
    (Reaches.of_exec hu (execOk_anyStep _ _))⟩

/-! ## Blocks -/

/-- Each block holds the data of one file. -/
structure BlocksApart (s : State) : Prop where
  valid : ∀ k < s.fsParams.maxInodeCount, s.freeinodeTs k = .taken → 0 < (s.inodeTable k).iSize →
    ∃ b : Nat, (s.inodeTable k).iDataBlock = b ∧ b < s.fsParams.maxBlockCount ∧
      s.freeBlocks b = .taken
  distinct : ∀ k < s.fsParams.maxInodeCount, ∀ k' < s.fsParams.maxInodeCount, k ≠ k' →
    s.freeinodeTs k = .taken → s.freeinodeTs k' = .taken → 0 < (s.inodeTable k).iSize →
    0 < (s.inodeTable k').iSize → (s.inodeTable k).iDataBlock ≠ (s.inodeTable k').iDataBlock
  root : ∀ fd k, s.IsOpen fd → (s.openFileTable fd).ofInumber = (k : Nat) →
    0 < (s.inodeTable k).iSize → k ≠ rootDirInum ∧
      (s.inodeTable k).iDataBlock ≠ (s.inodeTable rootDirInum).iDataBlock

/-- A taken inode is the root, with block 0, or live. -/
theorem Robust.taken_block (h : Robust s) (hk : k < s.fsParams.maxInodeCount)
    (ht : s.freeinodeTs k = .taken) (hs : 0 < (s.inodeTable k).iSize) :
    ∃ b : Nat, (s.inodeTable k).iDataBlock = b ∧ b < s.fsParams.maxBlockCount ∧
      s.freeBlocks b = .taken ∧ ((k = 0 ∧ b = 0) ∨ (s.Live k ∧ 0 < b)) := by
  rcases Nat.eq_zero_or_pos k with rfl | hpos
  · exact ⟨0, by rw [h.root.root_inode]; rfl, h.root.block_pos, h.blocks.root_taken,
      Or.inl ⟨rfl, rfl⟩⟩
  · have hlive : s.Live k := ⟨hpos, hk, ht⟩
    obtain ⟨b, hb, hb0, hblt, hmark, -⟩ := h.blocks.valid k hlive hs
    exact ⟨b, hb, hblt, hmark, Or.inr ⟨hlive, hb0⟩⟩

theorem Robust.block_inj (h : Robust s) (hk : k < s.fsParams.maxInodeCount)
    (hk' : k' < s.fsParams.maxInodeCount) (ht : s.freeinodeTs k = .taken)
    (ht' : s.freeinodeTs k' = .taken) (hs : 0 < (s.inodeTable k).iSize)
    (hs' : 0 < (s.inodeTable k').iSize)
    (heq : (s.inodeTable k).iDataBlock = (s.inodeTable k').iDataBlock) : k = k' := by
  obtain ⟨b, hb, -, -, hcase⟩ := h.taken_block hk ht hs
  obtain ⟨b', hb', -, -, hcase'⟩ := h.taken_block hk' ht' hs'
  obtain rfl : b = b' := Int.ofNat_inj.mp (hb.symm.trans (heq.trans hb'))
  rcases hcase with ⟨rfl, rfl⟩ | ⟨hlive, hpos⟩ <;> rcases hcase' with ⟨rfl, h0⟩ | ⟨hlive', hpos'⟩
  · rfl
  · exact absurd hpos' (Nat.lt_irrefl 0)
  · omega
  · exact h.blocks.distinct k k' hlive hlive' hs hs' heq

theorem Robust.blocksApart (h : Robust s) : BlocksApart s where
  valid k hk ht hs := by
    obtain ⟨b, hb, hblt, hmark, -⟩ := h.taken_block hk ht hs
    exact ⟨b, hb, hblt, hmark⟩
  distinct k hk k' hk' hne ht ht' hs hs' heq := hne (h.block_inj hk hk' ht ht' hs hs' heq)
  root fd k hfd hi hs := by
    obtain ⟨k', hk'⟩ := h.handles fd hfd
    obtain rfl : k' = k := Int.ofNat_inj.mp (hk'.inumber.symm.trans hi)
    obtain ⟨b, hb, hb0, -⟩ := hk'.sound.resolve_left fun hc => by omega
    refine ⟨Nat.ne_of_gt hk'.pos, fun heq => ?_⟩
    have hroot : (s.inodeTable rootDirInum).iDataBlock = 0 := by
      rw [rootDirInum, h.root.root_inode]
    omega

/-- After every run from `tfs_init` on, no two files share a block, and no handle
reaches the block of the directory. -/
theorem blocks_apart {params : Option TfsParams} {m : Malloc}
    (hp : (params.getD tfsDefaultParams).FitsInt) (hinit : tfsInit s params m = .ok (t, 0))
    {u : State} (hrun : Reaches fsStep anyStep t u) : BlocksApart u :=
  (Robust.of_run hp hinit hrun).blocksApart

/-- The same run, in which both handles write to the block of the new file. -/
theorem blocks_apart_reuse :
    ∃ u, exec fsStep (State.static.initial smallParams .zeros) (reuseRun ++ [.tfsWrite 0 [3]])
      = some u ∧ BlocksApart u := by
  have hrun : (exec fsStep (State.static.initial smallParams .zeros)
      (reuseRun ++ [.tfsWrite 0 [3]])).isSome = true := by
    decide +kernel
  obtain ⟨u, hu⟩ := Option.isSome_iff_exists.mp hrun
  exact ⟨u, hu, blocks_apart
    (show TfsParams.FitsInt ((some smallParams).getD _) from smallParams_inRange.usable.toFitsInt)
    (show tfsInit .static (some smallParams) .zeros = .ok (_, 0) from
      tfsInit_of rfl smallParams_inRange.usable rfl rfl)
    (Reaches.of_exec hu (execOk_anyStep _ _))⟩

/-! ## Assertions -/

/-- The call is no read of one byte or more, at an offset other than 0, of an
inode that has no block. -/
def State.HasBlock (s : State) : Op → Prop
  | .tfsRead fhandle len => ∀ fd, s.handle fhandle = some fd →
      len = 0 ∨ (s.openFileTable fd).ofOffset = 0 ∨
        (s.inodeTable (s.openFileTable fd).ofInumber.toNat).iDataBlock ≠ -1
  | _ => True

theorem hasBlock_iff (hk : s.Refers fd k) {fhandle : Int} (hh : s.handle fhandle = some fd)
    {len : Nat} : s.HasBlock (.tfsRead fhandle len) ↔ ¬ s.NoBlock fd k len := by
  have hforall : s.HasBlock (.tfsRead fhandle len) ↔ len = 0 ∨ (s.openFileTable fd).ofOffset = 0 ∨
      (s.inodeTable k).iDataBlock ≠ -1 := by
    constructor
    · intro hall
      have := hall fd hh
      rwa [hk.inumber, Int.toNat_natCast] at this
    · intro hone fd' hfd'
      obtain rfl : fd = fd' := Option.some.inj (hh.symm.trans hfd')
      rwa [hk.inumber, Int.toNat_natCast]
  rw [hforall, State.NoBlock]
  omega

theorem Robust.panicFree_iff (h : Robust s) (op : Op) :
    (∀ message, tfsStep s op ≠ .error (.panic message)) ↔ s.HasBlock op := by
  have hsized := h.root.toSized
  have hok : ∀ {α β : Type} {x : Except Fault α} {r : α} (f : α → β) (message : String),
      x = .ok r → f <$> x ≠ .error (.panic message) := by
    rintro α β x r f message rfl hc
    cases hc
  cases op with
  | tfsOpen path mode =>
    obtain ⟨r, hr, -⟩ := tfsOpen_cases h.toFilesWf path mode
    exact iff_of_true (fun message => hok _ message hr) trivial
  | tfsClose fhandle =>
    exact iff_of_true (fun message => hok _ message (tfsClose_eq hsized fhandle)) trivial
  | tfsWrite fhandle buffer =>
    refine iff_of_true (fun message => ?_) trivial
    cases hh : s.handle fhandle with
    | none => exact hok _ message (tfsWrite_closed hsized hh buffer buffer.length)
    | some fd =>
      obtain ⟨k, hk⟩ := h.refers hh
      rcases tfsWrite_any h hh hk buffer with herr | ⟨r, hr, -⟩
      · rw [tfsStep, herr]
        exact fun hc => by cases hc
      · exact hok _ message hr
  | tfsRead fhandle len =>
    cases hh : s.handle fhandle with
    | none =>
      refine iff_of_true (fun message hc => ?_) fun fd hfd => ?_
      · rw [tfsStep, tfsRead_closed hsized hh] at hc
        cases hc
      · rw [hh] at hfd
        cases hfd
    | some fd =>
      obtain ⟨k, hk⟩ := h.refers hh
      -- A read is the one operation that can panic on an inode without a block.
      rw [hasBlock_iff hk hh]
      rcases tfsRead_any h hh hk len with ⟨hno, hpanic⟩ | ⟨hyes, herr | ⟨r, hr, -⟩⟩
      · exact iff_of_false (fun hall => hall _ hpanic) (not_not_intro hno)
      · refine iff_of_true (fun message hc => ?_) hyes
        rw [tfsStep, herr] at hc
        cases hc
      · refine iff_of_true (fun message hc => ?_) hyes
        rw [tfsStep, hr] at hc
        cases hc
  | tfsUnlink target =>
    obtain ⟨r, hr, -⟩ := tfsUnlink_cases h.toFilesWf target
    exact iff_of_true (fun message => hok _ message hr) trivial

/-- After every run from `tfs_init` on, a call fails no assertion, unless it is a
read behind an inode that has no block. -/
theorem no_panic_iff {params : Option TfsParams} {m : Malloc}
    (hp : (params.getD tfsDefaultParams).FitsInt) (hinit : tfsInit s params m = .ok (t, 0))
    {u : State} (hrun : Reaches fsStep anyStep t u) (op : Op) :
    (∀ message, tfsStep u op ≠ .error (.panic message)) ↔ u.HasBlock op :=
  (Robust.of_run hp hinit hrun).panicFree_iff op

/-- A read from the start of a file that has a block. -/
theorem no_panic_fresh :
    ∃ u, exec fsStep (State.static.initial smallParams .zeros)
        [.tfsOpen pathA tfsOCreat, .tfsWrite 0 [1], .tfsOpen pathA 0] = some u ∧
      ∀ message, tfsStep u (.tfsRead 1 5) ≠ .error (.panic message) := by
  have hrun : (exec fsStep (State.static.initial smallParams .zeros)
      [.tfsOpen pathA tfsOCreat, .tfsWrite 0 [1], .tfsOpen pathA 0]).any
      (fun u => u.openFileTable 1 == ⟨1, 0⟩) = true := by
    decide +kernel
  obtain ⟨u, hu, hopen⟩ := (Option.any_eq_true _ _).mp hrun
  rw [beq_iff_eq] at hopen
  refine ⟨u, hu, (no_panic_iff
    (show TfsParams.FitsInt ((some smallParams).getD _) from smallParams_inRange.usable.toFitsInt)
    (show tfsInit .static (some smallParams) .zeros = .ok (_, 0) from
      tfsInit_of rfl smallParams_inRange.usable rfl rfl)
    (Reaches.of_exec hu (execOk_anyStep _ _)) (.tfsRead 1 5)).mpr fun fd hfd => ?_⟩
  obtain rfl : 1 = fd := Int.ofNat_inj.mp (open_of_handle hfd).1
  rw [hopen]
  exact Or.inr (Or.inl rfl)

/-- The file behind handle 0 is unlinked at offset 1, and its inode goes to a new,
empty file: a read through the handle asks for block -1. -/
theorem stale_read :
    ¬ ∀ (s t u : State) (params : Option TfsParams) (m : Malloc) (op : Op) (message : String),
      (params.getD tfsDefaultParams).InRange → tfsInit s params m = .ok (t, 0) →
      Reaches fsStep anyStep t u → tfsStep u op ≠ .error (.panic message) := by
  intro hall
  have hrun : (exec fsStep (State.static.initial smallParams .zeros)
      [.tfsOpen pathA tfsOCreat, .tfsWrite 0 [1], .tfsUnlink pathA, .tfsOpen pathB tfsOCreat]).any
      (fun u => match tfsStep u (.tfsRead 0 1) with
        | .ok _ => false
        | .error e => e == .panic "data_block_get: invalid block number") = true := by
    decide +kernel
  obtain ⟨u, hu, hread⟩ := (Option.any_eq_true _ _).mp hrun
  split at hread
  · cases hread
  · next e he =>
    rw [beq_iff_eq] at hread
    subst hread
    exact hall .static _ u (some smallParams) .zeros (.tfsRead 0 1) _ smallParams_inRange
      (tfsInit_of rfl smallParams_inRange.usable rfl rfl)
      (Reaches.of_exec hu (execOk_anyStep _ _)) he

end MBroker.Fs
