import MBroker.Fs.Effects
import MBroker.Library.Runs

/-!
# Isolation of files through handles

A handle keeps an inode number, and inodes are given out again. What ties a
handle to the file it was opened on is that this file has not been unlinked
since: `Tracked` runs the operations with that bit next to every handle.

Results:
1. `Tracked.isolated`: in every run that reads and writes only through handles
   whose file still exists, and reads no further than the block of that file, a
   write changes no other file and a read takes no byte of one.
2. `stale_write`: without the condition a write through the handle of an unlinked
   file goes to the file that was created in its place.
-/

namespace MBroker.Fs

open FirstFit ByteMemory Transition

/-- The file system, and for every handle whether the file it was opened on still
exists. -/
structure Tracked where
  st : State
  alive : Nat → Bool

variable {s t : State} {i k b fd : Nat} {x y : Tracked} {op : Op}

/-- The handles whose file still exists after a call that went from `s` to `t`:
the one that was opened by it and those that were good before, unless the inode
has been freed. -/
def Tracked.aliveAfter (x : Tracked) (op : Op) (t : State) (ret : Int) (fd : Nat) : Bool :=
  let opened := match op with
    | .tfsOpen _ _ => ret == (fd : Int)
    | _ => false
  (opened || x.alive fd) && t.freeinodeTs (t.openFileTable fd).ofInumber.toNat == .taken

/-- One call; not enabled where it stops the process. -/
def Tracked.step (x : Tracked) (op : Op) : Option Tracked :=
  match tfsStep x.st op with
  | .ok (t, ret, _) => some ⟨t, x.aliveAfter op t ret⟩
  | .error _ => none

/-- Right after `tfs_init`. -/
def Tracked.initial (s : State) : Tracked := ⟨s, fun _ => false⟩

/-- The file with inode `k` is the one that handle `fd` was opened on. -/
def Tracked.Own (x : Tracked) (fd k : Nat) : Prop :=
  x.alive fd = true ∧ (x.st.openFileTable fd).ofInumber = k

/-- The byte at address `a` of `fs_data` is a byte of the file with inode `k`. -/
def State.ByteOf (s : State) (k a : Nat) : Prop :=
  s.Live k ∧ (s.inodeTable k).iDataBlock.toNat * s.fsParams.blockSize ≤ a ∧
    a < (s.inodeTable k).iDataBlock.toNat * s.fsParams.blockSize + (s.inodeTable k).iSize

/-- Where in `fs_data` a read through handle `fd` starts. -/
def State.readStart (s : State) (fd : Nat) : Nat :=
  (s.inodeTable (s.openFileTable fd).ofInumber.toNat).iDataBlock.toNat * s.fsParams.blockSize
    + (s.openFileTable fd).ofOffset

/-- What a call may do to other files: a write leaves them as they are, and a read
takes bytes of none of them. -/
def Tracked.Isolated (x : Tracked) (t : State) (bytes : List UInt8) : Op → Prop
  | .tfsWrite fhandle _ => ∀ fd, x.st.handle fhandle = some fd →
      ∀ k, x.st.Live k → ¬ x.Own fd k → t.Live k ∧ t.content k = x.st.content k
  | .tfsRead fhandle _ => ∀ fd, x.st.handle fhandle = some fd →
      bytes = read x.st.fsData (x.st.readStart fd) bytes.length ∧
        ∀ j < bytes.length, ∀ k, x.st.ByteOf k (x.st.readStart fd + j) → x.Own fd k
  | _ => True

/-- The file of every handle that is used still exists, and a read asks for no
byte behind the block of the file. -/
def Tracked.Current (x : Tracked) : Op → Prop
  | .tfsWrite fhandle buffer => buffer.length < 9223372036854775808 ∧
      ∀ fd, x.st.handle fhandle = some fd → x.alive fd = true
  | .tfsRead fhandle len => ∀ fd, x.st.handle fhandle = some fd →
      x.alive fd = true ∧ x.st.Inside fd (x.st.openFileTable fd).ofInumber.toNat len
  | _ => True

/-! ## The invariant -/

structure Tracked.Inv (x : Tracked) : Prop where
  wf : WellFormed x.st
  live : ∀ fd k, (x.st.openFileTable fd).ofInumber = (k : Nat) → x.st.IsOpen fd →
    x.alive fd = true → x.st.Live k

/-- Two blocks have no byte in common. -/
theorem block_unique {b' a bs : Nat} (h1 : b * bs ≤ a) (h2 : a < b * bs + bs) (h3 : b' * bs ≤ a)
    (h4 : a < b' * bs + bs) : b = b' := by
  rcases Nat.lt_trichotomy b b' with hlt | heq | hlt
  · have := Nat.mul_le_mul_right bs (Nat.succ_le_of_lt hlt)
    rw [Nat.succ_mul] at this
    omega
  · exact heq
  · have := Nat.mul_le_mul_right bs (Nat.succ_le_of_lt hlt)
    rw [Nat.succ_mul] at this
    omega

/-- A byte in a block that may hold the data of inode `k` is a byte of no other
file. -/
theorem State.Room.byteOf {k' a : Nat} (h : WellFormed s) (hroom : s.Room k b)
    (hlo : b * s.fsParams.blockSize ≤ a)
    (hhi : a < b * s.fsParams.blockSize + s.fsParams.blockSize) (ha : s.ByteOf k' a) : k' = k := by
  obtain ⟨hlive, hlo', hhi'⟩ := ha
  have hs : 0 < (s.inodeTable k').iSize := by omega
  obtain ⟨b', hb', -, -, -, hle⟩ := h.blocks.valid k' hlive hs
  rw [hb', Int.toNat_natCast] at hlo' hhi'
  by_contra hne
  refine hroom.own k' hlive hne hs ?_
  rw [hb', block_unique hlo hhi hlo' (by omega)]

theorem Tracked.Inv.handle (h : x.Inv) {fhandle : Int} (hh : x.st.handle fhandle = some fd)
    (ha : x.alive fd = true) :
    ∃ k : Nat, (x.st.openFileTable fd).ofInumber = k ∧ x.st.Live k := by
  obtain ⟨-, hopen⟩ := open_of_handle hh
  obtain ⟨⟨k, hk, -⟩, -⟩ := h.wf.handles fd hopen.1 hopen.2
  exact ⟨k, hk, h.live fd k hk hopen ha⟩

theorem Tracked.Inv.write (h : x.Inv) {fhandle : Int} {buffer : List UInt8}
    (hc : x.Current (.tfsWrite fhandle buffer)) :
    ∃ r, tfsWrite x.st fhandle buffer buffer.length = .ok r ∧ WellFormed r.1 ∧
      x.Isolated r.1 [] (.tfsWrite fhandle buffer) := by
  cases hh : x.st.handle fhandle with
  | none =>
    refine ⟨_, tfsWrite_closed h.wf.root.toSized hh _ _, h.wf, fun fd hfd => ?_⟩
    rw [hh] at hfd
    cases hfd
  | some fd =>
    obtain ⟨k, hi, hk⟩ := h.handle hh (hc.2 fd hh)
    obtain ⟨r, hr, hw⟩ := tfsWrite_cases h.wf hh hi hk hc.1 rfl
    refine ⟨r, hr, hw.wellFormed h.wf hh hk rfl, fun fd' hfd k' hk' hown => ?_⟩
    rw [hh, Option.some.injEq] at hfd
    subst hfd
    refine hw.others h.wf hh rfl hk' ?_
    rintro rfl
    exact hown ⟨hc.2 fd hh, hi⟩

theorem Tracked.Inv.read (h : x.Inv) {fhandle : Int} {len : Nat}
    (hc : x.Current (.tfsRead fhandle len)) :
    ∃ r, tfsRead x.st fhandle len = .ok r ∧ WellFormed r.1 ∧
      x.Isolated r.1 r.2.2 (.tfsRead fhandle len) := by
  cases hh : x.st.handle fhandle with
  | none =>
    refine ⟨_, tfsRead_closed h.wf.root.toSized hh _, h.wf, fun fd hfd => ?_⟩
    rw [hh] at hfd
    cases hfd
  | some fd =>
    obtain ⟨ha, hin⟩ := hc fd hh
    obtain ⟨k, hi, hk⟩ := h.handle hh ha
    rw [hi, Int.toNat_natCast] at hin
    obtain ⟨r, hr, hread⟩ := tfsRead_cases h.wf hh hi hk hin
    refine ⟨r, hr, hread.wellFormed h.wf, fun fd' hfd => ?_⟩
    rw [hh, Option.some.injEq] at hfd
    subst hfd
    cases hread with
    | nothing => exact ⟨rfl, fun j hj => absurd hj (Nat.not_lt_zero j)⟩
    | @some b m hpos hs hb hroom hend =>
      have hstart : x.st.readStart fd
          = b * x.st.fsParams.blockSize + (x.st.openFileTable fd).ofOffset := by
        rw [State.readStart, hi, Int.toNat_natCast, hb, Int.toNat_natCast]
      rw [hstart, length_read]
      refine ⟨rfl, fun j hj k' hk' => ⟨ha, ?_⟩⟩
      rw [hroom.byteOf h.wf (by omega) (by omega) hk']
      exact hi

/-- A call whose use of handles is current does not stop the process, keeps the
file system well formed and is isolated from other files. -/
theorem Tracked.Inv.call (h : x.Inv) (hc : x.Current op) :
    ∃ t ret bytes, tfsStep x.st op = .ok (t, ret, bytes) ∧ WellFormed t ∧
      x.Isolated t bytes op := by
  cases op with
  | tfsOpen path mode =>
    obtain ⟨r, hr, ho⟩ := tfsOpen_cases h.wf.toFilesWf path mode
    exact ⟨r.1, r.2, [], by rw [tfsStep, hr]; rfl, ho.wellFormed h.wf, trivial⟩
  | tfsClose fhandle =>
    have hclose := tfsClose_eq h.wf.root.toSized fhandle
    cases hh : x.st.handle fhandle with
    | none =>
      rw [hh] at hclose
      exact ⟨x.st, -1, [], by rw [tfsStep, hclose]; rfl, h.wf, trivial⟩
    | some fd =>
      rw [hh] at hclose
      exact ⟨x.st.closeHandle fd, 0, [], by rw [tfsStep, hclose]; rfl, h.wf.closeHandle, trivial⟩
  | tfsWrite fhandle buffer =>
    obtain ⟨r, hr, hwf, hiso⟩ := h.write hc
    exact ⟨r.1, r.2, [], by rw [tfsStep, hr]; rfl, hwf, hiso⟩
  | tfsRead fhandle len =>
    obtain ⟨r, hr, hwf, hiso⟩ := h.read hc
    exact ⟨r.1, r.2.1, r.2.2, hr, hwf, hiso⟩
  | tfsUnlink target =>
    obtain ⟨r, hr, hu⟩ := tfsUnlink_cases h.wf.toFilesWf target
    exact ⟨r.1, r.2, [], by rw [tfsStep, hr]; rfl, hu.wellFormed h.wf, trivial⟩

theorem Tracked.Inv.step (h : x.Inv) (hc : x.Current op) (hs : x.step op = some y) : y.Inv := by
  obtain ⟨t, ret, bytes, ht, hwf, -⟩ := h.call hc
  rw [Tracked.step, ht, Option.some.injEq] at hs
  subst hs
  refine ⟨hwf, fun fd k hk hopen ha => ?_⟩
  obtain ⟨⟨k', hk', h0, hlt⟩, -⟩ := hwf.handles fd hopen.1 hopen.2
  obtain rfl : k' = k := Int.ofNat_inj.mp (hk'.symm.trans hk)
  refine ⟨h0, hlt, ?_⟩
  simp only [aliveAfter, Bool.and_eq_true, beq_iff_eq] at ha
  have hinum : (t.openFileTable fd).ofInumber = (k' : Nat) := hk'
  have htaken := ha.2
  rwa [hinum, Int.toNat_natCast] at htaken

theorem Tracked.initial_inv {params : Option TfsParams} {m : Malloc}
    (hr : (params.getD tfsDefaultParams).InRange) (hinit : tfsInit s params m = .ok (t, 0)) :
    (Tracked.initial t).Inv := by
  rw [(tfsInit_inv hr.usable.toFitsInt hinit).2]
  exact ⟨initial_wellFormed hr.usable, fun fd k _ _ ha => by cases ha⟩

/-- Isolation, for every run whose calls use handles of existing files only. -/
theorem Tracked.isolated {params : Option TfsParams} {m : Malloc}
    (hr : (params.getD tfsDefaultParams).InRange) (hinit : tfsInit s params m = .ok (t, 0))
    (hrun : Reaches Tracked.step Tracked.Current (Tracked.initial t) x) (hc : x.Current op) :
    ∃ u ret bytes, tfsStep x.st op = .ok (u, ret, bytes) ∧ x.Isolated u bytes op := by
  have hinv := hrun.invariant (Tracked.initial_inv hr hinit) fun _ _ _ hi hc hs => hi.step hc hs
  obtain ⟨u, ret, bytes, hu, -, hiso⟩ := hinv.call hc
  exact ⟨u, ret, bytes, hu, hiso⟩

/-! ## Use of a handle after its file is gone -/

/-- Room for three files of 88 bytes. -/
def smallParams : TfsParams :=
  { maxInodeCount := 4, maxBlockCount := 4, maxOpenFilesCount := 4, blockSize := 88 }

theorem smallParams_inRange : smallParams.InRange := by
  constructor <;> decide

theorem nul_notMem_pathA : (0 : UInt8) ∉ [47, 97] := by decide

def pathA : Option CStr := some ⟨[47, 97], nul_notMem_pathA⟩
def pathB : Option CStr := some ⟨[47, 98], by decide⟩

/-- A read through the handle of a file that was just created. -/
theorem isolated_read :
    ∃ x u ret bytes, tfsStep (Tracked.st x) (.tfsRead 0 16) = .ok (u, ret, bytes) ∧
      x.Isolated u bytes (.tfsRead 0 16) := by
  have hopen : (Tracked.step (.initial (State.static.initial smallParams .zeros))
      (.tfsOpen pathA tfsOCreat)).any (fun x => x.alive 0 &&
      x.st.openFileTable 0 == ⟨1, 0⟩) = true := by
    decide +kernel
  obtain ⟨x, hx, hstate⟩ := (Option.any_eq_true _ _).mp hopen
  rw [Bool.and_eq_true, beq_iff_eq] at hstate
  refine ⟨x,
    Tracked.isolated (show TfsParams.InRange ((some smallParams).getD _) from smallParams_inRange)
    (show tfsInit .static (some smallParams) .zeros = .ok (_, 0) from
      tfsInit_of rfl smallParams_inRange.usable rfl rfl)
        (.next (e := .tfsOpen pathA tfsOCreat) .refl trivial hx)
    fun fd hfd => ?_⟩
  obtain ⟨h0, -⟩ := open_of_handle hfd
  obtain rfl : 0 = fd := Int.ofNat_inj.mp h0
  refine ⟨hstate.1, Or.inl ?_⟩
  rw [hstate.2]
  exact Nat.zero_le _

/-- The file behind handle 0 is unlinked, and its inode goes to a new file. -/
def reuseRun : List Op :=
  [.tfsOpen pathA tfsOCreat, .tfsWrite 0 [1], .tfsUnlink pathA, .tfsOpen pathB tfsOCreat,
    .tfsWrite 1 [2]]

/-- A write through the handle of the unlinked file appends to the new file. -/
theorem stale_write :
    ¬ ∀ (s t : State) (params : Option TfsParams) (m : Malloc) (x : Tracked) (op : Op) (u : State)
      (ret : Int) (bytes : List UInt8), (params.getD tfsDefaultParams).InRange →
      tfsInit s params m = .ok (t, 0) →
      Reaches Tracked.step anyStep (Tracked.initial t) x →
      tfsStep x.st op = .ok (u, ret, bytes) → x.Isolated u bytes op := by
  intro hall
  have hrun : (exec Tracked.step (.initial (State.static.initial smallParams .zeros)) reuseRun).any
      (fun x => x.st.handle 0 == some 0 && !x.alive 0 && x.st.freeinodeTs 1 == .taken &&
        decide (1 < x.st.fsParams.maxInodeCount) &&
        match tfsStep x.st (.tfsWrite 0 [3]) with
        | .ok (u, _) => u.content 1 != x.st.content 1
        | .error _ => false) = true := by
    decide +kernel
  obtain ⟨x, hx, hfacts⟩ := (Option.any_eq_true _ _).mp hrun
  simp only [Bool.and_eq_true, beq_iff_eq, Bool.not_eq_true', decide_eq_true_eq] at hfacts
  obtain ⟨⟨⟨⟨hhandle, hstale⟩, htaken⟩, hlt⟩, hwrite⟩ := hfacts
  split at hwrite
  · next u ret hstep =>
    have hiso := hall .static _ (some smallParams) .zeros x (.tfsWrite 0 [3]) u ret.1 ret.2
      smallParams_inRange (tfsInit_of rfl smallParams_inRange.usable rfl rfl)
      (Reaches.of_exec hx (execOk_anyStep _ _)) hstep
    have hsame := hiso 0 hhandle 1 ⟨Nat.one_pos, hlt, htaken⟩ fun hown => by
      rw [hown.1] at hstale
      cases hstale
    rw [hsame.2, bne_self_eq_false] at hwrite
    cases hwrite
  · cases hwrite

end MBroker.Fs
