import MBroker.Fs.AnyUse

/-!
# Conservation of data blocks

A block is taken by the first write to an empty file and given back when the
file is truncated or unlinked. Both sides decide from `i_size` whether there is
a block, so no block is lost as long as every block taken goes to an inode that
is in use. A write through the handle of an unlinked file need not meet this.

Results:
1. `NoLeak.step`: a call that takes no block for a free inode loses none.
2. `blocks_conserved`: in every run of such calls the taken blocks are those of
   the files that are not empty, and the root's.
3. `orphan_block`: the write that loses a block.
-/

namespace MBroker.Fs

open FirstFit ByteMemory Transition

variable {s t : State} {i k b fd : Nat} {n : CStr} {op : Op}

/-- Block `b` holds the data of the file with inode `k`. -/
structure State.Owner (s : State) (k b : Nat) : Prop where
  live : s.Live k
  size : 0 < (s.inodeTable k).iSize
  block : (s.inodeTable k).iDataBlock = b

/-- Every taken block is the root's or that of a file. -/
def NoLeak (s : State) : Prop :=
  ∀ b < s.fsParams.maxBlockCount, s.freeBlocks b = .taken → b = 0 ∨ ∃ k, s.Owner k b

/-- The call is no write that takes a block for an inode that is free. -/
def State.TakesOwned (s : State) : Op → Prop
  | .tfsWrite fhandle buffer => ∀ fd ∈ s.handle fhandle,
      s.freeinodeTs (s.openFileTable fd).ofInumber.toNat = .free →
      (s.inodeTable (s.openFileTable fd).ofInumber.toNat).iSize = 0 →
      buffer = [] ∨ s.fsParams.blockSize ≤ (s.openFileTable fd).ofOffset ∨ s.freeBlock = none
  | _ => True

instance (s : State) : (op : Op) → Decidable (s.TakesOwned op)
  | .tfsWrite fhandle _ => inferInstanceAs (Decidable (∀ fd ∈ s.handle fhandle, _))
  | .tfsOpen .. | .tfsClose _ | .tfsRead .. | .tfsUnlink _ => isTrue trivial

/-! ## One call -/

/-- The rule by which a call loses no block: a block that is taken after it has an
owner, or had one before that is still its owner. -/
theorem NoLeak.of_owners (h : NoLeak s) (hp : t.fsParams = s.fsParams)
    (hown : ∀ b, t.freeBlocks b = .taken →
      (∃ k, t.Owner k b) ∨ (s.freeBlocks b = .taken ∧ ∀ k, s.Owner k b → t.Owner k b)) :
    NoLeak t := by
  intro b hb ht
  rw [hp] at hb
  rcases hown b ht with hnew | ⟨hold, hkeep⟩
  · exact Or.inr hnew
  · exact (h b hb hold).imp_right fun ⟨k, hk⟩ => ⟨k, hkeep k hk⟩

/-- The inodes and the block map are as they were. -/
theorem NoLeak.of_same (h : NoLeak s) (hp : t.fsParams = s.fsParams)
    (hts : t.freeinodeTs = s.freeinodeTs) (hi : t.inodeTable = s.inodeTable)
    (hb : t.freeBlocks = s.freeBlocks) : NoLeak t := by
  refine h.of_owners hp fun b ht => Or.inr ⟨by rw [← hb]; exact ht, fun k hk => ?_⟩
  exact ⟨(live_iff hp (by rw [hts])).mpr
    hk.live, by rw [hi]; exact hk.size, by rw [hi]; exact hk.block⟩

theorem NoLeak.openHandle (h : NoLeak s) (k : Int) (offset : Nat) :
    NoLeak (s.openHandle k offset).1 := by
  unfold State.openHandle
  split
  · exact h.of_same rfl rfl rfl rfl
  · exact h

/-- Once its block is given back, the blocks still taken are those of other files. -/
theorem releaseBlock_taken (ht : (s.releaseBlock k).freeBlocks b = .taken) :
    s.freeBlocks b = .taken ∧ ∀ k', s.Owner k' b → k' ≠ k := by
  simp only [State.releaseBlock] at ht
  split at ht
  · have hne : b ≠ (s.inodeTable k).iDataBlock.toNat := by
      rintro rfl
      rw [Function.update_self] at ht
      cases ht
    rw [Function.update_of_ne hne] at ht
    refine ⟨ht, ?_⟩
    rintro k' hk' rfl
    rw [hk'.block] at hne
    exact hne (Int.toNat_natCast b).symm
  · next hs =>
    refine ⟨ht, ?_⟩
    rintro k' hk' rfl
    exact hs hk'.size

theorem NoLeak.truncate (h : NoLeak s) : NoLeak (s.truncate k) := by
  refine h.of_owners rfl fun b ht => Or.inr ?_
  obtain ⟨hold, hother⟩ := releaseBlock_taken ht
  refine ⟨hold, fun k' hk' => ?_⟩
  have hinode : (s.truncate k).inodeTable k' = s.inodeTable k' :=
    Function.update_of_ne (hother k' hk') ..
  exact ⟨live_of_marks hk'.live rfl
    rfl, by rw [hinode]; exact hk'.size, by rw [hinode]; exact hk'.block⟩

theorem NoLeak.removeFile (h : NoLeak s) : NoLeak (s.removeFile k i) := by
  refine h.of_owners rfl fun b ht => Or.inr ?_
  obtain ⟨hold, hother⟩ := releaseBlock_taken ht
  exact ⟨hold, fun k' hk' =>
    ⟨(live_removeFile i).mpr ⟨hother k' hk', hk'.live⟩, hk'.size, hk'.block⟩⟩

theorem NoLeak.setInode (h : NoLeak s) (hdead : ¬ s.Live k) (inode : Inode) :
    NoLeak (s.setInode k inode) := by
  refine h.of_owners rfl fun b ht => Or.inr ⟨ht, fun k' hk' => ?_⟩
  have hne : k' ≠ k := fun heq => hdead (heq ▸ hk'.live)
  have hinode : (s.setInode k inode).inodeTable k' = s.inodeTable k' := Function.update_of_ne hne ..
  exact ⟨live_of_marks hk'.live rfl
    rfl, by rw [hinode]; exact hk'.size, by rw [hinode]; exact hk'.block⟩

theorem NoLeak.createFile (h : NoLeak s) (h0 : 0 < k) (hlt : k < s.fsParams.maxInodeCount)
    (hfree : s.freeinodeTs k = .free) : NoLeak (s.createFile k i n) := by
  refine h.of_owners rfl fun b ht => Or.inr ⟨ht, fun k' hk' => ?_⟩
  have hne : k' ≠ k := fun heq => not_live_of_free hfree (heq ▸ hk'.live)
  have hinode : (s.createFile k i n).inodeTable k' = s.inodeTable k' :=
    Function.update_of_ne hne ..
  exact ⟨(live_createFile h0 hlt i n).mpr (Or.inr hk'.live), by rw [hinode]; exact hk'.size,
    by rw [hinode]; exact hk'.block⟩

/-- The first block of an empty file that is in use. -/
theorem NoLeak.writeFresh (h : NoLeak s) (hk : s.Live k) (hs : (s.inodeTable k).iSize = 0)
    {bytes : List UInt8} (hbytes : 0 < bytes.length) :
    NoLeak ((s.takeBlock b).writeAt fd k b bytes) := by
  have hself : ((s.takeBlock b).writeAt fd k b bytes).inodeTable k =
      { s.inodeTable k with
        iDataBlock := b
        iSize := max (s.inodeTable k).iSize ((s.openFileTable fd).ofOffset + bytes.length) } :=
    Function.update_self ..
  refine h.of_owners rfl fun b' ht => ?_
  by_cases hbb : b' = b
  · subst hbb
    refine Or.inl ⟨k, live_of_marks hk rfl rfl, ?_, by rw [hself]⟩
    rw [hself]
    exact Nat.lt_of_lt_of_le (by omega) (Nat.le_max_right _ _)
  · right
    have hmark : ((s.takeBlock b).writeAt fd k b bytes).freeBlocks b' = s.freeBlocks b' :=
      Function.update_of_ne hbb ..
    rw [hmark] at ht
    refine ⟨ht, fun k' hk' => ?_⟩
    have hne : k' ≠ k := by
      rintro rfl
      exact absurd hk'.size (by omega)
    have hinode : ((s.takeBlock b).writeAt fd k b bytes).inodeTable k' = s.inodeTable k' :=
      inodeTable_writeAt_of_ne hne
    exact ⟨live_of_marks hk'.live rfl rfl, by rw [hinode]; exact hk'.size,
      by rw [hinode]; exact hk'.block⟩

theorem NoLeak.writeOwn (h : NoLeak s) (hb : (s.inodeTable k).iDataBlock = b) (bytes : List UInt8) :
    NoLeak (s.writeAt fd k b bytes) := by
  have hself : (s.writeAt fd k b bytes).inodeTable k =
      { s.inodeTable k with
        iDataBlock := b
        iSize := max (s.inodeTable k).iSize ((s.openFileTable fd).ofOffset + bytes.length) } :=
    Function.update_self ..
  refine h.of_owners rfl fun b' ht => Or.inr ⟨ht, fun k' hk' => ?_⟩
  have hlive : (s.writeAt fd k b bytes).Live k' := live_of_marks hk'.live rfl rfl
  by_cases hkk : k' = k
  · subst hkk
    refine ⟨hlive, ?_, ?_⟩
    · rw [hself]
      exact Nat.lt_of_lt_of_le hk'.size (Nat.le_max_left _ _)
    · rw [hself, ← hk'.block, hb]
  · have hinode : (s.writeAt fd k b bytes).inodeTable k' = s.inodeTable k' :=
      inodeTable_writeAt_of_ne hkk
    exact ⟨hlive, by rw [hinode]; exact hk'.size, by rw [hinode]; exact hk'.block⟩

/-- A write that takes a block takes it for a live inode. -/
theorem live_of_takesOwned {fhandle : Int} {buffer : List UInt8} {m : Nat}
    (hown : s.TakesOwned (.tfsWrite fhandle buffer)) (hh : s.handle fhandle = some fd)
    (hk : s.Refers fd k) (hpos : 0 < m) (hlen : m ≤ buffer.length)
    (hfit : (s.openFileTable fd).ofOffset + m ≤ s.fsParams.blockSize)
    (hs : (s.inodeTable k).iSize = 0) (hb : s.freeBlock = some b) : s.Live k := by
  have hcond := hown fd hh
  rw [hk.inumber, Int.toNat_natCast] at hcond
  cases ht : s.freeinodeTs k with
  | taken => exact ⟨hk.pos, hk.lt, ht⟩
  | free =>
    exfalso
    rcases hcond ht hs with hnil | hoff | hnone
    · rw [hnil, List.length_nil] at hlen
      omega
    · omega
    · rw [hb] at hnone
      cases hnone

theorem NoLeak.step (h : Robust s) (hn : NoLeak s) (hown : s.TakesOwned op)
    (hs : fsStep s op = some t) : NoLeak t := by
  cases h.called hs with
  | refused => exact hn
  | opened ho =>
    cases ho with
    | refused => exact hn
    | noEntry hk =>
      obtain ⟨-, -, hfree⟩ := freeInode_some h.toFilesWf hk
      exact hn.setInode (not_live_of_free hfree) _
    | @existing p k _ _ _ =>
      refine NoLeak.openHandle ?_ _ _
      unfold State.openState
      split
      · exact hn.truncate
      · exact hn
    | created _ _ _ hk _ _ =>
      obtain ⟨h0, hlt, hfree⟩ := freeInode_some h.toFilesWf hk
      exact (hn.createFile h0 hlt hfree).openHandle _ _
  | closed => exact hn.of_same rfl rfl rfl rfl
  | wrote hh hk hw =>
    cases hw with
    | nothing => exact hn
    | full => exact hn
    | alloc hpos hlen hfit hsize hb =>
      have hlive := live_of_takesOwned hown hh hk hpos hlen hfit hsize hb
      refine hn.writeFresh hlive hsize ?_
      rw [List.length_take]
      omega
    | own _ _ _ hb => exact hn.writeOwn hb _
  | read _ _ hread =>
    cases hread with
    | nothing => exact hn
    | some => exact hn.of_same rfl rfl rfl rfl
  | unlinked hu =>
    cases hu with
    | refused => exact hn
    | removed => exact hn.removeFile

/-! ## Every run -/

def State.blocksFree (s : State) : Nat :=
  Nat.count (fun b => s.freeBlocks b = .free) s.fsParams.maxBlockCount

/-- How many existing inodes are not empty, the root included. -/
def State.inodesFilled (s : State) : Nat :=
  Nat.count (fun k => s.freeinodeTs k = .taken ∧ 0 < (s.inodeTable k).iSize)
    s.fsParams.maxInodeCount

/-- No block is lost. -/
structure BlocksConserved (s : State) : Prop where
  owned : ∀ b < s.fsParams.maxBlockCount, s.freeBlocks b = .taken →
    ∃ k < s.fsParams.maxInodeCount, s.freeinodeTs k = .taken ∧ 0 < (s.inodeTable k).iSize ∧
      (s.inodeTable k).iDataBlock = b
  free : s.blocksFree = s.fsParams.maxBlockCount - s.inodesFilled
  unlinked : (∀ i, ¬ s.Used i) → ∀ b < s.fsParams.maxBlockCount, s.freeBlocks b = .taken ↔ b = 0

theorem NoLeak.owned (h : Robust s) (hn : NoLeak s) (hpos : 0 < s.fsParams.blockSize)
    (hb : b < s.fsParams.maxBlockCount) (ht : s.freeBlocks b = .taken) :
    ∃ k < s.fsParams.maxInodeCount, s.freeinodeTs k = .taken ∧ 0 < (s.inodeTable k).iSize ∧
      (s.inodeTable k).iDataBlock = b := by
  rcases hn b hb ht with rfl | ⟨k, hk⟩
  · exact ⟨0, h.root.inode_pos, h.linked.root_taken, by rw [h.root.root_inode]; exact hpos,
      by rw [h.root.root_inode]; rfl⟩
  · exact ⟨k, hk.live.lt, hk.live.taken, hk.size, hk.block⟩

theorem NoLeak.conserved (h : Robust s) (hn : NoLeak s) (hpos : 0 < s.fsParams.blockSize) :
    BlocksConserved s := by
  refine ⟨fun b hb ht => hn.owned h hpos hb ht, ?_, fun hempty b hb => ⟨fun ht => ?_, ?_⟩⟩
  · -- the inodes that are not empty correspond to the taken blocks
    have hfilled : s.inodesFilled
        = Nat.count (fun b => s.freeBlocks b = .taken) s.fsParams.maxBlockCount := by
      refine count_bij (fun k => (s.inodeTable k).iDataBlock.toNat) (fun k hk hfill => ?_)
        (fun k hk k' hk' hfill hfill' heq => ?_) fun b hb ht => ?_
      · obtain ⟨b, hb, hblt, hmark, -⟩ := h.taken_block hk hfill.1 hfill.2
        rw [hb, Int.toNat_natCast]
        exact ⟨hblt, hmark⟩
      · obtain ⟨b, hb, -⟩ := h.taken_block hk hfill.1 hfill.2
        obtain ⟨b', hb', -⟩ := h.taken_block hk' hfill'.1 hfill'.2
        refine h.block_inj hk hk' hfill.1 hfill'.1 hfill.2 hfill'.2 ?_
        rw [hb, hb', Int.toNat_natCast, Int.toNat_natCast] at heq
        rw [hb, hb', heq]
      · obtain ⟨k, hk, htk, hs, hblock⟩ := hn.owned h hpos hb ht
        exact ⟨k, hk, ⟨htk, hs⟩, by rw [hblock, Int.toNat_natCast]⟩
    have hsum : Nat.count (fun b => s.freeBlocks b = .taken) s.fsParams.maxBlockCount + s.blocksFree
        = s.fsParams.maxBlockCount := by
      refine count_compl (fun j => ?_) _
      cases s.freeBlocks j <;> simp
    omega
  · rcases hn b hb ht with h0 | ⟨k, hk⟩
    · exact h0
    · obtain ⟨i, ⟨hu, -⟩, -⟩ := h.directory.covered k hk.live
      exact absurd hu (hempty i)
  · rintro rfl
    exact h.blocks.root_taken

theorem initial_noLeak {q : TfsParams} {m : Malloc} : NoLeak (s.initial q m) := by
  intro b hb ht
  by_contra hnot
  rw [not_or] at hnot
  have hmark : (s.initial q m).freeBlocks b = .free :=
    (Function.update_of_ne hnot.1 ..).trans (freshTables_block hb)
  rw [hmark] at ht
  cases ht

/-- In every run of calls that take no block for a free inode, no block is lost. -/
theorem blocks_conserved {params : Option TfsParams} {m : Malloc}
    (hp : (params.getD tfsDefaultParams).FitsInt)
    (hpos : 0 < (params.getD tfsDefaultParams).blockSize)
    (hinit : tfsInit s params m = .ok (t, 0)) {u : State}
    (hrun : Reaches fsStep State.TakesOwned t u) : BlocksConserved u := by
  obtain ⟨husable, rfl⟩ := tfsInit_inv hp hinit
  have hinv : (Robust u ∧ NoLeak u) ∧ u.fsParams = params.getD tfsDefaultParams := by
    refine hrun.invariant (I := fun v => (Robust v ∧ NoLeak v) ∧
      v.fsParams = params.getD tfsDefaultParams)
      ⟨⟨initial_robust husable, initial_noLeak⟩, rfl⟩ fun v op w hv hown hs => ?_
    exact ⟨⟨hv.1.1.step hs, hv.1.2.step hv.1.1 hown hs⟩, (hv.1.1.called hs).params.trans hv.2⟩
  exact hinv.1.2.conserved hinv.1.1 (by rw [hinv.2]; exact hpos)

/-- A run that writes to a file, unlinks it and creates another. -/
theorem blocks_conserved_reuse :
    ∃ u, exec fsStep (State.static.initial smallParams .zeros) reuseRun = some u ∧
      BlocksConserved u := by
  have hrun : (exec fsStep (State.static.initial smallParams .zeros) reuseRun).isSome = true ∧
      execOk fsStep State.TakesOwned (State.static.initial smallParams .zeros) reuseRun := by
    decide +kernel
  obtain ⟨u, hu⟩ := Option.isSome_iff_exists.mp hrun.1
  exact ⟨u, hu, blocks_conserved
    (show TfsParams.FitsInt ((some smallParams).getD _) from smallParams_inRange.usable.toFitsInt)
    (show 0 < smallParams.blockSize by decide)
    (show tfsInit .static (some smallParams) .zeros = .ok (_, 0) from
      tfsInit_of rfl smallParams_inRange.usable rfl rfl)
    (Reaches.of_exec hu hrun.2)⟩

/-- A write through the handle of an unlinked empty file takes a block that no file
has. -/
theorem orphan_block :
    ¬ ∀ (s t u : State) (params : Option TfsParams) (m : Malloc),
      (params.getD tfsDefaultParams).InRange → tfsInit s params m = .ok (t, 0) →
      Reaches fsStep anyStep t u → BlocksConserved u := by
  intro hall
  have hrun : (exec fsStep (State.static.initial smallParams .zeros)
      [.tfsOpen pathA tfsOCreat, .tfsUnlink pathA, .tfsWrite 0 [1]]).any
      (fun u => u.fsParams.maxBlockCount == 4 && u.fsParams.maxInodeCount == 4 &&
        u.freeBlocks 1 == .taken && u.freeinodeTs 1 == .free && u.freeinodeTs 2 == .free &&
        u.freeinodeTs 3 == .free &&
        u.inodeTable 0 == ⟨.tDirectory, 88, 0⟩) = true := by
    decide +kernel
  obtain ⟨u, hu, hfacts⟩ := (Option.any_eq_true _ _).mp hrun
  simp only [Bool.and_eq_true, beq_iff_eq] at hfacts
  obtain ⟨⟨⟨⟨⟨⟨hblocks, hinodes⟩, htaken⟩, h1⟩, h2⟩, h3⟩, hroot⟩ := hfacts
  have hcons := hall .static _ u (some smallParams) .zeros smallParams_inRange
    (tfsInit_of rfl smallParams_inRange.usable rfl rfl) (Reaches.of_exec hu (execOk_anyStep _ _))
  obtain ⟨k, hk, hkt, -, hb⟩ := hcons.owned 1 (by omega) htaken
  have hzero : k = 0 := by
    rcases (by omega : k = 0 ∨ k = 1 ∨ k = 2 ∨ k = 3) with rfl | rfl | rfl | rfl
    · rfl
    · cases h1.symm.trans hkt
    · cases h2.symm.trans hkt
    · cases h3.symm.trans hkt
  rw [hzero, hroot] at hb
  cases hb

end MBroker.Fs
