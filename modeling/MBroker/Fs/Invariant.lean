import MBroker.Fs.Directory

/-!
# The invariant of TecnicoFS

What ties the directory, the inode table, the two allocation maps and the open
file table together. The parts are separate because they fail separately: an
unlink of an open file leaves a handle on an inode that is no longer live, and
the rest of the invariant still holds.

Results:
1. `lookup_createFile`, `lookup_removeFile`: what the two changes of the
   directory do to the names.
2. `FilesWf.createFile`, `.removeFile`, `.truncate`, `.writeAt`, ...: each
   change that an operation makes keeps the invariant. The theorems on
   `WellFormed` add the handles.
3. `content_writeAt_of_ne`: a write leaves the content of every other file.
-/

namespace MBroker.Fs

open FirstFit ByteMemory

/-- Inode `k` is allocated and is not the root. -/
structure State.Live (s : State) (k : Nat) : Prop where
  pos : 0 < k
  lt : k < s.fsParams.maxInodeCount
  taken : s.freeinodeTs k = .taken

/-- The bytes of the file with inode `k`. -/
def State.content (s : State) (k : Nat) : List UInt8 :=
  read s.fsData ((s.inodeTable k).iDataBlock.toNat * s.fsParams.blockSize) (s.inodeTable k).iSize

@[simp] theorem length_content (s : State) (k : Nat) :
    (s.content k).length = (s.inodeTable k).iSize := length_read ..

/-- Names and live inodes correspond one to one. -/
structure Linked (s : State) : Prop where
  root_taken : s.freeinodeTs 0 = .taken
  live : ∀ n k, s.lookup n = some k → s.Live k
  inj : ∀ n n' k, s.lookup n = some k → s.lookup n' = some k → n = n'
  named : ∀ k, s.Live k → ∃ n, s.lookup n = some k

/-- Each live file that is not empty has a data block of its own. -/
structure Blocks (s : State) : Prop where
  root_taken : s.freeBlocks 0 = .taken
  valid : ∀ k, s.Live k → 0 < (s.inodeTable k).iSize → ∃ b : Nat,
    (s.inodeTable k).iDataBlock = b ∧ 0 < b ∧ b < s.fsParams.maxBlockCount ∧
      s.freeBlocks b = .taken ∧ (s.inodeTable k).iSize ≤ s.fsParams.blockSize
  distinct : ∀ k k', s.Live k → s.Live k' → 0 < (s.inodeTable k).iSize →
    0 < (s.inodeTable k').iSize → (s.inodeTable k).iDataBlock
      = (s.inodeTable k').iDataBlock → k = k'

/-- Every open handle refers to some inode that is not the root, at an offset
inside a block. -/
def Handles (s : State) : Prop :=
  ∀ fd < s.fsParams.maxOpenFilesCount, s.freeOpenFileEntries fd = .taken →
    (∃ k : Nat, (s.openFileTable fd).ofInumber = k ∧ 0 < k ∧ k < s.fsParams.maxInodeCount) ∧
      (s.openFileTable fd).ofOffset ≤ s.fsParams.blockSize

/-- The part of the invariant that no use of handles can break. -/
structure FilesWf (s : State) : Prop where
  root : RootWf s
  dir : DirFormat s
  linked : Linked s
  blocks : Blocks s

structure WellFormed (s : State) : Prop extends FilesWf s where
  handles : Handles s

variable {s t : State} {i k k' b fd : Nat} {n n' : CStr}

/-! ## The changes that the operations make -/

/-- The file with inode `k` emptied. -/
def State.truncate (s : State) (k : Nat) : State :=
  (s.releaseBlock k).setInode k { s.inodeTable k with iSize := 0 }

/-- A new empty file: inode `k`, directory entry `i`. -/
def State.createFile (s : State) (k i : Nat) (n : CStr) : State :=
  ({ s with freeinodeTs := Function.update s.freeinodeTs k .taken }.setInode k
    ⟨.tFile, 0, -1⟩).setEntry 0 i (dNameOf n) k

/-- The file with inode `k` and directory entry `i` removed. -/
def State.removeFile (s : State) (k i : Nat) : State :=
  { s.releaseBlock k with freeinodeTs := Function.update s.freeinodeTs k .free }.setEntry 0 i
    (List.replicate maxFileName 0) (-1)

/-- `bytes` written through the handle `fd` of inode `k` into the data block `b`. -/
def State.writeAt (s : State) (fd k b : Nat) (bytes : List UInt8) : State :=
  { s with
    fsData := write s.fsData (b * s.fsParams.blockSize + (s.openFileTable fd).ofOffset) bytes
    inodeTable := Function.update s.inodeTable k
      { s.inodeTable k with
        iDataBlock := b
        iSize := max (s.inodeTable k).iSize ((s.openFileTable fd).ofOffset + bytes.length) }
    openFileTable := Function.update s.openFileTable fd
      { s.openFileTable fd with ofOffset := (s.openFileTable fd).ofOffset + bytes.length } }

def State.takeBlock (s : State) (b : Nat) : State :=
  { s with freeBlocks := Function.update s.freeBlocks b .taken }

/-- A byte of block `b`, other than the block 0, is not in the directory. -/
theorem not_dir_of_block {x : Nat} (hb : 0 < b) (hx : x < s.fsParams.blockSize) :
    x < b * s.fsParams.blockSize :=
  hx.trans_le (Nat.le_mul_of_pos_left _ hb)

/-! ## Names -/

theorem lookup_setEntry (hf : DirFormat s) (hslot : s.freeSlot = some i) (hpos : 0 < n.length)
    (hlen : n.length ≤ 39) (hk : k < 2147483648) (hnew : s.lookup n = none) (n' : CStr) :
    (s.setEntry 0 i (dNameOf n) k).lookup n' = if n' = n then some k else s.lookup n' := by
  have hi := (freeSlot_eq_some hslot).1
  have hfree := (freeSlot_eq_some hslot).2.1
  have hadd := hf.add hslot hpos hlen hk hnew
  refine Option.ext fun z => ?_
  rw [lookup_eq_some hadd]
  by_cases hn : n' = n
  · subst hn
    rw [if_pos rfl, Option.some.injEq]
    constructor
    · rintro ⟨j, hj, he⟩
      rw [entry_setEntry hlen hk] at he
      split at he
      · rw [Option.some.injEq, Prod.mk.injEq] at he
        exact he.2
      · exact absurd he ((lookup_eq_none hf).mp hnew j hj z)
    · rintro rfl
      refine ⟨i, hi, ?_⟩
      rw [entry_setEntry hlen hk, if_pos rfl]
  · rw [if_neg hn, lookup_eq_some hf]
    constructor
    · rintro ⟨j, hj, he⟩
      rw [entry_setEntry hlen hk] at he
      split at he
      · rw [Option.some.injEq, Prod.mk.injEq] at he
        exact absurd he.1.symm hn
      · exact ⟨j, hj, he⟩
    · rintro ⟨j, hj, he⟩
      refine ⟨j, hj, ?_⟩
      rw [entry_setEntry hlen hk, if_neg, he]
      rintro rfl
      rw [hfree] at he
      exact absurd he (by simp)

theorem lookup_clearEntry (hf : DirFormat s) (hi : i < s.maxDirEntries)
    (he : s.entry i = some (n, k)) (n' : CStr) :
    (s.setEntry 0 i (List.replicate maxFileName 0) (-1)).lookup n'
      = if n' = n then none else s.lookup n' := by
  have hclear := hf.clear (i := i)
  by_cases hn : n' = n
  · subst hn
    rw [if_pos rfl, lookup_eq_none hclear]
    intro j hj z hz
    rw [entry_clearEntry] at hz
    split at hz
    · exact absurd hz (by simp)
    · next hji => exact hji (hf.distinct j hj i hi n' z k hz he)
  · rw [if_neg hn]
    refine Option.ext fun z => ?_
    rw [lookup_eq_some hclear, lookup_eq_some hf]
    constructor
    · rintro ⟨j, hj, hz⟩
      rw [entry_clearEntry] at hz
      split at hz
      · exact absurd hz (by simp)
      · exact ⟨j, hj, hz⟩
    · rintro ⟨j, hj, hz⟩
      refine ⟨j, hj, ?_⟩
      rw [entry_clearEntry, if_neg, hz]
      rintro rfl
      rw [he, Option.some.injEq, Prod.mk.injEq] at hz
      exact hn hz.1.symm

/-! ## What each part looks at -/

theorem live_iff (hp : t.fsParams = s.fsParams) (hts : t.freeinodeTs k = s.freeinodeTs k) :
    t.Live k ↔ s.Live k := by
  constructor
  · rintro ⟨h0, hlt, ht⟩
    exact ⟨h0, hp ▸ hlt, hts ▸ ht⟩
  · rintro ⟨h0, hlt, ht⟩
    exact ⟨h0, hp ▸ hlt, hts ▸ ht⟩

theorem RootWf.of_same (h : RootWf s) (hp : t.fsParams = s.fsParams) (hh : t.heap = s.heap)
    (h0 : t.inodeTable 0 = s.inodeTable 0) : RootWf t where
  toSized := h.toSized.of_eq hp hh
  inode_pos := by rw [hp]; exact h.inode_pos
  block_pos := by rw [hp]; exact h.block_pos
  root_inode := by rw [h0, hp]; exact h.root_inode

theorem Linked.of_same (h : Linked s) (hp : t.fsParams = s.fsParams)
    (hlook : ∀ n, t.lookup n = s.lookup n) (hts : t.freeinodeTs = s.freeinodeTs) : Linked t := by
  have hlive : ∀ k, t.Live k ↔ s.Live k := fun k => live_iff hp (by rw [hts])
  refine ⟨by rw [hts]; exact h.root_taken, fun n k hk => ?_, fun n n' k hk hk' => ?_,
    fun k hk => ?_⟩
  · rw [hlook] at hk
    exact (hlive k).mpr (h.live n k hk)
  · rw [hlook] at hk hk'
    exact h.inj n n' k hk hk'
  · obtain ⟨n, hn⟩ := h.named k ((hlive k).mp hk)
    exact ⟨n, by rw [hlook, hn]⟩

/-- The block numbers of the files that are live and not empty in `t` are the
ones they had in `s`, where the blocks in use are still marked. -/
theorem Blocks.of_le (h : Blocks s) (hp : t.fsParams = s.fsParams)
    (hroot : t.freeBlocks 0 = .taken)
    (hold : ∀ k, t.Live k → 0 < (t.inodeTable k).iSize →
      s.Live k ∧ t.inodeTable k = s.inodeTable k ∧
        t.freeBlocks (s.inodeTable k).iDataBlock.toNat = .taken) : Blocks t := by
  refine ⟨hroot, fun k hk hs => ?_, fun k k' hk hk' hs hs' heq => ?_⟩
  · obtain ⟨hl, hinode, hmark⟩ := hold k hk hs
    rw [hinode] at hs ⊢
    obtain ⟨b, hb, hb0, hblt, -, hle⟩ := h.valid k hl hs
    rw [hb, Int.toNat_natCast] at hmark
    exact ⟨b, hb, hb0, hp ▸ hblt, hmark, hp ▸ hle⟩
  · obtain ⟨hl, hinode, -⟩ := hold k hk hs
    obtain ⟨hl', hinode', -⟩ := hold k' hk' hs'
    rw [hinode] at hs heq
    rw [hinode'] at hs' heq
    exact h.distinct k k' hl hl' hs hs' heq

theorem Blocks.mark (h : Blocks s) (hk : s.Live k) (hs : 0 < (s.inodeTable k).iSize) :
    s.freeBlocks (s.inodeTable k).iDataBlock.toNat = .taken := by
  obtain ⟨b, hb, -, -, hmark, -⟩ := h.valid k hk hs
  rwa [hb, Int.toNat_natCast]

theorem Handles.of_same (h : Handles s) (hp : t.fsParams = s.fsParams)
    (htable : t.openFileTable = s.openFileTable)
    (hmarks : t.freeOpenFileEntries = s.freeOpenFileEntries) : Handles t := by
  intro fd hfd ht
  rw [hp] at hfd ⊢
  rw [hmarks] at ht
  rw [htable]
  exact h fd hfd ht

/-! ## Handles -/

/-- Only the open file table changes. -/
theorem FilesWf.with_handles (h : FilesWf s) (table : Nat → OpenFileEntry)
    (marks : Nat → AllocationState) :
    FilesWf { s with openFileTable := table, freeOpenFileEntries := marks } := by
  have hlive : ∀ k, ({ s with openFileTable := table, freeOpenFileEntries := marks } : State).Live k
      ↔ s.Live k := fun k => live_iff rfl rfl
  refine ⟨h.root.of_same rfl rfl rfl, h.dir.of_same ⟨rfl, fun _ _ => rfl⟩,
    h.linked.of_same rfl (fun _ => rfl) rfl, ?_⟩
  exact h.blocks.of_le rfl h.blocks.root_taken fun k' hk' hs =>
    ⟨(hlive k').mp hk', rfl, h.blocks.mark ((hlive k').mp hk') hs⟩

theorem WellFormed.with_handles (h : WellFormed s) {table : Nat → OpenFileEntry}
    {marks : Nat → AllocationState}
    (hh : Handles { s with openFileTable := table, freeOpenFileEntries := marks }) :
    WellFormed { s with openFileTable := table, freeOpenFileEntries := marks } :=
  ⟨h.toFilesWf.with_handles table marks, hh⟩

theorem WellFormed.openHandle (h : WellFormed s) (h0 : 0 < k) (hk : k < s.fsParams.maxInodeCount)
    {offset : Nat} (ho : offset ≤ s.fsParams.blockSize) : WellFormed (s.openHandle k offset).1 := by
  unfold State.openHandle
  cases hfree : s.freeHandle with
  | none => exact h
  | some j =>
    refine h.with_handles fun fd hfd ht => ?_
    by_cases hj : fd = j
    · subst hj
      exact ⟨⟨k, by simp, h0, hk⟩, by simpa using ho⟩
    · simp only [Function.update_of_ne hj] at ht ⊢
      exact h.handles fd hfd ht

theorem WellFormed.setOffset (h : WellFormed s) {offset : Nat}
    (ho : offset ≤ s.fsParams.blockSize) :
    WellFormed (s.setOffset fd offset) := by
  refine h.with_handles fun fd' hfd ht => ?_
  have hold := h.handles fd' hfd ht
  by_cases hj : fd' = fd
  · subst hj
    exact ⟨by simpa using hold.1, by simpa using ho⟩
  · simp only [Function.update_of_ne hj]
    exact hold

/-- The handle `fd` closed. -/
def State.closeHandle (s : State) (fd : Nat) : State :=
  { s with freeOpenFileEntries := Function.update s.freeOpenFileEntries fd .free }

theorem WellFormed.closeHandle (h : WellFormed s) : WellFormed (s.closeHandle fd) := by
  refine h.with_handles fun fd' hfd ht => ?_
  by_cases hj : fd' = fd
  · subst hj
    simp at ht
  · simp only [Function.update_of_ne hj] at ht
    exact h.handles fd' hfd ht

/-! ## Files -/

theorem not_live_of_free (ht : s.freeinodeTs k = .free) : ¬ s.Live k := by
  intro hl
  rw [hl.taken] at ht
  cases ht

/-- What an inode that is not in use holds does not matter. -/
theorem FilesWf.setInode (h : FilesWf s) (h0 : 0 < k) (hdead : ¬ s.Live k) (inode : Inode) :
    FilesWf (s.setInode k inode) := by
  have hlive : ∀ k', (s.setInode k inode).Live k' ↔ s.Live k' := fun k' => live_iff rfl rfl
  refine ⟨h.root.of_same rfl rfl ?_, h.dir.of_same ⟨rfl, fun _ _ => rfl⟩,
    h.linked.of_same rfl (fun _ => rfl) rfl, ?_⟩
  · exact Function.update_of_ne (Nat.ne_of_lt h0) ..
  · refine h.blocks.of_le rfl h.blocks.root_taken fun k' hk' hs => ?_
    have hl := (hlive k').mp hk'
    have hne : k' ≠ k := fun heq => hdead (heq ▸ hl)
    have hinode : (s.setInode k inode).inodeTable k' = s.inodeTable k' :=
      Function.update_of_ne hne ..
    rw [hinode] at hs
    exact ⟨hl, hinode, h.blocks.mark hl hs⟩

theorem WellFormed.setInode (h : WellFormed s) (h0 : 0 < k) (hdead : ¬ s.Live k) (inode : Inode) :
    WellFormed (s.setInode k inode) :=
  ⟨h.toFilesWf.setInode h0 hdead inode, h.handles.of_same rfl rfl rfl⟩

/-- The block given back is no other block. -/
theorem releaseBlock_mark (h : FilesWf s) (hk : s.Live k)
    (hb : 0 < (s.inodeTable k).iSize → (s.inodeTable k).iDataBlock ≠ b) :
    (s.releaseBlock k).freeBlocks b = s.freeBlocks b := by
  simp only [State.releaseBlock]
  split
  · next hs =>
    obtain ⟨b', hb', -⟩ := h.blocks.valid k hk hs
    refine Function.update_of_ne ?_ ..
    rintro rfl
    exact hb hs (by rw [hb', Int.toNat_natCast])
  · rfl

theorem releaseBlock_root (h : FilesWf s) (hk : s.Live k) :
    (s.releaseBlock k).freeBlocks 0 = .taken := by
  rw [releaseBlock_mark h hk, h.blocks.root_taken]
  intro hs h0
  obtain ⟨b, hb, hb0, -⟩ := h.blocks.valid k hk hs
  omega

/-- The block given back is no other file's. -/
theorem releaseBlock_other (h : FilesWf s) (hk : s.Live k) (hk' : s.Live k') (hne : k' ≠ k)
    (hs : 0 < (s.inodeTable k').iSize) :
    (s.releaseBlock k).freeBlocks (s.inodeTable k').iDataBlock.toNat = .taken := by
  rw [releaseBlock_mark h hk, h.blocks.mark hk' hs]
  intro hsk heq
  obtain ⟨b, hb, -⟩ := h.blocks.valid k' hk' hs
  rw [hb, Int.toNat_natCast] at heq
  exact hne (h.blocks.distinct k' k hk' hk hs hsk (hb.trans heq.symm))

theorem FilesWf.truncate (h : FilesWf s) (hk : s.Live k) : FilesWf (s.truncate k) := by
  have hlive : ∀ k', (s.truncate k).Live k' ↔ s.Live k' := fun k' => live_iff rfl rfl
  have hinode : ∀ k', k' ≠ k → (s.truncate k).inodeTable k' = s.inodeTable k' := fun k' hne =>
    Function.update_of_ne hne ..
  refine ⟨h.root.of_same rfl rfl (hinode 0 (Nat.ne_of_lt hk.pos)),
    h.dir.of_same ⟨rfl, fun _ _ => rfl⟩, h.linked.of_same rfl (fun _ => rfl) rfl, ?_⟩
  refine h.blocks.of_le rfl (releaseBlock_root h hk) fun k' hk' hs => ?_
  have hl := (hlive k').mp hk'
  have hne : k' ≠ k := by
    rintro rfl
    simp [State.truncate, State.setInode] at hs
  rw [hinode k' hne] at hs
  exact ⟨hl, hinode k' hne, releaseBlock_other h hk hl hne hs⟩

theorem WellFormed.truncate (h : WellFormed s) (hk : s.Live k) : WellFormed (s.truncate k) :=
  ⟨h.toFilesWf.truncate hk, h.handles.of_same rfl rfl rfl⟩

theorem SameDir.freeSlot (h : SameDir s t) : t.freeSlot = s.freeSlot := by
  unfold State.freeSlot
  rw [h.maxDirEntries]
  exact firstIndex_congr fun i hi => by rw [h.entry hi]

theorem FilesWf.inode_int (h : FilesWf s) (hk : k < s.fsParams.maxInodeCount) :
    k < 2147483648 := by
  have := h.root.inodes_int
  omega

theorem live_createFile (h0 : 0 < k) (hk : k < s.fsParams.maxInodeCount) (i : Nat) (n : CStr) :
    (s.createFile k i n).Live k' ↔ k' = k ∨ s.Live k' := by
  by_cases hkk : k' = k
  · subst hkk
    refine ⟨fun _ => Or.inl rfl, fun _ => ⟨h0, hk, ?_⟩⟩
    exact Function.update_self ..
  · rw [or_iff_right hkk]
    exact live_iff rfl (Function.update_of_ne hkk ..)

theorem live_removeFile (i : Nat) : (s.removeFile k i).Live k' ↔ k' ≠ k ∧ s.Live k' := by
  by_cases hkk : k' = k
  · subst hkk
    simp only [ne_eq, not_true_eq_false, false_and, iff_false]
    exact not_live_of_free (Function.update_self ..)
  · rw [and_iff_right hkk]
    exact live_iff rfl (Function.update_of_ne hkk ..)

section CreateFile

variable (h : FilesWf s) (h0 : 0 < k) (hk : k < s.fsParams.maxInodeCount)
  (hfree : s.freeinodeTs k = .free) (hslot : s.freeSlot = some i) (hpos : 0 < n.length)
  (hlen : n.length ≤ 39) (hnew : s.lookup n = none)
include h hk hslot hpos hlen hnew

/-- Before the entry is filled in, the directory is still the old one. -/
theorem createFile_format :
    DirFormat (s.createFile k i n) ∧
      ∀ n', (s.createFile k i n).lookup n' = if n' = n then some k else s.lookup n' := by
  have hsame :
      SameDir s ({ s with freeinodeTs := Function.update s.freeinodeTs k .taken }.setInode k
      ⟨.tFile, 0, -1⟩) := ⟨rfl, fun _ _ => rfl⟩
  have hdir := h.dir.of_same hsame
  have hslot' := hsame.freeSlot.trans hslot
  have hnew' := (hsame.lookup n).trans hnew
  refine ⟨hdir.add hslot' hpos hlen (h.inode_int hk) hnew', fun n' => ?_⟩
  rw [← hsame.lookup n']
  exact lookup_setEntry hdir hslot' hpos hlen (h.inode_int hk) hnew' n'

theorem lookup_createFile (n' : CStr) :
    (s.createFile k i n).lookup n' = if n' = n then some k else s.lookup n' :=
  (createFile_format h hk hslot hpos hlen hnew).2 n'

include h0 hfree

theorem FilesWf.createFile : FilesWf (s.createFile k i n) := by
  have hlook := lookup_createFile h hk hslot hpos hlen hnew
  have hlive : ∀ k', (s.createFile k i n).Live k' ↔ k' = k ∨ s.Live k' := fun k' =>
    live_createFile h0 hk i n
  have hdead := not_live_of_free hfree
  have hinode : ∀ k', k' ≠ k → (s.createFile k i n).inodeTable k' = s.inodeTable k' :=
    fun k' hne => Function.update_of_ne hne ..
  refine ⟨h.root.of_same rfl rfl (hinode 0 (Nat.ne_of_lt h0)),
    (createFile_format h hk hslot hpos hlen hnew).1, ⟨?_, fun n' k' hl => ?_,
      fun n' n'' k' hl hl' => ?_, fun k' hl => ?_⟩, ?_⟩
  · exact (Function.update_of_ne (Nat.ne_of_lt h0) ..).trans h.linked.root_taken
  · rw [hlook] at hl
    split at hl
    · exact (hlive k').mpr (Or.inl (Option.some.inj hl).symm)
    · exact (hlive k').mpr (Or.inr (h.linked.live n' k' hl))
  · rw [hlook] at hl hl'
    split at hl <;> split at hl'
    · next h1 h2 => rw [h1, h2]
    · rw [Option.some.injEq] at hl
      exact absurd (h.linked.live _ _ (hl ▸ hl')) hdead
    · rw [Option.some.injEq] at hl'
      exact absurd (h.linked.live _ _ (hl' ▸ hl)) hdead
    · exact h.linked.inj n' n'' k' hl hl'
  · rcases (hlive k').mp hl with rfl | hl
    · exact ⟨n, by rw [hlook, if_pos rfl]⟩
    · obtain ⟨n', hn'⟩ := h.linked.named k' hl
      refine ⟨n', ?_⟩
      rw [hlook, if_neg, hn']
      rintro rfl
      rw [hnew] at hn'
      cases hn'
  · refine h.blocks.of_le rfl h.blocks.root_taken fun k' hk' hs => ?_
    rcases (hlive k').mp hk' with rfl | hl
    · simp [State.createFile, State.setEntry, State.setInode] at hs
    · have hne : k' ≠ k := fun heq => hdead (heq ▸ hl)
      rw [hinode k' hne] at hs
      exact ⟨hl, hinode k' hne, h.blocks.mark hl hs⟩

omit h in
theorem WellFormed.createFile (h : WellFormed s) : WellFormed (s.createFile k i n) :=
  ⟨h.toFilesWf.createFile h0 hk hfree hslot hpos hlen hnew, h.handles.of_same rfl rfl rfl⟩

end CreateFile

section RemoveFile

variable (h : FilesWf s) (hl : s.lookup n = some k) (hi : i < s.maxDirEntries)
  (he : s.entry i = some (n, k))
include h hi he

theorem removeFile_format :
    DirFormat (s.removeFile k i) ∧
      ∀ n', (s.removeFile k i).lookup n' = if n' = n then none else s.lookup n' := by
  have hsame : SameDir s { s.releaseBlock k with
      freeinodeTs := Function.update s.freeinodeTs k .free } := ⟨rfl, fun _ _ => rfl⟩
  have hdir := h.dir.of_same hsame
  refine ⟨hdir.clear, fun n' => ?_⟩
  rw [← hsame.lookup n']
  exact lookup_clearEntry hdir (hsame.maxDirEntries ▸ hi) ((hsame.entry hi).trans he) n'

theorem lookup_removeFile (n' : CStr) :
    (s.removeFile k i).lookup n' = if n' = n then none else s.lookup n' :=
  (removeFile_format h hi he).2 n'

include hl

theorem FilesWf.removeFile : FilesWf (s.removeFile k i) := by
  have hk := h.linked.live n k hl
  have hlook := lookup_removeFile h hi he
  have hlive : ∀ k', (s.removeFile k i).Live k' ↔ k' ≠ k ∧ s.Live k' := fun k' =>
    live_removeFile i
  refine ⟨h.root.of_same rfl rfl rfl, (removeFile_format h hi he).1, ⟨?_, fun n' k' hn' => ?_,
    fun n' n'' k' h1 h2 => ?_, fun k' hk' => ?_⟩, ?_⟩
  · exact (Function.update_of_ne (Nat.ne_of_lt hk.pos) ..).trans h.linked.root_taken
  · rw [hlook] at hn'
    split at hn'
    · cases hn'
    · next hne =>
      refine (hlive k').mpr ⟨?_, h.linked.live n' k' hn'⟩
      rintro rfl
      exact hne (h.linked.inj n' n k' hn' hl)
  · rw [hlook] at h1 h2
    split at h1 <;> split at h2
    · cases h1
    · cases h1
    · cases h2
    · exact h.linked.inj n' n'' k' h1 h2
  · obtain ⟨hne, hl'⟩ := (hlive k').mp hk'
    obtain ⟨n', hn'⟩ := h.linked.named k' hl'
    refine ⟨n', ?_⟩
    rw [hlook, if_neg, hn']
    rintro rfl
    rw [hl, Option.some.injEq] at hn'
    exact hne hn'.symm
  · refine h.blocks.of_le rfl (releaseBlock_root h hk) fun k' hk' hs => ?_
    obtain ⟨hne, hl'⟩ := (hlive k').mp hk'
    exact ⟨hl', rfl, releaseBlock_other h hk hl' hne hs⟩

omit h in
theorem WellFormed.removeFile (h : WellFormed s) : WellFormed (s.removeFile k i) :=
  ⟨h.toFilesWf.removeFile hl hi he, h.handles.of_same rfl rfl rfl⟩

end RemoveFile

/-! ## Writing -/

/-- Every block other than the free one may be marked as taken. -/
theorem FilesWf.takeBlock (h : FilesWf s) (hb : s.freeBlocks b = .free) :
    FilesWf (s.takeBlock b) := by
  have hlive : ∀ k', (s.takeBlock b).Live k' ↔ s.Live k' := fun k' => live_iff rfl rfl
  have hmark : ∀ b', s.freeBlocks b' = .taken → (s.takeBlock b).freeBlocks b' = .taken := by
    intro b' hb'
    have hne : b' ≠ b := by
      rintro rfl
      rw [hb'] at hb
      cases hb
    exact (Function.update_of_ne hne ..).trans hb'
  refine ⟨h.root.of_same rfl rfl rfl, h.dir.of_same ⟨rfl, fun _ _ => rfl⟩,
    h.linked.of_same rfl (fun _ => rfl) rfl, ?_⟩
  refine h.blocks.of_le rfl (hmark 0 h.blocks.root_taken) fun k' hk' hs => ?_
  have hl := (hlive k').mp hk'
  exact ⟨hl, rfl, hmark _ (h.blocks.mark hl hs)⟩

theorem WellFormed.takeBlock (h : WellFormed s) (hb : s.freeBlocks b = .free) :
    WellFormed (s.takeBlock b) :=
  ⟨h.toFilesWf.takeBlock hb, h.handles.of_same rfl rfl rfl⟩

/-- Block `b` may hold the data of inode `k`: it is in use, for no other file. -/
structure State.Room (s : State) (k b : Nat) : Prop where
  pos : 0 < b
  lt : b < s.fsParams.maxBlockCount
  taken : s.freeBlocks b = .taken
  own : ∀ k', s.Live k' → k' ≠ k → 0 < (s.inodeTable k').iSize → (s.inodeTable k').iDataBlock ≠ b

theorem FilesWf.room_own (h : FilesWf s) (hk : s.Live k) (hs : 0 < (s.inodeTable k).iSize) :
    ∃ b : Nat, (s.inodeTable k).iDataBlock = b ∧ s.Room k b := by
  obtain ⟨b, hb, hb0, hblt, hmark, -⟩ := h.blocks.valid k hk hs
  refine ⟨b, hb, hb0, hblt, hmark, fun k' hk' hne hs' heq => ?_⟩
  exact hne (h.blocks.distinct k' k hk' hk hs' hs (heq.trans hb.symm))

theorem FilesWf.room_fresh (h : FilesWf s) (hb : s.freeBlocks b = .free)
    (hblt : b < s.fsParams.maxBlockCount) (k : Nat) : (s.takeBlock b).Room k b := by
  refine ⟨Nat.pos_of_ne_zero ?_, hblt, Function.update_self .., fun k' hk' _ hs heq => ?_⟩
  · rintro rfl
    rw [h.blocks.root_taken] at hb
    cases hb
  · have hlive : (s.takeBlock b).Live k' ↔ s.Live k' := live_iff rfl rfl
    obtain ⟨b', hb', -, -, hmark, -⟩ := h.blocks.valid k' (hlive.mp hk') hs
    have hbb : (b' : Int) = b := hb'.symm.trans heq
    rw [Int.ofNat_inj] at hbb
    subst hbb
    rw [hmark] at hb
    cases hb

section WriteAt

variable {bytes : List UInt8}

theorem inodeTable_writeAt_of_ne (hne : k' ≠ k) :
    (s.writeAt fd k b bytes).inodeTable k' = s.inodeTable k' := Function.update_of_ne hne ..

theorem sameDir_writeAt (hb : 0 < b) : SameDir s (s.writeAt fd k b bytes) := by
  refine ⟨rfl, fun x hx => write_of_lt ?_⟩
  have := not_dir_of_block hb hx
  omega

theorem FilesWf.writeAt (h : FilesWf s) (hk : s.Live k) (hb : s.Room k b)
    (hfit : (s.openFileTable fd).ofOffset + bytes.length ≤ s.fsParams.blockSize)
    (hsize : (s.inodeTable k).iSize ≤ s.fsParams.blockSize) :
    FilesWf (s.writeAt fd k b bytes) := by
  have hlive : ∀ k', (s.writeAt fd k b bytes).Live k' ↔ s.Live k' := fun k' => live_iff rfl rfl
  have hdir : SameDir s (s.writeAt fd k b bytes) := sameDir_writeAt hb.pos
  have hself : (s.writeAt fd k b bytes).inodeTable k =
      { s.inodeTable k with
        iDataBlock := b
        iSize := max (s.inodeTable k).iSize ((s.openFileTable fd).ofOffset + bytes.length) } :=
    Function.update_self ..
  refine ⟨h.root.of_same rfl rfl (inodeTable_writeAt_of_ne (Nat.ne_of_lt hk.pos)),
    h.dir.of_same hdir, h.linked.of_same rfl hdir.lookup rfl,
    ⟨h.blocks.root_taken, fun k' hk' hs => ?_, fun k1 k2 h1 h2 hs1 hs2 heq => ?_⟩⟩
  · by_cases hkk : k' = k
    · subst hkk
      rw [hself]
      exact ⟨b, rfl, hb.pos, hb.lt, hb.taken, max_le hsize hfit⟩
    · rw [inodeTable_writeAt_of_ne hkk] at hs ⊢
      exact h.blocks.valid k' ((hlive k').mp hk') hs
  · have hother : ∀ k', s.Live k' → k' ≠ k → 0 < (s.inodeTable k').iSize →
        (s.inodeTable k').iDataBlock = b → False := fun k' hl hne hs he => hb.own k' hl hne hs he
    have hl1 := (hlive k1).mp h1
    have hl2 := (hlive k2).mp h2
    by_cases hk1 : k1 = k <;> by_cases hk2 : k2 = k
    · rw [hk1, hk2]
    · rw [hk1, hself, inodeTable_writeAt_of_ne hk2] at heq
      rw [inodeTable_writeAt_of_ne hk2] at hs2
      exact (hother k2 hl2 hk2 hs2 heq.symm).elim
    · rw [hk2, hself, inodeTable_writeAt_of_ne hk1] at heq
      rw [inodeTable_writeAt_of_ne hk1] at hs1
      exact (hother k1 hl1 hk1 hs1 heq).elim
    · rw [inodeTable_writeAt_of_ne hk1] at hs1 heq
      rw [inodeTable_writeAt_of_ne hk2] at hs2 heq
      exact h.blocks.distinct k1 k2 hl1 hl2 hs1 hs2 heq

theorem Handles.writeAt (h : Handles s)
    (hfit : (s.openFileTable fd).ofOffset + bytes.length ≤ s.fsParams.blockSize) :
    Handles (s.writeAt fd k b bytes) := by
  intro fd' hfd ht
  have hold := h fd' hfd ht
  by_cases hj : fd' = fd
  · subst hj
    exact ⟨by simpa [State.writeAt] using hold.1, by simpa [State.writeAt] using hfit⟩
  · simp only [State.writeAt, Function.update_of_ne hj]
    exact hold

theorem WellFormed.writeAt (h : WellFormed s) (hk : s.Live k) (hb : s.Room k b)
    (hfit : (s.openFileTable fd).ofOffset + bytes.length ≤ s.fsParams.blockSize)
    (hsize : (s.inodeTable k).iSize ≤ s.fsParams.blockSize) :
    WellFormed (s.writeAt fd k b bytes) :=
  ⟨h.toFilesWf.writeAt hk hb hfit hsize, h.handles.writeAt hfit⟩

/-- What is written into the block of an inode that is not in use does not
matter, as long as it is not the block of the root. -/
theorem FilesWf.writeDead (h : FilesWf s) (h0 : 0 < k) (hdead : ¬ s.Live k) (hb : 0 < b) :
    FilesWf (s.writeAt fd k b bytes) := by
  have hlive : ∀ k', (s.writeAt fd k b bytes).Live k' ↔ s.Live k' := fun k' => live_iff rfl rfl
  have hdir : SameDir s (s.writeAt fd k b bytes) := sameDir_writeAt hb
  refine ⟨h.root.of_same rfl rfl (inodeTable_writeAt_of_ne (Nat.ne_of_lt h0)), h.dir.of_same hdir,
    h.linked.of_same rfl hdir.lookup rfl, ?_⟩
  refine h.blocks.of_le rfl h.blocks.root_taken fun k' hk' hs => ?_
  have hl := (hlive k').mp hk'
  have hne : k' ≠ k := fun heq => hdead (heq ▸ hl)
  rw [inodeTable_writeAt_of_ne hne] at hs
  exact ⟨hl, inodeTable_writeAt_of_ne hne, h.blocks.mark hl hs⟩

end WriteAt

/-! ## Contents -/

/-- A file whose inode is the same keeps its content when no byte outside the
directory block changes. -/
theorem content_of_outside (h : FilesWf s) (hk : s.Live k) (hp : t.fsParams = s.fsParams)
    (hinode : t.inodeTable k = s.inodeTable k)
    (hdata : ∀ x, s.fsParams.blockSize ≤ x → t.fsData x = s.fsData x) :
    t.content k = s.content k := by
  rw [State.content, State.content, hinode, hp]
  refine read_congr fun x hx hx' => hdata x ?_
  have hs : 0 < (s.inodeTable k).iSize := by omega
  obtain ⟨b, hb, hb0, -⟩ := h.blocks.valid k hk hs
  rw [hb, Int.toNat_natCast] at hx
  exact (Nat.le_mul_of_pos_left _ hb0).trans hx

theorem setEntry_outside {name : List UInt8} {z : Int} (hname : name.length = 40)
    (hi : i < s.maxDirEntries) {x : Nat} (hx : s.fsParams.blockSize ≤ x) :
    (s.setEntry 0 i name z).fsData x = s.fsData x := by
  have hend := entry_end hi
  refine write_of_ge ?_
  simp only [List.length_append, hname, length_le32]
  unfold dirEntrySize at hend ⊢
  omega

theorem content_createFile_of_ne (h : FilesWf s) (hk' : s.Live k') (hne : k' ≠ k)
    (hi : i < s.maxDirEntries) (hlen : n.length ≤ 39) :
    (s.createFile k i n).content k' = s.content k' :=
  content_of_outside h hk' rfl (Function.update_of_ne hne ..) fun _ hx =>
    setEntry_outside (length_dNameOf hlen) hi hx

theorem content_createFile_self : (s.createFile k i n).content k = [] := by
  refine List.eq_nil_of_length_eq_zero ?_
  simp [State.createFile, State.setEntry, State.setInode]

theorem content_removeFile (h : FilesWf s) (hk' : s.Live k') (hi : i < s.maxDirEntries) :
    (s.removeFile k i).content k' = s.content k' :=
  content_of_outside h hk' rfl rfl fun _ hx => setEntry_outside (by simp [maxFileName]) hi hx

theorem content_truncate_of_ne (hne : k' ≠ k) : (s.truncate k).content k' = s.content k' := by
  have hinode : (s.truncate k).inodeTable k' = s.inodeTable k' := Function.update_of_ne hne ..
  rw [State.content, State.content, hinode]
  rfl

theorem content_truncate_self : (s.truncate k).content k = [] := by
  refine List.eq_nil_of_length_eq_zero ?_
  simp [State.truncate, State.setInode]

/-- A write through a handle of one file leaves the content of every other. -/
theorem content_writeAt_of_ne (h : FilesWf s) (hb : s.Room k b) {bytes : List UInt8}
    (hfit : (s.openFileTable fd).ofOffset + bytes.length ≤ s.fsParams.blockSize)
    (hk' : s.Live k') (hne : k' ≠ k) : (s.writeAt fd k b bytes).content k' = s.content k' := by
  rw [State.content, inodeTable_writeAt_of_ne hne, State.content]
  rcases Nat.eq_zero_or_pos (s.inodeTable k').iSize with hs | hs
  · rw [hs, read_zero, read_zero]
  · obtain ⟨b', hb', -, -, -, hle⟩ := h.blocks.valid k' hk' hs
    have hbb : b' ≠ b := by
      rintro rfl
      exact hb.own k' hk' hne hs hb'
    rw [hb', Int.toNat_natCast]
    refine read_write_disjoint ?_
    -- two different blocks
    rcases Nat.lt_or_gt_of_ne hbb with hlt | hlt
    · have := Nat.mul_le_mul_right s.fsParams.blockSize (Nat.succ_le_of_lt hlt)
      rw [Nat.succ_mul] at this
      exact Or.inl (by show b' * s.fsParams.blockSize + _ ≤ _; omega)
    · have := Nat.mul_le_mul_right s.fsParams.blockSize (Nat.succ_le_of_lt hlt)
      rw [Nat.succ_mul] at this
      exact Or.inr (by show _ ≤ b' * s.fsParams.blockSize; omega)

/-- ... and overlays the bytes on its own content. -/
theorem content_writeAt_self {bytes : List UInt8}
    (hoff : (s.openFileTable fd).ofOffset ≤ (s.inodeTable k).iSize)
    (hb : 0 < (s.inodeTable k).iSize → (s.inodeTable k).iDataBlock = b) :
    (s.writeAt fd k b bytes).content k
      = overlay (s.content k) (s.openFileTable fd).ofOffset bytes := by
  have hold : s.content k
      = read s.fsData (b * s.fsParams.blockSize) (s.inodeTable k).iSize := by
    rw [State.content]
    rcases Nat.eq_zero_or_pos (s.inodeTable k).iSize with hs | hs
    · rw [hs, read_zero, read_zero]
    · rw [hb hs, Int.toNat_natCast]
  rw [hold, ← read_write_overlay hoff]
  simp [State.content, State.writeAt]

end MBroker.Fs
