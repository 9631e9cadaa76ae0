import MBroker.Fs.Abstract
import MBroker.Fs.Effects

/-!
# TecnicoFS refines the abstract file system

`Refines s fs` ties the tables to the abstract state: a file's content is read
from its data block, a handle is the name its inode is linked to, and the three
tables that bound the number of files are exactly as full as the abstract state
says.

Results:
1. `refines_initial`: a successful `tfs_init` refines the empty file system.
2. `tfsOpen_refines`, `tfsClose_refines`, `tfsWrite_refines`, `tfsRead_refines`,
   `tfsUnlink_refines`: one operation.
3. `tfs_refines`: every run in which no file is unlinked or truncated while a
   handle on it is open returns what the abstract file system returns.
-/

namespace MBroker.Fs

open FirstFit ByteMemory FileSystem

/-! ## How full the tables are -/

def State.inodesUsed (s : State) : Nat :=
  Nat.count (fun i => s.freeinodeTs i = .taken) s.fsParams.maxInodeCount

def State.entriesUsed (s : State) : Nat :=
  Nat.count (fun i => (s.entry i).isSome = true) s.maxDirEntries

def State.blocksUsed (s : State) : Nat :=
  Nat.count (fun i => s.freeBlocks i = .taken) s.fsParams.maxBlockCount

variable {s t : State} {i k b fd : Nat} {n : CStr}

theorem freeInode_none_iff : s.freeInode = none ↔ s.inodesUsed = s.fsParams.maxInodeCount :=
  firstIndex_none_iff_count fun _ => AllocationState.taken_iff

theorem freeBlock_none_iff : s.freeBlock = none ↔ s.blocksUsed = s.fsParams.maxBlockCount :=
  firstIndex_none_iff_count fun _ => AllocationState.taken_iff

theorem freeSlot_none_iff : s.freeSlot = none ↔ s.entriesUsed = s.maxDirEntries := by
  refine firstIndex_none_iff_count fun j => ?_
  cases s.entry j <;> simp

theorem SameDir.entriesUsed (h : SameDir s t) : t.entriesUsed = s.entriesUsed := by
  unfold State.entriesUsed
  rw [h.maxDirEntries]
  exact count_congr fun i hi => by rw [h.entry hi]

theorem inodesUsed_createFile (hk : k < s.fsParams.maxInodeCount) (hfree : s.freeinodeTs k = .free)
    (i : Nat) (n : CStr) : (s.createFile k i n).inodesUsed = s.inodesUsed + 1 := by
  refine count_gain hk (by rw [hfree]; simp) (Function.update_self ..) fun j _ hj => ?_
  exact iff_of_eq (congrArg (· = _) (Function.update_of_ne hj ..))

theorem entriesUsed_createFile (hi : i < s.maxDirEntries) (he : s.entry i = none)
    (hlen : n.length ≤ 39) (hk : k < 2147483648) :
    (s.createFile k i n).entriesUsed = s.entriesUsed + 1 := by
  have hentry : ∀ j, (s.createFile k i n).entry j = if j = i then some (n, k) else s.entry j :=
    entry_setEntry hlen hk
  refine count_gain hi (by rw [he]; simp) ?_ fun j _ hj => ?_
  · rw [hentry, if_pos rfl]
    rfl
  · rw [hentry, if_neg hj]

theorem inodesUsed_removeFile (hk : s.Live k) (i : Nat) :
    s.inodesUsed = (s.removeFile k i).inodesUsed + 1 := by
  have hfree : (s.removeFile k i).freeinodeTs k = .free := Function.update_self ..
  refine count_gain hk.lt (by rw [hfree]; simp) hk.taken fun j _ hj => ?_
  exact iff_of_eq (congrArg (· = _) (Function.update_of_ne hj ..).symm)

theorem entriesUsed_removeFile (hi : i < s.maxDirEntries) (he : s.entry i = some (n, k)) :
    s.entriesUsed = (s.removeFile k i).entriesUsed + 1 := by
  have hentry : ∀ j, (s.removeFile k i).entry j = if j = i then none else s.entry j :=
    entry_clearEntry
  refine count_gain hi ?_ (by rw [he]; rfl) fun j _ hj => ?_
  · rw [hentry, if_pos rfl]
    simp
  · rw [hentry, if_neg hj]

theorem blocksUsed_takeBlock (hb : b < s.fsParams.maxBlockCount) (hfree : s.freeBlocks b = .free) :
    (s.takeBlock b).blocksUsed = s.blocksUsed + 1 := by
  refine count_gain hb (by rw [hfree]; simp) (Function.update_self ..) fun j _ hj => ?_
  exact iff_of_eq (congrArg (· = _) (Function.update_of_ne hj ..))

/-- A file that is not empty gives its block back. -/
theorem blocksUsed_releaseBlock (h : FilesWf s) (hk : s.Live k) (hs : 0 < (s.inodeTable k).iSize) :
    s.blocksUsed = (s.releaseBlock k).blocksUsed + 1 := by
  obtain ⟨b, hb, -, hblt, hmark, -⟩ := h.blocks.valid k hk hs
  have hrel : (s.releaseBlock k).freeBlocks = Function.update s.freeBlocks b .free := by
    rw [State.releaseBlock, if_pos hs, hb, Int.toNat_natCast]
  unfold State.blocksUsed
  refine count_gain hblt (by rw [hrel]; simp) hmark fun j _ hj => ?_
  rw [hrel, Function.update_of_ne hj]

theorem blocksUsed_releaseBlock_empty (hs : (s.inodeTable k).iSize = 0) :
    (s.releaseBlock k).blocksUsed = s.blocksUsed := by
  have hnot : ¬ 0 < (s.inodeTable k).iSize := by omega
  rw [State.releaseBlock, if_neg hnot]

/-! ## The relation -/

structure Refines (p : TfsParams) (s : State) (fs : FileSystem) : Prop where
  params : s.fsParams = p
  wf : WellFormed s
  files : ∀ n, fs.files.lookup n = (s.lookup n).map s.content
  closed : ∀ fd, ¬ s.IsOpen fd → fs.handles fd = none
  opened : ∀ fd, s.IsOpen fd → ∃ n k, s.lookup n = some k ∧
    (s.openFileTable fd).ofInumber = (k : Nat) ∧
      (s.openFileTable fd).ofOffset ≤ (s.inodeTable k).iSize ∧
        fs.handles fd = some (n, (s.openFileTable fd).ofOffset)
  inodes : s.inodesUsed = fs.files.keys.card + 1
  entries : s.entriesUsed = fs.files.keys.card
  blocks : s.blocksUsed = (nonempty fs.files).card + 1

variable {p : TfsParams} {fs : FileSystem} {offset : Nat}

theorem Refines.bounded (h : Refines p s fs) : fs.Bounded p := by
  intro n c hc
  rw [h.files] at hc
  obtain ⟨k, hk, rfl⟩ := Option.map_eq_some_iff.mp hc
  obtain ⟨i, hi, he⟩ := exists_slot h.wf.toFilesWf hk
  obtain ⟨-, hpos, hlen, -⟩ := h.wf.dir.named i hi n k he
  refine ⟨hpos, hlen, ?_⟩
  rw [length_content, ← h.params]
  rcases Nat.eq_zero_or_pos (s.inodeTable k).iSize with hs | hs
  · omega
  · obtain ⟨b, -, -, -, -, hle⟩ := h.wf.blocks.valid k (h.wf.linked.live n k hk) hs
    exact hle

theorem Refines.lookup_some (h : Refines p s fs) (hk : s.lookup n = some k) :
    fs.files.lookup n = some (s.content k) := by
  rw [h.files, hk, Option.map_some]

theorem Refines.lookup_none (h : Refines p s fs) (hk : s.lookup n = none) :
    fs.files.lookup n = none := by
  rw [h.files, hk, Option.map_none]

theorem Refines.content (h : Refines p s fs) (hk : s.lookup n = some k) :
    fs.content n = s.content k := by
  rw [FileSystem.content, h.lookup_some hk, Option.getD_some]

theorem content_eq_nil : s.content k = [] ↔ (s.inodeTable k).iSize = 0 := by
  rw [← List.length_eq_zero_iff, length_content]

theorem setFile_self {c : List UInt8} (h : fs.files.lookup n = some c) : fs.setFile n c = fs := by
  have hfiles : fs.files.insert n c = fs.files := by
    refine Finmap.ext_lookup fun a => ?_
    by_cases ha : a = n
    · subst ha
      rw [Finmap.lookup_insert, h]
    · rw [Finmap.lookup_insert_of_ne _ ha]
  rw [setFile, hfiles]

/-- The handle behind a number, on both sides. -/
theorem Refines.handle_none (h : Refines p s fs) {fhandle : Int} (hh : s.handle fhandle = none) :
    fs.handle fhandle = none := by
  unfold FileSystem.handle
  split
  · next h0 =>
    refine h.closed _ fun hopen => ?_
    have := handle_of_open hopen
    rw [Int.toNat_of_nonneg h0, hh] at this
    cases this
  · rfl

theorem Refines.handle_some (h : Refines p s fs) {fhandle : Int} (hh : s.handle fhandle = some fd) :
    ∃ n k, s.lookup n = some k ∧ (s.openFileTable fd).ofInumber = (k : Nat) ∧
      (s.openFileTable fd).ofOffset ≤ (s.inodeTable k).iSize ∧
        fs.handle fhandle = some (n, (s.openFileTable fd).ofOffset) := by
  obtain ⟨rfl, hopen⟩ := open_of_handle hh
  obtain ⟨n, k, hk, hi, ho, hfs⟩ := h.opened fd hopen
  refine ⟨n, k, hk, hi, ho, ?_⟩
  rw [FileSystem.handle, if_pos (Int.natCast_nonneg fd), Int.toNat_natCast, hfs]

/-! ## Handles -/

theorem Refines.freeHandle (h : Refines p s fs) :
    s.freeHandle = firstIndex (fun i => (fs.handles i).isNone) p.maxOpenFilesCount := by
  rw [State.freeHandle, h.params]
  refine firstIndex_congr fun i hi => ?_
  cases hm : s.freeOpenFileEntries i with
  | free =>
    have hclosed : ¬ s.IsOpen i := fun ho => by
      rw [ho.2] at hm
      cases hm
    rw [h.closed i hclosed]
    rfl
  | taken =>
    obtain ⟨n, k, -, -, -, hfs⟩ := h.opened i ⟨by rw [h.params]; exact hi, hm⟩
    rw [hfs]
    rfl

theorem Refines.newHandle (h : Refines p s fs) (hl : s.lookup n = some k)
    (ho : offset ≤ (s.inodeTable k).iSize) :
    Refines p (s.openHandle k offset).1 (fs.newHandle p n offset).1 ∧
      (s.openHandle k offset).2 = (fs.newHandle p n offset).2 := by
  have hlive := h.wf.linked.live n k hl
  have hwf : WellFormed (s.openHandle k offset).1 := h.wf.openHandle hlive.pos hlive.lt <| by
    refine ho.trans ?_
    have := (h.bounded n _ (h.lookup_some hl)).2.2
    rwa [length_content, ← h.params] at this
  unfold State.openHandle at hwf ⊢
  unfold FileSystem.newHandle
  rw [← h.freeHandle]
  cases hfree : s.freeHandle with
  | none => exact ⟨h, rfl⟩
  | some j =>
    rw [hfree] at hwf
    refine ⟨⟨h.params, hwf, h.files, fun fd hc => ?_, fun fd hopen => ?_, h.inodes, h.entries,
      h.blocks⟩, rfl⟩
    · by_cases hj : fd = j
      · subst hj
        refine absurd ⟨(firstIndex_eq_some.mp hfree).1, ?_⟩ hc
        exact Function.update_self ..
      · refine (Function.update_of_ne hj ..).trans (h.closed fd fun ho' => hc ⟨ho'.1, ?_⟩)
        exact (Function.update_of_ne hj ..).trans ho'.2
    · by_cases hj : fd = j
      · subst hj
        refine ⟨n, k, hl, ?_⟩
        simp [setHandle, ho]
      · obtain ⟨n', k', hl', hi', ho', hfs'⟩ :=
          h.opened fd ⟨hopen.1, (Function.update_of_ne hj ..).symm.trans hopen.2⟩
        refine ⟨n', k', hl', ?_⟩
        simp only [setHandle, Function.update_of_ne hj]
        exact ⟨hi', ho', hfs'⟩

theorem Refines.closeHandle (h : Refines p s fs) (fd : Nat) :
    Refines p (s.closeHandle fd) (fs.setHandle fd none) := by
  refine ⟨h.params, h.wf.closeHandle, h.files, fun fd' hc => ?_, fun fd' hopen => ?_, h.inodes,
    h.entries, h.blocks⟩
  · by_cases hj : fd' = fd
    · subst hj
      exact Function.update_self ..
    · refine (Function.update_of_ne hj ..).trans (h.closed fd' fun ho => hc ⟨ho.1, ?_⟩)
      exact (Function.update_of_ne hj ..).trans ho.2
  · have hj : fd' ≠ fd := by
      rintro rfl
      have := hopen.2
      simp [State.closeHandle] at this
    obtain ⟨n, k, hl, hi, ho, hfs⟩ :=
      h.opened fd' ⟨hopen.1, (Function.update_of_ne hj ..).symm.trans hopen.2⟩
    exact ⟨n, k, hl, hi, ho, (Function.update_of_ne hj ..).trans hfs⟩

/-- Moving a handle inside its file. -/
theorem Refines.setOffset (h : Refines p s fs) (hopen : s.IsOpen fd) (hl : s.lookup n = some k)
    (hi : (s.openFileTable fd).ofInumber = (k : Nat)) (ho : offset ≤ (s.inodeTable k).iSize) :
    Refines p (s.setOffset fd offset) (fs.setHandle fd (some (n, offset))) := by
  have hle : offset ≤ s.fsParams.blockSize := by
    have := (h.bounded n _ (h.lookup_some hl)).2.2
    rw [length_content, ← h.params] at this
    omega
  refine ⟨h.params, h.wf.setOffset hle, h.files, fun fd' hc => ?_, fun fd' hopen' => ?_, h.inodes,
    h.entries, h.blocks⟩
  · have hj : fd' ≠ fd := by
      rintro rfl
      exact hc hopen
    exact (Function.update_of_ne hj ..).trans (h.closed fd' hc)
  · by_cases hj : fd' = fd
    · subst hj
      refine ⟨n, k, hl, ?_⟩
      simp [State.setOffset, setHandle, hi, ho]
    · obtain ⟨n', k', hl', hi', ho', hfs'⟩ := h.opened fd' hopen'
      refine ⟨n', k', hl', ?_⟩
      simp only [State.setOffset, setHandle, Function.update_of_ne hj]
      exact ⟨hi', ho', hfs'⟩

/-! ## Files -/

theorem ne_of_live {k' : Nat} (hl : s.Live k') (hdead : ¬ s.Live k) : k' ≠ k := by
  rintro rfl
  exact hdead hl

/-- An inode that is not in use is not seen from outside. -/
theorem Refines.setInode (h : Refines p s fs) (h0 : 0 < k) (hdead : ¬ s.Live k) (inode : Inode) :
    Refines p (s.setInode k inode) fs := by
  have hinode : ∀ k', s.Live k' → (s.setInode k inode).inodeTable k' = s.inodeTable k' :=
    fun k' hl => Function.update_of_ne (ne_of_live hl hdead) ..
  refine ⟨h.params, h.wf.setInode h0 hdead inode, fun n => ?_, h.closed, fun fd hopen => ?_,
    h.inodes, h.entries, h.blocks⟩
  · rw [h.files]
    refine Option.map_congr fun k' hk' => ?_
    rw [State.content, State.content, hinode k' (h.wf.linked.live n k' hk')]
    rfl
  · obtain ⟨n, k', hl, hi, ho, hfs⟩ := h.opened fd hopen
    refine ⟨n, k', hl, hi, ?_, hfs⟩
    rw [hinode k' (h.wf.linked.live n k' hl)]
    exact ho

/-- Handles on other files are not affected by a change of one file. -/
theorem Refines.lookup_setFile (h : Refines p s fs) (hl : s.lookup n = some k)
    (hlook : ∀ n', t.lookup n' = s.lookup n')
    (hother : ∀ k', s.Live k' → k' ≠ k → t.content k' = s.content k') (n' : CStr) :
    (fs.setFile n (t.content k)).files.lookup n' = (t.lookup n').map t.content := by
  rw [hlook, setFile]
  by_cases hn : n' = n
  · subst hn
    rw [Finmap.lookup_insert, hl, Option.map_some]
  · rw [Finmap.lookup_insert_of_ne _ hn, h.files]
    refine Option.map_congr fun k' hk' => (hother k' (h.wf.linked.live n' k' hk') ?_).symm
    rintro rfl
    exact hn (h.wf.linked.inj n' n k' hk' hl)

theorem Refines.truncate (h : Refines p s fs) (hl : s.lookup n = some k)
    (hquiet : fs.content n ≠ [] → ¬ fs.isOpen n) :
    Refines p (s.truncate k) (fs.setFile n []) := by
  have hlive := h.wf.linked.live n k hl
  rcases Nat.eq_zero_or_pos (s.inodeTable k).iSize with hs | hs
  · have hself := setFile_self (h.lookup_some hl)
    rw [content_eq_nil.mpr hs] at hself
    rw [truncate_of_empty hs, hself]
    exact h
  have hne : s.content k ≠ [] := fun hc => by
    rw [content_eq_nil] at hc
    omega
  have hnil := content_truncate_self (s := s) (k := k)
  refine ⟨h.params, h.wf.truncate hlive, fun n' => ?_, h.closed, fun fd hopen => ?_, ?_, ?_, ?_⟩
  · rw [← hnil]
    exact h.lookup_setFile (t := s.truncate k) hl (fun _ => rfl)
      (fun k' _ hk' => content_truncate_of_ne hk') n'
  · obtain ⟨n', k', hl', hi, ho, hfs⟩ := h.opened fd hopen
    refine ⟨n', k', hl', hi, ?_, hfs⟩
    have hkk : k' ≠ k := by
      rintro rfl
      refine hquiet (by rw [h.content hl]; exact hne) ⟨fd, (s.openFileTable fd).ofOffset, ?_⟩
      rw [hfs, h.wf.linked.inj n' n k' hl' hl]
    have hinode : (s.truncate k).inodeTable k' = s.inodeTable k' := Function.update_of_ne hkk ..
    rw [hinode]
    exact ho
  · refine h.inodes.trans ?_
    rw [setFile, card_keys_insert_old (h.lookup_some hl)]
  · refine h.entries.trans ?_
    rw [setFile, card_keys_insert_old (h.lookup_some hl)]
  · have hcount := blocksUsed_releaseBlock h.wf.toFilesWf hlive hs
    have hblocks := h.blocks
    have hmem := mem_nonempty_of (h.lookup_some hl) hne
    have herase := Finset.card_erase_add_one hmem
    have htrunc : (s.truncate k).blocksUsed = (s.releaseBlock k).blocksUsed := rfl
    rw [setFile, nonempty_insert_nil, htrunc]
    omega

theorem Refines.createFile (h : Refines p s fs) (hl : s.lookup n = none)
    (hk : s.freeInode = some k) (hslot : s.freeSlot = some i) (hpos : 0 < n.length)
    (hlen : n.length ≤ 39) : Refines p (s.createFile k i n) (fs.setFile n []) := by
  obtain ⟨h0, hklt, hfree⟩ := freeInode_some h.wf.toFilesWf hk
  obtain ⟨hi, he, -⟩ := freeSlot_eq_some hslot
  have hdead := not_live_of_free hfree
  have hlook := lookup_createFile h.wf.toFilesWf hklt hslot hpos hlen hl
  have hnone := h.lookup_none hl
  refine ⟨h.params, h.wf.createFile h0 hklt hfree hslot hpos hlen hl, fun n' => ?_, h.closed,
    fun fd hopen => ?_, ?_, ?_, ?_⟩
  · rw [setFile, hlook]
    by_cases hn : n' = n
    · subst hn
      rw [Finmap.lookup_insert, if_pos rfl, Option.map_some, content_createFile_self]
    · rw [Finmap.lookup_insert_of_ne _ hn, if_neg hn, h.files]
      refine Option.map_congr fun k' hk' => ?_
      have hlive := h.wf.linked.live n' k' hk'
      exact (content_createFile_of_ne h.wf.toFilesWf hlive (ne_of_live hlive hdead) hi hlen).symm
  · obtain ⟨n', k', hl', hi', ho, hfs⟩ := h.opened fd hopen
    have hlive := h.wf.linked.live n' k' hl'
    have hinode : (s.createFile k i n).inodeTable k' = s.inodeTable k' :=
      Function.update_of_ne (ne_of_live hlive hdead) ..
    refine ⟨n', k', ?_, hi', ?_, hfs⟩
    · rw [hlook, if_neg, hl']
      rintro rfl
      rw [hl] at hl'
      cases hl'
    · rw [hinode]
      exact ho
  · rw [inodesUsed_createFile hklt hfree, h.inodes, setFile, card_keys_insert_new hnone]
  · rw [entriesUsed_createFile hi he hlen (h.wf.inode_int hklt), h.entries, setFile,
      card_keys_insert_new hnone]
  · refine h.blocks.trans ?_
    rw [setFile, nonempty_insert_nil, Finset.erase_eq_of_notMem (notMem_nonempty (Or.inl hnone))]

theorem Refines.removeFile (h : Refines p s fs) (hl : s.lookup n = some k)
    (hi : i < s.maxDirEntries) (he : s.entry i = some (n, k)) (hquiet : ¬ fs.isOpen n) :
    Refines p (s.removeFile k i) { fs with files := fs.files.erase n } := by
  have hlive := h.wf.linked.live n k hl
  have hlook := lookup_removeFile h.wf.toFilesWf hi he
  have hsome := h.lookup_some hl
  have hcard := card_keys_erase hsome
  refine ⟨h.params, h.wf.removeFile hl hi he, fun n' => ?_, h.closed, fun fd hopen => ?_, ?_, ?_,
    ?_⟩
  · rw [hlook]
    by_cases hn : n' = n
    · subst hn
      rw [Finmap.lookup_erase, if_pos rfl, Option.map_none]
    · rw [Finmap.lookup_erase_ne hn, if_neg hn, h.files]
      exact Option.map_congr fun k' hk' =>
        (content_removeFile h.wf.toFilesWf (h.wf.linked.live n' k' hk') hi).symm
  · obtain ⟨n', k', hl', hi', ho, hfs⟩ := h.opened fd hopen
    refine ⟨n', k', ?_, hi', ho, hfs⟩
    rw [hlook, if_neg, hl']
    rintro rfl
    exact hquiet ⟨fd, _, hfs⟩
  · have := inodesUsed_removeFile hlive i
    have := h.inodes
    show (s.removeFile k i).inodesUsed = (fs.files.erase n).keys.card + 1
    omega
  · have := entriesUsed_removeFile hi he
    have := h.entries
    show (s.removeFile k i).entriesUsed = (fs.files.erase n).keys.card
    omega
  · have hblocks := h.blocks
    have hrel : (s.removeFile k i).blocksUsed = (s.releaseBlock k).blocksUsed := rfl
    rw [hrel, nonempty_erase]
    rcases Nat.eq_zero_or_pos (s.inodeTable k).iSize with hs | hs
    · rw [content_eq_nil.mpr hs] at hsome
      rw [blocksUsed_releaseBlock_empty hs, Finset.erase_eq_of_notMem
        (notMem_nonempty (Or.inr hsome)), hblocks]
    · have hcount := blocksUsed_releaseBlock h.wf.toFilesWf hlive hs
      have hmem := mem_nonempty_of hsome fun hc => by
        rw [content_eq_nil] at hc
        omega
      have herase := Finset.card_erase_add_one hmem
      omega

/-- A write through an open handle, the block map being `marks` by then. -/
theorem Refines.writeAt (h : Refines p s fs) {marks : Nat → AllocationState} {bytes : List UInt8}
    (hwf : WellFormed { s with freeBlocks := marks })
    (hroom : State.Room { s with freeBlocks := marks } k b) (hopen : s.IsOpen fd)
    (hl : s.lookup n = some k) (hi : (s.openFileTable fd).ofInumber = (k : Nat))
    (hoff : (s.openFileTable fd).ofOffset ≤ (s.inodeTable k).iSize)
    (hfit : (s.openFileTable fd).ofOffset + bytes.length ≤ s.fsParams.blockSize)
    (hown : 0 < (s.inodeTable k).iSize → (s.inodeTable k).iDataBlock = b)
    (hcount : State.blocksUsed { s with freeBlocks := marks } = (nonempty (fs.files.insert n
      (overlay (fs.content n) (s.openFileTable fd).ofOffset bytes))).card + 1) :
    Refines p (State.writeAt { s with freeBlocks := marks } fd k b bytes)
      ((fs.setFile n (overlay (fs.content n) (s.openFileTable fd).ofOffset bytes)).setHandle fd
        (some (n, (s.openFileTable fd).ofOffset + bytes.length))) := by
  have hlive := h.wf.linked.live n k hl
  have hlive' : State.Live { s with freeBlocks := marks } k := ⟨hlive.pos, hlive.lt, hlive.taken⟩
  have hdir : SameDir s (State.writeAt { s with freeBlocks := marks } fd k b bytes) :=
    sameDir_writeAt (s := { s with freeBlocks := marks }) hroom.pos
  have hself : State.content (State.writeAt { s with freeBlocks := marks } fd k b bytes) k = _ :=
    content_writeAt_self hoff hown
  have hsize : (s.inodeTable k).iSize ≤ s.fsParams.blockSize := by
    have := (h.bounded n _ (h.lookup_some hl)).2.2
    rwa [length_content, ← h.params] at this
  have hinode : ∀ k', k' ≠ k →
      (State.writeAt { s with freeBlocks := marks } fd k b bytes).inodeTable k' = s.inodeTable k' :=
    fun k' hne => inodeTable_writeAt_of_ne hne
  have hcontent : fs.content n = State.content { s with freeBlocks := marks } k := h.content hl
  rw [hcontent] at hcount ⊢
  refine ⟨h.params, hwf.writeAt hlive' hroom hfit hsize, fun n' => ?_, fun fd' hc => ?_,
    fun fd' hopen' => ?_, ?_, ?_, hcount⟩
  · rw [← hself]
    refine h.lookup_setFile hl hdir.lookup (fun k' hk' hne => ?_) n'
    exact content_writeAt_of_ne hwf.toFilesWf hroom hfit ⟨hk'.pos, hk'.lt, hk'.taken⟩ hne
  · have hj : fd' ≠ fd := by
      rintro rfl
      exact hc hopen
    exact (Function.update_of_ne hj ..).trans (h.closed fd' hc)
  · by_cases hj : fd' = fd
    · subst hj
      refine ⟨n, k, by rw [hdir.lookup, hl], ?_⟩
      simp [State.writeAt, setHandle, hi]
    · obtain ⟨n', k', hl', hi', ho', hfs'⟩ := h.opened fd' hopen'
      have hentry : (State.writeAt { s with freeBlocks := marks } fd k b bytes).openFileTable fd'
          = s.openFileTable fd' := Function.update_of_ne hj ..
      refine ⟨n', k', by rw [hdir.lookup, hl'], by rw [hentry, hi'], ?_, ?_⟩
      · rw [hentry]
        by_cases hkk : k' = k
        · subst hkk
          simp only [State.writeAt, Function.update_self]
          exact ho'.trans (le_max_left _ _)
        · rw [hinode k' hkk]
          exact ho'
      · rw [hentry]
        exact (Function.update_of_ne hj ..).trans hfs'
  · refine h.inodes.trans ?_
    rw [setHandle, setFile, card_keys_insert_old (h.lookup_some hl)]
  · rw [hdir.entriesUsed, h.entries, setHandle, setFile, card_keys_insert_old (h.lookup_some hl)]

/-! ## Operations -/

theorem fileName_some {path : Option CStr} (h : fileName path = some n) :
    ∃ q, path = some q ∧ validPathname path = true ∧ q.tail = n := by
  obtain ⟨q, rfl, hq⟩ := Option.bind_eq_some_iff.mp h
  split at hq
  · next b bs hbytes =>
    rw [Option.some.injEq] at hq
    refine ⟨q, rfl, ?_, hq⟩
    simp [validPathname, CStr.length, hbytes]
  · cases hq

theorem fileName_none {path : Option CStr} (h : fileName path = none) :
    validPathname path = false := by
  cases path with
  | none => rfl
  | some q =>
    rw [fileName, Option.bind_some] at h
    split at h
    · cases h
    · next hno =>
      rw [Bool.eq_false_iff]
      intro hv
      simp only [validPathname, Bool.and_eq_true, CStr.length, beq_iff_eq] at hv
      cases hb : q.bytes with
      | nil => simp [hb] at hv
      | cons b l =>
        cases l with
        | nil => simp [hb] at hv
        | cons b' l =>
          simp only [hb, List.head?_cons, Option.some.injEq] at hv
          rw [hv.2] at hb
          exact hno b' l hb

theorem Refines.no_inode_iff (h : Refines p s fs) :
    s.freeInode = none ↔ fs.files.keys.card = p.maxInodeCount - 1 := by
  have hpos := h.wf.root.inode_pos
  rw [freeInode_none_iff, h.inodes]
  rw [h.params] at hpos ⊢
  omega

theorem Refines.no_slot_iff (h : Refines p s fs) :
    s.freeSlot = none ↔ fs.files.keys.card = p.blockSize / dirEntrySize := by
  rw [freeSlot_none_iff, h.entries, State.maxDirEntries, h.params]

theorem Refines.no_block_iff (h : Refines p s fs) :
    s.freeBlock = none ↔ (nonempty fs.files).card = p.maxBlockCount - 1 := by
  have hpos := h.wf.root.block_pos
  rw [freeBlock_none_iff, h.blocks]
  rw [h.params] at hpos ⊢
  omega

theorem tfsOpen_refines (h : Refines p s fs) {path : Option CStr} {mode : Nat}
    (hquiet : fs.Quiet (.tfsOpen path mode)) :
    ∃ t, tfsOpen s path mode = .ok (t, (fs.openFile p path mode).2) ∧
      Refines p t (fs.openFile p path mode).1 := by
  unfold openFile
  cases hname : fileName path with
  | none => exact ⟨s, tfsOpen_invalid (fileName_none hname), h⟩
  | some n =>
    obtain ⟨q, rfl, hvalid, rfl⟩ := fileName_some hname
    cases hl : s.lookup q.tail with
    | some k =>
      simp only [h.lookup_some hl]
      -- emptied first, where that is asked for
      have hstate : Refines p (s.openState mode k) (fs.setFile q.tail
            (if hasFlag mode tfsOTrunc then [] else s.content k)) ∧
          (s.openState mode k).lookup q.tail = some k ∧
          ((s.openState mode k).inodeTable k).iSize
            = (if hasFlag mode tfsOTrunc then [] else s.content k).length := by
        unfold State.openState
        by_cases ht : hasFlag mode tfsOTrunc = true
        · rw [if_pos ht, if_pos ht]
          refine ⟨h.truncate hl (hquiet ht _ hname), hl, ?_⟩
          simp [State.truncate, State.setInode]
        · rw [if_neg ht, if_neg ht, setFile_self (h.lookup_some hl)]
          exact ⟨h, hl, (length_content s k).symm⟩
      obtain ⟨hstate, hlook, hsize⟩ := hstate
      have hoffset : s.openOffset mode k = if hasFlag mode tfsOAppend
          then (if hasFlag mode tfsOTrunc then [] else s.content k).length else 0 := by
        rw [State.openOffset, hsize]
      have hnew := hstate.newHandle hlook <|
        show s.openOffset mode k ≤ _ by
          unfold State.openOffset
          split <;> omega
      rw [hoffset] at hnew
      refine ⟨_, ?_, hnew.1⟩
      rw [tfsOpen_existing h.wf.toFilesWf hvalid hl, hoffset, ← hnew.2]
    | none =>
      simp only [h.lookup_none hl]
      split
      · next hfail =>
        rcases hfail with hc | hfull
        · exact ⟨s, tfsOpen_absent h.wf.toFilesWf hvalid hl hc, h⟩
        · by_cases hc : hasFlag mode tfsOCreat = true
          · cases hk : s.freeInode with
            | none => exact ⟨s, tfsOpen_no_inode h.wf.toFilesWf hvalid hl hc hk, h⟩
            | some k =>
              obtain ⟨h0, -, hfree⟩ := freeInode_some h.wf.toFilesWf hk
              rw [← h.no_inode_iff, hk, ← h.no_slot_iff] at hfull
              refine ⟨_, tfsOpen_no_entry h.wf.toFilesWf hvalid hl hc hk ?_,
                h.setInode h0 (not_live_of_free hfree) _⟩
              rcases hfull with hnone | hslot | hlen
              · cases hnone
              · exact Or.inr hslot
              · exact Or.inl hlen
          · rw [Bool.not_eq_true] at hc
            exact ⟨s, tfsOpen_absent h.wf.toFilesWf hvalid hl hc, h⟩
      · next hroom =>
        rw [not_or, not_or, not_or, ← h.no_inode_iff, ← h.no_slot_iff, Bool.not_eq_false] at hroom
        obtain ⟨hc, hk, hslot, hlen⟩ := hroom
        obtain ⟨k, hk⟩ := Option.ne_none_iff_exists'.mp hk
        obtain ⟨i, hslot⟩ := Option.ne_none_iff_exists'.mp hslot
        have hlen' : q.tail.length ≤ 39 := by omega
        have hfile := h.createFile hl hk hslot (validPathname_pos hvalid) hlen'
        have hlook : (s.createFile k i q.tail).lookup q.tail = some k := by
          rw [lookup_createFile h.wf.toFilesWf (freeInode_some h.wf.toFilesWf hk).2.1 hslot
            (validPathname_pos hvalid)
            hlen' hl, if_pos rfl]
        have hnew := hfile.newHandle hlook (Nat.zero_le 0 |>.trans (Nat.zero_le _))
        refine ⟨_, ?_, hnew.1⟩
        rw [tfsOpen_create h.wf.toFilesWf hvalid hl hc hk hslot hlen', ← hnew.2]

theorem tfsClose_refines (h : Refines p s fs) (fhandle : Int) :
    ∃ t, tfsClose s fhandle = .ok (t, (fs.closeFile fhandle).2) ∧
      Refines p t (fs.closeFile fhandle).1 := by
  rw [tfsClose_eq h.wf.root.toSized]
  unfold closeFile
  cases hh : s.handle fhandle with
  | none =>
    rw [h.handle_none hh]
    exact ⟨s, rfl, h⟩
  | some fd =>
    obtain ⟨n, k, -, -, -, hfs⟩ := h.handle_some hh
    obtain ⟨rfl, -⟩ := open_of_handle hh
    rw [hfs]
    exact ⟨_, rfl, h.closeHandle fd⟩

theorem tfsRead_refines (h : Refines p s fs) (fhandle : Int) (len : Nat) :
    ∃ t, tfsRead s fhandle len = .ok (t, (fs.readFile fhandle len).2) ∧
      Refines p t (fs.readFile fhandle len).1 := by
  unfold readFile
  cases hh : s.handle fhandle with
  | none =>
    rw [h.handle_none hh]
    exact ⟨s, tfsRead_closed h.wf.root.toSized hh len, h⟩
  | some fd =>
    obtain ⟨n, k, hl, hi, ho, hfs⟩ := h.handle_some hh
    obtain ⟨rfl, hopen⟩ := open_of_handle hh
    have hlive := h.wf.linked.live n k hl
    have hint : (s.inodeTable k).iSize ≤ 2147483647 := by
      have := (h.bounded n _ (h.lookup_some hl)).2.2
      rw [length_content, ← h.params] at this
      exact this.trans h.wf.root.block_int
    have hcut : (if subSize _ (s.openFileTable fd).ofOffset > len then len else _) = min len _ :=
      toRead_eq ho hint
    have hlen : (((fs.content n).drop (s.openFileTable fd).ofOffset).take len).length
        = min len ((s.inodeTable k).iSize - (s.openFileTable fd).ofOffset) := by
      rw [h.content hl, List.length_take, List.length_drop, length_content]
    simp only [hfs, hlen, Int.toNat_natCast]
    generalize hm : min len ((s.inodeTable k).iSize - (s.openFileTable fd).ofOffset) = m at hcut
    have hbytes : ((fs.content n).drop (s.openFileTable fd).ofOffset).take len
        = ((fs.content n).drop (s.openFileTable fd).ofOffset).take m := by
      rw [← hm, h.content hl, List.take_eq_take_iff, List.length_drop, length_content]
      omega
    rw [hbytes]
    have hset := h.setOffset hopen hl hi
      (show (s.openFileTable fd).ofOffset + m ≤ (s.inodeTable k).iSize by omega)
    rcases Nat.eq_zero_or_pos m with hzero | hpos
    · have hread := tfsRead_nothing h.wf.root.toSized hh hi hlive.lt (hcut.symm) hzero
      subst hzero
      refine ⟨s, by rw [hread]; simp, ?_⟩
      have hsame : s.setOffset fd ((s.openFileTable fd).ofOffset + 0) = s := by
        simp [State.setOffset]
      rwa [hsame] at hset
    · have hs : 0 < (s.inodeTable k).iSize := by omega
      obtain ⟨b, hb, -, hblt, -, hle⟩ := h.wf.blocks.valid k hlive hs
      have hread := tfsRead_some h.wf.root.toSized hh hi hlive.lt hcut.symm hpos hb hblt (by omega)
      refine ⟨_, ?_, hset⟩
      rw [hread, h.content hl, State.content, hb, Int.toNat_natCast,
        drop_read (by omega), take_read (by omega)]

theorem tfsUnlink_refines (h : Refines p s fs) {path : Option CStr}
    (hquiet : fs.Quiet (.tfsUnlink path)) :
    ∃ t, tfsUnlink s path = .ok (t, (fs.unlinkFile path).2) ∧
    Refines p t (fs.unlinkFile path).1 := by
  unfold unlinkFile
  cases hname : fileName path with
  | none => exact ⟨s, tfsUnlink_invalid (fileName_none hname), h⟩
  | some n =>
    obtain ⟨q, rfl, hvalid, rfl⟩ := fileName_some hname
    cases hl : s.lookup q.tail with
    | none =>
      simp only [h.lookup_none hl, if_true]
      exact ⟨s, tfsUnlink_absent h.wf.toFilesWf hvalid hl, h⟩
    | some k =>
      obtain ⟨i, hi, he⟩ := exists_slot h.wf.toFilesWf hl
      simp only [h.lookup_some hl, reduceCtorEq, if_false]
      exact ⟨_, tfsUnlink_of h.wf.toFilesWf hvalid hl hi he, h.removeFile hl hi he (hquiet _ hname)⟩

theorem overlay_ne_nil {c bytes : List UInt8} {o : Nat} (h : bytes ≠ []) :
    overlay c o bytes ≠ [] := by
  simp [overlay, h]

theorem tfsWrite_refines (h : Refines p s fs) {fhandle : Int} {buffer : List UInt8}
    (hquiet : fs.Quiet (.tfsWrite fhandle buffer)) :
    ∃ t, tfsWrite s fhandle buffer buffer.length = .ok (t, (fs.writeFile p fhandle buffer).2) ∧
      Refines p t (fs.writeFile p fhandle buffer).1 := by
  have hp := h.params
  subst hp
  unfold writeFile
  cases hh : s.handle fhandle with
  | none =>
    rw [h.handle_none hh]
    exact ⟨s, tfsWrite_closed h.wf.root.toSized hh _ _, h⟩
  | some fd =>
    obtain ⟨n, k, hl, hi, ho, hfs⟩ := h.handle_some hh
    obtain ⟨rfl, hopen⟩ := open_of_handle hh
    have hlive := h.wf.linked.live n k hl
    have hsized := h.wf.root.toSized
    have hbs : (s.inodeTable k).iSize ≤ s.fsParams.blockSize := by
      have := (h.bounded n _ (h.lookup_some hl)).2.2
      rwa [length_content] at this
    simp only [hfs, Int.toNat_natCast]
    -- the part of the buffer that fits
    generalize hm : min buffer.length (s.fsParams.blockSize - (s.openFileTable fd).ofOffset) = m
    have hcut : s.toWrite fd buffer.length = m := toWrite_of_le hsized (by omega) hquiet hm.symm
    have hbytes : buffer.take (s.fsParams.blockSize - (s.openFileTable fd).ofOffset)
        = buffer.take m := by
      rw [← hm, List.take_eq_take_iff]
      omega
    have hlen : (buffer.take m).length = m := by
      rw [List.length_take]
      omega
    have hnil : buffer.take m = [] ↔ m = 0 := by rw [← List.length_eq_zero_iff, hlen]
    rw [hbytes]
    simp only [hnil, hlen]
    rcases Nat.eq_zero_or_pos m with hzero | hpos
    · rw [if_pos hzero]
      exact ⟨s, tfsWrite_nothing hsized hh hi hlive.lt hcut hzero, h⟩
    have hne : buffer.take m ≠ [] := fun hc => by
      rw [hnil] at hc
      omega
    have hover := overlay_ne_nil (c := fs.content n) (o := (s.openFileTable fd).ofOffset) hne
    rw [if_neg (show ¬ m = 0 by omega)]
    rcases Nat.eq_zero_or_pos (s.inodeTable k).iSize with hs | hs
    · -- the first block of the file
      have hempty : fs.content n = [] := (h.content hl).trans (content_eq_nil.mpr hs)
      cases hb : s.freeBlock with
      | none =>
        rw [if_pos ⟨hempty, h.no_block_iff.mp hb⟩]
        exact ⟨s, tfsWrite_full hsized hh hi hlive.lt hcut hpos hs hb, h⟩
      | some b =>
        have hfull : ¬ (fs.content n = [] ∧
            (nonempty fs.files).card = s.fsParams.maxBlockCount - 1) := fun hc => by
          rw [← h.no_block_iff, hb] at hc
          cases hc.2
        obtain ⟨hblt, hfree, -⟩ := firstIndex_eq_some.mp hb
        rw [beq_iff_eq] at hfree
        have hcount : (s.takeBlock b).blocksUsed = (nonempty (fs.files.insert n
            (overlay (fs.content n) (s.openFileTable fd).ofOffset (buffer.take m)))).card + 1 := by
          have hnot : n ∉ nonempty fs.files := notMem_nonempty <| Or.inr <| by
            rw [h.lookup_some hl, content_eq_nil.mpr hs]
          rw [blocksUsed_takeBlock hblt hfree, h.blocks, nonempty_insert_some hover,
            Finset.card_insert_of_notMem hnot]
        have hwrite := h.writeAt (h.wf.takeBlock hfree) (h.wf.room_fresh hfree hblt k)
          hopen hl hi ho
          (by rw [hlen]; omega) (by omega) hcount
        rw [hlen] at hwrite
        rw [if_neg hfull]
        exact ⟨_, tfsWrite_alloc hsized hh hi hlive.lt hcut (by omega) (by omega) hpos hs hb,
          hwrite⟩
    · obtain ⟨b, hb, hroom⟩ := h.wf.room_own hlive hs
      have hfull : ¬ (fs.content n = [] ∧
          (nonempty fs.files).card = s.fsParams.maxBlockCount - 1) := fun hc => by
        rw [h.content hl, content_eq_nil] at hc
        omega
      have hcount : s.blocksUsed = (nonempty (fs.files.insert n
          (overlay (fs.content n) (s.openFileTable fd).ofOffset (buffer.take m)))).card + 1 := by
        have hmem : n ∈ nonempty fs.files := mem_nonempty_of (h.lookup_some hl) fun hc => by
          rw [content_eq_nil] at hc
          omega
        rw [h.blocks, nonempty_insert_some hover, Finset.insert_eq_of_mem hmem]
      have hwrite := h.writeAt h.wf hroom hopen hl hi ho (by rw [hlen]; omega) (fun _ => hb) hcount
      rw [hlen] at hwrite
      rw [if_neg hfull]
      exact ⟨_, tfsWrite_own hsized hh hi hlive.lt hcut (by omega) (by omega) hpos hs hb
        hroom.lt, hwrite⟩

/-! ## Runs -/

theorem step_refines (h : Refines p s fs) {op : Op} (hquiet : fs.Quiet op) :
    ∃ t, tfsStep s op = .ok (t, (fs.step p op).2) ∧ Refines p t (fs.step p op).1 := by
  cases op with
  | tfsOpen path mode =>
    obtain ⟨t, ht, href⟩ := tfsOpen_refines h hquiet
    exact ⟨t, by rw [tfsStep, ht]; rfl, href⟩
  | tfsClose fhandle =>
    obtain ⟨t, ht, href⟩ := tfsClose_refines h fhandle
    exact ⟨t, by rw [tfsStep, ht]; rfl, href⟩
  | tfsWrite fhandle buffer =>
    obtain ⟨t, ht, href⟩ := tfsWrite_refines h hquiet
    exact ⟨t, by rw [tfsStep, ht]; rfl, href⟩
  | tfsRead fhandle len => exact tfsRead_refines h fhandle len
  | tfsUnlink path =>
    obtain ⟨t, ht, href⟩ := tfsUnlink_refines h hquiet
    exact ⟨t, by rw [tfsStep, ht]; rfl, href⟩

theorem run_refines {ops : List Op} (h : Refines p s fs) (hquiet : fs.QuietRun p ops) :
    ∃ t, tfsRun s ops = .ok (t, (fs.run p ops).2) ∧ Refines p t (fs.run p ops).1 := by
  induction ops generalizing s fs with
  | nil => exact ⟨s, rfl, h⟩
  | cons op ops ih =>
    obtain ⟨t, ht, href⟩ := step_refines h hquiet.1
    obtain ⟨u, hu, href'⟩ := ih href hquiet.2
    refine ⟨u, ?_, href'⟩
    rw [tfsRun, ht, ok_bind, hu]
    rfl

theorem refines_initial (s : State) {q : TfsParams} (hq : q.InRange) (m : Malloc) :
    Refines q (s.initial q m) .empty := by
  have hkeys : FileSystem.empty.files.keys.card = 0 := by
    simp [FileSystem.empty]
  have hnone : (nonempty FileSystem.empty.files).card = 0 := by
    simp [FileSystem.empty, nonempty]
  refine ⟨rfl, initial_wellFormed hq.usable, fun n => ?_, fun _ _ => rfl,
    fun fd hopen => ?_, ?_, ?_, ?_⟩
  · rw [lookup_initial, Option.map_none]
    exact Finmap.lookup_empty n
  · have hfree : (s.initial q m).freeOpenFileEntries fd = .free := freshTables_handle hopen.1
    have := hopen.2
    rw [hfree] at this
    cases this
  · rw [hkeys]
    refine count_only_zero hq.inodes_pos initial_root.1 fun j hj hne => ?_
    rw [initial_freeinodeTs (q := q) (Nat.pos_of_ne_zero hne) hj]
    simp
  · rw [hkeys]
    refine count_zero fun j hj => ?_
    rw [initial_entry hj]
    simp
  · rw [hnone]
    refine count_only_zero hq.blocks_pos initial_root.2.1 fun j hj hne => ?_
    have hfree : (s.initial q m).freeBlocks j = .free :=
      (Function.update_of_ne hne ..).trans (freshTables_block hj)
    rw [hfree]
    simp

/-- TecnicoFS refines the abstract file system. -/
theorem tfs_refines {params : Option TfsParams} {m : Malloc}
    (hr : (params.getD tfsDefaultParams).InRange) (hinit : tfsInit s params m = .ok (t, 0))
    {ops : List Op} (hquiet : FileSystem.empty.QuietRun (params.getD tfsDefaultParams) ops) :
    (∃ u, tfsRun t ops = .ok (u, (FileSystem.empty.run (params.getD tfsDefaultParams) ops).2)) ∧
      (FileSystem.empty.run (params.getD tfsDefaultParams) ops).1.Bounded
        (params.getD tfsDefaultParams) := by
  have hstart := refines_initial s hr m
  rw [← (tfsInit_inv hr.usable.toFitsInt hinit).2] at hstart
  obtain ⟨u, hu, href⟩ := run_refines hstart hquiet
  exact ⟨⟨u, hu⟩, href.bounded⟩

theorem tfsDefaultParams_inRange : tfsDefaultParams.InRange := by
  constructor <;> decide

/-- A file is written, closed, opened again and read. -/
def writeThenRead : List Op :=
  let name : Option CStr := some ⟨[47, 97], by decide⟩
  [.tfsOpen name tfsOCreat, .tfsWrite 0 [104, 105], .tfsClose 0, .tfsOpen name 0, .tfsRead 0 16]

theorem tfs_refines_writeThenRead :
    (∃ u, tfsRun (State.static.initial tfsDefaultParams .zeros) writeThenRead
        = .ok (u, (FileSystem.empty.run tfsDefaultParams writeThenRead).2)) ∧
      (FileSystem.empty.run tfsDefaultParams writeThenRead).1.Bounded tfsDefaultParams :=
  tfs_refines (show TfsParams.InRange (none.getD _) from tfsDefaultParams_inRange)
    (show tfsInit .static none .zeros = .ok (_, 0) from
      tfsInit_of rfl tfsDefaultParams_inRange.usable rfl rfl)
    ⟨fun h => absurd h (by decide), show 2
      < 9223372036854775808 by decide, trivial, fun h => absurd h (by decide), trivial,
      trivial⟩

end MBroker.Fs
