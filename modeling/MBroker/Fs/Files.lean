import MBroker.Fs.Effects

/-!
# Files by name

`s.file n` is the content of the file of name `n`, if there is one, and
`s.Cursor fh n offset` says that the handle `fh` is on that file, at that offset.
What the operations do to them in any well-formed state: this is the view of
TecnicoFS that the broker relies on.

Results:
1. `file_createFile`, `file_removeFile`: creating and unlinking.
2. `tfsOpen_absent_file`, `tfsOpen_cursor`: opening a file for the broker.
3. `tfsWrite_append`: a write at the end of a file appends as much as fits.
4. `tfsRead_within`, `tfsRead_rest`: a read takes the next bytes of the file.
-/

namespace MBroker.Fs

open FirstFit ByteMemory

variable {s t : State} {i k fd : Nat} {n n' p : CStr}

def State.file (s : State) (n : CStr) : Option (List UInt8) := (s.lookup n).map s.content

theorem file_of_lookup (hl : s.lookup n = some k) : s.file n = some (s.content k) := by
  rw [State.file, hl, Option.map_some]

theorem file_of_absent (hl : s.lookup n = none) : s.file n = none := by
  rw [State.file, hl, Option.map_none]

theorem file_eq_none : s.file n = none ↔ s.lookup n = none := by
  rw [State.file, Option.map_eq_none_iff]

theorem file_eq_some {c : List UInt8} :
    s.file n = some c ↔ ∃ k, s.lookup n = some k ∧ s.content k = c := by
  rw [State.file, Option.map_eq_some_iff]

theorem file_length_le (h : FilesWf s) {c : List UInt8} (hf : s.file n = some c) :
    c.length ≤ s.fsParams.blockSize := by
  obtain ⟨k, hk, rfl⟩ := file_eq_some.mp hf
  rw [length_content]
  exact size_le_block h (h.linked.live n k hk)

/-! ## Opening -/

/-- Opening changes the open file table only. -/
structure SameFiles (s t : State) : Prop where
  params : t.fsParams = s.fsParams
  lookup : ∀ n, t.lookup n = s.lookup n
  inodes : t.inodeTable = s.inodeTable
  data : t.fsData = s.fsData
  blocks : t.freeBlocks = s.freeBlocks

theorem SameFiles.freeBlock (h : SameFiles s t) : t.freeBlock = s.freeBlock := by
  rw [State.freeBlock, State.freeBlock, h.blocks, h.params]

theorem SameFiles.file (h : SameFiles s t) (n : CStr) : t.file n = s.file n := by
  rw [State.file, State.file, h.lookup]
  refine Option.map_congr fun k _ => ?_
  rw [State.content, State.content, h.inodes, h.params, h.data]

theorem sameFiles_openHandle (s : State) (k : Int) (offset : Nat) :
    SameFiles s (s.openHandle k offset).1 := by
  unfold State.openHandle
  split
  · exact ⟨rfl, fun _ => rfl, rfl, rfl, rfl⟩
  · exact ⟨rfl, fun _ => rfl, rfl, rfl, rfl⟩

theorem sameFiles_setOffset (s : State) (fd offset : Nat) : SameFiles s (s.setOffset fd offset) :=
  ⟨rfl, fun _ => rfl, rfl, rfl, rfl⟩

/-- A handle on inode `k`, at an offset. -/
structure State.HandleOn (s : State) (fhandle : Int) (k offset : Nat) : Prop where
  nonneg : 0 ≤ fhandle
  opened : s.IsOpen fhandle.toNat
  inumber : (s.openFileTable fhandle.toNat).ofInumber = k
  offset : (s.openFileTable fhandle.toNat).ofOffset = offset

theorem State.HandleOn.handle {fhandle : Int} {offset : Nat} (h : s.HandleOn fhandle k offset) :
    s.handle fhandle = some fhandle.toNat := by
  have := handle_of_open h.opened
  rwa [Int.toNat_of_nonneg h.nonneg] at this

/-- The handle is on the file of this name, at this offset. -/
def State.Cursor (s : State) (fhandle : Int) (n : CStr) (offset : Nat) : Prop :=
  ∃ k, s.lookup n = some k ∧ s.HandleOn fhandle k offset

theorem State.Cursor.nonneg {fhandle : Int} {offset : Nat} (h : s.Cursor fhandle n offset) :
    0 ≤ fhandle := by
  obtain ⟨k, -, hh⟩ := h
  exact hh.nonneg

/-- A new handle is none of those that are open, and leaves them where they are. -/
theorem openHandle_cursor {fh : Int} {o : Nat} (k : Int) (offset : Nat) (hc : s.Cursor fh n o) :
    fh ≠ (s.openHandle k offset).2 ∧ (s.openHandle k offset).1.Cursor fh n o := by
  have hsame := sameFiles_openHandle s k offset
  obtain ⟨k', hk', hfh⟩ := hc
  have hnn := hfh.nonneg
  cases hfree : s.freeHandle with
  | none =>
    rw [State.openHandle, hfree] at hsame ⊢
    refine ⟨?_, k', hk', hfh⟩
    rintro rfl
    cases hnn
  | some j =>
    obtain ⟨hj, hmark, -⟩ := firstIndex_eq_some.mp hfree
    rw [beq_iff_eq] at hmark
    have hne : fh.toNat ≠ j := by
      intro heq
      have := hfh.opened.2
      rw [heq, hmark] at this
      cases this
    rw [State.openHandle, hfree] at hsame ⊢
    refine ⟨?_, k', (hsame.lookup _).trans hk', hnn, ⟨hfh.opened.1, ?_⟩, ?_, ?_⟩
    · rintro rfl
      exact hne (Int.toNat_natCast j)
    · exact (Function.update_of_ne hne ..).trans hfh.opened.2
    · rw [← hfh.inumber]
      simp [Function.update_of_ne hne]
    · rw [← hfh.offset]
      simp [Function.update_of_ne hne]

theorem tfsOpen_absent_file (h : WellFormed s)
    (hf : validPathname (some p) = true → s.file p.tail = none) :
    tfsOpen s (some p) tfsOAppend = .ok (s, -1) := by
  by_cases hv : validPathname (some p) = true
  · exact tfsOpen_absent h.toFilesWf hv (file_eq_none.mp (hf hv)) (by decide)
  · exact tfsOpen_invalid (by simpa using hv)

/-- Opening an existing file: either the table is full and nothing changes, or a
free handle is taken and the others are as they were. -/
theorem tfsOpen_cursor (h : WellFormed s) (hv : validPathname (some p) = true) {c : List UInt8}
    (hf : s.file p.tail = some c) {mode offset : Nat}
    (hm : mode = tfsOAppend ∧ offset = c.length ∨ mode = tfsOCreat ∧ offset = 0) :
    (tfsOpen s (some p) mode = .ok (s, -1) ∧ s.freeHandle = none) ∨
      ∃ t, ∃ j : Nat, s.freeHandle = some j ∧ tfsOpen s (some p) mode = .ok (t, (j : Int)) ∧
        WellFormed t ∧ SameFiles s t ∧ t.Cursor j p.tail offset ∧
          ∀ fh n' o, s.Cursor fh n' o → fh ≠ j ∧ t.Cursor fh n' o := by
  obtain ⟨k, hl, rfl⟩ := file_eq_some.mp hf
  have hstate : s.openState mode k = s := by
    rcases hm with ⟨rfl, -⟩ | ⟨rfl, -⟩
    · exact if_neg (by decide)
    · exact if_neg (by decide)
  have hoffset : s.openOffset mode k = offset := by
    rw [State.openOffset, hstate]
    rcases hm with ⟨rfl, rfl⟩ | ⟨rfl, rfl⟩
    · exact (if_pos (by decide)).trans (length_content ..).symm
    · exact if_neg (by decide)
  have hopen : tfsOpen s (some p) mode = _ := tfsOpen_existing h.toFilesWf hv hl
  rw [hstate, hoffset] at hopen
  have hsame := sameFiles_openHandle s k offset
  have hlive := h.linked.live _ k hl
  have hle : offset ≤ s.fsParams.blockSize := by
    rcases hm with ⟨-, rfl⟩ | ⟨-, rfl⟩
    · rw [length_content]
      exact size_le_block h.toFilesWf hlive
    · exact Nat.zero_le _
  have hwf : WellFormed (s.openHandle k offset).1 := h.openHandle hlive.pos hlive.lt hle
  cases hfree : s.freeHandle with
  | none =>
    refine Or.inl ⟨?_, rfl⟩
    rw [hopen, State.openHandle, hfree]
  | some j =>
    obtain ⟨hj, hmark, -⟩ := firstIndex_eq_some.mp hfree
    have hothers := fun fh n' o (hc : s.Cursor fh n' o) => openHandle_cursor k offset hc
    rw [State.openHandle, hfree] at hopen hsame hwf hothers
    refine Or.inr ⟨_, j, rfl, hopen, hwf, hsame,
      ⟨k, (hsame.lookup _).trans hl, Int.natCast_nonneg j, ⟨hj, ?_⟩, ?_, ?_⟩, hothers⟩
    · simp
    · simp
    · simp

/-! ## Creating and unlinking -/

theorem file_createFile (h : FilesWf s) (hk : s.freeInode = some k) (hslot : s.freeSlot = some i)
    (hpos : 0 < n.length) (hlen : n.length ≤ 39) (hnew : s.lookup n = none) (n' : CStr) :
    (s.createFile k i n).file n' = if n' = n then some [] else s.file n' := by
  obtain ⟨h0, hklt, hfree⟩ := freeInode_some h hk
  have hlook := lookup_createFile h hklt hslot hpos hlen hnew
  rw [State.file, hlook]
  split
  · rw [Option.map_some, content_createFile_self]
  · refine Option.map_congr fun k' hk' => ?_
    have hlive := h.linked.live n' k' hk'
    refine content_createFile_of_ne h hlive ?_ (freeSlot_eq_some hslot).1 hlen
    rintro rfl
    exact not_live_of_free hfree hlive

theorem file_removeFile (h : FilesWf s) (hi : i < s.maxDirEntries)
    (he : s.entry i = some (n, k)) (n' : CStr) :
    (s.removeFile k i).file n' = if n' = n then none else s.file n' := by
  rw [State.file, lookup_removeFile h hi he]
  split
  · rfl
  · exact Option.map_congr fun k' hk' => content_removeFile h (h.linked.live n' k' hk') hi

/-- Whether `tfs_open` with `TFS_O_CREAT` gives a handle. -/
def State.CanOpen (s : State) (p : CStr) : Prop :=
  validPathname (some p) = true ∧ s.freeHandle ≠ none ∧
    (s.file p.tail ≠ none ∨ s.freeInode ≠ none ∧ s.freeSlot ≠ none)

/-- A handle was taken on the file of name `n`, which was created if it was not there. -/
structure Created (s t : State) (n : CStr) (j : Nat) : Prop where
  handle : s.freeHandle = some j
  entries : t.freeOpenFileEntries = Function.update s.freeOpenFileEntries j .taken
  file : ∀ n', t.file n' = if n' = n ∧ s.file n = none then some [] else s.file n'

/-- `tfs_open` with `TFS_O_CREAT` on a name that fits: a handle, and the file is
there, or -1. -/
theorem tfsOpen_creat (h : WellFormed s) (hlen : p.tail.length ≤ 39) :
    ∃ t r, tfsOpen s (some p) tfsOCreat = .ok (t, r) ∧ WellFormed t ∧ t.fsParams = s.fsParams ∧
      ((¬ s.CanOpen p ∧ r = -1) ∨ (s.CanOpen p ∧ ∃ j : Nat, r = j ∧ Created s t p.tail j)) := by
  obtain ⟨r, hr, hopened⟩ := tfsOpen_cases h.toFilesWf (some p) tfsOCreat
  refine ⟨r.1, r.2, hr, hopened.wellFormed h, hopened.params, ?_⟩
  by_cases hv : validPathname (some p) = true
  swap
  · rw [tfsOpen_invalid (by simpa using hv), Except.ok.injEq] at hr
    subst hr
    exact Or.inl ⟨fun hc => hv hc.1, rfl⟩
  -- The file is there, or an inode and an entry are needed before the handle.
  cases hl : s.lookup p.tail with
  | some k =>
    have hf : s.file p.tail ≠ none := by simp [file_of_lookup hl]
    have hstate : s.openState tfsOCreat k = s := if_neg (by decide)
    rw [tfsOpen_existing h.toFilesWf hv hl, Except.ok.injEq, hstate] at hr
    subst hr
    cases hfree : s.freeHandle with
    | none =>
      refine Or.inl ⟨fun hc => hc.2.1 hfree, ?_⟩
      rw [State.openHandle, hfree]
    | some j =>
      refine Or.inr ⟨⟨hv, by simp [hfree], Or.inl hf⟩, j, ?_, hfree, ?_, fun n => ?_⟩
      · rw [State.openHandle, hfree]
      · rw [State.openHandle, hfree]
      · rw [if_neg (fun hn => hf hn.2), (sameFiles_openHandle _ _ _).file]
  | none =>
    have hf : s.file p.tail = none := file_of_absent hl
    cases hk : s.freeInode with
    | none =>
      rw [tfsOpen_no_inode h.toFilesWf hv hl (by decide) hk, Except.ok.injEq] at hr
      subst hr
      exact Or.inl ⟨fun hc => hc.2.2.elim (fun hne => hne hf) fun hne => hne.1 hk, rfl⟩
    | some k =>
      cases hslot : s.freeSlot with
      | none =>
        rw [tfsOpen_no_entry h.toFilesWf hv hl (by decide) hk (Or.inr hslot), Except.ok.injEq] at hr
        subst hr
        exact Or.inl ⟨fun hc => hc.2.2.elim (fun hne => hne hf) fun hne => hne.2 hslot, rfl⟩
      | some i =>
        have hfile := file_createFile h.toFilesWf hk hslot (validPathname_pos hv) hlen hl
        rw [tfsOpen_create h.toFilesWf hv hl (by decide) hk hslot hlen, Except.ok.injEq] at hr
        have hhandles : (s.createFile k i p.tail).freeHandle = s.freeHandle := rfl
        subst hr
        cases hfree : s.freeHandle with
        | none =>
          refine Or.inl ⟨fun hc => hc.2.1 hfree, ?_⟩
          rw [State.openHandle, hhandles, hfree]
        | some j =>
          refine Or.inr
            ⟨⟨hv, by simp [hfree], Or.inr ⟨by simp [hk], by simp [hslot]⟩⟩, j, ?_, hfree,
            ?_, fun n => ?_⟩
          · rw [State.openHandle, hhandles, hfree]
          · rw [State.openHandle, hhandles, hfree]
            rfl
          · rw [(sameFiles_openHandle _ _ _).file, hfile]
            simp only [hf, and_true]

/-- `tfs_unlink` removes the name, if there is one. -/
theorem tfsUnlink_file (h : WellFormed s) (p : CStr) :
    ∃ t r, tfsUnlink s (some p) = .ok (t, r) ∧ WellFormed t ∧ t.fsParams = s.fsParams ∧
      t.freeOpenFileEntries = s.freeOpenFileEntries ∧
      ((¬ (validPathname (some p) = true ∧ s.file p.tail ≠ none) ∧ r = -1) ∨
        ((validPathname (some p) = true ∧ s.file p.tail ≠ none) ∧ r = 0 ∧
          ∀ n, t.file n = if n = p.tail then none else s.file n)) := by
  obtain ⟨r, hr, hunlinked⟩ := tfsUnlink_cases h.toFilesWf (some p)
  refine ⟨r.1, r.2, hr, hunlinked.wellFormed h, hunlinked.params, hunlinked.entries, ?_⟩
  by_cases hv : validPathname (some p) = true
  swap
  · rw [tfsUnlink_invalid (by simpa using hv), Except.ok.injEq] at hr
    subst hr
    exact Or.inl ⟨fun hc => hv hc.1, rfl⟩
  cases hl : s.lookup p.tail with
  | none =>
    rw [tfsUnlink_absent h.toFilesWf hv hl, Except.ok.injEq] at hr
    subst hr
    exact Or.inl ⟨fun hc => hc.2 (file_of_absent hl), rfl⟩
  | some k =>
    obtain ⟨i, hi, he⟩ := exists_slot h.toFilesWf hl
    rw [tfsUnlink_of h.toFilesWf hv hl hi he, Except.ok.injEq] at hr
    subst hr
    exact Or.inr ⟨⟨hv, by simp [file_of_lookup hl]⟩, rfl, file_removeFile h.toFilesWf hi he⟩

/-! ## Reading and writing -/

/-- The file of name `n` has the content `c`, and the handles other than
`fhandle` are where they were. -/
structure Rewritten (s t : State) (fhandle : Int) (n : CStr) (c : List UInt8) : Prop where
  wf : WellFormed t
  params : t.fsParams = s.fsParams
  lookup : ∀ n', t.lookup n' = s.lookup n'
  file : ∀ n', t.file n' = if n' = n then some c else s.file n'
  handle : ∀ fh k o, fh ≠ fhandle → s.HandleOn fh k o → t.HandleOn fh k o

theorem Rewritten.cursor {fhandle fh : Int} {c : List UInt8} {o : Nat}
    (h : Rewritten s t fhandle n c) (hne : fh ≠ fhandle) (hc : s.Cursor fh n' o) :
    t.Cursor fh n' o := by
  obtain ⟨k, hl, hh⟩ := hc
  exact ⟨k, (h.lookup n').trans hl, h.handle fh k o hne hh⟩

theorem toNat_ne {fh fhandle : Int} (h : fh ≠ fhandle) (hfh : 0 ≤ fh) (hfhandle : 0 ≤ fhandle) :
    fh.toNat ≠ fhandle.toNat := by
  omega

/-- Another handle than the one that is moved. -/
theorem State.HandleOn.setOffset {fh : Int} {o : Nat} (h : s.HandleOn fh k o) (hne : fh.toNat ≠ fd)
    (offset : Nat) : (s.setOffset fd offset).HandleOn fh k o := by
  refine ⟨h.nonneg, h.opened, ?_, ?_⟩
  · rw [← h.inumber]
    simp [State.setOffset, Function.update_of_ne hne]
  · rw [← h.offset]
    simp [State.setOffset, Function.update_of_ne hne]

/-- Another handle than the one that is written through. -/
theorem State.HandleOn.writeAt {fh : Int} {o k' b : Nat} {bytes : List UInt8}
    (h : s.HandleOn fh k' o)
    (hne : fh.toNat ≠ fd) : (s.writeAt fd k b bytes).HandleOn fh k' o := by
  refine ⟨h.nonneg, h.opened, ?_, ?_⟩
  · rw [← h.inumber]
    simp [State.writeAt, Function.update_of_ne hne]
  · rw [← h.offset]
    simp [State.writeAt, Function.update_of_ne hne]

/-- The files after a write of `bytes` at the end of the file of inode `k`, into block
`b` and with the block map `marks`. -/
theorem file_writeAt (h : FilesWf s) {fhandle : Int} {bytes : List UInt8} {b : Nat}
    {marks : Nat → AllocationState} (hh : s.HandleOn fhandle k (s.inodeTable k).iSize)
    (hl : s.lookup n = some k) (hfit : (s.inodeTable k).iSize + bytes.length ≤ s.fsParams.blockSize)
    (hwf : FilesWf { s with freeBlocks := marks })
    (hroom : State.Room { s with freeBlocks := marks } k b)
    (hown : 0 < (s.inodeTable k).iSize → (s.inodeTable k).iDataBlock = b) (n' : CStr) :
    (State.writeAt { s with freeBlocks := marks } fhandle.toNat k b bytes).file n' =
      if n' = n then some (s.content k ++ bytes) else s.file n' := by
  have ho := hh.offset
  have hfit' : (s.openFileTable fhandle.toNat).ofOffset + bytes.length ≤ s.fsParams.blockSize := by
    rw [ho]
    exact hfit
  have hdir : SameDir s (State.writeAt { s with freeBlocks := marks } fhandle.toNat k b bytes) :=
    sameDir_writeAt (s := { s with freeBlocks := marks }) hroom.pos
  have hself :
      State.content (State.writeAt { s with freeBlocks := marks } fhandle.toNat k b bytes) k
      = _ := content_writeAt_self (Nat.le_of_eq ho) hown
  have happend : overlay (State.content { s with freeBlocks := marks } k)
      (s.openFileTable fhandle.toNat).ofOffset bytes = s.content k ++ bytes := by
    have hc : (s.openFileTable fhandle.toNat).ofOffset = (s.content k).length := by
      rw [ho, length_content]
    rw [hc]
    exact overlay_length _ _
  rw [State.file, hdir.lookup]
  split
  · next hn =>
    subst hn
    rw [hl, Option.map_some, hself]
    exact congrArg some happend
  · next hn =>
    refine Option.map_congr fun k' hk' => ?_
    have hlive' := h.linked.live n' k' hk'
    refine content_writeAt_of_ne hwf hroom hfit' ⟨hlive'.pos, hlive'.lt, hlive'.taken⟩ ?_
    rintro rfl
    exact hn (h.linked.inj n' n k' hk' hl)

/-- What a write of `bytes` at the end of the file of inode `k` does, into block
`b` and with the block map `marks`. -/
theorem rewritten_writeAt (h : WellFormed s) {fhandle : Int} {bytes : List UInt8} {b : Nat}
    {marks : Nat → AllocationState} (hh : s.HandleOn fhandle k (s.inodeTable k).iSize)
    (hl : s.lookup n = some k) (hfit : (s.inodeTable k).iSize + bytes.length ≤ s.fsParams.blockSize)
    (hwf : WellFormed { s with freeBlocks := marks })
    (hroom : State.Room { s with freeBlocks := marks } k b)
    (hown : 0 < (s.inodeTable k).iSize → (s.inodeTable k).iDataBlock = b) :
    Rewritten s (State.writeAt { s with freeBlocks := marks } fhandle.toNat k b bytes) fhandle n
      (s.content k ++ bytes) := by
  have hlive := h.linked.live n k hl
  have hsize := size_le_block h.toFilesWf hlive
  have ho := hh.offset
  have hfit' : (s.openFileTable fhandle.toNat).ofOffset + bytes.length ≤ s.fsParams.blockSize := by
    rw [ho]
    exact hfit
  have hdir : SameDir s (State.writeAt { s with freeBlocks := marks } fhandle.toNat k b bytes) :=
    sameDir_writeAt (s := { s with freeBlocks := marks }) hroom.pos
  refine ⟨hwf.writeAt ⟨hlive.pos, hlive.lt, hlive.taken⟩ hroom hfit' hsize, rfl, hdir.lookup,
    file_writeAt h.toFilesWf hh hl hfit hwf.toFilesWf hroom hown, fun fh k' o hne hfh => ?_⟩
  have hfh' : State.HandleOn { s with freeBlocks := marks } fh k' o :=
    ⟨hfh.nonneg, hfh.opened, hfh.inumber, hfh.offset⟩
  exact hfh'.writeAt (toNat_ne hne hfh.nonneg hh.nonneg)

/-- A write at the end of a file appends the bytes that fit, unless the file is
empty and no block is free for it. -/
theorem tfsWrite_append (h : WellFormed s) {fhandle : Int} {buffer c : List UInt8} {toWrite : Nat}
    (hf : s.file n = some c) (hcur : s.Cursor fhandle n c.length)
    (hlen : toWrite ≤ buffer.length) (hword : toWrite < 9223372036854775808) {m : Nat}
    (hm : m = min toWrite (s.fsParams.blockSize - c.length)) :
    (tfsWrite s fhandle buffer toWrite = .ok (s, -1) ∧ 0 < m ∧ c = [] ∧ s.freeBlock = none) ∨
      ∃ t, tfsWrite s fhandle buffer toWrite = .ok (t, (m : Int)) ∧
        Rewritten s t fhandle n (c ++ buffer.take m) ∧ ¬ (0 < m ∧ c = [] ∧ s.freeBlock = none) := by
  obtain ⟨k, hl, hh⟩ := hcur
  have hcont : s.content k = c := by
    rw [file_of_lookup hl, Option.some.injEq] at hf
    exact hf
  subst hcont
  rw [length_content] at hh hm
  have hlive := h.linked.live n k hl
  have hsized := h.root.toSized
  have hsize := size_le_block h.toFilesWf hlive
  have hhandle := hh.handle
  have hi := hh.inumber
  have ho := hh.offset
  have hbuf : (buffer.take m).length = m := by
    rw [List.length_take]
    omega
  have hcut : s.toWrite fhandle.toNat toWrite = m := toWrite_of_le hsized (by omega) hword (by
    rw [ho]
    exact hm)
  -- Nothing fits, the file gets its first block, or it has one already.
  rcases Nat.eq_zero_or_pos m with hzero | hpos
  · refine Or.inr ⟨s, ?_, ⟨h, rfl, fun _ => rfl, fun n' => ?_, fun _ _ _ _ hfh => hfh⟩,
      fun hc => absurd hc.1 (by omega)⟩
    · rw [tfsWrite_nothing hsized hhandle hi hlive.lt hcut hzero, hzero]
      rfl
    · split
      · next hn =>
        subst hn
        rw [hzero, List.take_zero, List.append_nil, file_of_lookup hl]
      · rfl
  rcases Nat.eq_zero_or_pos (s.inodeTable k).iSize with hs | hs
  · have hnil : s.content k = [] := List.eq_nil_of_length_eq_zero (by rw [length_content, hs])
    cases hb : s.freeBlock with
    | none =>
      exact Or.inl ⟨tfsWrite_full hsized hhandle hi hlive.lt hcut hpos hs hb, hpos,
        hnil, rfl⟩
    | some b =>
      obtain ⟨hblt, hfree, -⟩ := firstIndex_eq_some.mp hb
      rw [beq_iff_eq] at hfree
      refine Or.inr ⟨_, tfsWrite_alloc hsized hhandle hi hlive.lt hcut (by omega) (by omega) hpos hs
        hb, rewritten_writeAt h hh hl (by omega) (h.takeBlock hfree) (h.room_fresh hfree hblt k)
          (fun hc => by omega), ?_⟩
      rintro ⟨-, -, hc⟩
      cases hc
  · obtain ⟨b, hb, hroom⟩ := h.room_own hlive hs
    have hdone : Rewritten s (s.writeAt fhandle.toNat k b (buffer.take m)) fhandle n
        (s.content k ++ buffer.take m) :=
      rewritten_writeAt h hh hl (by omega) h hroom fun _ => hb
    refine Or.inr ⟨_, tfsWrite_own hsized hhandle hi hlive.lt hcut (by omega) (by omega) hpos hs hb
      hroom.lt, hdone, ?_⟩
    rintro ⟨-, hc, -⟩
    have := congrArg List.length hc
    rw [length_content] at this
    exact absurd this (Nat.ne_of_gt hs)

/-- A read that starts in the file or at its end takes the next bytes of it. -/
theorem tfsRead_within (h : FilesWf s) {fhandle : Int} {len m : Nat}
    (hh : s.handle fhandle = some fd)
    (hi : (s.openFileTable fd).ofInumber = k) (hk : s.Live k)
    (hoff : (s.openFileTable fd).ofOffset ≤ (s.inodeTable k).iSize)
    (hm : m = min len ((s.inodeTable k).iSize - (s.openFileTable fd).ofOffset)) :
    tfsRead s fhandle len = .ok (s.setOffset fd ((s.openFileTable fd).ofOffset + m), (m : Int),
      ((s.content k).drop (s.openFileTable fd).ofOffset).take m) := by
  have hsize := size_le_block h hk
  have hint := h.root.block_int
  have hcut : (if subSize _ _ > len then len else _) = m :=
    (toRead_eq hoff (by omega)).trans hm.symm
  rcases Nat.eq_zero_or_pos m with hzero | hpos
  · have hsame : s.setOffset fd (s.openFileTable fd).ofOffset = s := by
      simp only [State.setOffset, Function.update_eq_self]
    rw [tfsRead_nothing h.root.toSized hh hi hk.lt hcut.symm hzero, hzero, Nat.add_zero, hsame]
    rfl
  · obtain ⟨b, hb, hroom⟩ := h.room_own hk (by omega)
    rw [tfsRead_some h.root.toSized hh hi hk.lt hcut.symm hpos hb hroom.lt (by omega)]
    rw [State.content, hb, Int.toNat_natCast, drop_read (by omega), take_read (by omega)]

theorem tfsRead_rest (h : WellFormed s) {fhandle : Int} {offset len : Nat}
    (hh : s.HandleOn fhandle k offset) (hl : s.lookup n = some k)
    (hoff : offset ≤ (s.inodeTable k).iSize) :
    ∃ t, tfsRead s fhandle len
        = .ok (t, ((((s.content k).drop offset).take len).length : Int),
            ((s.content k).drop offset).take len) ∧
      WellFormed t ∧ SameFiles s t ∧
      t.HandleOn fhandle k (offset + (((s.content k).drop offset).take len).length) ∧
      ∀ fh k' o, fh ≠ fhandle → s.HandleOn fh k' o → t.HandleOn fh k' o := by
  have hlive := h.linked.live n k hl
  have hsize := size_le_block h.toFilesWf hlive
  have ho := hh.offset
  have hlength : (((s.content k).drop offset).take len).length
      = min len ((s.inodeTable k).iSize - offset) := by
    rw [List.length_take, List.length_drop, length_content]
  rw [hlength]
  generalize hm : min len ((s.inodeTable k).iSize - offset) = m
  have hread : tfsRead s fhandle len = _ := tfsRead_within (m := m) h.toFilesWf
    hh.handle hh.inumber hlive
    (by rw [ho]; exact hoff) (by rw [ho]; exact hm.symm)
  rw [ho] at hread
  have htake : ((s.content k).drop offset).take len = ((s.content k).drop offset).take m := by
    rw [List.take_eq_take_iff, List.length_drop, length_content]
    omega
  refine ⟨s.setOffset fhandle.toNat (offset + m), by rw [htake]; exact hread,
    h.setOffset (show offset + m ≤ s.fsParams.blockSize by omega), sameFiles_setOffset s _ _,
    ⟨hh.nonneg, hh.opened, ?_, ?_⟩, fun fh k' o hne hfh => ?_⟩
  · rw [← hh.inumber]
    simp [State.setOffset]
  · simp [State.setOffset]
  · exact hfh.setOffset (toNat_ne hne hfh.nonneg hh.nonneg) _

end MBroker.Fs
