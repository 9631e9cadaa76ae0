import MBroker.Fs.AnyUse
import MBroker.Fs.Files

/-!
# Files and handles under any call

What each call does to the files by name and to the handles that are open, in every
state that calls lead to: handles may be left over from files that are gone.

Results:
1. `Opened.file`, `Opened.cursor`: opening without `TFS_O_TRUNC`.
2. `Unlinked.file`, `Unlinked.cursor`: a file goes, the handles of the others stay.
3. `Reread.sameFiles`, `Reread.cursor`: reading moves one handle.
4. `Overwritten.appends`, `appended_of_write`: writing through a handle at the end of its file.
-/

namespace MBroker.Fs

open FirstFit

variable {s t : State} {i k fd : Nat} {n : CStr} {mode o : Nat} {path : Option CStr} {fh ret : Int}

/-! ## Opening -/

theorem openState_of_no_trunc (hno : hasFlag mode tfsOTrunc = false) : s.openState mode k = s := by
  rw [State.openState, hno]
  rfl

/-- The inode of no file. -/
theorem file_setInode (h : FilesWf s) (hfree : s.freeinodeTs k = .free) (inode : Inode) :
    (s.setInode k inode).file n = s.file n := by
  have hlook : (s.setInode k inode).lookup n = s.lookup n := rfl
  rw [State.file, hlook, State.file]
  refine Option.map_congr fun k' hk' => ?_
  have hne : k' ≠ k := by
    rintro rfl
    exact not_live_of_free hfree (h.linked.live n k' hk')
  have hinode : (s.setInode k inode).inodeTable k' = s.inodeTable k' := Function.update_of_ne hne ..
  rw [State.content, State.content, hinode]
  rfl

/-- The files are as they were, but that there may be a new one, which is empty. -/
theorem Opened.file (h : FilesWf s) (hno : hasFlag mode tfsOTrunc = false)
    (ho : Opened s path mode (t, ret)) (n : CStr) :
    t.file n = s.file n ∨ s.file n = none ∧ t.file n = some [] := by
  generalize hres : (t, ret) = res at ho
  cases ho with
  | refused =>
    cases hres
    exact Or.inl rfl
  | noEntry hk =>
    cases hres
    exact Or.inl (file_setInode h (freeInode_some h hk).2.2 _)
  | existing hp hv hl =>
    rw [openState_of_no_trunc hno] at hres
    rw [show t = (s.openHandle _ _).1 from congrArg Prod.fst hres]
    exact Or.inl ((sameFiles_openHandle s _ _).file n)
  | @created p k i hp hv hl hk hslot hlen =>
    rw [show t = ((s.createFile k i p.tail).openHandle k 0).1 from congrArg Prod.fst hres,
      (sameFiles_openHandle _ _ _).file,
      file_createFile h hk hslot (validPathname_pos (hp ▸ hv)) hlen hl]
    by_cases hn : n = p.tail
    · subst hn
      exact Or.inr ⟨file_of_absent hl, if_pos rfl⟩
    · exact Or.inl (if_neg hn)

/-- The handles that are open stay where they are, and none of them is the new one. -/
theorem Opened.cursor (h : FilesWf s) (hno : hasFlag mode tfsOTrunc = false)
    (ho : Opened s path mode (t, ret)) (hc : s.Cursor fh n o) : fh ≠ ret ∧ t.Cursor fh n o := by
  generalize hres : (t, ret) = res at ho
  cases ho with
  | refused =>
    cases hres
    refine ⟨?_, hc⟩
    rintro rfl
    exact absurd hc.nonneg (by decide)
  | noEntry hk =>
    cases hres
    obtain ⟨k', hk', hfh⟩ := hc
    refine ⟨?_, k', hk', hfh.nonneg, hfh.opened, hfh.inumber, hfh.offset⟩
    rintro rfl
    exact absurd hfh.nonneg (by decide)
  | existing hp hv hl =>
    rw [openState_of_no_trunc hno] at hres
    obtain rfl : t = _ := congrArg Prod.fst hres
    obtain rfl : ret = _ := congrArg Prod.snd hres
    exact openHandle_cursor _ _ hc
  | @created p k i hp hv hl hk hslot hlen =>
    have hnew : (s.createFile k i p.tail).Cursor fh n o := by
      obtain ⟨k', hk', hfh⟩ := hc
      refine ⟨k', ?_, hfh.nonneg, hfh.opened, hfh.inumber, hfh.offset⟩
      have hne : n ≠ p.tail := by
        rintro rfl
        rw [hl] at hk'
        cases hk'
      rw [lookup_createFile h (freeInode_some h hk).2.1 hslot (validPathname_pos (hp ▸ hv)) hlen hl,
        if_neg hne]
      exact hk'
    obtain rfl : t = _ := congrArg Prod.fst hres
    obtain rfl : ret = _ := congrArg Prod.snd hres
    exact openHandle_cursor _ _ hnew

/-- The handles that are open stay open, and the new one was not. -/
theorem Opened.isOpen (hno : hasFlag mode tfsOTrunc = false) (ho : Opened s path mode (t, ret))
    (hopen : s.IsOpen fd) : t.IsOpen fd ∧ ret ≠ fd := by
  have hhandle : ∀ {u : State} {k : Int} {offset : Nat}, (t, ret) = u.openHandle k offset →
      u.IsOpen fd → t.IsOpen fd ∧ ret ≠ fd := by
    intro u k offset heq hu
    rw [State.openHandle] at heq
    split at heq
    · next j hj =>
      cases heq
      obtain ⟨-, hmark, -⟩ := firstIndex_eq_some.mp hj
      rw [beq_iff_eq] at hmark
      have hne : fd ≠ j := by
        rintro rfl
        rw [hu.2] at hmark
        cases hmark
      exact ⟨⟨hu.1, (Function.update_of_ne hne ..).trans hu.2⟩, by omega⟩
    · cases heq
      exact ⟨hu, by omega⟩
  generalize hres : (t, ret) = res at ho
  cases ho with
  | refused =>
    cases hres
    exact ⟨hopen, by omega⟩
  | noEntry hk =>
    cases hres
    exact ⟨hopen, by omega⟩
  | existing hp hv hl =>
    rw [openState_of_no_trunc hno] at hres
    exact hhandle hres hopen
  | @created p k i => exact hhandle (u := s.createFile k i p.tail) hres hopen

/-- A handle that is not -1 is open. -/
theorem Opened.handle_open (ho : Opened s path mode (t, ret)) (hret : 0 ≤ ret) :
    t.IsOpen ret.toNat := by
  have hhandle : ∀ {u : State} {k : Int} {offset : Nat}, (t, ret) = u.openHandle k offset →
      t.IsOpen ret.toNat := by
    intro u k offset heq
    rw [State.openHandle] at heq
    split at heq
    · next j hj =>
      cases heq
      exact ⟨(firstIndex_eq_some.mp hj).1, Function.update_self ..⟩
    · cases heq
      exact absurd hret (by decide)
  generalize hres : (t, ret) = res at ho
  cases ho with
  | refused =>
    cases hres
    exact absurd hret (by decide)
  | noEntry hk =>
    cases hres
    exact absurd hret (by decide)
  | existing => exact hhandle hres
  | created => exact hhandle hres

/-- What `tfs_open` with `TFS_O_APPEND` gives a handle on. -/
theorem Opened.append (ho : Opened s path tfsOAppend (t, ret)) (hret : 0 ≤ ret)
    (hfile : ∀ p, path = some p → validPathname path = true → s.lookup p.tail ≠ none) :
    ∃ p c, path = some p ∧ validPathname path = true ∧ t.file p.tail = some c ∧
      t.Cursor ret p.tail c.length := by
  have hopen := ho.handle_open hret
  generalize hres : (t, ret) = res at ho
  cases ho with
  | refused =>
    cases hres
    exact absurd hret (by decide)
  | noEntry hk =>
    cases hres
    exact absurd hret (by decide)
  | @existing p k hp hv hl =>
    have hstate : s.openState tfsOAppend k = s := openState_of_no_trunc (by decide)
    have hoffset : s.openOffset tfsOAppend k = (s.content k).length := by
      rw [State.openOffset, hstate, if_pos (by decide), length_content]
    rw [hstate, hoffset] at hres
    have hsame := sameFiles_openHandle s k (s.content k).length
    rw [← hres] at hsame
    refine ⟨p, s.content k, hp, hv, (hsame.file _).trans (file_of_lookup hl), k,
      (hsame.lookup _).trans hl, hret, hopen, ?_, ?_⟩
    all_goals
      rw [State.openHandle] at hres
      split at hres
      · cases hres
        simp
      · cases hres
        exact absurd hret (by decide)
  | created hp hv hl => exact absurd hl (hfile _ hp hv)

/-! ## Unlinking -/

theorem Unlinked.file (h : FilesWf s) (hu : Unlinked s path (t, ret)) (n : CStr) :
    t.file n = s.file n ∨ ∃ p, path = some p ∧ n = p.tail ∧ t.file n = none := by
  generalize hres : (t, ret) = res at hu
  cases hu with
  | refused =>
    cases hres
    exact Or.inl rfl
  | @removed p k i hp hl hi he =>
    cases hres
    rw [file_removeFile h hi he]
    by_cases hn : n = p.tail
    · exact Or.inr ⟨p, hp, hn, if_pos hn⟩
    · exact Or.inl (if_neg hn)

theorem Unlinked.cursor (h : FilesWf s) (hu : Unlinked s path (t, ret)) (hc : s.Cursor fh n o)
    (hn : ∀ p, path = some p → n ≠ p.tail) : t.Cursor fh n o := by
  generalize hres : (t, ret) = res at hu
  cases hu with
  | refused =>
    cases hres
    exact hc
  | @removed p k i hp hl hi he =>
    cases hres
    obtain ⟨k', hk', hfh⟩ := hc
    refine ⟨k', ?_, hfh.nonneg, ?_, ?_, ?_⟩
    · rw [lookup_removeFile h hi he, if_neg (hn p hp)]
      exact hk'
    · exact hfh.opened
    · exact hfh.inumber
    · exact hfh.offset

theorem Unlinked.isOpen (hu : Unlinked s path (t, ret)) (hopen : s.IsOpen fd) : t.IsOpen fd := by
  refine ⟨?_, ?_⟩
  · rw [show t.fsParams = s.fsParams from hu.params]
    exact hopen.1
  · rw [show t.freeOpenFileEntries = s.freeOpenFileEntries from hu.entries]
    exact hopen.2

/-! ## Reading -/

theorem Reread.sameFiles {bytes : List UInt8} (hr : Reread s fd (t, ret, bytes)) :
    SameFiles s t := by
  generalize hres : (t, ret, bytes) = res at hr
  cases hr with
  | nothing =>
    cases hres
    exact ⟨rfl, fun _ => rfl, rfl, rfl, rfl⟩
  | some =>
    cases hres
    exact sameFiles_setOffset s _ _

theorem Reread.cursor {bytes : List UInt8} (hr : Reread s fd (t, ret, bytes)) (hc : s.Cursor fh n o)
    (hne : fh ≠ fd) : t.Cursor fh n o := by
  have hsame := hr.sameFiles
  generalize hres : (t, ret, bytes) = res at hr
  obtain ⟨k, hl, hfh⟩ := hc
  refine ⟨k, (hsame.lookup n).trans hl, ?_⟩
  cases hr with
  | nothing =>
    cases hres
    exact hfh
  | some =>
    cases hres
    refine hfh.setOffset ?_ _
    have := hfh.nonneg
    omega

theorem Reread.isOpen {bytes : List UInt8} {fd' : Nat} (hr : Reread s fd (t, ret, bytes))
    (hopen : s.IsOpen fd') : t.IsOpen fd' := by
  generalize hres : (t, ret, bytes) = res at hr
  cases hr with
  | nothing =>
    cases hres
    exact hopen
  | some =>
    cases hres
    exact hopen

/-! ## Writing -/

/-- A write through a handle at the end of a file appends to it, and leaves the other
handles where they are. -/
theorem Overwritten.appends (h : Robust s) {buffer c : List UInt8} (hf : s.file n = some c)
    (hc : s.Cursor fh n c.length) (hk : s.Refers fh.toNat k)
    (hw : Overwritten s fh.toNat k buffer (t, ret)) :
    (∀ n', t.file n' = if n' = n then some (c ++ buffer.take ret.toNat) else s.file n') ∧
      ∀ fh' n' o, fh' ≠ fh → s.Cursor fh' n' o → t.Cursor fh' n' o := by
  obtain ⟨k', hl, hh⟩ := hc
  obtain rfl : k = k' := Int.ofNat_inj.mp (hk.inumber.symm.trans hh.inumber)
  obtain rfl : c = s.content k := Option.some.inj (hf.symm.trans (file_of_lookup hl))
  have hh' : s.HandleOn fh k (s.inodeTable k).iSize := by
    rw [length_content] at hh
    exact hh
  have hoff := hh'.offset
  have hlive := h.linked.live n k hl
  have hsame : ∀ n', s.file n' = if n' = n then some (s.content k ++ buffer.take 0)
    else s.file n' := by
    intro n'
    split
    · next hn => rw [hn, hf, List.take_zero, List.append_nil]
    · rfl
  -- Block 0 is that of the directory; a write to another one moves no name.
  have hothers : ∀ {marks : Nat → AllocationState} {b : Nat} {bytes : List UInt8},
      0 < b → ∀ fh' n' o,
      fh' ≠ fh → s.Cursor fh' n' o →
        (State.writeAt { s with freeBlocks := marks } fh.toNat k b bytes).Cursor fh' n' o := by
    rintro marks b bytes hb fh' n' o hne ⟨k', hl', hfh⟩
    have hfh' : State.HandleOn { s with freeBlocks := marks } fh' k' o :=
      ⟨hfh.nonneg, hfh.opened, hfh.inumber, hfh.offset⟩
    have hdir : SameDir s (State.writeAt { s with freeBlocks := marks } fh.toNat k b bytes) :=
      sameDir_writeAt (s := { s with freeBlocks := marks }) hb
    exact ⟨k', (hdir.lookup n').trans hl', hfh'.writeAt (toNat_ne hne hfh.nonneg hh.nonneg)⟩
  -- Nothing to write or no block: nothing is taken. Else the bytes go behind the old ones.
  generalize hres : (t, ret) = res at hw
  cases hw with
  | nothing =>
    cases hres
    exact ⟨hsame, fun _ _ _ _ hc => hc⟩
  | full =>
    cases hres
    exact ⟨hsame, fun _ _ _ _ hc => hc⟩
  | @alloc b m hpos hlen hfit hs hb =>
    cases hres
    obtain ⟨hblt, hfree, -⟩ := firstIndex_eq_some.mp hb
    rw [beq_iff_eq] at hfree
    have hroom := h.room_fresh hfree hblt k
    refine ⟨fun n' => ?_, hothers hroom.pos⟩
    exact file_writeAt h.toFilesWf hh' hl (by rw [List.length_take]; omega)
      (h.takeBlock hfree).toFilesWf
      hroom (fun hc => by omega) n'
  | @own b m hlen hfit hs hb h0 hblt =>
    cases hres
    obtain ⟨b', hb', hroom⟩ := h.room_own hlive hs
    obtain rfl : b' = b := Int.ofNat_inj.mp (hb'.symm.trans hb)
    refine ⟨fun n' => ?_, hothers h0⟩
    exact file_writeAt h.toFilesWf hh' hl (by rw [List.length_take]; omega)
      h.toFilesWf hroom (fun _ => hb) n'

/-- A write at the end of a file appends what the block has room for, or nothing. -/
theorem appended_of_write (h : Robust s) {buffer c : List UInt8}
    {toWrite : Nat} (hf : s.file n = some c)
    (hc : s.Cursor fh n c.length) (hlen : toWrite ≤ buffer.length)
    (hword : toWrite < 9223372036854775808)
    (hw : tfsWrite s fh buffer toWrite = .ok (t, ret)) :
    c.length ≤ s.fsParams.blockSize ∧
      (ret = -1 ∨ ret = (min toWrite (s.fsParams.blockSize - c.length) : Nat)) ∧
      ∀ n', t.file n' = if n' = n then some (c ++ buffer.take ret.toNat) else s.file n' := by
  have hcursor := hc
  obtain ⟨k, hl, hh⟩ := hc
  obtain rfl : c = s.content k := Option.some.inj (hf.symm.trans (file_of_lookup hl))
  obtain ⟨k', hk⟩ := h.refers hh.handle
  obtain rfl : k = k' := Int.ofNat_inj.mp (hh.inumber.symm.trans hk.inumber)
  have hsize : (s.content k).length ≤ s.fsParams.blockSize := by
    rw [length_content]
    exact size_le_block h.toFilesWf (h.linked.live n k hl)
  have hoffset := hh.offset
  have hcut : s.toWrite fh.toNat toWrite
    = min toWrite (s.fsParams.blockSize - (s.content k).length) :=
    toWrite_of_le h.root.toSized (by omega) hword (by rw [hoffset])
  have hlen : min toWrite (s.fsParams.blockSize - (s.content k).length) ≤ buffer.length := by omega
  obtain ⟨r, hr, hover, hret⟩ := tfsWrite_fitting h hh.handle hk hcut hlen (by omega)
  obtain rfl : r = (t, ret) := Except.ok.inj (hr.symm.trans hw)
  exact ⟨hsize, hret, (hover.appends h hf hcursor hk).1⟩

theorem Overwritten.isOpen {buffer : List UInt8} {fd' : Nat}
    (hw : Overwritten s fd k buffer (t, ret))
    (hopen : s.IsOpen fd') : t.IsOpen fd' := by
  generalize hres : (t, ret) = res at hw
  cases hw <;> cases hres <;> exact hopen

end MBroker.Fs
