import MBroker.Fs.Cursors

/-!
# What a call that fails leaves behind

`tfs_unlink` frees the inode before it clears the entry, and `tfs_open` may create or
empty a file before it asks for a handle. The first is all or nothing, because both of
its searches of the directory stop at the same entry. The second leaves what it documents,
a new empty file, and in one case what it does not: a file that it has emptied.

Results:
1. `unlink_all_or_nothing`: in every state, for every target.
2. `failed_open_iff`: the failed opens that change nothing more than documented are those
   that do not empty a file while no handle is free; `emptied_in_vain` is one that does.
-/

namespace MBroker.Fs

open FirstFit ByteMemory Transition

variable {s t : State} {i j k : Nat} {n : CStr} {path : Option CStr} {mode : Nat}

/-! ## `tfs_unlink` -/

/-- Entry `i` is in use, and its name after a slash is the target. -/
def State.Targets (s : State) (target : Option CStr) (i : Nat) : Prop :=
  s.Used i ∧ ∃ p, target = some p ∧ p.bytes = 47 :: (s.dName i).bytes

/-- Entry `i` and its file are gone, and nothing else has changed. -/
structure Removed (s t : State) (i : Nat) : Prop where
  entry : ¬ t.Used i
  others : ∀ j, j ≠ i → t.nameField j = s.nameField j ∧ t.dInumber 0 j = s.dInumber 0 j
  inodes : t.freeinodeTs = Function.update s.freeinodeTs (s.dInumber 0 i).toNat .free
  blocks : t.freeBlocks =
    if 0 < (s.inodeTable (s.dInumber 0 i).toNat).iSize then
      Function.update s.freeBlocks (s.inodeTable (s.dInumber 0 i).toNat).iDataBlock.toNat .free
    else s.freeBlocks
  files : ∀ n, t.file n = if n = s.dName i then none else s.file n
  inodeTable : t.inodeTable = s.inodeTable
  table : t.openFileTable = s.openFileTable
  handles : t.freeOpenFileEntries = s.freeOpenFileEntries

theorem entry_dName (he : s.entry i = some (n, k)) : s.dName i = n := by
  unfold State.entry at he
  split at he
  · cases he
  · exact congrArg Prod.fst (Option.some.inj he)

theorem removed_of (h : FilesWf s) (hi : i < s.maxDirEntries) (he : s.entry i = some (n, k)) :
    Removed s (s.removeFile k i) i := by
  obtain ⟨-, -, -, hnum⟩ := h.dir.named i hi n k he
  have hlen : (List.replicate maxFileName (0 : UInt8)).length = 40 := by simp [maxFileName]
  refine ⟨fun hu => hu.2 (dInumber_setEntry_self hlen (by omega) (by omega)), fun j hj =>
    ⟨nameField_setEntry_of_ne hlen hj, dInumber_setEntry_of_ne hlen hj⟩, ?_, ?_, fun n' => ?_,
    rfl, rfl, rfl⟩
  · rw [hnum]
    rfl
  · rw [hnum]
    rfl
  · rw [entry_dName he]
    exact file_removeFile h hi he n'

/-- The two searches of the directory, that of `find_in_dir` and, once the inode is deleted,
that of `clear_dir_entry`, stop at entry `i`. -/
structure SameSlot (s : State) (n : CStr) (i : Nat) : Prop where
  found : s.scanDir 0 (fun j => s.dInumber 0 j != -1 && s.nameStrncmp 0 j n) = .ok (some i)
  cleared : ∃ v, inodeDelete s (s.dInumber 0 i) = .ok v ∧
    v.scanDir 0 (v.nameStrcmp 0 · n) = .ok (some i)

theorem sameSlot_of (h : FilesWf s) (hi : i < s.maxDirEntries) (he : s.entry i = some (n, k)) :
    SameSlot s n i := by
  obtain ⟨-, -, -, hnum⟩ := h.dir.named i hi n k he
  have hl : s.lookup n = some k := (lookup_eq_some h.dir).mpr ⟨i, hi, he⟩
  have hlive := h.linked.live n k hl
  have hdel := inodeDelete_of h.root.toSized hlive.lt hlive.taken fun hs => by
    obtain ⟨b, hb, -, hblt, -⟩ := h.blocks.valid k hlive hs
    exact ⟨b, hb, hblt⟩
  have hsame : SameDir s { s.releaseBlock k with
      freeinodeTs := Function.update s.freeinodeTs k .free } := ⟨rfl, fun _ _ => rfl⟩
  rw [← hnum] at hdel
  refine ⟨?_, _, hdel, ?_⟩
  · rw [scanDir_eq h.root, firstIndex_find h.dir, (slotOf_eq_some h.dir).mpr ⟨hi, k, he⟩]
  · refine (scanDir_eq (h.root.of_same rfl rfl rfl) _).trans (congrArg _ ?_)
    exact firstIndex_clear (h.dir.of_same hsame) hi he

/-- The entry that a path names is the one that is looked up. -/
theorem targets_of_lookup (h : FilesWf s) {p : CStr} (hv : validPathname (some p) = true)
    (hi : i < s.maxDirEntries) (he : s.entry i = some (p.tail, k)) : s.Targets (some p) i := by
  obtain ⟨-, -, -, hnum⟩ := h.dir.named i hi _ _ he
  refine ⟨⟨hi, by omega⟩, p, rfl, ?_⟩
  rw [entry_dName he]
  simp only [validPathname, Bool.and_eq_true, beq_iff_eq] at hv
  exact List.eq_cons_of_mem_head? hv.2

theorem Robust.targets (h : Robust s) {target : Option CStr} (ht : s.Targets target i) :
    ∃ p k, target = some p ∧ validPathname target = true ∧ s.lookup p.tail = some k := by
  obtain ⟨hu, p, rfl, hp⟩ := ht
  obtain ⟨k, -, hl⟩ := h.used_file hu
  have hname := (h.directory.named i hu).2.1
  have htail : p.tail = s.dName i := CStr.ext (congrArg List.tail hp)
  refine ⟨p, k, rfl, ?_, by rw [htail]; exact hl⟩
  simp only [validPathname, Bool.and_eq_true, decide_eq_true_eq, beq_iff_eq, CStr.length, hp,
    List.length_cons, List.head?_cons, and_true]
  unfold CStr.length at hname
  omega

theorem Robust.unlink (h : Robust s) (target : Option CStr) :
    ((¬ ∃ i, s.Targets target i) ∧ tfsUnlink s target = .ok (s, -1)) ∨
      ∃ i t, s.Targets target i ∧ SameSlot s (s.dName i) i ∧ tfsUnlink s target = .ok (t, 0) ∧
        Removed s t i := by
  by_cases hv : validPathname target = true
  swap
  · refine Or.inl ⟨fun ⟨i, ht⟩ => ?_, tfsUnlink_invalid (by simpa using hv)⟩
    obtain ⟨-, -, -, hv', -⟩ := h.targets ht
    exact hv hv'
  cases target with
  | none => cases hv
  | some p =>
    cases hl : s.lookup p.tail with
    | none =>
      refine Or.inl ⟨fun ⟨i, ht⟩ => ?_, tfsUnlink_absent h.toFilesWf hv hl⟩
      obtain ⟨p', k, hp', -, hl'⟩ := h.targets ht
      obtain rfl := Option.some.inj hp'
      rw [hl] at hl'
      cases hl'
    | some k =>
      obtain ⟨i, hi, he⟩ := exists_slot h.toFilesWf hl
      refine Or.inr ⟨i, s.removeFile k i, targets_of_lookup h.toFilesWf hv hi he, ?_,
        tfsUnlink_of h.toFilesWf hv hl hi he, removed_of h.toFilesWf hi he⟩
      rw [entry_dName he]
      exact sameSlot_of h.toFilesWf hi he

/-- In every state that any run reaches, whatever bytes `malloc` left in the directory:
`tfs_unlink` fails and changes nothing if the target names no entry, and otherwise removes
that entry and its file. -/
theorem unlink_all_or_nothing {params : Option TfsParams} {m : Malloc}
    (hp : (params.getD tfsDefaultParams).FitsInt) (hinit : tfsInit s params m = .ok (t, 0))
    {u : State} (hrun : Reaches fsStep anyStep t u) (target : Option CStr) :
    ((¬ ∃ i, u.Targets target i) ∧ tfsUnlink u target = .ok (u, -1)) ∨
      ∃ i v, u.Targets target i ∧ SameSlot u (u.dName i) i ∧ tfsUnlink u target = .ok (v, 0) ∧
        Removed u v i :=
  (Robust.of_run hp hinit hrun).unlink target

/-- Memory that holds no zero: no entry that was never used has an end to its name. -/
def ones : Malloc := { Malloc.zeros with fsData := some fun _ => 1 }

/-- Two files are created, and the first is unlinked. -/
theorem unlink_all_or_nothing_ones :
    ∃ u i v, exec fsStep (State.static.initial smallParams ones)
        [.tfsOpen pathA tfsOCreat, .tfsOpen pathB tfsOCreat] = some u ∧
      u.Targets pathA i ∧ tfsUnlink u pathA = .ok (v, 0) ∧ Removed u v i := by
  have hrun : (exec fsStep (State.static.initial smallParams ones)
      [.tfsOpen pathA tfsOCreat, .tfsOpen pathB tfsOCreat]).any
      (fun u => decide (0 < u.maxDirEntries) && u.dInumber 0 0 == 1 &&
        (u.dName 0).bytes == [97]) = true := by
    decide +kernel
  obtain ⟨u, hu, hfacts⟩ := (Option.any_eq_true _ _).mp hrun
  simp only [Bool.and_eq_true, beq_iff_eq, decide_eq_true_eq] at hfacts
  obtain ⟨⟨hlt, hnum⟩, hname⟩ := hfacts
  have htarget : u.Targets pathA 0 := ⟨⟨hlt, by rw [hnum]; decide⟩, _, rfl, by rw [hname]⟩
  rcases unlink_all_or_nothing
    (show TfsParams.FitsInt ((some smallParams).getD _) from smallParams_inRange.usable.toFitsInt)
    (show tfsInit .static (some smallParams) ones = .ok (_, 0) from
      tfsInit_of rfl smallParams_inRange.usable rfl rfl)
    (Reaches.of_exec hu (execOk_anyStep _ _)) pathA with ⟨hnot, -⟩ | ⟨i, v, hi, -, hv⟩
  · exact absurd ⟨0, htarget⟩ hnot
  · exact ⟨u, i, v, hu, hi, hv⟩

/-! ## `tfs_open` -/

/-- The names, the content of every file, the free inodes and blocks and the open file
table are as before. -/
structure Untouched (s t : State) : Prop where
  names : ∀ n, t.lookup n = s.lookup n
  files : ∀ n, t.file n = s.file n
  inodes : t.freeinodeTs = s.freeinodeTs
  blocks : t.freeBlocks = s.freeBlocks
  table : t.openFileTable = s.openFileTable
  handles : t.freeOpenFileEntries = s.freeOpenFileEntries

/-- The same, but that there is a new file of name `n`, which is empty. -/
structure LeftEmpty (s t : State) (n : CStr) (k : Nat) : Prop where
  absent : s.lookup n = none
  names : ∀ n', t.lookup n' = if n' = n then some k else s.lookup n'
  files : ∀ n', t.file n' = if n' = n then some [] else s.file n'
  inodes : t.freeinodeTs = Function.update s.freeinodeTs k .taken
  blocks : t.freeBlocks = s.freeBlocks
  table : t.openFileTable = s.openFileTable
  handles : t.freeOpenFileEntries = s.freeOpenFileEntries

/-- If the open fails it changes nothing, or leaves a new empty file because no handle was
free. -/
def State.FailsCleanly (s : State) (path : Option CStr) (mode : Nat) : Prop :=
  ∀ t, tfsOpen s path mode = .ok (t, -1) → Untouched s t ∨
    hasFlag mode tfsOCreat = true ∧ s.freeHandle = none ∧
      ∃ p k, path = some p ∧ LeftEmpty s t p.tail k

/-- A file that is not empty is to be truncated, and no handle is free. -/
def State.EmptiesInVain (s : State) (path : Option CStr) (mode : Nat) : Prop :=
  hasFlag mode tfsOTrunc = true ∧ s.freeHandle = none ∧
    ∃ p c, path = some p ∧ validPathname path = true ∧ s.file p.tail = some c ∧ c ≠ []

theorem untouched_refl (s : State) : Untouched s s :=
  ⟨fun _ => rfl, fun _ => rfl, rfl, rfl, rfl, rfl⟩

/-- No handle was free. -/
theorem openHandle_failed {offset : Nat} (hr : s.openHandle k offset = (t, -1)) :
    t = s ∧ s.freeHandle = none := by
  unfold State.openHandle at hr
  split at hr
  · have := congrArg Prod.snd hr
    simp at this
  · next hnone => exact ⟨(congrArg Prod.fst hr).symm, hnone⟩

theorem openHandle_full {offset : Nat} (hfull : s.freeHandle = none) :
    s.openHandle k offset = (s, -1) := by
  rw [State.openHandle, hfull]

theorem leftEmpty_of (h : FilesWf s) (hk : s.freeInode = some k) (hslot : s.freeSlot = some i)
    (hpos : 0 < n.length) (hlen : n.length ≤ 39) (hnew : s.lookup n = none) :
    LeftEmpty s (s.createFile k i n) n k :=
  ⟨hnew, lookup_createFile h (freeInode_some h hk).2.1 hslot hpos hlen hnew,
    file_createFile h hk hslot hpos hlen hnew, rfl, rfl, rfl, rfl⟩

/-- Truncation changes an existing file only if it is not empty. -/
theorem openState_of_not_empties {p : CStr} (hv : validPathname (some p) = true)
    (hl : s.lookup p.tail = some k) (hfull : s.freeHandle = none)
    (hnot : ¬ s.EmptiesInVain (some p) mode) : s.openState mode k = s := by
  by_cases ht : hasFlag mode tfsOTrunc = true
  · rw [State.openState, ht, if_pos rfl]
    refine truncate_of_empty ?_
    by_contra hs
    refine hnot ⟨ht, hfull, p, _, rfl, hv, file_of_lookup hl, fun hnil => hs ?_⟩
    rw [← length_content, hnil, List.length_nil]
  · exact openState_of_no_trunc (by simpa using ht)

theorem freeHandle_openState : (s.openState mode k).freeHandle = s.freeHandle := by
  unfold State.openState
  split <;> rfl

theorem FilesWf.fails_cleanly (h : FilesWf s) (hnot : ¬ s.EmptiesInVain path mode) :
    s.FailsCleanly path mode := by
  intro t ht
  obtain ⟨r, hr, ho⟩ := tfsOpen_cases h path mode
  obtain rfl := Except.ok.inj (hr.symm.trans ht)
  generalize hres : (t, (-1 : Int)) = res at ho
  cases ho with
  | refused =>
    cases hres
    exact Or.inl (untouched_refl s)
  | noEntry hk =>
    cases hres
    exact Or.inl ⟨fun _ => rfl, fun n => file_setInode h (freeInode_some h hk).2.2 _, rfl, rfl,
      rfl, rfl⟩
  | existing hp hv hl =>
    subst hp
    obtain ⟨rfl, hfull⟩ := openHandle_failed hres.symm
    rw [openState_of_not_empties hv hl (freeHandle_openState ▸ hfull) hnot]
    exact Or.inl (untouched_refl s)
  | created hp hv hl hk hslot hlen =>
    subst hp
    by_cases hc : hasFlag mode tfsOCreat = true
    · obtain ⟨rfl, hfull⟩ := openHandle_failed hres.symm
      exact Or.inr ⟨hc, hfull, _, _, rfl, leftEmpty_of h hk hslot (validPathname_pos hv) hlen hl⟩
    · rw [tfsOpen_absent h hv hl (by simpa using hc)] at ht
      obtain rfl : s = t := congrArg Prod.fst (Except.ok.inj ht)
      exact Or.inl (untouched_refl s)

/-- A file that was emptied is neither as before nor new. -/
theorem FilesWf.empties (h : FilesWf s) (hin : s.EmptiesInVain path mode) :
    ¬ s.FailsCleanly path mode := by
  intro hclean
  obtain ⟨ht, hfull, p, c, rfl, hv, hf, hne⟩ := hin
  obtain ⟨k, hl, rfl⟩ := file_eq_some.mp hf
  have hopen : tfsOpen s (some p) mode = _ := tfsOpen_existing h hv hl
  rw [openHandle_full (freeHandle_openState.trans hfull), State.openState, ht, if_pos rfl] at hopen
  rcases hclean _ hopen with hsame | ⟨-, -, q, k', hq, hleft⟩
  · have hempty : (s.truncate k).file p.tail = some [] := by
      have hlook : (s.truncate k).lookup p.tail = some k := hl
      rw [file_of_lookup hlook, content_truncate_self]
    rw [hsame.files, hf] at hempty
    exact hne (Option.some.inj hempty)
  · obtain rfl := Option.some.inj hq
    rw [hleft.absent] at hl
    cases hl

/-- In every state that any run reaches, a failed open changes nothing beyond what is
documented, unless it empties a file while no handle is free. -/
theorem failed_open_iff {params : Option TfsParams} {m : Malloc}
    (hp : (params.getD tfsDefaultParams).FitsInt) (hinit : tfsInit s params m = .ok (t, 0))
    {u : State} (hrun : Reaches fsStep anyStep t u) (path : Option CStr) (mode : Nat) :
    u.FailsCleanly path mode ↔ ¬ u.EmptiesInVain path mode := by
  have h := (Robust.of_run hp hinit hrun).toFilesWf
  exact ⟨fun hclean hin => h.empties hin hclean, h.fails_cleanly⟩

/-- All four handles are in use, and a name that is new is to be truncated and created. -/
theorem failed_open_iff_new :
    ∃ u, exec fsStep (State.static.initial smallParams .zeros)
        [.tfsOpen pathA tfsOCreat, .tfsOpen pathA 0, .tfsOpen pathA 0, .tfsOpen pathA 0] = some u ∧
      u.FailsCleanly pathB 3 := by
  have hrun : (exec fsStep (State.static.initial smallParams .zeros)
      [.tfsOpen pathA tfsOCreat, .tfsOpen pathA 0, .tfsOpen pathA 0, .tfsOpen pathA 0]).any
      (fun u => u.lookup ⟨[98], by decide⟩ == none) = true := by
    decide +kernel
  obtain ⟨u, hu, hl⟩ := (Option.any_eq_true _ _).mp hrun
  rw [beq_iff_eq] at hl
  refine ⟨u, hu, (failed_open_iff
    (show TfsParams.FitsInt ((some smallParams).getD _) from smallParams_inRange.usable.toFitsInt)
    (show tfsInit .static (some smallParams) .zeros = .ok (_, 0) from
      tfsInit_of rfl smallParams_inRange.usable rfl rfl)
    (Reaches.of_exec hu (execOk_anyStep _ _)) pathB 3).mpr ?_⟩
  rintro ⟨-, -, p, c, hp, -, hf, -⟩
  obtain rfl := Option.some.inj hp
  exact nomatch (file_of_absent hl).symm.trans hf

/-- A file of three bytes, all four handles in use: an open that asks for truncation
returns -1, and the file is empty. -/
theorem emptied_in_vain :
    ¬ ∀ (s t u : State) (params : Option TfsParams) (m : Malloc) (path : Option CStr)
      (mode : Nat), (params.getD tfsDefaultParams).InRange → tfsInit s params m = .ok (t, 0) →
      Reaches fsStep anyStep t u → u.FailsCleanly path mode := by
  intro hall
  have hrun : (exec fsStep (State.static.initial smallParams .zeros)
      [.tfsOpen pathA tfsOCreat, .tfsWrite 0 [1, 2, 3], .tfsOpen pathA 0, .tfsOpen pathA 0,
        .tfsOpen pathA 0]).any
      (fun u => u.file ⟨[97], by decide⟩ == some [1, 2, 3] &&
        match tfsOpen u pathA tfsOTrunc with
        | .ok (v, ret) => ret == -1 && v.file ⟨[97], by decide⟩ == some []
        | .error _ => false) = true := by
    decide +kernel
  obtain ⟨u, hu, hfacts⟩ := (Option.any_eq_true _ _).mp hrun
  rw [Bool.and_eq_true, beq_iff_eq] at hfacts
  obtain ⟨hfile, hopen⟩ := hfacts
  split at hopen
  · next v ret hstep =>
    rw [Bool.and_eq_true, beq_iff_eq, beq_iff_eq] at hopen
    obtain ⟨rfl, hempty⟩ := hopen
    have hclean := hall .static _ u (some smallParams) .zeros pathA tfsOTrunc smallParams_inRange
      (tfsInit_of rfl smallParams_inRange.usable rfl rfl)
      (Reaches.of_exec hu (execOk_anyStep _ _)) v hstep
    rcases hclean with hsame | ⟨hcreat, -⟩
    · rw [hsame.files, hfile] at hempty
      cases hempty
    · cases hcreat
  · cases hopen

end MBroker.Fs
