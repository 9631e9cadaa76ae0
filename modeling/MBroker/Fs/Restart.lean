import MBroker.Fs.AnyUse

/-!
# `tfs_init` when it fails

`state_init` stores the parameters before it looks whether there is a file system, and
whatever it has allocated before it fails stays allocated. So what a failed `tfs_init` leaves
is as before in two cases only: the file system exists and the parameters are its own, or
there is none and none of what is left can be seen.

Results:
1. `fails_quietly_iff`: exactly when a failed `tfs_init` changes nothing that any later
   calls can tell, and leaves bounds that match the tables.
2. `init_again`: a failed `tfs_init` with a larger block size.
-/

namespace MBroker.Fs

open FirstFit Transition

variable {s t u : State} {q : TfsParams} {params : Option TfsParams} {m m' : Malloc} {op : Op}

/-- The calls of all of `operations.h`. -/
inductive Call
  | tfsInit (params : Option TfsParams) (m : Malloc)
  | tfsDestroy
  | op (op : Op)

def callStep (s : State) : Call → Except Fault (State × Int × List UInt8)
  | .tfsInit params m => (fun r => (r.1, r.2, [])) <$> Fs.tfsInit s params m
  | .tfsDestroy => .ok ((Fs.tfsDestroy s).1, (Fs.tfsDestroy s).2, [])
  | .op op => tfsStep s op

/-- What the callers see: what each call returns, until one stops the process. -/
def observe : State → List Call → List (Except Fault (Int × List UInt8))
  | _, [] => []
  | s, c :: cs =>
    match callStep s c with
    | .ok (t, r) => .ok r :: observe t cs
    | .error e => [.error e]

/-- The tables that `state_init` allocates for these parameters. -/
def TfsParams.tables (p : TfsParams) : Heap :=
  ⟨p.maxInodeCount, p.maxInodeCount, p.maxBlockCount * p.blockSize, p.maxBlockCount,
    p.maxOpenFilesCount, p.maxOpenFilesCount⟩

/-- Where there are tables, the parameters are those that they were allocated for. -/
def State.Matching (s : State) : Prop := s.inodeTableNull = false → s.heap = s.fsParams.tables

/-- Never initialised, initialised and then used by any operations, or destroyed. -/
inductive State.Usual : State → Prop
  | never : Usual State.static
  | used {s t u : State} {params : Option TfsParams} {m : Malloc} :
      (params.getD tfsDefaultParams).FitsInt → tfsInit s params m = .ok (t, 0) →
      Reaches fsStep anyStep t u → Usual u
  | destroyed {s : State} : Usual s → Usual (tfsDestroy s).1

/-- The same calls to `malloc` return `NULL`. -/
structure Malloc.SameNulls (m m' : Malloc) : Prop where
  inodeTable : m'.inodeTable.isSome = m.inodeTable.isSome
  freeinodeTs : m'.freeinodeTs.isSome = m.freeinodeTs.isSome
  fsData : m'.fsData.isSome = m.fsData.isSome
  freeBlocks : m'.freeBlocks.isSome = m.freeBlocks.isSome
  openFileTable : m'.openFileTable.isSome = m.openFileTable.isSome
  freeOpenFileEntries : m'.freeOpenFileEntries.isSome = m.freeOpenFileEntries.isSome

/-- Whatever the allocated memory holds, if the call fails no later calls can tell, and the
bounds match the tables. -/
def State.FailsQuietly (s : State) (params : Option TfsParams) (m : Malloc) : Prop :=
  ∀ m', m.SameNulls m' → ∀ t, tfsInit s params m' = .ok (t, -1) →
    (∀ cs, observe t cs = observe s cs) ∧ t.Matching

/-- What can be seen of the parameters while there is no file system. -/
structure SameUnused (p q : TfsParams) : Prop where
  inodes : p.maxInodeCount = 0 ↔ q.maxInodeCount = 0
  openFiles : p.maxOpenFilesCount = q.maxOpenFilesCount

/-- There is a file system and the parameters are its own; or there is none, `inode_table`
stays `NULL`, and so do the marks of the handles, if any handle is valid. -/
def State.Repeats (s : State) (p : TfsParams) (m : Malloc) : Prop :=
  if s.inodeTableNull then
    m.inodeTable = none ∧ SameUnused p s.fsParams ∧
      (m.freeOpenFileEntries = none ∨ p.maxOpenFilesCount = 0)
  else p = s.fsParams

/-! ## Without a file system -/

/-- `inode_table` is `NULL`, and no handle has a mark that could be read. -/
structure NoTables (s : State) : Prop where
  null : s.inodeTableNull = true
  inodes : s.heap.inodes = 0
  handles : s.heap.freeOpenFiles = 0 ∨ s.fsParams.maxOpenFilesCount = 0

/-- What a call gives while there are no tables. -/
def unusedAnswer (p : TfsParams) : Op → Except Fault (Int × List UInt8)
  | .tfsOpen path _ | .tfsUnlink path =>
    if validPathname path then
      .error (if 0 < p.maxInodeCount then .outOfBounds else .panic "inode_get: invalid inumber")
    else .ok (-1, [])
  | .tfsClose fhandle | .tfsWrite fhandle _ | .tfsRead fhandle _ =>
    if 0 ≤ fhandle ∧ fhandle.toNat < p.maxOpenFilesCount then .error .outOfBounds else .ok (-1, [])

theorem inodeGet_unused (h : s.heap.inodes = 0) : inodeGet s rootDirInum =
    .error (if 0 < s.fsParams.maxInodeCount then .outOfBounds
      else .panic "inode_get: invalid inumber") := by
  by_cases hpos : 0 < s.fsParams.maxInodeCount
  · have hout : access (0 + 1) s.heap.inodes = .error .outOfBounds :=
      access_of_lt (by rw [h]; exact Nat.one_pos)
    simp [inodeGet, State.validInumber, rootDirInum, hpos, hout]
  · simp [inodeGet, State.validInumber, rootDirInum, hpos]

theorem tfsOpen_unused (h : s.heap.inodes = 0) {path : Option CStr} (hv : validPathname path = true)
    (mode : Nat) : tfsOpen s path mode = .error (if 0 < s.fsParams.maxInodeCount then .outOfBounds
      else .panic "inode_get: invalid inumber") := by
  simp [tfsOpen, hv, inodeGet_unused h]

theorem NoTables.getOpenFileEntry (h : NoTables s) (fhandle : Int) :
    Fs.getOpenFileEntry s fhandle =
      if 0 ≤ fhandle ∧ fhandle.toNat < s.fsParams.maxOpenFilesCount then .error .outOfBounds
      else .ok none := by
  by_cases hv : 0 ≤ fhandle ∧ fhandle.toNat < s.fsParams.maxOpenFilesCount
  · have hout : access (fhandle.toNat + 1) s.heap.freeOpenFiles = .error .outOfBounds := by
      rcases h.handles with hzero | hzero
      · exact access_of_lt (by rw [hzero]; omega)
      · omega
    simp [Fs.getOpenFileEntry, State.validFileHandle, hv, hout]
  · have hinvalid : s.validFileHandle fhandle = false := by
      simp only [State.validFileHandle, Bool.and_eq_false_iff, decide_eq_false_iff_not]
      exact not_and_or.mp hv
    simp [Fs.getOpenFileEntry, hinvalid, hv]

/-- No call changes anything, and each gives what the parameters say. -/
theorem NoTables.tfsStep (h : NoTables s) (op : Op) :
    Fs.tfsStep s op = (fun r => (s, r)) <$> unusedAnswer s.fsParams op := by
  cases op with
  | tfsOpen path mode =>
    by_cases hv : validPathname path = true
    · simp [Fs.tfsStep, tfsOpen_unused h.inodes hv, unusedAnswer, hv]
    · simp [Fs.tfsStep, Fs.tfsOpen, unusedAnswer, hv]
  | tfsUnlink path =>
    simp only [Fs.tfsStep, Fs.tfsUnlink, unusedAnswer, inodeGet_unused h.inodes]
    by_cases hv : validPathname path = true
    · simp [hv]
    · simp [hv]
  | tfsClose fhandle =>
    simp only [Fs.tfsStep, Fs.tfsClose, unusedAnswer, h.getOpenFileEntry]
    split <;> rfl
  | tfsWrite fhandle buffer =>
    simp only [Fs.tfsStep, Fs.tfsWrite, unusedAnswer, h.getOpenFileEntry]
    split <;> rfl
  | tfsRead fhandle len =>
    simp only [Fs.tfsStep, Fs.tfsRead, unusedAnswer, h.getOpenFileEntry]
    split <;> rfl

theorem unusedAnswer_congr {p q : TfsParams} (h : SameUnused p q) (op : Op) :
    unusedAnswer p op = unusedAnswer q op := by
  have hpos : 0 < p.maxInodeCount ↔ 0 < q.maxInodeCount := by
    have := h.inodes
    omega
  cases op <;> simp only [unusedAnswer, h.openFiles, hpos]

/-- A successful `tfs_init` overwrites everything, and a failed one where there is no file
system as well. -/
theorem tfsInit_congr (hs : s.inodeTableNull = true) (ht : t.inodeTableNull = true) :
    tfsInit s params m = tfsInit t params m := by
  have hstate : ∀ p, stateInit s p m = stateInit t p m := fun p => by
    simp only [stateInit, hs, ht, Bool.not_true, Bool.false_eq_true, if_false]
  simp only [tfsInit, hstate]

theorem noTables_destroy (s : State) : NoTables (tfsDestroy s).1 := ⟨rfl, rfl, Or.inl rfl⟩

/-- Two states without tables cannot be told apart if their parameters cannot. -/
theorem observe_congr (hs : NoTables s) (ht : NoTables t) (hp : SameUnused s.fsParams t.fsParams)
    (cs : List Call) : observe s cs = observe t cs := by
  induction cs generalizing s t with
  | nil => rfl
  | cons c cs ih =>
    cases c with
    | tfsInit params m =>
      have hinit : callStep s (.tfsInit params m) = callStep t (.tfsInit params m) := by
        rw [callStep, callStep, tfsInit_congr hs.null ht.null]
      rw [observe, observe, hinit]
    | tfsDestroy =>
      show Except.ok _ :: observe _ cs = Except.ok _ :: observe _ cs
      rw [ih (noTables_destroy s) (noTables_destroy t) hp]
      rfl
    | op op =>
      have hstep_s : callStep s (.op op) = _ := hs.tfsStep op
      have hstep_t : callStep t (.op op) = _ := ht.tfsStep op
      rw [observe, observe, hstep_s, hstep_t, unusedAnswer_congr hp]
      cases unusedAnswer t.fsParams op with
      | error e => rfl
      | ok r =>
        show Except.ok r :: observe s cs = Except.ok r :: observe t cs
        rw [ih hs ht hp]

/-! ## With a file system -/

/-- The tables are those of another state. -/
structure SameTables (s t : State) : Prop where
  params : t.fsParams = s.fsParams
  heap : t.heap = s.heap
  null : t.inodeTableNull = s.inodeTableNull

theorem SameTables.trans (h : SameTables s t) (h' : SameTables t u) : SameTables s u :=
  ⟨h'.params.trans h.params, h'.heap.trans h.heap, h'.null.trans h.null⟩

theorem sameTables_openHandle (s : State) (k : Int) (offset : Nat) :
    SameTables s (s.openHandle k offset).1 := by
  unfold State.openHandle
  split <;> exact ⟨rfl, rfl, rfl⟩

theorem sameTables_openState (s : State) (mode k : Nat) : SameTables s (s.openState mode k) := by
  unfold State.openState
  split <;> exact ⟨rfl, rfl, rfl⟩

theorem Called.sameTables (h : Called s op t) : SameTables s t := by
  cases h with
  | refused => exact ⟨rfl, rfl, rfl⟩
  | opened ho =>
    cases ho with
    | refused => exact ⟨rfl, rfl, rfl⟩
    | noEntry => exact ⟨rfl, rfl, rfl⟩
    | existing => exact (sameTables_openState s _ _).trans (sameTables_openHandle _ _ _)
    | @created p k i =>
      exact SameTables.trans (t := s.createFile k i p.tail) ⟨rfl, rfl, rfl⟩
        (sameTables_openHandle _ _ _)
  | closed => exact ⟨rfl, rfl, rfl⟩
  | wrote _ _ hw => cases hw <;> exact ⟨rfl, rfl, rfl⟩
  | read _ _ hread => cases hread <;> exact ⟨rfl, rfl, rfl⟩
  | unlinked hu => cases hu <;> exact ⟨rfl, rfl, rfl⟩

/-- What is known of a state in which the call may be made. -/
inductive State.Known (s : State) : Prop
  | unused : s.inodeTableNull = true → s.heap = ⟨0, 0, 0, 0, 0, 0⟩ → Known s
  | used : s.inodeTableNull = false → s.heap = s.fsParams.tables → 0 < s.fsParams.maxBlockCount →
      Known s

theorem State.Usual.known (h : s.Usual) : s.Known ∧ s.fsParams.FitsInt := by
  induction h with
  | never => exact ⟨.unused rfl rfl, by constructor <;> exact Nat.zero_le _⟩
  | used hp hinit hrun =>
    obtain ⟨husable, rfl⟩ := tfsInit_inv hp hinit
    have hinv := hrun.invariant (I := fun v => Robust v ∧ SameTables _ v)
      ⟨initial_robust husable, rfl, rfl, rfl⟩ fun _ _ _ hi _ hs =>
        ⟨hi.1.step hs, hi.2.trans (hi.1.called hs).sameTables⟩
    obtain ⟨hparams, hheap, hnull⟩ := hinv.2
    rw [State.initial, State.freshTables] at hparams
    refine ⟨.used hnull ?_ ?_, ?_⟩
    · rw [hheap, hparams]
      rfl
    · rw [hparams]
      exact husable.blocks_pos
    · rw [hparams]
      exact hp
  | destroyed _ ih => exact ⟨.unused rfl rfl, ih.2⟩

/-- The parameters that allocate the same tables are the same. -/
theorem tables_inj {p : TfsParams} (hpos : 0 < q.maxBlockCount)
    (h : p.tables = q.tables) : p = q := by
  obtain ⟨pi, pb, po, ps⟩ := p
  obtain ⟨qi, qb, qo, qs⟩ := q
  simp only [TfsParams.tables, Heap.mk.injEq] at h
  obtain ⟨rfl, -, hdata, rfl, rfl, -⟩ := h
  rw [Nat.eq_of_mul_eq_mul_left hpos hdata]

/-! ## The failed call -/

/-- A failed call where there is a file system stores the parameters. -/
theorem tfsInit_used (hnull : s.inodeTableNull = false) :
    tfsInit s params m = .ok ({ s with fsParams := params.getD tfsDefaultParams }, -1) := by
  simp [tfsInit, stateInit, hnull]

/-- What `state_init` leaves when it runs out of memory. -/
def State.partTables (s : State) (p : TfsParams) (m : Malloc) : State :=
  { s with
    fsParams := p
    inodeTableNull := m.inodeTable.isNone
    heap := m.heap p
    inodeTable := m.inodeTable.getD State.static.inodeTable
    freeinodeTs := m.freeinodeTs.getD State.static.freeinodeTs
    fsData := m.fsData.getD State.static.fsData
    freeBlocks := m.freeBlocks.getD State.static.freeBlocks
    openFileTable := m.openFileTable.getD State.static.openFileTable
    freeOpenFileEntries := m.freeOpenFileEntries.getD State.static.freeOpenFileEntries }

theorem tfsInit_refused (hnull : s.inodeTableNull = true) (hm : m.granted = false) :
    tfsInit s params m = .ok (s.partTables (params.getD tfsDefaultParams) m, -1) := by
  simp [tfsInit, stateInit, hnull, hm, State.partTables]

theorem inodeAlloc_null {r : State × Int} (h : inodeAlloc s = .ok r) :
    r.1.inodeTableNull = s.inodeTableNull := by
  obtain ⟨found, -, h⟩ := bind_eq_ok h
  cases found <;> obtain rfl := Except.ok.inj h <;> rfl

theorem dataBlockAlloc_null {r : State × Int} (h : dataBlockAlloc s = .ok r) :
    r.1.inodeTableNull = s.inodeTableNull := by
  obtain ⟨found, -, h⟩ := bind_eq_ok h
  cases found <;> obtain rfl := Except.ok.inj h <;> rfl

theorem inodeDelete_null {inumber : Int} (h : inodeDelete s inumber = .ok t) :
    t.inodeTableNull = s.inodeTableNull := by
  obtain ⟨-, -, h⟩ := bind_eq_ok h
  obtain ⟨-, -, h⟩ := bind_eq_ok h
  obtain ⟨-, -, h⟩ := bind_eq_ok h
  obtain ⟨-, -, h⟩ := bind_eq_ok h
  dsimp only at h
  split at h
  · obtain ⟨u, hu, h⟩ := bind_eq_ok h
    obtain rfl := Except.ok.inj h
    obtain ⟨-, -, hu⟩ := bind_eq_ok hu
    obtain ⟨-, -, hu⟩ := bind_eq_ok hu
    obtain rfl := Except.ok.inj hu
    rfl
  · obtain rfl := Except.ok.inj h
    rfl

/-- Nothing after `state_init` touches the pointers. -/
theorem inodeCreate_null {iType : InodeType} {r : State × Int} (h : inodeCreate s iType = .ok r) :
    r.1.inodeTableNull = s.inodeTableNull := by
  obtain ⟨⟨u, inumber⟩, hu, h⟩ := bind_eq_ok h
  have hnull : u.inodeTableNull = s.inodeTableNull := inodeAlloc_null hu
  rw [← hnull]
  dsimp only at h
  split at h
  · obtain rfl := Except.ok.inj h
    rfl
  obtain ⟨-, -, h⟩ := bind_eq_ok h
  cases iType with
  | tFile =>
    obtain rfl := Except.ok.inj h
    rfl
  | tDirectory =>
    obtain ⟨⟨v, b⟩, hv, h⟩ := bind_eq_ok h
    rw [← show v.inodeTableNull = u.inodeTableNull from dataBlockAlloc_null hv]
    dsimp only at h
    split at h
    · obtain ⟨w, hw, h⟩ := bind_eq_ok h
      obtain rfl := Except.ok.inj h
      exact (inodeDelete_null hw).trans rfl
    · obtain ⟨base, -, h⟩ := bind_eq_ok h
      obtain ⟨-, -, h⟩ := bind_eq_ok h
      obtain rfl := Except.ok.inj h
      rfl

theorem stateInit_null (hnull : s.inodeTableNull = true) {r : State × Int}
    (h : stateInit s q m = .ok r) : r.1.inodeTableNull = m.inodeTable.isNone := by
  by_cases hm : m.granted = true
  · simp only [stateInit, hnull, hm, Bool.not_true, Bool.false_eq_true, if_false] at h
    obtain ⟨-, -, h⟩ := bind_eq_ok h
    obtain ⟨-, -, h⟩ := bind_eq_ok h
    obtain ⟨-, -, h⟩ := bind_eq_ok h
    obtain rfl := Except.ok.inj h
    rfl
  · rw [Bool.not_eq_true] at hm
    simp only [stateInit, hnull, hm, Bool.not_true, Bool.not_false, Bool.false_eq_true, if_false,
      if_true] at h
    obtain rfl := Except.ok.inj h
    rfl

/-- Where there was no file system, a call leaves one unless `inode_table` is `NULL`. -/
theorem tfsInit_null (hnull : s.inodeTableNull = true) {r : State × Int}
    (h : tfsInit s params m = .ok r) : r.1.inodeTableNull = m.inodeTable.isNone := by
  obtain ⟨⟨u, ret⟩, hu, h⟩ := bind_eq_ok h
  rw [← stateInit_null hnull hu]
  dsimp only at h
  split at h
  · obtain rfl := Except.ok.inj h
    rfl
  obtain ⟨⟨v, root⟩, hv, h⟩ := bind_eq_ok h
  rw [← show v.inodeTableNull = u.inodeTableNull from inodeCreate_null hv]
  dsimp only at h
  split at h <;> obtain rfl := Except.ok.inj h <;> rfl

/-! ## The exact condition -/

/-- Parameters that are good where there is no file system. -/
theorem call_small (hnull : s.inodeTableNull = true) :
    callStep s (.tfsInit (some smallParams) .zeros)
      = .ok (s.initial smallParams .zeros, 0, []) := by
  have hinit : Fs.tfsInit s (some smallParams) .zeros = .ok (s.initial smallParams .zeros, 0) :=
    tfsInit_of rfl smallParams_inRange.usable hnull rfl
  rw [callStep, hinit]
  rfl

/-- Once `inode_table` is allocated no call to `tfs_init` succeeds. -/
theorem not_quiet_of_table (hnull : s.inodeTableNull = true) (ht : t.inodeTableNull = false) :
    ¬ ∀ cs, observe t cs = observe s cs := by
  intro hall
  have hsame := hall [.tfsInit (some smallParams) .zeros]
  have hcall : callStep t (.tfsInit (some smallParams) .zeros)
      = .ok ({ t with fsParams := smallParams }, -1, []) := by
    rw [callStep, tfsInit_used ht]
    rfl
  rw [observe, observe, call_small hnull, hcall] at hsame
  cases hsame

/-- The same memory, with one mark in all entries for handles. -/
def Malloc.marked (m : Malloc) (a : AllocationState) : Malloc :=
  { m with freeOpenFileEntries := m.freeOpenFileEntries.map fun _ _ => a }

theorem sameNulls_marked (m : Malloc) (a : AllocationState) : m.SameNulls (m.marked a) := by
  refine ⟨rfl, rfl, rfl, rfl, rfl, ?_⟩
  rw [Malloc.marked, Option.isSome_map]

theorem close_invalid {fd : Nat} (h : s.fsParams.maxOpenFilesCount ≤ fd) :
    tfsClose s fd = .ok (s, -1) := by
  have hinvalid : s.validFileHandle fd = false := by simpa [State.validFileHandle] using h
  simp [tfsClose, getOpenFileEntry, hinvalid]

theorem close_outside {fd : Nat} (h : fd < s.fsParams.maxOpenFilesCount)
    (hout : s.heap.freeOpenFiles ≤ fd) : tfsClose s fd = .error .outOfBounds := by
  have hvalid : s.validFileHandle fd = true := by simpa [State.validFileHandle] using h
  simp [tfsClose, getOpenFileEntry, hvalid, access_of_lt (Nat.lt_succ_of_le hout)]

theorem close_free {fd : Nat} (h : fd < s.fsParams.maxOpenFilesCount)
    (hin : fd < s.heap.freeOpenFiles) (hfree : s.freeOpenFileEntries fd = .free) :
    tfsClose s fd = .ok (s, -1) := by
  have hvalid : s.validFileHandle fd = true := by simpa [State.validFileHandle] using h
  simp [tfsClose, getOpenFileEntry, hvalid, access_of_le (Nat.succ_le_of_lt hin), hfree]

/-- The close of a handle that is marked does not return -1. -/
theorem close_taken {fd : Nat} (h : fd < s.fsParams.maxOpenFilesCount)
    (htaken : s.freeOpenFileEntries fd = .taken) : tfsClose s fd ≠ .ok (t, -1) := by
  intro hclose
  have hvalid : s.validFileHandle fd = true := by simpa [State.validFileHandle] using h
  obtain ⟨found, hfound, hclose⟩ := bind_eq_ok hclose
  cases found with
  | some i =>
    obtain ⟨v, -, hclose⟩ := bind_eq_ok hclose
    cases hclose
  | none =>
    simp only [getOpenFileEntry, hvalid, Bool.not_true, Bool.false_eq_true, if_false,
      Int.toNat_natCast] at hfound
    obtain ⟨-, -, hfound⟩ := bind_eq_ok hfound
    rw [if_neg (by rw [htaken]; exact fun hne => hne rfl)] at hfound
    obtain ⟨-, -, hfound⟩ := bind_eq_ok hfound
    cases hfound

/-- What one call tells. -/
theorem observe_op (h : ∀ cs, observe t cs = observe s cs) (op : Op) :
    (fun r => r.2) <$> tfsStep t op = (fun r => r.2) <$> tfsStep s op := by
  have hone := h [.op op]
  simp only [observe, callStep] at hone
  cases ht : tfsStep t op with
  | error e =>
    cases hs : tfsStep s op with
    | error e' =>
      rw [ht, hs] at hone
      obtain rfl := Except.error.inj (List.cons.inj hone).1
      rfl
    | ok r =>
      rw [ht, hs] at hone
      cases hone
  | ok r =>
    cases hs : tfsStep s op with
    | error e' =>
      rw [ht, hs] at hone
      cases hone
    | ok r' =>
      rw [ht, hs] at hone
      exact congrArg Except.ok (Except.ok.inj (List.cons.inj hone).1)

theorem observe_close (h : ∀ cs, observe t cs = observe s cs) {fhandle a : Int}
    (hs : tfsClose s fhandle = .ok (u, a)) : ∃ v, tfsClose t fhandle = .ok (v, a) := by
  have hone := observe_op h (.tfsClose fhandle)
  simp only [tfsStep, hs] at hone
  cases ht : tfsClose t fhandle with
  | error e =>
    rw [ht] at hone
    cases hone
  | ok r =>
    rw [ht] at hone
    obtain ⟨v, a'⟩ := r
    obtain rfl : a' = a := congrArg Prod.fst (Except.ok.inj hone)
    exact ⟨v, rfl⟩

theorem observe_close_error (h : ∀ cs, observe t cs = observe s cs) {fhandle : Int} {e : Fault}
    (hs : tfsClose s fhandle = .error e) : tfsClose t fhandle = .error e := by
  have hone := observe_op h (.tfsClose fhandle)
  simp only [tfsStep, hs] at hone
  cases ht : tfsClose t fhandle with
  | error e' =>
    rw [ht] at hone
    exact congrArg Except.error (Except.error.inj hone)
  | ok r =>
    rw [ht] at hone
    cases hone

section Unused

variable (hheap : s.heap = ⟨0, 0, 0, 0, 0, 0⟩)
include hheap

theorem noTables_unused (hnull : s.inodeTableNull = true) : NoTables s :=
  ⟨hnull, by rw [hheap], Or.inl (by rw [hheap])⟩

/-- Whether there may be inodes shows in how an open stops the process. -/
theorem inodes_of_quiet (hm : m.inodeTable = none)
    (h : ∀ cs, observe (s.partTables q m) cs = observe s cs) :
    q.maxInodeCount = 0 ↔ s.fsParams.maxInodeCount = 0 := by
  have hone := observe_op h (.tfsOpen pathA 0)
  have hzero : (s.partTables q m).heap.inodes = 0 := by
    simp [State.partTables, Malloc.heap, hm]
  simp only [tfsStep, tfsOpen_unused hzero (show validPathname pathA = true by decide),
    tfsOpen_unused (show s.heap.inodes = 0 by rw [hheap])
      (show validPathname pathA = true by decide)]
    at hone
  have hfault := Except.error.inj hone
  rw [show (s.partTables q m).fsParams = q from rfl] at hfault
  by_cases h1 : 0 < q.maxInodeCount <;> by_cases h2 : 0 < s.fsParams.maxInodeCount
  · omega
  · rw [if_pos h1, if_neg h2] at hfault
    cases hfault
  · rw [if_neg h1, if_pos h2] at hfault
    cases hfault
  · omega

/-- How many handles there may be shows in which ones a close accepts. -/
theorem openFiles_of_quiet
    (h : ∀ a, ∀ cs, observe (s.partTables q (m.marked a)) cs = observe s cs) :
    q.maxOpenFilesCount = s.fsParams.maxOpenFilesCount := by
  rcases Nat.lt_trichotomy q.maxOpenFilesCount s.fsParams.maxOpenFilesCount with hlt | heq | hlt
  · have hout := observe_close_error (h .taken)
      (close_outside hlt (show s.heap.freeOpenFiles ≤ _ by rw [hheap]; exact Nat.zero_le _))
    rw [close_invalid (show (s.partTables q _).fsParams.maxOpenFilesCount ≤ q.maxOpenFilesCount
      from Nat.le_refl _)] at hout
    cases hout
  · exact heq
  · obtain ⟨v, hv⟩ := observe_close (h .taken)
      (close_invalid (Nat.le_refl s.fsParams.maxOpenFilesCount))
    cases hmarks : m.freeOpenFileEntries with
    | none =>
      have hzero : (s.partTables q (m.marked .taken)).heap.freeOpenFiles
        ≤ s.fsParams.maxOpenFilesCount := by
        simp [State.partTables, Malloc.heap, Malloc.marked, hmarks]
      rw [close_outside hlt hzero] at hv
      cases hv
    | some marks =>
      have htaken : (s.partTables q (m.marked .taken)).freeOpenFileEntries
          s.fsParams.maxOpenFilesCount = .taken := by
        simp [State.partTables, Malloc.marked, hmarks]
      exact absurd hv (close_taken hlt htaken)

/-- Marks that are allocated show where there is a valid handle. -/
theorem marks_of_quiet (hint : s.fsParams.FitsInt)
    (hopen : q.maxOpenFilesCount = s.fsParams.maxOpenFilesCount)
    (h : ∀ a, ∀ cs, observe (s.partTables q (m.marked a)) cs = observe s cs) :
    m.freeOpenFileEntries = none ∨ q.maxOpenFilesCount = 0 := by
  cases hmarks : m.freeOpenFileEntries with
  | none => exact Or.inl rfl
  | some marks =>
    refine Or.inr (Nat.eq_zero_of_not_pos fun hpos => ?_)
    have hle := hint.openFiles_le
    rw [← hopen] at hle
    have hin : 0 < (s.partTables q (m.marked .free)).heap.freeOpenFiles := by
      simp only [State.partTables, Malloc.heap, Malloc.marked, hmarks, Option.map_some,
        Option.isSome_some, if_true]
      rwa [mallocCount_of_le hle (by decide) (by decide)]
    have hfree : (s.partTables q (m.marked .free)).freeOpenFileEntries 0 = .free := by
      simp [State.partTables, Malloc.marked, hmarks]
    have hout := observe_close_error (h .free) (close_outside (hopen ▸ hpos)
      (show s.heap.freeOpenFiles ≤ 0 by rw [hheap]))
    rw [close_free hpos hin hfree] at hout
    cases hout

/-- What is left cannot be told from what was there. -/
theorem quiet_of_unseen (hnull : s.inodeTableNull = true) (hm : m.inodeTable = none)
    (hp : SameUnused q s.fsParams) (hmarks : m.freeOpenFileEntries = none ∨ q.maxOpenFilesCount = 0)
    (cs : List Call) : observe (s.partTables q m) cs = observe s cs := by
  refine observe_congr ⟨?_, ?_, ?_⟩ (noTables_unused hheap hnull) hp cs
  · simp [State.partTables, hm]
  · simp [State.partTables, Malloc.heap, hm]
  · refine hmarks.imp_left fun hnone => ?_
    simp [State.partTables, Malloc.heap, hnone]

/-- A failed call where there is no file system. -/
theorem unused_quiet_iff (hnull : s.inodeTableNull = true) (hint : s.fsParams.FitsInt)
    (hfail : tfsInit s params m = .ok (t, -1)) (hq : params.getD tfsDefaultParams = q) :
    s.FailsQuietly params m ↔ m.inodeTable = none ∧ SameUnused q s.fsParams ∧
      (m.freeOpenFileEntries = none ∨ q.maxOpenFilesCount = 0) := by
  have hpart : ∀ m', m'.inodeTable = none → tfsInit s params m' = .ok (s.partTables q m', -1) := by
    rintro m' hm'
    rw [tfsInit_refused hnull (by simp [Malloc.granted, hm']), hq]
  constructor
  · intro hquiet
    cases hm : m.inodeTable with
    | some table =>
      have htable : t.inodeTableNull = false := by
        rw [show t.inodeTableNull = _ from tfsInit_null hnull hfail, hm]
        rfl
      exact absurd (hquiet m ⟨rfl, rfl, rfl, rfl, rfl, rfl⟩ t hfail).1
        (not_quiet_of_table hnull htable)
    | none =>
      have hall : ∀ a, ∀ cs, observe (s.partTables q (m.marked a)) cs = observe s cs := fun a =>
        (hquiet (m.marked a) (sameNulls_marked m a) _ (hpart _ hm)).1
      have hsame := hquiet m ⟨rfl, rfl, rfl, rfl, rfl, rfl⟩ _ (hpart m hm)
      have hopen := openFiles_of_quiet hheap hall
      exact ⟨rfl, ⟨inodes_of_quiet hheap hm hsame.1, hopen⟩, marks_of_quiet hheap hint hopen hall⟩
  · rintro ⟨hm, hp, hmarks⟩ m' hnulls t' ht'
    have hm' : m'.inodeTable = none := by
      simpa [hm] using hnulls.inodeTable
    have hmarks' : m'.freeOpenFileEntries = none ∨ q.maxOpenFilesCount = 0 := by
      refine hmarks.imp_left fun hnone => ?_
      simpa [hnone] using hnulls.freeOpenFileEntries
    obtain rfl : s.partTables q m' = t' :=
      congrArg Prod.fst (Except.ok.inj ((hpart m' hm').symm.trans ht'))
    refine ⟨quiet_of_unseen hheap hnull hm' hp hmarks', fun hused => ?_⟩
    simp [State.partTables, hm'] at hused

end Unused

/-- A failed call where there is a file system. -/
theorem used_quiet_iff (hnull : s.inodeTableNull = false) (hheap : s.heap = s.fsParams.tables)
    (hpos : 0 < s.fsParams.maxBlockCount) (hq : params.getD tfsDefaultParams = q) :
    s.FailsQuietly params m ↔ q = s.fsParams := by
  constructor
  · intro hquiet
    have hmatch := (hquiet m ⟨rfl, rfl, rfl, rfl, rfl, rfl⟩ _ (tfsInit_used hnull)).2 hnull
    rw [hq] at hmatch
    exact tables_inj hpos (hmatch.symm.trans hheap)
  · rintro rfl m' - t' ht'
    rw [tfsInit_used hnull, hq] at ht'
    obtain rfl : s = t' := congrArg Prod.fst (Except.ok.inj ht')
    exact ⟨fun _ => rfl, fun _ => hheap⟩

/-- A failed `tfs_init` leaves the file system as it was, in every state and whatever is
called later, exactly if there is a file system with the same parameters, or there is none
and what the call leaves cannot be seen. -/
theorem fails_quietly_iff (hs : s.Usual) (hfail : tfsInit s params m = .ok (t, -1)) :
    s.FailsQuietly params m ↔ s.Repeats (params.getD tfsDefaultParams) m := by
  obtain ⟨hknown, hint⟩ := hs.known
  unfold State.Repeats
  cases hknown with
  | unused hnull hheap =>
    rw [hnull, if_pos rfl]
    exact unused_quiet_iff hheap hnull hint hfail rfl
  | used hnull hheap hpos =>
    rw [hnull, if_neg Bool.false_ne_true]
    exact used_quiet_iff hnull hheap hpos rfl

/-- A second `tfs_init` with the parameters of the first. -/
theorem fails_quietly_iff_same :
    (State.static.initial smallParams .zeros).FailsQuietly (some smallParams) .zeros :=
  (fails_quietly_iff (.used (show TfsParams.FitsInt ((some smallParams).getD _) from
      smallParams_inRange.usable.toFitsInt)
      (show tfsInit .static (some smallParams) .zeros = .ok (_, 0) from
        tfsInit_of rfl smallParams_inRange.usable rfl rfl) .refl)
    (show tfsInit _ (some smallParams) .zeros = .ok (_, -1) from tfsInit_used rfl)).mpr rfl

/-- A second `tfs_init`, with blocks of 176 bytes instead of 88: it fails, but a write of 100
bytes to a new file then writes 100 instead of 88. -/
theorem init_again :
    ¬ ∀ (s t : State) (params : Option TfsParams) (m : Malloc), s.Usual →
      tfsInit s params m = .ok (t, -1) → s.FailsQuietly params m := by
  intro hall
  have hused : (State.static.initial smallParams .zeros).Usual :=
    .used (show TfsParams.FitsInt ((some smallParams).getD _) from
      smallParams_inRange.usable.toFitsInt)
      (show tfsInit .static (some smallParams) .zeros = .ok (_, 0) from
        tfsInit_of rfl smallParams_inRange.usable rfl rfl) .refl
  have hfail : tfsInit (State.static.initial smallParams .zeros)
      (some { smallParams with blockSize := 176 }) .zeros = .ok (_, -1) := tfsInit_used rfl
  have hsame := (hall _ _ _ _ hused hfail .zeros ⟨rfl, rfl, rfl, rfl, rfl, rfl⟩ _ hfail).1
    [.op (.tfsOpen pathA tfsOCreat), .op (.tfsWrite 0 (List.replicate 100 1))]
  have hreturned := congrArg (List.map fun r => r.toOption.map (·.1)) hsame
  exact absurd hreturned (by decide +kernel)

end MBroker.Fs
