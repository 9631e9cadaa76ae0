import MBroker.Fs.Tables

/-!
# The root directory

The root directory is the block 0 of `fs_data`, a table of `block_size / 44`
entries. `s.entry i` decodes one; `s.lookup name` is the inumber that
`find_in_dir` finds.

`DirFormat` is what first-fit insertion keeps true of the entries, whatever
bytes the block held before: a used entry holds its name padded with NULs, no
two used entries hold one name, and the entries that were never used come after
all the others, so a cleared entry has an empty name. It is what makes
`clear_dir_entry`, which compares names without looking at `d_inumber`, clear
the entry that `find_in_dir` matched.

Results:
1. `entry_setEntry`, `entry_clearEntry`: writing one entry decodes to a change
   of that entry alone.
2. `findInDir_eq`, `addDirEntry_eq`, `clearDirEntry_of`: the three directory
   functions in terms of `entry`.
3. `DirFormat.add`, `DirFormat.clear`: both updates keep the format.
-/

namespace MBroker.Fs

open FirstFit ByteMemory

variable {s t : State} {i j k m : Nat} {n n' : CStr}

/-! ## Decoding -/

/-- The 40 bytes of `d_name` in entry `i` of the root directory. -/
def State.nameField (s : State) (i : Nat) : List UInt8 :=
  read s.fsData (dirEntrySize * i) maxFileName

/-- Entry `i` of the root directory: its name and inumber, if it is used. -/
def State.entry (s : State) (i : Nat) : Option (CStr × Nat) :=
  if s.dInumber 0 i = -1 then none
  else some (.ofBytes (s.nameField i), (s.dInumber 0 i).toNat)

/-- Entry `i` is used for this name. -/
def State.isNamed (s : State) (n : CStr) (i : Nat) : Bool := (s.entry i).any fun e => e.1 == n

/-- The first entry used for a name. -/
def State.slotOf (s : State) (n : CStr) : Option Nat := firstIndex (s.isNamed n) s.maxDirEntries

/-- The inumber of the file of this name. -/
def State.lookup (s : State) (n : CStr) : Option Nat :=
  (s.slotOf n).bind fun i => (s.entry i).map (·.2)

/-- The first unused entry. -/
def State.freeSlot (s : State) : Option Nat :=
  firstIndex (fun i => (s.entry i).isNone) s.maxDirEntries

theorem dNameOf_eq (h : n.length ≤ 39) :
    dNameOf n = n.bytes ++ 0 :: List.replicate (39 - n.length) 0 := by
  have hlen : n.bytes.length ≤ 39 := h
  have hcut : (n.bytes ++ List.replicate maxFileName 0).take (maxFileName - 1)
      = n.bytes ++ List.replicate (39 - n.length) 0 := by
    rw [List.take_append, List.take_of_length_le (by simpa [maxFileName] using hlen),
      List.take_replicate]
    congr 2
    simp only [maxFileName, CStr.length]
    omega
  rw [dNameOf, hcut, List.append_assoc, ← List.replicate_succ, List.replicate_succ']

@[simp] theorem length_dNameOf (h : n.length ≤ 39) : (dNameOf n).length = 40 := by
  have hlen : n.bytes.length ≤ 39 := h
  simp only [dNameOf_eq h, List.length_append, List.length_cons, List.length_replicate, CStr.length]
  omega

theorem ofBytes_dNameOf (h : n.length ≤ 39) : CStr.ofBytes (dNameOf n) = n := by
  rw [dNameOf_eq h, CStr.ofBytes_append_nul]

/-- Reading a name and its NUL off the start of a padded name. -/
theorem take_dNameOf_iff (h : n.length ≤ 39) :
    (dNameOf n).take (n'.length + 1) = n'.bytes ++ [0] ↔ n = n' := by
  constructor
  · intro heq
    rw [← ofBytes_dNameOf h, ← List.take_append_drop (n'.length + 1) (dNameOf n), heq,
      List.append_assoc]
    exact CStr.ofBytes_append_nul n' _
  · rintro rfl
    rw [dNameOf_eq h, List.append_cons]
    exact List.take_left' (by simp [CStr.length])

/-- `strncmp` on 40 characters decides equality of names of at most 39. -/
theorem nameStrncmp_iff (hname : s.nameField i = dNameOf n) (h : n.length ≤ 39) :
    s.nameStrncmp 0 i n' = true ↔ n = n' := by
  have hread : read s.fsData (0 + dirEntrySize * i) (min maxFileName (n'.length + 1))
      = (dNameOf n).take (min maxFileName (n'.length + 1)) := by
    rw [← hname, State.nameField, take_read (Nat.min_le_left ..), Nat.zero_add]
  rw [State.nameStrncmp, beq_iff_eq, hread]
  by_cases hlong : n'.length ≤ 39
  · have hmin : min maxFileName (n'.length + 1) = n'.length + 1 := by
      unfold maxFileName
      omega
    have hall : (n'.bytes ++ [0]).take maxFileName = n'.bytes ++ [0] := by
      refine List.take_of_length_le ?_
      simp only [List.length_append, List.length_singleton, maxFileName]
      unfold CStr.length at hlong
      omega
    rw [hmin, hall, take_dNameOf_iff h]
  · -- the first 40 characters of a longer name hold no NUL, those of `d_name` do
    have hmin : min maxFileName (n'.length + 1) = 40 := by
      unfold maxFileName
      omega
    have hcut : (n'.bytes ++ [0]).take maxFileName = n'.bytes.take 40 := by
      refine List.take_append_of_le_length ?_
      unfold CStr.length at hlong
      unfold maxFileName
      omega
    rw [hmin, hcut, List.take_of_length_le (by rw [length_dNameOf h])]
    constructor
    · intro heq
      have hmem : (0 : UInt8) ∈ n'.bytes.take 40 := by
        rw [← heq, dNameOf_eq h]
        simp
      exact absurd (List.mem_of_mem_take hmem) n'.nul_notMem
    · rintro rfl
      exact absurd h hlong

theorem nameStrcmp_iff (hname : s.nameField i = dNameOf n) (h : n.length ≤ 39)
    (h' : n'.length ≤ 39) : s.nameStrcmp 0 i n' = true ↔ n = n' := by
  have hread : read s.fsData (0 + dirEntrySize * i) (n'.length + 1)
      = (dNameOf n).take (n'.length + 1) := by
    rw [← hname, State.nameField, take_read (by unfold maxFileName; omega), Nat.zero_add]
  rw [State.nameStrcmp, beq_iff_eq, hread, take_dNameOf_iff h]

/-- An empty `d_name` differs from every non-empty name. -/
theorem nameStrcmp_of_empty (hzero : s.fsData (dirEntrySize * i) = 0) (h : 0 < n.length) :
    s.nameStrcmp 0 i n = false := by
  obtain ⟨bytes, hnul⟩ := n
  cases bytes with
  | nil => simp [CStr.length] at h
  | cons b bs =>
    have hb : b ≠ 0 := by
      rintro rfl
      simp at hnul
    rw [State.nameStrcmp, Nat.zero_add, read_succ, hzero, beq_eq_false_iff_ne]
    intro heq
    exact hb (List.cons.inj heq).1.symm

/-! ## Writing one entry -/

theorem nameField_setEntry_self {name : List UInt8} {z : Int} (hname : name.length = 40) :
    (s.setEntry 0 i name z).nameField i = name := by
  have h := congrArg (List.take 40)
    (read_write_same s.fsData (dirEntrySize * i) (name ++ le32 z))
  rw [take_read (by simp [hname]), List.take_left' hname] at h
  simpa [State.nameField, State.setEntry, maxFileName] using h

theorem dInumber_setEntry_self {name : List UInt8} {z : Int} (hname : name.length = 40)
    (lo : -2147483648 ≤ z) (hi : z < 2147483648) : (s.setEntry 0 i name z).dInumber 0 i = z := by
  have h := congrArg (List.drop 40)
    (read_write_same s.fsData (dirEntrySize * i) (name ++ le32 z))
  rw [drop_read (by simp [hname]), List.drop_left' hname] at h
  simp only [List.length_append, length_le32, hname] at h
  simp only [State.dInumber, State.setEntry, Nat.zero_add, maxFileName]
  rw [h, int32_le32 lo hi]

theorem nameField_setEntry_of_ne {name : List UInt8} {z : Int} (hname : name.length = 40)
    (hij : j ≠ i) : (s.setEntry 0 i name z).nameField j = s.nameField j := by
  simp only [State.nameField, State.setEntry, Nat.zero_add]
  refine read_write_disjoint ?_
  simp only [List.length_append, length_le32, hname, maxFileName, dirEntrySize]
  omega

theorem dInumber_setEntry_of_ne {name : List UInt8} {z : Int} (hname : name.length = 40)
    (hij : j ≠ i) : (s.setEntry 0 i name z).dInumber 0 j = s.dInumber 0 j := by
  simp only [State.dInumber, State.setEntry, Nat.zero_add]
  rw [read_write_disjoint]
  simp only [List.length_append, length_le32, hname, maxFileName, dirEntrySize]
  omega

/-- A new entry decodes to its name and inumber. -/
theorem entry_setEntry (h : n.length ≤ 39) (hk : k < 2147483648) (j : Nat) :
    (s.setEntry 0 i (dNameOf n) k).entry j = if j = i then some (n, k) else s.entry j := by
  have hlen := length_dNameOf h
  by_cases hij : j = i
  · subst hij
    rw [if_pos rfl, State.entry, dInumber_setEntry_self hlen (by omega) (by omega),
      nameField_setEntry_self hlen, ofBytes_dNameOf h, if_neg (by omega), Int.toNat_natCast]
  · rw [if_neg hij, State.entry, State.entry, dInumber_setEntry_of_ne hlen hij,
      nameField_setEntry_of_ne hlen hij]

/-- A cleared entry is unused and has an empty name. -/
theorem entry_clearEntry (j : Nat) :
    (s.setEntry 0 i (List.replicate maxFileName 0) (-1)).entry j
      = if j = i then none else s.entry j := by
  have hlen : (List.replicate maxFileName (0 : UInt8)).length = 40 := by simp [maxFileName]
  by_cases hij : j = i
  · subst hij
    rw [if_pos rfl, State.entry, dInumber_setEntry_self hlen (by omega) (by omega), if_pos rfl]
  · rw [if_neg hij, State.entry, State.entry, dInumber_setEntry_of_ne hlen hij,
      nameField_setEntry_of_ne hlen hij]

theorem clearEntry_first :
    (s.setEntry 0 i (List.replicate maxFileName 0) (-1)).fsData (dirEntrySize * i) = 0 := by
  have hpos : 0 < (List.replicate maxFileName (0 : UInt8) ++ le32 (-1)).length := by
    simp [maxFileName]
  have h := write_of_mem (m := s.fsData) (a := dirEntrySize * i) hpos
  simpa [State.setEntry, maxFileName, List.replicate_succ] using h

theorem setEntry_first_of_ne {name : List UInt8} {z : Int} (hname : name.length = 40)
    (hij : j ≠ i) : (s.setEntry 0 i name z).fsData (dirEntrySize * j)
      = s.fsData (dirEntrySize * j) := by
  simp only [State.setEntry, Nat.zero_add]
  rcases Nat.lt_or_gt_of_ne hij with hlt | hlt
  · refine write_of_lt ?_
    unfold dirEntrySize
    omega
  · refine write_of_ge ?_
    simp only [List.length_append, length_le32, hname, dirEntrySize]
    omega

/-! ## The format of the entries -/

structure DirFormat (s : State) : Prop where
  named : ∀ i < s.maxDirEntries, ∀ n k, s.entry i = some (n, k) →
    s.nameField i = dNameOf n ∧ 0 < n.length ∧ n.length ≤ 39 ∧ s.dInumber 0 i = k
  distinct : ∀ i < s.maxDirEntries, ∀ j < s.maxDirEntries, ∀ n k k',
    s.entry i = some (n, k) → s.entry j = some (n, k') → i = j
  neverUsed : ∃ m, (∀ i < m, s.entry i = none → s.fsData (dirEntrySize * i) = 0) ∧
    ∀ i, m ≤ i → i < s.maxDirEntries → s.entry i = none

theorem isNamed_iff : s.isNamed n i = true ↔ ∃ k, s.entry i = some (n, k) := by
  cases h : s.entry i with
  | none => simp [State.isNamed, h]
  | some e =>
    obtain ⟨n', k⟩ := e
    simp [State.isNamed, h]

theorem slotOf_eq_some (hf : DirFormat s) :
    s.slotOf n = some i ↔ i < s.maxDirEntries ∧ ∃ k, s.entry i = some (n, k) := by
  constructor
  · intro h
    obtain ⟨hlt, hnamed, -⟩ := firstIndex_eq_some.mp h
    exact ⟨hlt, isNamed_iff.mp hnamed⟩
  · rintro ⟨hlt, k, hk⟩
    refine firstIndex_of_unique hlt (isNamed_iff.mpr ⟨k, hk⟩) fun j hj hnamed => ?_
    obtain ⟨k', hk'⟩ := isNamed_iff.mp hnamed
    exact hf.distinct j hj i hlt n k' k hk' hk

theorem lookup_eq_some (hf : DirFormat s) :
    s.lookup n = some k ↔ ∃ i < s.maxDirEntries, s.entry i = some (n, k) := by
  unfold State.lookup
  constructor
  · intro h
    obtain ⟨i, hi, hmap⟩ := Option.bind_eq_some_iff.mp h
    obtain ⟨hlt, k', hk'⟩ := (slotOf_eq_some hf).mp hi
    rw [hk', Option.map_some, Option.some.injEq] at hmap
    subst hmap
    exact ⟨i, hlt, hk'⟩
  · rintro ⟨i, hlt, hk⟩
    rw [(slotOf_eq_some hf).mpr ⟨hlt, k, hk⟩, Option.bind_some, hk, Option.map_some]

theorem lookup_eq_none (hf : DirFormat s) :
    s.lookup n = none ↔ ∀ i < s.maxDirEntries, ∀ k, s.entry i ≠ some (n, k) := by
  constructor
  · intro h i hlt k hk
    rw [(lookup_eq_some hf).mpr ⟨i, hlt, hk⟩] at h
    cases h
  · intro h
    cases hl : s.lookup n with
    | none => rfl
    | some k =>
      obtain ⟨i, hlt, hk⟩ := (lookup_eq_some hf).mp hl
      exact absurd hk (h i hlt k)

theorem freeSlot_eq_some : s.freeSlot = some i →
    i < s.maxDirEntries ∧ s.entry i = none ∧ ∀ j < i, s.entry j ≠ none := by
  intro h
  obtain ⟨hlt, hi, hj⟩ := firstIndex_eq_some.mp h
  refine ⟨hlt, by simpa using hi, fun j hji => ?_⟩
  have := hj j hji
  rwa [Option.isNone_eq_false_iff, Option.isSome_iff_ne_none] at this

theorem entry_end (hi : i < s.maxDirEntries) :
    dirEntrySize * i + dirEntrySize ≤ s.fsParams.blockSize := by
  have hmul := Nat.mul_le_mul_left dirEntrySize (Nat.succ_le_of_lt hi)
  have hdiv := Nat.mul_div_le s.fsParams.blockSize dirEntrySize
  unfold State.maxDirEntries at hmul
  rw [Nat.mul_succ] at hmul
  omega

/-- The bytes of the directory block are those of another state. -/
def SameDir (s t : State) : Prop :=
  t.fsParams = s.fsParams ∧ ∀ x < s.fsParams.blockSize, t.fsData x = s.fsData x

theorem SameDir.nameField (h : SameDir s t) (hi : i < s.maxDirEntries) :
    t.nameField i = s.nameField i := by
  have hend := entry_end hi
  refine read_congr fun x _ hx => h.2 x ?_
  unfold maxFileName at hx
  unfold dirEntrySize at *
  omega

theorem SameDir.dInumber (h : SameDir s t) (hi : i < s.maxDirEntries) :
    t.dInumber 0 i = s.dInumber 0 i := by
  have hend := entry_end hi
  have hread : read t.fsData (0 + dirEntrySize * i + maxFileName) 4
      = read s.fsData (0 + dirEntrySize * i + maxFileName) 4 := by
    refine read_congr fun x _ hx => h.2 x ?_
    unfold maxFileName at hx
    unfold dirEntrySize at *
    omega
  rw [State.dInumber, hread, State.dInumber]

theorem SameDir.entry (h : SameDir s t) (hi : i < s.maxDirEntries) : t.entry i = s.entry i := by
  rw [State.entry, State.entry, h.nameField hi, h.dInumber hi]

theorem SameDir.maxDirEntries (h : SameDir s t) : t.maxDirEntries = s.maxDirEntries := by
  rw [State.maxDirEntries, State.maxDirEntries, h.1]

theorem SameDir.lookup (h : SameDir s t) (n : CStr) : t.lookup n = s.lookup n := by
  have hslot : t.slotOf n = s.slotOf n := by
    unfold State.slotOf
    rw [h.maxDirEntries]
    exact firstIndex_congr fun i hi => by rw [State.isNamed, h.entry hi, State.isNamed]
  unfold State.lookup
  rw [hslot]
  cases hs : s.slotOf n with
  | none => rw [Option.bind_none, Option.bind_none]
  | some i =>
    unfold State.slotOf at hs
    rw [Option.bind_some, Option.bind_some, h.entry (firstIndex_eq_some.mp hs).1]

/-- The format only looks at the bytes of the directory block. -/
theorem DirFormat.of_same (hf : DirFormat s) (h : SameDir s t) : DirFormat t := by
  refine ⟨fun i hi n k he => ?_, fun i hi j hj n k k' he he' => ?_, ?_⟩
  · rw [h.maxDirEntries] at hi
    rw [h.entry hi] at he
    rw [h.nameField hi, h.dInumber hi]
    exact hf.named i hi n k he
  · rw [h.maxDirEntries] at hi hj
    rw [h.entry hi] at he
    rw [h.entry hj] at he'
    exact hf.distinct i hi j hj n k k' he he'
  · obtain ⟨m, hm, hm'⟩ := hf.neverUsed
    refine ⟨min m s.maxDirEntries, fun i hi he => ?_, fun i hi hlt => ?_⟩
    · have hi' : i < s.maxDirEntries := by omega
      have hend := entry_end hi'
      rw [h.entry hi'] at he
      rw [h.2 _ (by unfold dirEntrySize at *; omega)]
      exact hm i (by omega) he
    · rw [h.maxDirEntries] at hlt
      rw [h.entry hlt]
      exact hm' i (by omega) hlt

/-! ## The directory functions -/

/-- The root inode as `tfs_init` leaves it. -/
structure RootWf (s : State) : Prop extends Sized s where
  inode_pos : 0 < s.fsParams.maxInodeCount
  block_pos : 0 < s.fsParams.maxBlockCount
  root_inode : s.inodeTable 0 = ⟨.tDirectory, s.fsParams.blockSize, 0⟩

theorem scanDir_eq (h : RootWf s) (hit : Nat → Bool) :
    s.scanDir 0 hit = .ok (firstIndex hit s.maxDirEntries) := by
  have hone := Nat.le_mul_of_pos_left s.fsParams.blockSize h.block_pos
  exact scan_of_le (Nat.div_le_div_right (by rw [Nat.sub_zero]; exact hone.trans h.data))

theorem rootBlock_eq (h : RootWf s) : dataBlockGet s (s.inodeTable 0).iDataBlock = .ok 0 := by
  have := dataBlockGet_of h.block_pos
  rw [Nat.zero_mul] at this
  rw [h.root_inode]
  exact this

/-- What `find_in_dir` returns: the inumber of the name, or -1. -/
def foundInumber : Option Nat → Int
  | some k => k
  | none => -1

theorem lookup_of_slot (hi : s.slotOf n = some i) : s.lookup n = (s.entry i).map (·.2) := by
  unfold State.lookup
  rw [hi, Option.bind_some]

theorem lookup_of_no_slot (hn : s.slotOf n = none) : s.lookup n = none := by
  unfold State.lookup
  rw [hn, Option.bind_none]

/-- The test of `find_in_dir` hits the entry used for the name. -/
theorem firstIndex_find (hf : DirFormat s) (n : CStr) :
    firstIndex (fun i => s.dInumber 0 i != -1 && s.nameStrncmp 0 i n) s.maxDirEntries
      = s.slotOf n := by
  refine firstIndex_congr fun i hi => ?_
  rw [Bool.eq_iff_iff, Bool.and_eq_true, bne_iff_ne, isNamed_iff]
  constructor
  · rintro ⟨hused, hcmp⟩
    have he : s.entry i = some (.ofBytes (s.nameField i), (s.dInumber 0 i).toNat) := by
      rw [State.entry, if_neg hused]
    obtain ⟨hname, -, hlen, -⟩ := hf.named i hi _ _ he
    rw [(nameStrncmp_iff hname hlen).mp hcmp] at he
    exact ⟨_, he⟩
  · rintro ⟨k, hk⟩
    obtain ⟨hname, -, hlen, hnum⟩ := hf.named i hi n k hk
    exact ⟨by rw [hnum]; omega, (nameStrncmp_iff hname hlen).mpr rfl⟩

theorem dInumber_slot (hf : DirFormat s) (hs : s.slotOf n = some i) :
    s.dInumber 0 i = foundInumber (s.lookup n) := by
  obtain ⟨hi, k, hk⟩ := (slotOf_eq_some hf).mp hs
  obtain ⟨-, -, -, hnum⟩ := hf.named i hi n k hk
  rw [lookup_of_slot hs, hk, hnum]
  rfl

theorem findInDir_eq (h : RootWf s) (hf : DirFormat s) (n : CStr) :
    findInDir s 0 n = .ok (foundInumber (s.lookup n)) := by
  have hdir : ¬ (s.inodeTable 0).iNodeType ≠ .tDirectory := by simp [h.root_inode]
  simp only [findInDir, if_neg hdir, rootBlock_eq h, ok_bind, scanDir_eq h, firstIndex_find hf]
  cases hs : s.slotOf n with
  | none =>
    rw [lookup_of_no_slot hs]
    rfl
  | some i =>
    rw [← dInumber_slot hf hs]
    exact pure_eq_ok _

theorem addDirEntry_eq (h : RootWf s) (hlen : 0 < n.length) (hlen' : n.length ≤ 39) (k : Int) :
    addDirEntry s 0 n k = .ok (match s.freeSlot with
      | some i => (s.setEntry 0 i (dNameOf n) k, 0)
      | none => (s, -1)) := by
  have hname : ¬ (n.length = 0 ∨ n.length > maxFileName - 1) := by
    unfold maxFileName
    omega
  have hscan : firstIndex (s.dInumber 0 · == -1) s.maxDirEntries = s.freeSlot :=
    firstIndex_congr fun i _ => by
      rw [Bool.eq_iff_iff, beq_iff_eq, State.entry]
      split <;> simp [*]
  have hdir : ¬ (s.inodeTable 0).iNodeType ≠ .tDirectory := by simp [h.root_inode]
  simp only [addDirEntry, if_neg hname, if_neg hdir, rootBlock_eq h, ok_bind, scanDir_eq h, hscan]
  cases s.freeSlot <;> rfl

theorem addDirEntry_of_long (hlen : n.length > 39) (k : Int) :
    addDirEntry s 0 n k = .ok (s, -1) := by
  have hname : n.length = 0 ∨ n.length > maxFileName - 1 := Or.inr hlen
  simp [addDirEntry, hname]

/-- The test of `clear_dir_entry` hits the entry used for the name: the entries
before it are used for other names or have an empty one. -/
theorem firstIndex_clear (hf : DirFormat s) (hi : i < s.maxDirEntries)
    (he : s.entry i = some (n, k)) : firstIndex (s.nameStrcmp 0 · n) s.maxDirEntries = some i := by
  obtain ⟨hname, hpos, hlen, -⟩ := hf.named i hi n k he
  refine firstIndex_eq_some.mpr ⟨hi, (nameStrcmp_iff hname hlen hlen).mpr rfl, fun j hj => ?_⟩
  cases hej : s.entry j with
  | none =>
    obtain ⟨m, hm, hm'⟩ := hf.neverUsed
    have hjm : j < m := by
      by_contra hge
      rw [hm' i (by omega) hi] at he
      cases he
    exact nameStrcmp_of_empty (hm j hjm hej) hpos
  | some e =>
    obtain ⟨n', k'⟩ := e
    obtain ⟨hname', -, hlen', -⟩ := hf.named j (by omega) n' k' hej
    rw [Bool.eq_false_iff, Ne, nameStrcmp_iff hname' hlen' hlen]
    rintro rfl
    have := hf.distinct j (by omega) i hi n' k' k hej he
    omega

/-- `clear_dir_entry` clears the entry that `find_in_dir` matches. -/
theorem clearDirEntry_of (h : RootWf s) (hf : DirFormat s) (hi : i < s.maxDirEntries)
    (he : s.entry i = some (n, k)) :
    clearDirEntry s 0 n = .ok (s.setEntry 0 i (List.replicate maxFileName 0) (-1), 0) := by
  have hdir : ¬ (s.inodeTable 0).iNodeType ≠ .tDirectory := by simp [h.root_inode]
  simp [clearDirEntry, hdir, rootBlock_eq h, scanDir_eq h, firstIndex_clear hf hi he]

/-! ## Both updates keep the format -/

theorem DirFormat.add (hf : DirFormat s) (hslot : s.freeSlot = some i) (hpos : 0 < n.length)
    (hlen : n.length ≤ 39) (hk : k < 2147483648) (hnew : s.lookup n = none) :
    DirFormat (s.setEntry 0 i (dNameOf n) k) := by
  have hnone := (lookup_eq_none hf).mp hnew
  have hlen40 := length_dNameOf hlen
  obtain ⟨hi, hfree, hbefore⟩ := freeSlot_eq_some hslot
  refine ⟨fun j hj n' k' he => ?_, fun j hj l hl n' k1 k2 h1 h2 => ?_, ?_⟩
  · rw [entry_setEntry hlen hk] at he
    by_cases hji : j = i
    · subst hji
      rw [if_pos rfl] at he
      cases he
      exact ⟨nameField_setEntry_self hlen40, hpos, hlen,
        dInumber_setEntry_self hlen40 (by omega) (by omega)⟩
    · rw [if_neg hji] at he
      rw [nameField_setEntry_of_ne hlen40 hji, dInumber_setEntry_of_ne hlen40 hji]
      exact hf.named j hj n' k' he
  · rw [entry_setEntry hlen hk] at h1 h2
    split at h1 <;> split at h2
    · omega
    · cases h1
      exact absurd h2 (hnone l hl k2)
    · cases h2
      exact absurd h1 (hnone j hj k1)
    · exact hf.distinct j hj l hl n' k1 k2 h1 h2
  · -- the entries below the first unused one are all used
    obtain ⟨m, hm, hm'⟩ := hf.neverUsed
    refine ⟨max m (i + 1), fun j hj he => ?_, fun j hj hlt => ?_⟩
    · rw [entry_setEntry hlen hk] at he
      split at he
      · cases he
      · next hji =>
        rw [setEntry_first_of_ne hlen40 hji]
        rcases Nat.lt_or_ge j m with hlt | hge
        · exact hm j hlt he
        · exact absurd he (hbefore j (by omega))
    · rw [entry_setEntry hlen hk, if_neg (by omega)]
      exact hm' j (by omega) hlt

theorem DirFormat.clear (hf : DirFormat s) :
    DirFormat (s.setEntry 0 i (List.replicate maxFileName 0) (-1)) := by
  have hlen40 : (List.replicate maxFileName (0 : UInt8)).length = 40 := by simp [maxFileName]
  have hsub : ∀ j e, (s.setEntry 0 i (List.replicate maxFileName 0) (-1)).entry j = some e →
      j ≠ i ∧ s.entry j = some e := by
    intro j e he
    rw [entry_clearEntry] at he
    split at he
    · cases he
    · next hji => exact ⟨hji, he⟩
  refine ⟨fun j hj n' k' he => ?_, fun j hj l hl n' k1 k2 h1 h2 => ?_, ?_⟩
  · obtain ⟨hji, he'⟩ := hsub j _ he
    rw [nameField_setEntry_of_ne hlen40 hji, dInumber_setEntry_of_ne hlen40 hji]
    exact hf.named j hj n' k' he'
  · exact hf.distinct j hj l hl n' k1 k2 (hsub j _ h1).2 (hsub l _ h2).2
  · obtain ⟨m, hm, hm'⟩ := hf.neverUsed
    refine ⟨m, fun j hj he => ?_, fun j hj hlt => ?_⟩
    · by_cases hji : j = i
      · subst hji
        exact clearEntry_first
      · rw [entry_clearEntry, if_neg hji] at he
        rw [setEntry_first_of_ne hlen40 hji]
        exact hm j hj he
    · rw [entry_clearEntry]
      split
      · rfl
      · exact hm' j hj hlt

end MBroker.Fs
