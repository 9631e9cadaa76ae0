import MBroker.Broker.Table

/-!
# Boxes and their files

The file of a box is called like the box, without the slash. `Named` says that the
boxes in use and the files correspond; each file takes an inode and a directory
entry, so the two tables of TecnicoFS fill up with the box table.

Results:
1. `Named.create`, `Named.remove`: a box and its file come and go together.
2. `freeInode_eq_none_iff`: the inodes run out one box before the box table does,
   because the root directory has one of them.
3. `freeSlot_ne_none`: the directory never fills up.
-/

namespace MBroker

open FirstFit Fs

namespace Broker

variable {b x : Broker} {i : Nat} {p q : CStr} {t : Fs.State}

/-- A box of this name is in use. -/
def HasBox (b : Broker) (p : CStr) : Prop :=
  ∃ i < maxBoxes, b.freeBoxes i = false ∧ (b.boxes i).boxName.str = p

/-- The boxes in use have the files, and no one else. -/
structure Named (b : Broker) : Prop where
  valid : ∀ p, b.HasBox p → validPathname (some p) = true
  files : ∀ n, b.tfs.file n ≠ none ↔ ∃ p, b.HasBox p ∧ p.tail = n

theorem ne_empty_of_valid (h : validPathname (some p) = true) : p ≠ .empty := by
  rintro rfl
  cases h

theorem HasBox.getBox (h : b.HasBox p) : b.getBox p ≠ none := by
  obtain ⟨i, hi, -, hp⟩ := h
  exact fun hnone => getBox_eq_none.mp hnone i hi hp

theorem TableInvariant.hasBox (h : TableInvariant b) (hne : p ≠ .empty) :
    b.HasBox p ↔ b.getBox p ≠ none := by
  refine ⟨HasBox.getBox, fun hg => ?_⟩
  obtain ⟨i, hi⟩ := Option.ne_none_iff_exists'.mp hg
  exact ⟨i, getBox_lt hi, h.getBox_used hi hne, (getBox_eq_some hi).2⟩

theorem SameTable.hasBox (h : SameTable b x) (p : CStr) : x.HasBox p ↔ b.HasBox p := by
  unfold HasBox
  rw [h.freeBoxes]
  simp only [h.boxName]

/-- A valid name: there is a file exactly if there is a box. -/
theorem Named.file_iff (h : Named b) (hv : validPathname (some p) = true) :
    b.tfs.file p.tail ≠ none ↔ b.HasBox p := by
  rw [h.files]
  constructor
  · rintro ⟨q, hq, htail⟩
    exact path_of_tail (h.valid q hq) hv htail ▸ hq
  · intro hp
    exact ⟨p, hp, rfl⟩

/-! ## Creating and removing -/

theorem hasBox_addBox {boxName : CharArray 32} (hi : firstIndex b.freeBoxes maxBoxes = some i) :
    (b.addBox i boxName).HasBox q ↔ q = boxName.str ∨ b.HasBox q := by
  obtain ⟨hlt, hfree, -⟩ := firstIndex_eq_some.mp hi
  have hself : (b.addBox i boxName).freeBoxes i = false := Function.update_self ..
  have hname : ((b.addBox i boxName).boxes i).boxName.str = boxName.str := by
    rw [addBox, setBox_self, CharArray.str_terminate]
  have hother : ∀ j, j ≠ i → (b.addBox i boxName).freeBoxes j = b.freeBoxes j ∧
      (b.addBox i boxName).boxes j = b.boxes j := fun j hj =>
    ⟨Function.update_of_ne hj .., Function.update_of_ne hj ..⟩
  constructor
  · rintro ⟨j, hj, hused, hq⟩
    rcases eq_or_ne j i with rfl | hji
    · exact Or.inl (hq.symm.trans hname)
    · rw [(hother j hji).1] at hused
      rw [(hother j hji).2] at hq
      exact Or.inr ⟨j, hj, hused, hq⟩
  · rintro (rfl | ⟨j, hj, hused, hq⟩)
    · exact ⟨i, hlt, hself, hname⟩
    · have hji : j ≠ i := by
        rintro rfl
        rw [hfree] at hused
        cases hused
      exact ⟨j, hj, (hother j hji).1.trans hused, (hother j hji).2 ▸ hq⟩

theorem hasBox_dropBox (h : TableInvariant b) (hi : b.getBox p = some i) (hne : p ≠ .empty)
    (t : Fs.State) : (b.dropBox i t).HasBox q ↔ q ≠ p ∧ b.HasBox q := by
  have hused := h.getBox_used hi hne
  obtain ⟨hlt, hname⟩ := getBox_eq_some hi
  have hself : (b.dropBox i t).freeBoxes i = true := Function.update_self ..
  have hother : ∀ j, j ≠ i → (b.dropBox i t).freeBoxes j = b.freeBoxes j ∧
      (b.dropBox i t).boxes j = b.boxes j := fun j hj =>
    ⟨Function.update_of_ne hj .., Function.update_of_ne hj ..⟩
  constructor
  · rintro ⟨j, hj, hjused, hq⟩
    have hji : j ≠ i := by
      rintro rfl
      rw [hself] at hjused
      cases hjused
    rw [(hother j hji).1] at hjused
    rw [(hother j hji).2] at hq
    refine ⟨fun hqp => hji ?_, j, hj, hjused, hq⟩
    exact h.distinct j hj i hlt hjused hused (by rw [hq, hname, hqp])
  · rintro ⟨hqp, j, hj, hjused, hq⟩
    have hji : j ≠ i := by
      rintro rfl
      exact hqp (hq.symm.trans hname)
    exact ⟨j, hj, (hother j hji).1.trans hjused, (hother j hji).2 ▸ hq⟩

theorem Named.of_same (h : Named b) (hbox : ∀ q, x.HasBox q ↔ b.HasBox q)
    (hfile : ∀ n, x.tfs.file n ≠ none ↔ b.tfs.file n ≠ none) : Named x where
  valid q hq := h.valid q ((hbox q).mp hq)
  files n := by
    rw [hfile, h.files]
    exact exists_congr fun q => and_congr_left fun _ => (hbox q).symm

/-- The box `p` has come, and its file. -/
theorem Named.create (h : Named b) (hv : validPathname (some p) = true)
    (hbox : ∀ q, x.HasBox q ↔ q = p ∨ b.HasBox q)
    (hfile : ∀ n, x.tfs.file n ≠ none ↔ n = p.tail ∨ b.tfs.file n ≠ none) : Named x where
  valid q hq := by
    rcases (hbox q).mp hq with rfl | hold
    · exact hv
    · exact h.valid q hold
  files n := by
    rw [hfile, h.files]
    constructor
    · rintro (rfl | ⟨q, hq, htail⟩)
      · exact ⟨p, (hbox p).mpr (Or.inl rfl), rfl⟩
      · exact ⟨q, (hbox q).mpr (Or.inr hq), htail⟩
    · rintro ⟨q, hq, rfl⟩
      rcases (hbox q).mp hq with rfl | hold
      · exact Or.inl rfl
      · exact Or.inr ⟨q, hold, rfl⟩

/-- The box `p` has gone, and its file. -/
theorem Named.remove (h : Named b) (hv : validPathname (some p) = true)
    (hbox : ∀ q, x.HasBox q ↔ q ≠ p ∧ b.HasBox q)
    (hfile : ∀ n, x.tfs.file n ≠ none ↔ n ≠ p.tail ∧ b.tfs.file n ≠ none) : Named x where
  valid q hq := h.valid q ((hbox q).mp hq).2
  files n := by
    rw [hfile, h.files]
    constructor
    · rintro ⟨hne, q, hq, rfl⟩
      exact ⟨q, (hbox q).mpr ⟨fun hqp => hne (congrArg CStr.tail hqp), hq⟩, rfl⟩
    · rintro ⟨q, hq, rfl⟩
      obtain ⟨hne, hold⟩ := (hbox q).mp hq
      exact ⟨fun htail => hne (path_of_tail (h.valid q hold) hv htail), q, hold, rfl⟩

/-! ## How full TecnicoFS is -/

/-- Inode `k` is that of the box in slot `i`. -/
def InodeOf (b : Broker) (k i : Nat) : Prop :=
  i < maxBoxes ∧ b.freeBoxes i = false ∧ b.tfs.lookup (b.boxes i).boxName.str.tail = some k

/-- There is one live inode for each box in use. -/
theorem count_live (hwf : WellFormed b.tfs) (htable : TableInvariant b) (hnamed : Named b) :
    Nat.count (fun k => k ≠ 0 ∧ b.tfs.freeinodeTs k = .taken) b.tfs.fsParams.maxInodeCount
      = Nat.count (fun i => b.freeBoxes i = false) maxBoxes := by
  refine Nat.le_antisymm ?_ ?_
  · refine count_le_of_rel b.InodeOf (fun k hk hlive => ?_) fun k _ k' _ i h h' => ?_
    · obtain ⟨n, hn⟩ := hwf.linked.named k ⟨Nat.pos_of_ne_zero hlive.1, hk, hlive.2⟩
      have hfile : b.tfs.file n ≠ none := by
        rw [file_of_lookup hn]
        exact Option.some_ne_none _
      obtain ⟨p, ⟨i, hi, hused, hp⟩, rfl⟩ := (hnamed.files n).mp hfile
      exact ⟨i, hi, hused, hi, hused, hp ▸ hn⟩
    · exact Option.some.inj (h.2.2.symm.trans h'.2.2)
  · refine count_le_of_rel (fun i k => b.InodeOf k i) (fun i hi hused => ?_)
      fun i _ j _ k h h' => ?_
    · have hfile := (hnamed.files _).mpr ⟨_, ⟨i, hi, hused, rfl⟩, rfl⟩
      obtain ⟨k, hk⟩ := Option.ne_none_iff_exists'.mp (mt file_eq_none.mpr hfile)
      have hlive := hwf.linked.live _ k hk
      exact ⟨k, hlive.lt, ⟨Nat.ne_of_gt hlive.pos, hlive.taken⟩, hi, hused, hk⟩
    · have htail := hwf.linked.inj _ _ k h.2.2 h'.2.2
      have hvalid : ∀ j, b.InodeOf k j → validPathname (some (b.boxes j).boxName.str) = true :=
        fun j hj => hnamed.valid _ ⟨j, hj.1, hj.2.1, rfl⟩
      exact htable.distinct i h.1 j h'.1 h.2.1 h'.2.1
        (path_of_tail (hvalid i h) (hvalid j h') htail)

/-- The root directory has an inode too. -/
theorem freeInode_eq_none_iff (hwf : WellFormed b.tfs) (htable : TableInvariant b)
    (hnamed : Named b) :
    b.tfs.freeInode = none ↔ b.numBoxes + 1 = b.tfs.fsParams.maxInodeCount := by
  have htaken : Nat.count (fun k => b.tfs.freeinodeTs k = .taken) b.tfs.fsParams.maxInodeCount
      = Nat.count (fun k => k ≠ 0 ∧ b.tfs.freeinodeTs k = .taken)
        b.tfs.fsParams.maxInodeCount + 1 :=
    count_gain hwf.root.inode_pos (fun h => h.1 rfl) hwf.linked.root_taken fun k _ hk =>
      ⟨fun h => ⟨hk, h⟩, fun h => h.2⟩
  have hfull : b.tfs.freeInode = none ↔
      Nat.count (fun k => b.tfs.freeinodeTs k = .taken) b.tfs.fsParams.maxInodeCount
        = b.tfs.fsParams.maxInodeCount :=
    firstIndex_none_iff_count fun _ => AllocationState.taken_iff
  rw [hfull, htaken, count_live hwf htable hnamed, htable.numBoxes]
  omega

/-- Entry `j` of the directory is that of the box in slot `i`. -/
def EntryOf (b : Broker) (j i : Nat) : Prop :=
  ∃ k, b.tfs.entry j = some ((b.boxes i).boxName.str.tail, k)

theorem freeSlot_ne_none (hwf : WellFormed b.tfs)
    (hfiles : ∀ n, b.tfs.file n ≠ none → ∃ p, b.HasBox p ∧ p.tail = n)
    (hroom : maxBoxes < b.tfs.maxDirEntries) : b.tfs.freeSlot ≠ none := by
  intro hnone
  have hall := firstIndex_eq_none.mp hnone
  have hle : Nat.count (fun _ => True) b.tfs.maxDirEntries
      ≤ Nat.count (fun i => b.freeBoxes i = false) maxBoxes := by
    refine count_le_of_rel b.EntryOf (fun j hj _ => ?_) fun j hj j' hj' i h h' => ?_
    · obtain ⟨⟨n, k⟩, he⟩ := Option.isSome_iff_exists.mp (Option.isNone_eq_false_iff.mp (hall j hj))
      have hlook : b.tfs.lookup n = some k := (lookup_eq_some hwf.dir).mpr ⟨j, hj, he⟩
      have hfile : b.tfs.file n ≠ none := by
        rw [file_of_lookup hlook]
        exact Option.some_ne_none _
      obtain ⟨p, ⟨i, hi, hused, rfl⟩, rfl⟩ := hfiles n hfile
      exact ⟨i, hi, hused, k, he⟩
    · obtain ⟨k, hk⟩ := h
      obtain ⟨k', hk'⟩ := h'
      exact hwf.dir.distinct j hj j' hj' _ k k' hk hk'
  rw [Nat.count_true] at hle
  have := Nat.count_le (p := fun i => b.freeBoxes i = false) (n := maxBoxes)
  omega

end Broker

end MBroker
