import MBroker.Broker.Progress
import MBroker.Broker.Start

/-!
# The box table

Which slots of `boxes` are in use is written down three times: in `free_boxes`, in
`num_boxes`, and in the names, which are empty in free slots. `create_box` and
`remove_box` change them one after the other under `boxes_lock`; `get_box` looks
only at the names.

Results:
1. `createSection_cases`, `removeBox_of`: what the two sections do to the table.
2. `TableInvariant.addBox`, `TableInvariant.dropBox`: both keep it consistent.
3. `table_invariant`: so it is in every run of create and remove requests, until a
   handler returns -1, and `create_box` finds a free slot.
-/

namespace MBroker

open FirstFit Transition

namespace Broker

variable {b b' x : Broker} {w i : Nat} {name : CStr}

/-- The three representations of the slots in use agree. -/
structure TableInvariant (b : Broker) : Prop where
  numBoxes : b.numBoxes = Nat.count (fun i => b.freeBoxes i = false) maxBoxes
  le : b.numBoxes ≤ maxBoxes
  free : ∀ i < maxBoxes, b.freeBoxes i = true ↔ (b.boxes i).boxName.str = .empty
  distinct : ∀ i < maxBoxes, ∀ j < maxBoxes, b.freeBoxes i = false → b.freeBoxes j = false →
    (b.boxes i).boxName.str = (b.boxes j).boxName.str → i = j

/-- The table is the same, up to sizes and counters. -/
structure SameTable (b x : Broker) : Prop where
  numBoxes : x.numBoxes = b.numBoxes
  freeBoxes : x.freeBoxes = b.freeBoxes
  boxName : ∀ i, (x.boxes i).boxName = (b.boxes i).boxName

theorem Kept.sameTable (h : Kept b x) : SameTable b x := ⟨h.numBoxes, h.freeBoxes, h.boxName⟩

theorem SameTable.refl (b : Broker) : SameTable b b := ⟨rfl, rfl, fun _ => rfl⟩

theorem TableInvariant.of_same (h : TableInvariant b) (hs : SameTable b x) : TableInvariant x where
  numBoxes := by rw [hs.numBoxes, hs.freeBoxes, h.numBoxes]
  le := by rw [hs.numBoxes]; exact h.le
  free i hi := by rw [hs.freeBoxes, hs.boxName]; exact h.free i hi
  distinct i hi j hj := by rw [hs.freeBoxes, hs.boxName, hs.boxName]; exact h.distinct i hi j hj

/-! ## Looking up a name -/

theorem getBox_eq_some (h : b.getBox name = some i) :
    i < maxBoxes ∧ (b.boxes i).boxName.str = name := by
  obtain ⟨hi, hn, -⟩ := firstIndex_eq_some.mp h
  exact ⟨hi, by simpa using hn⟩

theorem getBox_eq_none : b.getBox name = none ↔ ∀ i < maxBoxes, (b.boxes i).boxName.str ≠ name := by
  rw [getBox, firstIndex_eq_none]
  exact forall₂_congr fun i _ => by simp

/-- A name that is not empty is found in a slot in use. -/
theorem TableInvariant.getBox_used (h : TableInvariant b) (hg : b.getBox name = some i)
    (hne : name ≠ .empty) : b.freeBoxes i = false := by
  obtain ⟨hi, hn⟩ := getBox_eq_some hg
  rw [← Bool.not_eq_true, h.free i hi, hn]
  exact hne

/-- While the count is not at its limit there is a free slot. -/
theorem TableInvariant.freeSlot (h : TableInvariant b) (hn : b.numBoxes ≠ maxBoxes) :
    ∃ i, firstIndex b.freeBoxes maxBoxes = some i := by
  rw [← Option.isSome_iff_exists, Option.isSome_iff_ne_none]
  intro hnone
  have hall := firstIndex_eq_none.mp hnone
  have hcount : Nat.count (fun i => b.freeBoxes i = false) maxBoxes = maxBoxes :=
    Nat.count_iff_forall.mpr hall
  rw [h.numBoxes, hcount] at hn
  exact hn rfl

/-! ## Creating -/

/-- The box that `create_box` puts into slot `i`. -/
def addBox (b : Broker) (i : Nat) (boxName : CharArray 32) : Broker :=
  ({ b with numBoxes := b.numBoxes + 1, freeBoxes := Function.update b.freeBoxes i false }).setBox i
    { boxName := boxName.terminate
      boxSize := 0
      nPublishers := 0
      nSubscribers := 0
      cond := (b.boxes i).cond + 1
      lock := none }

theorem createBox_of {boxName : CharArray 32} (hi : firstIndex b.freeBoxes maxBoxes = some i) :
    b.createBox boxName true = (b.addBox i boxName, 0) := by
  have hne : ¬ ((i : Int) = -1) := by omega
  simp [createBox, getFreeBox, hi, hne, addBox]

/-- What the section of `handle_tfs_create_box` under `boxes_lock` does: it rejects
the request, or fills the first free slot, or finds none. -/
theorem createSection_cases (b : Broker) (w : Nat) (malloced : Bool) :
    (∃ errorMsg, b.createSection w malloced = (b, -1, errorMsg) ∧
      (b.numBoxes = maxBoxes ∨ b.getBox (b.clients w).boxName.str ≠ none ∨ malloced = false)) ∨
    (b.numBoxes ≠ maxBoxes ∧ b.getBox (b.clients w).boxName.str = none ∧ malloced = true ∧
      ((∃ i, firstIndex b.freeBoxes maxBoxes = some i ∧
          b.createSection w malloced = (b.addBox i (b.clients w).boxName, 0, "")) ∨
        (firstIndex b.freeBoxes maxBoxes = none ∧ b.createSection w malloced
          = ({ b with numBoxes := b.numBoxes + 1 }, -1, "Failed to create box")))) := by
  unfold createSection
  by_cases hfull : b.numBoxes = maxBoxes
  · exact Or.inl ⟨_, if_pos hfull, Or.inl hfull⟩
  by_cases hname : b.getBox (b.clients w).boxName.str ≠ none
  · exact Or.inl ⟨"Box already exists", by simp only [if_neg hfull, if_pos hname],
      Or.inr (Or.inl hname)⟩
  cases malloced with
  | false =>
    refine Or.inl ⟨"Failed to create box", ?_, Or.inr (Or.inr rfl)⟩
    simp [hfull, hname, createBox]
  | true =>
    refine Or.inr ⟨hfull, by simpa using hname, rfl, ?_⟩
    cases hi : firstIndex b.freeBoxes maxBoxes with
    | some i =>
      refine Or.inl ⟨i, rfl, ?_⟩
      simp [hfull, hname, createBox_of hi]
    | none =>
      refine Or.inr ⟨rfl, ?_⟩
      simp [hfull, hname, createBox, getFreeBox, hi]

theorem TableInvariant.addBox (h : TableInvariant b) {boxName : CharArray 32}
    (hi : firstIndex b.freeBoxes maxBoxes = some i) (hnew : b.getBox boxName.str = none)
    (hn : b.numBoxes ≠ maxBoxes) : TableInvariant (b.addBox i boxName) := by
  obtain ⟨hlt, hfree, -⟩ := firstIndex_eq_some.mp hi
  have hself : (b.addBox i boxName).freeBoxes i = false := Function.update_self ..
  have hother : ∀ j, j ≠ i → (b.addBox i boxName).freeBoxes j = b.freeBoxes j := fun j hj =>
    Function.update_of_ne hj ..
  have hname : ((b.addBox i boxName).boxes i).boxName.str = boxName.str := by
    rw [Broker.addBox, setBox_self, CharArray.str_terminate]
  have hnameOther : ∀ j, j ≠ i → (b.addBox i boxName).boxes j = b.boxes j := fun j hj =>
    Function.update_of_ne hj ..
  have hslots := getBox_eq_none.mp hnew
  have hcount : Nat.count (fun j => (b.addBox i boxName).freeBoxes j = false) maxBoxes
      = Nat.count (fun j => b.freeBoxes j = false) maxBoxes + 1 :=
    count_gain hlt (by rw [hfree]; simp) hself fun j _ hj => by rw [hother j hj]
  have hnum : (b.addBox i boxName).numBoxes = b.numBoxes + 1 := rfl
  have hle := h.le
  refine ⟨?_, ?_, fun j hj => ?_, fun j hj k hk hfj hfk heq => ?_⟩
  · rw [hnum, hcount, h.numBoxes]
    rfl
  · rw [hnum]
    omega
  · by_cases hji : j = i
    · subst hji
      rw [hself, hname]
      refine iff_of_false (by simp) fun hempty => hslots j hlt ?_
      rw [hempty]
      exact (h.free j hlt).mp hfree
    · rw [hother j hji, hnameOther j hji]
      exact h.free j hj
  -- The new name is in no other slot, since `get_box` did not find it.
  · by_cases hji : j = i <;> by_cases hki : k = i
    · rw [hji, hki]
    · rw [hji, hname, hnameOther k hki] at heq
      exact absurd heq.symm (hslots k hk)
    · rw [hki, hname, hnameOther j hji] at heq
      exact absurd heq (hslots j hj)
    · rw [hother j hji] at hfj
      rw [hother k hki] at hfk
      rw [hnameOther j hji, hnameOther k hki] at heq
      exact h.distinct j hj k hk hfj hfk heq

/-! ## Removing -/

/-- Slot `i` emptied; `t` is TecnicoFS without its file. -/
def dropBox (b : Broker) (i : Nat) (t : Fs.State) : Broker :=
  ({ b with
      freeBoxes := Function.update b.freeBoxes i true
      tfs := t
      numBoxes := b.numBoxes - 1 }).setBox i
    { b.boxes i with
      boxName := (b.boxes i).boxName.clear
      boxSize := 0
      nPublishers := 0
      nSubscribers := 0 }

theorem removeBox_of (h : b.getBox name = some i) :
    b.removeBox name = match Fs.tfsUnlink b.tfs (some name) with
      | .error e => .error e
      | .ok (t, ret) =>
        if ret = -1 then
          .ok ({ b with freeBoxes := Function.update b.freeBoxes i true, tfs := t }, -1)
        else .ok (b.dropBox i t, 0) := by
  obtain ⟨-, hn⟩ := getBox_eq_some h
  simp only [removeBox, h, hn]
  cases Fs.tfsUnlink b.tfs (some name) with
  | error e => rfl
  | ok r =>
    obtain ⟨t, ret⟩ := r
    by_cases hret : ret = -1
    · simp [hret]
    · simp [hret, dropBox, setBox]

/-- What `remove_box` leaves when it returns `r`. -/
inductive RemovedBox (b : Broker) (name : CStr) : Broker → Int → Prop
  | absent : b.getBox name = none → RemovedBox b name b (-1)
  | linked {i : Nat} {t : Fs.State} :
      b.getBox name = some i → Fs.tfsUnlink b.tfs (some name) = .ok (t, -1) →
      RemovedBox b name { b with freeBoxes := Function.update b.freeBoxes i true, tfs := t } (-1)
  | dropped {i : Nat} {t : Fs.State} {ret : Int} : b.getBox name = some i →
      Fs.tfsUnlink b.tfs (some name) = .ok (t, ret) → ret ≠ -1 → RemovedBox b name (b.dropBox i t) 0

theorem removedBox_of (hr : b.removeBox name = .ok (x, r)) : RemovedBox b name x r := by
  cases hg : b.getBox name with
  | none =>
    rw [Broker.removeBox, hg] at hr
    cases hr
    exact .absent hg
  | some i =>
    rw [removeBox_of hg] at hr
    cases hu : Fs.tfsUnlink b.tfs (some name) with
    | error e =>
      rw [hu] at hr
      cases hr
    | ok u =>
      obtain ⟨t, ret⟩ := u
      rw [hu] at hr
      dsimp only at hr
      split at hr <;> cases hr
      · next hret => exact .linked hg (hret ▸ hu)
      · next hret => exact .dropped hg hu hret

theorem TableInvariant.dropBox (h : TableInvariant b) (hi : i < maxBoxes)
    (hused : b.freeBoxes i = false)
    (t : Fs.State) : TableInvariant (b.dropBox i t) := by
  have hself : (b.dropBox i t).freeBoxes i = true := Function.update_self ..
  have hother : ∀ j, j ≠ i → (b.dropBox i t).freeBoxes j = b.freeBoxes j := fun j hj =>
    Function.update_of_ne hj ..
  have hname : ((b.dropBox i t).boxes i).boxName.str = .empty := by
    rw [Broker.dropBox, setBox_self, CharArray.str_clear]
  have hnameOther : ∀ j, j ≠ i → (b.dropBox i t).boxes j = b.boxes j := fun j hj =>
    Function.update_of_ne hj ..
  have hcount : Nat.count (fun j => b.freeBoxes j = false) maxBoxes
      = Nat.count (fun j => (b.dropBox i t).freeBoxes j = false) maxBoxes + 1 :=
    count_gain hi (by rw [hself]; simp) hused fun j _ hj => by rw [hother j hj]
  have hnum : (b.dropBox i t).numBoxes = b.numBoxes - 1 := rfl
  have hle := h.le
  refine ⟨?_, ?_, fun j hj => ?_, fun j hj k hk hfj hfk heq => ?_⟩
  · rw [hnum, h.numBoxes, hcount]
    omega
  · rw [hnum]
    omega
  · by_cases hji : j = i
    · subst hji
      exact iff_of_true hself hname
    · rw [hother j hji, hnameOther j hji]
      exact h.free j hj
  · have hji : j ≠ i := by
      rintro rfl
      rw [hself] at hfj
      cases hfj
    have hki : k ≠ i := by
      rintro rfl
      rw [hself] at hfk
      cases hfk
    rw [hother j hji] at hfj
    rw [hother k hki] at hfk
    rw [hnameOther j hji, hnameOther k hki] at heq
    exact h.distinct j hj k hk hfj hfk heq

/-- An empty name is found in a free slot, but has no file to unlink. -/
theorem TableInvariant.removeBox (h : TableInvariant b) (hr : b.removeBox name = .ok (x, 0)) :
    TableInvariant x := by
  generalize hzero : (0 : Int) = r at hr
  cases removedBox_of hr with
  | absent => cases hzero
  | linked => cases hzero
  | dropped hg hu hret =>
    have hne : name ≠ .empty := by
      rintro rfl
      rw [Fs.tfsUnlink_invalid rfl] at hu
      cases hu
      exact hret rfl
    exact h.dropBox (getBox_lt hg) (h.getBox_used hg hne) _

theorem removeBox_pcs (hr : b.removeBox name = .ok (x, r)) : x.pcs = b.pcs := by
  cases removedBox_of hr <;> rfl

theorem removeBox_ret (hr : b.removeBox name = .ok (x, r)) : r = -1 ∨ r = 0 := by
  cases removedBox_of hr with
  | absent => exact Or.inl rfl
  | linked => exact Or.inl rfl
  | dropped => exact Or.inr rfl

/-- What the end of each session keeps, the loop keeps. -/
theorem finishSessions_induction {R : Broker → Broker → Prop} (hrefl : ∀ b, R b b)
    (htrans : ∀ b y x, R b y → R y x → R b x) (hfirst : ∀ b v, R b (b.finishClientSession v).1)
    (b : Broker) (self : Nat) (boxName : CStr) (i n : Nat) :
    R b (b.finishSessions self boxName i n).1 := by
  induction n generalizing b i with
  | zero => exact hrefl b
  | succ n ih =>
    unfold finishSessions
    split
    · dsimp only
      split
      · exact hfirst b i
      · exact htrans _ _ _ (hfirst b i) (ih _ _)
    · exact ih _ _

theorem finishSessions_kept (b : Broker) (self : Nat) (boxName : CStr) (i n : Nat) :
    Kept b (b.finishSessions self boxName i n).1 :=
  finishSessions_induction (fun b => (Frame.refl b self).toKept) (fun _ _ _ => Kept.trans)
    (fun b v => (finishClientSession_frame b v).toKept) b self boxName i n

theorem Kept.of_finish {self i n : Nat} {boxName : CStr} {ret : Int}
    (h : b.finishSessions self boxName i n = (x, ret)) : Kept b x := by
  have hkept := finishSessions_kept b self boxName i n
  rw [h] at hkept
  exact hkept

/-! ## Runs of create and remove requests -/

/-- Where a worker stands that serves no other requests. -/
def AdminAt : Pc → Prop
  | .idle | .ret _ | .closing | .createLock | .createOpen .. | .createFile .. | .removeLock
  | .removeOpen | .removeBody | .answering .. => True
  | _ => False

/-- A handler has returned -1. -/
def Failed (b : Broker) : Prop := ∃ w, b.pcs w = .ret (-1) ∨ b.pcs w = .closing

/-- Only create and remove requests come. -/
def AdminStep (_ : Broker) (e : Nat × Answer) : Prop :=
  ∀ r, e.2 = .request r → r.opcode = opCodeCreateBox ∨ r.opcode = opCodeRemoveBox

structure AdminInv (b : Broker) : Prop where
  admin : ∀ w, AdminAt (b.pcs w)
  table : b.Failed ∨ TableInvariant b

theorem AdminInv.table_of (h : AdminInv b) (hs : SameTable b x) (hp : x.pcs = b.pcs) :
    x.Failed ∨ TableInvariant x := by
  rcases h.table with ⟨v, hv⟩ | htable
  · exact Or.inl ⟨v, by rw [hp]; exact hv⟩
  · exact Or.inr (htable.of_same hs)

/-- The rule by which a section keeps the invariant: only its worker moves, and the
table is consistent again unless the handler has returned -1. -/
theorem AdminInv.update (h : AdminInv b) (pc : Pc) (hp : x.pcs = Function.update b.pcs w pc)
    (hat : AdminAt pc) (hold : b.pcs w ≠ .ret (-1) ∧ b.pcs w ≠ .closing)
    (htable : TableInvariant b → pc = .ret (-1) ∨ TableInvariant x) : AdminInv x := by
  refine ⟨fun v => ?_, ?_⟩
  · rw [hp]
    rcases eq_or_ne v w with rfl | hv
    · rw [Function.update_self]
      exact hat
    · rw [Function.update_of_ne hv]
      exact h.admin v
  · rcases h.table with ⟨v, hv⟩ | hok
    · have hvw : v ≠ w := by
        rintro rfl
        exact hv.elim hold.1 hold.2
      exact Or.inl ⟨v, by rw [hp, Function.update_of_ne hvw]; exact hv⟩
    · refine (htable hok).imp (fun hpc => ⟨w, Or.inl ?_⟩) id
      rw [hp, hpc, Function.update_self]

/-- A section that leaves the table as it is. -/
theorem AdminInv.move (h : AdminInv b) {pc : Pc} (hs : SameTable b x) (hp : x.pcs = b.pcs)
    (hat : AdminAt pc) (hold : b.pcs w ≠ .ret (-1) ∧ b.pcs w ≠ .closing) :
    AdminInv (x.setPc w pc) := by
  refine h.update pc ?_ hat hold fun hok => Or.inr ?_
  · rw [← hp]
    rfl
  · exact (hok.of_same hs).of_same ⟨rfl, rfl, fun _ => rfl⟩

theorem AdminInv.crash (h : AdminInv b) (hs : SameTable b x) (hp : x.pcs = b.pcs) :
    AdminInv x.crash := by
  refine ⟨fun v => ?_, ?_⟩
  · rw [show x.crash.pcs = x.pcs from rfl, hp]
    exact h.admin v
  · exact h.table_of (x := x.crash) ⟨hs.numBoxes, hs.freeBoxes, hs.boxName⟩ hp

theorem AdminInv.createSection (h : AdminInv b) (hpc : b.pcs w = .createLock) (malloced : Bool) :
    AdminInv ((b.createSection w malloced).1.setPc w
      (.createOpen (b.createSection w malloced).2.1 (b.createSection w malloced).2.2)) := by
  have hold : b.pcs w ≠ .ret (-1) ∧ b.pcs w ≠ .closing := by simp [hpc]
  rcases createSection_cases b w malloced with
    ⟨errorMsg, heq, -⟩ | ⟨hn, hnew, -, ⟨i, hi, heq⟩ | ⟨hnone, heq⟩⟩
  · rw [heq]
    exact h.move (.refl b) rfl trivial hold
  · rw [heq]
    refine h.update (.createOpen 0 "") rfl trivial hold fun htable => Or.inr ?_
    exact (htable.addBox hi hnew hn).of_same ⟨rfl, rfl, fun _ => rfl⟩
  · rw [heq]
    refine h.update (.createOpen (-1) "Failed to create box") rfl trivial hold
      fun htable => ?_
    obtain ⟨i, hi⟩ := htable.freeSlot hn
    rw [hnone] at hi
    cases hi

/-- The box is removed whole, or the handler returns -1. -/
theorem AdminInv.removes (h : AdminInv b) (hpc : b.pcs w = .removeBody) (hx : Removes b w x) :
    AdminInv x := by
  have hold : b.pcs w ≠ .ret (-1) ∧ b.pcs w ≠ .closing := by simp [hpc]
  cases hx with
  | absent => exact h.move (.refl b) rfl trivial hold
  | unfinished _ hfinish =>
    have hkept := Kept.of_finish hfinish
    exact h.move hkept.sameTable hkept.pcs trivial hold
  | crash _ hfinish =>
    have hkept := Kept.of_finish hfinish
    exact h.crash hkept.sameTable hkept.pcs
  | notUnlinked _ hfinish _ hr =>
    have hpcs := (removeBox_pcs hr).trans (Kept.of_finish hfinish).pcs
    exact h.update (.ret (-1)) (congrArg (Function.update · w _) hpcs)
      trivial hold fun _ => Or.inl rfl
  | removed _ hfinish _ hr hret =>
    have hkept := Kept.of_finish hfinish
    have hpcs := (removeBox_pcs hr).trans hkept.pcs
    obtain rfl := (removeBox_ret hr).resolve_left hret
    refine h.update _ (congrArg (Function.update · w _) hpcs) trivial hold fun htable => Or.inr ?_
    exact ((htable.of_same hkept.sameTable).removeBox hr).of_same ⟨rfl, rfl, fun _ => rfl⟩

theorem AdminInv.answered (h : AdminInv b) {locked : Bool} (hpc : b.pcs w = .answering [] locked) :
    AdminInv (b.answered w locked) := by
  have hold : b.pcs w ≠ .ret (-1) ∧ b.pcs w ≠ .closing := by simp [hpc]
  have hfinish : ∀ x : Broker, SameTable b x → x.pcs = b.pcs → AdminInv (x.returnFinish w) := by
    intro x hx hp
    have hkept := (finishClientSession_frame x w).toKept
    exact h.move ⟨hkept.numBoxes.trans hx.numBoxes, hkept.freeBoxes.trans hx.freeBoxes,
      fun i => (hkept.boxName i).trans (hx.boxName i)⟩ (hkept.pcs.trans hp) trivial hold
  cases locked with
  | true => exact hfinish _ ⟨rfl, rfl, fun _ => rfl⟩ rfl
  | false => exact hfinish _ (.refl b) rfl

theorem AdminInv.returned (h : AdminInv b) {result : Int} (hpc : b.pcs w = .ret result) :
    AdminInv (b.returned w result) := by
  unfold Broker.returned
  split
  · next hres =>
    subst hres
    split
    · exact h.crash (.refl b) rfl
    · refine ⟨fun v => ?_, Or.inl ⟨w, Or.inr (setPc_self ..)⟩⟩
      rcases eq_or_ne v w with rfl | hv
      · rw [setPc_self]
        trivial
      · rw [setPc_of_ne _ _ hv]
        exact h.admin v
  · next hres =>
    have hold : b.pcs w ≠ .ret (-1) ∧ b.pcs w ≠ .closing := by simp [hpc, hres]
    exact h.move (.refl b) rfl trivial hold

theorem adminAt_outside {pc : Pc} (h : AdminAt pc) : pc.InSession = false := by
  cases pc <;> first | rfl | cases h

theorem AdminInv.step (h : AdminInv b) {e : Nat × Answer} (hok : AdminStep b e)
    (hs : b.step e = some b') : AdminInv b' := by
  obtain ⟨w, a⟩ := e
  have hat := h.admin w
  have hserves := step_serves hs (adminAt_outside hat)
  generalize hpc : b.pcs w = pc at hat hserves
  have hmove : ∀ {x : Broker} {next : Pc}, pc ≠ .ret (-1) ∧ pc ≠ .closing →
      SameTable b x → x.pcs = b.pcs →
      AdminAt next → AdminInv (x.setPc w next) :=
    fun hold hx hpcs hnext => h.move hx hpcs hnext (hpc ▸ hold)
  -- The sections of registering and of listing have no place in such a run.
  cases hserves with
  | @request r =>
    have hnext : AdminAt (handlerOf r.opcode) := by
      rcases hok r rfl with hop | hop <;> rw [hop] <;> trivial
    refine h.update (handlerOf r.opcode) rfl hnext (by simp [hpc]) fun htable => Or.inr ?_
    exact htable.of_same ⟨rfl, rfl, fun _ => rfl⟩
  | returned => exact h.returned hpc
  | @opened pc _ _ _ hnext =>
    cases pc with
    | createOpen =>
      cases hnext
      exact hmove (by simp) ⟨rfl, rfl, fun _ => rfl⟩ rfl trivial
    | removeOpen =>
      cases hnext
      exact hmove (by simp) ⟨rfl, rfl, fun _ => rfl⟩ rfl trivial
    | _ => cases hnext <;> exact hat.elim
  | notOpened hpipe => rcases hpipe with rfl | rfl <;> exact hat.elim
  | createLock => exact h.createSection hpc _
  | createNotOpened => exact hmove (by simp) ⟨rfl, rfl, fun _ => rfl⟩ rfl trivial
  | createCrash => exact h.crash (.refl b) rfl
  | createFailed => exact hmove (by simp) ⟨rfl, rfl, fun _ => rfl⟩ rfl trivial
  | createFile => exact hmove (by simp) ⟨rfl, rfl, fun _ => rfl⟩ rfl trivial
  | removeLock => exact hmove (by simp) ⟨rfl, rfl, fun _ => rfl⟩ rfl trivial
  | removeNotOpened => exact hmove (by simp) ⟨rfl, rfl, fun _ => rfl⟩ rfl trivial
  | removeBody => exact h.removes hpc (removeBody_removes b w)
  | answering hx =>
    obtain ⟨s, rfl⟩ := emit_sent hx
    exact hmove (by simp) ⟨rfl, rfl, fun _ => rfl⟩ rfl trivial
  | notAnswered hx =>
    obtain ⟨s, rfl⟩ := emit_sent hx
    exact hmove (by simp) ⟨rfl, rfl, fun _ => rfl⟩ rfl trivial
  | answered => exact h.answered hpc
  | _ => exact hat.elim

theorem TableInvariant.of_start (maxSessions : Nat) (clients : Nat → Client) (m : Fs.Malloc)
    (fds : Nat → Bool) : TableInvariant (start maxSessions clients m fds) where
  numBoxes := by
    have hzero : Nat.count (fun _ => true = false) maxBoxes = 0 := by decide
    exact congrArg Nat.cast hzero.symm
  le := Int.natCast_nonneg maxBoxes
  free i _ := iff_of_true rfl (CharArray.str_ofStr .empty (by decide))
  distinct i _ j _ hi := nomatch hi

/-- In every run of create and remove requests in which no handler has returned -1
the table is consistent, and whoever is about to call `create_box` finds a free
slot. -/
theorem table_invariant (maxSessions : Nat) (clients : Nat → Client)
    (m : Fs.Malloc) (fds : Nat → Bool)
    {b : Broker} (hrun : Reaches Broker.step AdminStep (start maxSessions clients m fds) b)
    (hok : ¬ b.Failed) :
    TableInvariant b ∧ ∀ w, b.pcs w = .createLock → b.numBoxes ≠ maxBoxes →
      b.getBox (b.clients w).boxName.str = none → ∃ i,
      firstIndex b.freeBoxes maxBoxes = some i := by
  have hstart : AdminInv (start maxSessions clients m fds) :=
    ⟨fun _ => trivial, Or.inr (.of_start ..)⟩
  have hinv := hrun.invariant hstart fun _ _ _ h hmeets hs => h.step hmeets hs
  have htable := hinv.table.resolve_left hok
  exact ⟨htable, fun w _ hn _ => htable.freeSlot hn⟩

/-- A worker has taken a create request for `/a`, and has filled a slot. -/
def sampleCreate : List (Nat × Answer) :=
  [(0, .request (sampleRequest opCodeCreateBox)), (0, .malloced true)]

theorem table_invariant_created :
    ∃ b, exec Broker.step (fresh 1) sampleCreate = some b ∧ b.freeBoxes 0 = false ∧
      TableInvariant b := by
  have hrun : ∃ b, exec Broker.step (fresh 1) sampleCreate = some b ∧ b.freeBoxes 0 = false ∧
      b.pcs = Function.update (Function.update (fun _ => Pc.idle) 0 .createLock) 0
        (.createOpen 0 "") := ⟨_, rfl, rfl, rfl⟩
  obtain ⟨b, hb, hused, hpcs⟩ := hrun
  have hmeets : execOk Broker.step AdminStep (fresh 1) sampleCreate := by
    refine ⟨fun r hr => ?_, fun _ _ => ⟨fun _ hr => (nomatch hr), fun _ _ => trivial⟩⟩
    cases hr
    exact Or.inl rfl
  refine ⟨b, hb, hused, (table_invariant 1 _ _ _ (.of_exec hb hmeets) ?_).1⟩
  rintro ⟨v, hv⟩
  rw [hpcs, Function.update_idem] at hv
  rcases eq_or_ne v 0 with rfl | hne
  · simp at hv
  · simp [Function.update_of_ne hne] at hv

end Broker

end MBroker
