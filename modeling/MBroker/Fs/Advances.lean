import MBroker.Fs.Cursors
import MBroker.Fs.Offsets

/-!
# Offsets only grow

Whatever is called, a handle that is open stays open and its offset never goes back; the
library has no seek, and only `tfs_close` gives an entry back.

Results:
1. `Opened.advances`, `Unlinked.advances`, `Reread.advances`, `Overwritten.advances`: each call.
2. `tfsRead_delivers`: a read that finds something delivers as much as it says.
3. `tfsRead_moves`: and it moves its handle by that much.
-/

namespace MBroker.Fs

open FirstFit ByteMemory

variable {s t : State} {k fd len : Nat} {mode : Nat} {path : Option CStr} {fhandle ret : Int}
  {bytes buffer : List UInt8}

structure Advances (s t : State) : Prop where
  heap : t.heap = s.heap
  opened : ∀ fd, s.IsOpen fd → t.IsOpen fd
  offset : ∀ fd, s.IsOpen fd → (s.openFileTable fd).ofOffset ≤ (t.openFileTable fd).ofOffset

theorem Advances.refl (s : State) : Advances s s := ⟨rfl, fun _ => id, fun _ _ => Nat.le_refl _⟩

theorem openHandle_advances (s : State) (inum : Int) (offset : Nat) :
    Advances s (s.openHandle inum offset).1 := by
  unfold State.openHandle
  split
  · next j hj =>
    obtain ⟨-, hmark, -⟩ := firstIndex_eq_some.mp hj
    rw [beq_iff_eq] at hmark
    have hne : ∀ fd, s.IsOpen fd → fd ≠ j := by
      rintro fd hopen rfl
      cases hopen.2.symm.trans hmark
    refine ⟨rfl, fun fd hopen => ⟨hopen.1, ?_⟩, fun fd hopen => ?_⟩
    · exact (Function.update_of_ne (hne fd hopen) ..).trans hopen.2
    · dsimp only
      rw [Function.update_of_ne (hne fd hopen)]
  · exact .refl s

theorem Opened.advances (hno : hasFlag mode tfsOTrunc = false) (ho : Opened s path mode (t, ret)) :
    Advances s t := by
  generalize hres : (t, ret) = res at ho
  obtain rfl : t = res.1 := congrArg Prod.fst hres
  cases ho with
  | refused => exact .refl s
  | noEntry => exact ⟨rfl, fun _ => id, fun _ _ => Nat.le_refl _⟩
  | existing =>
    rw [openState_of_no_trunc hno]
    exact openHandle_advances ..
  | @created p k i =>
    have hnew := openHandle_advances (s.createFile k i p.tail) k 0
    exact ⟨hnew.heap, hnew.opened, hnew.offset⟩

theorem Unlinked.advances (hu : Unlinked s path (t, ret)) : Advances s t := by
  generalize hres : (t, ret) = res at hu
  obtain rfl : t = res.1 := congrArg Prod.fst hres
  cases hu with
  | refused => exact .refl s
  | removed => exact ⟨rfl, fun _ => id, fun _ _ => Nat.le_refl _⟩

/-- One handle goes forward, and nothing else of it changes. -/
theorem update_advances {table : Nat → OpenFileEntry} {file : OpenFileEntry}
    (hle : (table fd).ofOffset ≤ file.ofOffset) (fd' : Nat) :
    (table fd').ofOffset ≤ (Function.update table fd file fd').ofOffset := by
  rcases eq_or_ne fd' fd with rfl | hne
  · rwa [Function.update_self]
  · rw [Function.update_of_ne hne]

theorem Reread.advances (hr : Reread s fd (t, ret, bytes)) : Advances s t := by
  generalize hres : (t, ret, bytes) = res at hr
  obtain rfl : t = res.1 := congrArg Prod.fst hres
  cases hr with
  | nothing => exact .refl s
  | some => exact ⟨rfl, fun _ => id, fun fd' _ => update_advances (Nat.le_add_right ..) fd'⟩

theorem Overwritten.advances (hw : Overwritten s fd k buffer (t, ret)) : Advances s t := by
  generalize hres : (t, ret) = res at hw
  obtain rfl : t = res.1 := congrArg Prod.fst hres
  cases hw with
  | nothing => exact .refl s
  | full => exact .refl s
  | alloc => exact ⟨rfl, fun _ => id, fun fd' _ => update_advances (Nat.le_add_right ..) fd'⟩
  | own => exact ⟨rfl, fun _ => id, fun fd' _ => update_advances (Nat.le_add_right ..) fd'⟩

/-- `tfs_read` copies as many bytes as it counts. -/
theorem length_of_tfsRead (h : Robust s) (hh : s.handle fhandle = some fd) (hk : s.Refers fd k)
    (hr : tfsRead s fhandle len = .ok (t, ret, bytes)) : bytes.length = s.toRead fd k len := by
  have hsized := h.root.toSized
  obtain ⟨-, -, hend⟩ := tfsRead_ok h hh hk hr
  generalize hm : s.toRead fd k len = m at hend ⊢
  unfold State.toRead at hm
  by_cases hzero : m = 0
  · rw [tfsRead_nothing hsized hh hk.inumber hk.lt hm.symm hzero] at hr
    obtain rfl : [] = bytes := congrArg (fun r => r.2.2) (Except.ok.inj hr)
    exact hzero.symm
  · simp only [tfsRead, getOpenFileEntry_eq hsized, hh, ok_bind, hk.inumber,
      inodeGet_of hsized hk.lt, hm, hzero,
      if_false] at hr
    cases hget : dataBlockGet s (s.inodeTable k).iDataBlock with
    | error e =>
      rw [hget] at hr
      cases hr
    | ok block =>
      rw [hget, ok_bind] at hr
      by_cases hin : block + (s.openFileTable fd).ofOffset + m ≤ s.heap.data
      · rw [access_of_le hin] at hr
        obtain rfl : read s.fsData _ m = bytes := congrArg (fun r => r.2.2) (Except.ok.inj hr)
        rw [length_read]
      · rw [access_of_lt (Nat.not_le.mp hin)] at hr
        cases hr

/-- Through any handle, a read that finds something delivers as many bytes as it says, and
no more than it was asked for. -/
theorem tfsRead_delivers (hr : tfsRead s fhandle len = .ok (t, ret, bytes)) (hpos : 0 < ret) :
    ret = bytes.length ∧ bytes.length ≤ len := by
  unfold tfsRead at hr
  obtain ⟨handle, -, hr⟩ := bind_eq_ok hr
  cases handle with
  | none =>
    cases hr
    cases hpos
  | some fd =>
    obtain ⟨inum, -, hr⟩ := bind_eq_ok hr
    dsimp only at hr
    generalize hrest : subSize (s.inodeTable inum).iSize (s.openFileTable fd).ofOffset = rest at hr
    have hword : rest < word := hrest ▸ Nat.mod_lt _ (by decide)
    generalize hm : (if rest > len then len else rest) = m at hr
    have hle : m ≤ len ∧ m ≤ rest := by
      rw [← hm]
      split <;> omega
    by_cases hzero : m = 0
    · rw [if_pos hzero] at hr
      cases hr
      cases hpos
    · rw [if_neg hzero] at hr
      obtain ⟨block, -, hr⟩ := bind_eq_ok hr
      obtain ⟨-, -, hr⟩ := bind_eq_ok hr
      cases hr
      rw [length_read]
      refine ⟨?_, hle.1⟩
      unfold toSsize at hpos ⊢
      split at hpos <;> omega
theorem tfsRead_moves (h : Robust s) (hr : tfsRead s fhandle len = .ok (t, ret, bytes))
    (hpos : 0 < ret) :
    ∃ fd : Nat, fhandle = fd ∧ bytes ≠ [] ∧
      (t.openFileTable fd).ofOffset = (s.openFileTable fd).ofOffset + bytes.length ∧
      (t.openFileTable fd).ofOffset ≤ s.heap.data := by
  cases hh : s.handle fhandle with
  | none =>
    rw [tfsRead_closed h.root.toSized hh] at hr
    cases hr
    cases hpos
  | some fd =>
    obtain ⟨k, hk⟩ := h.refers hh
    obtain ⟨hret, rfl, hend⟩ := tfsRead_ok h hh hk hr
    have hlength := length_of_tfsRead h hh hk hr
    rw [← hlength] at hret hend
    have hmoved :
        ((s.setOffset fd ((s.openFileTable fd).ofOffset + s.toRead fd k len)).openFileTable
          fd).ofOffset
        = (s.openFileTable fd).ofOffset + bytes.length := by
      rw [hlength]
      exact congrArg OpenFileEntry.ofOffset (Function.update_self fd _ s.openFileTable)
    refine ⟨fd, (open_of_handle hh).1, ?_, hmoved, hmoved ▸ hend⟩
    rintro rfl
    exact absurd hpos (by rw [show ret = 0 from hret]; decide)

end MBroker.Fs
