import MBroker.Fs.AnyUse
import MBroker.Fs.Files

/-!
# Offsets, and what they bound

`tfs_read` takes the difference of two sizes that different handles change, and
`tfs_write` that of the block size and an offset. The first one is right as long as
the offset has not been left behind the end of the file by a truncation; the second
one is always right if no read has been taken behind the block of its file.

Results:
1. `stops_at_end_iff`: in every state, a read stops at the end of the file unless it
   starts behind it; `read_past_truncation` is one that does.
2. `writes_in_block`: in every run whose reads stay in their block, writes do too;
   `inside_iff` says that no other read keeps the offset in the block, and
   `write_past_block` is a write after such a read.
-/

namespace MBroker.Fs

open FirstFit ByteMemory Transition

variable {s t : State} {k fd : Nat} {fhandle : Int} {len : Nat} {op : Op}

/-! ## Reads -/

/-- How many bytes there are to read, none behind the end of the file. -/
def State.restLength (s : State) (fd k len : Nat) : Nat :=
  if (s.openFileTable fd).ofOffset ≤ (s.inodeTable k).iSize then
    min len ((s.inodeTable k).iSize - (s.openFileTable fd).ofOffset)
  else 0

/-- A read through handle `fd` of inode `k` takes exactly these bytes, and moves the
offset by their number. -/
def State.StopsAtEnd (s : State) (fhandle : Int) (fd k len : Nat) : Prop :=
  tfsRead s fhandle len =
    .ok (s.setOffset fd ((s.openFileTable fd).ofOffset + s.restLength fd k len),
      (s.restLength fd k len : Int),
      ((s.content k).drop (s.openFileTable fd).ofOffset).take (s.restLength fd k len))

theorem setOffset_self (s : State) (fd : Nat) :
    s.setOffset fd (s.openFileTable fd).ofOffset = s := by
  simp only [State.setOffset, Function.update_eq_self]

/-- A read that returns has taken as many bytes as it has decided to. -/
theorem tfsRead_ok (h : Robust s) (hh : s.handle fhandle = some fd) (hk : s.Refers fd k)
    {r : State × Int × List UInt8} (hr : tfsRead s fhandle len = .ok r) :
    r.2.1 = toSsize (s.toRead fd k len) ∧
      r.1 = s.setOffset fd ((s.openFileTable fd).ofOffset + s.toRead fd k len) ∧
      (s.openFileTable fd).ofOffset + s.toRead fd k len ≤ s.heap.data := by
  have hsized := h.root.toSized
  generalize hm : s.toRead fd k len = m
  have hcut := hm
  unfold State.toRead at hcut
  by_cases hzero : m = 0
  · rw [tfsRead_nothing hsized hh hk.inumber hk.lt hcut.symm hzero] at hr
    obtain rfl := Except.ok.inj hr
    rw [hzero, Nat.add_zero, setOffset_self]
    exact ⟨rfl, rfl, hk.offset⟩
  · simp only [tfsRead, getOpenFileEntry_eq hsized, hh, ok_bind, hk.inumber,
      inodeGet_of hsized hk.lt, hcut, hzero, if_false] at hr
    cases hget : dataBlockGet s (s.inodeTable k).iDataBlock with
    | error e =>
      rw [hget] at hr
      cases hr
    | ok block =>
      rw [hget, ok_bind] at hr
      by_cases hend : block + (s.openFileTable fd).ofOffset + m ≤ s.heap.data
      · have hlt := h.data_lt
        rw [access_of_le hend, addSize_of_lt (by unfold word; omega)] at hr
        obtain rfl := Except.ok.inj hr
        exact ⟨rfl, rfl, by omega⟩
      · rw [access_of_lt (Nat.not_le.mp hend)] at hr
        cases hr

/-- Behind the end of the file the difference wraps. -/
theorem toRead_behind (h : Robust s) (hk : s.Refers fd k) (len : Nat)
    (hoff : (s.inodeTable k).iSize < (s.openFileTable fd).ofOffset) :
    s.toRead fd k len = len ∨ s.heap.data < s.toRead fd k len := by
  have hlt := h.data_lt
  have hle := hk.offset
  unfold State.toRead
  rw [subSize_of_lt hoff (by unfold word; omega)]
  unfold word
  split <;> omega

/-- The one read of an existing file that does not stop at its end is one of at least
a byte that starts behind it. -/
theorem Robust.read_stops_iff (h : Robust s) (hh : s.handle fhandle = some fd)
    (hi : (s.openFileTable fd).ofInumber = k) (hk : s.Live k) :
    s.StopsAtEnd fhandle fd k len ↔
      (s.openFileTable fd).ofOffset ≤ (s.inodeTable k).iSize ∨ len = 0 := by
  obtain ⟨k', hk'⟩ := h.refers hh
  obtain rfl : k' = k := Int.ofNat_inj.mp (hk'.inumber.symm.trans hi)
  constructor
  · intro hstop
    by_contra hnot
    rw [not_or, Nat.not_le] at hnot
    obtain ⟨hbehind, hlen⟩ := hnot
    have hret : ((s.restLength fd k' len : Nat) : Int) = toSsize (s.toRead fd k' len) :=
      (tfsRead_ok h hh hk' hstop).1
    have hrest : s.restLength fd k' len = 0 := if_neg (Nat.not_le.mpr hbehind)
    rw [hrest] at hret
    have hpos : 0 < s.toRead fd k' len := by
      rcases toRead_behind h hk' len hbehind with heq | hgt <;> omega
    have hword : s.toRead fd k' len < word := by
      have : subSize (s.inodeTable k').iSize (s.openFileTable fd).ofOffset < word :=
        Nat.mod_lt _ (by decide)
      unfold State.toRead
      split <;> omega
    unfold toSsize at hret
    unfold word at hword hret
    split at hret <;> omega
  · rintro (hoff | rfl)
    · have hm : s.restLength fd k' len = _ := if_pos hoff
      exact tfsRead_within h.toFilesWf hh hi hk hoff hm
    · have hrest : s.restLength fd k' 0 = 0 := by
        unfold State.restLength
        split <;> omega
      have hzero : s.toRead fd k' 0 = 0 := by
        unfold State.toRead
        split <;> omega
      unfold State.StopsAtEnd
      rw [hrest, Nat.add_zero, setOffset_self, List.take_zero]
      exact tfsRead_nothing h.root.toSized hh hi hk.lt hzero.symm rfl

/-- In every state that any run reaches, a read of an existing file stops at its end
unless it starts behind it. -/
theorem stops_at_end_iff {params : Option TfsParams} {m : Malloc}
    (hp : (params.getD tfsDefaultParams).FitsInt) (hinit : tfsInit s params m = .ok (t, 0))
    {u : State} (hrun : Reaches fsStep anyStep t u) (hh : u.handle fhandle = some fd)
    (hi : (u.openFileTable fd).ofInumber = k) {n : CStr} (hl : u.lookup n = some k) :
    u.StopsAtEnd fhandle fd k len ↔
      (u.openFileTable fd).ofOffset ≤ (u.inodeTable k).iSize ∨ len = 0 := by
  have h := Robust.of_run hp hinit hrun
  exact h.read_stops_iff hh hi (h.linked.live n k hl)

/-- A read of two bytes through a second handle, at the start of the file. -/
theorem stops_at_end_fresh :
    ∃ u, exec fsStep (State.static.initial smallParams .zeros)
        [.tfsOpen pathA tfsOCreat, .tfsWrite 0 [1, 2, 3], .tfsOpen pathA 0] = some u ∧
      u.StopsAtEnd 1 1 1 2 := by
  have hrun : (exec fsStep (State.static.initial smallParams .zeros)
      [.tfsOpen pathA tfsOCreat, .tfsWrite 0 [1, 2, 3], .tfsOpen pathA 0]).any
      (fun u => u.handle 1 == some 1 && u.openFileTable 1 == ⟨1, 0⟩ &&
        u.lookup ⟨[97], by decide⟩ == some 1) = true := by
    decide +kernel
  obtain ⟨u, hu, hfacts⟩ := (Option.any_eq_true _ _).mp hrun
  simp only [Bool.and_eq_true, beq_iff_eq] at hfacts
  obtain ⟨⟨hh, hopen⟩, hl⟩ := hfacts
  refine ⟨u, hu, (stops_at_end_iff
    (show TfsParams.FitsInt ((some smallParams).getD _) from smallParams_inRange.usable.toFitsInt)
    (show tfsInit .static (some smallParams) .zeros = .ok (_, 0) from
      tfsInit_of rfl smallParams_inRange.usable rfl rfl)
    (Reaches.of_exec hu (execOk_anyStep _ _)) hh (by rw [hopen]; rfl) hl).mpr (Or.inl ?_)⟩
  rw [hopen]
  exact Nat.zero_le _

/-- The file is truncated while handle 0 is at offset 3: it is empty, and a read of two
bytes through the handle returns two. -/
theorem read_past_truncation :
    ¬ ∀ (s t u : State) (params : Option TfsParams) (m : Malloc) (fhandle : Int) (fd k len : Nat)
      (n : CStr), (params.getD tfsDefaultParams).InRange → tfsInit s params m = .ok (t, 0) →
      Reaches fsStep anyStep t u → u.handle fhandle = some fd →
      (u.openFileTable fd).ofInumber = k → u.lookup n = some k → u.StopsAtEnd fhandle fd k len := by
  intro hall
  have hrun : (exec fsStep (State.static.initial smallParams .zeros)
      [.tfsOpen pathA tfsOCreat, .tfsWrite 0 [1, 2, 3], .tfsOpen pathA tfsOTrunc]).any
      (fun u => u.handle 0 == some 0 && u.openFileTable 0 == ⟨1, 3⟩ &&
        u.lookup ⟨[97], by decide⟩ == some 1 && (u.inodeTable 1).iSize == 0 &&
        (tfsRead u 0 2).toOption.map (·.2.1) == some 2) = true := by
    decide +kernel
  obtain ⟨u, hu, hfacts⟩ := (Option.any_eq_true _ _).mp hrun
  simp only [Bool.and_eq_true, beq_iff_eq] at hfacts
  obtain ⟨⟨⟨⟨hh, hopen⟩, hl⟩, hsize⟩, hread⟩ := hfacts
  have hstop := hall .static _ u (some smallParams) .zeros 0 0 1 2 _ smallParams_inRange
    (tfsInit_of rfl smallParams_inRange.usable rfl rfl)
    (Reaches.of_exec hu (execOk_anyStep _ _)) hh (by rw [hopen]; rfl) hl
  have hrest : u.restLength 0 1 2 = 0 := by
    rw [State.restLength, hopen, hsize]
    rfl
  rw [State.StopsAtEnd, hrest] at hstop
  rw [hstop] at hread
  cases hread

/-! ## Writes -/

/-- A write of the buffer returns -1 and changes nothing, or stays between the offset and
the end of the block of inode `k`, and fills that as far as the buffer goes. -/
def State.WritesInBlock (s : State) (fhandle : Int) (fd k : Nat) (buffer : List UInt8) : Prop :=
  tfsWrite s fhandle buffer buffer.length = .ok (s, -1) ∨
    ∃ t, ∃ m : Nat, tfsWrite s fhandle buffer buffer.length = .ok (t, (m : Int)) ∧
      m = min buffer.length (s.fsParams.blockSize - (s.openFileTable fd).ofOffset) ∧
      ∀ a, t.fsData a ≠ s.fsData a → ∃ b : Nat, (t.inodeTable k).iDataBlock = b ∧
        b * s.fsParams.blockSize + (s.openFileTable fd).ofOffset ≤ a ∧
        a < b * s.fsParams.blockSize + (s.openFileTable fd).ofOffset + m

/-- A read starts in its file or ends in the block; a write has a buffer of a length that
memory can have. -/
def State.ReadsInBlock (s : State) : Op → Prop
  | .tfsRead fhandle len => ∀ fd, s.handle fhandle = some fd →
      (s.openFileTable fd).ofOffset
          ≤ (s.inodeTable (s.openFileTable fd).ofInumber.toNat).iSize ∨
        (s.openFileTable fd).ofOffset + len ≤ s.fsParams.blockSize
  | .tfsWrite _ buffer => buffer.length < 9223372036854775808
  | _ => True

theorem write_ne {m : Nat → UInt8} {a x : Nat} {bytes : List UInt8} (h : write m a bytes x ≠ m x) :
    a ≤ x ∧ x < a + bytes.length := by
  constructor <;> by_contra hnot
  · exact h (write_of_lt (Nat.not_le.mp hnot))
  · exact h (write_of_ge (Nat.not_lt.mp hnot))

theorem Overwritten.in_block {buffer : List UInt8} {r : State × Int} {a : Nat}
    (hw : Overwritten s fd k buffer r) (ha : r.1.fsData a ≠ s.fsData a) :
    ∃ b m : Nat, r.2 = m ∧ (r.1.inodeTable k).iDataBlock = b ∧
      b * s.fsParams.blockSize + (s.openFileTable fd).ofOffset ≤ a ∧
      a < b * s.fsParams.blockSize + (s.openFileTable fd).ofOffset + m := by
  cases hw with
  | nothing => exact absurd rfl ha
  | full => exact absurd rfl ha
  | @alloc b m _ hlen =>
    have hself :
      (((s.takeBlock b).writeAt fd k b (buffer.take m)).inodeTable k).iDataBlock = b := by
      simp [State.writeAt]
    obtain ⟨hlo, hhi⟩ := write_ne ha
    rw [List.length_take, Nat.min_eq_left hlen] at hhi
    exact ⟨b, m, rfl, hself, hlo, hhi⟩
  | @own b m hlen =>
    have hself : ((s.writeAt fd k b (buffer.take m)).inodeTable k).iDataBlock = b := by
      simp [State.writeAt]
    obtain ⟨hlo, hhi⟩ := write_ne ha
    rw [List.length_take, Nat.min_eq_left hlen] at hhi
    exact ⟨b, m, rfl, hself, hlo, hhi⟩

/-- With the offset in the block, so is the write. -/
theorem Robust.write_stays (h : Robust s) (hh : s.handle fhandle = some fd)
    (hi : (s.openFileTable fd).ofInumber = k)
    (hoff : (s.openFileTable fd).ofOffset ≤ s.fsParams.blockSize) {buffer : List UInt8}
    (hlen : buffer.length < 9223372036854775808) : s.WritesInBlock fhandle fd k buffer := by
  obtain ⟨k', hk'⟩ := h.refers hh
  obtain rfl : k' = k := Int.ofNat_inj.mp (hk'.inumber.symm.trans hi)
  generalize hm : min buffer.length (s.fsParams.blockSize - (s.openFileTable fd).ofOffset) = m
  have hcut : s.toWrite fd buffer.length = m := toWrite_of_le h.root.toSized hoff hlen hm.symm
  obtain ⟨r, hr, hw, hret | hret⟩ := tfsWrite_fitting h hh hk' hcut
    (show m ≤ buffer.length by omega) (by omega)
  · left
    cases hw with
    | nothing => cases hret
    | full => exact hr
    | alloc => cases hret
    | own => cases hret
  · refine Or.inr ⟨r.1, m, by rw [hr, ← hret], hm.symm, fun a ha => ?_⟩
    obtain ⟨b, m', hm', hrange⟩ := hw.in_block ha
    obtain rfl : m' = m := Int.ofNat_inj.mp (hm'.symm.trans hret)
    exact ⟨b, hrange⟩

/-! ## Runs whose reads stay in their block -/

theorem Overwritten.handles (h : Handles s) {buffer : List UInt8} {r : State × Int}
    (hw : Overwritten s fd k buffer r) : Handles r.1 := by
  cases hw with
  | nothing => exact h
  | full => exact h
  | alloc _ hlen hfit =>
    refine Handles.writeAt (s := s.takeBlock _) (h.of_same rfl rfl rfl) ?_
    rw [List.length_take, Nat.min_eq_left hlen]
    exact hfit
  | own hlen hfit =>
    refine h.writeAt ?_
    rw [List.length_take, Nat.min_eq_left hlen]
    exact hfit

/-- A read that returns moves the offset out of the block exactly if it does not meet the
condition. -/
theorem inside_iff (h : Robust s) (hh : s.handle fhandle = some fd) (hk : s.Refers fd k)
    {r : State × Int × List UInt8} (hr : tfsRead s fhandle len = .ok r) :
    (r.1.openFileTable fd).ofOffset ≤ s.fsParams.blockSize ↔
      (s.openFileTable fd).ofOffset ≤ (s.inodeTable k).iSize ∨
        (s.openFileTable fd).ofOffset + len ≤ s.fsParams.blockSize := by
  obtain ⟨-, hstate, hdata⟩ := tfsRead_ok h hh hk hr
  have hend : (r.1.openFileTable fd).ofOffset
      = (s.openFileTable fd).ofOffset + s.toRead fd k len := by
    rw [hstate]
    simp [State.setOffset]
  have hsize : (s.inodeTable k).iSize ≤ s.fsParams.blockSize := by
    rcases hk.sound with ⟨-, hs⟩ | ⟨-, -, -, -, hs⟩ <;> omega
  have hint := h.root.block_int
  rw [hend]
  by_cases hoff : (s.openFileTable fd).ofOffset ≤ (s.inodeTable k).iSize
  · have hcut : s.toRead fd k len = min len _ := toRead_eq hoff (by omega)
    rw [hcut]
    omega
  · rcases toRead_behind h hk len (Nat.not_le.mp hoff) with heq | hgt
    · rw [heq]
      omega
    · omega

/-- The step lemma: the offsets stay in their blocks. -/
theorem WellFormed.step_inside (hw : WellFormed s) (h : Robust s) (hin : s.ReadsInBlock op)
    (hs : fsStep s op = some t) : WellFormed t := by
  have hfiles := (h.step hs).toFilesWf
  cases h.called hs with
  | refused => exact hw
  | opened ho => exact ho.wellFormed hw
  | closed => exact hw.closeHandle
  | wrote _ _ how => exact ⟨hfiles, how.handles hw.handles⟩
  | unlinked hu => exact hu.wellFormed hw
  | @read fhandle fd k len r hh hk _ =>
    obtain ⟨ret, hret⟩ := fsStep_eq_some.mp hs
    obtain ⟨-, hstate, -⟩ := tfsRead_ok h hh hk hret
    have hend := (inside_iff h hh hk hret).mpr <| by
      have := hin fd hh
      rwa [hk.inumber, Int.toNat_natCast] at this
    rw [show r.1 = _ from hstate] at hend ⊢
    exact hw.setOffset (by simpa [State.setOffset] using hend)

/-- In every run whose reads stay in their block, every offset does, and so does every
write. -/
theorem writes_in_block {params : Option TfsParams} {m : Malloc}
    (hp : (params.getD tfsDefaultParams).FitsInt) (hinit : tfsInit s params m = .ok (t, 0))
    {u : State} (hrun : Reaches fsStep State.ReadsInBlock t u) (hh : u.handle fhandle = some fd)
    (hi : (u.openFileTable fd).ofInumber = k) {buffer : List UInt8}
    (hlen : buffer.length < 9223372036854775808) :
    (u.openFileTable fd).ofOffset ≤ u.fsParams.blockSize ∧ u.WritesInBlock fhandle fd k buffer := by
  obtain ⟨husable, rfl⟩ := tfsInit_inv hp hinit
  have hinv : Robust u ∧ WellFormed u :=
    hrun.invariant (I := fun v => Robust v ∧ WellFormed v)
      ⟨initial_robust husable, initial_wellFormed husable⟩ fun _ _ _ hi hin hs =>
        ⟨hi.1.step hs, hi.2.step_inside hi.1 hin hs⟩
  have hopen := (open_of_handle hh).2
  have hoff := (hinv.2.handles fd hopen.1 hopen.2).2
  exact ⟨hoff, hinv.1.write_stays hh hi hoff hlen⟩

/-- A file is filled to its last byte but one, and two more bytes are to be written. -/
theorem writes_in_block_full :
    ∃ u, exec fsStep (State.static.initial smallParams .zeros)
        [.tfsOpen pathA tfsOCreat, .tfsWrite 0 (List.replicate 87 1)] = some u ∧
      u.WritesInBlock 0 0 1 [2, 3] := by
  have hrun : (exec fsStep (State.static.initial smallParams .zeros)
      [.tfsOpen pathA tfsOCreat, .tfsWrite 0 (List.replicate 87 1)]).any
      (fun u => u.handle 0 == some 0 && u.openFileTable 0 == ⟨1, 87⟩) = true := by
    decide +kernel
  obtain ⟨u, hu, hfacts⟩ := (Option.any_eq_true _ _).mp hrun
  simp only [Bool.and_eq_true, beq_iff_eq] at hfacts
  obtain ⟨hh, hopen⟩ := hfacts
  have hreach : Reaches fsStep State.ReadsInBlock (State.static.initial smallParams .zeros) u := by
    refine Reaches.of_exec hu ⟨trivial, fun _ _ => ⟨?_, fun _ _ => trivial⟩⟩
    show (List.replicate 87 _).length < _
    rw [List.length_replicate]
    decide
  exact ⟨u, hu, (writes_in_block
    (show TfsParams.FitsInt ((some smallParams).getD _) from smallParams_inRange.usable.toFitsInt)
    (show tfsInit .static (some smallParams) .zeros = .ok (_, 0) from
      tfsInit_of rfl smallParams_inRange.usable rfl rfl)
    hreach hh (by rw [hopen]; rfl) (show [2, 3].length < _ by decide)).2⟩

/-- The file is truncated while handle 0 is at the end of its block, and a read of one byte
through the handle takes the first byte of the next block: `tfs_write` then asks for the
copy of 2^64 - 1 bytes. -/
theorem write_past_block :
    ¬ ∀ (s t u : State) (params : Option TfsParams) (m : Malloc) (fhandle : Int) (fd k : Nat)
      (buffer : List UInt8), (params.getD tfsDefaultParams).InRange →
      tfsInit s params m = .ok (t, 0) → Reaches fsStep anyStep t u →
      u.handle fhandle = some fd → (u.openFileTable fd).ofInumber = k →
      buffer.length < 9223372036854775808 →
      (u.openFileTable fd).ofOffset ≤ u.fsParams.blockSize ∧
        u.WritesInBlock fhandle fd k buffer := by
  intro hall
  have hrun : (exec fsStep (State.static.initial smallParams .zeros)
      [.tfsOpen pathA tfsOCreat, .tfsWrite 0 (List.replicate 88 1), .tfsOpen pathA tfsOTrunc,
        .tfsRead 0 1]).any
      (fun u => u.handle 0 == some 0 && u.openFileTable 0 == ⟨1, 89⟩ &&
        u.toWrite 0 1 == 18446744073709551615 &&
        match tfsWrite u 0 [2] 1 with
        | .ok _ => false
        | .error e => e == .outOfBounds) = true := by
    decide +kernel
  obtain ⟨u, hu, hfacts⟩ := (Option.any_eq_true _ _).mp hrun
  simp only [Bool.and_eq_true, beq_iff_eq] at hfacts
  obtain ⟨⟨⟨hh, hopen⟩, -⟩, hwrite⟩ := hfacts
  have hin := (hall .static _ u (some smallParams) .zeros 0 0 1 [2] smallParams_inRange
    (tfsInit_of rfl smallParams_inRange.usable rfl rfl)
    (Reaches.of_exec hu (execOk_anyStep _ _)) hh (by rw [hopen]; rfl) (by decide)).2
  rcases hin with heq | ⟨t, m, heq, -⟩
  · rw [show tfsWrite u 0 [2] 1 = _ from heq] at hwrite
    cases hwrite
  · rw [show tfsWrite u 0 [2] 1 = _ from heq] at hwrite
    cases hwrite

end MBroker.Fs
