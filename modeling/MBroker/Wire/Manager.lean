import MBroker.Broker.Replay
import MBroker.Broker.Visits
import MBroker.Wire.Listing
import Mathlib.Data.List.Lex

/-!
# The manager program (`manager/manager.c`)

After a create or remove request `main` reads an operation code, which it does not look at,
a return code and an error message, and reports one of the two. The list of boxes goes
through `qsort` with `compare_boxes` before it is printed; names that differ in case only
are equal there.

Results:
1. `Place.took_answer`: what is reported of an answer.
2. `strcasecmp_le_iff`: `compare_boxes` is a total order on the names up to case.
3. `listed_in_order`: the list is in this order, and where no two names agree up to case
   neither the slots of the boxes nor the `qsort` at hand make a difference.
-/

namespace MBroker

open ByteMemory FirstFit Transition

namespace Manager

/-! ## The answer to a request -/

/-- What `main` writes when it has read an answer. -/
inductive Report
  /-- "OK" on the standard output -/
  | ok
  /-- "ERROR: " and the message on the standard error -/
  | error (message : CStr)
deriving DecidableEq

/-- Where `main` is once its pipe is open. -/
inductive Place
  | opCode
  | returnCode
  | message (returnCode : Int)
  | reported (report : Report)
  /-- a read was not whole -/
  | failed
deriving DecidableEq

/-- `read_pipe` of `n` bytes: what `try_read` delivers, unless it is less. -/
def readPipe (n : Nat) (result : Option (List UInt8)) : Option (List UInt8) :=
  result.filter (·.length = n)

namespace Place

/-- The bytes that `main` asks for. -/
def asked : Place → Nat
  | .opCode => 1
  | .returnCode => 4
  | .message _ => messageLength
  | _ => 0

def running : Place → Bool
  | .opCode | .returnCode | .message _ => true
  | _ => false

/-- The next `try_read` returns: its bytes, none at the end of the pipe; no list if it fails. -/
def next (result : Option (List UInt8)) : Place → Place
  | .opCode =>
    match readPipe 1 result with
    | some _ => .returnCode
    | none => .failed
  | .returnCode =>
    match readPipe 4 result with
    | some bytes => .message (int32 bytes)
    | none => .failed
  | .message code =>
    match readPipe messageLength result with
    | some errorMessage =>
      if code = 0 then .reported .ok else .reported (.error (.ofBytes (errorMessage ++ [0])))
    | none => .failed
  | place => place

/-- What `main` has read where it is. -/
def Took (taken : List UInt8) : Place → Prop
  | .opCode => taken = []
  | .returnCode => ∃ op, taken = [op]
  | .message code => ∃ op bytes, bytes.length = 4 ∧ code = int32 bytes ∧ taken = op :: bytes
  | .reported report => ∃ op bytes errorMessage, bytes.length = 4 ∧
      errorMessage.length = messageLength ∧
      taken = op :: (bytes ++ errorMessage) ∧
      report = if int32 bytes = 0 then .ok else .error (.ofBytes (errorMessage ++ [0]))
  | .failed => True

end Place

variable {place : Place} {taken pipe bytes : List UInt8} {n : Nat} {result : Option (List UInt8)}

theorem readPipe_eq_some :
    readPipe n result = some bytes ↔ result = some bytes ∧ bytes.length = n := by
  rw [readPipe, Option.filter_eq_some_iff, decide_eq_true_iff]

theorem Place.Took.next (h : place.Took taken) (hrunning : place.running = true)
    (bytes : List UInt8) :
    (place.next (some bytes)).Took (taken ++ bytes) := by
  cases place with
  | opCode =>
    obtain rfl : taken = [] := h
    rw [Place.next]
    split
    · next bytes' hread =>
      obtain ⟨heq, hlen⟩ := readPipe_eq_some.mp hread
      obtain rfl := Option.some.inj heq
      obtain ⟨op, rfl⟩ := List.length_eq_one_iff.mp hlen
      exact ⟨op, rfl⟩
    · trivial
  | returnCode =>
    obtain ⟨op, rfl⟩ := h
    rw [Place.next]
    split
    · next bytes' hread =>
      obtain ⟨heq, hlen⟩ := readPipe_eq_some.mp hread
      obtain rfl := Option.some.inj heq
      exact ⟨op, bytes, hlen, rfl, rfl⟩
    · trivial
  | message code =>
    obtain ⟨op, bytes', hcode, rfl, rfl⟩ := h
    rw [Place.next]
    split
    · next errorMessage hread =>
      obtain ⟨heq, hlen⟩ := readPipe_eq_some.mp hread
      obtain rfl := Option.some.inj heq
      split
      · next hzero => exact ⟨op, bytes', bytes, hcode, hlen, rfl, (if_pos hzero).symm⟩
      · next hne => exact ⟨op, bytes', bytes, hcode, hlen, rfl, (if_neg hne).symm⟩
    · trivial
  | reported => cases hrunning
  | failed => cases hrunning

/-- A text as it arrives in an answer. -/
def textOf (msg : String) : CStr := .ofBytes (errorBytes msg ++ [0])

/-- The report on an answer with this return code and text. -/
def reportOf (code : Int) (msg : String) : Report := if code = 0 then .ok else .error (textOf msg)

/-- A report comes from a whole answer. -/
theorem Place.took_answer {report : Report} {op : UInt8} {code : Int}
    {msg : String} {rest : List UInt8}
    (h : (Place.reported report).Took taken) (hcode : code = 0 ∨ code = -1)
    (hanswer : taken ++ rest = (Broker.answer op code msg).flatten) :
    report = reportOf code msg := by
  obtain ⟨op', bytes, errorMessage, hbytes, hmessage, rfl, rfl⟩ := h
  have hsplit : op' :: (bytes ++ (errorMessage ++ rest)) = op :: (le32 code ++ errorBytes msg) := by
    rw [← List.append_assoc]
    exact hanswer.trans (congrArg (fun l => op :: (le32 code ++ l)) (List.append_nil _))
  obtain ⟨rfl, htext⟩ := List.append_inj (List.cons.inj hsplit).2 hbytes
  have hlength : errorMessage.length = (errorBytes msg).length :=
    hmessage.trans (length_zeroPadded _ _).symm
  obtain ⟨rfl, -⟩ := List.append_inj (htext.trans (List.append_nil _).symm) hlength
  have hint : int32 (le32 code) = code := int32_le32 (by omega) (by omega)
  rw [hint]
  rfl

/-! ## The order of the list -/

/-- `tolower` in the C locale. -/
def tolower (c : UInt8) : UInt8 := if 65 ≤ c ∧ c ≤ 90 then c + 32 else c

/-- The difference of the first two bytes that differ up to case, the terminators included. -/
def strcasecmp : List UInt8 → List UInt8 → Int
  | [], [] => 0
  | [], d :: _ => 0 - (tolower d).toNat
  | c :: _, [] => (tolower c).toNat
  | c :: s, d :: t => if tolower c = tolower d then strcasecmp s t else (tolower c).toNat
    - (tolower d).toNat

def compareBoxes (a b : ListedBox) : Int := strcasecmp a.boxName.bytes b.boxName.bytes

/-- What `qsort` with `compare_boxes` promises. -/
structure Sorts (qsort : List ListedBox → List ListedBox) : Prop where
  perm : ∀ l, (qsort l).Perm l
  sorted : ∀ l, (qsort l).Pairwise fun a b => compareBoxes a b ≤ 0

/-- A name in lower case. -/
def folded (s : List UInt8) : List Nat := s.map fun c => (tolower c).toNat

theorem tolower_pos {c : UInt8} (h : c ≠ 0) : 0 < (tolower c).toNat := by
  have hc : c.toNat ≠ 0 := fun hzero => h (UInt8.toNat_inj.mp hzero)
  unfold tolower
  split
  · next hupper =>
    have hle : c.toNat ≤ 90 := UInt8.le_iff_toNat_le.mp hupper.2
    rw [UInt8.toNat_add]
    show 0 < (c.toNat + 32) % 256
    omega
  · omega

theorem strcasecmp_swap (s t : List UInt8) : strcasecmp t s = -strcasecmp s t := by
  induction s generalizing t with
  | nil => cases t <;> simp [strcasecmp]
  | cons c s ih =>
    cases t with
    | nil => simp [strcasecmp]
    | cons d t =>
      rw [strcasecmp, strcasecmp]
      by_cases h : tolower c = tolower d
      · rw [if_pos h.symm, if_pos h]
        exact ih t
      · rw [if_neg (Ne.symm h), if_neg h]
        omega

theorem strcasecmp_neg_iff {s t : List UInt8} (hs : (0 : UInt8) ∉ s) (ht : (0 : UInt8) ∉ t) :
    strcasecmp s t < 0 ↔ List.Lex (· < ·) (folded s) (folded t) := by
  induction s generalizing t with
  | nil =>
    cases t with
    | nil => exact iff_of_false (Int.lt_irrefl 0) nofun
    | cons d t =>
      have hd := tolower_pos fun h : d = 0 => ht (h ▸ List.mem_cons_self)
      exact iff_of_true (by rw [strcasecmp]; omega) .nil
  | cons c s ih =>
    cases t with
    | nil => exact iff_of_false (by rw [strcasecmp]; omega) nofun
    | cons d t =>
      have hrest := ih (fun h => hs (List.mem_cons_of_mem _ h)) fun h =>
        ht (List.mem_cons_of_mem _ h)
      show _ ↔ List.Lex (· < ·) ((tolower c).toNat :: folded s) ((tolower d).toNat :: folded t)
      rw [strcasecmp, List.cons_lex_cons_iff, ← hrest]
      by_cases h : tolower c = tolower d
      · rw [if_pos h, h]
        exact ⟨fun hneg => .inr ⟨rfl, hneg⟩,
          fun hlex => hlex.elim (fun hlt => absurd hlt (Nat.lt_irrefl _)) And.right⟩
      · have hne : (tolower c).toNat ≠ (tolower d).toNat := fun heq => h (UInt8.toNat_inj.mp heq)
        rw [if_neg h]
        omega

/-- `strcasecmp` orders names as the lists of their letters in lower case are ordered. -/
theorem strcasecmp_le_iff {s t : List UInt8} (hs : (0 : UInt8) ∉ s) (ht : (0 : UInt8) ∉ t) :
    strcasecmp s t ≤ 0 ↔ folded s ≤ folded t := by
  have hneg : strcasecmp t s < 0 ↔ folded t < folded s := strcasecmp_neg_iff ht hs
  rw [← not_lt (a := folded t), ← hneg, strcasecmp_swap]
  omega

theorem compareBoxes_le_iff (a b : ListedBox) :
    compareBoxes a b ≤ 0 ↔ folded a.boxName.bytes ≤ folded b.boxName.bytes :=
  strcasecmp_le_iff a.boxName.nul_notMem b.boxName.nul_notMem

/-- No two of these boxes have names that agree up to case. -/
def CaseDistinct (l : List ListedBox) : Prop :=
  ∀ a ∈ l, ∀ b ∈ l, folded a.boxName.bytes = folded b.boxName.bytes → a = b

theorem Sorts.unique {qsort qsort' : List ListedBox → List ListedBox}
    (h : Sorts qsort) (h' : Sorts qsort')
    {l l' : List ListedBox} (hperm : l.Perm l') (hdistinct : CaseDistinct l) :
    qsort l = qsort' l' := by
  have hsame := ((h.perm l).trans hperm).trans (h'.perm l').symm
  refine List.Perm.eq_of_pairwise (fun a b ha hb hab hba => ?_) (h.sorted l) (h'.sorted l') hsame
  have ha' := (h.perm l).mem_iff.mp ha
  have hb' := hperm.mem_iff.mpr ((h'.perm l').mem_iff.mp hb)
  exact hdistinct a ha' b hb' (le_antisymm ((compareBoxes_le_iff a b).mp hab)
    ((compareBoxes_le_iff b a).mp hba))

/-- Worker `w` gets a request for the list, and there are boxes. -/
structure AskedForList (b : Broker) (w : Nat) (r : Request) (fd : Nat) : Prop where
  running : b.stopped = false
  worker : w < b.maxSessions
  idle : b.pcs w = .idle
  opcode : r.opcode = opCodeListBoxes
  fd : b.fds fd = false
  table : Broker.TableInvariant b
  inWord : ∀ i < maxBoxes, b.freeBoxes i = false → (b.boxes i).InWord
  boxes : b.numBoxes ≠ 0

/-- The boxes in use, as the manager gets them. -/
def used (b : Broker) : List ListedBox := (b.usedBoxes 0 maxBoxes).map Box.listed

section Order

variable {qsort : List ListedBox → List ListedBox} {b : Broker} {w fd : Nat} {r : Request}

theorem AskedForList.printed (h : AskedForList b w r fd) (qsort : List ListedBox → List ListedBox)
    (malloced : Bool) :
    ∃ x, b.serve w r fd malloced = some x ∧
      listBoxes qsort (x.output w fd) = .printed (qsort (used b)) [] := by
  obtain ⟨x, hserve, -, hout⟩ := Broker.serve_list h.running h.worker h.idle h.opcode h.fd malloced
  refine ⟨x, hserve, ?_⟩
  rw [hout, if_neg h.boxes]
  exact Broker.listBoxes_boxes h.table h.boxes h.inWord

/-- In a run in which the worker serves the request alone, the manager prints every box once,
in the order of `compare_boxes`. If no two names agree up to case, then another table with the
same boxes, in whatever slots, is printed alike, by whatever `qsort`. -/
theorem listed_in_order (hsort : Sorts qsort) (h : AskedForList b w r fd) (malloced : Bool) :
    ∃ x boxes, b.serve w r fd malloced = some x ∧ Reaches Broker.step anyStep b x ∧
      listBoxes qsort (x.output w fd) = .printed boxes [] ∧ boxes.Perm (used b) ∧
      (boxes.Pairwise fun a b => compareBoxes a b ≤ 0) ∧
      ∀ qsort' b' w' r' fd' malloced', Sorts qsort' → AskedForList b' w' r' fd' →
      (used b).Perm (used b') →
        CaseDistinct (used b) → ∃ x', b'.serve w' r' fd' malloced' = some x' ∧
          listBoxes qsort' (x'.output w' fd') = .printed boxes [] := by
  obtain ⟨x, hserve, hprinted⟩ := h.printed qsort malloced
  refine ⟨x, qsort (used b), hserve, Broker.serve_reaches hserve, hprinted,
    hsort.perm _, hsort.sorted _, ?_⟩
  intro qsort' b' w' r' fd' malloced' hsort' h' hsame hdistinct
  obtain ⟨x', hserve', hprinted'⟩ := h'.printed qsort' malloced'
  rw [← hsort.unique hsort' hsame hdistinct] at hprinted'
  exact ⟨x', hserve', hprinted'⟩

theorem inWord_addBox {i : Nat} {boxName : CharArray 32} (h : ∀ j, (b.boxes j).InWord) (j : Nat) :
    ((b.addBox i boxName).boxes j).InWord := by
  rcases eq_or_ne j i with rfl | hj
  · rw [Broker.addBox, Broker.setBox_self]
    exact ⟨show 0 < word by decide, show 0 < word by decide, show 0 < word by decide⟩
  · rw [Broker.addBox, Broker.setBox_of_ne _ _ hj]
    exact h j

def mergeSort (l : List ListedBox) : List ListedBox := l.mergeSort fun a b => compareBoxes a b ≤ 0

theorem mergeSort_sorts : Sorts mergeSort where
  perm l := List.mergeSort_perm l _
  sorted l := by
    refine (List.pairwise_mergeSort (fun a b c hab hbc => ?_) (fun a b => ?_) l).imp
      of_decide_eq_true
    · have hle := (compareBoxes_le_iff a b).mp (of_decide_eq_true hab)
      have hle' := (compareBoxes_le_iff b c).mp (of_decide_eq_true hbc)
      exact decide_eq_true ((compareBoxes_le_iff a c).mpr (hle.trans hle'))
    · rcases le_total (folded a.boxName.bytes) (folded b.boxName.bytes) with hle | hle
      · rw [decide_eq_true ((compareBoxes_le_iff a b).mpr hle), Bool.true_or]
      · rw [decide_eq_true ((compareBoxes_le_iff b a).mpr hle), Bool.or_true]

theorem upperName_fits : (CStr.ofBytes [47, 66]).length < 32 := by decide

def upperName : CharArray 32 := .ofStr (.ofBytes [47, 66]) upperName_fits

/-- A table with two boxes. -/
def twoBoxes (name name' : CharArray 32) : Broker := ((Broker.fresh 1).addBox 0 name).addBox 1 name'

theorem twoBoxes_asked {name name' : CharArray 32} (hne : name.str ≠ .empty)
    (hne' : name'.str ≠ .empty)
    (hdiffer : name.str ≠ name'.str) :
    AskedForList (twoBoxes name name') 0 (sampleRequest opCodeListBoxes) 3 := by
  have hstart := Broker.TableInvariant.of_start 1 (fun _ => zeroClient) .zeros fun _ => false
  have hfirst : ((Broker.fresh 1).addBox 0 name).TableInvariant :=
    hstart.addBox (i := 0) rfl (Broker.fresh_getBox hne 1) (by decide)
  have hnew : ((Broker.fresh 1).addBox 0 name).getBox name'.str = none := by
    refine Broker.getBox_eq_none.mpr fun j _ => ?_
    rcases eq_or_ne j 0 with rfl | hj
    · rw [Broker.addBox, Broker.setBox_self, CharArray.str_terminate]
      exact hdiffer
    · rw [Broker.addBox, Broker.setBox_of_ne _ _ hj]
      exact fun hempty => hne' (hempty.symm.trans (CharArray.str_ofStr .empty (by decide)))
  have hfree : firstIndex (Function.update (fun _ => true) 0 false) maxBoxes
    = some 1 := by decide +kernel
  exact
    { running := rfl
      worker := Nat.one_pos
      idle := rfl
      opcode := rfl
      fd := rfl
      table := hfirst.addBox hfree hnew (show (0 : Int) + 1 ≠ maxBoxes by decide)
      inWord := fun i _ _ => inWord_addBox (inWord_addBox fun _ =>
        ⟨show 0 < word by decide, show 0 < word by decide, show 0 < word by decide⟩) i
      boxes := show (0 : Int) + 1 + 1 ≠ 0 by decide }

/-- The boxes "/B" and "/a", created in either order. -/
theorem listed_in_order_two : ∃ x x',
    (twoBoxes upperName sampleName).serve 0 (sampleRequest opCodeListBoxes) 3 true = some x ∧
    (twoBoxes sampleName upperName).serve 0 (sampleRequest opCodeListBoxes) 3 true = some x' ∧
    listBoxes mergeSort (x.output 0 3) = listBoxes mergeSort (x'.output 0 3) := by
  have hnames : sampleName.str ≠ .empty ∧ upperName.str ≠ .empty ∧
    upperName.str ≠ sampleName.str := by decide +kernel
  have hused : (used (twoBoxes upperName sampleName)).Perm
    (used (twoBoxes sampleName upperName)) := by decide +kernel
  have hdistinct : CaseDistinct (used (twoBoxes upperName sampleName)) := by
    have h : ∀ a ∈ used (twoBoxes upperName sampleName), ∀ b ∈ used (twoBoxes upperName sampleName),
        folded a.boxName.bytes = folded b.boxName.bytes → a = b := by decide +kernel
    exact h
  obtain ⟨x, boxes, hserve, -, hprinted, -, -, hother⟩ :=
    listed_in_order mergeSort_sorts (twoBoxes_asked hnames.2.1 hnames.1 hnames.2.2) true
  obtain ⟨x', hserve', hprinted'⟩ := hother mergeSort _ 0 _ 3 true mergeSort_sorts
    (twoBoxes_asked hnames.1 hnames.2.1 hnames.2.2.symm) hused hdistinct
  exact ⟨x, x', hserve, hserve', hprinted.trans hprinted'.symm⟩

end Order

end Manager

end MBroker
