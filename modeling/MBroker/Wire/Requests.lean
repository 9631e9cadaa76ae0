import MBroker.Broker.State
import MBroker.Library.Memory
import MBroker.Library.Stream

/-!
# Requests on the server pipe

The clients write a request with one `write`: the operation code, the path of
their pipe in 255 bytes and, unless they ask for a list, the name of a box in 31
bytes (`parse_message` in `utils/common.c` and the four clients). The broker reads
the same fields one after the other (`main` and `parser` in `mbroker/mbroker.c`).
Nothing marks the end of a request: both sides take it from the operation code.

Results:
1. `mainLoop_write`: the broker reads a request back and is at the next one.
2. `requests_decoded`: it reads back any sequence of requests.
-/

namespace MBroker

open ByteMemory ByteStream

/-! ## The clients -/

/-- `memcpy(buffer + offset, s, strlen(s))`, unless it passes the end of the buffer. -/
def copyInto (buffer : List UInt8) (offset : Nat) (s : CStr) : Option (List UInt8) :=
  if offset + s.length ≤ buffer.length then some (overlay buffer offset s.bytes) else none

/-- The buffer of `parse_message`, which `malloc` granted; `none` if a string does
not fit. -/
def parseMessage (opcode : UInt8) (pipename : CStr) (boxName : Option CStr) :
    Option (List UInt8) := do
  let buffer := opcode :: List.replicate (clientNamedPipePathLength + boxNameLength) 0
  let buffer ← copyInto buffer 1 pipename
  match boxName with
  | some boxName => copyInto buffer (1 + clientNamedPipePathLength) boxName
  | none => return buffer

/-- What a client asks for. -/
inductive ClientRequest
  | registPub (pipeName boxName : CStr)
  | registSub (pipeName boxName : CStr)
  | createBox (pipeName boxName : CStr)
  | removeBox (pipeName boxName : CStr)
  | listBoxes (pipeName : CStr)

namespace ClientRequest

def opcode : ClientRequest → UInt8
  | registPub .. => opCodeRegistPub
  | registSub .. => opCodeRegistSub
  | createBox .. => opCodeCreateBox
  | removeBox .. => opCodeRemoveBox
  | listBoxes _ => opCodeListBoxes

def pipeName : ClientRequest → CStr
  | registPub pipeName _ | registSub pipeName _ | createBox pipeName _ | removeBox pipeName _
  | listBoxes pipeName => pipeName

def boxName : ClientRequest → Option CStr
  | registPub _ boxName | registSub _ boxName | createBox _ boxName | removeBox _ boxName =>
    some boxName
  | listBoxes _ => none

/-- How many bytes of the buffer the client writes. -/
def writeLength : ClientRequest → Nat
  | listBoxes _ => 1 + clientNamedPipePathLength
  | _ => 1 + (clientNamedPipePathLength + boxNameLength)

/-- The bytes that the client writes to the server pipe. -/
def write (c : ClientRequest) : Option (List UInt8) :=
  (parseMessage c.opcode c.pipeName c.boxName).map (·.take c.writeLength)

/-- The strings leave room for a NUL in their fields. -/
def Fits (c : ClientRequest) : Prop :=
  c.pipeName.length ≤ 254 ∧ ∀ n, c.boxName = some n → n.length ≤ 30

instance (c : ClientRequest) : Decidable c.Fits :=
  match h : c.boxName with
  | some n => decidable_of_iff (c.pipeName.length ≤ 254 ∧ n.length ≤ 30) (by simp [Fits, h])
  | none => decidable_of_iff (c.pipeName.length ≤ 254) (by simp [Fits, h])

end ClientRequest

/-! ## The broker -/

/-- `strncpy(dst, buffer, n + 1)` from an array of `n` bytes; `none` where it reads
behind the array. -/
def strncpy (n : Nat) (buffer : List UInt8) : Option (CharArray (n + 1)) :=
  if h : (0 : UInt8) ∈ buffer ∧ (CStr.ofBytes buffer).length < n + 1 then
    some (.ofStr (.ofBytes buffer) h.2)
  else none

inductive Parsed
  /-- the request that goes to the queue, and the bytes behind it -/
  | request (r : Request) (rest : List UInt8)
  /-- `parser` returns -1 -/
  | failed
  | overrun

/-- `fresh` is the box name in the memory that `malloc` gave to the request. -/
def parser (fresh : CharArray 32) (opCode : UInt8) (input : List UInt8) : Parsed :=
  if opCode > 7 then .failed
  else
    match takeBytes clientNamedPipePathLength input with
    | none => .failed
    | some (buffer, input) =>
      match strncpy clientNamedPipePathLength buffer with
      | none => .overrun
      | some clientPipename =>
        if opCode ≠ opCodeListBoxes then
          match takeBytes boxNameLength input with
          | none => .failed
          | some (buffer2, input) =>
            match strncpy boxNameLength buffer2 with
            | none => .overrun
            | some boxName => .request ⟨opCode, clientPipename, boxName⟩ input
        else .request ⟨opCode, clientPipename, fresh⟩ input

/-- How the loop of `main` comes to an end. -/
inductive LoopEnd
  /-- every byte is read; `main` waits for the next client -/
  | waiting
  /-- `close_server` -/
  | closed
  | overrun
deriving DecidableEq

theorem parser_rest {fresh : CharArray 32} {opCode : UInt8} {input rest : List UInt8} {r : Request}
    (h : parser fresh opCode input = .request r rest) : rest.length < input.length + 1 := by
  unfold parser at h
  split at h
  · cases h
  split at h
  · cases h
  next buffer input' htake =>
  have hlen := (takeBytes_length htake).2
  split at h
  · cases h
  split at h
  · split at h
    · cases h
    next buffer2 input'' htake' =>
    have hlen' := (takeBytes_length htake').2
    split at h
    · cases h
    · cases h
      omega
  · cases h
    omega

/-- The loop of `main` over the bytes in the server pipe: the requests that go to
the queue. `fresh` gives the memory of each. -/
def mainLoop (fresh : Nat → CharArray 32) (i : Nat) : List UInt8 → List Request × LoopEnd
  | [] => ([], .waiting)
  | opCode :: input =>
    match _h : parser (fresh i) opCode input with
    | .request r rest =>
      let (rs, loopEnd) := mainLoop fresh (i + 1) rest
      (r :: rs, loopEnd)
    | .failed => ([], .closed)
    | .overrun => ([], .overrun)
termination_by input => input.length
decreasing_by exact parser_rest _h

/-! ## Both together -/

/-- The request that the broker reads is the one that the client wrote. -/
structure Decodes (c : ClientRequest) (r : Request) : Prop where
  opcode : r.opcode = c.opcode
  pipeName : r.clientPipename.str = c.pipeName
  boxName : ∀ n, c.boxName = some n → r.boxName.str = n

/-- A string in a field of `n` bytes. -/
def field (n : Nat) (s : CStr) : List UInt8 := s.bytes ++ List.replicate (n - s.length) 0

variable {n : Nat} {s : CStr} {rest : List UInt8}

theorem length_field (h : s.length ≤ n) : (field n s).length = n := by
  rw [field, List.length_append, List.length_replicate]
  exact Nat.add_sub_cancel' h

theorem strncpy_field (h : s.length < n) :
    ∃ a : CharArray (n + 1), strncpy n (field n s) = some a ∧ a.str = s := by
  obtain ⟨d, hd⟩ := Nat.exists_eq_add_of_lt h
  have hrep : List.replicate (n - s.length) (0 : UInt8) = 0 :: List.replicate d 0 := by
    rw [show n - s.length = d + 1 by omega]
    rfl
  have hstr : CStr.ofBytes (field n s) = s := by
    rw [field, hrep, CStr.ofBytes_append_nul]
  have hcond : (0 : UInt8) ∈ field n s ∧ (CStr.ofBytes (field n s)).length < n + 1 := by
    rw [hstr]
    refine ⟨?_, by omega⟩
    rw [field, hrep]
    simp
  refine ⟨.ofStr (.ofBytes (field n s)) hcond.2, ?_, ?_⟩
  · rw [strncpy, dif_pos hcond]
  · rw [CharArray.str_ofStr, hstr]

/-- A string copied over zeros. -/
theorem overlay_zeros {head tail : List UInt8} (h : s.length ≤ n) :
    overlay (head ++ (List.replicate n 0 ++ tail)) head.length s.bytes = head
      ++ (field n s ++ tail) := by
  have hdrop : (head ++ (List.replicate n (0 : UInt8) ++ tail)).drop (head.length + s.bytes.length)
      = List.replicate (n - s.length) 0 ++ tail := by
    unfold CStr.length at h
    rw [List.drop_append, List.drop_append_of_le_length (by simpa using h), List.drop_replicate]
    simp [CStr.length]
  rw [overlay, List.take_left, hdrop, field]
  simp only [List.append_assoc]

theorem copyInto_zeros (head tail : List UInt8) (h : s.length ≤ n) :
    copyInto (head ++ (List.replicate n 0 ++ tail)) head.length s
      = some (head ++ (field n s ++ tail)) := by
  have hle : head.length + s.length ≤ (head ++ (List.replicate n (0 : UInt8) ++ tail)).length := by
    simp only [List.length_append, List.length_replicate]
    omega
  rw [copyInto, if_pos hle, overlay_zeros h]

variable {c : ClientRequest} {fresh : Nat → CharArray 32} {i : Nat}

/-- The bytes that a client writes. -/
theorem write_of (h : c.Fits) :
    c.write = some (c.opcode :: (field clientNamedPipePathLength c.pipeName ++
      (c.boxName.map (field boxNameLength)).getD [])) := by
  obtain ⟨hpipe, hbox⟩ := h
  have hpipe' : c.pipeName.length ≤ clientNamedPipePathLength := by
    unfold clientNamedPipePathLength
    omega
  have hlen := length_field hpipe'
  -- The buffer is all zeros behind the opcode, so each copy is padded to its field.
  have hzeros : c.opcode :: List.replicate (clientNamedPipePathLength + boxNameLength) (0 : UInt8)
      = [c.opcode] ++ (List.replicate clientNamedPipePathLength 0
        ++ List.replicate boxNameLength 0) := by
    rw [List.replicate_add]
    rfl
  have hfirst :
      copyInto (c.opcode :: List.replicate (clientNamedPipePathLength + boxNameLength) 0) 1
      c.pipeName = some ((c.opcode :: field clientNamedPipePathLength c.pipeName) ++
        (List.replicate boxNameLength 0 ++ [])) := by
    rw [hzeros, List.append_nil]
    exact copyInto_zeros _ _ hpipe'
  have hhead : (c.opcode :: field clientNamedPipePathLength c.pipeName).length
      = 1 + clientNamedPipePathLength := by
    rw [List.length_cons, hlen, Nat.add_comm]
  cases hname : c.boxName with
  | none =>
    have hlist : c.writeLength = 1 + clientNamedPipePathLength := by
      cases c with
      | listBoxes => rfl
      | _ => cases hname
    simp only [ClientRequest.write, parseMessage, hname, hfirst, hlist, Option.bind_eq_bind,
      Option.bind_some, Option.pure_def, Option.map_some, Option.map_none, Option.getD_none,
      List.append_nil]
    rw [List.take_left' hhead]
  | some name =>
    have hlong : c.writeLength = 1 + (clientNamedPipePathLength + boxNameLength) := by
      cases c with
      | listBoxes => cases hname
      | _ => rfl
    have hname' : name.length ≤ boxNameLength := (hbox name hname).trans (by decide)
    have hsecond := copyInto_zeros (c.opcode :: field clientNamedPipePathLength c.pipeName) []
      hname'
    rw [hhead] at hsecond
    simp only [ClientRequest.write, parseMessage, hname, hfirst, hlong,
      hsecond, Option.bind_eq_bind,
      Option.bind_some, Option.map_some, Option.getD_some]
    rw [List.append_nil, List.take_of_length_le]
    · rfl
    · rw [List.length_append, hhead, length_field hname', Nat.add_assoc]

theorem opcode_le : (c : ClientRequest) → ¬ c.opcode > 7
  | .registPub .. => show ¬ opCodeRegistPub > 7 by decide
  | .registSub .. => show ¬ opCodeRegistSub > 7 by decide
  | .createBox .. => show ¬ opCodeCreateBox > 7 by decide
  | .removeBox .. => show ¬ opCodeRemoveBox > 7 by decide
  | .listBoxes _ => show ¬ opCodeListBoxes > 7 by decide

theorem boxName_none_iff : c.boxName = none ↔ c.opcode = opCodeListBoxes := by
  cases c with
  | registPub => exact iff_of_false nofun (show opCodeRegistPub ≠ opCodeListBoxes by decide)
  | registSub => exact iff_of_false nofun (show opCodeRegistSub ≠ opCodeListBoxes by decide)
  | createBox => exact iff_of_false nofun (show opCodeCreateBox ≠ opCodeListBoxes by decide)
  | removeBox => exact iff_of_false nofun (show opCodeRemoveBox ≠ opCodeListBoxes by decide)
  | listBoxes => exact iff_of_true rfl rfl

/-- The broker reads a request back, and is left with what comes behind it. -/
theorem parser_write (h : c.Fits) (fresh : CharArray 32) (rest : List UInt8) :
    ∃ r, Decodes c r ∧ parser fresh c.opcode (field clientNamedPipePathLength c.pipeName ++
      (c.boxName.map (field boxNameLength)).getD [] ++ rest) = .request r rest := by
  obtain ⟨hpipe, hbox⟩ := h
  have hlen := length_field (n := clientNamedPipePathLength) (hpipe.trans (by decide))
  obtain ⟨path, hpath, hpathStr⟩ := strncpy_field (n := clientNamedPipePathLength) (s := c.pipeName)
    (show c.pipeName.length < 255 by omega)
  cases hname : c.boxName with
  | none =>
    have hop := boxName_none_iff.mp hname
    refine ⟨⟨c.opcode, path, fresh⟩, ⟨rfl, hpathStr, fun n hn => ?_⟩, ?_⟩
    · rw [hname] at hn
      cases hn
    · rw [parser, if_neg (opcode_le c), Option.map_none, Option.getD_none, List.append_nil,
        takeBytes_append hlen]
      dsimp only
      rw [hpath]
      dsimp only
      rw [if_neg (not_not_intro hop)]
  | some name =>
    have hop : c.opcode ≠ opCodeListBoxes := fun hc => by
      rw [boxName_none_iff.mpr hc] at hname
      cases hname
    have hname30 := hbox name hname
    have hlen' := length_field (n := boxNameLength) (hname30.trans (by decide))
    obtain ⟨box, hboxcpy, hboxStr⟩ := strncpy_field (n := boxNameLength) (s := name)
      (show name.length < 31 by omega)
    refine ⟨⟨c.opcode, path, box⟩, ⟨rfl, hpathStr, fun n hn => ?_⟩, ?_⟩
    · obtain rfl := Option.some.inj (hname.symm.trans hn)
      exact hboxStr
    · rw [parser, if_neg (opcode_le c), Option.map_some, Option.getD_some, List.append_assoc,
        takeBytes_append hlen]
      dsimp only
      rw [hpath]
      dsimp only
      rw [if_pos hop, takeBytes_append hlen']
      dsimp only
      rw [hboxcpy]

theorem mainLoop_write (h : c.Fits) {bytes : List UInt8} (hw : c.write = some bytes) :
    ∃ r, Decodes c r ∧ mainLoop fresh i (bytes ++ rest)
      = (r :: (mainLoop fresh (i + 1) rest).1, (mainLoop fresh (i + 1) rest).2) := by
  obtain ⟨r, hr, hparse⟩ := parser_write h (fresh i) rest
  rw [write_of h, Option.some.injEq] at hw
  subst hw
  refine ⟨r, hr, ?_⟩
  rw [List.cons_append, mainLoop]
  split
  · next r' rest' hp =>
    rw [hparse] at hp
    cases hp
    rfl
  · next hp =>
    rw [hparse] at hp
    cases hp
  · next hp =>
    rw [hparse] at hp
    cases hp

/-- The broker reads back any sequence of requests, and nothing is left over. -/
theorem requests_decoded (cs : List ClientRequest) (hfit : ∀ c ∈ cs, c.Fits)
    (fresh : Nat → CharArray 32) (i : Nat) :
    ∃ frames, cs.mapM ClientRequest.write = some frames ∧
      (mainLoop fresh i frames.flatten).2 = .waiting ∧
      List.Forall₂ Decodes cs (mainLoop fresh i frames.flatten).1 := by
  induction cs generalizing i with
  | nil =>
    refine ⟨[], rfl, ?_⟩
    rw [List.flatten_nil, mainLoop]
    exact ⟨rfl, .nil⟩
  | cons c cs ih =>
    obtain ⟨frames, hframes, hwait, hdec⟩ := ih (fun c' hc' => hfit c' (List.mem_cons_of_mem _ hc'))
      (i + 1)
    have hc := hfit c List.mem_cons_self
    obtain ⟨bytes, hw⟩ : ∃ bytes, c.write = some bytes := ⟨_, write_of hc⟩
    obtain ⟨r, hr, hloop⟩ := mainLoop_write hc hw
    refine ⟨bytes :: frames, ?_, ?_⟩
    · rw [List.mapM_cons, hw, hframes]
      rfl
    · rw [List.flatten_cons, hloop]
      exact ⟨hwait, .cons hr hdec⟩

/-- A registration, a list and a removal, one after the other. -/
theorem requests_decoded_three :
    ∃ frames, [ClientRequest.registPub ⟨[112], by decide⟩ ⟨[47, 97], by decide⟩,
        .listBoxes ⟨[113], by decide⟩, .removeBox ⟨[112], by decide⟩ ⟨[47, 97], by decide⟩].mapM
          ClientRequest.write = some frames ∧
      (mainLoop (fun _ => .ofStr .empty (by decide)) 0 frames.flatten).2 = .waiting ∧
      List.Forall₂ Decodes [ClientRequest.registPub ⟨[112], by decide⟩ ⟨[47, 97], by decide⟩,
        .listBoxes ⟨[113], by decide⟩, .removeBox ⟨[112], by decide⟩ ⟨[47, 97], by decide⟩]
        (mainLoop (fun _ => .ofStr .empty (by decide)) 0 frames.flatten).1 := by
  refine requests_decoded _ (fun c hc => ?_) _ 0
  rcases List.mem_cons.mp hc with rfl | hc
  · exact ⟨by decide, fun n hn => Option.some.inj hn ▸ by decide⟩
  rcases List.mem_cons.mp hc with rfl | hc
  · exact ⟨by decide, fun n hn => by cases hn⟩
  · rw [List.mem_singleton.mp hc]
    exact ⟨by decide, fun n hn => Option.some.inj hn ▸ by decide⟩

end MBroker
