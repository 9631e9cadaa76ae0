import MBroker.Broker.Replay
import MBroker.Wire.Requests

/-!
# Strings that fill their fields

The path of a pipe has a field of 255 bytes in a request and the name of a box one of 31.
The comments of `parse_message` say that longer strings are cut, but it copies `strlen` bytes:
a path that is too long goes on into the field of the name, and the name is copied over it.

`parser` reads a field into an array of exactly its size and copies it with `strncpy` to an
array with room for one more byte. A string that fills its field has no NUL in the local
array, so `strncpy` goes on with the byte that happens to lie behind the array.

Results:
1. `parseMessage_truncates_iff`: for which lengths the buffer is what the comments say.
2. `parserFrom_of_parsed`: without full fields the memory behind the arrays plays no role.
3. `parserFrom_terminated_iff`: the strings of a request are those that the client sent,
   whatever lies behind the arrays, exactly if no field is full.
-/

namespace MBroker

open ByteMemory ByteStream

/-! ## Zero padding -/

section Padding

variable {bytes : List UInt8} {m n : Nat}

theorem zeroPadded_of_le (h : bytes.length ≤ n) :
    zeroPadded bytes n = bytes ++ List.replicate (n - bytes.length) 0 := by
  rw [zeroPadded, List.take_append, List.take_of_length_le h, List.take_replicate,
    Nat.min_eq_left (Nat.sub_le _ _)]

theorem take_zeroPadded (h : m ≤ n) : (zeroPadded bytes n).take m = zeroPadded bytes m := by
  obtain ⟨d, rfl⟩ := Nat.exists_eq_add_of_le h
  have hle : m ≤ (bytes ++ List.replicate m 0).length := by
    rw [List.length_append, List.length_replicate]
    exact Nat.le_add_left m _
  rw [zeroPadded, List.take_take, Nat.min_eq_left h, List.replicate_add, ← List.append_assoc,
    List.take_append_of_le_length hle, zeroPadded]

/-- From some byte on a padded string is all zero if and only if the string has ended. -/
theorem drop_zeroPadded_iff {s : CStr} (h : s.length ≤ n) :
    (zeroPadded s.bytes n).drop m = List.replicate (n - m) 0 ↔ s.length ≤ m := by
  rw [zeroPadded_of_le h]
  constructor
  · intro hzeros
    by_contra hnot
    have hlt : m < s.bytes.length := Nat.lt_of_not_le hnot
    -- the byte at `m` is one of the string
    have hbyte : s.bytes[m] ∈ List.replicate (n - m) (0 : UInt8) := by
      rw [← hzeros, List.drop_append_of_le_length hlt.le, List.drop_eq_getElem_cons hlt]
      exact List.mem_cons_self
    exact s.nul_notMem (List.eq_of_mem_replicate hbyte ▸ List.getElem_mem hlt)
  · intro hend
    have hcount : n - s.bytes.length - (m - s.bytes.length) = n - m := by
      unfold CStr.length at hend
      omega
    rw [List.drop_append, List.drop_of_length_le hend, List.drop_replicate, List.nil_append, hcount]

end Padding

/-! ## What the clients put in the fields -/

/-- What the comments of `parse_message` say: both strings are cut to their fields. -/
def truncatedMessage (opcode : UInt8) (pipename : CStr) (boxName : Option CStr) : List UInt8 :=
  opcode :: (zeroPadded pipename.bytes clientNamedPipePathLength ++
    zeroPadded ((boxName.map CStr.bytes).getD []) boxNameLength)

/-- `strlen` of the name, or 0 where it is NULL. -/
def boxNameSize (boxName : Option CStr) : Nat := (boxName.map CStr.length).getD 0

section Parse

variable {opcode : UInt8} {pipename : CStr} {boxName : Option CStr}

/-- The first copy, which may go on into the field of the name. -/
theorem copyInto_path (h : pipename.length ≤ 286) :
    copyInto (opcode :: List.replicate (clientNamedPipePathLength + boxNameLength) 0) 1 pipename
      = some (opcode :: zeroPadded pipename.bytes 286) := by
  have hle : 1 + pipename.length
      ≤ (opcode :: List.replicate (clientNamedPipePathLength + boxNameLength)
        (0 : UInt8)).length := by
    rw [List.length_cons, List.length_replicate, Nat.add_comm]
    exact Nat.succ_le_succ h
  have hdrop : (List.replicate 286 (0 : UInt8)).drop pipename.bytes.length
      = List.replicate (286 - pipename.bytes.length) 0 := List.drop_replicate ..
  rw [copyInto, if_pos hle, zeroPadded_of_le h, ← hdrop, overlay, Nat.add_comm 1]
  rfl

theorem copyInto_path_none (h : 286 < pipename.length) :
    copyInto (opcode :: List.replicate (clientNamedPipePathLength + boxNameLength) 0) 1 pipename
      = none := by
  refine if_neg fun hle => ?_
  rw [List.length_cons, List.length_replicate, Nat.add_comm] at hle
  exact Nat.not_le.mpr h (Nat.le_of_succ_le_succ hle)

/-- The second copy covers as many bytes of the first as the name has. -/
theorem copyInto_name {name : CStr} (h : name.length ≤ boxNameLength) (path : List UInt8) :
    copyInto (opcode :: zeroPadded path 286) (1 + clientNamedPipePathLength) name
      = some (opcode :: (zeroPadded path clientNamedPipePathLength ++
          (name.bytes ++ (zeroPadded path 286).drop
            (clientNamedPipePathLength + name.length)))) := by
  have hlen : (opcode :: zeroPadded path 286).length = 1 + clientNamedPipePathLength
    + boxNameLength := by
    rw [List.length_cons, length_zeroPadded]
    rfl
  have hle : 1 + clientNamedPipePathLength + name.length
    ≤ (opcode :: zeroPadded path 286).length := by
    rw [hlen]
    exact Nat.add_le_add_left h _
  rw [copyInto, if_pos hle, overlay, Nat.add_comm 1, List.take_succ_cons,
    take_zeroPadded (show clientNamedPipePathLength ≤ 286 by decide), Nat.add_right_comm,
    List.drop_succ_cons, List.cons_append, List.cons_append, List.append_assoc]
  rfl

theorem copyInto_name_none {name : CStr} (h : boxNameLength < name.length) (path : List UInt8) :
    copyInto (opcode :: zeroPadded path 286) (1 + clientNamedPipePathLength) name = none := by
  refine if_neg fun hle => ?_
  rw [List.length_cons, length_zeroPadded] at hle
  exact Nat.not_le.mpr h (Nat.le_of_add_le_add_left hle)

/-- The buffer, if both strings fit in it. -/
theorem parseMessage_eq (hpath : pipename.length ≤ 286)
    (hname : boxNameSize boxName ≤ boxNameLength) :
    parseMessage opcode pipename boxName
      = some (opcode :: (zeroPadded pipename.bytes clientNamedPipePathLength ++
          ((boxName.map CStr.bytes).getD [] ++ (zeroPadded pipename.bytes 286).drop
            (clientNamedPipePathLength + boxNameSize boxName)))) := by
  cases boxName with
  | none =>
    simp only [parseMessage, copyInto_path hpath, Option.bind_eq_bind, Option.bind_some]
    rw [Option.map_none, Option.getD_none, List.nil_append,
      ← take_zeroPadded (show clientNamedPipePathLength ≤ 286 by decide)]
    exact congrArg (fun l => some (opcode :: l)) (List.take_append_drop ..).symm
  | some name =>
    simp only [parseMessage, copyInto_path hpath, Option.bind_eq_bind, Option.bind_some]
    exact copyInto_name hname _

theorem parseMessage_none (h : 286 < pipename.length ∨ boxNameLength < boxNameSize boxName) :
    parseMessage opcode pipename boxName = none := by
  rcases Nat.lt_or_ge 286 pipename.length with hlong | hpath
  · simp only [parseMessage, copyInto_path_none hlong, Option.bind_eq_bind, Option.bind_none]
  · have hname := h.resolve_left (Nat.not_lt.mpr hpath)
    cases boxName with
    | none => exact absurd hname (by decide)
    | some name =>
      simp only [parseMessage, copyInto_path hpath, Option.bind_eq_bind, Option.bind_some]
      exact copyInto_name_none hname _

/-- The buffer is what the comments say if and only if the name fits in its field and covers
the part of the path that does not fit in its own. The path alone leaves the field of the
name as it was if and only if it fits. -/
theorem parseMessage_truncates_iff (opcode : UInt8) (pipename : CStr) (boxName : Option CStr) :
    (parseMessage opcode pipename boxName = some (truncatedMessage opcode pipename boxName) ↔
      boxNameSize boxName ≤ boxNameLength ∧
        pipename.length ≤ clientNamedPipePathLength + boxNameSize boxName) ∧
    ((∃ buffer, copyInto (opcode :: List.replicate (clientNamedPipePathLength + boxNameLength) 0) 1
        pipename = some buffer ∧
        buffer.drop (1 + clientNamedPipePathLength) = List.replicate boxNameLength 0) ↔
      pipename.length ≤ clientNamedPipePathLength) := by
  have hdrop : ∀ k, 286 - (clientNamedPipePathLength + k) = boxNameLength - k := by
    intro k
    unfold clientNamedPipePathLength boxNameLength
    omega
  constructor
  · by_cases hfit : pipename.length ≤ 286 ∧ boxNameSize boxName ≤ boxNameLength
    · obtain ⟨hpath, hname⟩ := hfit
      have hpadded : zeroPadded ((boxName.map CStr.bytes).getD []) boxNameLength
          = (boxName.map CStr.bytes).getD []
            ++ List.replicate (boxNameLength - boxNameSize boxName) 0 := by
        cases boxName with
        | none => rfl
        | some name => exact zeroPadded_of_le hname
      rw [parseMessage_eq hpath hname, truncatedMessage, hpadded,
        Option.some.injEq, List.cons.injEq,
        List.append_cancel_left_eq, List.append_cancel_left_eq, ← hdrop, drop_zeroPadded_iff hpath]
      exact ⟨fun h => ⟨hname, h.2⟩, fun h => ⟨rfl, h.2⟩⟩
    · have hnone : parseMessage opcode pipename boxName = none := by
        refine parseMessage_none ?_
        rcases not_and_or.mp hfit with hpath | hname
        · exact Or.inl (Nat.lt_of_not_le hpath)
        · exact Or.inr (Nat.lt_of_not_le hname)
      refine iff_of_false ?_ fun h => hfit ⟨?_, h.1⟩
      · rw [hnone]
        exact nofun
      · exact h.2.trans (Nat.add_le_add_left h.1 clientNamedPipePathLength)
  · rcases Nat.lt_or_ge 286 pipename.length with hlong | hpath
    · refine iff_of_false ?_ fun h => absurd (hlong.trans_le h) (by decide)
      rintro ⟨buffer, hcopy, -⟩
      rw [copyInto_path_none hlong] at hcopy
      cases hcopy
    · rw [copyInto_path hpath, ← drop_zeroPadded_iff hpath]
      constructor
      · rintro ⟨buffer, hcopy, hzeros⟩
        obtain rfl := Option.some.inj hcopy
        rw [Nat.add_comm 1, List.drop_succ_cons] at hzeros
        exact hzeros
      · intro hzeros
        refine ⟨_, rfl, ?_⟩
        rw [Nat.add_comm 1, List.drop_succ_cons]
        exact hzeros

end Parse

/-- The 256th byte of a path is the first of the field of the name, and a name of 32 bytes
is written behind the buffer. -/
theorem long_arguments_kept :
    (parseMessage opCodeListBoxes (.ofBytes (List.replicate 256 97)) none
        = some (opCodeListBoxes :: (List.replicate 256 97 ++ List.replicate 30 0)) ∧
      truncatedMessage opCodeListBoxes (.ofBytes (List.replicate 256 97)) none
        = opCodeListBoxes :: (List.replicate 255 97 ++ List.replicate 31 0)) ∧
    parseMessage opCodeCreateBox (.ofBytes [112])
    (some (.ofBytes (List.replicate 32 97))) = none := by
  decide +kernel

/-! ## What the broker takes from the fields -/

/-- A `char[n]` that may be full: no byte of it needs to be NUL. -/
structure Chars (n : Nat) where
  bytes : List UInt8
  size : bytes.length = n

namespace Chars

variable {n : Nat}

/-- The array holds this string, with its NUL. -/
structure Holds (a : Chars n) (s : CStr) : Prop where
  terminated : (0 : UInt8) ∈ a.bytes
  str : CStr.ofBytes a.bytes = s

/-- An array that is known to have a NUL. -/
def ofCharArray (a : CharArray n) : Chars n := ⟨a.bytes, a.size⟩

end Chars

/-- `strncpy(dst, src, n)` where `src` is all the memory from the source on: the bytes before
the first NUL among the first `n`, and NULs up to `n`. -/
def strncpyFrom (src : List UInt8) (n : Nat) : Chars n :=
  ⟨zeroPadded (CStr.ofBytes (src.take n)).bytes n, length_zeroPadded _ _⟩

theorem bytes_strncpyFrom (src : List UInt8) (n : Nat) :
    (strncpyFrom src n).bytes = zeroPadded (CStr.ofBytes (src.take n)).bytes n := rfl

/-- `request_t`. -/
structure RawRequest where
  opcode : UInt8
  clientPipename : Chars (clientNamedPipePathLength + 1)
  boxName : Chars (boxNameLength + 1)

def RawRequest.ofRequest (r : Request) : RawRequest :=
  ⟨r.opcode, .ofCharArray r.clientPipename, .ofCharArray r.boxName⟩

/-- `parser`, with the bytes that lie behind its two arrays. -/
def parserFrom (behind behind2 : UInt8) (fresh : Chars (boxNameLength + 1)) (opCode : UInt8)
    (input : List UInt8) : Option (RawRequest × List UInt8) :=
  if opCode > 7 then none
  else
    match takeBytes clientNamedPipePathLength input with
    | none => none
    | some (buffer, input) =>
      let clientPipename := strncpyFrom (buffer ++ [behind]) (clientNamedPipePathLength + 1)
      if opCode ≠ opCodeListBoxes then
        match takeBytes boxNameLength input with
        | none => none
        | some (buffer2, input) =>
          some (⟨opCode, clientPipename,
            strncpyFrom (buffer2 ++ [behind2]) (boxNameLength + 1)⟩, input)
      else some (⟨opCode, clientPipename, fresh⟩, input)

/-- The two strings of a `client_t`. -/
structure RawClient where
  clientPipename : Chars (clientNamedPipePathLength + 1)
  boxName : Chars (boxNameLength + 1)

/-- What `client_session` copies from a request to the record of its worker. -/
def RawClient.copyRequest (c : RawClient) (r : RawRequest) : RawClient where
  clientPipename := r.clientPipename
  boxName := if r.opcode ≠ opCodeListBoxes then r.boxName else c.boxName

section Copy

variable {n : Nat} {bytes : List UInt8} {a : CharArray (n + 1)} {behind behind2 : UInt8}

/-- The string in an array that has a NUL is copied, whatever lies behind. -/
theorem strncpyFrom_terminated (h : (0 : UInt8) ∈ bytes) (hsize : bytes.length = n)
    (behind : UInt8) :
    (strncpyFrom (bytes ++ [behind]) (n + 1)).bytes
      = (CStr.ofBytes bytes).bytes ++ List.replicate (n + 1 - (CStr.ofBytes bytes).length) 0 := by
  have htake : (bytes ++ [behind]).take (n + 1) = bytes ++ [behind] :=
    List.take_of_length_le (by rw [List.length_append, hsize]; rfl)
  have hstr : CStr.ofBytes (bytes ++ [behind]) = CStr.ofBytes bytes := by
    obtain ⟨v, hv⟩ := CStr.eq_ofBytes_append h
    have hmore : bytes ++ [behind] = (CStr.ofBytes bytes).bytes ++ 0 :: (v ++ [behind]) := by
      rw [← List.cons_append, ← List.append_assoc, ← hv]
    rw [hmore, CStr.ofBytes_append_nul]
  have hle : (CStr.ofBytes bytes).bytes.length ≤ n + 1 := by
    have := CStr.length_ofBytes_le bytes
    unfold CStr.length at this
    omega
  rw [bytes_strncpyFrom, htake, hstr, zeroPadded_of_le hle]
  rfl

/-- A full array is copied with the byte behind it. -/
theorem strncpyFrom_full (h : (0 : UInt8) ∉ bytes) (hsize : bytes.length = n) (hb : behind ≠ 0) :
    (strncpyFrom (bytes ++ [behind]) (n + 1)).bytes = bytes ++ [behind] := by
  have hlen : (bytes ++ [behind]).length = n + 1 := by
    rw [List.length_append, hsize]
    rfl
  have hnul : (0 : UInt8) ∉ bytes ++ [behind] := by
    rw [List.mem_append, List.mem_singleton]
    exact not_or.mpr ⟨h, hb.symm⟩
  have hstr : CStr.ofBytes (bytes ++ [behind]) = ⟨bytes ++ [behind], hnul⟩ :=
    CStr.ofBytes_self ⟨bytes ++ [behind], hnul⟩
  rw [bytes_strncpyFrom, List.take_of_length_le hlen.le, hstr,
    zeroPadded_of_le hlen.le, hlen, Nat.sub_self]
  exact List.append_nil _

theorem strncpyFrom_holds (h : (0 : UInt8) ∈ bytes) (hsize : bytes.length = n) (behind : UInt8) :
    (strncpyFrom (bytes ++ [behind]) (n + 1)).Holds (CStr.ofBytes bytes) := by
  have hle : (CStr.ofBytes bytes).length < n + 1 := by
    have := CStr.length_ofBytes_le bytes
    omega
  have harray := strncpyFrom_terminated h hsize behind
  constructor
  · rw [harray]
    exact (CharArray.ofStr _ hle).terminated
  · rw [harray]
    exact CharArray.str_ofStr _ hle

/-- Whether the copy holds the string of the array for every byte behind it. -/
theorem strncpyFrom_holds_iff (hsize : bytes.length = n) :
    (∀ behind, (strncpyFrom (bytes ++ [behind]) (n + 1)).Holds (CStr.ofBytes bytes)) ↔
      (0 : UInt8) ∈ bytes := by
  constructor
  · intro hall
    by_contra hfull
    have hnul := (hall 1).terminated
    rw [strncpyFrom_full hfull hsize (by decide), List.mem_append, List.mem_singleton] at hnul
    exact hnul.elim hfull nofun
  · intro h behind
    exact strncpyFrom_holds h hsize behind

/-- Where `strncpy` stays in the array, the memory behind it plays no role. -/
theorem strncpyFrom_of_strncpy (hsize : bytes.length = n) (h : strncpy n bytes = some a)
    (behind : UInt8) :
    strncpyFrom (bytes ++ [behind]) (n + 1) = .ofCharArray a := by
  unfold strncpy at h
  split at h
  · next hnul =>
    obtain rfl := Option.some.inj h
    have hbytes := strncpyFrom_terminated hnul.1 hsize behind
    rw [Chars.ofCharArray, CharArray.ofStr]
    exact (Chars.mk.injEq ..).mpr hbytes
  · cases h

/-- A request without full fields is the same for all contents of the memory. -/
theorem parserFrom_of_parsed {fresh : CharArray 32} {opCode : UInt8} {input rest : List UInt8}
    {r : Request} (h : parser fresh opCode input = .request r rest) (behind behind2 : UInt8) :
    parserFrom behind behind2 (.ofCharArray fresh) opCode input = some (.ofRequest r, rest) := by
  unfold parser at h
  unfold parserFrom
  by_cases hop : opCode > 7
  · rw [if_pos hop] at h
    cases h
  rw [if_neg hop] at h ⊢
  cases htake : takeBytes clientNamedPipePathLength input with
  | none =>
    rw [htake] at h
    cases h
  | some taken =>
    obtain ⟨buffer, input'⟩ := taken
    have hsize := (takeBytes_length htake).1
    rw [htake] at h
    dsimp only at h ⊢
    cases hpath : strncpy clientNamedPipePathLength buffer with
    | none =>
      rw [hpath] at h
      cases h
    | some clientPipename =>
      rw [strncpyFrom_of_strncpy hsize hpath behind]
      rw [hpath] at h
      dsimp only at h
      by_cases hlist : opCode ≠ opCodeListBoxes
      · rw [if_pos hlist] at h ⊢
        cases htake' : takeBytes boxNameLength input' with
        | none =>
          rw [htake'] at h
          cases h
        | some taken' =>
          obtain ⟨buffer2, input''⟩ := taken'
          have hsize' := (takeBytes_length htake').1
          rw [htake'] at h
          dsimp only at h ⊢
          cases hname : strncpy boxNameLength buffer2 with
          | none =>
            rw [hname] at h
            cases h
          | some boxName =>
            rw [strncpyFrom_of_strncpy hsize' hname behind2]
            rw [hname] at h
            cases h
            rfl
      · rw [if_neg hlist] at h ⊢
        cases h
        rfl

/-- What a client sends behind the operation code. -/
def sentFields (opCode : UInt8) (path : Chars clientNamedPipePathLength)
    (name : Chars boxNameLength) :
    List UInt8 :=
  path.bytes ++ if opCode ≠ opCodeListBoxes then name.bytes else []

/-- The request for these fields. -/
theorem parserFrom_fields {opCode : UInt8} (hop : ¬ opCode > 7)
    (path : Chars clientNamedPipePathLength) (name : Chars boxNameLength) (rest : List UInt8)
    (behind behind2 : UInt8) (fresh : Chars (boxNameLength + 1)) :
    parserFrom behind behind2 fresh opCode (sentFields opCode path name ++ rest)
      = some (⟨opCode, strncpyFrom (path.bytes ++ [behind]) (clientNamedPipePathLength + 1),
          if opCode ≠ opCodeListBoxes then strncpyFrom (name.bytes ++ [behind2]) (boxNameLength + 1)
          else fresh⟩, rest) := by
  rw [parserFrom, if_neg hop, sentFields, List.append_assoc, takeBytes_append path.size]
  dsimp only
  split
  · rw [takeBytes_append name.size]
  · rfl

/-- The strings of a request are those of its fields. -/
structure HoldsFields (opCode : UInt8) (path : Chars clientNamedPipePathLength)
    (name : Chars boxNameLength) (clientPipename : Chars (clientNamedPipePathLength + 1))
    (boxName : Chars (boxNameLength + 1)) : Prop where
  clientPipename : clientPipename.Holds (.ofBytes path.bytes)
  boxName : opCode ≠ opCodeListBoxes → boxName.Holds (.ofBytes name.bytes)

/-- The request, and then the record of the worker that takes it, hold the strings that the
client sent, whatever lies behind the two arrays of `parser`, if and only if each field that is
read has a NUL. A list request has no field for a name; the name in the record then stays. -/
theorem parserFrom_terminated_iff {opCode : UInt8} (hop : ¬ opCode > 7)
    (path : Chars clientNamedPipePathLength) (name : Chars boxNameLength) (rest : List UInt8) :
    (∀ (behind behind2 : UInt8) (fresh : Chars (boxNameLength + 1)), ∃ r,
      parserFrom behind behind2 fresh opCode (sentFields opCode path name ++ rest)
        = some (r, rest) ∧
        r.opcode = opCode ∧ HoldsFields opCode path name r.clientPipename r.boxName ∧
        ∀ c : RawClient,
          HoldsFields opCode path name (c.copyRequest r).clientPipename (c.copyRequest r).boxName ∧
            (opCode = opCodeListBoxes → (c.copyRequest r).boxName = c.boxName)) ↔
      (0 : UInt8) ∈ path.bytes ∧ (opCode ≠ opCodeListBoxes → (0 : UInt8) ∈ name.bytes) := by
  constructor
  · intro hall
    constructor
    · refine (strncpyFrom_holds_iff path.size).mp fun behind => ?_
      obtain ⟨r, hr, -, hfields, -⟩ := hall behind 0 ⟨List.replicate 32 0, rfl⟩
      rw [parserFrom_fields hop] at hr
      cases hr
      exact hfields.clientPipename
    · intro hlist
      refine (strncpyFrom_holds_iff name.size).mp fun behind2 => ?_
      obtain ⟨r, hr, -, hfields, -⟩ := hall 0 behind2 ⟨List.replicate 32 0, rfl⟩
      rw [parserFrom_fields hop] at hr
      cases hr
      have hname := hfields.boxName hlist
      rw [if_pos hlist] at hname
      exact hname
  · rintro ⟨hpath, hname⟩ behind behind2 fresh
    have hpath' := strncpyFrom_holds hpath path.size behind
    have hname' : opCode ≠ opCodeListBoxes →
        (if opCode ≠ opCodeListBoxes then strncpyFrom (name.bytes ++ [behind2]) (boxNameLength + 1)
          else fresh).Holds (.ofBytes name.bytes) := by
      intro hlist
      rw [if_pos hlist]
      exact strncpyFrom_holds (hname hlist) name.size behind2
    refine ⟨_, parserFrom_fields hop path name rest behind behind2 fresh, rfl, ⟨hpath', hname'⟩,
      fun c => ⟨⟨hpath', fun hlist => ?_⟩, fun hlist => if_neg (not_not_intro hlist)⟩⟩
    have hsame : ∀ r : RawRequest, r.opcode = opCode → (c.copyRequest r).boxName = r.boxName :=
      fun r hr => if_pos (hr ▸ hlist)
    rw [hsame _ rfl]
    exact hname' hlist

/-- A publisher that registers for the box `/a`. -/
theorem parserFrom_terminated_short : ∃ r,
    parserFrom 1 1 ⟨List.replicate 32 1, rfl⟩ opCodeRegistPub (sentFields opCodeRegistPub
        ⟨zeroPadded [112] 255, length_zeroPadded _ _⟩
        ⟨zeroPadded [47, 97] 31, length_zeroPadded _ _⟩ ++ []) = some (r, []) ∧
      r.boxName.Holds (.ofBytes (zeroPadded [47, 97] 31)) := by
  obtain ⟨r, hr, -, hfields, -⟩ := (@parserFrom_terminated_iff opCodeRegistPub (by decide)
    ⟨zeroPadded [112] 255, length_zeroPadded _ _⟩
    ⟨zeroPadded [47, 97] 31, length_zeroPadded _ _⟩ []).mpr
      ⟨by decide +kernel, fun _ => by decide +kernel⟩ 1 1 ⟨List.replicate 32 1, rfl⟩
  exact ⟨r, hr, hfields.boxName (by decide)⟩

/-- A publisher that registers for a box whose name has 31 bytes, while a byte that is not NUL
lies behind the array. -/
theorem full_name_unterminated : ∃ r,
    (ClientRequest.registPub (.ofBytes [112]) (.ofBytes (47 :: List.replicate 30 97))).write
        = some (opCodeRegistPub :: sentFields opCodeRegistPub
            ⟨zeroPadded [112] 255, length_zeroPadded _ _⟩ ⟨47 :: List.replicate 30 97, rfl⟩) ∧
      parserFrom 0 98 ⟨List.replicate 32 0, rfl⟩ opCodeRegistPub (sentFields opCodeRegistPub
        ⟨zeroPadded [112] 255, length_zeroPadded _ _⟩ ⟨47 :: List.replicate 30 97, rfl⟩ ++ [])
          = some (r, []) ∧
      (0 : UInt8) ∉ r.boxName.bytes :=
  ⟨_, by decide +kernel, parserFrom_fields (by decide) _ _ [] 0 98 _, by decide +kernel⟩

end Copy

end MBroker
