import MBroker.Broker.Replay
import MBroker.Library.Lines
import MBroker.Wire.Fields

/-!
# The lines of a publisher

`main` in `publisher/pub.c` sends each line of its input in a frame: the operation code and
the line in 1023 bytes, which it builds in one buffer. It takes the last character of what
`getline` has read for the newline and puts a NUL in its place.

Results:
1. `turn_line`, `turn_error`: one turn of the loop sends the line without its last character;
   after a failed read it overwrites the operation code.
2. `mainLoop_closed`: what is sent is what an input would give that has a newline in the
   place of its last character.
3. `lines_published_iff`: every line is sent if and only if every line is terminated.
-/

namespace MBroker

open ByteMemory TextLines

namespace Publisher

/-- The byte `'\n'`. -/
def newline : UInt8 := 10

/-! ## Standard input -/

/-- `stdin`: what is still to be read, whether the end-of-file indicator is set, and whether
a read fails behind the input instead of finding the end of file. -/
structure Stdin where
  input : List UInt8
  eof : Bool
  broken : Bool

/-- What `getline` and `feof` tell. -/
inductive LineRead
  /-- the characters that were read, the newline included -/
  | line (chars : List UInt8)
  /-- -1, and the end-of-file indicator is set -/
  | endOfFile
  /-- -1, and the end-of-file indicator is not set -/
  | error

/-- `getline`: up to the next newline, or up to the end of file if there is something. -/
def getline (stdin : Stdin) : LineRead × Stdin :=
  if newline ∈ stdin.input then
    (.line (stdin.input.takeWhile (· != newline) ++ [newline]),
      { stdin with input := (stdin.input.dropWhile (· != newline)).tail })
  else if stdin.broken then (.error, { stdin with input := [] })
  else if stdin.input = [] then (.endOfFile, { stdin with eof := true })
  else (.line stdin.input, { stdin with input := [], eof := true })

/-! ## The loop -/

/-- `message_text[strlen(message_text) - 1] = '\0'`, where `message_text` is `message + 1`. -/
def cutLast (message : List UInt8) : List UInt8 :=
  message.set (CStr.ofBytes (message.drop 1)).length 0

/-- One turn of the loop up to its write. -/
inductive Turn
  | returned (code : Int)
  /-- the line does not fit: `getline` calls `realloc` on the buffer -/
  | grown
  | writes (message : List UInt8) (stdin : Stdin)

def turn (message : List UInt8) (stdin : Stdin) : Turn :=
  if stdin.eof then .returned 0
  else
    let message := overlay message 1 (List.replicate messageLength 0)
    match getline stdin with
    | (.endOfFile, _) => .returned 0
    | (.error, stdin) => .writes (cutLast message) stdin
    | (.line chars, stdin) =>
      if messageLength < chars.length + 1 then .grown
      else .writes (cutLast (overlay message 1 (chars ++ [0]))) stdin

/-- How far `main` has come. -/
inductive Progress
  | returned (code : Int)
  | grown
  /-- it waits for its write -/
  | writing
deriving DecidableEq

/-- The loop of `main`, with the results of its writes: the bytes of each write that the pipe
has taken. -/
def mainLoop (message : List UInt8) (stdin : Stdin) :
    List WriteResult → List (List UInt8) × Progress
  | [] =>
    match turn message stdin with
    | .returned code => ([], .returned code)
    | .grown => ([], .grown)
    | .writes .. => ([], .writing)
  | result :: results =>
    match turn message stdin with
    | .returned code => ([], .returned code)
    | .grown => ([], .grown)
    | .writes message stdin =>
      match result with
      | .wrote 0 | .epipe => ([], .returned 0)
      | .error => ([], .returned (-1))
      | .wrote (n + 1) =>
        let (frames, progress) := mainLoop message stdin results
        (message.take (n + 1) :: frames, progress)

/-- The frame for a line. -/
def frame (line : List UInt8) : List UInt8 := opCodePublisher :: zeroPadded line messageLength

/-! ## One turn -/

section Turn

variable {line rest chars text : List UInt8}

theorem getline_line (h : newline ∉ line) (rest : List UInt8) :
    getline ⟨line ++ newline :: rest, false, false⟩
      = (.line (line ++ [newline]), ⟨rest, false, false⟩) := by
  have hall : ∀ c ∈ line, (c != newline) = true := by
    intro c hc
    rw [bne_iff_ne]
    rintro rfl
    exact h hc
  have hmem : newline ∈ line ++ newline :: rest := by simp
  rw [getline, if_pos hmem, List.takeWhile_append_of_pos hall, List.dropWhile_append_of_pos hall]
  simp

theorem getline_last (hne : line ≠ []) (h : newline ∉ line) :
    getline ⟨line, false, false⟩ = (.line line, ⟨[], true, false⟩) := by
  rw [getline, if_neg h, if_neg Bool.false_ne_true, if_neg hne]

/-- `memset(message_text, 0, MESSAGE_LENGTH)`. -/
theorem memset_text (hlen : text.length = messageLength) :
    overlay (opCodePublisher :: text) 1 (List.replicate messageLength 0)
      = opCodePublisher :: List.replicate messageLength 0 := by
  have hdrop : (opCodePublisher :: text).drop (1 + messageLength) = [] :=
    List.drop_of_length_le (by rw [List.length_cons, hlen, Nat.add_comm])
  rw [overlay, List.length_replicate, hdrop, List.append_nil]
  rfl

/-- A text that `getline` stores in the buffer, whatever an earlier line has left there. -/
theorem overlay_text (h : chars.length + 1 ≤ messageLength) (hlen : text.length = messageLength) :
    overlay (overlay (opCodePublisher :: text) 1 (List.replicate messageLength 0)) 1 (chars ++ [0])
      = frame chars := by
  have htail : (opCodePublisher :: List.replicate messageLength (0 : UInt8)).drop
      (1 + (chars ++ [0]).length) = List.replicate (messageLength - (chars.length + 1)) 0 := by
    rw [Nat.add_comm 1, List.drop_succ_cons, List.drop_replicate, List.length_append]
    rfl
  have hpadded : zeroPadded chars messageLength
      = chars ++ [0] ++ List.replicate (messageLength - (chars.length + 1)) 0 := by
    obtain ⟨d, hd⟩ : ∃ d, messageLength - chars.length = d + 1 :=
      ⟨messageLength - chars.length - 1, by omega⟩
    have hd' : messageLength - (chars.length + 1) = d := by omega
    rw [zeroPadded_of_le (Nat.le_of_succ_le h), hd, hd', List.replicate_succ, List.append_assoc]
    rfl
  rw [memset_text hlen, overlay, htail, frame, hpadded]
  rfl

/-- The character in front of the first NUL is removed. -/
theorem cutLast_frame (hne : chars ≠ []) (hnul : (0 : UInt8) ∉ chars)
    (h : chars.length ≤ messageLength) : cutLast (frame chars) = frame chars.dropLast := by
  obtain ⟨init, c, rfl⟩ := (List.eq_nil_or_concat' chars).resolve_left hne
  have hstr : (CStr.ofBytes ((frame (init ++ [c])).drop 1)).length = init.length + 1 := by
    have hmessage : messageStr (zeroPadded (init ++ [c]) messageLength) = ⟨init ++ [c], hnul⟩ :=
      Broker.messageStr_zeroPadded (m := ⟨init ++ [c], hnul⟩) h
    rw [frame, List.drop_succ_cons, List.drop_zero]
    exact (congrArg CStr.length hmessage).trans List.length_append
  rw [List.length_append] at h
  have hinit : zeroPadded (init ++ [c]) messageLength
      = init ++ c :: List.replicate (messageLength - (init.length + 1)) 0 := by
    rw [zeroPadded_of_le (by rw [List.length_append]; exact h),
      List.length_append, List.append_assoc]
    rfl
  have hcut : zeroPadded init messageLength
      = init ++ 0 :: List.replicate (messageLength - (init.length + 1)) 0 := by
    have hd : messageLength - init.length = messageLength - (init.length + 1) + 1 := by
      rw [List.length_singleton] at h
      omega
    rw [zeroPadded_of_le (Nat.le_of_succ_le h), hd, List.replicate_succ]
  rw [cutLast, hstr, List.dropLast_concat, frame, frame, List.set_cons_succ, hinit, hcut,
    List.set_append_right _ _ (le_refl _), Nat.sub_self, List.set_cons_zero]

/-- What one turn sends for the characters that were read. -/
theorem turn_line {stdin stdin' : Stdin} (heof : stdin.eof = false)
    (hread : getline stdin = (.line chars, stdin')) (hne : chars ≠ []) (hnul : (0 : UInt8) ∉ chars)
    (h : chars.length + 1 ≤ messageLength) (hlen : text.length = messageLength) :
    turn (opCodePublisher :: text) stdin = .writes (frame chars.dropLast) stdin' := by
  rw [turn, heof, if_neg Bool.false_ne_true, hread]
  dsimp only
  rw [if_neg (Nat.not_lt.mpr h), overlay_text h hlen, cutLast_frame hne hnul (Nat.le_of_succ_le h)]

/-- A read that fails leaves an empty text, so the character in front of its NUL is the
operation code. -/
theorem turn_error {stdin stdin' : Stdin} (heof : stdin.eof = false)
    (hread : getline stdin = (.error, stdin')) (hlen : text.length = messageLength) :
    turn (opCodePublisher :: text) stdin
      = .writes (0 :: List.replicate messageLength 0) stdin' := by
  have hstr : (CStr.ofBytes (List.replicate messageLength 0)).length = 0 := rfl
  rw [turn, heof, if_neg Bool.false_ne_true, hread, memset_text hlen]
  dsimp only
  rw [cutLast, List.drop_succ_cons, List.drop_zero, hstr, List.set_cons_zero]

end Turn

/-! ## All turns -/

section Lines

variable {input line rest text : List UInt8} {k : Nat}

theorem length_frame (line : List UInt8) : (frame line).length = messageLength + 1 := by
  rw [frame, List.length_cons, length_zeroPadded]

/-- The string in the frame for a line. -/
theorem messageStr_frame (hnul : (0 : UInt8) ∉ line) (h : line.length ≤ messageLength) :
    messageStr ((frame line).drop 1) = ⟨line, hnul⟩ :=
  Broker.messageStr_zeroPadded (m := ⟨line, hnul⟩) h

theorem frame_inj {line' : List UInt8} (hnul : (0 : UInt8) ∉ line) (hnul' : (0 : UInt8) ∉ line')
    (h : line.length ≤ messageLength) (h' : line'.length ≤ messageLength) :
    frame line = frame line' ↔ line = line' := by
  constructor
  · intro hframe
    have hstr := congrArg (fun f : List UInt8 => messageStr (f.drop 1)) hframe
    rw [messageStr_frame hnul h, messageStr_frame hnul' h'] at hstr
    exact congrArg CStr.bytes hstr
  · rintro rfl
    rfl

/-- A turn that sends a frame, which the pipe takes whole. -/
theorem mainLoop_writes {message : List UInt8} {stdin stdin' : Stdin}
    (h : turn message stdin = .writes (frame line) stdin') (results : List WriteResult) :
    mainLoop message stdin (.wrote (messageLength + 1) :: results)
      = (frame line :: (mainLoop (frame line) stdin' results).1,
        (mainLoop (frame line) stdin' results).2) := by
  rw [mainLoop, h]
  dsimp only
  rw [List.take_of_length_le (length_frame line).le]

/-- The loop ends at the end of file, whether it has been found already or not. -/
theorem mainLoop_end {message : List UInt8} {eof : Bool} (results : List WriteResult) :
    mainLoop message ⟨[], eof, false⟩ results = ([], .returned 0) := by
  have hturn : turn message ⟨[], eof, false⟩ = .returned 0 := by
    cases eof <;> rfl
  cases results <;> rw [mainLoop, hturn]

/-- The last character of the input is taken for a newline. -/
theorem mainLoop_closed (hnul : (0 : UInt8) ∉ input)
    (hshort : ∀ line ∈ lines newline input, line.length ≤ 1021)
    (hk : (lines newline input).length ≤ k) (hlen : text.length = messageLength) :
    mainLoop (opCodePublisher :: text) ⟨input, false, false⟩
    (.replicate k (.wrote (messageLength + 1)))
      = ((lines newline (closed newline input)).map frame, .returned 0) := by
  induction input using lines_induction newline generalizing k text with
  | nil => exact mainLoop_end _
  | last line hne hline =>
    rw [lines_last hne hline] at hshort hk
    obtain ⟨k, rfl⟩ : ∃ d, k = d + 1 := Nat.exists_eq_add_one.mpr hk
    have hfit : line.length + 1 ≤ messageLength :=
      (Nat.succ_le_succ (hshort line List.mem_cons_self)).trans (by decide)
    have hcut : newline ∉ line.dropLast := fun h => hline (List.mem_of_mem_dropLast h)
    rw [List.replicate_succ, mainLoop_writes
      (turn_line rfl (getline_last hne hline) hne hnul hfit hlen),
      mainLoop_end, closed_last hne, lines_line hcut]
    rfl
  | line line rest hline ih =>
    rw [lines_line hline] at hshort hk
    obtain ⟨k, rfl⟩ : ∃ d, k = d + 1 := Nat.exists_eq_add_one.mpr
      (Nat.lt_of_lt_of_le (Nat.succ_pos _) hk)
    have hfit : (line ++ [newline]).length + 1 ≤ messageLength := by
      rw [List.length_append]
      exact (Nat.add_le_add_right (hshort line List.mem_cons_self) 2).trans (by decide)
    rw [List.mem_append, List.mem_cons, not_or, not_or] at hnul
    have hchars : (0 : UInt8) ∉ line ++ [newline] := by
      rw [List.mem_append, List.mem_singleton]
      exact not_or.mpr ⟨hnul.1, hnul.2.1⟩
    have hrest := ih hnul.2.2 (fun l hl => hshort l (List.mem_cons_of_mem _ hl))
      (Nat.le_of_succ_le_succ hk) (length_zeroPadded line messageLength)
    have hturn := turn_line rfl (getline_line hline rest)
      (List.append_ne_nil_of_right_ne_nil _ (List.cons_ne_nil _ _))
      hchars hfit hlen
    rw [List.dropLast_concat] at hturn
    rw [List.replicate_succ, mainLoop_writes hturn, closed_line, lines_line hline]
    exact congrArg (fun x : List (List UInt8) × Progress => (frame line :: x.1, x.2)) hrest

/-- The frames tell an unterminated line from the line without its last character. -/
theorem frames_closed_iff (hnul : (0 : UInt8) ∉ input)
    (hshort : ∀ line ∈ lines newline input, line.length ≤ 1021) :
    (lines newline (closed newline input)).map frame = (lines newline input).map frame ↔
      closed newline input = input := by
  induction input using lines_induction newline with
  | nil => exact iff_of_true rfl rfl
  | last line hne hline =>
    rw [lines_last hne hline] at hshort
    have hfit : line.length ≤ messageLength := (hshort line List.mem_cons_self).trans (by decide)
    have hcut : newline ∉ line.dropLast := fun h => hline (List.mem_of_mem_dropLast h)
    refine iff_of_false ?_ ?_
    · rw [closed_last hne, lines_line hcut, lines_last hne hline]
      intro hframes
      have hframe := (List.cons.inj hframes).1
      rw [frame_inj (fun h => hnul (List.mem_of_mem_dropLast h)) hnul
        (by rw [List.length_dropLast]; exact (Nat.sub_le _ _).trans hfit) hfit] at hframe
      have hlength := congrArg List.length hframe
      rw [List.length_dropLast] at hlength
      exact absurd hlength (Nat.sub_lt (List.length_pos_of_ne_nil hne) Nat.one_pos).ne
    · rw [closed_eq_self_iff]
      rintro (hnil | hlast)
      · exact hne hnil
      · exact hline (List.mem_of_getLast? hlast)
  | line line rest hline ih =>
    rw [lines_line hline] at hshort
    have hrest := ih (fun h => hnul (List.mem_append_right _ (List.mem_cons_of_mem _ h)))
      fun l hl => hshort l (List.mem_cons_of_mem _ hl)
    rw [closed_line, lines_line hline, lines_line hline, List.map_cons,
      List.map_cons, List.cons.injEq,
      List.append_cancel_left_eq, List.cons.injEq, hrest]
    exact ⟨fun h => ⟨rfl, h.2⟩, fun h => ⟨rfl, h.2⟩⟩

/-- The publisher sends one frame for each line, in order, and exits if and only if the input
is empty or ends with a newline: a last line that is not terminated is sent without its last
character. -/
theorem lines_published_iff (hnul : (0 : UInt8) ∉ input)
    (hshort : ∀ line ∈ lines newline input, line.length ≤ 1021)
    (hk : (lines newline input).length ≤ k) (garbage : Chars messageLength) :
    mainLoop (opCodePublisher :: garbage.bytes) ⟨input, false, false⟩
        (.replicate k (.wrote (messageLength + 1))) =
        ((lines newline input).map frame, .returned 0) ↔
      input = [] ∨ input.getLast? = some newline := by
  rw [mainLoop_closed hnul hshort hk garbage.size, Prod.mk.injEq, and_iff_left rfl,
    frames_closed_iff hnul hshort, closed_eq_self_iff]

end Lines

/-- The lines "hello" and "hi". -/
theorem lines_published_two :
    mainLoop (opCodePublisher :: List.replicate messageLength 0)
        ⟨[104, 101, 108, 108, 111, newline, 104, 105, newline], false, false⟩
        [.wrote (messageLength + 1), .wrote (messageLength + 1)]
      = ([frame [104, 101, 108, 108, 111], frame [104, 105]], .returned 0) :=
  (lines_published_iff (k := 2) (by decide) (by decide) (by decide)
    ⟨List.replicate messageLength 0, List.length_replicate⟩).mpr (Or.inr rfl)

/-- The input "hi" without a newline: the publisher sends "h". -/
theorem unterminated_line_cut :
    mainLoop (opCodePublisher :: List.replicate messageLength 0) ⟨[104, 105], false, false⟩
        [.wrote (messageLength + 1)] = ([frame [104]], .returned 0) ∧
      lines newline [104, 105] = [[104, 105]] ∧ frame [104] ≠ frame [104, 105] :=
  ⟨mainLoop_closed (k := 1) (by decide) (by decide) (by decide) List.length_replicate, rfl,
    mt (frame_inj (by decide) (by decide) (by decide) (by decide)).mp (by decide)⟩

end Publisher

end MBroker
