import MBroker.Library.Runs
import MBroker.Wire.Fields

/-!
# The subscriber program (`subscriber/sub.c`)

The loop of `main` reads an operation code, reads a message over what the last one has left
in `message`, counts it in an `int` and prints it. The handler of SIGINT may run between any
two of these steps; it reports the count through a buffer of `sizeof(int)` bytes.

Results:
1. `count_printed`: the count is the number of lines printed, or one ahead of it.
2. `reported_iff`: the handler reports the count as long as there are fewer than 1000
   messages; from then on it writes behind its buffer.
-/

namespace MBroker

open ByteMemory Transition

namespace Subscriber

/-- Where `main` is in its loop. -/
inductive Place
  /-- it reads the operation code -/
  | opCode
  /-- it reads the message -/
  | message
  /-- the message is counted and not printed -/
  | printing
  | returned (code : Int)
deriving DecidableEq

/-- `main` of the subscriber once its pipe is open. `printed` is what went to the standard
output, one line each. -/
structure Program where
  place : Place
  message : Chars (messageLength + 1)
  messageCount : Nat
  printed : List CStr

/-- The largest `int`. -/
def intMax : Nat := 2147483647

inductive Event
  /-- `try_read` returns: the bytes that it delivers, none at the end of the pipe; no list if
  it fails -/
  | read (result : Option (List UInt8))
  | print

namespace Program

/-- `message` is uninitialised. -/
def start (garbage : Chars (messageLength + 1)) : Program :=
  { place := .opCode
    message := garbage
    messageCount := 0
    printed := [] }

theorem length_stored {message : Chars (messageLength + 1)} {bytes : List UInt8}
    (h : bytes.length ≤ messageLength) :
    ((overlay message.bytes 0 bytes).take messageLength ++ [0]).length = messageLength + 1 := by
  have hsize := message.size
  simp only [overlay, List.length_append, List.length_take, List.length_drop, List.length_singleton]
  omega

/-- `try_read` stores its bytes at the start of `message`, and the last byte becomes NUL. -/
def stored (message : Chars (messageLength + 1)) (bytes : List UInt8)
    (h : bytes.length ≤ messageLength) :
    Chars (messageLength + 1) :=
  ⟨(overlay message.bytes 0 bytes).take messageLength ++ [0], length_stored h⟩

variable (s : Program)

def step (e : Event) : Option Program :=
  match s.place, e with
  | .opCode, .read result =>
    match result with
    | none => some { s with place := .returned (-1) }
    | some [] => some { s with place := .returned 0 }
    | some [_] => some { s with place := .message }
    | some _ => none
  | .message, .read result =>
    match result with
    | none => some { s with place := .returned (-1) }
    | some bytes =>
      if h : bytes.length ≤ messageLength then
        if bytes = [] then some { s with place := .returned 0 }
        else if s.messageCount < intMax then some
          { s with
            place := .printing
            message := stored s.message bytes h
            messageCount := s.messageCount + 1 }
        -- `message_count++` overflows, which is undefined.
        else none
      else none
  | .printing, .print =>
    some { s with place := .opCode, printed := s.printed ++ [.ofBytes s.message.bytes] }
  | _, _ => none

variable {s t : Program} {bytes : List UInt8}

theorem step_opCode (hplace : s.place = .opCode) (op : UInt8) :
    s.step (.read (some [op])) = some { s with place := .message } := by
  unfold step
  rw [hplace]

theorem step_message (hplace : s.place = .message) (hne : bytes ≠ [])
    (hle : bytes.length ≤ messageLength)
    (hcount : s.messageCount < intMax) : s.step (.read (some bytes)) = some
      { s with
        place := .printing
        message := stored s.message bytes hle
        messageCount := s.messageCount + 1 } := by
  unfold step
  rw [hplace]
  dsimp only
  rw [dif_pos hle, if_neg hne, if_pos hcount]

/-- The operation code is read and not looked at. -/
theorem reads_opCode (hplace : s.place = .opCode) (h : s.step (.read (some bytes)) = some t) :
    (bytes = [] ∧ t = { s with place := .returned 0 }) ∨ ∃ op, bytes = [op] ∧ t =
    { s with place := .message } := by
  unfold step at h
  rw [hplace] at h
  rcases bytes with _ | ⟨op, _ | _⟩
  · exact .inl ⟨rfl, (Option.some.inj h).symm⟩
  · exact .inr ⟨op, rfl, (Option.some.inj h).symm⟩
  · cases h

theorem reads_message (hplace : s.place = .message) (h : s.step (.read (some bytes)) = some t) :
    (bytes = [] ∧ t = { s with place := .returned 0 }) ∨ bytes ≠ [] ∧
    ∃ hle : bytes.length ≤ messageLength, t =
      { s with
        place := .printing
        message := stored s.message bytes hle
        messageCount := s.messageCount + 1 } := by
  unfold step at h
  rw [hplace] at h
  dsimp only at h
  split at h
  · next hle =>
    split at h
    · next hnil => exact .inl ⟨hnil, (Option.some.inj h).symm⟩
    · next hne =>
      obtain ⟨-, h⟩ := Option.ite_none_right_eq_some.mp h
      exact .inr ⟨hne, hle, (Option.some.inj h).symm⟩
  · cases h

end Program

/-! ## SIGINT -/

/-- How `sigint_handler` ends. -/
inductive Interrupted
  /-- `close` failed: it returns, and `main` goes on -/
  | resumed (stdout stderr : List UInt8)
  /-- it wrote this and restored the default handler -/
  | ended (stdout : List UInt8)
  /-- `sprintf` writes behind `count` -/
  | overrun
deriving DecidableEq

/-- `sizeof(int)`. -/
def sizeofInt : Nat := 4

/-- A text, written with its NUL. -/
def textBytes (text : String) : List UInt8 := text.toList.map (fun c => UInt8.ofNat c.toNat) ++ [0]

/-- `sigint_handler` for SIGINT; `closed` tells whether `close(pipe_fd)` succeeds. -/
def sigintHandler (closed : Bool) (messageCount : Nat) : Interrupted :=
  let errorMessage := textBytes "Received SIGINT. Closing pipe and exiting...\n"
  if closed then
    let count := messageCount.repr
    if count.length + 1 ≤ sizeofInt then
      .ended (errorMessage ++ textBytes ("Received " ++ count ++ " messages\n"))
    else .overrun
  else .resumed errorMessage (textBytes "Failed to close pipe\n")

/-! ## The count -/

variable {s t : Program} {garbage : Chars (messageLength + 1)}

/-- Messages counted and not printed. -/
def Place.counted : Place → Nat
  | .printing => 1
  | _ => 0

theorem counted_step {e : Event} (h : s.messageCount = s.printed.length + s.place.counted)
    (hs : s.step e = some t) : t.messageCount = t.printed.length + t.place.counted := by
  unfold Program.step at hs
  split at hs
  · next hplace =>
    have hcount : s.messageCount = s.printed.length := by rwa [hplace] at h
    split at hs
    · exact Option.some.inj hs ▸ hcount
    · exact Option.some.inj hs ▸ hcount
    · exact Option.some.inj hs ▸ hcount
    · cases hs
  · next hplace =>
    have hcount : s.messageCount = s.printed.length := by rwa [hplace] at h
    split at hs
    · exact Option.some.inj hs ▸ hcount
    · split at hs
      · split at hs
        · exact Option.some.inj hs ▸ hcount
        · obtain ⟨-, hs⟩ := Option.ite_none_right_eq_some.mp hs
          obtain rfl := Option.some.inj hs
          exact congrArg (· + 1) hcount
      · cases hs
  · next hplace =>
    obtain rfl := Option.some.inj hs
    rw [hplace] at h
    show s.messageCount = (s.printed ++ [_]).length + 0
    rw [List.length_append, Nat.add_zero]
    exact h
  · cases hs

theorem count_printed (hrun : Reaches Program.step anyStep (.start garbage) s) :
    s.messageCount = s.printed.length + s.place.counted :=
  hrun.invariant (I := fun s => s.messageCount = s.printed.length + s.place.counted) rfl
    fun _ _ _ h _ hs => counted_step h hs

theorem reported_iff (n : Nat) : sigintHandler true n ≠ .overrun ↔ n < 1000 := by
  have hfits : n.repr.length + 1 ≤ sizeofInt ↔ n < 10 ^ 3 := by
    rw [← Nat.length_repr_le_iff (by decide)]
    exact Nat.add_le_add_iff_right
  unfold sigintHandler
  rw [if_pos rfl]
  dsimp only
  split
  · next h => exact iff_of_true nofun (hfits.mp h)
  · next h => exact iff_of_false (fun hne => hne rfl) fun hn => h (hfits.mpr hn)

/-- Interrupted at any point of any run, the program reports what it has printed, with the
message it is about to print, if these are fewer than 1000; else the handler overruns its
buffer. If the pipe cannot be closed, it says so and goes on. -/
theorem interrupt_reports (hrun : Reaches Program.step anyStep (.start garbage) s) (closed : Bool) :
    sigintHandler closed s.messageCount =
      if closed = false then
        .resumed (textBytes "Received SIGINT. Closing pipe and exiting...\n")
          (textBytes "Failed to close pipe\n")
      else if s.printed.length + s.place.counted < 1000 then
        .ended (textBytes "Received SIGINT. Closing pipe and exiting...\n" ++
          textBytes ("Received " ++ (s.printed.length + s.place.counted).repr ++ " messages\n"))
      else .overrun := by
  cases closed with
  | false => rfl
  | true =>
    rw [← count_printed hrun, if_neg (by decide)]
    split
    · next hfew =>
      have hends := (reported_iff s.messageCount).mpr hfew
      unfold sigintHandler at hends ⊢
      rw [if_pos rfl] at hends ⊢
      dsimp only at hends ⊢
      split at hends
      · next hfits => exact if_pos hfits
      · exact absurd rfl hends
    · next hmany => exact Classical.not_not.mp fun hne => hmany ((reported_iff _).mp hne)

def zeroed : Chars (messageLength + 1) :=
  ⟨List.replicate (messageLength + 1) 0, List.length_replicate⟩

/-- One message is printed and the next one is counted. -/
theorem interrupt_reports_two :
    ∃ s, Reaches Program.step anyStep (.start zeroed) s ∧ s.printed.length = 1 ∧
    sigintHandler true s.messageCount = .ended
    (textBytes "Received SIGINT. Closing pipe and exiting...\n" ++
      textBytes "Received 2 messages\n") := by
  have hrun : (exec Program.step (.start zeroed) [.read (some [opCodeSubscriber]),
      .read (some [104, 105]), .print,
      .read (some [opCodeSubscriber]), .read (some [106])]).any
        fun s => s.printed.length = 1 ∧ s.place = .printing := by decide +kernel
  obtain ⟨s, hrun, hs⟩ := (Option.any_eq_true _ _).mp hrun
  obtain ⟨hprinted, hplace⟩ := of_decide_eq_true hs
  have hreached := Reaches.of_exec hrun (execOk_anyStep _ _)
  refine ⟨s, hreached, hprinted, ?_⟩
  rw [interrupt_reports hreached true, hprinted, hplace]
  rfl

end Subscriber

end MBroker
