import MBroker.Broker.Machine
import MBroker.Fs.Files

/-!
# The broker at its start, and with its first box

`main` allocates the records of the workers, marks every slot of `boxes` free and
initialises TecnicoFS with one inode for each box. The file of the first box takes
inode 1, directory entry 0 and handle 0.

Results:
1. `tfsInit_main`: what `tfs_init` leaves.
2. `tfsOpen_first`: what the first `tfs_open` with `TFS_O_CREAT` leaves.
-/

namespace MBroker

open Fs FirstFit

/-- The parameters that `main` passes to `tfs_init`. -/
def brokerParams : TfsParams :=
  { maxInodeCount := maxBoxes
    maxBlockCount := messageLength * maxBoxes
    maxOpenFilesCount := maxBoxes
    blockSize := boxSize }

theorem brokerParams_inRange : brokerParams.InRange := by
  constructor <;> decide

/-- TecnicoFS after `main` has initialised it. -/
def tfsStart (m : Malloc) : Fs.State := State.static.initial brokerParams m

theorem tfsInit_main {m : Malloc} (hm : m.granted = true) :
    tfsInit .static (some brokerParams) m = .ok (tfsStart m, 0) :=
  tfsInit_of rfl brokerParams_inRange.usable rfl hm

/-- A slot of the static array `boxes`. -/
def staticBox : Box :=
  { boxName := .ofStr .empty (by decide)
    boxSize := 0
    nPublishers := 0
    nSubscribers := 0
    cond := 0
    lock := none }

/-- The broker when `main` reaches its loop. The records of the workers come from
`malloc`. -/
def Broker.start (maxSessions : Nat) (clients : Nat → Client) (m : Malloc)
    (fds : Nat → Bool) : Broker :=
  { maxSessions := maxSessions
    numBoxes := 0
    boxes := fun _ => staticBox
    freeBoxes := fun _ => true
    clients := clients
    boxesLock := none
    tfs := tfsStart m
    fds := fds
    pcs := fun _ => .idle
    sent := fun _ => []
    stopped := false }

/-- A record in memory that was zero. -/
def zeroClient : Client :=
  { opcode := 0
    boxName := .ofStr .empty (by decide)
    box := none
    offset := 0
    boxFd := 0
    clientPipename := .ofStr .empty (by decide)
    clientPipe := 0 }

/-- A broker that got zeroed memory and has no descriptor open. -/
def Broker.fresh (maxSessions : Nat) : Broker :=
  .start maxSessions (fun _ => zeroClient) .zeros fun _ => false

/-- The name `/a`. -/
def sampleName : CharArray 32 := .ofStr (.ofBytes [47, 97]) (by decide)

/-- The path of the client's pipe. -/
def samplePath : CStr := .ofBytes [112]

/-- A request about the box `/a`. -/
def sampleRequest (opcode : UInt8) : Request :=
  { opcode := opcode
    clientPipename := .ofStr samplePath (by decide)
    boxName := sampleName }

/-! ## The first file -/

/-- TecnicoFS after the first file was created and opened. -/
def oneFile (m : Malloc) (n : CStr) : Fs.State :=
  (((tfsStart m).createFile 1 0 n).openHandle 1 0).1

section OneFile

variable {m : Malloc} {p n : CStr}

theorem tfsStart_wellFormed (m : Malloc) : WellFormed (tfsStart m) :=
  initial_wellFormed brokerParams_inRange.usable

theorem tfsStart_freeInode : (tfsStart m).freeInode = some 1 := by
  refine firstIndex_eq_some.mpr ⟨show 1 < brokerParams.maxInodeCount by decide, ?_, fun j hj => ?_⟩
  · rw [tfsStart, initial_freeinodeTs (by decide) (by decide)]
    rfl
  · obtain rfl : j = 0 := by omega
    rw [tfsStart, initial_root.1]
    rfl

theorem tfsStart_freeSlot : (tfsStart m).freeSlot = some 0 := by
  have hpos : 0 < (tfsStart m).maxDirEntries := show 0 < 16384 / 44 by decide
  refine firstIndex_zero hpos ?_
  rw [tfsStart, initial_entry hpos]
  rfl

theorem tfsStart_handle {j : Nat} (hj : j < maxBoxes) :
    (tfsStart m).freeOpenFileEntries j = .free :=
  freshTables_handle (s := .static) (q := brokerParams) hj

theorem tfsStart_freeHandle : (tfsStart m).freeHandle = some 0 := by
  refine firstIndex_zero (show 0 < maxBoxes by decide) ?_
  rw [tfsStart_handle (by decide)]
  rfl

theorem tfsStart_canOpen (hv : validPathname (some p) = true) : (tfsStart m).CanOpen p := by
  refine ⟨hv, ?_, Or.inr ⟨?_, ?_⟩⟩
  · rw [tfsStart_freeHandle]
    exact Option.some_ne_none 0
  · rw [tfsStart_freeInode]
    exact Option.some_ne_none 1
  · rw [tfsStart_freeSlot]
    exact Option.some_ne_none 0

theorem created_freeHandle : ((tfsStart m).createFile 1 0 n).freeHandle = some 0 := by
  refine firstIndex_zero (show 0 < maxBoxes by decide) ?_
  have hmark : (tfsStart m).freeOpenFileEntries 0 = .free := tfsStart_handle (by decide)
  rw [show ((tfsStart m).createFile 1 0 n).freeOpenFileEntries 0 = .free from hmark]
  rfl

theorem tfsOpen_first (hv : validPathname (some p) = true) (hlen : p.tail.length ≤ 39) :
    tfsOpen (tfsStart m) (some p) tfsOCreat = .ok (oneFile m p.tail, 0) := by
  have hhandle : (((tfsStart m).createFile 1 0 p.tail).openHandle 1 0).2 = 0 := by
    rw [State.openHandle, created_freeHandle]
    rfl
  rw [tfsOpen_create (tfsStart_wellFormed m).toFilesWf hv (lookup_initial _ _ _ _) (by decide)
    tfsStart_freeInode tfsStart_freeSlot hlen]
  exact congrArg Except.ok (Prod.ext rfl hhandle)

theorem oneFile_entries :
    (oneFile m n).freeOpenFileEntries = Function.update
    (tfsStart m).freeOpenFileEntries 0 .taken := by
  rw [oneFile, State.openHandle, created_freeHandle]
  rfl

theorem oneFile_freeHandle : (oneFile m n).freeHandle = some 1 := by
  have hparams : (oneFile m n).fsParams = brokerParams := (sameFiles_openHandle _ _ _).params
  have hmarks := oneFile_entries (m := m) (n := n)
  refine firstIndex_eq_some.mpr ⟨by rw [hparams]; decide, ?_, fun j hj => ?_⟩
  · rw [hmarks, Function.update_of_ne (by decide), tfsStart_handle (by decide)]
    rfl
  · obtain rfl : j = 0 := by omega
    rw [hmarks, Function.update_self]
    rfl

theorem oneFile_freeBlock : (oneFile m n).freeBlock = some 1 := by
  have hsame : SameFiles ((tfsStart m).createFile 1 0 n) (oneFile m n) := sameFiles_openHandle _ _ _
  have hmarks : (oneFile m n).freeBlocks = (tfsStart m).freeBlocks := hsame.blocks
  have hfree : (tfsStart m).freeBlocks 1 = .free := by
    rw [show (tfsStart m).freeBlocks
      = Function.update (State.static.freshTables brokerParams m).freeBlocks 0 .taken from rfl,
      Function.update_of_ne (by decide), freshTables_block (show 1 < 65472 by decide)]
  refine firstIndex_eq_some.mpr ⟨by rw [hsame.params]; exact show 1 < 65472 by decide, ?_,
    fun j hj => ?_⟩
  · rw [hmarks, hfree]
    rfl
  · obtain rfl : j = 0 := by omega
    rw [hmarks, tfsStart, initial_root.2.1]
    rfl

variable (hpos : 0 < n.length) (hlen : n.length ≤ 39)
include hpos hlen

theorem oneFile_wellFormed : WellFormed (oneFile m n) := by
  have hlt : 1 < brokerParams.maxInodeCount := by decide
  have hcreated : WellFormed ((tfsStart m).createFile 1 0 n) :=
    (tfsStart_wellFormed m).createFile (by decide) hlt (initial_freeinodeTs (by decide) hlt)
      tfsStart_freeSlot hpos hlen (lookup_initial _ _ _ _)
  exact hcreated.openHandle (by decide) hlt (Nat.zero_le _)

/-- The handle that the first file was opened with. -/
theorem oneFile_cursor : (oneFile m n).Cursor 0 n 0 := by
  have hlt : 1 < (tfsStart m).fsParams.maxInodeCount :=
    show 1 < brokerParams.maxInodeCount by decide
  have hlook : (oneFile m n).lookup n = some 1 := by
    rw [oneFile, (sameFiles_openHandle _ _ _).lookup,
      lookup_createFile (tfsStart_wellFormed m).toFilesWf hlt tfsStart_freeSlot hpos hlen
        (lookup_initial _ _ _ _), if_pos rfl]
  have hparams : (oneFile m n).fsParams = brokerParams := (sameFiles_openHandle _ _ _).params
  refine ⟨1, hlook, Int.le_refl 0, ⟨?_, ?_⟩, ?_, ?_⟩
  · rw [hparams]
    decide
  all_goals simp [oneFile, State.openHandle, created_freeHandle]

theorem oneFile_file (n' : CStr) : (oneFile m n).file n' = if n' = n then some [] else none := by
  have hstart : (tfsStart m).file n' = none := file_of_absent (lookup_initial _ _ _ _)
  rw [oneFile, (sameFiles_openHandle _ _ _).file,
    file_createFile (tfsStart_wellFormed m).toFilesWf tfsStart_freeInode tfsStart_freeSlot hpos hlen
      (lookup_initial _ _ _ _), hstart]

end OneFile

end MBroker
