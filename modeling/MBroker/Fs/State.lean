import Mathlib.Logic.Function.Basic
import MBroker.Common
import MBroker.Library.FirstFit
import MBroker.Library.Memory

/-!
# TecnicoFS state (`fs/state.c`)

The global parameters, the six tables behind their pointers, and the functions
on them. A table is a function from indices to entries together with the number
of entries that `malloc` gave it. `fs_data` is one flat byte array; a directory
entry is 44 of its bytes (a name of 40 and an `int`).

A function fails with a `Fault` where the process stops: an `ALWAYS_ASSERT`
that does not hold, or an access outside a table.
-/

namespace MBroker.Fs

open FirstFit ByteMemory

/-- Where the process stops. -/
inductive Fault
  | panic (message : String)
  | outOfBounds
deriving DecidableEq

structure TfsParams where
  maxInodeCount : Nat
  maxBlockCount : Nat
  maxOpenFilesCount : Nat
  blockSize : Nat
deriving DecidableEq

inductive InodeType
  | tFile
  | tDirectory
deriving DecidableEq

inductive AllocationState
  | free
  | taken
deriving DecidableEq

structure Inode where
  iNodeType : InodeType
  iSize : Nat
  iDataBlock : Int
deriving DecidableEq

structure OpenFileEntry where
  ofInumber : Int
  ofOffset : Nat
deriving DecidableEq

/-- How many entries each table was allocated with; none while the pointers are
`NULL`. `data` counts bytes. -/
structure Heap where
  inodes : Nat
  freeinodes : Nat
  data : Nat
  blocks : Nat
  openFiles : Nat
  freeOpenFiles : Nat
deriving DecidableEq

structure State where
  fsParams : TfsParams
  /-- `inode_table == NULL` -/
  inodeTableNull : Bool
  heap : Heap
  inodeTable : Nat → Inode
  freeinodeTs : Nat → AllocationState
  fsData : Nat → UInt8
  freeBlocks : Nat → AllocationState
  openFileTable : Nat → OpenFileEntry
  freeOpenFileEntries : Nat → AllocationState

/-- The static variables of `state.c` before the first `tfs_init`. -/
def State.static : State where
  fsParams := ⟨0, 0, 0, 0⟩
  inodeTableNull := true
  heap := ⟨0, 0, 0, 0, 0, 0⟩
  inodeTable := fun _ => ⟨.tFile, 0, 0⟩
  freeinodeTs := fun _ => .free
  fsData := fun _ => 0
  freeBlocks := fun _ => .free
  openFileTable := fun _ => ⟨0, 0⟩
  freeOpenFileEntries := fun _ => .free

/-- `ALWAYS_ASSERT`. -/
def alwaysAssert (cond : Bool) (message : String) : Except Fault Unit :=
  if cond then .ok () else .error (.panic message)

/-- The first `n` bytes or entries of a table that has `cap` are accessed. -/
def access (n cap : Nat) : Except Fault Unit :=
  if n ≤ cap then .ok () else .error .outOfBounds

/-- A loop over the entries of a table that stops at the first hit. It stops
the process if it has to pass the end of the table. -/
def scan (hit : Nat → Bool) (size cap : Nat) : Except Fault (Option Nat) :=
  match firstIndex hit size with
  | some i => do
    access (i + 1) cap
    return some i
  | none => do
    access size cap
    return none

/-! ## Sizes and validity -/

def dirEntrySize : Nat := 44

def State.maxDirEntries (s : State) : Nat := s.fsParams.blockSize / dirEntrySize

def State.validInumber (s : State) (inumber : Int) : Bool :=
  0 ≤ inumber && inumber.toNat < s.fsParams.maxInodeCount

def State.validBlockNumber (s : State) (blockNumber : Int) : Bool :=
  0 ≤ blockNumber && blockNumber.toNat < s.fsParams.maxBlockCount

def State.validFileHandle (s : State) (fileHandle : Int) : Bool :=
  0 ≤ fileHandle && fileHandle.toNat < s.fsParams.maxOpenFilesCount

/-! ## Initialisation -/

/-- What the six calls to `malloc` in `state_init` return: `none` is `NULL`,
`some` the uninitialised contents. -/
structure Malloc where
  inodeTable : Option (Nat → Inode)
  freeinodeTs : Option (Nat → AllocationState)
  fsData : Option (Nat → UInt8)
  freeBlocks : Option (Nat → AllocationState)
  openFileTable : Option (Nat → OpenFileEntry)
  freeOpenFileEntries : Option (Nat → AllocationState)

/-- No call returned `NULL`. -/
def Malloc.granted (m : Malloc) : Bool :=
  m.inodeTable.isSome && m.freeinodeTs.isSome && m.fsData.isSome && m.freeBlocks.isSome &&
    m.openFileTable.isSome && m.freeOpenFileEntries.isSome

/-- Memory that happens to hold zeros. -/
def Malloc.zeros : Malloc where
  inodeTable := some fun _ => ⟨.tFile, 0, 0⟩
  freeinodeTs := some fun _ => .free
  fsData := some fun _ => 0
  freeBlocks := some fun _ => .free
  openFileTable := some fun _ => ⟨0, 0⟩
  freeOpenFileEntries := some fun _ => .free

/-- How many elements of `size` bytes `malloc(n * size)` holds. -/
def mallocCount (n size : Nat) : Nat := n * size % word / size

/-- The entries below `n` set to `FREE`. -/
def freeBelow (n : Nat) (table : Nat → AllocationState) : Nat → AllocationState := fun i =>
  if i < n then .free else table i

/-- The tables that were allocated; there is nothing behind a `NULL`. -/
def Malloc.heap (m : Malloc) (params : TfsParams) : Heap where
  inodes := if m.inodeTable.isSome then mallocCount params.maxInodeCount 24 else 0
  freeinodes := if m.freeinodeTs.isSome then mallocCount params.maxInodeCount 4 else 0
  data := if m.fsData.isSome then params.maxBlockCount * params.blockSize % word else 0
  blocks := if m.freeBlocks.isSome then mallocCount params.maxBlockCount 4 else 0
  openFiles := if m.openFileTable.isSome then mallocCount params.maxOpenFilesCount 16 else 0
  freeOpenFiles := if m.freeOpenFileEntries.isSome then mallocCount
    params.maxOpenFilesCount 4 else 0

def stateInit (s : State) (params : TfsParams) (m : Malloc) : Except Fault (State × Int) :=
  let s := { s with fsParams := params }
  if !s.inodeTableNull then .ok (s, -1)
  else
    let s : State :=
      { s with
        inodeTableNull := m.inodeTable.isNone
        heap := m.heap params
        inodeTable := m.inodeTable.getD State.static.inodeTable
        freeinodeTs := m.freeinodeTs.getD State.static.freeinodeTs
        fsData := m.fsData.getD State.static.fsData
        freeBlocks := m.freeBlocks.getD State.static.freeBlocks
        openFileTable := m.openFileTable.getD State.static.openFileTable
        freeOpenFileEntries := m.freeOpenFileEntries.getD State.static.freeOpenFileEntries }
    if !m.granted then .ok (s, -1)
    else do
      access params.maxInodeCount s.heap.freeinodes
      access params.maxBlockCount s.heap.blocks
      access params.maxOpenFilesCount s.heap.freeOpenFiles
      return ({ s with
        freeinodeTs := freeBelow params.maxInodeCount s.freeinodeTs
        freeBlocks := freeBelow params.maxBlockCount s.freeBlocks
        freeOpenFileEntries := freeBelow params.maxOpenFilesCount s.freeOpenFileEntries }, 0)

def stateDestroy (s : State) : State × Int :=
  ({ s with inodeTableNull := true, heap := ⟨0, 0, 0, 0, 0, 0⟩ }, 0)

def State.stateBlockSize (s : State) : Nat := s.fsParams.blockSize

/-! ## Data blocks -/

def dataBlockAlloc (s : State) : Except Fault (State × Int) := do
  match ← scan (fun i => s.freeBlocks i == .free) s.fsParams.maxBlockCount s.heap.blocks with
  | some i => return ({ s with freeBlocks := Function.update s.freeBlocks i .taken }, (i : Int))
  | none => return (s, -1)

def dataBlockFree (s : State) (blockNumber : Int) : Except Fault State := do
  alwaysAssert (s.validBlockNumber blockNumber) "data_block_free: invalid block number"
  access (blockNumber.toNat + 1) s.heap.blocks
  return { s with freeBlocks := Function.update s.freeBlocks blockNumber.toNat .free }

/-- The address in `fs_data` of the first byte of a block. -/
def dataBlockGet (s : State) (blockNumber : Int) : Except Fault Nat := do
  alwaysAssert (s.validBlockNumber blockNumber) "data_block_get: invalid block number"
  return blockNumber.toNat * s.fsParams.blockSize

/-! ## Inodes -/

def inodeAlloc (s : State) : Except Fault (State × Int) := do
  match ← scan (fun i => s.freeinodeTs i == .free) s.fsParams.maxInodeCount s.heap.freeinodes with
  | some i => return ({ s with freeinodeTs := Function.update s.freeinodeTs i .taken }, (i : Int))
  | none => return (s, -1)

def inodeDelete (s : State) (inumber : Int) : Except Fault State := do
  alwaysAssert (s.validInumber inumber) "inode_delete: invalid inumber"
  access (inumber.toNat + 1) s.heap.freeinodes
  alwaysAssert (s.freeinodeTs inumber.toNat == .taken) "inode_delete: inode already freed"
  access (inumber.toNat + 1) s.heap.inodes
  let inode := s.inodeTable inumber.toNat
  let s ← if inode.iSize > 0 then dataBlockFree s inode.iDataBlock else pure s
  return { s with freeinodeTs := Function.update s.freeinodeTs inumber.toNat .free }

/-- The index in `inode_table` of the inode with this inumber. -/
def inodeGet (s : State) (inumber : Int) : Except Fault Nat := do
  alwaysAssert (s.validInumber inumber) "inode_get: invalid inumber"
  access (inumber.toNat + 1) s.heap.inodes
  return inumber.toNat

def State.setInode (s : State) (inumber : Nat) (inode : Inode) : State :=
  { s with inodeTable := Function.update s.inodeTable inumber inode }

/-- `d_inumber = -1` in the first `n` entries of the block at `base`. -/
def emptyEntries (m : Nat → UInt8) (base : Nat) : Nat → Nat → UInt8
  | 0 => m
  | n + 1 => write (emptyEntries m base n) (base + dirEntrySize * n + maxFileName) (le32 (-1))

def inodeCreate (s : State) (iType : InodeType) : Except Fault (State × Int) := do
  let (s, inumber) ← inodeAlloc s
  if inumber = -1 then return (s, -1)
  access (inumber.toNat + 1) s.heap.inodes
  match iType with
  | .tDirectory =>
    let (s, b) ← dataBlockAlloc s
    if b = -1 then
      let s ← inodeDelete (s.setInode inumber.toNat ⟨.tDirectory, 0, -1⟩) inumber
      return (s, -1)
    let s := s.setInode inumber.toNat ⟨.tDirectory, s.fsParams.blockSize, b⟩
    let base ← dataBlockGet s b
    access (base + dirEntrySize * s.maxDirEntries) s.heap.data
    return ({ s with fsData := emptyEntries s.fsData base s.maxDirEntries }, inumber)
  | .tFile => return (s.setInode inumber.toNat ⟨.tFile, 0, -1⟩, inumber)

/-! ## Directory entries -/

/-- `dir_entry[i].d_inumber`, in the block at `base`. -/
def State.dInumber (s : State) (base i : Nat) : Int :=
  int32 (read s.fsData (base + dirEntrySize * i + maxFileName) 4)

/-- `strcmp(dir_entry[i].d_name, name) == 0`. -/
def State.nameStrcmp (s : State) (base i : Nat) (name : CStr) : Bool :=
  read s.fsData (base + dirEntrySize * i) (name.length + 1) == name.bytes ++ [0]

/-- `strncmp(dir_entry[i].d_name, name, MAX_FILE_NAME) == 0`: equal up to the
NUL or to 40 characters. -/
def State.nameStrncmp (s : State) (base i : Nat) (name : CStr) : Bool :=
  read s.fsData (base + dirEntrySize * i) (min maxFileName (name.length + 1)) ==
    (name.bytes ++ [0]).take maxFileName

/-- A loop over the directory entries of the block at `base`. -/
def State.scanDir (s : State) (base : Nat) (hit : Nat → Bool) : Except Fault (Option Nat) :=
  scan hit s.maxDirEntries ((s.heap.data - base) / dirEntrySize)

/-- The entry number `i` of the block at `base` filled in. -/
def State.setEntry (s : State) (base i : Nat) (name : List UInt8) (inumber : Int) : State :=
  { s with fsData := write s.fsData (base + dirEntrySize * i) (name ++ le32 inumber) }

/-- The 40 bytes of `d_name` after `strncpy` and the final NUL. -/
def dNameOf (name : CStr) : List UInt8 :=
  (name.bytes ++ List.replicate maxFileName 0).take (maxFileName - 1) ++ [0]

def clearDirEntry (s : State) (inode : Nat) (subName : CStr) : Except Fault (State × Int) := do
  if (s.inodeTable inode).iNodeType ≠ .tDirectory then return (s, -1)
  let base ← dataBlockGet s (s.inodeTable inode).iDataBlock
  match ← s.scanDir base (s.nameStrcmp base · subName) with
  | some i => return (s.setEntry base i (List.replicate maxFileName 0) (-1), 0)
  | none => return (s, -1)

def addDirEntry (s : State) (inode : Nat) (subName : CStr) (subInumber : Int) :
    Except Fault (State × Int) := do
  if subName.length = 0 ∨ subName.length > maxFileName - 1 then return (s, -1)
  if (s.inodeTable inode).iNodeType ≠ .tDirectory then return (s, -1)
  let base ← dataBlockGet s (s.inodeTable inode).iDataBlock
  match ← s.scanDir base (s.dInumber base · == -1) with
  | some i => return (s.setEntry base i (dNameOf subName) subInumber, 0)
  | none => return (s, -1)

def findInDir (s : State) (inode : Nat) (subName : CStr) : Except Fault Int := do
  if (s.inodeTable inode).iNodeType ≠ .tDirectory then return -1
  let base ← dataBlockGet s (s.inodeTable inode).iDataBlock
  match ← s.scanDir base (fun i => s.dInumber base i != -1 && s.nameStrncmp base i subName) with
  | some i => return s.dInumber base i
  | none => return -1

/-! ## Open file table -/

def addToOpenFileTable (s : State) (inumber : Int) (offset : Nat) : Except Fault (State × Int) := do
  match ← scan (fun i => s.freeOpenFileEntries i == .free) s.fsParams.maxOpenFilesCount
      s.heap.freeOpenFiles with
  | some i =>
    access (i + 1) s.heap.openFiles
    return ({ s with
      freeOpenFileEntries := Function.update s.freeOpenFileEntries i .taken
      openFileTable := Function.update s.openFileTable i ⟨inumber, offset⟩ }, (i : Int))
  | none => return (s, -1)

def removeFromOpenFileTable (s : State) (fhandle : Int) : Except Fault State := do
  alwaysAssert (s.validFileHandle fhandle)
    "remove_from_open_file_table: file handle must be valid"
  access (fhandle.toNat + 1) s.heap.freeOpenFiles
  alwaysAssert (s.freeOpenFileEntries fhandle.toNat == .taken)
    "remove_from_open_file_table: file handle must be taken"
  return { s with
    freeOpenFileEntries := Function.update s.freeOpenFileEntries fhandle.toNat .free }

/-- The index of an open entry; `none` is the `NULL` of a handle that is invalid,
closed or was never opened. -/
def getOpenFileEntry (s : State) (fhandle : Int) : Except Fault (Option Nat) := do
  if !s.validFileHandle fhandle then return none
  access (fhandle.toNat + 1) s.heap.freeOpenFiles
  if s.freeOpenFileEntries fhandle.toNat ≠ .taken then return none
  access (fhandle.toNat + 1) s.heap.openFiles
  return some fhandle.toNat

end MBroker.Fs
