import MBroker.Fs.State

/-!
# TecnicoFS operations (`fs/operations.c`)

Each operation holds `g_library_mutex` from start to end, so it is one step of
the file system. Sizes are `size_t`: the additions and subtractions of `tfs_read`
and `tfs_write` wrap at 2^64.
-/

namespace MBroker.Fs

open ByteMemory

def tfsDefaultParams : TfsParams :=
  { maxInodeCount := 64, maxBlockCount := 1024, maxOpenFilesCount := 16, blockSize := 1024 }

/-- `params_ptr` is `none` for `NULL`. -/
def tfsInit (s : State) (paramsPtr : Option TfsParams) (m : Malloc) :
    Except Fault (State × Int) := do
  let params := paramsPtr.getD tfsDefaultParams
  let (s, ret) ← stateInit s params m
  if ret ≠ 0 then return (s, -1)
  let (s, root) ← inodeCreate s .tDirectory
  if root ≠ rootDirInum then return (s, -1)
  return (s, 0)

def tfsDestroy (s : State) : State × Int := stateDestroy s

/-- `name` is `none` for `NULL`. -/
def validPathname (name : Option CStr) : Bool :=
  match name with
  | none => false
  | some name => 1 < name.length && name.bytes.head? == some 47

def tfsLookup (s : State) (name : CStr) (rootInode : Nat) : Except Fault Int :=
  if !validPathname (some name) then .ok (-1) else findInDir s rootInode name.tail

/-- `mode & flag`. -/
def hasFlag (mode flag : Nat) : Bool := mode &&& flag != 0

def tfsOpen (s : State) (name : Option CStr) (mode : Nat) : Except Fault (State × Int) := do
  if !validPathname name then return (s, -1)
  let name := name.getD .empty
  let rootDirInode ← inodeGet s rootDirInum
  let inum ← tfsLookup s name rootDirInode
  if inum ≥ 0 then
    let inode ← inodeGet s inum
    let s ←
      if hasFlag mode tfsOTrunc && 0 < (s.inodeTable inode).iSize then do
        let s ← dataBlockFree s (s.inodeTable inode).iDataBlock
        pure (s.setInode inode { s.inodeTable inode with iSize := 0 })
      else pure s
    let offset := if hasFlag mode tfsOAppend then (s.inodeTable inode).iSize else 0
    addToOpenFileTable s inum offset
  else if hasFlag mode tfsOCreat then
    let (s, inum) ← inodeCreate s .tFile
    if inum = -1 then return (s, -1)
    let (s, ret) ← addDirEntry s rootDirInode name.tail inum
    if ret = -1 then
      let s ← inodeDelete s inum
      return (s, -1)
    -- a full open file table leaves the new file created
    addToOpenFileTable s inum 0
  else return (s, -1)

def tfsClose (s : State) (fhandle : Int) : Except Fault (State × Int) := do
  match ← getOpenFileEntry s fhandle with
  | none => return (s, -1)
  | some _ =>
    let s ← removeFromOpenFileTable s fhandle
    return (s, 0)

def State.setOffset (s : State) (fd : Nat) (offset : Nat) : State :=
  { s with openFileTable :=
      Function.update s.openFileTable fd { s.openFileTable fd with ofOffset := offset } }

/-- The second half of `tfs_write`: the copy to block `bnum`, the new offset of
the handle and the new size of the inode. -/
def writeBlock (s : State) (fd inum : Nat) (bnum : Int) (buffer : List UInt8) (toWrite : Nat) :
    Except Fault (State × Int) := do
  let file := s.openFileTable fd
  let s := s.setInode inum { s.inodeTable inum with iDataBlock := bnum }
  let block ← dataBlockGet s bnum
  -- memcpy reads `to_write` bytes of the buffer and writes as many into fs_data
  access toWrite buffer.length
  access (block + file.ofOffset + toWrite) s.heap.data
  let s := { s with fsData := write s.fsData (block + file.ofOffset) (buffer.take toWrite) }
  let offset := addSize file.ofOffset toWrite
  let s := s.setOffset fd offset
  let s :=
    if offset > (s.inodeTable inum).iSize then
      s.setInode inum { s.inodeTable inum with iSize := offset }
    else s
  return (s, toSsize toWrite)

/-- `buffer` is the caller's array, of which `to_write` bytes are to be written. -/
def tfsWrite (s : State) (fhandle : Int) (buffer : List UInt8) (toWrite : Nat) :
    Except Fault (State × Int) := do
  match ← getOpenFileEntry s fhandle with
  | none => return (s, -1)
  | some fd =>
    let file := s.openFileTable fd
    let inum ← inodeGet s file.ofInumber
    let blockSize := s.stateBlockSize
    let toWrite :=
      if addSize toWrite file.ofOffset > blockSize then subSize blockSize file.ofOffset
      else toWrite
    if toWrite = 0 then return (s, 0)
    if (s.inodeTable inum).iSize = 0 then
      let (s, bnum) ← dataBlockAlloc s
      if bnum = -1 then return (s, -1)
      writeBlock s fd inum bnum buffer toWrite
    else writeBlock s fd inum (s.inodeTable inum).iDataBlock buffer toWrite

/-- The bytes copied to the caller's buffer come with the count. -/
def tfsRead (s : State) (fhandle : Int) (len : Nat) : Except Fault (State × Int × List UInt8) := do
  match ← getOpenFileEntry s fhandle with
  | none => return (s, -1, [])
  | some fd =>
    let file := s.openFileTable fd
    let inum ← inodeGet s file.ofInumber
    let rest := subSize (s.inodeTable inum).iSize file.ofOffset
    let toRead := if rest > len then len else rest
    if toRead = 0 then return (s, 0, [])
    let block ← dataBlockGet s (s.inodeTable inum).iDataBlock
    access (block + file.ofOffset + toRead) s.heap.data
    let bytes := read s.fsData (block + file.ofOffset) toRead
    return (s.setOffset fd (addSize file.ofOffset toRead), toSsize toRead, bytes)

def tfsUnlink (s : State) (target : Option CStr) : Except Fault (State × Int) := do
  if !validPathname target then return (s, -1)
  let target := target.getD .empty
  let rootDirInode ← inodeGet s rootDirInum
  let inum ← tfsLookup s target rootDirInode
  if inum = -1 then return (s, -1)
  let s ← inodeDelete s inum
  let (s, ret) ← clearDirEntry s rootDirInode target.tail
  if ret = -1 then return (s, -1)
  return (s, 0)

/-! ## Sequences of calls -/

/-- The public operations. -/
inductive Op
  | tfsOpen (name : Option CStr) (mode : Nat)
  | tfsClose (fhandle : Int)
  | tfsWrite (fhandle : Int) (buffer : List UInt8)
  | tfsRead (fhandle : Int) (len : Nat)
  | tfsUnlink (target : Option CStr)

/-- One call: the state it leaves, the value it returns and the bytes it reads.
`tfs_write` gets the whole buffer. -/
def tfsStep (s : State) :
    Op → Except Fault (State × Int × List UInt8)
  | .tfsOpen name mode => (fun r => (r.1, r.2, [])) <$> Fs.tfsOpen s name mode
  | .tfsClose fhandle => (fun r => (r.1, r.2, [])) <$> Fs.tfsClose s fhandle
  | .tfsWrite fhandle buffer =>
    (fun r => (r.1, r.2, [])) <$> Fs.tfsWrite s fhandle buffer buffer.length
  | .tfsRead fhandle len => Fs.tfsRead s fhandle len
  | .tfsUnlink target => (fun r => (r.1, r.2, [])) <$> Fs.tfsUnlink s target

def tfsRun : State → List Op → Except Fault (State × List (Int × List UInt8))
  | s, [] => .ok (s, [])
  | s, op :: ops => do
    let r ← tfsStep s op
    let rest ← tfsRun r.1 ops
    return (rest.1, r.2 :: rest.2)

end MBroker.Fs
