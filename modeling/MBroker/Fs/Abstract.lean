import Mathlib.Data.Finmap
import MBroker.Fs.Operations

/-!
# What TecnicoFS is for: an abstract file system

The abstract state is a finite map from names to byte strings together with a
table of handles, each a name and an offset. Nothing is said of inodes, blocks or
directory entries, except for the three limits they put on the number of files.

Results:
1. `card_keys_insert_new`, `card_keys_erase`: how the number of files changes.
2. `nonempty_insert_some`, `nonempty_insert_nil`, `nonempty_erase`: which files
   are not empty.
-/

namespace MBroker.Fs

open FirstFit ByteMemory

abbrev Files := Finmap fun _ : CStr => List UInt8

structure FileSystem where
  files : Files
  handles : Nat → Option (CStr × Nat)

namespace FileSystem

/-- The name of the file behind a path: what follows the `/`, if anything does. -/
def fileName (path : Option CStr) : Option CStr :=
  path.bind fun p =>
    match p.bytes with
    | 47 :: _ :: _ => some p.tail
    | _ => none

/-- The names of the files that are not empty. -/
def nonempty (files : Files) : Finset CStr := files.keys.filter fun n => files.lookup n ≠ some []

def content (fs : FileSystem) (n : CStr) : List UInt8 := (fs.files.lookup n).getD []

/-- No file and no handle. -/
def empty : FileSystem := ⟨∅, fun _ => none⟩

def handle (fs : FileSystem) (fhandle : Int) : Option (CStr × Nat) :=
  if 0 ≤ fhandle then fs.handles fhandle.toNat else none

def setHandle (fs : FileSystem) (fhandle : Nat) (h : Option (CStr × Nat)) : FileSystem :=
  { fs with handles := Function.update fs.handles fhandle h }

def setFile (fs : FileSystem) (n : CStr) (c : List UInt8) : FileSystem :=
  { fs with files := fs.files.insert n c }

/-- The least unused handle is given to a file. -/
def newHandle (p : TfsParams) (fs : FileSystem) (n : CStr) (offset : Nat) : FileSystem × Int :=
  match firstIndex (fun i => (fs.handles i).isNone) p.maxOpenFilesCount with
  | some i => (fs.setHandle i (some (n, offset)), (i : Int))
  | none => (fs, -1)

def openFile (p : TfsParams) (fs : FileSystem) (path : Option CStr) (mode : Nat) :
    FileSystem × Int :=
  match fileName path with
  | none => (fs, -1)
  | some n =>
    match fs.files.lookup n with
    | some c =>
      let c := if hasFlag mode tfsOTrunc then [] else c
      (fs.setFile n c).newHandle p n (if hasFlag mode tfsOAppend then c.length else 0)
    | none =>
      if hasFlag mode tfsOCreat = false ∨ fs.files.keys.card = p.maxInodeCount - 1 ∨
          fs.files.keys.card = p.blockSize / dirEntrySize ∨ 39 < n.length then (fs, -1)
      else (fs.setFile n []).newHandle p n 0

def closeFile (fs : FileSystem) (fhandle : Int) : FileSystem × Int :=
  match fs.handle fhandle with
  | none => (fs, -1)
  | some _ => (fs.setHandle fhandle.toNat none, 0)

/-- The part of the buffer that fits in the block is laid over the content. -/
def writeFile (p : TfsParams) (fs : FileSystem) (fhandle : Int) (buffer : List UInt8) :
    FileSystem × Int :=
  match fs.handle fhandle with
  | none => (fs, -1)
  | some (n, offset) =>
    let bytes := buffer.take (p.blockSize - offset)
    if bytes = [] then (fs, 0)
    else if fs.content n = [] ∧ (nonempty fs.files).card = p.maxBlockCount - 1 then (fs, -1)
    else ((fs.setFile n (overlay (fs.content n) offset bytes)).setHandle fhandle.toNat
      (some (n, offset + bytes.length)), (bytes.length : Int))

def readFile (fs : FileSystem) (fhandle : Int) (len : Nat) : FileSystem × Int × List UInt8 :=
  match fs.handle fhandle with
  | none => (fs, -1, [])
  | some (n, offset) =>
    let bytes := ((fs.content n).drop offset).take len
    (fs.setHandle fhandle.toNat (some (n, offset + bytes.length)), (bytes.length : Int), bytes)

def unlinkFile (fs : FileSystem) (path : Option CStr) : FileSystem × Int :=
  match fileName path with
  | none => (fs, -1)
  | some n =>
    if fs.files.lookup n = none then (fs, -1) else ({ fs with files := fs.files.erase n }, 0)

/-- One operation: the state it leaves, the value it returns and the bytes it
reads. -/
def step (p : TfsParams) (fs : FileSystem) : Op → FileSystem × Int × List UInt8
  | .tfsOpen name mode => let r := fs.openFile p name mode; (r.1, r.2, [])
  | .tfsClose fhandle => let r := fs.closeFile fhandle; (r.1, r.2, [])
  | .tfsWrite fhandle buffer => let r := fs.writeFile p fhandle buffer; (r.1, r.2, [])
  | .tfsRead fhandle len => fs.readFile fhandle len
  | .tfsUnlink target => let r := fs.unlinkFile target; (r.1, r.2, [])

/-- Operations one after another: the final state and what each of them gave. -/
def run (p : TfsParams) : FileSystem → List Op → FileSystem × List (Int × List UInt8)
  | fs, [] => (fs, [])
  | fs, op :: ops =>
    let rest := run p (fs.step p op).1 ops
    (rest.1, (fs.step p op).2 :: rest.2)

/-- Names have 1 to 39 bytes, contents at most as many as a block. -/
def Bounded (p : TfsParams) (fs : FileSystem) : Prop :=
  ∀ n c, fs.files.lookup n = some c → 0 < n.length ∧ n.length ≤ 39 ∧ c.length ≤ p.blockSize

/-! ## Runs without use after unlink or truncation -/

/-- Some handle is open on the file. -/
def isOpen (fs : FileSystem) (n : CStr) : Prop := ∃ i offset, fs.handles i = some (n, offset)

/-- The operation neither unlinks a file on which a handle is open nor discards
bytes of one, and a buffer is shorter than 2^63 bytes. -/
def Quiet (fs : FileSystem) : Op → Prop
  | .tfsOpen path mode => hasFlag mode tfsOTrunc = true →
      ∀ n, fileName path = some n → fs.content n ≠ [] → ¬ fs.isOpen n
  | .tfsUnlink path => ∀ n, fileName path = some n → ¬ fs.isOpen n
  | .tfsWrite _ buffer => buffer.length < 9223372036854775808
  | _ => True

def QuietRun (p : TfsParams) : FileSystem → List Op → Prop
  | _, [] => True
  | fs, op :: ops => fs.Quiet op ∧ QuietRun p (fs.step p op).1 ops

end FileSystem

/-! ## Numbers of files -/

section Cards

open FileSystem

variable {files : Files} {n : CStr} {c c' : List UInt8}

theorem mem_nonempty : n ∈ nonempty files ↔ ∃ c, files.lookup n = some c ∧ c ≠ [] := by
  rw [nonempty, Finset.mem_filter, Finmap.mem_keys, Finmap.mem_iff]
  constructor
  · rintro ⟨⟨c, hc⟩, hne⟩
    exact ⟨c, hc, fun h => hne (h ▸ hc)⟩
  · rintro ⟨c, hc, hne⟩
    refine ⟨⟨c, hc⟩, fun h => hne ?_⟩
    rw [hc, Option.some.injEq] at h
    exact h

theorem keys_insert (files : Files) (n : CStr) (c : List UInt8) :
    (files.insert n c).keys = insert n files.keys := by
  ext a
  rw [Finmap.mem_keys, Finmap.mem_insert, Finset.mem_insert, Finmap.mem_keys]

theorem card_keys_insert_new (h : files.lookup n = none) (c : List UInt8) :
    (files.insert n c).keys.card = files.keys.card + 1 := by
  rw [keys_insert, Finset.card_insert_of_notMem]
  rw [Finmap.mem_keys]
  exact Finmap.lookup_eq_none.mp h

theorem card_keys_insert_old (h : files.lookup n = some c) (c' : List UInt8) :
    (files.insert n c').keys.card = files.keys.card := by
  rw [keys_insert, Finset.insert_eq_of_mem]
  rw [Finmap.mem_keys, Finmap.mem_iff]
  exact ⟨c, h⟩

theorem card_keys_erase (h : files.lookup n = some c) :
    (files.erase n).keys.card + 1 = files.keys.card := by
  rw [Finmap.keys_erase]
  refine Finset.card_erase_add_one ?_
  rw [Finmap.mem_keys, Finmap.mem_iff]
  exact ⟨c, h⟩

theorem nonempty_insert_some (hc : c ≠ []) :
    nonempty (files.insert n c) = insert n (nonempty files) := by
  ext a
  rw [Finset.mem_insert, mem_nonempty, mem_nonempty]
  by_cases ha : a = n
  · subst ha
    rw [Finmap.lookup_insert]
    simp [hc]
  · rw [Finmap.lookup_insert_of_ne _ ha]
    simp [ha]

theorem nonempty_insert_nil : nonempty (files.insert n []) = (nonempty files).erase n := by
  ext a
  rw [Finset.mem_erase, mem_nonempty, mem_nonempty]
  by_cases ha : a = n
  · subst ha
    rw [Finmap.lookup_insert]
    simp
  · rw [Finmap.lookup_insert_of_ne _ ha]
    simp [ha]

theorem nonempty_erase : nonempty (files.erase n) = (nonempty files).erase n := by
  ext a
  rw [Finset.mem_erase, mem_nonempty, mem_nonempty]
  by_cases ha : a = n
  · subst ha
    rw [Finmap.lookup_erase]
    simp
  · rw [Finmap.lookup_erase_ne ha]
    simp [ha]

theorem notMem_nonempty (h : files.lookup n = none ∨ files.lookup n = some []) :
    n ∉ nonempty files := by
  rw [mem_nonempty]
  rintro ⟨c, hc, hne⟩
  rcases h with h | h
  · rw [h] at hc
    cases hc
  · rw [h, Option.some.injEq] at hc
    exact hne hc.symm

theorem mem_nonempty_of (h : files.lookup n = some c) (hc : c ≠ []) : n ∈ nonempty files :=
  mem_nonempty.mpr ⟨c, h, hc⟩

end Cards

end MBroker.Fs
