import Lzopfs.Lib.Service
import Lzopfs.PathUtils
import Lzopfs.ReadRequest

/-!
# A file system that is only read

What a mount is for. There is one directory, and files in it with contents that do not
change. A file can be opened for reading any number of times, and many requests can be
under way at once; an answer puts bytes of the file in front of the buffer of the request.
A request that starts at the end of a file or behind it is not expected: it ends the
service.
-/

namespace Lzopfs

open Verify PathUtils

def ENOENT : Int := 2
def EACCES : Int := 13
def O_ACCMODE : UInt32 := 3
def O_RDONLY : UInt32 := 0
def S_IFDIR : UInt32 := 0x4000
def S_IFREG : UInt32 := 0x8000

/-- The fields of `struct stat` that are set. -/
structure Stat where
  st_mode : UInt32
  st_nlink : Nat
  st_size : Int
  deriving DecidableEq, Repr

/-- What a program sees of a file system: its requests and what they return. -/
inductive Seen where
  | getattr (path : Str) (ret : Int) (stbuf : Stat)
  | readdir (path : Str) (ret : Int) (entries : List Str)
  | opened (path : Str) (flags : UInt32) (ret : Int) (fh : Option Nat)
  | released (fh : Nat) (ret : Int)
  | asked (id fh : Nat) (size : UInt64) (offset : Int)
  | answered (id : Nat) (outcome : Outcome)
  deriving DecidableEq

/-- A directory with files. -/
structure Tree where
  names : List Str
  contents : Str → Option Buffer
  listed : ∀ path, (contents path).isSome = true ↔ ∃ name ∈ names, path = '/' :: name

namespace ReadOnlyFs

/-- A request that is not answered yet. -/
structure Request where
  id : Nat
  data : Buffer
  buf : Buffer
  size : UInt64
  offset : Nat

structure State where
  handles : Nat → Option Buffer
  requests : List Request
  exited : Option Nat

/-- What is asked of a file system. Opening a file can fail for reasons of its own. -/
inductive Op where
  | getattr (path : Str)
  | readdir (path : Str)
  | openFile (path : Str) (flags : UInt32) (fh : Nat) (opens : Except Int Unit)
  | release (fh : Nat)
  | read (id fh : Nat) (buf : Buffer) (size : UInt64) (offset : Nat)
  | answer (id : Nat)

/-- The attributes of the directory, and of a file. -/
def dirStat : Stat := ⟨S_IFDIR ||| 0o755, 3, 0⟩
def fileStat (size : Nat) : Stat := ⟨S_IFREG ||| 0o444, 1, size⟩

def getattr (tree : Tree) (path : Str) : Int × Stat :=
  if path = ['/'] then (0, dirStat)
  else match tree.contents path with
    | some data => (0, fileStat data.length)
    | none => (-ENOENT, ⟨0, 0, 0⟩)

def readdir (tree : Tree) (path : Str) : Int × List Str :=
  if path = ['/'] then (0, ['.'] :: ['.', '.'] :: tree.names) else (-ENOENT, [])

/-- The bytes of the file from the offset on, as many as there are and as fit. -/
def serve (data buf : Buffer) (size : UInt64) (offset : Nat) : Outcome :=
  let n := min size.toNat (data.length - offset)
  .returned n ((data.drop offset).take n ++ buf.drop n)

/-- Opening a file: what is returned, and the contents if there is a new handle. -/
def openFile (tree : Tree) (path : Str) (flags : UInt32) (opens : Except Int Unit) :
    Int × Option Buffer :=
  match tree.contents path with
  | none => (-ENOENT, none)
  | some data =>
      if flags &&& O_ACCMODE ≠ O_RDONLY then (-EACCES, none)
      else match opens with
        | .error error_code => (error_code, none)
        | .ok () => (0, some data)

namespace State

variable (s : State)

/-- A file is opened if its handle is new. -/
def opened (path : Str) (flags : UInt32) (fh : Nat) :
    Int × Option Buffer → Option (State × List Seen)
  | (ret, none) => some (s, [.opened path flags ret none])
  | (ret, some data) =>
      if (s.handles fh).isSome then none
      else some ({ s with handles := Function.update s.handles fh (some data) },
        [.opened path flags ret (some fh)])

def released (fh : Nat) : Option (State × List Seen) :=
  if (s.handles fh).isSome then
    some ({ s with handles := Function.update s.handles fh none }, [.released fh 0])
  else none

def asked (id fh : Nat) (data buf : Buffer) (size : UInt64) (offset : Nat) : State × List Seen :=
  if offset < data.length then
    ({ s with requests := ⟨id, data, buf, size, offset⟩ :: s.requests }, [.asked id fh size offset])
  else ({ s with exited := some 1 }, [.asked id fh size offset, .answered id (.exited 1)])

def answered (r : Request) : State × List Seen :=
  ({ s with requests := s.requests.filter fun r' => r'.id ≠ r.id },
    [.answered r.id (serve r.data r.buf r.size r.offset)])

end State

def perform (tree : Tree) (s : State) : Op → Option (State × List Seen)
  | .getattr path => some (s, [.getattr path (getattr tree path).1 (getattr tree path).2])
  | .readdir path => some (s, [.readdir path (readdir tree path).1 (readdir tree path).2])
  | .openFile path flags fh opens => s.opened path flags fh (openFile tree path flags opens)
  | .release fh => s.released fh
  | .read id fh buf size offset => (s.handles fh).map fun data => s.asked id fh data buf size offset
  | .answer id => (s.requests.find? fun r => r.id = id).map s.answered

def step (tree : Tree) (s : State) (op : Op) : Option (State × List Seen) :=
  if s.exited.isSome then none else perform tree s op

def service (tree : Tree) : Service State Op Seen where
  start := ⟨fun _ => none, [], none⟩
  step := step tree

end ReadOnlyFs

end Lzopfs
