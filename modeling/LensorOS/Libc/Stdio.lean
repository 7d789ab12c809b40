import LensorOS.Libc.Malloc

/-!
# Streams of the C library

A stream has a write buffer and a read buffer on the heap, and a descriptor behind it. Bytes that
are copied to a place outside of the heap do not return.
-/
namespace LensorOS.Libc
open Framework
def bufsiz : Nat := 1024
def bufferedReadThreshold : Nat := 64
def newline : BitVec 8 := 10

inductive Buffering
  | fullyBuffered
  | lineBuffered
  | unbuffered
deriving DecidableEq

/-- The other side of a descriptor: what was written to it, and the input that was not read yet.
`transfers` has the answers to the calls of `read` and `write`, one after the other: how many of
the bytes are moved, or that the call fails. -/
structure Descriptor where
  written : List (BitVec 8)
  remaining : List (BitVec 8)
  transfers : Nat → Nat → Option Nat
  calls : Nat

namespace Descriptor
variable (d : Descriptor)
def write (data : List (BitVec 8)) : Option Nat × Descriptor :=
  match d.transfers d.calls data.length with
  | none => (none, { d with calls := d.calls+1 })
  | some n =>
    (some (min n data.length), { d with
      written := d.written ++ data.take n
      calls := d.calls+1 })

def read (count : Nat) : Option (List (BitVec 8)) × Descriptor :=
  match d.transfers d.calls count with
  | none => (none, { d with calls := d.calls+1 })
  | some n =>
    (some (d.remaining.take (min n count)), { d with
      remaining := d.remaining.drop (min n count)
      calls := d.calls+1 })
end Descriptor

def Heap.memcpy (h : Heap) (dst : Nat) (bytes : List (BitVec 8)) : Option Heap :=
  if bytes = [] ∨ (h.heapBase ≤ dst ∧ dst+bytes.length ≤ h.heapBase+h.heapSize) then
    some { h with memory := h.memory.store dst bytes }
  else none

structure WriteBuffer where
  buf : Nat
  offs : Nat
  cap : Nat

structure ReadBuffer where
  buf : Nat
  start : Nat
  offs : Nat
  cap : Nat

def WriteBuffer.resize (b : WriteBuffer) (h : Heap) (size : Nat) : Option (WriteBuffer × Heap) :=
  if b.cap ≠ size then
    (h.mextend b.buf size).toOption.map fun (buf,h) => ({ b with buf := buf, cap := size }, h)
  else some (b,h)

/-- The capacity is to be the larger of the two sizes, but `std::max` returns the smaller one. -/
def ReadBuffer.resize (b : ReadBuffer) (h : Heap) (size : Nat) : Option (ReadBuffer × Heap) :=
  if b.cap ≠ size then
    if b.offs = 0 then
      (h.mextend b.buf size).toOption.map fun (buf,h) => ({ b with buf := buf, cap := size }, h)
    else
      (h.realloc b.buf (min b.offs size)).toOption.map fun (buf,h) =>
        ({ b with buf := buf, cap := min b.offs size }, h)
  else some (b,h)

structure File where
  heap : Heap
  wbuf : WriteBuffer
  rdbuf : ReadBuffer
  descriptor : Descriptor
  buffering : Buffering
  error : Bool
  eof : Bool
  hasUngotten : Bool
  ungotten : BitVec 8

namespace File
/-- A new stream. Whether the buffers were allocated is not checked. -/
def create (heap : Heap) (descriptor : Descriptor) (buffering : Buffering) : Option File :=
  match heap.malloc bufsiz with
  | .error _ => none
  | .ok (wbuf,heap) =>
    match heap.malloc bufsiz with
    | .error _ => none
    | .ok (rdbuf,heap) => some {
        heap := heap
        wbuf := ⟨wbuf,0,bufsiz⟩
        rdbuf := ⟨rdbuf,0,0,bufsiz⟩
        descriptor := descriptor
        buffering := buffering
        error := false
        eof := false
        hasUngotten := false
        ungotten := 0 }

variable (f : File)
def pending : List (BitVec 8) := f.heap.memory.load f.wbuf.buf f.wbuf.offs

def flush : Bool × File := if f.wbuf.offs = 0 then (true,f)
  else
    let (written,d) := f.descriptor.write f.pending
    if written = some f.wbuf.offs then
      (true, { f with descriptor := d, wbuf := { f.wbuf with offs := 0 } })
    else (false, { f with descriptor := d, error := true })

variable (data : List (BitVec 8))
def writeThrough : Int × File :=
  let (written,d) := f.descriptor.write data
  if written = some data.length then (data.length, { f with descriptor := d })
  else (-1, { f with descriptor := d, error := true })

def writeInternal : Option (Int × File) := let (flushed,f) :=
    if (f.wbuf.offs+data.length) % 2^64 > f.wbuf.cap then f.flush else (true,f)
  if !flushed then some (-1,f)
  else if data.length > f.wbuf.cap then some (f.writeThrough data)
  else
    (f.heap.memcpy (f.wbuf.buf+f.wbuf.offs) data).map fun heap =>
      (data.length, { f with
        heap := heap
        wbuf := { f.wbuf with offs := (f.wbuf.offs+data.length) % 2^64 } })

/-- Write and flush up to each newline, and then write the rest. The bytes since the last newline
are in `line`. -/
def writeLines (f : File) (written : Int) (line : List (BitVec 8)) :
    List (BitVec 8) → Option (Int × File)
  | [] => (f.writeInternal line).map fun (n,f) => (written+n,f)
  | c :: rest =>
    if c = newline then
      match f.writeInternal (line ++ [c]) with
      | none => none
      | some (n,f) =>
        if n ≠ (line ++ [c]).length then some (written,f)
        else
          match f.flush with
          | (false,f) => some (written,f)
          | (true,f) => f.writeLines (written+n) [] rest
    else f.writeLines written (line ++ [c]) rest

def write : Option (Int × File) := match f.buffering with
  | .unbuffered => some (f.writeThrough data)
  | .lineBuffered => f.writeLines 0 [] data
  | .fullyBuffered => f.writeInternal data

def setbuf (buffering : Buffering) (size : Nat) : Option (Bool × File) := match f.flush with
  | (false,f) => some (false,f)
  | (true,f) =>
    if buffering = .unbuffered then some (true, { f with buffering := .unbuffered })
    else
      let size := if size < bufsiz then bufsiz else size
      (f.wbuf.resize f.heap size).bind fun (wbuf,heap) =>
        (f.rdbuf.resize heap size).map fun (rdbuf,heap) =>
          (true, { f with heap := heap, wbuf := wbuf, rdbuf := rdbuf, buffering := buffering })

/-- Refused after any input or output. -/
def setvbuf (mode : Buffering) (size : Nat) : Option (Int × File) :=
  if f.rdbuf.offs ≠ 0 ∨ f.wbuf.offs ≠ 0 ∨ f.error ∨ f.eof then some (-1,f)
  else (f.setbuf mode size).map fun (done,f) => (if done then 0 else -1,f)

def seek (answer : Int) (remaining : List (BitVec 8)) : Int × File :=
  match { f with hasUngotten := false, eof := false }.flush with
  | (false,f) => (-1,f)
  | (true,f) => (answer, { f with descriptor := { f.descriptor with remaining := remaining } })

def unget (c : BitVec 8) : Int × File :=
  if f.hasUngotten then (-1,f) else (c.toInt, { f with hasUngotten := true, ungotten := c })

/-- Copy to a destination with the memory `dst`; the number of bytes, and the destination. -/
def copyFromReadBuffer (dst : Bytes) (buf size : Nat) : Nat × Bytes × File :=
  if size = 0 then (0,dst,f)
  else if f.rdbuf.offs ≤ f.rdbuf.start then (0,dst,f)
  else
    let streamRem := f.rdbuf.offs-f.rdbuf.start
    let toCopy := min size streamRem
    let dst := dst.store buf (f.heap.memory.load (f.rdbuf.buf+f.rdbuf.start) toCopy)
    if streamRem = toCopy then
      (toCopy, dst, { f with rdbuf := { f.rdbuf with start := 0, offs := 0 } })
    else
      (toCopy, dst, { f with rdbuf := { f.rdbuf with start := f.rdbuf.start+toCopy } })

def readBuffered (dst : Bytes) (buf size rest : Nat) : Option (Int × Bytes × File) :=
  match f.descriptor.read f.rdbuf.cap with
  | (none,d) => some (-1, dst, { f with descriptor := d, error := true })
  | (some [],d) =>
    some (((size+2^64-rest) % 2^64 : Nat), dst, { f with descriptor := d, eof := true })
  | (some chunk,d) =>
    (f.heap.memcpy f.rdbuf.buf chunk).map fun heap =>
      let f := { f with
        heap := heap
        descriptor := d
        rdbuf := { f.rdbuf with start := 0, offs := chunk.length } }
      let (copied,dst,f) := f.copyFromReadBuffer dst buf rest
      if copied = rest then (size,dst,f)
      else (((size+2^64-rest+copied) % 2^64 : Nat), dst, f)

def readThrough (dst : Bytes) (buf size rest : Nat) : Int × Bytes × File :=
  match f.descriptor.read rest with
  | (none,d) => (-1, dst, { f with descriptor := d, error := true })
  | (some chunk,d) =>
    (((size+2^64-rest+chunk.length) % 2^64 : Nat), dst.store buf chunk,
      { f with descriptor := d, eof := f.eof || chunk.isEmpty })

def readDescriptor (dst : Bytes) (buf size rest : Nat) : Option (Int × Bytes × File) :=
  if rest < bufferedReadThreshold then f.readBuffered dst buf size rest
  else some (f.readThrough dst buf size rest)

/-- Read what is left after a character that was pushed back. The destination is not moved on when
the read buffer had some of the bytes. -/
def readRest (dst : Bytes) (buf size rest : Nat) : Option (Int × Bytes × File) :=
  if f.rdbuf.offs > f.rdbuf.start then
    let (copied,dst,f) := f.copyFromReadBuffer dst buf rest
    if copied > rest then some (-1, dst, { f with error := true })
    else if copied = rest then some (size,dst,f)
    else f.readDescriptor dst buf size (rest-copied)
  else f.readDescriptor dst buf size rest

def read (dst : Bytes) (buf size : Nat) : Option (Int × Bytes × File) :=
  if f.error then some (-1,dst,f)
  else if f.eof then some (-1,dst,f)
  else if f.hasUngotten then
    let dst := dst.write8 buf f.ungotten
    let f := { f with hasUngotten := false }
    if size = 1 then some (1,dst,f)
    else f.readRest dst (buf+1) size ((size+2^64-1) % 2^64)
  else f.readRest dst buf size size
end File
end LensorOS.Libc
