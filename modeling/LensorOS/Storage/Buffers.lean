import LensorOS.Framework.Run
import LensorOS.Storage.MemoryCopy

/-!
# Pipe, socket and input buffers

The buffers keep their bytes at the front of an array, with the offset where the next byte goes.
What a call does to waiting processes is returned as the list of processes to wake up.
-/
namespace LensorOS.Storage
open Framework
/-- What a read or write returns: -1, -2 for a caller that has to wait, or the bytes moved. -/
inductive Transfer
  | error
  | blocks
  | done (bytes : List (BitVec 8))
deriving DecidableEq

structure Stream where
  data : Bytes
  offset : Nat

namespace Stream
def bytes (m : Bytes) (n : Nat) : List (BitVec 8) := (List.range n).map fun x => m x
def contents (s : Stream) : List (BitVec 8) := bytes s.data s.offset

def push (s : Stream) (buffer : Bytes) (byteCount : Nat) : Stream where
  data := if byteCount < 2^63 then s.data.store s.offset (bytes buffer byteCount) else s.data
  offset := (s.offset+byteCount) % 2^64

/-- Drop bytes at the front and move the rest there. -/
def pop (s : Stream) (size byteCount : Nat) : Stream where
  data := memmove s.data 0 byteCount (size-byteCount)
  offset := s.offset-byteCount
end Stream

def pipeBufSize : Nat := 512

structure PipeBuffer where
  stream : Stream
  readClosed : Bool
  writeClosed : Bool
  pidsWaitingOnReadToWrite : List Nat
  pidsWaitingOnWriteToRead : List Nat

/-- The outcome of a call on a buffer: what it returns, the buffer, and whom it wakes up. -/
structure Outcome (β : Type) where
  result : Transfer
  buffer : β
  woken : List Nat

namespace PipeBuffer
def read (b : PipeBuffer) (pid byteCount : Nat) : Outcome PipeBuffer := if b.stream.offset = 0 then
    if b.writeClosed then ⟨.error,b,[]⟩
    else
      ⟨.blocks,{ b with pidsWaitingOnWriteToRead := b.pidsWaitingOnWriteToRead ++ [pid] },[]⟩
  else
    let byteCount := if byteCount > b.stream.offset then b.stream.offset else byteCount
    ⟨.done (Stream.bytes b.stream.data byteCount), { b with
        stream := b.stream.pop pipeBufSize byteCount
        pidsWaitingOnReadToWrite := [] },b.pidsWaitingOnReadToWrite⟩

def write (b : PipeBuffer) (pid : Nat) (buffer : Bytes) (byteCount : Nat) : Outcome PipeBuffer :=
  if byteCount = 0 then ⟨.done [],b,[]⟩
  else
    let byteCount := if byteCount > pipeBufSize then pipeBufSize else byteCount
    if (b.stream.offset+byteCount) % 2^64 > pipeBufSize then
      ⟨.blocks,{ b with pidsWaitingOnReadToWrite := b.pidsWaitingOnReadToWrite ++ [pid] },[]⟩
    else
      ⟨.done (Stream.bytes buffer byteCount), { b with
          stream := b.stream.push buffer byteCount
          pidsWaitingOnWriteToRead := [] },b.pidsWaitingOnWriteToRead⟩

def clear (_ : PipeBuffer) : PipeBuffer where
  stream := ⟨fun _ => 0,0⟩
  readClosed := false
  writeClosed := false
  pidsWaitingOnReadToWrite := []
  pidsWaitingOnWriteToRead := []
end PipeBuffer

inductive PipeEnd
  | read
  | write
deriving DecidableEq

/-- Close an end of a pipe: the buffer, whom it wakes up, and whether it is freed. A second close
of an end is denied. -/
def PipeBuffer.close (b : PipeBuffer) (pipeEnd : PipeEnd) : PipeBuffer × List Nat × Bool :=
  let closed := match pipeEnd with
    | .read => b.readClosed
    | .write => b.writeClosed
  if closed then (b,[],false)
  else
    let woken := match pipeEnd with
      | .read => b.pidsWaitingOnReadToWrite
      | .write => b.pidsWaitingOnWriteToRead
    let b := match pipeEnd with
      | .read => { b with readClosed := true, pidsWaitingOnReadToWrite := [] }
      | .write => { b with writeClosed := true, pidsWaitingOnWriteToRead := [] }
    if !b.readClosed || !b.writeClosed then (b,woken,false) else (b.clear,woken,true)

structure FIFOBuffer where
  size : Nat
  stream : Stream
  pidsWaitingUntilRead : List Nat
  pidsWaitingUntilWrite : List Nat

namespace FIFOBuffer
def read (b : FIFOBuffer) (pid byteCount : Nat) : Outcome FIFOBuffer := if b.stream.offset = 0 then
    ⟨.blocks,{ b with pidsWaitingUntilWrite := b.pidsWaitingUntilWrite ++ [pid] },[]⟩
  else
    let byteCount := if byteCount > b.stream.offset then b.stream.offset else byteCount
    ⟨.done (Stream.bytes b.stream.data byteCount), { b with
        stream := b.stream.pop b.size byteCount
        pidsWaitingUntilRead := [] },b.pidsWaitingUntilRead⟩

def write (b : FIFOBuffer) (pid : Nat) (buffer : Bytes) (byteCount : Nat) : Outcome FIFOBuffer :=
  if (b.stream.offset+byteCount) % 2^64 > b.size then
    ⟨.blocks,{ b with pidsWaitingUntilRead := b.pidsWaitingUntilRead ++ [pid] },[]⟩
  else
    ⟨.done (Stream.bytes buffer byteCount), { b with
        stream := b.stream.push buffer byteCount
        pidsWaitingUntilWrite := [] },b.pidsWaitingUntilWrite⟩
end FIFOBuffer

def inputBufSize : Nat := 4064

structure InputBuffer where
  stream : Stream
  pidsWaiting : List Nat

namespace InputBuffer
/-- The rest is moved to the front through a second array. -/
def pop (s : Stream) (byteCount : Nat) : Stream where
  data := s.data.store 0 (Stream.bytes (fun x => s.data (x+byteCount)) (inputBufSize-byteCount))
  offset := s.offset-byteCount

def read (b : InputBuffer) (pid byteCount : Nat) : Outcome InputBuffer :=
  if b.stream.offset = 0 then ⟨.blocks,{ b with pidsWaiting := b.pidsWaiting ++ [pid] },[]⟩
  else
    let byteCount := if byteCount > b.stream.offset then b.stream.offset else byteCount
    ⟨.done (Stream.bytes b.stream.data byteCount),{ b with stream := pop b.stream byteCount },[]⟩

def write (b : InputBuffer) (buffer : Bytes) (byteCount : Nat) : Outcome InputBuffer :=
  let byteCount := if (b.stream.offset+byteCount) % 2^64 > inputBufSize then
    inputBufSize-b.stream.offset else byteCount
  ⟨.done (Stream.bytes buffer byteCount), { b with
      stream := b.stream.push buffer byteCount
      pidsWaiting := [] },b.pidsWaiting⟩
end InputBuffer

namespace Stream
theorem bytes_length (m : Bytes) (n : Nat) : (bytes m n).length = n := by simp [bytes]

theorem bytes_add (m : Bytes) (n k : Nat) : bytes m (n+k) = bytes m n ++ bytes (fun x => m (n+x)) k := by
  simp only [bytes,List.range_add,List.map_append,List.map_map]
  rfl

theorem bytes_congr {m m' : Bytes} {n : Nat} (h : ∀ x < n, m x = m' x) : bytes m n = bytes m' n := by
  apply List.map_congr_left
  intro x hx
  exact h x (List.mem_range.mp hx)

theorem contents_pop {s : Stream} {size byteCount : Nat} (hc : byteCount ≤ s.offset)
    (hsi : s.offset ≤ size) (hs : size < 2^63) :
    bytes s.data byteCount ++ (s.pop size byteCount).contents = s.contents := by
  have hr : (s.pop size byteCount).contents = bytes (fun x => s.data (byteCount+x)) (s.offset-byteCount) := by
    apply bytes_congr
    intro x hx
    have hx : x < s.offset-byteCount := hx
    have hi : 0 ≤ x ∧ x < 0+(size-byteCount) := by omega
    simp only [pop,memmove_eq_copy (show size-byteCount < 2^63 by omega),Bytes.copy,hi,
      and_self,if_true,Nat.sub_zero]
  rw [hr,← bytes_add,Nat.add_sub_cancel' hc,contents]

theorem contents_push {s : Stream} {byteCount : Nat} (buffer : Bytes)
    (hs : s.offset+byteCount < 2^63) :
    (s.push buffer byteCount).contents = s.contents ++ bytes buffer byteCount := by
  have hl : byteCount < 2^63 := by omega
  have hm : (s.offset+byteCount) % 2^64 = s.offset+byteCount := by omega
  unfold contents push
  simp only [if_pos hl,hm,bytes_add]
  congr 1
  · apply bytes_congr
    intro x hx
    exact Bytes.store_outside s.data (.inl hx)
  apply bytes_congr
  intro x hx
  simp [Bytes.store,bytes,hx]
end Stream

section
variable {pid byteCount : Nat}
theorem truncated_eq_min (offset : Nat) :
    (if byteCount > offset then offset else byteCount) = min byteCount offset := by
  split <;> omega

theorem PipeBuffer.read_result {b : PipeBuffer} (h : b.stream.offset ≠ 0) :
    (b.read pid byteCount).result =
      .done (Stream.bytes b.stream.data (min byteCount b.stream.offset)) := by
  simp [PipeBuffer.read,h,truncated_eq_min]

theorem FIFOBuffer.read_result {b : FIFOBuffer} (h : b.stream.offset ≠ 0) :
    (b.read pid byteCount).result =
      .done (Stream.bytes b.stream.data (min byteCount b.stream.offset)) := by
  simp [FIFOBuffer.read,h,truncated_eq_min]

theorem InputBuffer.read_result {b : InputBuffer} (h : b.stream.offset ≠ 0) :
    (b.read pid byteCount).result =
      .done (Stream.bytes b.stream.data (min byteCount b.stream.offset)) := by
  simp [InputBuffer.read,h,truncated_eq_min]
end
end LensorOS.Storage
