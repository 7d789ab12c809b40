import LensorOS.Framework.Bytes
import LensorOS.Framework.DoublyLinked

/-!
# The allocator of the C library

A header of 32 bytes for each block, on a doubly linked list of blocks in use or of free blocks.
Headers and blocks are cut off the heap one after the other, and recorded in a list that nothing
reads. Arithmetic is modulo `2^64`.
-/
namespace LensorOS.Libc
open Framework
def maxAlign : Nat := 16
def headerSize : Nat := 32
def enomem : Nat := 12

structure Heap where
  memory : Bytes
  heapBase : Nat
  heapSize : Nat
  heapPtr : Nat
  allocList : Nat
  freeList : Nat
  freeHeaders : Nat
  errno : Nat
  handedOut : List (Nat × Nat)

inductive Fault
  | endless
  | assertion
deriving DecidableEq

section
variable (m : Bytes) (block : Nat)
def ptrOf : Nat := (m.read64 block).toNat
def sizeOf : Nat := (m.read64 (block+8)).toNat
def nextOf : Nat := (m.read64 (block+16)).toNat
def prevOf : Nat := (m.read64 (block+24)).toNat

variable (value : Nat)
def setPtr : Bytes := m.write64 block (.ofNat 64 value)
def setSize : Bytes := m.write64 (block+8) (.ofNat 64 value)
def setNext : Bytes := m.write64 (block+16) (.ofNat 64 value)
def setPrev : Bytes := m.write64 (block+24) (.ofNat 64 value)
end

def unlink (m : Bytes) (block : Nat) : Bytes :=
  let m := if prevOf m block ≠ 0 then setNext m (prevOf m block) (nextOf m block) else m
  if nextOf m block ≠ 0 then setPrev m (nextOf m block) (prevOf m block) else m

def pushFront (m : Bytes) (list block : Nat) : Bytes :=
  let m := setNext (setPrev m block 0) block list
  if list ≠ 0 then setPrev m list block else m

/-- Round up to the alignment. The sum wraps for the sizes above `2^64 - 16`. -/
def alignToMaxAlignT (n : Nat) : Nat :=
  if n = 0 then maxAlign else (n+(maxAlign-1)) % 2^64 / maxAlign * maxAlign

namespace Heap
/-- The heap as it is after start-up, in memory that the kernel mapped at `heapBase`. -/
def initial (memory : Bytes) (heapBase : Nat) : Heap where
  memory := memory
  heapBase := heapBase
  heapSize := 2^20
  heapPtr := heapBase
  allocList := 0
  freeList := 0
  freeHeaders := 0
  errno := 0
  handedOut := []

variable (h : Heap)
def heapEnd : Nat := (h.heapBase+h.heapSize) % 2^64
def heapHasSpace (size : Nat) : Bool := (h.heapPtr+size) % 2^64 < h.heapEnd

def heapAlloc (size : Nat) : Nat × Heap := if h.heapHasSpace size then
    (h.heapPtr, { h with heapPtr := (h.heapPtr+size) % 2^64 })
  else (0,h)

def allocateHeader : Nat × Heap := if h.freeHeaders ≠ 0 then
    (h.freeHeaders, { h with freeHeaders := nextOf h.memory h.freeHeaders })
  else
    let (header,h) := h.heapAlloc headerSize
    if header ≠ 0 then
      (header, { h with memory := setPrev (setNext h.memory header 0) header 0 })
    else (0,h)

def freeHeader (header : Nat) : Heap := { h with
    memory := setNext h.memory header h.freeHeaders
    freeHeaders := header }

def listBound : Nat := h.heapSize / headerSize+1

def findFreeBlock (size : Nat) : Option Nat :=
  search 0 (nextOf h.memory) (fun block => sizeOf h.memory block ≥ size) h.listBound h.freeList

def findAllocBlock (ptr : Nat) : Option Nat :=
  search 0 (nextOf h.memory) (fun block => ptrOf h.memory block = ptr) h.listBound h.allocList

def reuseBlock (block : Nat) : Heap := let m := unlink h.memory block
  { h with
    memory := pushFront m h.allocList block
    freeList := if h.freeList = block then nextOf m block else h.freeList
    allocList := block }

def newBlock (bytes : Nat) : Nat × Heap :=
  if (h.heapPtr+bytes+headerSize) % 2^64 ≥ h.heapEnd then (0, { h with errno := enomem })
  else
    let (block,h) := h.allocateHeader
    if block = 0 then (0,h)
    else
      let (ptr,h) := h.heapAlloc bytes
      if ptr = 0 then (0,h.freeHeader block)
      else
        let m := setSize (setPtr h.memory block ptr) block bytes
        (ptr, { h with
          memory := pushFront m h.allocList block
          allocList := block
          handedOut := h.handedOut ++ [(ptr,bytes)] })

def malloc (bytes : Nat) : Except Fault (Nat × Heap) := let bytes := alignToMaxAlignT bytes
  match h.findFreeBlock bytes with
  | none => .error .endless
  | some block =>
    if block = 0 then .ok (h.newBlock bytes)
    else .ok (ptrOf (h.reuseBlock block).memory block, h.reuseBlock block)

def calloc (n size : Nat) : Except Fault (Nat × Heap) := match h.malloc (n * size % 2^64) with
  | .error fault => .error fault
  | .ok (ptr,h) =>
    if ptr = 0 then .ok (0,h)
    else .ok (ptr, { h with memory := h.memory.fill ptr (n * size % 2^64) 0 })

def releaseBlock (block : Nat) : Heap := let m := unlink h.memory block
  { h with
    memory := pushFront m h.freeList block
    allocList := if h.allocList = block then nextOf m block else h.allocList
    freeList := block }

/-- Without a block there the program is stopped, after a search of the free list. -/
def free (ptr : Nat) : Except Fault Heap := if ptr = 0 then .ok h
  else
    match h.findAllocBlock ptr with
    | none => .error .endless
    | some block => if block = 0 then .error .assertion else .ok (h.releaseBlock block)

def reallocImpl (copyData : Bool) (ptr size : Nat) : Except Fault (Nat × Heap) :=
  if ptr = 0 then h.malloc size
  else if size = 0 then .ok (ptr,h)
  else
    let size := alignToMaxAlignT size
    match h.findAllocBlock ptr with
    | none => .error .endless
    | some block =>
      if block = 0 then .error .assertion
      else if size ≤ sizeOf h.memory block then .ok (ptr,h)
      else
        match h.malloc size with
        | .error fault => .error fault
        | .ok (newPtr,h) =>
          if newPtr = 0 then .ok (0,h)
          else
            let h := if copyData then
                { h with memory := h.memory.copy newPtr ptr (min size (sizeOf h.memory block)) }
              else h
            (h.free ptr).map fun h => (newPtr,h)

def realloc (ptr size : Nat) : Except Fault (Nat × Heap) := h.reallocImpl true ptr size
def mextend (ptr size : Nat) : Except Fault (Nat × Heap) := h.reallocImpl false ptr size
end Heap
end LensorOS.Libc
