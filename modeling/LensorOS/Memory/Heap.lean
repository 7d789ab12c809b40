import LensorOS.Framework.Bytes
import LensorOS.Framework.LinkedTiles
import LensorOS.Memory.PhysicalMemoryManager

/-!
# The kernel heap

`malloc` and `free` over segment headers of 32 bytes in the heap's own memory. `mapped` records
every page the heap was given with its frame. Arithmetic is modulo `2^64`. A page request that fails
stops the allocator here; the source code continues with the null page.
-/
namespace LensorOS.Memory
open Framework
def heapVirtualBase : Nat := 0xffffffffff000000
def heapInitialPages : Nat := 1
def heapByteAlign : Nat := 16
def headerSize : Nat := 32
def add64 (x y : Nat) : Nat := (x+y) % 2^64

inductive HeapFault
  | outOfPages
  | outOfFuel
deriving DecidableEq

structure Heap where
  memory : Bytes
  sHeapStart : Nat
  sHeapEnd : Nat
  sLastHeader : Nat
  physical : PhysicalMemory
  mapped : List (Nat × Nat)

namespace Heap
def lastOf (m : Bytes) (segment : Nat) : Nat := (m.read64 segment).toNat
def nextOf (m : Bytes) (segment : Nat) : Nat := (m.read64 (segment+8)).toNat
def lengthOf (m : Bytes) (segment : Nat) : Nat := (m.read64 (segment+16)).toNat
def freeOf (m : Bytes) (segment : Nat) : Bool := m (segment+24) != 0
def setLast (m : Bytes) (segment value : Nat) : Bytes := m.write64 segment (.ofNat 64 value)
def setNext (m : Bytes) (segment value : Nat) : Bytes := m.write64 (segment+8) (.ofNat 64 value)
def setLength (m : Bytes) (segment value : Nat) : Bytes := m.write64 (segment+16) (.ofNat 64 value)
def setFree (m : Bytes) (segment : Nat) (value : Bool) : Bytes := m.write8 (segment+24) (if value then 1 else 0)

def segmentHeader (m : Bytes) (segment : Nat) : TileHeader :=
  ⟨lastOf m segment,nextOf m segment,lengthOf m segment,freeOf m segment⟩

variable (h : Heap)
def combineForward (segment : Nat) : Heap := let next := nextOf h.memory segment
  if next = 0 then h
  else if freeOf h.memory next = false then h
  else
    let following := nextOf h.memory next
    let m1 := if following = 0 then h.memory else setLast h.memory following segment
    let m2 := setLength m1 segment
      (add64 (add64 (lengthOf m1 segment) (lengthOf m1 next)) headerSize)
    { h with
      memory := setNext m2 segment (nextOf m2 next)
      sLastHeader := if next = h.sLastHeader then segment else h.sLastHeader }

def combineBackward (segment : Nat) : Heap := let last := lastOf h.memory segment
  if last = 0 then h
  else if freeOf h.memory last = false then h
  else h.combineForward last

/-- `none` is the null pointer; otherwise the segment was cut and keeps its address. -/
def split (segment splitLength : Nat) : Option Heap :=
  let length := lengthOf h.memory segment
  if length < add64 splitLength headerSize then none
  else if splitLength < heapByteAlign then none
  else
    let splitSegmentLength := length-splitLength-headerSize
    if splitSegmentLength < heapByteAlign then none
    else
      let splitHeader := add64 (add64 segment headerSize) splitLength
      let next := nextOf h.memory segment
      let m1 := if next = 0 then setNext h.memory splitHeader 0
        else setNext (setLast h.memory next splitHeader) splitHeader next
      let m2 := setNext m1 segment splitHeader
      let m3 := setLast m2 splitHeader segment
      let m4 := setLength m3 segment splitLength
      let m5 := setLength m4 splitHeader splitSegmentLength
      some { h with
        memory := setFree m5 splitHeader (freeOf m5 segment)
        sLastHeader := if next = 0 then splitHeader else h.sLastHeader }

/-- Request and map a page for each of `count` consecutive pages, the first of them `index`
pages behind the heap's end; `clear` is whether a new page is zeroed. -/
def mapNewPages (h : Heap) (clear : Bool) : (count index : Nat) → Except HeapFault Heap
  | 0, _ => .ok h
  | count+1, index =>
    match h.physical.requestPage with
    | (none,_) => .error .outOfPages
    | (some frame,physical) =>
      let page := add64 h.sHeapEnd (index * pageSize)
      mapNewPages
        { h with
          memory := if clear then h.memory.fill page pageSize 0 else h.memory
          physical := physical
          mapped := (page,frame) :: h.mapped }
        clear count (index+1)

/-- `init_heap` as far as its report. -/
def initSegments (memory : Bytes) (physical : PhysicalMemory) : Except HeapFault Heap := do
  let numBytes := heapInitialPages * pageSize
  let h ← mapNewPages ⟨memory,heapVirtualBase,heapVirtualBase,0,physical,[]⟩ false
    heapInitialPages 0
  let firstSegment := heapVirtualBase
  let m1 := setLength h.memory firstSegment (numBytes-headerSize)
  let m2 := setNext m1 firstSegment 0
  let m3 := setLast m2 firstSegment 0
  return { h with
    memory := setFree m3 firstSegment true
    sHeapEnd := add64 h.sHeapStart numBytes
    sLastHeader := firstSegment }

def expandHeap (numBytes : Nat) : Except HeapFault Heap := do
  let numPages := numBytes / pageSize+1
  let numBytes := numPages * pageSize
  let h ← mapNewPages h true numPages 0
  let extension := h.sHeapEnd
  let m1 := setFree h.memory extension true
  let m2 := setLast m1 extension h.sLastHeader
  let m3 := setNext m2 h.sLastHeader extension
  let m4 := setNext m3 extension 0
  let m5 := setLength m4 extension (numBytes-headerSize)
  return combineBackward
    { h with memory := m5, sHeapEnd := add64 extension numBytes, sLastHeader := extension }
    extension

/-- The search of `malloc` from `current`: the payload address and the heap after taking the
first segment that can be used, or `none` at the end of the list. -/
def searchSegments (h : Heap) (numBytes : Nat) :
    (fuel current : Nat) → Except HeapFault (Option (Nat × Heap))
  | 0, _ => .error .outOfFuel
  | fuel+1, current =>
    let taken (h : Heap) : Option (Nat × Heap) :=
      some (add64 current headerSize, { h with memory := setFree h.memory current false })
    let next := nextOf h.memory current
    let advance := if next = 0 then .ok none else searchSegments h numBytes fuel next
    if freeOf h.memory current = false then advance
    else if numBytes < lengthOf h.memory current then
      match h.split current numBytes with
      | some h' => .ok (taken h')
      | none => advance
    else if lengthOf h.memory current = numBytes then .ok (taken h)
    else advance

def roundUp (numBytes : Nat) : Nat :=
  if 0 < numBytes % heapByteAlign then numBytes-numBytes % heapByteAlign+heapByteAlign
  else numBytes

def segmentBound : Nat := h.mapped.length * pageSize / headerSize+1

/-- `malloc` with a bound on its calls of itself after an expansion. -/
def mallocBounded : (fuel : Nat) → Heap → Nat → Except HeapFault (Nat × Heap)
  | 0, _, _ => .error .outOfFuel
  | fuel+1, h, numBytes =>
    if numBytes = 0 then .ok (0,h)
    else
      let numBytes := roundUp numBytes
      match h.searchSegments numBytes h.segmentBound h.sHeapStart with
      | .error fault => .error fault
      | .ok (some result) => .ok result
      | .ok none =>
        match h.expandHeap numBytes with
        | .error fault => .error fault
        | .ok h' => mallocBounded fuel h' numBytes

/-- The third search always finds a segment, so the bound is never what stops it. -/
def malloc (numBytes : Nat) : Except HeapFault (Nat × Heap) := mallocBounded 3 h numBytes

def totalChars : Nat := add64 h.sHeapEnd (2^64-h.sHeapStart) / 64+1

/-- The report ends with a chart of the heap, in an array that nothing deletes: its address is
returned here. -/
def initHeap (memory : Bytes) (physical : PhysicalMemory) : Except HeapFault (Nat × Heap) := do
  let h ← initSegments memory physical
  h.malloc h.totalChars

def free (address : Nat) : Heap :=
  if address &&& heapVirtualBase ≠ heapVirtualBase then h
  else
    let segment := address-headerSize
    let h1 := { h with memory := setFree h.memory segment true }
    let h2 := h1.combineForward segment
    h2.combineBackward segment
end Heap
end LensorOS.Memory
