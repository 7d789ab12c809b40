import LensorOS.Memory.Paging

/-!
# The virtual memory manager

Page maps are four levels of tables in physical memory, which the kernel reaches at the virtual
address equal to the physical one. A request for a table that fails hands out the null page.
-/
namespace LensorOS.Memory
open Framework PageDirectoryEntry
namespace PageMapIndexer
variable (virtualAddress : Nat)
def pageDirectoryPointer : Nat := virtualAddress / 2^12 / 2^27 % 512
def pageDirectory : Nat := virtualAddress / 2^12 / 2^18 % 512
def pageTable : Nat := virtualAddress / 2^12 / 2^9 % 512
def page : Nat := virtualAddress / 2^12 % 512
end PageMapIndexer

def slot (table index : Nat) : Nat := table+8 * index
def entry (m : Bytes) (table index : Nat) : BitVec 64 := m.read64 (slot table index)

def setEntry (m : Bytes) (table index : Nat) (e : BitVec 64) : Bytes := m.write64 (slot table index) e

/-- A writable entry loses the right to write and is marked. -/
def makePdeCow (pde : BitVec 64) : BitVec 64 :=
  if flag pde .readWrite then setFlag (setFlag pde .readWrite false) .lensorCopyOnWrite true
  else pde

structure Frames where
  memory : Bytes
  physical : PhysicalMemory

namespace Frames
variable (s : Frames)
/-- One upper level of `map`: the table behind an entry, linked in first when it is missing. -/
def descend (table index : Nat) (mappingFlags : BitVec 64) : Nat × Frames :=
  let pde := entry s.memory table index
  let linked : BitVec 64 × Frames :=
    if flag pde .present then (pde,s)
    else
      let request := s.physical.requestPage
      let next := asPointer request.1
      (setAddress pde next, ⟨s.memory.fill next pageSize 0,request.2⟩)
  let pde := orFlags linked.1 mappingFlags
  (address pde, { linked.2 with memory := setEntry linked.2.memory table index pde })

def map (pageMapLevelFour virtualAddress physicalAddress : Nat) (mappingFlags : BitVec 64) : Frames :=
  if pageMapLevelFour = 0 then s
  else
    let pdp := s.descend pageMapLevelFour (PageMapIndexer.pageDirectoryPointer virtualAddress)
      mappingFlags
    let pd := pdp.2.descend pdp.1 (PageMapIndexer.pageDirectory virtualAddress) mappingFlags
    let pt := pd.2.descend pd.1 (PageMapIndexer.pageTable virtualAddress) mappingFlags
    let index := PageMapIndexer.page virtualAddress
    let pde := setFlags (setAddress (entry pt.2.memory pt.1 index) physicalAddress) mappingFlags
    { pt.2 with memory := setEntry pt.2.memory pt.1 index pde }

/-- How often a loop over `pageCount` pages from an address runs: not at all when the end of
the range wraps around. -/
def pageLoopCount (virtualAddress pageCount : Nat) : Nat :=
  let finish := (virtualAddress+pageCount * pageSize) % 2^64
  if virtualAddress < finish then (finish-virtualAddress) / pageSize else 0

/-- Map pages one after another. Addresses that run past the end of the address space have
the table indices of the wrapped ones. -/
def mapRun (pageTable virtualAddress physicalAddress : Nat)
    (mappingFlags : BitVec 64) (count : Nat) : Frames :=
  (List.range count).foldl
    (fun s i => s.map pageTable (virtualAddress+i * pageSize) (physicalAddress+i * pageSize)
      mappingFlags) s

def mapPages (pageTable virtualAddress physicalAddress : Nat)
    (mappingFlags : BitVec 64) (pageCount : Nat) : Frames :=
  s.mapRun pageTable virtualAddress physicalAddress mappingFlags
    (pageLoopCount virtualAddress pageCount)

def unmap (pageMapLevelFour virtualAddress : Nat) : Frames :=
  let pdp := address
    (entry s.memory pageMapLevelFour (PageMapIndexer.pageDirectoryPointer virtualAddress))
  let pd := address (entry s.memory pdp (PageMapIndexer.pageDirectory virtualAddress))
  let pt := address (entry s.memory pd (PageMapIndexer.pageTable virtualAddress))
  let index := PageMapIndexer.page virtualAddress
  { s with memory := setEntry s.memory pt index (setFlag (entry s.memory pt index) .present false) }

def unmapRun (pageTable virtualAddress count : Nat) : Frames :=
  (List.range count).foldl (fun s i => s.unmap pageTable (virtualAddress+i * pageSize)) s

def unmapPages (pageTable virtualAddress pageCount : Nat) : Frames :=
  s.unmapRun pageTable virtualAddress (pageLoopCount virtualAddress pageCount)

/-- The addresses that the linker script gives the kernel. -/
def kernelPhysical : Nat := 0x100000
def kernelVirtual : Nat := 0xffffffff80000000

/-- How often the loop over the pages of the kernel runs; `kernelSize` is the distance from its
start to its end. -/
def kernelPages (kernelSize : Nat) : Nat := (1+kernelSize+pageSize+(pageSize-1)) / pageSize

/-- The page map that is active in the end, with the memory. The null page is unmapped in the one
that was active before. -/
def initVirtual (activePageMap pageMap kernelSize : Nat) : Nat × Frames :=
  let ram := s.mapRun pageMap 0 0 0x3 s.physical.totalPages
  let kernel := ram.mapRun pageMap (kernelPhysical+kernelVirtual) kernelPhysical 0x3
    (kernelPages kernelSize)
  (pageMap,kernel.unmap activePageMap 0)

/-- The loop over the entries of one table in `clonePageMap`; `copy` makes the new entry for
a present one, or gives up. -/
def cloneEntries (copy : Frames → Nat → Option (BitVec 64) × Frames) (old new : Nat) :
    (count index : Nat) → Frames → Bool × Frames
  | 0, _, s => (true,s)
  | count+1, index, s =>
    if flag (entry s.memory old index) .present = false then
      cloneEntries copy old new count (index+1) s
    else
      match copy s index with
      | (none,s) => (false,s)
      | (some pde,s) =>
        cloneEntries copy old new count (index+1)
          { s with memory := setEntry s.memory new index pde }

def cloneWith (copy : Frames → Nat → Option (BitVec 64) × Frames) (s : Frames) (old : Nat) : Option Nat × Frames :=
  let request := s.physical.requestPage
  let new := asPointer request.1
  if new = 0 then (none, { s with physical := request.2 })
  else
    match cloneEntries copy old new 512 0 ⟨s.memory.fill new pageSize 0,request.2⟩ with
    | (true,s) => (some new,s)
    | (false,s) => (none,s)

/-- The nested loops of `clonePageMap`, by level: a page table is copied entry by entry, and
an entry of an upper table is pointed at a clone of the table behind it. -/
def cloneTable : (level : Nat) → Frames → Nat → Option Nat × Frames
  | 0, s, old => cloneWith (fun s index => (some (entry s.memory old index), s)) s old
  | level+1, s, old =>
    cloneWith (fun s index =>
      match cloneTable level s (address (entry s.memory old index)) with
      | (none,s) => (none,s)
      | (some table,s) => (some (setAddress (entry s.memory old index) table), s)) s old

def clonePageMap (oldPageTable : Nat) : Option Nat × Frames := cloneTable 3 s oldPageTable

/-- The same loops with `mark` done to every new entry. -/
def cloneMarked (mark : BitVec 64 → BitVec 64) : (level : Nat) → Frames → Nat → Option Nat × Frames
  | 0, s, old => cloneWith (fun s index => (some (mark (entry s.memory old index)), s)) s old
  | level+1, s, old =>
    cloneWith (fun s index =>
      match cloneMarked mark level s (address (entry s.memory old index)) with
      | (none,s) => (none,s)
      | (some table,s) => (some (mark (setAddress (entry s.memory old index) table)), s)) s old

def clonePageMapCopyOnWrite (oldPageTable : Nat) : Option Nat × Frames :=
  cloneMarked makePdeCow 3 s oldPageTable

/-- The addresses `freePageMap` passes over. -/
def looksLikeGarbage (p : PhysicalMemory) (table : Nat) : Bool :=
  table == 0x000ffffffffff000 || p.totalPages * pageSize < table || table % pageSize != 0

/-- The nested loops of `freePageMap`, by level: the tables behind the entries, then the table. -/
def freeTable (m : Bytes) : (level : Nat) → PhysicalMemory → (table : Nat) → PhysicalMemory
  | 0, p, table => p.freePage table
  | level+1, p, table =>
    ((List.range 512).foldl (fun p index =>
      if flag (entry m table index) .present = false then p
      else if looksLikeGarbage p (address (entry m table index)) then p
      else freeTable m level p (address (entry m table index))) p).freePage table

def freePageMap (activePageMap pageTable : Nat) : Frames :=
  if pageTable = 0 then s
  else if pageTable = activePageMap then s
  else { s with physical := freeTable s.memory 3 s.physical pageTable }
end Frames
end LensorOS.Memory
