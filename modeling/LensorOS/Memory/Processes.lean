import LensorOS.Memory.ElfLoader
import LensorOS.Memory.PageMap

/-!
# The memory of processes

The calls that give memory to processes and take it back, and the kernel loop that frees dead page
maps. Nothing reads the log of the runs of frames that the calls request and release.
-/
namespace LensorOS.Memory
open Framework
def pagesFor (bytes : Nat) : Nat :=
  if bytes % pageSize = 0 then bytes / pageSize else 1+bytes / pageSize

structure Region where
  vaddr : Nat
  paddr : Nat
  length : Nat
  flags : BitVec 64

def Region.pages (g : Region) : Nat := pagesFor g.length

/-- A process, as far as its memory goes. Regions are added at the head of the list. -/
structure Process where
  processID : Nat
  cr3 : Nat
  memories : List Region
  nextRegionVaddr : Nat

inductive FrameEvent
  | handOut (paddr pages : Nat)
  | release (paddr pages : Nat)

/-- `kernelMap` is the page map of the startup process, which is active while processes are
created and while the kernel loop runs. -/
structure Machine where
  frames : Frames
  kernelMap : Nat
  processes : List Process
  pageMapsToFree : List Nat
  thePid : Nat
  log : List FrameEvent

namespace Machine
def userFlags : BitVec 64 := flagSet [.present,.userSuper,.readWrite]
def kernelFlags : BitVec 64 := flagSet [.present,.readWrite]

variable (s : Machine)
def process (pid : Nat) : Option Process := s.processes.find? fun p => p.processID == pid

def update (pid : Nat) (change : Process → Process) : Machine :=
  { s with processes := s.processes.map fun p => if p.processID = pid then change p else p }

def addMemoryRegion (pid : Nat) (g : Region) : Machine :=
  s.update pid fun p => { p with memories := g :: p.memories }

/-- Request the frames of a region; a refused request is the null address. -/
def requestRegion (pages : Nat) : Nat × Machine :=
  let request := s.frames.physical.requestPages pages
  let paddr := asPointer request.1
  (paddr, { s with
    frames := { s.frames with physical := request.2 }
    log := match request.1 with
      | none => s.log
      | some paddr => s.log ++ [.handOut paddr pages] })

def releaseRegion (g : Region) : Machine := { s with
    frames := { s.frames with physical := s.frames.physical.freePages g.paddr g.pages }
    log := s.log ++ [.release g.paddr g.pages] }

def write (m : Bytes) : Machine := { s with frames := { s.frames with memory := m } }

/-- System call 6. The request is not checked, and the flags are ignored. -/
def sysMap (process : Process) (address size : BitVec 64) (_flags : BitVec 64) :
    Machine := let pages := pagesFor size.toNat
  let request := s.requestRegion pages
  let paddr := request.1
  let s := request.2
  let vaddr := if address = 0 then process.nextRegionVaddr else address.toNat
  let s := if address = 0 then
      s.update process.processID fun p =>
        { p with nextRegionVaddr := (p.nextRegionVaddr+pages * pageSize) % 2^64 }
    else s
  let s := s.addMemoryRegion process.processID ⟨vaddr,paddr,size.toNat,userFlags⟩
  { s with frames := s.frames.mapPages process.cr3 vaddr paddr userFlags pages }

/-- System call 7: the first region at the address, if there is one. -/
def sysUnmap (process : Process) (address : BitVec 64) : Machine :=
  match process.memories.find? fun g => g.vaddr == address.toNat with
  | none => s
  | some region =>
    let s := { s with frames := s.frames.unmapPages process.cr3 address.toNat region.pages }
    let s := s.releaseRegion region
    s.update process.processID fun p =>
      { p with memories := p.memories.eraseP fun g => g.vaddr == address.toNat }

/-- The removal of a process: its regions are released and its page map is left for the
kernel loop. -/
def removeProcess (process : Process) : Machine :=
  let s := { s with processes := s.processes.eraseP fun p => p.processID == process.processID }
  let s := process.memories.foldl releaseRegion s
  { s with pageMapsToFree := s.pageMapsToFree ++ [process.cr3] }

/-- Start a process on a clone of a page map; `none` when there is no memory for the clone. -/
def startProcess (pageMap : Nat) : Option Process × Machine := let pid := s.thePid+1
  match s.frames.clonePageMap pageMap with
  | (none,frames) =>
    (none, { s with
      frames := frames
      thePid := pid
      pageMapsToFree := s.pageMapsToFree ++ [0] })
  | (some newPageTable,frames) =>
    let process : Process := ⟨pid,newPageTable,[],0xf8000000⟩
    (some process, { s with
      frames := frames.map newPageTable newPageTable newPageTable kernelFlags
      thePid := pid
      processes := s.processes ++ [process] })

/-- A turn of the loop of `copyUserspaceProcess`. Without memory for the copy the kernel hangs. -/
def copyRegion (child : Process) (memory : Region) : Option Machine :=
  let request := s.requestRegion memory.pages
  if request.1 = 0 then none
  else
    let s := request.2.write (request.2.frames.memory.copy request.1 memory.paddr memory.length)
    let s := { s with
      frames := s.frames.mapPages child.cr3 memory.vaddr request.1 userFlags memory.pages }
    some (s.addMemoryRegion child.processID { memory with paddr := request.1 })

/-- The loop over the regions of the original, and the end of the call. -/
def copyRegions (child : Process) (nextRegionVaddr : Nat) : List Region → Machine → Option Machine
  | [], s => some (s.update child.processID fun p => { p with nextRegionVaddr := nextRegionVaddr })
  | memory :: rest, s => (s.copyRegion child memory).bind (copyRegions child nextRegionVaddr rest)

def copyUserspaceProcess (original : Process) : Option Machine :=
  match s.startProcess original.cr3 with
  | (none,s) => some s
  | (some child,s) => copyRegions child original.nextRegionVaddr original.memories s

/-- Load one segment. The frames are requested unchecked, and stay taken when the file cannot
be read. -/
def loadSegment (process : Process) (h : ProgramHeader) : Bool × Machine :=
  let request := s.requestRegion h.pages
  let loadedProgram := request.1
  let s := request.2.write (request.2.frames.memory.fill loadedProgram h.sizeToLoad 0)
  match h.data with
  | none => (false,s)
  | some bytes =>
    let s := s.write (s.frames.memory.store (loadedProgram+h.offset) (bytes.take h.filesz.toNat))
    if bytes.length ≠ h.filesz.toNat then (false,s)
    else
      let s := { s with
        frames := s.frames.mapRun process.cr3 h.vaddr.toNat loadedProgram h.mappingFlags h.pages }
      (true, s.addMemoryRegion process.processID
        ⟨h.vaddr.toNat,loadedProgram,h.pages * pageSize,h.mappingFlags⟩)

def loadSegments (process : Process) : List ProgramHeader → Machine → Bool × Machine
  | [], s => (true,s)
  | h :: rest, s =>
    if h.type = .load then
      match s.loadSegment process h with
      | (false,s) => (false,s)
      | (true,s) => loadSegments process rest s
    else loadSegments process rest s

def userProcessStackSizePages : Nat := 4

/-- The stack is placed at the virtual address equal to its physical address. -/
def loadStack (process : Process) (program : Program) : Bool × Machine :=
  let request := s.requestRegion userProcessStackSizePages
  let newStackBottom := request.1
  let s := request.2
  if newStackBottom = 0 then (false,s)
  else
    let flags := stackFlags program.headers
    let s := { s with
      frames := s.frames.mapPages process.cr3 newStackBottom newStackBottom flags
        userProcessStackSizePages }
    let s := s.addMemoryRegion process.processID
      ⟨newStackBottom,newStackBottom,userProcessStackSizePages * pageSize,flags⟩
    let stack : ArgumentStack :=
      ⟨s.frames.memory,newStackBottom+userProcessStackSizePages * pageSize⟩
    (true, s.write (stack.pushProgram program.args []).memory)

def loadUserspaceElf64Process (process : Process) (program : Program) :
    Bool × Machine := match loadSegments process program.headers s with
  | (false,s) => (false,s)
  | (true,s) => s.loadStack process program

def dropRegions (cr3 : Nat) : List Region → Machine → Machine
  | [], s => s
  | region :: rest, s =>
    let s := { s with frames := s.frames.unmapPages cr3 region.vaddr region.pages }
    dropRegions cr3 rest (s.releaseRegion region)

/-- `none` is a file without a valid header. -/
def replaceUserspaceElf64Process (process : Process) : Option Program → Machine
  | none => s
  | some program =>
    let s := dropRegions process.cr3 process.memories s
    let s := s.update process.processID fun p => { p with memories := [] }
    (s.loadUserspaceElf64Process process program).2

def createUserspaceElf64Process : Option Program → Machine
  | none => s
  | some program =>
    if program.args = [] then s
    else
      match s.startProcess s.kernelMap with
      | (none,s) => s
      | (some process,s) =>
        match s.loadUserspaceElf64Process process program with
        | (true,s) => s
        | (false,s) =>
          match s.process process.processID with
          | none => s
          | some process => s.removeProcess process

def reapPageMaps : Machine := if 15 < s.pageMapsToFree.length then
    { s with
      frames := s.pageMapsToFree.foldl (fun frames table => frames.freePageMap s.kernelMap table)
        s.frames
      pageMapsToFree := [] }
  else s

def userStore (process : Process) (address : BitVec 64) (byte : BitVec 8) : Machine :=
  match userFrame s.frames.memory process.cr3 (vpage address.toNat) with
  | none => s
  | some frame =>
    s.write (s.frames.memory.write8 (frame * pageSize+address.toNat % pageSize) byte)

inductive Call
  | create (program : Option Program)
  | exec (pid : Nat) (program : Option Program)
  | fork (pid : Nat)
  | map (pid : Nat) (address size flags : BitVec 64)
  | unmap (pid : Nat) (address : BitVec 64)
  | exit (pid : Nat)
  | store (pid : Nat) (address : BitVec 64) (byte : BitVec 8)
  | reap

/-- One call of a process or of the kernel; `none` when there is no such process, or when the
kernel hangs. -/
def step : Call → Option Machine
  | .create program => some (s.createUserspaceElf64Process program)
  | .exec pid program => (s.process pid).map fun p => s.replaceUserspaceElf64Process p program
  | .fork pid => (s.process pid).bind fun p => s.copyUserspaceProcess p
  | .map pid address size flags => (s.process pid).map fun p => s.sysMap p address size flags
  | .unmap pid address => (s.process pid).map fun p => s.sysUnmap p address
  | .exit pid => (s.process pid).map fun p => s.removeProcess p
  | .store pid address byte => (s.process pid).map fun p => s.userStore p address byte
  | .reap => some s.reapPageMaps
end Machine
end LensorOS.Memory
