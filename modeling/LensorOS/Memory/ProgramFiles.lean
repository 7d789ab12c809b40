import LensorOS.Memory.Boot

/-!
# Executables and the memory their loading touches

The loader sizes the list of program headers by their number, while the amount it reads also depends
on the size the file states for one.
-/
namespace LensorOS.Memory
open Framework PageDirectoryEntry List Bytes
structure Elf64Ehdr where
  ident : Fin 16 → BitVec 8
  type : BitVec 16
  machine : BitVec 16
  version : BitVec 32
  phoff : BitVec 64
  phentsize : BitVec 16
  phnum : BitVec 16

structure ExecutableFile where
  read : (byteCount byteOffset : BitVec 64) → Option (List (BitVec 8))
  bounded : ∀ byteCount byteOffset bytes, read byteCount byteOffset = some bytes →
    bytes.length ≤ byteCount.toNat

namespace Elf64Ehdr
variable (e : Elf64Ehdr)
def verifyElf64Header : Bool :=
  e.ident 0 == 0x7f && e.ident 1 == 0x45 && e.ident 2 == 0x4c && e.ident 3 == 0x46 &&
    e.ident 4 == 2 && e.ident 5 == 1 && e.type == 2 && e.machine == 62 && e.version == 1

def phdrSize : Nat := 56
def listSize : Nat := phdrSize * e.phnum.toNat

/-- The product of two sixteen bit numbers is taken as a signed number of 32 bits. -/
def programHeadersTableSize : BitVec 64 := (e.phnum.setWidth 32 * e.phentsize.setWidth 32).signExtend 64

/-- How many headers the loop over the list at `data` looks at. -/
def headerCount (data : Nat) : Nat :=
  let finish := (data+e.programHeadersTableSize.toNat) % 2^64
  if data < finish then (finish-data+(phdrSize-1)) / phdrSize else 0
end Elf64Ehdr

def read32 (m : Bytes) (a : Nat) : BitVec 32 := m (a+3) ++ m (a+2) ++ m (a+1) ++ m a

def segmentType (type : BitVec 32) : SegmentType :=
  if type = 1 then .load else if type = 0x6474e551 then .gnuStack else .other

def programHeader (heap : Bytes) (phdr : Nat) (file : ExecutableFile) : ProgramHeader where
  type := segmentType (read32 heap phdr)
  flags := read32 heap (phdr+4)
  vaddr := heap.read64 (phdr+16)
  filesz := heap.read64 (phdr+32)
  memsz := heap.read64 (phdr+40)
  data := file.read (heap.read64 (phdr+32)) (heap.read64 (phdr+8))

/-- The kernel heap after the table was read to a cleared list at `data`. The answer of the
read is not looked at. -/
def readProgramHeaders (heap : Bytes) (data : Nat) (e : Elf64Ehdr) (file : ExecutableFile) : Bytes :=
  (heap.fill data e.listSize 0).store data
    ((file.read e.programHeadersTableSize e.phoff).getD [])

def programHeaders (heap : Bytes) (data : Nat) (e : Elf64Ehdr) (file : ExecutableFile) :
    List ProgramHeader := (range (e.headerCount data)).map fun i =>
    programHeader heap (data+i * Elf64Ehdr.phdrSize) file

variable {q : PhysicalMemory} {h : ProgramHeader} {roots : List Nat} {a : Nat}
namespace Machine
/-- Loading an executable, with the list of its program headers at `data` in the kernel heap;
`none` when its header is not accepted. -/
def loadFile (s : Machine) (heap : Bytes) (data : Nat) (process : Process) (e : Elf64Ehdr)
    (file : ExecutableFile) (args : List (List (BitVec 8))) : Option (Bytes × Bool × Machine) :=
  if e.verifyElf64Header then
    let heap := readProgramHeaders heap data e file
    some (heap, s.loadUserspaceElf64Process process ⟨programHeaders heap data e file,args⟩)
  else none

structure OwnChanges (process : Process) (s s' : Machine) : Prop where
  keeps : Keeps [process.cr3] s.frames s'.frames
  memory : OnlyOwn [process.cr3] s.frames s'.frames
  kernel : SameKernel s s'
  others : ∀ p : Process, p.processID ≠ process.processID → (p ∈ s'.processes ↔ p ∈ s.processes)

section
variable {s s' s'' : Machine} {process : Process}
theorem OwnChanges.trans (h : OwnChanges process s s') (h' : OwnChanges process s' s'') : OwnChanges process s s'' := by
  refine ⟨h.keeps.trans h'.keeps,h.memory.trans h.keeps h'.memory h'.keeps,⟨?_,?_,?_⟩,?_⟩
  · rw [h'.kernel.kernelMap,h.kernel.kernelMap]
  · rw [h'.kernel.pageMapsToFree,h.kernel.pageMapsToFree]
  · rw [h'.kernel.thePid,h.kernel.thePid]
  · intro p hp
    rw [h'.others p hp,h.others p hp]

theorem region_others (s : Machine) (g : Region) {pid : Nat} {p : Process}
    (hp : p.processID ≠ pid) : p ∈ (s.addMemoryRegion pid g).processes ↔ p ∈ s.processes := by
  unfold addMemoryRegion update
  rw [mem_map]
  constructor
  · rintro ⟨old,ho,rfl⟩
    by_cases hpi : old.processID = pid
    · rw [if_pos hpi] at hp
      exact absurd hpi hp
    · rwa [if_neg hpi]
  · intro hm
    exact ⟨p,hm,if_neg hp⟩

theorem granted_own {f : Frames} {m : Bytes} {n : Nat}
    (h : PageMaps f roots) (hre : f.physical.requestPages n = (some a,q))
    (hm : ∀ x, ¬ InRun a n (x / pageSize) → m x = f.memory x) :
    Keeps roots f ⟨m,q⟩ ∧ OnlyOwn roots f ⟨m,q⟩ ∧ Grows f ⟨m,q⟩ := by
  obtain ⟨page,rfl,-,hg,-,hq⟩ := h.sound.requestPages hre
  have hr : ∀ x, InRun (page * pageSize) n (x / pageSize) ↔ page ≤ x / pageSize ∧ x / pageSize < page+n := by
    intro x
    rw [InRun,PhysicalMemory.page_mul]
  have hgr : Grows f ⟨m,q⟩ := Grows.of_granted hq hg fun x hx => hm x (by rwa [hr])
  refine ⟨hgr.keeps h,fun x hx => .inr ?_,hgr⟩
  have hi : page ≤ x / pageSize ∧ x / pageSize < page+n := by
    by_contra ho
    exact hx (hm x (by rwa [hr]))
  exact ⟨hg.clear _ hi.1 hi.2,hg.locked.mpr (.inr hi)⟩
end
end Machine

namespace ProgramHeader
def readWhole (h : ProgramHeader) : Bool := match h.data with
  | none => false
  | some bytes => bytes.length == h.filesz.toNat

structure Fits (h : ProgramHeader) : Prop where
  cleared : h.sizeToLoad ≤ h.pages * pageSize
  delivered : ∀ bytes, h.data = some bytes → bytes.take h.filesz.toNat = [] ∨
    h.offset+(bytes.take h.filesz.toNat).length ≤ h.pages * pageSize

def stored (h : ProgramHeader) (m : Bytes) (a : Nat) : Bytes := match h.data with
  | none => m.fill a h.sizeToLoad 0
  | some bytes => h.loaded m a bytes

theorem Fits.stored_outside (hf : h.Fits) (m : Bytes) {x : Nat}
    (hx : x < a ∨ a+h.pages * pageSize ≤ x) : h.stored m a x = m x := by
  have hc := hf.cleared
  have hfi : m.fill a h.sizeToLoad 0 x = m x := fill_outside _ _ (by omega)
  unfold stored
  cases hd : h.data with
  | none => exact hfi
  | some bytes =>
    refine Eq.trans (show h.loaded m a bytes x = _ from ?_) hfi
    rcases hf.delivered bytes hd with he | hr
    · unfold loaded
      rw [he]
      exact store_outside _ (by rw [length_nil]; omega)
    · exact store_outside _ (by omega)

theorem stored_nothing (m : Bytes) (a : Nat) (hd : h.data = some []) : h.stored m a = m.fill a h.sizeToLoad 0 := by
  funext x
  rw [stored,hd]
  show h.loaded m a [] x = _
  rw [loaded,take_nil,store_outside _ (by rw [length_nil]; omega)]
end ProgramHeader

namespace Machine
section
variable {s : Machine} {process : Process} {h : ProgramHeader}
def segmentFilled (s : Machine) (h : ProgramHeader) : Frames :=
  ⟨h.stored s.frames.memory (s.requestRegion h.pages).1,(s.requestRegion h.pages).2.frames.physical⟩

theorem load_cases (s : Machine) (process : Process) (h : ProgramHeader) :
    (s.loadSegment process h).1 = h.readWhole ∧ SameKernel s (s.loadSegment process h).2 ∧
    (∀ p : Process, p.processID ≠ process.processID →
      (p ∈ (s.loadSegment process h).2.processes ↔ p ∈ s.processes)) ∧
    (s.loadSegment process h).2.frames = if h.readWhole then
      (s.segmentFilled h).mapRun process.cr3 h.vaddr.toNat (s.requestRegion h.pages).1
        h.mappingFlags h.pages else s.segmentFilled h := by
  unfold loadSegment segmentFilled ProgramHeader.readWhole ProgramHeader.stored
  cases hd : h.data with
  | none => exact ⟨rfl,⟨rfl,rfl,rfl⟩,fun p _ => Iff.rfl,rfl⟩
  | some bytes =>
    dsimp only
    by_cases hl : bytes.length = h.filesz.toNat
    · rw [if_neg (not_not.mpr hl),if_pos (beq_iff_eq.mpr hl)]
      refine ⟨(beq_iff_eq.mpr hl).symm,⟨rfl,rfl,rfl⟩,fun p hp => ?_,rfl⟩
      exact region_others _ _ hp
    · rw [if_pos hl,if_neg (by simpa using hl)]
      exact ⟨(beq_eq_false_iff_ne.mpr hl).symm,⟨rfl,rfl,rfl⟩,fun p _ => Iff.rfl,rfl⟩

/-- The allocator serves a segment: it hands out its pages, and a page for each table its
mapping adds. -/
structure SegmentServed (s : Machine) (process : Process) (h : ProgramHeader) : Prop where
  fits : h.Fits
  pages : h.pages = 0 ∨ (s.frames.physical.requestPages h.pages).1.isSome
  tables : h.readWhole = true →
    (missing s.frames.memory process.cr3 (runPages h.vaddr.toNat h.pages)).card ≤
      (s.frames.physical.requestPages h.pages).2.freeCount

section
variable (hserve : SegmentServed s process h)
include hserve
theorem SegmentServed.empty (hr : s.frames.physical.requestPages h.pages = (none,q)) : h.pages = 0 := by
  have hp := hserve.pages
  rw [hr] at hp
  exact hp.resolve_right Bool.false_ne_true

theorem SegmentServed.stored_outside (hm : PageMaps s.frames roots)
    (hr : s.frames.physical.requestPages h.pages = (some a,q)) (x : Nat)
    (hx : ¬ InRun a h.pages (x / pageSize)) : h.stored s.frames.memory a x = s.frames.memory x := by
  obtain ⟨ha,-⟩ := hm.sound.request_aligned hr
  refine hserve.fits.stored_outside _ ?_
  by_contra hi
  exact hx (inRun_div ha (by omega) (by omega))

theorem SegmentServed.filled (hma : PageMaps s.frames roots) :
    Keeps roots s.frames (s.segmentFilled h) ∧ OnlyOwn roots s.frames (s.segmentFilled h) ∧
      Grows s.frames (s.segmentFilled h) := by
  rcases hr : s.frames.physical.requestPages h.pages with ⟨_ | a,q⟩
  · have he := hserve.empty hr
    obtain ⟨hq,hmap,ht⟩ := hma.sound.request_refused hr
    have hs : s.segmentFilled h = { s.frames with physical := q } := by
      rw [segmentFilled,region_refused hr]
      have hm : h.stored s.frames.memory 0 = s.frames.memory := by
        funext x
        exact hserve.fits.stored_outside _ (.inr (by rw [he]; omega))
      rw [hm]
    rw [hs]
    have hg := Grows.of_same hq hmap ht
    exact ⟨hg.keeps hma,fun x hx => absurd rfl hx,hg⟩
  · have hf : s.segmentFilled h = ⟨h.stored s.frames.memory a,q⟩ := by
      rw [segmentFilled,region_granted hr]
    rw [hf]
    exact granted_own hma hr (hserve.stored_outside hma hr)

theorem SegmentServed.mapped (hma : PageMaps s.frames [process.cr3]) (hro : process.cr3 ≠ 0)
    (hr : h.readWhole = true) (hre : s.frames.physical.requestPages h.pages = (some a,q)) :
    MapsGranted [process.cr3] process.cr3 h.vaddr.toNat a h.pages h.pages h.mappingFlags
        (h.stored s.frames.memory a) q s.frames (s.loadSegment process h).2.frames ∧
      ∃ k, (s.loadSegment process h).2.frames.physical = q.afterRequests k ∧
        k ≤ (missing s.frames.memory process.cr3 (runPages h.vaddr.toNat h.pages)).card := by
  obtain ⟨-,-,-,hf⟩ := load_cases s process h
  have ht := hserve.tables hr
  rw [hre] at ht
  rw [hr,if_pos rfl,segmentFilled,region_granted hre] at hf
  obtain ⟨hm,k,hp,hc⟩ := mapsGranted hma (mem_singleton_self _) hro hre
    (hserve.stored_outside hma hre) h.mappingFlags_present le_rfl
    (fun i hi => mem_runPages.mpr ⟨i,hi,rfl⟩) ht
  rw [hf]
  exact ⟨hm,k,hp,by omega⟩
end

theorem load_own (hma : PageMaps s.frames [process.cr3]) (hro : process.cr3 ≠ 0)
    (hserve : SegmentServed s process h) : OwnChanges process s (s.loadSegment process h).2 := by
  obtain ⟨-,hk,ho,hf⟩ := load_cases s process h
  obtain ⟨hke,how,-⟩ := hserve.filled hma
  cases hr : h.readWhole with
  | false =>
    rw [hr,if_neg (by decide)] at hf
    exact ⟨hf ▸ hke,hf ▸ how,hk,ho⟩
  | true =>
    rcases hre : s.frames.physical.requestPages h.pages with ⟨_ | a,q⟩
    · rw [hr,if_pos rfl,hserve.empty hre] at hf
      exact ⟨hf ▸ hke,hf ▸ how,hk,ho⟩
    · obtain ⟨hm,-⟩ := hserve.mapped hma hro hr hre
      exact ⟨hm.keeps,hm.own,hk,ho⟩

/-- The allocator serves the segments up to one that cannot be read. -/
def SegmentsServed (process : Process) : List ProgramHeader → Machine → Prop
  | [], _ => True
  | h :: rest, s =>
    if h.type = .load then SegmentServed s process h ∧
      (h.readWhole = true → SegmentsServed process rest (s.loadSegment process h).2)
    else SegmentsServed process rest s

theorem OwnChanges.refl (hm : PageMaps s.frames [process.cr3]) : OwnChanges process s s :=
  ⟨(Grows.refl hm.sound).keeps hm,OnlyOwn.refl _ _,⟨rfl,rfl,rfl⟩,fun _ _ => Iff.rfl⟩

theorem loadSegments_own (headers : List ProgramHeader) (hm : PageMaps s.frames [process.cr3])
    (hro : process.cr3 ≠ 0) (hserve : SegmentsServed process headers s) :
    OwnChanges process s (loadSegments process headers s).2 := by
  induction headers generalizing s with
  | nil => exact OwnChanges.refl hm
  | cons h rest ih =>
    rw [loadSegments]
    rw [SegmentsServed] at hserve
    by_cases hl : h.type = .load
    · rw [if_pos hl] at hserve ⊢
      obtain ⟨hs,hre⟩ := hserve
      have hf := load_own hm hro hs
      have hr := (load_cases s process h).1
      rcases hru : s.loadSegment process h with ⟨read,s1⟩
      rw [hru] at hf hr hre
      cases read with
      | false => exact hf
      | true => exact hf.trans (ih hf.keeps.maps (hre hr.symm))
    · rw [if_neg hl] at hserve ⊢
      exact ih hm hserve
end

section
variable {s : Machine} {process : Process} {program : Program}
/-- The stack is refused, or its pages and tables are served and the arguments fit it. -/
def StackServed (s : Machine) (process : Process) (program : Program) : Prop :=
  match s.frames.physical.requestPages userProcessStackSizePages with
  | (none,_) => True
  | (some newStackBottom,q) => newStackBottom = 0 ∨
    (missing s.frames.memory process.cr3 (runPages newStackBottom userProcessStackSizePages)).card ≤
        q.freeCount ∧ ArgumentStack.footprint program.args [] ≤ userProcessStackSizePages * pageSize

theorem mapped_own (headers : List ProgramHeader) (hma : PageMaps s.frames [process.cr3])
    (hr : process.cr3 ≠ 0)
    (hre : s.frames.physical.requestPages userProcessStackSizePages = (some a,q))
    (ht : (missing s.frames.memory process.cr3
      (runPages a userProcessStackSizePages)).card ≤ q.freeCount) :
    OwnChanges process s (s.stackMapped process headers a q) ∧
      MapsGranted [process.cr3] process.cr3 a a userProcessStackSizePages
        (stackRegion headers a).mappedPages (stackFlags headers) s.frames.memory q s.frames
        (s.stackMapped process headers a q).frames := by
  have hc : (stackRegion headers a).mappedPages ≤ userProcessStackSizePages := by
    rw [← stack_pages headers a]
    exact loop_le _ _
  obtain ⟨hm,-⟩ := mapsGranted hma (mem_singleton_self _) hr hre (fun _ _ => rfl)
    (stackFlags_present headers) hc
    (fun i hi => mem_runPages.mpr ⟨i,lt_of_lt_of_le hi hc,rfl⟩) ht
  have hf := mapped_frames s process headers a q
  rw [stack_vaddr] at hf
  rw [← hf] at hm
  refine ⟨⟨hm.keeps,hm.own,mapped_kernel _ _ _ _ _,fun p hp => ?_⟩,hm⟩
  rw [stackMapped,region_others _ _ hp]

theorem OwnChanges.write {s1 : Machine} (h : OwnChanges process s s1) {n : Nat}
    (hr : ∀ f, InRun a n f → ¬ s.frames.physical.Locked f ∧ s1.frames.physical.Locked f ∧
      f < s.frames.physical.totalPages ∧ ¬ TablePage s1.frames [process.cr3] f) {m : Bytes}
    (hm : ∀ x, ¬ InRun a n (x / pageSize) → m x = s1.frames.memory x) :
    OwnChanges process s (s1.write m) := by
  obtain ⟨hke,-⟩ := h.keeps.maps.write fun x hx => hm x fun hi => (hr _ hi).2.2.2 hx
  have hk := h.kernel
  refine ⟨h.keeps.trans hke,fun x hx => ?_,
    ⟨hk.kernelMap,hk.pageMapsToFree,hk.thePid⟩,h.others⟩
  by_cases hi : InRun a n (x / pageSize)
  · obtain ⟨hf,hl,-⟩ := hr _ hi
    exact .inr ⟨hf,hl⟩
  have hc : s1.frames.memory x ≠ s.frames.memory x := by
    rw [← hm x hi]
    exact hx
  exact h.memory x hc

theorem loadStack_own (hma : PageMaps s.frames [process.cr3]) (hr : process.cr3 ≠ 0)
    (hserve : StackServed s process program) :
    OwnChanges process s (s.loadStack process program).2 := by
  unfold StackServed at hserve
  rcases hre : s.frames.physical.requestPages userProcessStackSizePages with ⟨_ | a,q⟩
  · obtain ⟨hq,hmap,hto⟩ := hma.sound.request_refused hre
    have hg := Grows.of_same hq hmap hto
    unfold loadStack
    rw [region_refused hre]
    rw [if_pos rfl]
    exact ⟨hg.keeps hma,fun x hx => absurd rfl hx,⟨rfl,rfl,rfl⟩,fun _ _ => Iff.rfl⟩
  rw [hre] at hserve
  by_cases hz : a = 0
  · obtain ⟨hk,ho,-⟩ := granted_own hma hre fun x _ => rfl
    unfold loadStack
    rw [region_granted hre]
    rw [if_pos hz]
    exact ⟨hk,ho,⟨rfl,rfl,rfl⟩,fun _ _ => Iff.rfl⟩
  obtain ⟨ht,ha⟩ := hserve.resolve_left hz
  obtain ⟨hm,hs⟩ := mapped_own program.headers hma hr hre ht
  obtain ⟨hal,hl⟩ := hma.sound.request_aligned hre
  rw [loadStack_eq process program hz hre]
  exact hm.write hs.fresh fun x hx => pushProgram_inside _ hal hl ha hx

/-- The allocator serves a program, and everything that is copied fits. -/
structure LoadServed (s : Machine) (process : Process) (program : Program) : Prop where
  segments : SegmentsServed process program.headers s
  stack : (loadSegments process program.headers s).1 = true →
    StackServed (loadSegments process program.headers s).2 process program

theorem loadElf_own (hm : PageMaps s.frames [process.cr3])
    (hr : process.cr3 ≠ 0) (hserve : LoadServed s process program) :
    OwnChanges process s (s.loadUserspaceElf64Process process program).2 := by
  have hse := loadSegments_own program.headers hm hr hserve.segments
  have hs := hserve.stack
  rw [loadUserspaceElf64Process]
  rcases hru : loadSegments process program.headers s with ⟨_ | _,s1⟩
  · rw [hru] at hse
    exact hse
  · rw [hru] at hse hs
    exact hse.trans (loadStack_own hse.keeps.maps hr (hs rfl))

/-- The table delivered for the program headers fits their list, and the program it describes
is served. -/
structure FileServed (s : Machine) (heap : Bytes) (data : Nat) (process : Process) (e : Elf64Ehdr)
    (file : ExecutableFile) (args : List (List (BitVec 8))) : Prop where
  table : ((file.read e.programHeadersTableSize e.phoff).getD []).length ≤ e.listSize
  load : LoadServed s process ⟨programHeaders (readProgramHeaders heap data e file) data e file,args⟩

/-- Loading an executable touches the list of its headers, the pages it takes and the tables of
its page map. -/
theorem loadFile_own {heap heap' : Bytes} {data : Nat} {e : Elf64Ehdr} {file : ExecutableFile}
    {args : List (List (BitVec 8))} {loaded : Bool} {s' : Machine}
    (hmaps : PageMaps s.frames [process.cr3]) (hroot : process.cr3 ≠ 0)
    (hserve : FileServed s heap data process e file args)
    (hrun : s.loadFile heap data process e file args = some (heap',loaded,s')) :
    (∀ x, x < data ∨ data+e.listSize ≤ x → heap' x = heap x) ∧ OwnChanges process s s' := by
  obtain ⟨-,hr⟩ := Option.ite_none_right_eq_some.mp hrun
  obtain ⟨hh,hm⟩ := Prod.mk.inj (Option.some.inj hr)
  constructor
  · intro x hx
    have ht := hserve.table
    rw [← hh,readProgramHeaders,store_outside _ (by omega), fill_outside _ _ (by omega)]
  have ho := loadElf_own hmaps hroot hserve.load
  rw [hm] at ho
  exact ho
end

section
theorem small_started : ∃ new s,
    smallMachine.startProcess smallMachine.kernelMap = (some ⟨1,new,[],0xf8000000⟩, s) ∧
      Apportioned s (fun _ => []) ∧ At s ⟨1,new,[],0xf8000000⟩ [] [] ∧
      s.frames.physical.totalPages = 512 ∧ s.frames.physical.Plenty 448 54 := by
  have ha := small_booted.apportioned
  have ht := small_booted.maps.tableCount_le mem_cons_self
  have hf : smallMachine.frames.physical.freeCount = 507 := boot_freeCount
  have hto : smallMachine.frames.physical.totalPages = 512 := rfl
  have hp : smallMachine.frames.physical.Plenty 448
      (tableCount smallMachine.frames.memory 3 smallMachine.kernelMap+54) :=
    boot_plenty (by omega)
  obtain ⟨new,s,hs,hm,hat,hl,-⟩ := start_plenty ha hp
  exact ⟨new,s,hs,ha.move hm,hat,(ha.move_total hm).trans hto,hl⟩

def oneSegmentEhdr : Elf64Ehdr where
  ident := fun i => [0x7f,0x45,0x4c,0x46,2,1].getD i 0
  type := 2
  machine := 62
  version := 1
  phoff := 64
  phentsize := 56
  phnum := 1

def segmentFile (header content : List (BitVec 8)) : ExecutableFile where
  read := fun byteCount byteOffset =>
    some ((if byteOffset = 64 then header else content).take byteCount.toNat)
  bounded := by
    intro byteCount byteOffset bytes hbytes
    rw [← Option.some.inj hbytes]
    exact length_take_le _ _

def headerBytes (filesz memsz : List (BitVec 8)) : List (BitVec 8) :=
  [1,0,0,0,5,0,0,0,0x78,0,0,0,0,0,0,0,0,0,0x20,0,0,0,0,0,
    0,0,0,0,0,0,0,0] ++ filesz ++ memsz ++ [0,0,0,0,0,0,0,0]

theorem programHeader_eq {heap : Bytes} {phdr : Nat} (file : ExecutableFile)
    (type flags : BitVec 32) (vaddr filesz memsz offset : BitVec 64)
    (hw : (read32 heap phdr, read32 heap (phdr+4)) = (type,flags))
    (hs : (heap.read64 (phdr+8), heap.read64 (phdr+16), heap.read64 (phdr+32),
      heap.read64 (phdr+40)) = (offset,vaddr,filesz,memsz)) : programHeader heap phdr file =
      ⟨segmentType type,flags,vaddr,filesz,memsz,file.read filesz offset⟩ := by
  simp only [Prod.mk.injEq] at hw hs
  obtain ⟨ht,hfl⟩ := hw
  obtain ⟨ho,hv,hf,hm⟩ := hs
  rw [programHeader,ht,hfl,ho,hv,hf,hm]

theorem programHeaders_one (heap : Bytes) (file : ExecutableFile) :
    programHeaders heap 0x1000 oneSegmentEhdr file = [programHeader heap 0x1000 file] := by
  have hc : oneSegmentEhdr.headerCount 0x1000 = 1 := by decide
  rw [programHeaders,hc]
  rfl

variable {s : Machine} {process : Process} {args : List (List (BitVec 8))}
theorem loadServed_oneSegment {c : Nat} (hma : PageMaps s.frames [process.cr3])
    (hro : process.cr3 ≠ 0) (hf : h.Fits) (hlo : h.type = .load)
    (hrea : h.readWhole = true) (hpa : 0 < h.pages) (hc : 12 ≤ c)
    (hp : s.frames.physical.Plenty c (h.pages+(h.pages * 3+userProcessStackSizePages)))
    (har : ArgumentStack.footprint args [] ≤ userProcessStackSizePages * pageSize) :
    LoadServed s process ⟨[h],args⟩ := by
  obtain ⟨a,q,hreq,hle⟩ := hp.request hma.sound hpa
  obtain ⟨page,-,-,-,-,-⟩ := hma.sound.requestPages hreq
  have hmi := missing_card_le s.frames.memory process.cr3 (runPages h.vaddr.toNat h.pages)
  have hca := runPages_card_le h.vaddr.toNat h.pages
  have hsp := hle.spare
  have ht : (missing s.frames.memory process.cr3 (runPages h.vaddr.toNat h.pages)).card ≤ q.freeCount := by omega
  have hserve : SegmentServed s process h := by
    refine ⟨hf,.inr ?_,fun _ => ?_⟩
    · rw [hreq]
      rfl
    · rw [hreq]
      exact ht
  have hr := (load_cases s process h).1
  obtain ⟨hm,k,hph,hk⟩ := hserve.mapped hma hro hrea hreq
  have hke := hm.keeps
  have hl : loadSegments process [h] s = (true, (s.loadSegment process h).2) := by
    rw [loadSegments,if_pos hlo]
    rcases hru : s.loadSegment process h with ⟨loaded,s1⟩
    rw [hru,hrea] at hr
    rw [show loaded = true from hr]
    rfl
  refine ⟨?_,fun _ => ?_⟩
  · rw [SegmentsServed,if_pos hlo]
    exact ⟨hserve,fun _ => trivial⟩
  rw [hl]
  generalize (s.loadSegment process h).2 = s1 at hke hph
  have hroo : q.Plenty c (k+(userProcessStackSizePages+0)) := hle.mono (by omega)
  have ha := hroo.afterRequests (hma.sound.requestPages hreq).choose_spec.2.2.2.2
  rw [← hph] at ha
  obtain ⟨b,q',hs,hres⟩ := ha.request hke.maps.sound (by decide)
  unfold StackServed
  rw [hs]
  refine .inr ⟨?_,har⟩
  have hfe := missing_card_le s1.frames.memory process.cr3 (runPages b userProcessStackSizePages)
  have hru := runPages_card_le b userProcessStackSizePages
  have hsi : userProcessStackSizePages = 4 := rfl
  have hre := hres.spare
  omega

def hugeFile : ExecutableFile := segmentFile (headerBytes [1,0,0,0,0,0,0,0] [0,0,0,0,0,1,0,0]) []

def hugeHeader : ProgramHeader := ⟨.load,5,0x200000,1,0x10000000000,some []⟩

theorem hugeFile_header : programHeader
    (readProgramHeaders zeroMemory 0x1000 oneSegmentEhdr hugeFile) 0x1000 hugeFile = hugeHeader :=
  (programHeader_eq hugeFile 1 5 0x200000 1 0x10000000000 0x78 (by decide) (by decide)).trans rfl

/-- The refused request for a huge segment is the null address, and everything from there on is
cleared: no page map in use survives. -/
theorem load_huge_clears (process : Process) (ha : Apportioned s fun _ => [])
    (ht : s.frames.physical.totalPages = 512) {r i : Nat} (hr : r ∈ s.roots) (hi : i < 512) :
    entry (s.loadSegment process hugeHeader).2.frames.memory r i = 0 := by
  obtain ⟨-,-,hin⟩ := ha.maps.placed r hr [] r Path.nil rfl
  have hre : ∃ q, s.frames.physical.requestPages hugeHeader.pages = (none,q) := by
    rcases hreq : s.frames.physical.requestPages hugeHeader.pages with ⟨_ | a,q⟩
    · exact ⟨q,rfl⟩
    obtain ⟨page,-,-,-,hfi,-⟩ := ha.maps.sound.requestPages hreq
    have hp : hugeHeader.pages = 2^28 := by decide
    omega
  obtain ⟨q,hreq⟩ := hre
  have hf := (load_cases s process hugeHeader).2.2.2
  have hs : hugeHeader.readWhole = false := by decide
  rw [hs,if_neg (by decide),segmentFilled,region_refused hreq] at hf
  rw [hf]
  have hsi : hugeHeader.sizeToLoad = 2^40 := by decide
  rw [ProgramHeader.stored_nothing _ _ rfl,hsi]
  refine read64_fill_zero _ (by omega) ?_
  unfold slot
  unfold pageSize at hin
  omega

theorem load_huge (hap : Apportioned s fun _ => [])
    (hpr : process.cr3 ∈ s.roots) (ho : process.cr3 ≠ s.kernelMap)
    (hto : s.frames.physical.totalPages = 512) :
    ¬ OnlyOwn [process.cr3] s.frames (s.loadSegment process hugeHeader).2.frames := by
  intro how
  have hk := s.kernelMap_root
  have hc := load_huge_clears process hap hto hk (show 0 < 512 by decide)
  obtain ⟨ha,hl,-⟩ := hap.maps.placed s.kernelMap hk [] _ Path.nil rfl
  -- page zero has a page table in the kernel's page map
  have hp : flag (entry s.frames.memory s.kernelMap 0) .present = true := by
    have ht := hap.window s.kernelMap mem_cons_self 0 (by omega)
    rw [pageTableOf,show upperPath 0 = [0,0,0] from rfl,follow_cons] at ht
    cases hchi : childTable s.frames.memory s.kernelMap 0 with
    | none =>
      rw [hchi] at ht
      cases ht
    | some pdp => exact (child_eq_some.mp hchi).1
  have hs : entry (s.loadSegment process hugeHeader).2.frames.memory s.kernelMap 0 =
      entry s.frames.memory s.kernelMap 0 := by
    refine entry_congr (fun x hlo hh => ?_) (by decide)
    by_contra hch
    have hpa := page_of_mem ha hlo hh
    rcases how x hch with ht | ⟨hf,-⟩
    · refine hap.maps.tablePage_ne hk hpr ho ht ?_
      exact ⟨s.kernelMap,mem_singleton_self _,[],_,Path.nil,rfl,hpa.symm⟩
    · exact hf (hpa ▸ hl)
  rw [← hs,hc,flag_zero] at hp
  cases hp

theorem loadFile_one {file : ExecutableFile} (hh : programHeader
      (readProgramHeaders zeroMemory 0x1000 oneSegmentEhdr file) 0x1000 file = h) :
    s.loadFile zeroMemory 0x1000 process oneSegmentEhdr file args =
      some (readProgramHeaders zeroMemory 0x1000 oneSegmentEhdr file,
        s.loadUserspaceElf64Process process ⟨[h],args⟩) := by
  have ha : oneSegmentEhdr.verifyElf64Header = true := by decide
  rw [loadFile,if_pos ha]
  dsimp only
  rw [programHeaders_one,hh]

theorem load_unread (s : Machine) (process : Process) (args : List (List (BitVec 8)))
    (hl : h.type = .load) (hs : h.readWhole = false) :
    (s.loadUserspaceElf64Process process ⟨[h],args⟩).2 = (s.loadSegment process h).2 := by
  have hr := (load_cases s process h).1
  unfold loadUserspaceElf64Process
  rw [loadSegments,if_pos hl]
  rcases hru : s.loadSegment process h with ⟨read,s1⟩
  rw [hru] at hr
  obtain rfl : read = false := hr.trans hs
  rfl

/-- A first process that is given the program with the huge segment. -/
theorem loadFile_clears_kernelMap : ∃ process s heap' loaded s',
    smallMachine.startProcess smallMachine.kernelMap = (some process,s) ∧
      s.loadFile zeroMemory 0x1000 process oneSegmentEhdr hugeFile [[0x61]] =
        some (heap',loaded,s') ∧ ¬ OwnChanges process s s' := by
  obtain ⟨new,s,hst,ha,hat,ht,-⟩ := small_started
  refine ⟨_,s,_,_,_,hst,loadFile_one hugeFile_header,fun ho => ?_⟩
  have hs := load_huge ha (root_of_process hat.mem) (ha.cr3_ne_kernelMap hat.mem) ht
  refine hs ?_
  rw [← load_unread s ⟨1,new,[],0xf8000000⟩ [[0x61]] rfl (by decide)]
  exact ho.memory

def codeFile : ExecutableFile := segmentFile (headerBytes [1,0,0,0,0,0,0,0] [0,0x10,0,0,0,0,0,0]) [0xc3]

theorem codeFile_header : programHeader
    (readProgramHeaders zeroMemory 0x1000 oneSegmentEhdr codeFile) 0x1000 codeFile = codeHeader :=
  (programHeader_eq codeFile 1 5 0x200000 1 0x1000 0x78 (by decide) (by decide)).trans rfl

theorem code_fits : codeHeader.Fits := by
  refine ⟨by decide,fun bytes hb => .inr ?_⟩
  rw [← Option.some.inj hb]
  decide

theorem loadFile_own_small : ∃ process s heap' loaded s',
    smallMachine.startProcess smallMachine.kernelMap = (some process,s) ∧
      s.loadFile zeroMemory 0x1000 process oneSegmentEhdr codeFile [[0x61]] =
        some (heap',loaded,s') ∧
      (∀ x, x < 0x1000 ∨ 0x1000+oneSegmentEhdr.listSize ≤ x → heap' x = zeroMemory x) ∧
      OwnChanges process s s' := by
  obtain ⟨new,s,hs,ha,hat,-,hp⟩ := small_started
  have hm : PageMaps s.frames [new] := ha.maps.mono fun r hr => by
    rw [mem_singleton.mp hr]
    exact root_of_process hat.mem
  have hro : new ≠ 0 := by
    rintro rfl
    exact ha.nonzero (root_of_process hat.mem)
  have hserve : FileServed s zeroMemory 0x1000 ⟨1,new,[],0xf8000000⟩ oneSegmentEhdr codeFile [[0x61]] := by
    refine ⟨by decide,?_⟩
    rw [programHeaders_one,codeFile_header]
    exact loadServed_oneSegment hm hro code_fits rfl (by decide) (by decide)
      (show 12 ≤ 448 by decide) (hp.mono (by decide)) (by decide)
  obtain ⟨hh,ho⟩ := loadFile_own hm hro hserve (loadFile_one codeFile_header)
  exact ⟨_,s,_,_,_,hs,loadFile_one codeFile_header,hh,ho⟩
end
end Machine
end LensorOS.Memory
