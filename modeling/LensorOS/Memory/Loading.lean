import LensorOS.Memory.RegionCalls

/-!
# Loading programs

The loader requests the frames of each segment without looking at the answer.
-/
namespace LensorOS.Memory
open Framework PageDirectoryEntry List Option ArgumentStack
variable {h : ProgramHeader} {a : Nat}
namespace ProgramHeader
/-- A segment that the loader gets right: the file delivers its bytes, they fit its size in
memory, and sizes and addresses do not wrap around. -/
structure Whole (h : ProgramHeader) : Prop where
  data : ∃ bytes, h.data = some bytes ∧ bytes.length = h.filesz.toNat
  fits : h.filesz.toNat ≤ h.memsz.toNat
  size : h.memsz.toNat+h.offset+pageSize ≤ 2^64
  place : h.vaddr.toNat+h.pages * pageSize < 2^64

theorem Whole.sizeToLoad_eq (hw : h.Whole) : h.sizeToLoad = h.memsz.toNat+h.offset := by
  have hs := hw.size
  unfold sizeToLoad
  unfold pageSize at hs
  omega

theorem Whole.sizeToLoad_le (hw : h.Whole) : h.sizeToLoad ≤ h.pages * pageSize := by
  have hs := hw.size
  have hl := hw.sizeToLoad_eq
  unfold pages
  unfold pageSize at *
  omega

theorem mappingFlags_present (h : ProgramHeader) : flag h.mappingFlags .present = true := by
  unfold mappingFlags
  cases h.writable <;> cases h.executable <;> decide

def loaded (h : ProgramHeader) (m : Bytes) (a : Nat) (bytes : List (BitVec 8)) : Bytes :=
  (m.fill a h.sizeToLoad 0).store (a+h.offset) (bytes.take h.filesz.toNat)

theorem Whole.loaded_outside (hw : h.Whole) (m : Bytes) {x : Nat}
    (bytes : List (BitVec 8)) (hx : x < a ∨ a+h.sizeToLoad ≤ x) : h.loaded m a bytes x = m x := by
  have hl := hw.sizeToLoad_eq
  have hf := hw.fits
  have ht := length_take_le h.filesz.toNat bytes
  exact (Bytes.store_outside _ (by omega)).trans (Bytes.fill_outside _ _ hx)
end ProgramHeader

theorem stackFlags_present (headers : List ProgramHeader) : flag (stackFlags headers) .present = true := by
  unfold stackFlags
  split <;> decide

def segmentPages : List ProgramHeader → Finset Nat
  | [] => ∅
  | h :: rest =>
    if h.type = .load then runPages h.vaddr.toNat h.pages ∪ segmentPages rest
    else segmentPages rest

def segmentFrames : List ProgramHeader → Nat
  | [] => 0
  | h :: rest => if h.type = .load then h.pages+segmentFrames rest else segmentFrames rest

namespace Program
/-- A program that the loader gets right: its segments are whole, and its arguments fit the
stack. -/
structure Whole (program : Program) : Prop where
  segments : ∀ h ∈ program.headers, h.type = .load → h.Whole
  arguments : footprint program.args [] ≤ Machine.userProcessStackSizePages * pageSize

def room (program : Program) (m : Bytes) (root : Nat) : Nat :=
  (missing m root (segmentPages program.headers)).card+segmentFrames program.headers +
    Machine.userProcessStackSizePages
end Program

namespace Machine
variable {q : PhysicalMemory} {process : Process} {args : List (List (BitVec 8))}
section
variable {s : Machine} {p : Process} {before after : List Process} {h : ProgramHeader}
  {vs : Finset Nat} {c k : Nat} {call : Call} {program : Program}
def segmentRegion (h : ProgramHeader) (a : Nat) : Region := ⟨h.vaddr.toNat,a,h.pages * pageSize,h.mappingFlags⟩

@[simp] theorem segment_vaddr (h : ProgramHeader) (a : Nat) :
    (segmentRegion h a).vaddr = h.vaddr.toNat := rfl

@[simp] theorem segment_pages (h : ProgramHeader) (a : Nat) :
    (segmentRegion h a).pages = h.pages := by simp [segmentRegion,Region.pages,pagesFor]

theorem segment_mapped (hw : h.Whole) (a : Nat) : (segmentRegion h a).mappedPages = h.pages := by
  have hp := hw.place
  have hpa : h.pages ≤ 2^52 := by
    unfold pageSize at hp
    omega
  rw [Region.mappedPages,segment_pages]
  exact (loop_eq h.vaddr.isLt hpa).trans (if_pos hp)

def segmentLoaded (s : Machine) (process : Process) (h : ProgramHeader) (a : Nat)
    (q : PhysicalMemory) (bytes : List (BitVec 8)) (log : List FrameEvent) : Machine :=
  addMemoryRegion { s with
    frames := (⟨h.loaded s.frames.memory a bytes,q⟩ : Frames).mapRun process.cr3 h.vaddr.toNat a
      h.mappingFlags h.pages
    log := log } process.processID (segmentRegion h a)

theorem load_eq (process : Process) {bytes : List (BitVec 8)} (hd : h.data = some bytes)
    (hl : bytes.length = h.filesz.toNat) :
    s.loadSegment process h = (true, s.segmentLoaded process h (s.requestRegion h.pages).1
      (s.requestRegion h.pages).2.frames.physical bytes (s.requestRegion h.pages).2.log) := by
  unfold loadSegment
  rw [hd]
  dsimp only
  rw [if_neg (not_not.mpr hl)]
  rfl

theorem loaded_processes (hat : RecordOf s process p before after)
    (a : Nat) (q : PhysicalMemory) (bytes : List (BitVec 8)) (log : List FrameEvent) :
    (s.segmentLoaded process h a q bytes log).processes = before ++
      { p with memories := segmentRegion h a :: p.memories,
               nextRegionVaddr := p.nextRegionVaddr } :: after := by
  rw [segmentLoaded,← hat.pid]
  exact hat.addMemoryRegion _ _ _

section
variable (process : Process) (happ : Apportioned s fun _ => [])
  (hat : RecordOf s process p before after)
include happ hat
theorem load_empty (hw : h.Whole) (he : h.pages = 0) :
    ∃ s', s.loadSegment process h = (true,s') ∧
      Grants s p before after (segmentRegion h 0) p.nextRegionVaddr s' ∧ s'.frames = s.frames := by
  obtain ⟨bytes,hd,hl⟩ := hw.data
  have hr : s.frames.physical.requestPages h.pages = (none,s.frames.physical) := by
    rw [he]
    rfl
  have hs : h.sizeToLoad = 0 := by
    have hle := hw.sizeToLoad_le
    rwa [he,zero_mul,Nat.le_zero] at hle
  have hm : h.loaded s.frames.memory 0 bytes = s.frames.memory :=
    funext fun x => hw.loaded_outside _ _ (by omega)
  have hf : (s.segmentLoaded process h 0 s.frames.physical bytes s.log).frames = s.frames := by
    rw [segmentLoaded,addMemoryRegion,update]
    rw [hm,he]
    rfl
  rw [load_eq process hd hl,region_refused hr]
  exact ⟨_,rfl,happ.grants_empty (by simpa using he) rfl hf ⟨rfl,rfl,rfl⟩
    (loaded_processes hat _ _ _ _) rfl,hf⟩

/-- A segment whose request is met is loaded as a region of its own, given a page for each table.
The third part says what the page map shows then, and the last part what is left. -/
theorem load_granted (hwh : h.Whole) (hv : runPages h.vaddr.toNat h.pages ⊆ vs)
    (hr : s.frames.physical.requestPages h.pages = (some a,q))
    (hs : (missing s.frames.memory p.cr3 vs).card ≤ q.freeCount) :
    ∃ s', s.loadSegment process h = (true,s') ∧
      Grants s p before after (segmentRegion h a) p.nextRegionVaddr s' ∧
      (∀ w ∈ runPages h.vaddr.toNat h.pages, ∃ e, translate s'.frames.memory p.cr3 w = some e ∧
        flag e .userSuper = flag h.mappingFlags .userSuper ∧
        flag e .readWrite = flag h.mappingFlags .readWrite) ∧
      ∃ requests, s'.frames.physical = q.afterRequests requests ∧
        (missing s'.frames.memory p.cr3 vs).card+requests =
          (missing s.frames.memory p.cr3 vs).card := by
  obtain ⟨bytes,hd,hlen⟩ := hwh.data
  obtain ⟨ha,-⟩ := happ.maps.sound.request_aligned hr
  have hins : ∀ x, ¬ InRun a h.pages (x / pageSize) → h.loaded s.frames.memory a bytes x = s.frames.memory x := by
    intro x hx
    refine hwh.loaded_outside _ _ ?_
    have hle := hwh.sizeToLoad_le
    by_contra hin
    exact hx (inRun_div ha (by omega) (by omega))
  have hco := segment_mapped hwh a
  have hc : ∀ w, (segmentRegion h a).Covers w → w ∈ vs := by
    rintro w ⟨i,hi,hw⟩
    exact hv (mem_runPages.mpr ⟨i,hco ▸ hi,hw⟩)
  rw [load_eq process hd hlen,region_granted hr]
  obtain ⟨hg,hru,hl⟩ := happ.grants
    (s.segmentLoaded process h a q bytes (s.log ++ [.handOut a h.pages])) (segmentRegion h a)
    (h.loaded s.frames.memory a bytes) hat.toAt hr hins rfl (segment_pages h a)
    h.mappingFlags_present hc hs (by rw [hco,hat.cr3]; rfl) ⟨rfl,rfl,rfl⟩
    (loaded_processes hat _ _ _ _) rfl
  refine ⟨_,rfl,hg,?_,hl⟩
  intro w hw
  obtain ⟨i,-,-,e,he,-,hf⟩ := hru.here w (hco ▸ mem_runPages.mp hw)
  exact ⟨e,he,hf⟩

theorem load_grants (hw : h.Whole) (hv : runPages h.vaddr.toNat h.pages ⊆ vs)
    (hr : s.frames.physical.Plenty c (h.pages+((missing s.frames.memory p.cr3 vs).card+k))) :
    ∃ s' a, s.loadSegment process h = (true,s') ∧
      Grants s p before after (segmentRegion h a) p.nextRegionVaddr s' ∧
      (∀ w ∈ runPages h.vaddr.toNat h.pages, ∃ e, translate s'.frames.memory p.cr3 w = some e ∧
        flag e .userSuper = flag h.mappingFlags .userSuper ∧
        flag e .readWrite = flag h.mappingFlags .readWrite) ∧
      s'.frames.physical.Plenty c ((missing s'.frames.memory p.cr3 vs).card+k) := by
  by_cases he : h.pages = 0
  · obtain ⟨s',hl,hg,hf⟩ := load_empty process happ hat hw he
    refine ⟨s',0,hl,hg,?_,?_⟩
    · simp [he,runPages]
    · rw [hf]
      rwa [he,zero_add] at hr
  obtain ⟨a,q,hre,hle⟩ := hr.request happ.maps.sound (pos_of_ne_zero he)
  obtain ⟨-,-,-,-,-,hs⟩ := happ.maps.sound.requestPages hre
  obtain ⟨s',hl,hg,hsh,requests,hp,hm⟩ := load_granted process
    happ hat hw hv hre
    ((hle.mono (by omega)).roomy.le_freeCount hs)
  refine ⟨s',a,hl,hg,hsh,?_⟩
  rw [← hm,add_right_comm,add_comm _ requests] at hle
  rw [hp]
  exact hle.afterRequests hs
end

theorem granted_moves {s' : Machine} (s0 : Machine) {g : Region} {next : Nat} (hat : At s p before after)
    (hgr : Grants s p before after g next s')
    (hc : Causes s0 call s (fun _ => []) (.grant p.processID g)) :
    Moves (Causes s0 call) s (fun _ => []) s' (fun _ => []) :=
  .next .refl hc (.grant hat hgr (fun _ _ => rfl) (fun _ hg => hg) fun _ hg => .inl hg)

theorem loadSegments_moves (s0 : Machine) (process : Process) (headers : List ProgramHeader)
    (happ : Apportioned s fun _ => []) (hat : RecordOf s process p before after)
    (hwh : ∀ h ∈ headers, h.type = .load → h.Whole)
    (hv : segmentPages headers ⊆ vs) (hp : call.program = some program)
    (hsu : ∀ h ∈ headers, h ∈ program.headers) (hr : s.frames.physical.Plenty c
      (segmentFrames headers+((missing s.frames.memory p.cr3 vs).card+k))) :
    ∃ s' p', loadSegments process headers s = (true,s') ∧
      Moves (Causes s0 call) s (fun _ => []) s' (fun _ => []) ∧
      RecordOf s' process p' before after ∧ s'.frames.physical.Plenty c k := by
  induction headers generalizing s p with
  | nil =>
    refine ⟨s,p,rfl,.refl,hat,hr.mono ?_⟩
    omega
  | cons h rest ih =>
    have hw : ∀ h ∈ rest, h.type = .load → h.Whole := fun h hh => hwh h (mem_cons_of_mem _ hh)
    have hs : ∀ h ∈ rest, h ∈ program.headers := fun h hh => hsu h (mem_cons_of_mem _ hh)
    rw [loadSegments]
    by_cases hlo : h.type = .load
    · rw [segmentPages,if_pos hlo] at hv
      rw [segmentFrames,if_pos hlo,add_assoc,add_left_comm (segmentFrames rest)] at hr
      obtain ⟨s1,a,hl1,hg,-,hle⟩ := load_grants process happ hat
        (hwh h mem_cons_self hlo) (Finset.union_subset_left hv) hr
      have hmo := granted_moves s0 hat.toAt hg
        (.segment hp (hsu h mem_cons_self) hlo rfl (segment_pages h a))
      rw [add_left_comm] at hle
      obtain ⟨s',p',hl,hm,hre⟩ := ih (happ.moves hmo)
        (hat.granted hg)
        hw (Finset.union_subset_right hv) hs hle
      rw [if_pos hlo,hl1]
      exact ⟨s',p',hl,hmo.trans hm,hre⟩
    · rw [segmentPages,if_neg hlo] at hv
      rw [segmentFrames,if_neg hlo] at hr
      rw [if_neg hlo]
      exact ih happ hat hw hv hs hr
end

section
variable {s : Machine} {p : Process} {before after : List Process} {c k : Nat} {call : Call}
def stackRegion (headers : List ProgramHeader) (a : Nat) : Region :=
  ⟨a,a,userProcessStackSizePages * pageSize,stackFlags headers⟩

section
variable (headers : List ProgramHeader) (a : Nat)
include headers
@[simp] theorem stack_vaddr : (stackRegion headers a).vaddr = a := rfl
@[simp] theorem stack_paddr : (stackRegion headers a).paddr = a := rfl

@[simp] theorem stack_pages : (stackRegion headers a).pages = userProcessStackSizePages := by
  simp [stackRegion,Region.pages,pagesFor]
end

theorem stack_shows {headers : List ProgramHeader} {w : Nat} (hs : s.frames.physical.Sound)
    (hr : s.frames.physical.requestPages userProcessStackSizePages = (some a,q))
    (hw : (stackRegion headers a).Covers w) :
    w < s.frames.physical.totalPages ∧ (stackRegion headers a).Shows w w := by
  obtain ⟨page,rfl,-,-,hin,-⟩ := hs.requestPages hr
  obtain ⟨i,hi,rfl⟩ := hw
  have hc : (stackRegion headers (page * pageSize)).mappedPages ≤ userProcessStackSizePages :=
    stack_pages headers (page * pageSize) ▸ loop_le _ _
  have ha := hs.addressable
  have hp : vpage ((stackRegion headers (page * pageSize)).vaddr+i * pageSize) = page+i := by
    rw [stackRegion,← add_mul,vpage_page (by omega)]
  refine ⟨by omega,i,hi,rfl,?_⟩
  rw [hp,stackRegion,PhysicalMemory.page_mul]

def stackMapped (s : Machine) (process : Process) (headers : List ProgramHeader) (a : Nat)
    (q : PhysicalMemory) : Machine := addMemoryRegion { s with
    frames := (⟨s.frames.memory,q⟩ : Frames).mapPages process.cr3 a a (stackFlags headers)
      userProcessStackSizePages
    log := s.log ++ [.handOut a userProcessStackSizePages] } process.processID
    (stackRegion headers a)

section
variable (s : Machine) (process : Process) (headers : List ProgramHeader) (a : Nat) (q : PhysicalMemory)
include headers
theorem mapped_frames : (s.stackMapped process headers a q).frames =
      (⟨s.frames.memory,q⟩ : Frames).mapRun process.cr3 (stackRegion headers a).vaddr a
        (stackFlags headers) (stackRegion headers a).mappedPages := by
  simp [stackMapped,addMemoryRegion,update,Frames.mapPages,Region.mappedPages,stack_pages,stack_vaddr]

theorem mapped_kernel : SameKernel s (s.stackMapped process headers a q) := by
  unfold stackMapped addMemoryRegion update
  exact ⟨rfl,rfl,rfl⟩
end

theorem mapped_processes (headers : List ProgramHeader)
    (hat : RecordOf s process p before after) :
    (s.stackMapped process headers a q).processes = before ++
      { p with memories := stackRegion headers a :: p.memories } :: after := by
  rw [stackMapped,← hat.pid]
  exact hat.addMemoryRegion _ _ _

theorem loadStack_eq (process : Process) (program : Program) (ha : a ≠ 0)
    (hr : s.frames.physical.requestPages userProcessStackSizePages = (some a,q)) :
    s.loadStack process program = (true, (s.stackMapped process program.headers a q).write
      (pushProgram ⟨(s.stackMapped process program.headers a q).frames.memory,
        a+userProcessStackSizePages * pageSize⟩ program.args []).memory) := by
  simp [loadStack,region_granted hr,if_neg ha,stackMapped,stackRegion]

theorem mapped_grants (happ : Apportioned s fun _ => [])
    (hat : RecordOf s process p before after) (headers : List ProgramHeader)
    (hr : s.frames.physical.requestPages userProcessStackSizePages = (some a,q)) :
    Grants s p before after (stackRegion headers a) p.nextRegionVaddr
        (s.stackMapped process headers a q) ∧
      (s.stackMapped process headers a q).frames.physical = q := by
  have hl : p.cr3 ∈ s.kernelMap :: s.processes.map Process.cr3 := mem_cons_of_mem _ (mem_map_of_mem hat.mem)
  obtain ⟨g,hg⟩ : ∃ g, g = stackRegion headers a := ⟨_,rfl⟩
  -- all of RAM has its tables, so the stack needs no new ones
  have ht : missing s.frames.memory p.cr3 (runPages g.vaddr g.mappedPages) = ∅ := by
    apply missing_eq_empty
    intro v hv
    exact happ.window p.cr3 hl v (stack_shows happ.maps.sound hr (hg ▸ mem_runPages.mp hv)).1
  have hs : (missing s.frames.memory p.cr3 (runPages g.vaddr g.mappedPages)).card ≤
      q.freeCount := by simp [ht]
  obtain ⟨hgr,-,requests,hp,hm⟩ := happ.grants
    (s.stackMapped process headers a q) g s.frames.memory hat.toAt hr (fun _ _ => rfl)
    (by rw [hg,stack_paddr]) (by rw [hg,stack_pages]) (stackFlags_present headers)
    (fun w hw => mem_runPages.mpr hw) hs (by rw [hat.cr3,hg,mapped_frames])
    (mapped_kernel s process _ a q) (by rw [hg]; exact mapped_processes headers hat)
    (by rw [stackMapped,addMemoryRegion,update])
  have hn : requests = 0 := by
    rw [ht,Finset.card_empty] at hm
    omega
  rw [hn] at hp
  exact ⟨hg ▸ hgr,hp⟩

theorem pushProgram_inside (m : Bytes) {x : Nat}
    (ha : a % pageSize = 0) (hl : a+userProcessStackSizePages * pageSize < 2^64)
    (hs : footprint args [] ≤ userProcessStackSizePages * pageSize)
    (hx : ¬ InRun a userProcessStackSizePages (x / pageSize)) :
    (pushProgram ⟨m,a+userProcessStackSizePages * pageSize⟩ args []).memory x =
      m x := by
  obtain ⟨st,hst⟩ : ∃ st : ArgumentStack, st = ⟨m,a+userProcessStackSizePages * pageSize⟩ := ⟨_,rfl⟩
  have ht : st.top = a+userProcessStackSizePages * pageSize := by rw [hst]
  have hm : st.memory = m := by rw [hst]
  have hp := st.pushProgram_pushed args [] (by omega) (by omega)
  have hpu := hp.top
  rw [← hst,← hm]
  apply hp.frame
  by_contra hi
  exact hx (inRun_div ha (by omega) (by omega))

theorem loadStack_granted (process : Process) (program : Program)
    (happ : Apportioned s fun _ => []) (hat : RecordOf s process p before after)
    (ha : footprint program.args [] ≤ userProcessStackSizePages * pageSize)
    (hre : s.frames.physical.requestPages userProcessStackSizePages = (some a,q)) :
    ∃ s1 m, s.loadStack process program = (true,s1.write m) ∧
      Grants s p before after (stackRegion program.headers a) p.nextRegionVaddr s1 ∧
      (∀ x, TablePage s1.frames s1.roots (x / pageSize) → m x = s1.frames.memory x) ∧
      s1.frames.physical = q := by
  obtain ⟨hal,hl⟩ := happ.maps.sound.request_aligned hre
  obtain ⟨hg,hp⟩ := mapped_grants happ hat program.headers hre
  have hs := loadStack_eq process program (happ.request_ne_zero hre) hre
  generalize s.stackMapped process program.headers a q = s1 at hg hp hs
  have hr := hat.roots hg.kernel hg.processes rfl
  refine ⟨s1,_,hs,hg,fun x hx => ?_,hp⟩
  refine pushProgram_inside _ hal hl ha fun hru => ?_
  have hh : (stackRegion program.headers a).Holds (x / pageSize) := by
    rw [Region.Holds,stack_pages,stack_paddr]
    exact hru
  exact (hg.gives.fresh _ hh).2.2.2 (hr ▸ hx)

theorem loadStack_moves (s0 : Machine) (process : Process) (program : Program)
    (happ : Apportioned s fun _ => []) (hat : RecordOf s process p before after)
    (ha : footprint program.args [] ≤ userProcessStackSizePages * pageSize)
    (hp : call.program = some program)
    (hroo : s.frames.physical.Plenty c (userProcessStackSizePages+k)) :
    ∃ s' a, s.loadStack process program = (true,s') ∧
      Moves (Causes s0 call) s (fun _ => []) s' (fun _ => []) ∧
      At s' { p with memories := stackRegion program.headers a :: p.memories } before after ∧
      (∀ w < 2^36, s.frames.physical.totalPages ≤ w →
        translate s'.frames.memory p.cr3 w = translate s.frames.memory p.cr3 w) ∧
      s'.frames.physical.Plenty c k := by
  obtain ⟨a,q,hre,hl⟩ := hroo.request happ.maps.sound (by decide)
  obtain ⟨s1,m,hlo,hg,hwr,hph⟩ := loadStack_granted process program happ hat ha hre
  have hm := granted_moves s0 hat.toAt hg (.stack hp (by rw [stack_vaddr,stack_paddr]))
  have ha1 := happ.moves hm
  obtain ⟨-,-,hs⟩ := ha1.write hwr
  refine ⟨_,a,hlo,hm.trans (ha1.write_moves hwr), (hat.granted hg).write _,?_,?_⟩
  · intro w hw hab
    have hr := hat.roots hg.kernel hg.processes rfl
    have hro := root_of_process hat.mem
    rw [hs p.cr3 (hr ▸ hro) w hw]
    refine hg.gives.others p.cr3 hro w hw fun hc => ?_
    have hb := (stack_shows happ.maps.sound hre hc.2).1
    omega
  · rw [write_physical,hph]
    exact hl
end

section
variable {s s' : Machine} {p : Process} {before after : List Process} {pid c k : Nat} {call : Call} {program : Program}
theorem room_eq (program : Program) (m : Bytes) (root : Nat) : program.room m root+k =
    segmentFrames program.headers+((missing m root (segmentPages program.headers)).card +
      (userProcessStackSizePages+k)) := by
  rw [Program.room]
  omega

theorem loadElf_moves (s0 : Machine) (process : Process) (call : Call)
    (happ : Apportioned s fun _ => []) (hat : RecordOf s process p before after)
    (hw : program.Whole) (hp : call.program = some program)
    (hr : s.frames.physical.Roomy (program.room s.frames.memory p.cr3)) :
    ∃ s', s.loadUserspaceElf64Process process program = (true,s') ∧
      Moves (Causes s0 call) s (fun _ => []) s' (fun _ => []) := by
  have hpl := hr.plenty happ.maps.sound
  rw [← add_zero (program.room _ _),room_eq] at hpl
  obtain ⟨s1,p1,hl,hm,ha1,hle⟩ := loadSegments_moves s0 process
    program.headers happ hat hw.segments (Finset.Subset.refl _) hp (fun _ hh => hh) hpl
  obtain ⟨s',a,hs,hm',-⟩ :=
    loadStack_moves s0 process program (happ.moves hm) ha1 hw.arguments hp hle
  refine ⟨s',?_,hm.trans hm'⟩
  rw [loadUserspaceElf64Process,hl]
  exact hs

variable (happ : Apportioned s fun _ => [])
include happ
theorem start_plenty
    (hr : s.frames.physical.Plenty c (tableCount s.frames.memory 3 s.kernelMap+k)) :
    ∃ new s1, s.startProcess s.kernelMap = (some ⟨s.thePid+1,new,[],0xf8000000⟩, s1) ∧
      Move s (fun _ => []) .other s1 (fun _ => []) ∧
      At s1 ⟨s.thePid+1,new,[],0xf8000000⟩ s.processes [] ∧ s1.frames.physical.Plenty c k ∧
      ∀ vs, (missing s1.frames.memory new vs).card ≤
        (missing s.frames.memory s.kernelMap vs).card := by
  obtain ⟨new,s1,hst,hs,hl,hm⟩ := happ.start_room mem_cons_self hr
  exact ⟨new,s1,hst,.create hs,hs.at happ,hl,hm⟩

theorem createElf_moves (ha : program.args ≠ []) (hw : program.Whole)
    (hr : s.frames.physical.Roomy (tableCount s.frames.memory 3 s.kernelMap +
      program.room s.frames.memory s.kernelMap)) :
    Moves (Causes s (.create (some program))) s (fun _ => [])
      (s.createUserspaceElf64Process (some program)) (fun _ => []) := by
  obtain ⟨new,s1,hs,hmov,hat,hl,hm⟩ := start_plenty happ (hr.plenty happ.maps.sound)
  have hfi : program.room s1.frames.memory new ≤ program.room s.frames.memory s.kernelMap := by
    have hf := hm (segmentPages program.headers)
    unfold Program.room
    omega
  obtain ⟨s',hlo,hmo⟩ := loadElf_moves s
    ⟨s.thePid+1,new,[],0xf8000000⟩ (.create (some program)) (happ.move hmov) ⟨hat,rfl,rfl⟩ hw
    rfl (hl.roomy.mono hfi)
  rw [createUserspaceElf64Process,if_neg ha,hs]
  dsimp only
  rw [hlo]
  exact (Moves.other hmov).trans hmo

theorem create_oneSegment (har : args ≠ []) (hwh : Program.Whole ⟨[h],args⟩)
    (hl : h.type = .load)
    (hr : s.frames.physical.Plenty c (tableCount s.frames.memory 3 s.kernelMap +
      (Program.room ⟨[h],args⟩ s.frames.memory s.kernelMap+k))) :
    ∃ new a b, At (s.createUserspaceElf64Process (some ⟨[h],args⟩)) ⟨s.thePid+1,new,
        [stackRegion [h] a,segmentRegion h b],0xf8000000⟩ s.processes [] ∧
      (∀ w ∈ runPages h.vaddr.toNat h.pages, s.frames.physical.totalPages ≤ w →
        ∃ e, translate (s.createUserspaceElf64Process (some ⟨[h],args⟩)).frames.memory new w =
            some e ∧ flag e .userSuper = flag h.mappingFlags .userSuper ∧
          flag e .readWrite = flag h.mappingFlags .readWrite) ∧
      (s.createUserspaceElf64Process (some ⟨[h],args⟩)).frames.physical.Plenty c k := by
  obtain ⟨new,s1,hs,hmo,hat,hle,hm⟩ := start_plenty happ hr
  have ha1 := happ.move hmo
  have hr1 : s1.frames.physical.Plenty c (h.pages+((missing s1.frames.memory new
      (segmentPages [h])).card+(userProcessStackSizePages+k))) := by
    refine hle.mono ?_
    have hfe := hm (segmentPages [h])
    rw [room_eq]
    simp only [segmentFrames,hl,if_true]
    omega
  have hpa : runPages h.vaddr.toNat h.pages ⊆ segmentPages [h] := by simp [segmentPages,hl]
  obtain ⟨s2,b,hl2,hg,hsh,hle2⟩ := load_grants
    ⟨s.thePid+1,new,[],0xf8000000⟩ ha1 ⟨hat,rfl,rfl⟩
    (hwh.segments h mem_cons_self hl) hpa hr1
  have hp : (Call.create (some ⟨[h],args⟩)).program = some ⟨[h],args⟩ := rfl
  have hm2 := granted_moves s hat hg (.segment hp mem_cons_self hl rfl (segment_pages h b))
  obtain ⟨s',a,hst,-,ha',ha,hl'⟩ := loadStack_moves s
    ⟨s.thePid+1,new,[],0xf8000000⟩ ⟨[h],args⟩ (ha1.moves hm2)
    ⟨⟨hg.processes,hat.others⟩,rfl,rfl⟩ hwh.arguments hp (hle2.mono (Nat.le_add_left _ _))
  have heq : s.createUserspaceElf64Process (some ⟨[h],args⟩) = s' := by
    rw [createUserspaceElf64Process,if_neg har,hs]
    dsimp only
    rw [loadUserspaceElf64Process,loadSegments,if_pos hl,hl2]
    dsimp [loadSegments]
    rw [hst]
  rw [heq]
  refine ⟨new,a,b,ha',fun w hw hh => ?_,hl'⟩
  obtain ⟨e,he,hf⟩ := hsh w hw
  have hlt : w < 2^36 := by
    obtain ⟨i,-,rfl⟩ := mem_runPages.mp hw
    exact vpage_lt _
  have ht := hg.gives.keeps.total.trans (happ.move_total hmo)
  refine ⟨e,?_,hf⟩
  rw [ha w hlt (ht ▸ hh)]
  exact he

theorem replace_moves (hp : s.process pid = some p) (hw : program.Whole)
    (hr : (released p.memories s.frames.physical).Roomy (program.room s.frames.memory p.cr3)) :
    Moves (Causes s (.exec pid (some program))) s (fun _ => [])
      (s.replaceUserspaceElf64Process p (some program)) (fun _ => []) := by
  obtain ⟨hme,-⟩ := process_some hp
  obtain ⟨before,after,hat⟩ := exists_at happ.pids hme
  have hpa : p.memories.Perm (p.memories ++ []) := by rw [append_nil]
  have hd := happ.drops hat hpa (fun p => { p with memories := [] }) rfl
  have hmov := Move.drop hat hd
  have hm : missing (dropRegions p.cr3 p.memories s).frames.memory p.cr3
      (segmentPages program.headers) = missing s.frames.memory p.cr3 (segmentPages program.headers) :=
    missing_congr fun path hpat => hd.unmaps.paths p.cr3 (root_of_process hme) path hpat
  have hph : (dropRegions p.cr3 p.memories s).frames.physical =
      released p.memories s.frames.physical :=
    (dropRegions_spec p.memories s.frames.physical happ.maps (root_of_process hme)
      fun g hg v hv => happ.tables p hme g (mem_append_left _ hg) v hv).2.1
  have hl : (dropRegions p.cr3 p.memories s).frames.physical.Roomy
      (program.room (dropRegions p.cr3 p.memories s).frames.memory p.cr3) := by
    rw [hph,Program.room,hm]
    exact hr
  obtain ⟨s',hlo,hmo⟩ := loadElf_moves s p (.exec pid (some program))
    (happ.move hmov) ⟨⟨hd.processes,hat.others⟩,rfl,rfl⟩ hw rfl hl
  have hf : Moves (Causes s (.exec pid (some program))) s (fun _ => [])
      ((dropRegions p.cr3 p.memories s).update p.processID fun p => { p with memories := [] })
      (fun _ => []) := .next .refl (.exec hp) hmov
  rw [replaceUserspaceElf64Process,hlo]
  exact hf.trans hmo

/-- The memory a call needs is there, and the program it loads is one the loader gets right. -/
def Served (s : Machine) : Call → Prop
  | .create (some program) => program.args = [] ∨ program.Whole ∧
      s.frames.physical.Roomy (tableCount s.frames.memory 3 s.kernelMap +
        program.room s.frames.memory s.kernelMap)
  | .exec pid (some program) => ∀ p, s.process pid = some p → program.Whole ∧
      (released p.memories s.frames.physical).Roomy (program.room s.frames.memory p.cr3)
  | .map pid address size _ => ∀ p, s.process pid = some p → s.MapServed p address size
  | _ => True

theorem step_moves (hs : s.Served call) (hst : s.step call = some s') :
    Moves (Causes s call) s (fun _ => []) s' (fun _ => []) := by
  cases call with
  | create program =>
    cases hst
    cases program with
    | none => exact .refl
    | some program =>
      rcases hs with ha | ⟨hw,hr⟩
      · rw [createUserspaceElf64Process,if_pos ha]
        exact .refl
      by_cases ha : program.args = []
      · rw [createUserspaceElf64Process,if_pos ha]
        exact .refl
      · exact createElf_moves happ ha hw hr
  | exec pid program =>
    obtain ⟨p,hp,rfl⟩ := map_eq_some_iff.mp hst
    cases program with
    | none => exact .refl
    | some program =>
      obtain ⟨hw,hr⟩ := hs p hp
      exact replace_moves happ hp hw hr
  | fork pid =>
    obtain ⟨p,hp,hc⟩ := bind_eq_some_iff.mp hst
    exact copyUserspaceProcess_moves happ hp hc
  | map pid address size flags =>
    obtain ⟨p,hp,rfl⟩ := map_eq_some_iff.mp hst
    exact sysMap_moves address size flags happ hp (hs p hp)
  | unmap pid address =>
    obtain ⟨p,hp,rfl⟩ := map_eq_some_iff.mp hst
    exact sysUnmap_moves happ hp address
  | exit pid =>
    obtain ⟨p,hp,rfl⟩ := map_eq_some_iff.mp hst
    exact remove_moves happ hp
  | store pid address byte =>
    obtain ⟨p,hp,rfl⟩ := map_eq_some_iff.mp hst
    exact userStore_moves happ (process_some hp).1 address byte
  | reap =>
    cases hst
    exact .other .reap
end
end Machine
end LensorOS.Memory
