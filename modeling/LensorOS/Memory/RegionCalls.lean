import LensorOS.Memory.AddressSpaces
import Mathlib.Algebra.Order.BigOperators.Group.Finset

/-!
# Calls and the regions they change

Each call on regions is a chain of grants, drops and steps that leave regions alone. `map` needs its
request for frames met, and a free page for each table it has to add.
-/
namespace LensorOS.Memory
open Framework PageDirectoryEntry List Frames
def runPages (virt count : Nat) : Finset Nat := (Finset.range count).image fun i => vpage (virt+i * pageSize)

theorem mem_runPages {virt count w : Nat} : w ∈ runPages virt count ↔ ∃ i < count, w = vpage (virt+i * pageSize) := by
  simp [runPages,eq_comm]

theorem runPages_card_le (virt count : Nat) : (runPages virt count).card ≤ count := by
  have hc := Finset.card_image_le (s := Finset.range count) (f := fun i => vpage (virt+i * pageSize))
  rwa [Finset.card_range] at hc

variable {g : Region}
theorem Region.Covers.mem_runPages {n v : Nat} (h : g.Covers v) (hp : g.pages = n) : v ∈ runPages g.vaddr n := by
  obtain ⟨i,hi,hv⟩ := h
  refine Memory.mem_runPages.mpr ⟨i,?_,hv⟩
  rw [← hp]
  exact lt_of_lt_of_le hi (loop_le g.vaddr g.pages)

theorem missing_card_le (m : Bytes) (root : Nat) (vs : Finset Nat) : (missing m root vs).card ≤ vs.card * 3 := by
  refine (Finset.card_filter_le _ _).trans (Finset.card_biUnion_le_card_mul _ _ _ fun v _ => ?_)
  exact Finset.card_le_three

theorem mem_runPages_long {virt count v : Nat} (hl : 2^36 ≤ count) (hv : v < 2^36) : v ∈ runPages virt count := by
  refine mem_runPages.mpr ⟨(v+2^36-vpage virt) % 2^36,?_,?_⟩
  · omega
  · unfold vpage pageSize
    omega

theorem le_pagesFor (bytes : Nat) : bytes ≤ pagesFor bytes * pageSize := by
  unfold pagesFor pageSize
  split_ifs
  · omega
  · omega

def released (regions : List Region) (p : PhysicalMemory) : PhysicalMemory :=
  regions.foldl (fun p g => p.freePages g.paddr g.pages) p

theorem released_givesBack (regions : List Region) {p : PhysicalMemory} (hp : p.Sound) :
    GivesBack p (released regions p) fun f => ∃ g ∈ regions, g.Holds f := by
  induction regions generalizing p with
  | nil => exact ⟨hp,rfl,fun j => by simp [released]⟩
  | cons g rest ih =>
    have hf : GivesBack p (p.freePages g.paddr g.pages) g.Holds :=
      ⟨hp.freePages _ _,PhysicalMemory.freePages_totalPages _ _ _,
        fun j => PhysicalMemory.freePages_locked _ _⟩
    exact hf.trans (ih hf.sound) fun j => by simp

namespace Machine
def Call.program : Call → Option Program
  | .create program => program
  | .exec _ program => program
  | _ => none

def mapAddress (p : Process) (address : BitVec 64) : Nat :=
  if address = 0 then p.nextRegionVaddr else address.toNat

/-- What a call made in `s` may do to regions, on its way through some state. -/
inductive Causes (s : Machine) : Call → Machine → (Nat → List Region) → Change → Prop
  | other {call s1 lent} : Causes s call s1 lent .other
  | map {pid address size flags s1 lent p g} (hp : s.process pid = some p)
      (hplace : g.vaddr = mapAddress p address) (hsize : g.length = size.toNat) :
      Causes s (.map pid address size flags) s1 lent (.grant pid g)
  | copy {pid child s1 lent g g'} (hg : g ∈ lent child)
      (hcopy : g' = { g with paddr := g'.paddr }) : Causes s (.fork pid) s1 lent (.grant child g')
  | segment {call s1 lent program h pid g} (hprogram : call.program = some program)
      (hmem : h ∈ program.headers) (hload : h.type = .load) (hplace : g.vaddr = h.vaddr.toNat)
      (hsize : g.pages = h.pages) : Causes s call s1 lent (.grant pid g)
  | stack {call s1 lent program pid g} (hprogram : call.program = some program)
      (hplace : g.vaddr = g.paddr) : Causes s call s1 lent (.grant pid g)
  | unmap {pid address p g lent} (hp : s.process pid = some p) (hg : g ∈ p.memories)
      (hplace : g.vaddr = address.toNat) : Causes s (.unmap pid address) s lent (.drop p [g])
  | exec {pid program p lent} (hp : s.process pid = some p) :
      Causes s (.exec pid program) s lent (.drop p p.memories)
  | exit {pid p lent} (hp : s.process pid = some p) : Causes s (.exit pid) s lent (.discard p)

variable {lent : Nat → List Region} {call : Call}
theorem Moves.other {s s' s1 : Machine} {lent' : Nat → List Region}
    (h : Move s1 lent .other s' lent') : Moves (Causes s call) s1 lent s' lent' :=
  .next .refl .other h

section
variable {s : Machine} {n a : Nat} {q : PhysicalMemory}
theorem region_granted (h : s.frames.physical.requestPages n = (some a,q)) :
    s.requestRegion n = (a, { s with
      frames := { s.frames with physical := q }
      log := s.log ++ [.handOut a n] }) := by
  unfold requestRegion
  rw [h]
  rfl

theorem region_refused (h : s.frames.physical.requestPages n = (none,q)) :
    s.requestRegion n = (0, { s with frames := { s.frames with physical := q } }) := by
  unfold requestRegion
  rw [h]
  rfl

theorem Apportioned.request_ne_zero (h : Apportioned s lent)
    (hre : s.frames.physical.requestPages n = (some a,q)) : a ≠ 0 := by
  obtain ⟨page,rfl,hpo,hg,-⟩ := h.maps.sound.requestPages hre
  intro hz
  have hp : page = 0 := by
    unfold pageSize at hz
    omega
  exact hg.clear 0 (by omega) (by omega) h.null.1
end

section
theorem At.addMemoryRegion {before after : List Process}
    (hat : At s p before after) (frames : Frames) (log : List FrameEvent) (g : Region) :
    (Machine.addMemoryRegion { s with frames := frames, log := log } p.processID g).processes =
      before ++ { p with memories := g :: p.memories } :: after :=
  At.update ⟨hat.split,hat.others⟩ _

variable {s s' : Machine} {lent : Nat → List Region} {p : Process} {before after : List Process}
  {g : Region} {n a next : Nat} {q : PhysicalMemory} {flags : BitVec 64} {vs : Finset Nat}
theorem Apportioned.grants (h : Apportioned s lent) (s' : Machine) (g : Region) (m : Bytes)
    (hat : At s p before after) (hre : s.frames.physical.requestPages n = (some a,q))
    (hm : ∀ x, ¬ InRun a n (x / pageSize) → m x = s.frames.memory x) (ha : g.paddr = a)
    (hp : g.pages = n) (hfl : flag flags .present = true) (hv : ∀ w, g.Covers w → w ∈ vs)
    (hsu : (missing s.frames.memory p.cr3 vs).card ≤ q.freeCount)
    (hf : s'.frames = (⟨m,q⟩ : Frames).mapRun p.cr3 g.vaddr a flags g.mappedPages)
    (hk : SameKernel s s') (hpr : s'.processes =
      before ++ { p with memories := g :: p.memories, nextRegionVaddr := next } :: after)
    (hl : s'.log = s.log ++ [.handOut a n]) : Grants s p before after g next s' ∧
      MapsRun s.roots p.cr3 g.vaddr (a / pageSize) g.mappedPages flags ⟨m,q⟩ s'.frames ∧
      ∃ k, s'.frames.physical = q.afterRequests k ∧ (missing s'.frames.memory p.cr3 vs).card+k =
          (missing s.frames.memory p.cr3 vs).card := by
  have hro := root_of_process hat.mem
  have hn : p.cr3 ≠ 0 := fun hz => h.nonzero (hz ▸ hro)
  obtain ⟨hg,hru,hs⟩ := givesRegion h.maps hro hn hre hm ha hp hfl hv hsu
  rw [← hf] at hg hru hs
  refine ⟨⟨hg,hk,hpr,.inl ?_,?_⟩,hru,hs⟩
  · rw [hl,ha,hp]
  · rw [ha]
    exact (h.maps.sound.request_aligned hre).1

theorem Apportioned.grants_empty (h : Apportioned s lent) (he : g.pages = 0)
    (hn : g.paddr = 0) (hf : s'.frames = s.frames) (hk : SameKernel s s')
    (hp : s'.processes =
      before ++ { p with memories := g :: p.memories, nextRegionVaddr := next } :: after)
    (hl : s'.log = s.log) : Grants s p before after g next s' := by
  refine ⟨?_,hk,hp,.inr ⟨he,hl⟩,by rw [hn,Nat.zero_mod]⟩
  rw [hf]
  exact GivesRegion.empty h.maps he
end

section
variable {s : Machine} {p : Process} {pid : Nat} (address size flags : BitVec 64)
/-- The requests of `map` are met: there are frames for the region, and pages for the tables on
the way to it. -/
def MapServed (s : Machine) (p : Process) (address size : BitVec 64) : Prop :=
  let pages := pagesFor size.toNat
  let vaddr := mapAddress p address
  pages = 0 ∨ s.frames.physical.Servable pages ∧ (missing s.frames.memory p.cr3
      (runPages vaddr (pageLoopCount vaddr pages))).card+pages ≤ s.frames.physical.freeCount

def requestedPages (p : Process) (address size : BitVec 64) : Finset Nat :=
  runPages (mapAddress p address) (pageLoopCount (mapAddress p address) (pagesFor size.toNat))

def mappedRegion (s : Machine) (p : Process) (address size : BitVec 64) : Region :=
  ⟨mapAddress p address,(s.requestRegion (pagesFor size.toNat)).1,size.toNat,userFlags⟩

theorem sysMap_processes {before after : List Process} (hat : At s p before after) :
    ∃ next, (s.sysMap p address size flags).processes = before ++
      { p with memories := s.mappedRegion p address size :: p.memories,
               nextRegionVaddr := next } :: after := by
  have hp : (s.requestRegion (pagesFor size.toNat)).2.processes = s.processes := rfl
  have ha' : At (s.requestRegion (pagesFor size.toNat)).2 p before after := ⟨hp.trans hat.split,hat.others⟩
  unfold sysMap mappedRegion mapAddress
  split
  · have hm := ha'.update fun p =>
      { p with nextRegionVaddr := (p.nextRegionVaddr+pagesFor size.toNat * pageSize) % 2^64 }
    exact ⟨_,At.update ⟨hm,hat.others⟩ _⟩
  · exact ⟨_,ha'.update _⟩

theorem sysMap_kernel : SameKernel s (s.sysMap p address size flags) := by
  unfold sysMap
  split
  · exact ⟨rfl,rfl,rfl⟩
  · exact ⟨rfl,rfl,rfl⟩

theorem sysMap_frames : (s.sysMap p address size flags).frames =
    (s.requestRegion (pagesFor size.toNat)).2.frames.mapPages p.cr3 (mapAddress p address)
      (s.requestRegion (pagesFor size.toNat)).1 userFlags (pagesFor size.toNat) := by
  unfold sysMap mapAddress
  split
  · rfl
  · rfl

theorem sysMap_log : (s.sysMap p address size flags).log = (s.requestRegion (pagesFor size.toNat)).2.log := by
  unfold sysMap
  split
  · rfl
  · rfl

theorem sysMap_granted (h : Apportioned s lent)
    {before after : List Process} (hat : At s p before after) {a : Nat} {q : PhysicalMemory}
    (hre : s.frames.physical.requestPages (pagesFor size.toNat) = (some a,q))
    (hs : (missing s.frames.memory p.cr3 (requestedPages p address size)).card ≤ q.freeCount) :
    ∃ next, Grants s p before after (s.mappedRegion p address size) next
        (s.sysMap p address size flags) ∧
      MapsRun s.roots p.cr3 (mapAddress p address) (a / pageSize)
        (pageLoopCount (mapAddress p address) (pagesFor size.toNat)) userFlags
        ⟨s.frames.memory,q⟩ (s.sysMap p address size flags).frames ∧
      ∃ k, (s.sysMap p address size flags).frames.physical = q.afterRequests k ∧
        k ≤ (missing s.frames.memory p.cr3 (requestedPages p address size)).card := by
  obtain ⟨next,hp⟩ := sysMap_processes address size flags hat
  have hg := region_granted hre
  have hc : ∀ w, (s.mappedRegion p address size).Covers w →
      w ∈ requestedPages p address size := fun w hw => mem_runPages.mpr hw
  obtain ⟨hgr,hru,k,hph,hco⟩ := h.grants (s.sysMap p address size flags)
    (s.mappedRegion p address size) s.frames.memory hat hre (fun _ _ => rfl)
    (by rw [mappedRegion,hg]) rfl (show flag userFlags .present = true by decide) hc
    hs (by rw [sysMap_frames,hg]; rfl) (sysMap_kernel address size flags) hp
    (by rw [sysMap_log,hg])
  exact ⟨next,hgr,hru,k,hph,by omega⟩

section
variable (h : Apportioned s fun _ => []) {before after : List Process} (hat : At s p before after)
include h hat
theorem sysMap_grants (hse : s.MapServed p address size) :
    ∃ next, Grants s p before after (s.mappedRegion p address size) next
      (s.sysMap p address size flags) := by
  rcases hse with he | ⟨hs,hsu⟩
  · obtain ⟨next,hp⟩ := sysMap_processes address size flags hat
    have hreq : s.frames.physical.requestPages (pagesFor size.toNat) = (none,s.frames.physical) := by
      rw [he]
      rfl
    have hre := region_refused hreq
    refine ⟨next,h.grants_empty he (congrArg Prod.fst hre) ?_ (sysMap_kernel address size flags) hp ?_⟩
    · rw [sysMap_frames,hre,he,mapPages]
      have hn := Nat.le_zero.mp (loop_le (mapAddress p address) 0)
      rw [hn]
      rfl
    · rw [sysMap_log,hre]
  · obtain ⟨a,ha⟩ := Option.isSome_iff_exists.mp
      (PhysicalMemory.request_isSome h.maps.sound.hint hs)
    have hreq : s.frames.physical.requestPages (pagesFor size.toNat) =
        (some a, (s.frames.physical.requestPages (pagesFor size.toNat)).2) := Prod.ext ha rfl
    obtain ⟨page,-,-,hgr,hi,-⟩ := h.maps.sound.requestPages hreq
    have hc := hgr.freeCount hi
    obtain ⟨next,hg,-⟩ := sysMap_granted address size flags h hat hreq (by unfold requestedPages; omega)
    exact ⟨next,hg⟩

theorem sysMap_plenty {c k n : Nat} (hn : pagesFor size.toNat = n) (hpo : 0 < n)
    (hro : s.frames.physical.Plenty c (n+(n * 3+k))) : s.MapServed p address size ∧ ∃ a q next,
      s.frames.physical.requestPages n = (some a,q) ∧
      Grants s p before after (s.mappedRegion p address size) next (s.sysMap p address size flags) ∧
      MapsRun s.roots p.cr3 (mapAddress p address) (a / pageSize)
        (pageLoopCount (mapAddress p address) n) userFlags
        ⟨s.frames.memory,q⟩ (s.sysMap p address size flags).frames ∧
      (s.sysMap p address size flags).frames.physical.Plenty c k := by
  subst hn
  have hm : (missing s.frames.memory p.cr3 (requestedPages p address size)).card ≤ pagesFor size.toNat * 3 := by
    refine (missing_card_le _ _ _).trans (Nat.mul_le_mul_right 3 ?_)
    exact (runPages_card_le _ _).trans (loop_le _ _)
  obtain ⟨a,q,hre,hl⟩ := hro.request h.maps.sound hpo
  obtain ⟨page,-,-,-,-,hso⟩ := h.maps.sound.requestPages hre
  have hsp := hro.spare
  have hs := (hl.mono (Nat.le_add_right _ k)).roomy.le_freeCount hso
  obtain ⟨next,hg,hru,requests,hp,hle⟩ := sysMap_granted address size flags h hat hre (hm.trans hs)
  refine ⟨.inr ⟨?_,?_⟩,a,q,next,hre,hg,hru,?_⟩
  · exact (hro.roomy.mono (by omega)).servable h.maps.sound hpo
  · unfold requestedPages at hm
    omega
  rw [hp]
  have hf : requests+(pagesFor size.toNat * 3-requests+k) = pagesFor size.toNat * 3+k := by omega
  rw [← hf] at hl
  exact (hl.afterRequests hso).mono (by omega)
end

theorem sysMap_moves (h : Apportioned s fun _ => []) (hp : s.process pid = some p)
    (hs : s.MapServed p address size) :
    Moves (Causes s (.map pid address size flags)) s (fun _ => [])
      (s.sysMap p address size flags) (fun _ => []) := by
  obtain ⟨hm,rfl⟩ := process_some hp
  obtain ⟨before,after,hat⟩ := exists_at h.pids hm
  obtain ⟨next,hgr⟩ := sysMap_grants address size flags h hat hs
  refine .next .refl (.map hp rfl rfl) (.grant hat hgr (fun _ _ => rfl) ?_ ?_)
  · intro g hg
    cases hg
  · intro g hg
    cases hg
end

section
variable {s : Machine} {roots : List Nat} {p : Process} {pid : Nat}
theorem dropRegions_spec (gone : List Region) {cr3 : Nat} (q : PhysicalMemory)
    (h : PageMaps ⟨s.frames.memory,q⟩ roots) (hr : cr3 ∈ roots)
    (ht : ∀ g ∈ gone, ∀ v, g.Covers v → (pageTableOf s.frames.memory cr3 v).isSome) :
    Unmaps roots cr3 (fun w => ∃ g ∈ gone, g.Covers w) s.frames.memory
        (dropRegions cr3 gone s).frames.memory ∧
      (dropRegions cr3 gone s).frames.physical = released gone s.frames.physical ∧
      SameKernel s (dropRegions cr3 gone s) ∧ (dropRegions cr3 gone s).processes = s.processes ∧
      (dropRegions cr3 gone s).log = s.log ++ gone.map fun g => .release g.paddr g.pages := by
  induction gone generalizing s with
  | nil =>
    refine ⟨?_,rfl,⟨rfl,rfl,rfl⟩,rfl,(append_nil _).symm⟩
    have hs : Unmaps roots cr3 (fun _ => False) s.frames.memory s.frames.memory := Unmaps.refl
    simpa [dropRegions] using hs
  | cons g rest ih =>
    have hf : Unmaps roots cr3 g.Covers s.frames.memory (s.frames.unmapPages cr3 g.vaddr g.pages).memory := by
      have hru := unmapRun_spec (n := g.mappedPages) h hr fun i hi =>
        ht g mem_cons_self _ ⟨i,hi,rfl⟩
      rw [unmapRun_memory _ q s.frames.physical] at hru
      exact hru
    rw [dropRegions]
    obtain ⟨s1,hs1⟩ : ∃ s1, s1 = releaseRegion { s with frames := s.frames.unmapPages cr3 g.vaddr g.pages } g := ⟨_,rfl⟩
    have hm : s1.frames.memory = (s.frames.unmapPages cr3 g.vaddr g.pages).memory := by
      rw [hs1]
      rfl
    have hph : s1.frames.physical = s.frames.physical.freePages g.paddr g.pages := by
      have hs := unmapRun_physical s.frames cr3 g.vaddr (pageLoopCount g.vaddr g.pages)
      rw [hs1,releaseRegion]
      rw [unmapPages,hs]
    have hl : s1.log = s.log ++ [.release g.paddr g.pages] := by rw [hs1,releaseRegion]
    rw [← hm] at hf
    obtain ⟨hu,hre,hk,hp,hres⟩ := ih (s := s1) (hf.maps h) (by
      intro g' hg' v hv
      rw [pageTableOf,hf.paths cr3 hr _ (upper_path v)]
      exact ht g' (mem_cons_of_mem _ hg') v hv)
    rw [← hs1]
    refine ⟨?_,?_,?_,?_,?_⟩
    · simpa using hf.trans hu hr
    · rw [hre,hph]
      rfl
    · have hs : SameKernel s s1 := by
        rw [hs1]
        exact ⟨rfl,rfl,rfl⟩
      exact ⟨hk.kernelMap.trans hs.kernelMap,
        hk.pageMapsToFree.trans hs.pageMapsToFree,hk.thePid.trans hs.thePid⟩
    · rw [hp,hs1]
      rfl
    · rw [hres,hl,append_assoc]
      rfl

section
variable (h : Apportioned s fun _ => []) {before after : List Process} (hat : At s p before after)
include h hat
theorem Apportioned.drops {gone rest : List Region}
    (hp : p.memories.Perm (gone ++ rest)) (change : Process → Process)
    (hc : change p = { p with memories := rest }) :
    Drops s p before after gone rest ((dropRegions p.cr3 gone s).update p.processID change) := by
  have ht : ∀ g ∈ gone, ∀ v, g.Covers v → (pageTableOf s.frames.memory p.cr3 v).isSome := by
    intro g hg v hv
    refine h.tables p hat.mem g ?_ v hv
    rw [append_nil]
    exact hp.mem_iff.mpr (mem_append_left _ hg)
  obtain ⟨hu,hph,hk,hpr,hl⟩ :=
    dropRegions_spec gone s.frames.physical h.maps (root_of_process hat.mem) ht
  have hb := hph ▸ released_givesBack gone h.maps.sound
  have ha' : At (dropRegions p.cr3 gone s) p before after := ⟨hpr.trans hat.split,hat.others⟩
  refine ⟨hu,hb,⟨hk.kernelMap,hk.pageMapsToFree,hk.thePid⟩,?_,hl,hp⟩
  rw [ha'.update change,hc]

theorem sysUnmap_drops {address : BitVec 64} {region : Region}
    (hfi : p.memories.find? (fun g => g.vaddr == address.toNat) = some region) :
    Drops s p before after [region] (p.memories.eraseP fun g => g.vaddr == address.toNat)
      (s.sysUnmap p address) := by
  have hp : region.vaddr = address.toNat := by simpa using find?_some hfi
  have hpa : p.memories.Perm ([region] ++ p.memories.eraseP fun g => g.vaddr == address.toNat) := by
    obtain ⟨hm,front,back,hs,hf⟩ := find?_eq_some_iff_append.mp hfi
    have he : p.memories.eraseP (fun g => g.vaddr == address.toNat) = front ++ back := by
      rw [hs,eraseP_append_right _ (by simpa using hf),eraseP_cons,hm]
      rfl
    rw [he,hs]
    exact perm_middle
  have hd := h.drops hat hpa
    (fun p => { p with memories := p.memories.eraseP fun g => g.vaddr == address.toNat }) rfl
  rw [dropRegions,dropRegions,hp] at hd
  rw [sysUnmap,hfi]
  exact hd
end

theorem sysUnmap_moves (h : Apportioned s fun _ => []) (hp : s.process pid = some p)
    (address : BitVec 64) :
    Moves (Causes s (.unmap pid address)) s (fun _ => []) (s.sysUnmap p address) (fun _ => []) := by
  obtain ⟨hm,-⟩ := process_some hp
  obtain ⟨before,after,hat⟩ := exists_at h.pids hm
  cases hf : p.memories.find? fun g => g.vaddr == address.toNat with
  | none =>
    rw [sysUnmap,hf]
    exact .refl
  | some region =>
    have hpl : region.vaddr = address.toNat := by simpa using find?_some hf
    exact .next .refl (.unmap hp (mem_of_find?_eq_some hf) hpl) (.drop hat (sysUnmap_drops h hat hf))
end

section
variable {s : Machine} {p : Process} {pid : Nat}
theorem releases_spec (regions : List Region) (s : Machine) :
    regions.foldl releaseRegion s = { s with
      frames := { s.frames with physical := released regions s.frames.physical }
      log := s.log ++ regions.map fun g => .release g.paddr g.pages } := by
  induction regions generalizing s with
  | nil => simp [released]
  | cons g rest ih =>
    rw [foldl_cons,ih]
    simp [releaseRegion,released]

theorem Apportioned.discards (h : Apportioned s fun _ => []) {before after : List Process}
    (hat : At s p before after) : Discards s p before after (s.removeProcess p) := by
  have he : (s.processes.eraseP fun q => q.processID == p.processID) = before ++ after := by
    rw [hat.split,eraseP_append_right,eraseP_cons_of_pos (by simp)]
    intro q hq
    simpa using hat.others q (mem_append_left _ hq)
  unfold removeProcess
  dsimp only
  rw [releases_spec]
  exact ⟨rfl,rfl,rfl,rfl,released_givesBack _ h.maps.sound,he,rfl⟩

theorem remove_moves (h : Apportioned s fun _ => []) (hp : s.process pid = some p) :
    Moves (Causes s (.exit pid)) s (fun _ => []) (s.removeProcess p) (fun _ => []) := by
  obtain ⟨hm,-⟩ := process_some hp
  obtain ⟨before,after,hat⟩ := exists_at h.pids hm
  exact .next .refl (.exit hp) (.discard hat (h.discards hat))
end

section
variable {s : Machine} {p : Process} {lent : Nat → List Region}
theorem Apportioned.userFrame_held (h : Apportioned s fun _ => []) (hp : p ∈ s.processes)
    {v f : Nat} (hv : v < 2^36) (hf : userFrame s.frames.memory p.cr3 v = some f) :
    ∃ g ∈ p.memories, g.Shows v f := by
  have hs := h.confined p hp v hv f (translate_of_userFrame hf)
  rwa [append_nil] at hs

theorem owners_pos {f : Nat} (hp : p ∈ s.processes) (hg : g ∈ p.memories) (hf : g.Holds f) : 0 < s.owners f :=
  countP_pos_iff.mpr ⟨g,mem_flatMap.mpr ⟨p,hp,hg⟩,by simpa using hf⟩

@[simp] theorem write_physical (s : Machine) (m : Bytes) :
    (s.write m).frames.physical = s.frames.physical := rfl

theorem At.write {before after : List Process} (hat : At s p before after) (m : Bytes) :
    At (s.write m) p before after := ⟨hat.split,hat.others⟩

theorem Apportioned.write_moves (h : Apportioned s lent) {m : Bytes} {s0 : Machine}
    (hm : ∀ x, TablePage s.frames s.roots (x / pageSize) → m x = s.frames.memory x) :
    Moves (Causes s0 call) s lent (s.write m) lent := by
  obtain ⟨-,hk,hs⟩ := h.write hm
  exact .other (.steady hk hs rfl rfl le_rfl rfl rfl)

theorem userStore_moves (h : Apportioned s fun _ => []) (hp : p ∈ s.processes)
    (address : BitVec 64) (byte : BitVec 8) :
    Moves (Causes s call) s (fun _ => []) (s.userStore p address byte) (fun _ => []) := by
  unfold userStore
  cases hf : userFrame s.frames.memory p.cr3 (vpage address.toNat) with
  | none => exact .refl
  | some frame =>
    obtain ⟨g,hg,hs⟩ := h.userFrame_held hp (vpage_lt _) hf
    obtain ⟨-,-,-,ht⟩ := h.taken frame (owners_pos hp hg hs.holds)
    refine h.write_moves fun x hx => Bytes.write8_outside _ _ fun he => ht ?_
    have hpa : x / pageSize = frame := by
      rw [he]
      unfold pageSize
      omega
    exact hpa ▸ hx
end

section
variable {s : Machine} {r new : Nat} {frames : Frames}
section
variable (h : Apportioned s fun _ => []) (hr : r ∈ s.kernelMap :: s.processes.map Process.cr3)
include h hr
theorem Apportioned.start_refused (hc : s.frames.clonePageMap r = (none,frames)) :
    (s.startProcess r).1 = none ∧ Move s (fun _ => []) .other (s.startProcess r).2 (fun _ => []) ∧
      (s.startProcess r).2.processes = s.processes := by
  have hg := clone_refused h.maps (root_of_live hr) hc
  unfold startProcess
  rw [hc]
  refine ⟨rfl,.steady (hg.keeps h.maps) (hg.translate h.maps) rfl ?_ (Nat.le_succ _) rfl
    rfl,rfl⟩
  simp

theorem Apportioned.start_granted (hcl : s.frames.clonePageMap r = (some new,frames)) :
    (s.startProcess r).1 = some ⟨s.thePid+1,new,[],0xf8000000⟩ ∧
      Starts s r ⟨s.thePid+1,new,[],0xf8000000⟩ (s.startProcess r).2 ∧
      (s.startProcess r).2.frames.physical = frames.physical ∧
      (∀ vs, (missing (s.startProcess r).2.frames.memory new vs).card ≤
        (missing s.frames.memory r vs).card) ∧
      SameContents s.roots s.frames (s.startProcess r).2.frames := by
  obtain ⟨hs,hp,hm,hc⟩ := spawns h.maps (root_of_live hr) (h.window r hr) hcl
  unfold startProcess
  rw [hcl]
  exact ⟨rfl,⟨hs,rfl,rfl,rfl,rfl,rfl,rfl,rfl⟩,hp,hm,hc⟩

theorem Apportioned.start_cases :
    (∃ s', s.startProcess r = (none,s') ∧ Move s (fun _ => []) .other s' (fun _ => []) ∧
        s'.processes = s.processes) ∨
      ∃ child s', s.startProcess r = (some child,s') ∧ Starts s r child s' ∧
        SameContents s.roots s.frames s'.frames := by
  cases hcl : s.frames.clonePageMap r with
  | mk found frames =>
    cases found with
    | none =>
      obtain ⟨hn,hm⟩ := h.start_refused hr hcl
      exact .inl ⟨_,Prod.ext hn rfl,hm⟩
    | some new =>
      obtain ⟨hso,hs,-,-,hc⟩ := h.start_granted hr hcl
      exact .inr ⟨_,_,Prod.ext hso rfl,hs,hc⟩

theorem Apportioned.start_progress
    (hc : tableCount s.frames.memory 3 r ≤ s.frames.physical.freeCount) :
    ∃ new s', s.startProcess r = (some ⟨s.thePid+1,new,[],0xf8000000⟩, s') ∧
      Starts s r ⟨s.thePid+1,new,[],0xf8000000⟩ s' ∧ s'.frames.physical =
        s.frames.physical.afterRequests (tableCount s.frames.memory 3 r) ∧
      ∀ vs, (missing s'.frames.memory new vs).card ≤ (missing s.frames.memory r vs).card := by
  obtain ⟨new,frames,hcl,hp⟩ := clone_progress h.maps (root_of_live hr) h.null.1 hc
  obtain ⟨hso,hs,hsa,hm,-⟩ := h.start_granted hr hcl
  exact ⟨new,_,Prod.ext hso rfl,hs,hsa.trans hp,hm⟩
end

theorem Apportioned.start_room (h : Apportioned s fun _ => []) {c k : Nat}
    (hr : r ∈ s.kernelMap :: s.processes.map Process.cr3)
    (hro : s.frames.physical.Plenty c (tableCount s.frames.memory 3 r+k)) :
    ∃ new s', s.startProcess r = (some ⟨s.thePid+1,new,[],0xf8000000⟩, s') ∧
      Starts s r ⟨s.thePid+1,new,[],0xf8000000⟩ s' ∧ s'.frames.physical.Plenty c k ∧
      ∀ vs, (missing s'.frames.memory new vs).card ≤ (missing s.frames.memory r vs).card := by
  have hc := (hro.mono (Nat.le_add_right _ _)).roomy.le_freeCount h.maps.sound
  obtain ⟨new,s',hst,hs,hp,hm⟩ := h.start_progress hr hc
  refine ⟨new,s',hst,hs,?_,hm⟩
  rw [hp]
  exact hro.afterRequests h.maps.sound

theorem Starts.at {s' : Machine} {child : Process} (h : Apportioned s fun _ => [])
    (hs : Starts s r child s') : At s' child s.processes [] := by
  refine ⟨hs.processes,fun q hq => ?_⟩
  have hk := h.known q (by simpa using hq)
  rw [hs.childPid]
  exact (Nat.lt_succ_of_le hk).ne
end

/-- The record of `process`, which was handed on by value, in the list of processes. -/
structure RecordOf (s : Machine) (process p : Process) (before after : List Process) : Prop
    extends At s p before after where
  pid : p.processID = process.processID
  cr3 : p.cr3 = process.cr3

theorem RecordOf.granted {s s' : Machine} {process p : Process} {before after : List Process}
    {next : Nat} (hat : RecordOf s process p before after)
    (hg : Grants s p before after g next s') :
    RecordOf s' process { p with memories := g :: p.memories, nextRegionVaddr := next } before
      after := ⟨⟨hg.processes,hat.others⟩,hat.pid,hat.cr3⟩

section
variable {s s' : Machine} {child p : Process} {before after : List Process} {memory : Region}
  {rest : List Region} {nextRegionVaddr pid a : Nat} {q : PhysicalMemory}
def lentTo (child : Process) (regions : List Region) : Nat → List Region :=
  fun pid => if pid = child.processID then regions else []

@[simp] theorem lentTo_self (child : Process) (regions : List Region) :
    lentTo child regions child.processID = regions := if_pos rfl

@[simp] theorem lentTo_nil (child : Process) : lentTo child [] = fun _ => [] :=
  funext fun _ => ite_self _

def copied (s : Machine) (child : Process) (memory : Region) (a : Nat) (q : PhysicalMemory) :
    Machine := addMemoryRegion { s with
    frames := (⟨s.frames.memory.copy a memory.paddr memory.length,q⟩ : Frames).mapPages child.cr3
      memory.vaddr a userFlags memory.pages
    log := s.log ++ [.handOut a memory.pages] } child.processID { memory with paddr := a }

theorem copyRegion_granted (h : Apportioned s lent)
    (hre : s.frames.physical.requestPages memory.pages = (some a,q)) :
    s.copyRegion child memory = some (s.copied child memory a q) := by
  rw [copyRegion,region_granted hre]
  rw [if_neg (h.request_ne_zero hre)]
  rfl

theorem copyRegion_cases (h : Apportioned s lent) (hru : s.copyRegion child memory = some s') :
    ∃ a q, s.frames.physical.requestPages memory.pages = (some a,q) ∧ s' = s.copied child memory a q := by
  cases hre : s.frames.physical.requestPages memory.pages with
  | mk found q =>
    cases found with
    | none =>
      rw [copyRegion] at hru
      simp [region_refused hre] at hru
    | some a => exact ⟨a,q,rfl,Option.some_inj.mp (hru.symm.trans (copyRegion_granted h hre))⟩

theorem copies_granted (h : Apportioned s lent)
    (hre : s.frames.physical.requestPages memory.pages = (some a,q)) :
    copyRegions child nextRegionVaddr (memory :: rest) s =
      copyRegions child nextRegionVaddr rest (s.copied child memory a q) := by
  rw [copyRegions,copyRegion_granted h hre,Option.bind_some]

theorem copies_cons (h : Apportioned s lent)
    (hru : copyRegions child nextRegionVaddr (memory :: rest) s = some s') :
    ∃ a q, s.frames.physical.requestPages memory.pages = (some a,q) ∧
      copyRegions child nextRegionVaddr rest (s.copied child memory a q) = some s' := by
  obtain ⟨t,ht,hru⟩ := Option.bind_eq_some_iff.mp hru
  obtain ⟨a,q,hre,rfl⟩ := copyRegion_cases h ht
  exact ⟨a,q,hre,hru⟩

theorem inRun_div {n x : Nat} (ha : a % pageSize = 0) (hl : a ≤ x)
    (hh : x < a+n * pageSize) : InRun a n (x / pageSize) := by
  unfold InRun
  unfold pageSize at *
  omega

theorem outside_run {bytes x : Nat} (ha : a % pageSize = 0)
    (hx : ¬ InRun a (pagesFor bytes) (x / pageSize)) : x < a ∨ a+bytes ≤ x := by
  have hl := le_pagesFor bytes
  by_contra hi
  exact hx (inRun_div ha (by omega) (by omega))

theorem copied_grants (h : Apportioned s (lentTo child (memory :: rest)))
    (hat : RecordOf s child p before after)
    (hre : s.frames.physical.requestPages memory.pages = (some a,q)) :
    Grants s p before after { memory with paddr := a } p.nextRegionVaddr
        (s.copied child memory a q) ∧
      MapsRun s.roots p.cr3 memory.vaddr (a / pageSize) memory.mappedPages userFlags
        ⟨s.frames.memory.copy a memory.paddr memory.length,q⟩ (s.copied child memory a q).frames ∧
      (s.copied child memory a q).frames.physical = q := by
  obtain ⟨ha,-⟩ := h.maps.sound.request_aligned hre
  have ht : missing s.frames.memory p.cr3 (runPages memory.vaddr memory.mappedPages) = ∅ := by
    apply missing_eq_empty
    intro v hv
    refine h.tables p hat.mem memory ?_ v (mem_runPages.mp hv)
    simp [hat.pid]
  have hs : (missing s.frames.memory p.cr3
      (runPages memory.vaddr memory.mappedPages)).card ≤ q.freeCount := by simp [ht]
  obtain ⟨hg,hru,k,hp,hc⟩ :=
    h.grants (s.copied child memory a q) { memory with paddr := a }
    (s.frames.memory.copy a memory.paddr memory.length)
    hat.toAt hre (fun x hx => Bytes.copy_outside _ (outside_run ha hx)) rfl rfl
    (show flag userFlags .present = true by decide) (fun w hw => mem_runPages.mpr hw)
    hs (by rw [hat.cr3]; rfl) ⟨rfl,rfl,rfl⟩
    (by rw [copied,← hat.pid]; exact hat.addMemoryRegion _ _ _) rfl
  refine ⟨hg,hru,?_⟩
  have hn : (missing s.frames.memory p.cr3
      (runPages memory.vaddr memory.mappedPages)).card = 0 := by rw [ht,Finset.card_empty]
  have hz : k = 0 := Nat.le_zero.mp (hn ▸ hc ▸ Nat.le_add_left k _)
  rw [hp,hz]
  rfl

theorem copied_move (s0 : Machine) (pid : Nat) (h : Apportioned s (lentTo child (memory :: rest)))
    (hat : RecordOf s child p before after)
    (hre : s.frames.physical.requestPages memory.pages = (some a,q)) :
    Moves (Causes s0 (.fork pid)) s (lentTo child (memory :: rest)) (s.copied child memory a q)
      (lentTo child rest) := by
  obtain ⟨hgr,-⟩ := copied_grants h hat hre
  refine .next .refl ?_ (.grant hat.toAt hgr ?_ ?_ ?_)
  · refine .copy (g := memory) ?_ rfl
    simp [hat.pid]
  · intro other ho
    rw [hat.pid] at ho
    simp [lentTo,ho]
  · intro g hg
    rw [hat.pid,lentTo_self] at hg ⊢
    exact mem_cons_of_mem _ hg
  intro g hg
  rw [hat.pid,lentTo_self] at hg ⊢
  rcases mem_cons.mp hg with rfl | hg
  · exact .inr fun v hv => hv
  · exact .inl hg

theorem update_next_move (h : Apportioned s lent) (pid next : Nat) :
    Move s lent .other (s.update pid fun p => { p with nextRegionVaddr := next }) lent := by
  refine .steady (h.maps.keeps h.maps.sound rfl (fun _ _ _ _ => rfl) fun _ hj => hj)
    (fun _ _ _ _ => rfl) rfl rfl le_rfl ?_ rfl
  unfold update
  rw [map_map]
  refine map_congr_left fun q _ => ?_
  simp only [Function.comp_apply]
  split_ifs
  · rfl
  · rfl

theorem copies_moves (s0 : Machine) (pid : Nat) (rest : List Region)
    (h : Apportioned s (lentTo child rest)) (hat : RecordOf s child p before after)
    (hru : copyRegions child nextRegionVaddr rest s = some s') :
    Moves (Causes s0 (.fork pid)) s (lentTo child rest) s' (fun _ => []) := by
  induction rest generalizing s p with
  | nil =>
    rw [copyRegions,Option.some.injEq] at hru
    rw [lentTo_nil] at h ⊢
    exact hru ▸ .other (update_next_move h _ _)
  | cons memory rest ih =>
    obtain ⟨a,q,hreq,hre⟩ := copies_cons h hru
    obtain ⟨hg,-⟩ := copied_grants h hat hreq
    have hm := copied_move s0 pid h hat hreq
    exact hm.trans (ih (h.moves hm) (hat.granted hg) hre)

theorem copyUserspaceProcess_moves (h : Apportioned s fun _ => []) (hp : s.process pid = some p)
    (hru : s.copyUserspaceProcess p = some s') :
    Moves (Causes s (.fork pid)) s (fun _ => []) s' (fun _ => []) := by
  obtain ⟨hme,-⟩ := process_some hp
  have hl : p.cr3 ∈ s.kernelMap :: s.processes.map Process.cr3 := mem_cons_of_mem _ (mem_map_of_mem hme)
  unfold copyUserspaceProcess at hru
  rcases h.start_cases hl with ⟨s1,hst,hm,-⟩ | ⟨child,s1,hst,hs,-⟩
  · rw [hst] at hru
    exact Option.some.inj hru ▸ .other hm
  rw [hst] at hru
  have hm := Move.fork hme hs
  exact (Moves.other hm).trans (copies_moves s pid p.memories (h.move hm) ⟨hs.at h,rfl,rfl⟩ hru)
end
end Machine
end LensorOS.Memory
