import LensorOS.Memory.Boot

/-!
# What a fork copies

For each region of the original, `copyUserspaceProcess` requests new frames, copies as many bytes as
the region is long, and maps the frames writable.
-/
namespace LensorOS.Memory
open Framework PageDirectoryEntry List Region
variable {g : Region} {i : Nat} {roots : List Nat}
theorem Keeps.tablePage {s s' : Frames} (h : Keeps roots s s') {page : Nat}
    (hta : TablePage s roots page) : TablePage s' roots page := by
  obtain ⟨r,hr,path,t,hp,ht,hpa⟩ := hta
  exact ⟨r,hr,path,t,hp,h.paths r hr path t hp ht,hpa⟩

theorem frame_div (f : Nat) {k : Nat} (hk : k < pageSize) : (f * pageSize+k) / pageSize = f := by
  unfold pageSize at hk ⊢
  omega

namespace Region
structure Whole (g : Region) : Prop where
  length : g.length = g.pages * pageSize
  mapped : g.mappedPages = g.pages

def Apart (g g' : Region) : Prop := ∀ v, ¬ (g.Covers v ∧ g'.Covers v)

structure Kept (roots : List Nat) (s : Frames) (g : Region) : Prop where
  aligned : g.paddr % pageSize = 0
  frames : ∀ f, g.Holds f → s.physical.Locked f ∧ ¬ TablePage s roots f

theorem Kept.keeps {s s' : Frames} (h : g.Kept roots s) (hk : Keeps roots s s') : g.Kept roots s' := by
  refine ⟨h.aligned,fun f hf => ?_⟩
  obtain ⟨hl,ht⟩ := h.frames f hf
  refine ⟨hk.locked f hl,fun hn => ?_⟩
  rcases hk.fresh f hn with ho | hfr
  · exact ht ho
  · exact hfr hl

theorem holds_page (hi : i < g.pages) : g.Holds (g.paddr / pageSize+i) :=
  ⟨Nat.le_add_right _ _,Nat.add_lt_add_left hi _⟩

theorem page_injective {virt n j : Nat} (hn : n ≤ 2^36) (hi : i < n) (hj : j < n)
    (h : vpage (virt+i * pageSize) = vpage (virt+j * pageSize)) : i = j := by
  unfold vpage pageSize at h
  omega
end Region

namespace Machine
def UserWritable (m : Bytes) (r v : Nat) : Prop :=
  ∃ e, translate m r v = some e ∧ flag e .userSuper = true ∧ flag e .readWrite = true

/-- A page map shows frame `f` at a page, and it is filled as frame `source` of an earlier
memory is. -/
structure PageCopied (m : Bytes) (r v f : Nat) (before : Bytes) (source : Nat) : Prop where
  shown : ∃ e, translate m r v = some e ∧ flag e .userSuper = true ∧ address e = f * pageSize
  same : ∀ k < pageSize, m (f * pageSize+k) = before (source * pageSize+k)

/-- What the loop over the regions of the original does for the page map at `r`. -/
structure CopiesRegions (r : Nat) (regions : List Region) (s s' : Machine) : Prop where
  contents : SameContents s.roots s.frames s'.frames
  others : ∀ r' ∈ s.roots, ∀ v < 2^36, ¬ (r' = r ∧ ∃ g ∈ regions, g.Covers v) →
    translate s'.frames.memory r' v = translate s.frames.memory r' v
  writable : ∀ g ∈ regions, ∀ v, g.Covers v → UserWritable s'.frames.memory r v
  copied : ∀ front g back, regions = front ++ g :: back → (∀ g' ∈ back, g.Apart g') → g.Whole →
    g.Kept s.roots s.frames → ∀ i < g.pages, ∃ f,
      PageCopied s'.frames.memory r (vpage (g.vaddr+i * pageSize)) f s.frames.memory
        (g.paddr / pageSize+i)

section
variable {s : Machine} {child p : Process} {before after : List Process} {memory : Region}
  {rest : List Region} {a : Nat} {q : PhysicalMemory}
variable (h : Apportioned s (lentTo child (memory :: rest))) (hat : RecordOf s child p before after)
  (hreq : s.frames.physical.requestPages memory.pages = (some a,q))
include h hat hreq
theorem copied_contents : SameContents s.roots s.frames (s.copied child memory a q).frames := by
  obtain ⟨hg,hr,hp⟩ := copied_grants h hat hreq
  intro x hl ht
  have ho : ¬ InRun a memory.pages (x / pageSize) := fun hi => (hg.gives.fresh _ hi).1 hl
  have hta : q.Locked (x / pageSize) := hp ▸ hg.gives.keeps.locked _ hl
  rw [hr.contents x hta ?_]
  · exact Bytes.copy_outside _ (outside_run hg.aligned ho)
  intro hn
  rcases hg.gives.keeps.fresh _ (hr.keeps.tablePage hn) with hol | hf
  · exact ht hol
  · exact hf hl

theorem copied_pages (hw : memory.Whole) (ha : memory.paddr % pageSize = 0)
    (hi : i < memory.pages) : PageCopied (s.copied child memory a q).frames.memory child.cr3
      (vpage (memory.vaddr+i * pageSize)) (a / pageSize+i) s.frames.memory
      (memory.paddr / pageSize+i) := by
  obtain ⟨hg,hr,hp⟩ := copied_grants h hat hreq
  obtain ⟨page,rfl,-,-,hin,-⟩ := h.maps.sound.requestPages hreq
  have had := h.maps.sound.addressable
  have hl := hw.mapped ▸ hi
  obtain ⟨j,hj,hsa,e,he,hadd,hu,-⟩ := hr.here _ ⟨i,hl,rfl⟩
  obtain rfl : i = j := by
    refine page_injective (n := memory.pages) (by omega) hi ?_ hsa
    rwa [hw.mapped] at hj
  rw [hat.cr3] at he
  refine ⟨⟨e,he,hu.trans (by decide),hadd⟩,fun k hk => ?_⟩
  have hf : ((page * pageSize) / pageSize+i) * pageSize+k = page * pageSize+(i * pageSize+k) := by
    rw [PhysicalMemory.page_mul,add_mul,add_assoc]
  have hs : (memory.paddr / pageSize+i) * pageSize+k = memory.paddr+(i * pageSize+k) := by
    rw [add_mul,page_mul_div ha,add_assoc]
  have hsh : i * pageSize+k < memory.length := by
    have hn : (i+1) * pageSize ≤ memory.pages * pageSize := Nat.mul_le_mul_right _ hi
    rw [Nat.add_one_mul] at hn
    rw [hw.length]
    omega
  obtain ⟨-,hlo,-,ht⟩ := hg.gives.fresh _ (holds_page hi)
  rw [hr.contents _ (by rw [frame_div _ hk]; exact hp ▸ hlo) (by
    rw [frame_div _ hk]
    exact fun hne => ht (hr.keeps.tablePage hne)),hf,hs]
  exact Bytes.copy_inside _ hsh
end

section
variable {s s' : Machine} {child p : Process} {before after : List Process} {nextRegionVaddr : Nat}
theorem CopiesRegions.refl {r : Nat} (hf : s'.frames = s.frames) : CopiesRegions r [] s s' := by
  refine ⟨?_,?_,nofun,fun front g back hs => ?_⟩
  · intro x _ _
    rw [hf]
  · intro r' _ v _ _
    rw [hf]
  · exact absurd hs.symm (append_ne_nil_of_right_ne_nil _ (cons_ne_nil _ _))

theorem CopiesRegions.cons {memory : Region} {rest : List Region} {a : Nat} {q : PhysicalMemory}
    (h : Apportioned s (lentTo child (memory :: rest))) (hat : RecordOf s child p before after)
    (hreq : s.frames.physical.requestPages memory.pages = (some a,q))
    (hre : CopiesRegions child.cr3 rest (s.copied child memory a q) s') :
    CopiesRegions child.cr3 (memory :: rest) s s' := by
  obtain ⟨hgr,hru,-⟩ := copied_grants h hat hreq
  have hf := copied_contents h hat hreq
  have hro := hat.roots hgr.kernel hgr.processes rfl
  have hch := hat.cr3 ▸ root_of_process hat.mem
  obtain ⟨s1,hs1⟩ : ∃ s1, s1 = s.copied child memory a q := ⟨_,rfl⟩
  have hp := fun hwh hal i hi => copied_pages h hat hreq hwh hal
    (i := i) hi
  rw [← hs1] at hgr hru hf hro hp hre
  have hke := hgr.gives.keeps
  obtain ⟨hco,ho,hw,hcop⟩ := hre
  rw [hro] at hco ho hcop
  refine ⟨hf.trans hke hco,?_,?_,?_⟩
  · intro r' hr' v hv hn
    rw [ho r' hr' v hv fun ⟨hr,g,hg,hcov⟩ =>
      hn ⟨hr,g,mem_cons_of_mem _ hg,hcov⟩]
    refine hgr.gives.others r' hr' v hv fun ⟨hr,hcov⟩ => ?_
    exact hn ⟨hr.trans hat.cr3,memory,mem_cons_self,hcov⟩
  · intro g hg v hcov
    by_cases hl : ∃ g' ∈ rest, g'.Covers v
    · obtain ⟨g',hg',hc'⟩ := hl
      exact hw g' hg' v hc'
    rcases mem_cons.mp hg with rfl | hin
    · obtain ⟨i,-,rfl,e,he,-,hu,hwr⟩ := hru.here v hcov
      refine ⟨e,?_,hu,hwr⟩
      rw [ho _ hch _ (vpage_lt _) fun hc => hl hc.2,← hat.cr3]
      exact he
    · exact absurd ⟨g,hin,hcov⟩ hl
  intro front g back hsp ha hwh hkep i hi
  rcases cons_eq_append_iff.mp hsp with ⟨-,hh⟩ | ⟨front,-,hta⟩
  · -- no later region covers the page, and its frame stays as it is
    obtain ⟨rfl,rfl⟩ := cons.inj hh
    have hpa := hp hwh hkep.aligned i hi
    refine ⟨a / pageSize+i,?_,fun k hk => ?_⟩
    · obtain ⟨e,he,hs⟩ := hpa.shown
      refine ⟨e,?_,hs⟩
      rw [ho _ hch _ (vpage_lt _) fun ⟨_,g',hg',hc'⟩ =>
        ha g' hg' _ ⟨⟨i,hwh.mapped ▸ hi,rfl⟩,hc'⟩]
      exact he
    · obtain ⟨-,hlo,-,ht⟩ := hgr.gives.fresh _ (holds_page hi)
      rw [hco _ (by rwa [frame_div _ hk]) (by rwa [frame_div _ hk]),hpa.same k hk]
  · obtain ⟨f,hs,hsa⟩ := hcop front g back hta ha hwh (hkep.keeps hke) i hi
    refine ⟨f,hs,fun k hk => ?_⟩
    obtain ⟨hlo,ht⟩ := hkep.frames _ (holds_page hi)
    rw [hsa k hk,hf _ (by rwa [frame_div _ hk]) (by rwa [frame_div _ hk])]

theorem copies_spec (rest : List Region) (h : Apportioned s (lentTo child rest))
    (hat : RecordOf s child p before after)
    (hru : copyRegions child nextRegionVaddr rest s = some s') :
    CopiesRegions child.cr3 rest s s' ∧ ∃ copies next, s'.processes = before ++
        { p with memories := copies ++ p.memories, nextRegionVaddr := next } :: after ∧
      ∀ g' ∈ copies, ∃ g ∈ rest, g' = { g with paddr := g'.paddr } := by
  induction rest generalizing s p with
  | nil =>
    rw [copyRegions,Option.some.injEq] at hru
    refine ⟨.refl (hru ▸ rfl),[],nextRegionVaddr,?_,fun g hg => absurd hg not_mem_nil⟩
    rw [← hru,← hat.pid]
    exact hat.update _
  | cons memory rest ih =>
    obtain ⟨a,q,hreq,hre⟩ := copies_cons h hru
    obtain ⟨hgr,-⟩ := copied_grants h hat hreq
    have hm := copied_move s 0 h hat hreq
    obtain ⟨hc,copies,next,hp,hr⟩ := ih (h.moves hm) (hat.granted hgr) hre
    refine ⟨hc.cons h hat hreq,copies ++ [{ memory with paddr := a }],next,?_,?_⟩
    · rw [hp,append_assoc]
      rfl
    intro g' hg'
    rcases mem_append.mp hg' with hg' | hg'
    · obtain ⟨g,hg,hco⟩ := hr g' hg'
      exact ⟨g,mem_cons_of_mem _ hg,hco⟩
    · obtain rfl := mem_singleton.mp hg'
      exact ⟨memory,mem_cons_self,rfl⟩

theorem copies_progress (nextRegionVaddr : Nat) (rest : List Region) {c : Nat}
    (h : Apportioned s (lentTo child rest)) (hat : RecordOf s child p before after)
    (hpo : ∀ g ∈ rest, 0 < g.pages)
    (hr : s.frames.physical.Plenty c (rest.map pages).sum) :
    ∃ s', copyRegions child nextRegionVaddr rest s = some s' := by
  induction rest generalizing s p with
  | nil => exact ⟨_,rfl⟩
  | cons memory rest ih =>
    rw [map_cons,sum_cons] at hr
    obtain ⟨a,q,hreq,hl⟩ := hr.request h.maps.sound (hpo memory mem_cons_self)
    obtain ⟨hgr,-,hp⟩ := copied_grants h hat hreq
    have hm := copied_move s 0 h hat hreq
    rw [copies_granted h hreq]
    exact ih (h.moves hm) (hat.granted hgr)
      (fun g hg => hpo g (mem_cons_of_mem _ hg)) (by rw [hp]; exact hl)
end

structure Forks (s : Machine) (p : Process) (s' : Machine) (child : Process) : Prop where
  original : p ∈ s.processes
  call : s.step (.fork p.processID) = some s'
  there : child ∈ s'.processes
  new : child.processID = s.thePid+1

section
variable {s s' : Machine} {p child : Process}
theorem Apportioned.step_fork (h : Apportioned s fun _ => []) (hp : p ∈ s.processes) :
    s.step (.fork p.processID) = s.copyUserspaceProcess p := by
  obtain ⟨before,after,hat⟩ := exists_at h.pids hp
  rw [Machine.step,hat.process]
  rfl

theorem Forks.spec (h : Apportioned s fun _ => []) (hf : Forks s p s' child) :
    ∃ new s1, Starts s p.cr3 new s1 ∧ SameContents s.roots s.frames s1.frames ∧
      CopiesRegions child.cr3 p.memories s1 s' ∧ child.cr3 = new.cr3 ∧
      ∀ g' ∈ child.memories, ∃ g ∈ p.memories, g' = { g with paddr := g'.paddr } := by
  have hl : p.cr3 ∈ s.kernelMap :: s.processes.map Process.cr3 := mem_cons_of_mem _ (mem_map_of_mem hf.original)
  have hru := hf.call
  rw [h.step_fork hf.original,copyUserspaceProcess] at hru
  have ho : child ∉ s.processes := by
    intro hi
    have hk := h.known child hi
    rw [hf.new] at hk
    omega
  rcases h.start_cases hl with ⟨s1,hst,-,hsa⟩ | ⟨new,s1,hst,hs,hc⟩
  · rw [hst] at hru
    cases hru
    exact absurd (hsa ▸ hf.there) ho
  rw [hst] at hru
  obtain ⟨hco,copies,next,hp,hr⟩ := copies_spec p.memories
    (h.move (.fork hf.original hs)) ⟨hs.at h,rfl,rfl⟩ hru
  have hch := hf.there
  rw [hp,mem_append,mem_singleton,hs.empty,append_nil] at hch
  rcases hch with hi | rfl
  · exact absurd hi ho
  · exact ⟨new,s1,hs,hc,hco,rfl,hr⟩

theorem forks_of_room (h : Apportioned s fun _ => []) (hp : p ∈ s.processes) {c : Nat}
    (hpo : ∀ g ∈ p.memories, 0 < g.pages) (hr : s.frames.physical.Plenty c
      (tableCount s.frames.memory 3 p.cr3+(p.memories.map pages).sum)) :
    ∃ s' child, Forks s p s' child := by
  have hl : p.cr3 ∈ s.kernelMap :: s.processes.map Process.cr3 := mem_cons_of_mem _ (mem_map_of_mem hp)
  obtain ⟨new,s1,hst,hs,hle,-⟩ := h.start_room hl hr
  have ha1 := h.move (.fork hp hs)
  obtain ⟨s',hru⟩ := copies_progress p.nextRegionVaddr p.memories ha1 ⟨hs.at h,rfl,rfl⟩ hpo hle
  obtain ⟨-,copies,next,hpr,-⟩ := copies_spec p.memories ha1 ⟨hs.at h,rfl,rfl⟩ hru
  have hste : s.step (.fork p.processID) = some s' := by
    rw [h.step_fork hp,copyUserspaceProcess,hst]
    exact hru
  exact ⟨s',_,hp,hste,hpr ▸ mem_append_right _ mem_cons_self,rfl⟩

theorem Apportioned.kept {lent : Nat → List Region} (h : Apportioned s lent) (hp : p ∈ s.processes)
    (hg : g ∈ p.memories) : g.Kept s.roots s.frames := by
  refine ⟨h.aligned p hp g hg,fun f hf => ?_⟩
  obtain ⟨hl,-,-,ht⟩ := h.taken f (owners_pos hp hg hf)
  exact ⟨hl,ht⟩

theorem Forks.copies (h : Apportioned s fun _ => []) (hf : Forks s p s' child)
    (front : List Region) {back : List Region}
    (hsp : p.memories = front ++ g :: back) (ha : ∀ g' ∈ back, g.Apart g') (hw : g.Whole) (hi : i < g.pages) :
    ∃ f, PageCopied s'.frames.memory child.cr3 (vpage (g.vaddr+i * pageSize)) f s.frames.memory
      (g.paddr / pageSize+i) := by
  obtain ⟨new,s1,hs,hc,hco,-⟩ := hf.spec h
  have hg : g ∈ p.memories := by
    rw [hsp]
    exact mem_append_right _ mem_cons_self
  have hp1 : p ∈ s1.processes := hs.processes ▸ mem_append_left _ hf.original
  have hk1 := (h.move (.fork hf.original hs)).kept hp1 hg
  obtain ⟨f,hsh,hsa⟩ := hco.copied front g back hsp ha hw hk1 i hi
  refine ⟨f,hsh,fun k hk => ?_⟩
  obtain ⟨hl,ht⟩ := (h.kept hf.original hg).frames _ (holds_page hi)
  rw [hsa k hk,hc _ (by rwa [frame_div _ hk]) (by rwa [frame_div _ hk])]
end

/-- A frame that only the child has is a copy of each page of each region of the original,
provided the regions are whole pages and lie apart. The child is made when there is room. -/
theorem fork_copies {s : Machine} {p : Process} (h : Reachable Booted step sparing s)
    (hp : p ∈ s.processes) (hwhole : ∀ g ∈ p.memories, g.Whole)
    (hapart : p.memories.Pairwise Apart) :
    (∀ s' child, Forks s p s' child → ∀ g ∈ p.memories, ∀ i < g.pages, ∃ f,
      PageCopied s'.frames.memory child.cr3 (vpage (g.vaddr+i * pageSize)) f s.frames.memory
        (g.paddr / pageSize+i) ∧ s'.owners f = 1 ∧ ∃ g' ∈ child.memories, g'.Holds f) ∧
    ((∀ g ∈ p.memories, 0 < g.pages) → s.frames.physical.Roomy
        (tableCount s.frames.memory 3 p.cr3+(p.memories.map pages).sum) →
      ∃ s' child, Forks s p s' child) := by
  have hr := served_of_sparing h
  have hap := apportioned_of_run hr
  refine ⟨fun s' child hf g hg i hi => ?_,fun hpo hr => ?_⟩
  · obtain ⟨front,back,hs⟩ := append_of_mem hg
    have hl : ∀ g' ∈ back, g.Apart g' := by
      rw [hs] at hapart
      exact (pairwise_cons.mp (pairwise_append.mp hapart).2.1).1
    obtain ⟨f,hc⟩ := hf.copies hap front hs hl (hwhole g hg) hi
    have ha' := apportioned_of_run (.next hr hf.call trivial)
    obtain ⟨e,he,hu,ha⟩ := hc.shown
    have hfr : address e / pageSize = f := by rw [ha,PhysicalMemory.page_mul]
    obtain ⟨g',hg',hsh⟩ := ha'.confined child hf.there _ (vpage_lt _) f ⟨e,he,hu,hfr⟩
    rw [append_nil] at hg'
    have hpo := owners_pos hf.there hg' hsh.holds
    exact ⟨f,hc,le_antisymm (ha'.exclusive f) hpo,g',hg',hsh.holds⟩
  · exact forks_of_room hap hp hpo (hr.plenty hap.maps.sound)

section
variable {s : Machine} {p : Process} {before after : List Process} {addr : BitVec 64} {c k vaddr : Nat}
def onePage (vaddr a : Nat) : Region := ⟨vaddr,a,0x1000,userFlags⟩

theorem onePage_pages (vaddr a : Nat) : (onePage vaddr a).pages = 1 :=
  show pagesFor 0x1000 = 1 by decide

theorem onePage_holds (vaddr a : Nat) : (onePage vaddr a).Holds (a / pageSize) :=
  holds_page (i := 0) (by rw [onePage_pages]; exact one_pos)

theorem onePage_mapped (a : Nat) (hl : vaddr+pageSize < 2^64) : (onePage vaddr a).mappedPages = 1 := by
  have hv : vaddr < 2^64 := by omega
  rw [mappedPages,onePage_pages]
  exact (loop_eq hv (by decide)).trans (if_pos (by rwa [one_mul]))

theorem onePage_whole (a : Nat) (hl : vaddr+pageSize < 2^64) : (onePage vaddr a).Whole :=
  ⟨by rw [onePage_pages]; rfl,by rw [onePage_mapped a hl,onePage_pages]⟩

theorem map_page (hre : Reachable Booted step sparing s) (hat : At s p before after)
    (hro : s.frames.physical.Plenty c (1+(1 * 3+k))) (hn : addr ≠ 0)
    (hlow : addr.toNat+pageSize < 2^64) (hab : s.frames.physical.totalPages ≤ vpage addr.toNat) :
    ∃ s' p' a, Reachable Booted step sparing s' ∧ At s' p' before after ∧
      p'.processID = p.processID ∧ p'.memories = onePage addr.toNat a :: p.memories ∧
      userFrame s'.frames.memory p'.cr3 (vpage addr.toNat) = some (a / pageSize) ∧
      ¬ s.frames.physical.Locked (a / pageSize) ∧
      SameContents s.roots s.frames s'.frames ∧ s'.frames.physical.Plenty c k ∧
      s'.frames.physical.totalPages = s.frames.physical.totalPages := by
  have ha := apportioned_of_run (served_of_sparing hre)
  have hp : pagesFor (0x1000 : BitVec 64).toNat = 1 := by decide
  obtain ⟨hs,a,q,next,hreq,hg,hru,hl⟩ := sysMap_plenty addr 0x1000 0 ha hat hp one_pos hro
  have hpl : mapAddress p addr = addr.toNat := if_neg hn
  have hc : Frames.pageLoopCount addr.toNat 1 = 1 := by
    rw [loop_eq addr.isLt (by decide),one_mul,if_pos hlow]
  have hr : s.mappedRegion p addr 0x1000 = onePage addr.toNat a := by
    rw [mappedRegion,hpl,hp,region_granted hreq]
    rfl
  rw [hr] at hg
  rw [hpl,hc] at hru
  have hst : s.step (.map p.processID addr 0x1000 0) = some (s.sysMap p addr 0x1000 0) := by
    rw [step,hat.process]
    rfl
  have hgu : s.Served (.map p.processID addr 0x1000 0) := by
    intro p' hp'
    obtain rfl := Option.some.inj (hat.process.symm.trans hp')
    exact hs
  have hsp : Call.SparesRam s (.map p.processID addr 0x1000 0) := by
    intro p' hp' v hv
    obtain rfl := Option.some.inj (hat.process.symm.trans hp')
    rw [hpl,hp] at hv
    obtain ⟨i,hi,rfl⟩ := mem_runPages.mp hv
    rwa [Nat.lt_one_iff.mp hi,zero_mul,add_zero]
  have hf : vpage addr.toNat = vpage (addr.toNat+0 * pageSize) := by rw [zero_mul,add_zero]
  obtain ⟨i,hi,-,hfr⟩ := hru.user (by decide) _ ⟨0,one_pos,hf⟩
  obtain rfl : i = 0 := Nat.lt_one_iff.mp hi
  obtain ⟨page,-,-,hgr,-,-⟩ := ha.maps.sound.requestPages hreq
  obtain ⟨hfre,-⟩ := hg.gives.fresh _ (onePage_holds addr.toNat a)
  refine ⟨_,_,a,.next hre hst ⟨hgu,hsp⟩,⟨hg.processes,hat.others⟩,rfl,rfl,hfr,
    hfre,fun x hlo ht => ?_,hl,hg.gives.keeps.total⟩
  exact hru.contents x (hgr.locked.mpr (.inl hlo)) ht

theorem map_store (addr : BitVec 64) (hr : Reachable Booted step sparing s) (hat : At s p before after)
    (hro : s.frames.physical.Plenty c (1+(1 * 3+k))) (byte : BitVec 8) (hn : addr ≠ 0)
    (ha : addr.toNat % pageSize = 0) (hlo : addr.toNat+pageSize < 2^64)
    (hab : s.frames.physical.totalPages ≤ vpage addr.toNat) :
    ∃ s' p' a, Reachable Booted step sparing s' ∧ At s' p' before after ∧
      p'.memories = onePage addr.toNat a :: p.memories ∧
      s'.UserMapped p' (vpage addr.toNat) (a / pageSize) ∧ s'.frames.memory a = byte ∧
      SameContents s.roots s.frames s'.frames ∧ s'.frames.physical.Plenty c k ∧
      s'.frames.physical.totalPages = s.frames.physical.totalPages := by
  obtain ⟨s1,p1,a,hr1,hat1,-,hm,hf,hfr,hsa,hle,ht⟩ := map_page hr hat hro hn hlo hab
  have ha1 := apportioned_of_run (served_of_sparing hr1)
  have hg : onePage addr.toNat a ∈ p1.memories := by
    rw [hm]
    exact mem_cons_self
  have hk := ha1.kept hat1.mem hg
  have hs : a / pageSize * pageSize+addr.toNat % pageSize = a := by
    rw [ha,add_zero]
    exact page_mul_div hk.aligned
  have hst : s1.step (.store p1.processID addr byte) = some (s1.write (s1.frames.memory.write8 a byte)) := by
    rw [step,hat1.process,Option.map_some,userStore,hf]
    dsimp only
    rw [hs]
  obtain ⟨-,hta⟩ := hk.frames _ (onePage_holds addr.toNat a)
  obtain ⟨-,-,hke⟩ := ha1.write (m := s1.frames.memory.write8 a byte) (by
    intro x hx
    refine Bytes.write8_outside _ _ fun he => hta ?_
    rwa [he] at hx)
  obtain ⟨e,he,hsh⟩ := translate_of_userFrame hf
  refine ⟨_,p1,a,.next hr1 hst ⟨trivial,trivial⟩,hat1.write _,hm,⟨e,?_,hsh⟩,
    Bytes.write8_same _ _ _,fun x hl ht' => ?_,hle,ht⟩
  · exact (hke _ (root_of_process hat1.mem) _ (vpage_lt _)).trans he
  · refine (Bytes.write8_outside _ _ fun hx => hfr ?_).trans (hsa x hl ht')
    rwa [hx] at hl
end

section
variable {s : Machine} {p : Process}
theorem forks_small (h : Apportioned s fun _ => []) (hp : p ∈ s.processes)
    (hto : s.frames.physical.totalPages = 512) {k : Nat}
    (hr : s.frames.physical.Plenty 448 k) (hpo : ∀ g ∈ p.memories, 0 < g.pages)
    (hsu : (p.memories.map pages).sum+64 ≤ 2 * k) : ∃ s' child, Forks s p s' child := by
  have ht := h.maps.tableCount_le (root_of_process hp)
  have hs := hr.spare
  exact forks_of_room h hp hpo (hr.mono (by omega))

theorem OneProcess.pages (h : OneProcess s p) : (∀ g ∈ p.memories, 0 < g.pages) ∧ (p.memories.map pages).sum = 5 := by
  obtain ⟨a,b,hm⟩ := h.memories
  have hs : (stackRegion [codeHeader] a).pages = 4 := stack_pages _ a
  have hc := segment_pages codeHeader b
  rw [hm]
  constructor
  · intro g hg
    rcases mem_cons.mp hg with rfl | hg
    · rw [hs]
      decide
    · rw [mem_singleton.mp hg,hc]
      decide
  · rw [map_cons,map_singleton,hs,hc]
    rfl

theorem OneProcess.forks (h : OneProcess s p) : ∃ s' child, Forks s p s' child := by
  obtain ⟨hp,hs⟩ := h.pages
  exact forks_small (apportioned_of_run h.served) h.only.mem h.total h.plenty hp (by rw [hs]; decide)

theorem OneProcess.covers_le {s' : Machine} {p' : Process} {v : Nat}
    (h : OneProcess s p) (h' : Apportioned s' fun _ => []) (hp' : p' ∈ s'.processes)
    (hs : ∀ g ∈ p.memories, g ∈ p'.memories) (ht : s'.frames.physical.totalPages = 512)
    (hg : g ∈ p.memories) (hc : g.Covers v) : v ≤ 512 := by
  obtain ⟨a,b,hm⟩ := h.memories
  have hi := hs g hg
  rw [hm] at hg
  rcases mem_cons.mp hg with rfl | hg
  · exact (ht ▸ h'.stack_covers hp' hi hc).le
  · obtain rfl := mem_singleton.mp hg
    exact (code_covers hc).le

theorem OneProcess.tidy (h : OneProcess s p) : (∀ g ∈ p.memories, g.Whole) ∧ p.memories.Pairwise Apart := by
  have ha := apportioned_of_run h.served
  obtain ⟨a,b,hm⟩ := h.memories
  have hw := small_whole.segments codeHeader mem_cons_self rfl
  have hs : stackRegion [codeHeader] a ∈ p.memories := by simp [hm]
  have hp : (stackRegion [codeHeader] a).pages = 4 := stack_pages _ a
  rw [hm]
  refine ⟨forall_mem_cons.mpr ⟨⟨?_,?_⟩,forall_mem_singleton.mpr ⟨?_,?_⟩⟩, pairwise_cons.mpr ⟨?_,pairwise_singleton _ _⟩⟩
  · rw [hp]
    rfl
  · have hh := holds_page (g := stackRegion [codeHeader] a) (i := 0)
      (by rw [hp]; decide)
    have hf := (ha.taken _ (owners_pos h.only.mem hs hh)).2.1
    have hl : a+4 * pageSize < 2^64 := by
      rw [stack_paddr,h.total] at hf
      unfold pageSize at hf ⊢
      omega
    rw [mappedPages,hp,stack_vaddr,loop_eq (by omega) (by decide)]
    exact if_pos hl
  · rw [segment_pages]
    rfl
  · rw [segment_mapped hw,segment_pages]
  · rintro g hg v ⟨hl,hhi⟩
    obtain rfl := mem_singleton.mp hg
    have hlt := ha.stack_covers h.only.mem hs hl
    rw [h.total,code_covers hhi] at hlt
    exact absurd hlt (lt_irrefl 512)

theorem fork_copies_small : ∃ s p s' child, Reachable Booted step sparing s ∧ Forks s p s' child ∧
    ∀ g ∈ p.memories, ∀ i < g.pages, ∃ f,
      PageCopied s'.frames.memory child.cr3 (vpage (g.vaddr+i * pageSize)) f s.frames.memory
        (g.paddr / pageSize+i) ∧ s'.owners f = 1 ∧ ∃ g' ∈ child.memories, g'.Holds f := by
  obtain ⟨p,h⟩ := small_oneProcess
  obtain ⟨hw,ha⟩ := h.tidy
  obtain ⟨s',child,hf⟩ := h.forks
  obtain ⟨hc,-⟩ := fork_copies h.reachable h.only.mem hw ha
  exact ⟨_,p,s',child,h.reachable,hf,hc s' child hf⟩

/-- A process maps a page twice at the same address. It sees the second region there, and its
child the first one. -/
theorem fork_mixes_regions : ∃ s p s' child g f, Reachable Booted step sparing s ∧
    Forks s p s' child ∧ g ∈ p.memories ∧ 0 < g.pages ∧
    s.UserMapped p (vpage g.vaddr) (g.paddr / pageSize) ∧ s.frames.memory g.paddr = 2 ∧
    s'.UserMapped child (vpage g.vaddr) f ∧ s'.frames.memory (f * pageSize) = 1 := by
  obtain ⟨p,h⟩ := small_oneProcess
  obtain ⟨s1,p1,a,hr1,hat1,hm1,-,hfi,-,hl1,ht1⟩ :=
    map_store 0x300000 (k := 42) h.reachable h.only h.plenty 1 (by decide) (by decide)
      (by decide) (by rw [h.total]; decide)
  obtain ⟨s2,p2,b,hr2,hat2,hm2,hse,hs,hsa,hl2,ht2⟩ :=
    map_store 0x300000 (k := 38) hr1 hat1 hl1 2 (by decide) (by decide)
      (by decide) (by rw [ht1,h.total]; decide)
  have ha1 := apportioned_of_run (served_of_sparing hr1)
  have ha2 := apportioned_of_run (served_of_sparing hr2)
  rw [hm1] at hm2
  have ht := ht2.trans (ht1.trans h.total)
  obtain ⟨hpo,hsu⟩ := h.pages
  obtain ⟨s3,child,hf⟩ := forks_small ha2 hat2.mem ht hl2
    (by
      rw [hm2]
      refine forall_mem_cons.mpr ⟨?_,forall_mem_cons.mpr ⟨?_,hpo⟩⟩
      · rw [onePage_pages]
        decide
      · rw [onePage_pages]
        decide)
    (by
      rw [hm2,map_cons,map_cons,sum_cons,sum_cons,hsu,onePage_pages,onePage_pages]
      decide)
  -- the first region is copied after the second one, and lies apart from the others
  have hlo : (0x300000 : BitVec 64).toNat+pageSize < 2^64 := by decide
  have hsub : ∀ g ∈ p.memories, g ∈ p2.memories := by
    intro g hg
    rw [hm2]
    exact mem_cons_of_mem _ (mem_cons_of_mem _ hg)
  have ha : ∀ g ∈ p.memories, (onePage (0x300000 : BitVec 64).toNat a).Apart g := by
    rintro g hg v ⟨⟨i,hi,rfl⟩,hc⟩
    rw [onePage_mapped a hlo] at hi
    obtain rfl : i = 0 := Nat.lt_one_iff.mp hi
    have hle := h.covers_le ha2 hat2.mem hsub ht hg hc
    have hpa : vpage ((0x300000 : BitVec 64).toNat+0 * pageSize) = 768 := by decide
    have hp : (onePage (0x300000 : BitVec 64).toNat a).vaddr = (0x300000 : BitVec 64).toNat :=
      rfl
    rw [hp,hpa] at hle
    omega
  obtain ⟨f,⟨e,he,hu,had⟩,hco⟩ := hf.copies ha2
    [onePage (0x300000 : BitVec 64).toNat b] hm2 ha (onePage_whole a hlo)
    (i := 0) (by rw [onePage_pages]; exact one_pos)
  have hk := ha1.kept hat1.mem (hm1 ▸ mem_cons_self)
  obtain ⟨hl,hta⟩ := hk.frames _ (onePage_holds _ a)
  refine ⟨s2,p2,s3,child,onePage (0x300000 : BitVec 64).toNat b,f,hr2,hf,
    hm2 ▸ mem_cons_self,by rw [onePage_pages]; exact one_pos,hse,hs,
    ⟨e,he,hu,?_⟩,?_⟩
  · rw [had,PhysicalMemory.page_mul]
  have hb := hco 0 (by decide)
  rw [add_zero,add_zero,add_zero] at hb
  rw [hb,← hfi]
  have hst := page_mul_div hk.aligned
  exact (congrArg s2.frames.memory hst).trans (hsa a hl hta)
end
end Machine
end LensorOS.Memory
