import LensorOS.Memory.Boot

/-!
# Frames that `map` gives to a process

While requests are met, a frame that `map` gives to a process was free before. A `map` whose request
is refused goes on with the null address.
-/
namespace LensorOS.Memory
open Framework PageDirectoryEntry List Frames
namespace Machine
def Call.Takes (pid : Nat) (g : Region) : Call → Prop
  | .unmap caller address => caller = pid ∧ g.vaddr = address.toNat
  | .exec caller _ => caller = pid
  | .exit caller => caller = pid
  | _ => False

def Change.Takes (pid : Nat) (g : Region) : Change → Prop
  | .drop p gone => p.processID = pid ∧ g ∈ gone
  | .discard p => p.processID = pid
  | _ => False

/-- Each frame of a region is locked and in no other region, user code reaches frames of its
process's regions only, and the frames in no region are those released as often as they were
handed out. -/
structure FramesOwned (s : Machine) : Prop where
  held : ∀ pid g, s.HasRegion pid g → ∀ f, g.Holds f → s.frames.physical.Locked f ∧ s.owners f = 1
  accessible : ∀ p ∈ s.processes, ∀ v < 2^36, ∀ f, s.UserMapped p v f →
    ∃ g, s.HasRegion p.processID g ∧ g.Shows v f
  released : ∀ f, replay s.log f = some (decide (s.owners f = 1))

/-- The frames that a `map` of `pid` makes accessible were free, and are those of a region of
`pid`. -/
def GainsFree (s : Machine) (pid : Nat) (s' : Machine) : Prop :=
  ∀ p ∈ s'.processes, ∀ v < 2^36, ∀ f, s'.UserMapped p v f →
    (∃ q ∈ s.processes, q.processID = p.processID ∧ s.UserMapped q v f) ∨
      p.processID = pid ∧ ¬ s.frames.physical.Locked f ∧ s.owners f = 0 ∧
        ∃ g, s'.HasRegion pid g ∧ ¬ s.HasRegion pid g ∧ g.Shows v f ∧ s'.owners f = 1

variable {s : Machine}
theorem Apportioned.framesOwned (h : Apportioned s fun _ => []) : FramesOwned s := by
  refine ⟨?_,?_,h.log⟩
  · rintro pid g ⟨p,hp,-,hg⟩ f hf
    have hpo := owners_pos hp hg hf
    exact ⟨(h.taken f hpo).1,le_antisymm (h.exclusive f) hpo⟩
  intro p hp v hv f hf
  obtain ⟨g,hg,hs⟩ := h.confined p hp v hv f hf
  rw [append_nil] at hg
  exact ⟨g,⟨p,hp,rfl,hg⟩,hs⟩

section
variable {s s' : Machine} {lent lent' : Nat → List Region} {c : Change} {pid : Nat} {g : Region} {call : Call}
theorem At.hasRegion {p p' : Process} {before after : List Process}
    (ha : At s p before after) (hs : s'.processes = before ++ p' :: after)
    (hp : p'.processID = p.processID) (h : s.HasRegion pid g)
    (hh : p.processID = pid → g ∈ p.memories → g ∈ p'.memories) : s'.HasRegion pid g := by
  obtain ⟨q,hq,rfl,hg⟩ := h
  rcases ha.mem_iff.mp hq with rfl | hq
  · exact ⟨p',by rw [hs]; simp,hp,hh rfl hg⟩
  refine ⟨q,?_,rfl,hg⟩
  rw [hs]
  simp only [mem_append,mem_cons] at hq ⊢
  tauto

theorem Move.hasRegion (hm : Move s lent c s' lent') (h : s.HasRegion pid g)
    (hk : ¬ c.Takes pid g) : s'.HasRegion pid g := by
  cases hm with
  | grant ha hgr =>
    exact ha.hasRegion hgr.processes rfl h fun _ hg => mem_cons_of_mem _ hg
  | drop ha hdr =>
    refine ha.hasRegion hdr.processes rfl h fun hp hg => ?_
    rcases mem_append.mp (hdr.parts.mem_iff.mp hg) with hgo | hr
    · exact absurd ⟨hp,hgo⟩ hk
    · exact hr
  | discard ha hd =>
    obtain ⟨q,hq,rfl,hg⟩ := h
    rcases ha.mem_iff.mp hq with rfl | hq
    · exact absurd rfl hk
    · exact ⟨q,hd.processes ▸ hq,rfl,hg⟩
  | create hs | fork _ hs =>
    obtain ⟨q,hq,hp,hg⟩ := h
    exact ⟨q,hs.processes ▸ mem_append_left _ hq,hp,hg⟩
  | steady _ _ _ _ _ hv =>
    obtain ⟨q,hq,rfl,hg⟩ := h
    obtain ⟨q',hq',hsa⟩ := mem_of_view hv.symm hq
    obtain ⟨hp,-,hme⟩ : q'.processID = q.processID ∧ q'.cr3 = q.cr3 ∧
        q'.memories = q.memories := by simpa [view] using hsa
    exact ⟨q',hq',hp,hme ▸ hg⟩
  | reap =>
    unfold reapPageMaps
    split
    · exact h
    · exact h

theorem Causes.takes {s1 : Machine} (hc : Causes s call s1 lent c)
    (ht : c.Takes pid g) : call.Takes pid g := by
  cases hc with
  | other | map | copy | segment | stack => exact ht.elim
  | unmap hp _ hpl =>
    obtain ⟨-,hpi⟩ := process_some hp
    obtain ⟨hs,hg⟩ := ht
    obtain rfl := mem_singleton.mp hg
    exact ⟨hpi.symm.trans hs,hpl⟩
  | exec hp => exact (process_some hp).2.symm.trans ht.1
  | exit hp => exact (process_some hp).2.symm.trans ht

theorem Moves.hasRegion {s0 : Machine}
    (hm : Moves (Causes s0 call) s lent s' lent') (h : s.HasRegion pid g)
    (hk : ¬ call.Takes pid g) : s'.HasRegion pid g := by
  induction hm with
  | refl => exact h
  | next _ hca hmo ih => exact hmo.hasRegion ih fun hc => hk (hca.takes hc)
end

section
variable {s s' : Machine} {p : Process} {before after : List Process} {g : Region} {next : Nat}
theorem Grants.hasRegion (hg : Grants s p before after g next s') : s'.HasRegion p.processID g := by
  refine ⟨{ p with memories := g :: p.memories, nextRegionVaddr := next },?_,rfl,mem_cons_self⟩
  rw [hg.processes]
  exact mem_append_right _ mem_cons_self

theorem Grants.gainsFree (h : Apportioned s fun _ => []) (hat : At s p before after)
    (hgr : Grants s p before after g next s') (hap : Apportioned s' fun _ => []) :
    GainsFree s p.processID s' := by
  intro q hq v hv f hf
  obtain ⟨e,he,hu,ha⟩ := hf
  have hol : ∀ q0 ∈ s.processes, q0.cr3 = q.cr3 → q0.processID = q.processID →
      ¬ (q.cr3 = p.cr3 ∧ g.Covers v) →
      ∃ q0 ∈ s.processes, q0.processID = q.processID ∧ s.UserMapped q0 v f := by
    intro q0 hq0 hc3 hp hno
    have hr := hc3 ▸ root_of_process hq0
    rw [hgr.gives.others q.cr3 hr v hv hno,← hc3] at he
    exact ⟨q0,hq0,hp,e,he,hu,ha⟩
  have ht : At s' { p with memories := g :: p.memories, nextRegionVaddr := next } before after :=
    ⟨hgr.processes,hat.others⟩
  rcases ht.mem_iff.mp hq with rfl | ho
  · by_cases hco : g.Covers v
    · right
      obtain ⟨f',e',hs,he',ha'⟩ := hgr.gives.here v hco
      obtain rfl := Option.some.inj (he.symm.trans he')
      have hfr : f' = f := by rw [← ha,ha',Nat.mul_div_cancel _ (by decide)]
      subst hfr
      obtain ⟨hfre,-⟩ := hgr.gives.fresh f' hs.holds
      have hn : s.owners f' = 0 := by
        by_contra hne
        exact hfre (h.taken f' (pos_of_ne_zero hne)).1
      refine ⟨rfl,hfre,hn,g,hgr.hasRegion,?_,hs,
        (hap.framesOwned.held _ _ hgr.hasRegion f' hs.holds).2⟩
      rintro ⟨q0,hq0,-,hg⟩
      exact (owners_pos hq0 hg hs.holds).ne' hn
    · exact .inl (hol p hat.mem rfl rfl fun hc => hco hc.2)
  · have hi := hat.mem_iff.mpr (.inr ho)
    refine .inl (hol q hi rfl rfl fun hc => ?_)
    exact hat.cr3_ne h.distinct ho hc.1
end

/-- In a run whose calls are served and spare RAM, every frame is owned as it should be. A further
such call keeps this; a `map` makes only free frames accessible, and its region stays until it is
taken. -/
theorem framesOwned_run {s : Machine} (h : Reachable Booted step sparing s) :
    FramesOwned s ∧ ∀ call s', sparing s call s' → s.step call = some s' → FramesOwned s' ∧
      (∀ pid address size flags, call = .map pid address size flags → s.GainsFree pid s') ∧
      ∀ pid g, s.HasRegion pid g → ¬ call.Takes pid g → s'.HasRegion pid g := by
  have ha := apportioned_of_run (served_of_sparing h)
  refine ⟨ha.framesOwned,fun call s' ⟨hs,_⟩ hst => ?_⟩
  have hm := step_moves ha hs hst
  have ha' := ha.moves hm
  refine ⟨ha'.framesOwned,?_,fun pid g hg hk => hm.hasRegion hg hk⟩
  rintro pid address size flags rfl
  obtain ⟨p,hp,rfl⟩ := Option.map_eq_some_iff.mp hst
  obtain ⟨hme,rfl⟩ := process_some hp
  obtain ⟨before,after,hat⟩ := exists_at ha.pids hme
  obtain ⟨next,hgr⟩ := sysMap_grants address size flags ha hat (hs p hp)
  exact hgr.gainsFree ha hat ha'

section
variable {s : Machine} {p : Process} {before after : List Process} {size : BitVec 64} {n : Nat} {q : PhysicalMemory}
theorem sysMap_refused (address flags : BitVec 64) (h : Apportioned s fun _ => []) (ha : At s p before after)
    (hn : pagesFor size.toNat = n) (hsm : pageLoopCount (mapAddress p address) n ≤ 2^40)
    (hre : s.frames.physical.requestPages n = (none,q))
    (hs : (missing s.frames.memory p.cr3 (requestedPages p address size)).card ≤ q.freeCount) :
    MapsRun s.roots p.cr3 (mapAddress p address) 0 (pageLoopCount (mapAddress p address) n)
      userFlags ⟨s.frames.memory,q⟩ (s.sysMap p address size flags).frames := by
  obtain ⟨hso,hma,ht⟩ := h.maps.sound.request_refused hre
  have hm := ((Grows.of_same hso hma ht).keeps h.maps).maps
  have hr := root_of_process ha.mem
  rw [requestedPages,hn] at hs
  rw [sysMap_frames,hn,region_refused hre,mapPages,← zero_mul pageSize]
  exact (mapRun_spec hm hr (fun hz => h.nonzero (hz ▸ hr))
    (show flag userFlags .present = true by decide) (by omega)
    (fun i hi => mem_runPages.mpr ⟨i,hi,rfl⟩) hs).1

theorem Apportioned.request_all (h : Apportioned s fun _ => [])
    (hn : s.frames.physical.totalPages = n) :
    ∃ q, s.frames.physical.requestPages n = (none,q) := by
  cases hr : s.frames.physical.requestPages n with
  | mk found q =>
    cases found with
    | none => exact ⟨q,rfl⟩
    | some a =>
      obtain ⟨page,-,hp,hg,hi,-⟩ := h.maps.sound.requestPages hr
      exact absurd h.null.1 (hg.clear 0 (by omega) (by omega))
end

theorem OneProcess.sysMap_null {p : Process} (h : OneProcess s p) :
    ∃ s', s.step (.map 1 0x1000 0x200000 0) = some s' ∧
      s.frames.physical.Locked 0 ∧ (∀ v < 2^36, ¬ s.UserMapped p v 0) ∧
      ∃ p' ∈ s'.processes, p'.processID = p.processID ∧ s'.UserMapped p' 1 0 := by
  have hap := apportioned_of_run h.served
  obtain ⟨q,hre⟩ := hap.request_all h.total
  have hp : mapAddress p 0x1000 = 4096 := rfl
  have hpa : pagesFor (0x200000 : BitVec 64).toNat = 512 := by decide
  have hc : pageLoopCount 4096 512 = 512 := by decide
  have hpag : ∀ i < 512, vpage (4096+i * pageSize) = i+1 := by
    intro i hi
    unfold vpage pageSize
    omega
  have ht : missing s.frames.memory p.cr3 (runPages 4096 512) = ∅ := by
    refine missing_eq_empty fun v hv => ?_
    obtain ⟨i,hi,rfl⟩ := mem_runPages.mp hv
    rw [hpag i hi]
    by_cases hl : i+1 < 512
    · refine hap.window p.cr3 (mem_cons_of_mem _ (mem_map_of_mem h.only.mem)) _ ?_
      rwa [h.total]
    -- the last page is that of the code, right above RAM
    obtain ⟨e,he,-⟩ := h.code
    have hco : i+1 = 512 := by omega
    rw [hco]
    exact pageTable_of_translate he
  have hr := sysMap_refused 0x1000 0 hap h.only hpa (by rw [hp,hc]; decide) hre
    (by rw [requestedPages,hp,hpa,hc,ht]; exact Nat.zero_le _)
  rw [hp,hc] at hr
  have hf : 1 = vpage (4096+0 * pageSize) := by decide
  obtain ⟨i,hlt,hi,e,he,ha,hu,-⟩ := hr.here 1 ⟨0,by decide,hf⟩
  have hz : i = 0 := by
    rw [hpag i hlt] at hi
    omega
  subst hz
  obtain ⟨next,hpr⟩ := sysMap_processes 0x1000 0x200000 0 h.only
  have hth : { p with
      memories := s.mappedRegion p 0x1000 0x200000 :: p.memories,
      nextRegionVaddr := next } ∈ (s.sysMap p 0x1000 0x200000 0).processes := by
    rw [hpr]
    exact mem_append_right _ mem_cons_self
  refine ⟨s.sysMap p 0x1000 0x200000 0,?_,hap.null.1,?_,_,hth,rfl,e,he,hu,?_⟩
  · rw [step,← h.processID,h.only.process]
    rfl
  · -- frame zero is in no region
    intro v hv hm
    obtain ⟨g,⟨q,hq,-,hg⟩,hs⟩ := hap.framesOwned.accessible p h.only.mem v hv 0 hm
    exact (hap.taken 0 (owners_pos hq hg hs.holds)).2.2.1 rfl
  · rw [ha]
    rfl

/-- A `map` that is refused its frames makes a locked frame accessible. -/
theorem sysMap_takes_locked : ∃ s s' p p', Reachable Booted step sparing s ∧
    s.step (.map 1 0x1000 0x200000 0) = some s' ∧ p ∈ s.processes ∧ p' ∈ s'.processes ∧
    p'.processID = p.processID ∧ s.frames.physical.Locked 0 ∧
    (∀ v < 2^36, ¬ s.UserMapped p v 0) ∧ s'.UserMapped p' 1 0 := by
  obtain ⟨p,h⟩ := small_oneProcess
  obtain ⟨s',hs,hl,hn,p',hp',hp,hm⟩ := h.sysMap_null
  exact ⟨_,s',p,p',h.reachable,hs,h.only.mem,hp',hp,hl,hn,hm⟩

theorem OneProcess.sysMap_served {p : Process} (h : OneProcess s p) :
    ∃ s', sparing s (.map 1 0x300000 0x1000 0) s' ∧ s.step (.map 1 0x300000 0x1000 0) = some s' := by
  have ha := apportioned_of_run h.served
  have hp : pagesFor (0x1000 : BitVec 64).toNat = 1 := by decide
  obtain ⟨hm,-⟩ := sysMap_plenty 0x300000 0x1000 0 ha h.only hp one_pos
    (h.plenty.mono (show 1+(1 * 3+42) ≤ 46 by decide))
  have hpr := h.only.process
  rw [h.processID] at hpr
  refine ⟨s.sysMap p 0x300000 0x1000 0,⟨fun p' hp' => ?_,fun p' hp' => ?_⟩,?_⟩
  · obtain rfl := Option.some.inj (hpr.symm.trans hp')
    exact hm
  · rw [h.total]
    exact (by decide : ∀ v ∈ runPages 0x300000 (pagesFor 0x1000), 512 ≤ v)
  · rw [step,hpr]
    rfl

theorem framesOwned_run_small : ∃ s s', Reachable Booted step sparing s ∧
    sparing s (.map 1 0x300000 0x1000 0) s' ∧ s.step (.map 1 0x300000 0x1000 0) = some s' ∧
    FramesOwned s ∧ FramesOwned s' ∧ s.GainsFree 1 s' := by
  obtain ⟨p,h⟩ := small_oneProcess
  obtain ⟨s',hs,hst⟩ := h.sysMap_served
  obtain ⟨ho,hr⟩ := framesOwned_run h.reachable
  obtain ⟨ho',hg,-⟩ := hr _ _ hs hst
  exact ⟨_,s',h.reachable,hs,hst,ho,ho',hg 1 _ _ _ rfl⟩

/-- No table is shared, and none is in a region. -/
theorem tables_separate (h : Reachable Booted step sparing s) :
    PageMaps s.frames s.roots ∧ ∀ f, TablePage s.frames s.roots f → s.owners f = 0 := by
  have ha := apportioned_of_run (served_of_sparing h)
  refine ⟨ha.maps,fun f hf => ?_⟩
  by_contra hn
  exact (ha.taken f (by omega)).2.2.2 hf

theorem tables_separate_small : ∃ s p, OneProcess s p ∧ PageMaps s.frames s.roots := by
  obtain ⟨p,h⟩ := small_oneProcess
  exact ⟨_,p,h,(tables_separate h.reachable).1⟩

section
variable {s : Machine} {p : Process}
/-- A `map` that asks only for pages that are not mapped keeps all that are, whether it gets its
frames or not, if it gets the tables on the way. -/
theorem sysMap_keeps_mapped (h : Reachable Booted step sparing s) (hp : p ∈ s.processes)
    (address size flags : BitVec 64)
    (htables : (missing s.frames.memory p.cr3 (requestedPages p address size)).card ≤
      (s.frames.physical.requestPages (pagesFor size.toNat)).2.freeCount)
    (hclear : ∀ v ∈ requestedPages p address size, translate s.frames.memory p.cr3 v = none) :
    ∀ v < 2^36, ∀ e, translate s.frames.memory p.cr3 v = some e →
      translate (s.sysMap p address size flags).frames.memory p.cr3 v = some e := by
  intro v hv e he
  have ha := apportioned_of_run (served_of_sparing h)
  obtain ⟨before,after,hat⟩ := exists_at ha.pids hp
  have hr := root_of_process hp
  have hou : v ∉ requestedPages p address size := fun hi => by
    rw [hclear v hi] at he
    cases he
  -- otherwise the run would go round the whole address space
  have hs : pageLoopCount (mapAddress p address) (pagesFor size.toNat) < 2^36 := by
    by_contra hl
    exact hou (mem_runPages_long (not_lt.mp hl) hv)
  have ho : ¬ (p.cr3 = p.cr3 ∧
      ∃ i < pageLoopCount (mapAddress p address) (pagesFor size.toNat),
        v = vpage (mapAddress p address+i * pageSize)) := fun hi => hou (mem_runPages.mpr hi.2)
  cases hre : s.frames.physical.requestPages (pagesFor size.toNat) with
  | mk found q =>
    rw [hre] at htables
    cases found with
    | some a =>
      obtain ⟨-,-,hru,-⟩ := sysMap_granted address size flags ha hat hre htables
      exact (hru.others p.cr3 hr v hv ho).trans he
    | none =>
      have hru := sysMap_refused address flags ha hat rfl (by omega) hre htables
      exact (hru.others p.cr3 hr v hv ho).trans he

theorem requestedPages_code (p : Process) : requestedPages p 0x200000 0x1000 = {512} := by
  have hc : pageLoopCount 0x200000 1 = 1 := by decide
  show runPages 0x200000 (pageLoopCount 0x200000 1) = {512}
  rw [hc]
  decide

theorem OneProcess.unmap_spares (h : OneProcess s p) :
    Call.SparesRam s (.unmap p.processID 0x200000) := by
  have ha := apportioned_of_run h.served
  obtain ⟨a,b,hm⟩ := h.memories
  have hs : stackRegion [codeHeader] a ∈ p.memories := by simp [hm]
  have hl : ∀ g ∈ p.memories, ∀ f, g.Holds f → f < 512 :=
    fun g hg f hf => h.total ▸ (ha.taken f (owners_pos h.only.mem hg hf)).2.1
  intro p' hp' g hg hv g' hg'
  obtain rfl := Option.some.inj (h.only.process.symm.trans hp')
  obtain rfl := mem_singleton.mp hg'
  have hco : g' = segmentRegion codeHeader b := by
    rw [hm,mem_pair] at hg
    refine hg.resolve_left ?_
    rintro rfl
    have hf := hl _ hs _ ⟨le_rfl,Nat.lt_add_of_pos_right (by rw [stack_pages]; decide)⟩
    rw [stack_paddr,show a = 0x200000 from hv] at hf
    exact absurd hf (by decide)
  subst hco
  refine ⟨fun f hf hc => ?_,fun f hf pid g ⟨q,hq,_,hgq⟩ hc => ?_⟩
  · rw [h.total,code_covers hc] at hf
    omega
  obtain rfl : q = p := by simpa [h.only.split] using hq
  rw [hm,mem_pair] at hgq
  rcases hgq with rfl | rfl
  · -- the stack is where its frames are, and the frame of the code is none of them
    have hst := hc.holds_own (ha.aligned q h.only.mem _ hs) rfl
      fun f' hf' => (hl _ hs f' hf').trans (by decide)
    have hex := ha.exclusive f
    rw [h.only.owners,hm,holders_cons,holders_cons,if_pos hf,if_pos hst] at hex
    omega
  · have hlt := hl _ hg f hf
    rw [code_covers hc] at hlt
    omega

/-- The program gives its code back and asks for memory in its place. -/
theorem sysMap_keeps_mapped_unmapped : ∃ s p, Reachable Booted step sparing s ∧ p ∈ s.processes ∧
    requestedPages p 0x200000 0x1000 = {512} ∧
    ∀ v < 2^36, ∀ e, translate s.frames.memory p.cr3 v = some e →
      translate (s.sysMap p 0x200000 0x1000 0).frames.memory p.cr3 v = some e := by
  obtain ⟨s,p,h⟩ : ∃ s p, OneProcess s p := ⟨_,small_oneProcess⟩
  have ha := apportioned_of_run h.served
  obtain ⟨a,b,hm⟩ := h.memories
  obtain ⟨g,hf⟩ : ∃ g, p.memories.find? (fun g => g.vaddr == (0x200000 : BitVec 64).toNat) =
      some g := by
    rw [← Option.isSome_iff_exists,find?_isSome]
    exact ⟨segmentRegion codeHeader b,by simp [hm],rfl⟩
  have hc : g.Covers 512 := by
    have hpl : g.vaddr = 0x200000 := by simpa using find?_some hf
    have hp : g.pages = 4 ∨ g.pages = 1 := by
      have hi := mem_of_find?_eq_some hf
      rw [hm,mem_pair] at hi
      rcases hi with rfl | rfl
      · exact .inl (stack_pages _ a)
      · exact .inr ((segment_pages _ b).trans code_pages)
    refine ⟨0,?_,by rw [hpl]; decide⟩
    rw [Region.mappedPages,hpl]
    rcases hp with hp | hp
    all_goals
      rw [hp]
      decide
  have hd := sysUnmap_drops ha h.only hf
  have hr : Reachable Booted step sparing (s.sysUnmap p 0x200000) := by
    refine h.reachable.next (i := .unmap p.processID 0x200000) ?_ ⟨trivial,h.unmap_spares⟩
    rw [step,h.only.process]
    rfl
  have hg := hd.unmaps.here 512 (by decide) ⟨g,mem_singleton_self _,hc⟩
  obtain ⟨e,he,-⟩ := h.code
  have hta := pageTable_of_translate he
  have ht := hd.processes ▸ mem_append_right [] mem_cons_self
  refine ⟨_,_,hr,ht,requestedPages_code _, sysMap_keeps_mapped hr ht 0x200000 0x1000 0 ?_ ?_⟩
  · rw [requestedPages_code,missing_eq_empty]
    · exact Nat.zero_le _
    intro v hv
    obtain rfl := Finset.mem_singleton.mp hv
    rw [pageTableOf,hd.unmaps.paths p.cr3 (root_of_process h.only.mem) _ (upper_path 512)]
    exact hta
  · intro v hv
    rw [requestedPages_code,Finset.mem_singleton] at hv
    rw [hv]
    exact hg

theorem sysMap_replaces_code : ∃ s p e e', Reachable Booted step sparing s ∧ p ∈ s.processes ∧
    s.Served (.map p.processID 0x200000 0x1000 0) ∧ translate s.frames.memory p.cr3 512 = some e ∧
    translate (s.sysMap p 0x200000 0x1000 0).frames.memory p.cr3 512 = some e' ∧
    PageDirectoryEntry.address e' ≠ PageDirectoryEntry.address e := by
  obtain ⟨s,p,h⟩ : ∃ s p, OneProcess s p := ⟨_,small_oneProcess⟩
  have hap := apportioned_of_run h.served
  have hp : pagesFor (0x1000 : BitVec 64).toNat = 1 := by decide
  obtain ⟨hs,a,q,next,-,hgr,-⟩ := sysMap_plenty 0x200000 0x1000 0 hap h.only hp
    one_pos (h.plenty.mono (show 1+(1 * 3+42) ≤ 46 by decide))
  obtain ⟨e,he,hu,-⟩ := h.code
  have hc : (s.mappedRegion p 0x200000 0x1000).Covers 512 := by
    have hi : 512 ∈ requestedPages p 0x200000 0x1000 := by rw [requestedPages_code,Finset.mem_singleton]
    exact mem_runPages.mp hi
  obtain ⟨f,e',hsh,he',ha⟩ := hgr.gives.here 512 hc
  refine ⟨_,p,e,e',h.reachable,h.only.mem,?_,he,he',fun hsa => ?_⟩
  · intro p' hp'
    obtain rfl := Option.some.inj (h.only.process.symm.trans hp')
    exact hs
  -- the frame of the code is locked, and the new one was not
  obtain ⟨g,⟨r,hr,-,hg⟩,ho⟩ := hap.framesOwned.accessible p h.only.mem 512 (by decide)
    (PageDirectoryEntry.address e / pageSize) ⟨e,he,hu,rfl⟩
  rw [← hsa,ha,Nat.mul_div_cancel _ (by decide)] at ho
  exact (hgr.gives.fresh f hsh.holds).1 (hap.taken f (owners_pos hr hg ho.holds)).1
end
end Machine
end LensorOS.Memory
