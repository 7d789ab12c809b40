import LensorOS.Memory.FrameOwnership
import LensorOS.Memory.ForkCopies

/-!
# RAM in the page maps of processes

The kernel reaches a frame at the virtual page of the same number, whichever page map is active. A
process hides a frame behind a region that covers its number.
-/
namespace LensorOS.Memory
open Framework PageDirectoryEntry List
namespace Machine
/-- Frames that no process has are where the kernel looks for them, in all page maps in use. -/
def IdentityMapped (s : Machine) : Prop := ∀ f < s.frames.physical.totalPages, ¬ s.Owned f →
    IdentityAt s.frames.memory s.kernelMap f ∧ ∀ p ∈ s.processes, IdentityAt s.frames.memory p.cr3 f

/-- Only regions hide frames, and only frames that processes have. -/
structure RamShown (s : Machine) (lent : Nat → List Region) : Prop where
  kernel : ∀ f < s.frames.physical.totalPages, IdentityAt s.frames.memory s.kernelMap f
  process : ∀ p ∈ s.processes, ∀ f < s.frames.physical.totalPages,
    (∀ g ∈ p.memories ++ lent p.processID, ¬ g.Covers f) → IdentityAt s.frames.memory p.cr3 f
  owned : ∀ p ∈ s.processes, ∀ g ∈ p.memories ++ lent p.processID,
    ∀ f < s.frames.physical.totalPages, g.Covers f → s.Owned f

variable {s : Machine}
theorem RamShown.identityMapped (h : s.RamShown fun _ => []) : s.IdentityMapped := by
  intro f hf hfr
  refine ⟨h.kernel f hf,fun p hp => h.process p hp f hf fun g hg hc => hfr ?_⟩
  exact h.owned p hp g hg f hf hc

section
variable {s s' : Machine} {lent lent' : Nat → List Region} {c : Change} {child : Process} {f r : Nat}
theorem Move.owned (hm : Move s lent c s' lent') (h : s.Owned f)
    (hk : ∀ pid g, s.HasRegion pid g → g.Holds f → ¬ c.Takes pid g) : s'.Owned f := by
  obtain ⟨pid,g,hg,hh⟩ := h
  exact ⟨pid,g,hm.hasRegion hg (hk pid g hg hh),hh⟩

section
variable {p : Process} {before after : List Process}
theorem RamShown.grant {g : Region} {next : Nat}
    (h : s.RamShown lent) (hap : Apportioned s lent) (hat : At s p before after)
    (hg : Grants s p before after g next s')
    (hl : ∀ pid, pid ≠ p.processID → lent' pid = lent pid)
    (hfe : ∀ g' ∈ lent' p.processID, g' ∈ lent p.processID)
    (hba : ∀ g' ∈ lent p.processID, g' ∈ lent' p.processID ∨ ∀ v, g'.Covers v → g.Covers v)
    (hs : Change.SparesRam s (.grant p.processID g)) : s'.RamShown lent' := by
  have ht := hg.gives.keeps.total
  have ha := hap.maps.sound.addressable
  have hm := Move.grant hat hg hl hfe hba
  have ho : ∀ f, s.Owned f → s'.Owned f := fun f hf => hm.owned hf fun _ _ _ _ => id
  refine ⟨?_,?_,?_⟩
  · intro f hf
    rw [ht] at hf
    rw [hg.kernel.kernelMap]
    refine (h.kernel f hf).congr (hg.gives.others _ s.kernelMap_root f (by omega) ?_)
    exact fun hc => hap.cr3_ne_kernelMap hat.mem hc.1.symm
  · rw [ht]
    refine hat.forall_processes hg.processes ?_ ?_
    · intro f hf hcl
      have hn : ¬ g.Covers f := hcl g (mem_append_left _ mem_cons_self)
      refine (h.process p hat.mem f hf fun g' hg' hco => ?_).congr
        (hg.gives.others _ (root_of_process hat.mem) f (by omega) fun hc => hn hc.2)
      rcases mem_append.mp hg' with how | hb
      · exact hcl g' (mem_append_left _ (mem_cons_of_mem _ how)) hco
      rcases hba g' hb with hst | hov
      · exact hcl g' (mem_append_right _ hst) hco
      · exact hn (hov f hco)
    · intro q hq hot f hf hcl
      rw [hl q.processID (hat.others q hot)] at hcl
      refine (h.process q hq f hf hcl).congr
        (hg.gives.others _ (root_of_process hq) f (by omega) fun hc => ?_)
      exact hat.cr3_ne hap.distinct hot hc.1
  · rw [ht]
    refine hat.forall_processes hg.processes ?_ ?_
    · intro g' hg' f hf hco
      rcases mem_append.mp hg' with hg' | hb
      · rcases mem_cons.mp hg' with rfl | hol
        · rcases hs f hf hco with hol | hh
          · exact ho f hol
          · exact ⟨_,_,hg.hasRegion,hh⟩
        · exact ho f (h.owned p hat.mem g' (mem_append_left _ hol) f hf hco)
      · exact ho f (h.owned p hat.mem g' (mem_append_right _ (hfe g' hb)) f hf hco)
    · intro q hq hot g' hg' f hf hco
      rw [hl q.processID (hat.others q hot)] at hg'
      exact ho f (h.owned q hq g' hg' f hf hco)

theorem RamShown.drop {gone rest : List Region}
    (h : s.RamShown fun _ => []) (hap : Apportioned s fun _ => []) (hat : At s p before after)
    (hd : Drops s p before after gone rest s')
    (hs : Change.SparesRam s (.drop p gone)) : s'.RamShown fun _ => [] := by
  have ht := hd.back.total
  have ha := hap.maps.sound.addressable
  have hsa : ∀ r ∈ s.roots, ∀ f < s.frames.physical.totalPages,
      translate s'.frames.memory r f = translate s.frames.memory r f := by
    intro r hr f hf
    refine hd.unmaps.others r hr f (by omega) ?_
    rintro ⟨-,g,hg,hc⟩
    exact (hs g hg).1 f hf hc
  -- a region that is left covers no frame that is given back
  have ho : ∀ q ∈ s.processes, ∀ g ∈ q.memories, ∀ f < s.frames.physical.totalPages, g.Covers f → s'.Owned f := by
    intro q hq g hg f hf hc
    refine (Move.drop hat hd).owned (h.owned q hq g (mem_append_left _ hg) f hf hc) ?_
    rintro pid g0-hh ⟨-,hgo⟩
    exact (hs g0 hgo).2 f hh _ g ⟨q,hq,rfl,hg⟩ hc
  have hre : ∀ g ∈ rest, g ∈ p.memories := fun g hg =>
    hd.parts.mem_iff.mpr (mem_append_right _ hg)
  refine ⟨?_,?_,?_⟩
  · intro f hf
    rw [ht] at hf
    rw [hd.kernel.kernelMap]
    exact (h.kernel f hf).congr (hsa _ s.kernelMap_root f hf)
  · rw [ht]
    refine hat.forall_processes hd.processes ?_ ?_
    · intro f hf hcl
      refine (h.process p hat.mem f hf fun g hg hc => ?_).congr
        (hsa _ (root_of_process hat.mem) f hf)
      rw [append_nil] at hg
      rcases mem_append.mp (hd.parts.mem_iff.mp hg) with hgo | hl
      · exact (hs g hgo).1 f hf hc
      · exact hcl g (mem_append_left _ hl) hc
    · intro q hq _ f hf hcl
      exact (h.process q hq f hf hcl).congr (hsa _ (root_of_process hq) f hf)
  · rw [ht]
    simp only [append_nil]
    refine hat.forall_processes hd.processes ?_ fun q hq _ => ho q hq
    exact fun g hg => ho p hat.mem g (hre g hg)

theorem RamShown.discard (h : s.RamShown fun _ => []) (ha : At s p before after)
    (hd : Discards s p before after s')
    (hs : Change.SparesRam s (.discard p)) : s'.RamShown fun _ => [] := by
  have hi : ∀ q ∈ s'.processes, q ∈ s.processes ∧ q.processID ≠ p.processID := by
    intro q hq
    rw [hd.processes] at hq
    exact ⟨ha.mem_iff.mpr (.inr hq),ha.others q hq⟩
  have ht := hd.back.total
  refine ⟨?_,?_,?_⟩
  · rw [ht,hd.kernelMap,hd.memory]
    exact h.kernel
  · rw [ht,hd.memory]
    exact fun q hq => h.process q (hi q hq).1
  rw [ht]
  intro q hq g hg f hf hc
  obtain ⟨hol,ho⟩ := hi q hq
  refine (Move.discard ha hd).owned (h.owned q hol g hg f hf hc) ?_
  rintro pid g0 ⟨p0,hp0,hp,hg0⟩ hh hta
  rw [append_nil] at hg
  rcases ha.mem_iff.mp hp0 with rfl | hp0
  · exact hs g0 hg0 f hh q.processID g ho ⟨q,hol,rfl,hg⟩ hc
  · exact ha.others p0 hp0 (hp.trans (Eq.symm hta))
end

theorem Starts.identityAt (hs : Starts s r child s')
    (hf : f < 2^36) (h : IdentityAt s.frames.memory r f) :
    IdentityAt s'.frames.memory child.cr3 f := by
  by_cases hse : f = child.cr3 / pageSize
  · obtain ⟨e,he,had,-⟩ := hs.spawns.self
    have ha := (hs.spawns.maps.placed child.cr3 mem_cons_self [] child.cr3 Path.nil rfl).1
    refine ⟨e,hse ▸ he,?_⟩
    rw [had,hse,page_mul_div ha]
  · exact h.congr (hs.spawns.others f hf hse)

theorem RamShown.start {borrowed : List Region}
    (h : s.RamShown fun _ => []) (hap : Apportioned s fun _ => [])
    (hm : Move s (fun _ => []) .other s' (lentTo child borrowed)) (hs : Starts s r child s')
    (hsh : ∀ f < s.frames.physical.totalPages, (∀ g ∈ borrowed, ¬ g.Covers f) →
      IdentityAt s.frames.memory r f)
    (ho : ∀ g ∈ borrowed, ∀ f < s.frames.physical.totalPages, g.Covers f → s.Owned f) :
    s'.RamShown (lentTo child borrowed) := by
  have ht := hs.spawns.total
  have ha := hap.maps.sound.addressable
  have hke : ∀ f, s.Owned f → s'.Owned f := fun f hf => hm.owned hf fun _ _ _ _ => id
  have hol : ∀ q ∈ s.processes, lentTo child borrowed q.processID = [] := by
    intro q hq
    refine if_neg fun hp => ?_
    have hk := hap.known q hq
    rw [hp,hs.childPid] at hk
    omega
  have hqu : ∀ q ∈ s'.processes, q ∈ s.processes ∨ q = child := by
    intro q hq
    rwa [hs.processes,mem_append,mem_singleton] at hq
  refine ⟨?_,?_,?_⟩
  · intro f hf
    rw [ht] at hf
    rw [hs.kernelMap]
    exact (h.kernel f hf).congr (hs.spawns.old _ s.kernelMap_root f (by omega))
  · intro q hq f hf hc
    rw [ht] at hf
    rcases hqu q hq with hi | rfl
    · rw [hol q hi] at hc
      exact (h.process q hi f hf hc).congr (hs.spawns.old _ (root_of_process hi) f (by omega))
    · rw [hs.empty,lentTo_self,nil_append] at hc
      exact hs.identityAt (by omega) (hsh f hf hc)
  intro q hq g hg f hf hco
  rw [ht] at hf
  rcases hqu q hq with hi | rfl
  · rw [hol q hi] at hg
    exact hke f (h.owned q hi g hg f hf hco)
  · rw [hs.empty,lentTo_self,nil_append] at hg
    exact hke f (ho g hg f hf hco)

theorem RamShown.move (h : s.RamShown lent) (hap : Apportioned s lent)
    (hm : Move s lent c s' lent') (hsp : c.SparesRam s) : s'.RamShown lent' := by
  have ht := hap.move_total hm
  have ha := hap.maps.sound.addressable
  cases hm with
  | grant hat hgr hl hfe hb =>
    exact h.grant hap hat hgr hl hfe hb hsp
  | drop hat hdr => exact h.drop hap hat hdr hsp
  | discard hat hd => exact h.discard hat hd hsp
  | create hs =>
    rename_i child
    have hst : s'.RamShown (lentTo child []) :=
      h.start hap (by rw [lentTo_nil]; exact .create hs) hs
        (fun f hf _ => h.kernel f hf) nofun
    rwa [lentTo_nil] at hst
  | fork hp hs =>
    rename_i p child
    refine h.start hap (.fork hp hs) hs (fun f hf hc => ?_) ?_
    · exact h.process p hp f hf (by rwa [append_nil])
    · exact fun g hg => h.owned p hp g (mem_append_left _ hg)
  | steady hke hsa hk hde hpi hv hlo =>
    have hm : Move s lent .other s' lent := .steady hke hsa hk hde hpi hv hlo
    refine ⟨?_,?_,?_⟩
    · intro f hf
      rw [ht] at hf
      rw [hk]
      exact (h.kernel f hf).congr (hsa _ s.kernelMap_root f (by omega))
    · intro q' hq' f hf hc
      rw [ht] at hf
      obtain ⟨q,hq,hp',hc3,hme⟩ := mem_of_view hv hq'
      rw [← hp',← hme] at hc
      rw [← hc3]
      exact (h.process q hq f hf hc).congr (hsa _ (root_of_process hq) f (by omega))
    · intro q' hq' g hg f hf hco
      rw [ht] at hf
      obtain ⟨q,hq,hp',-,hme⟩ := mem_of_view hv hq'
      rw [← hp',← hme] at hg
      exact hm.owned (h.owned q hq g hg f hf hco) fun _ _ _ _ => id
  | reap =>
    have hm := Move.reap (s := s)
    have hpr : s.reapPageMaps.processes = s.processes := by
      unfold reapPageMaps
      split
      · rfl
      · rfl
    have hk : s.reapPageMaps.kernelMap = s.kernelMap := by
      unfold reapPageMaps
      split
      · rfl
      · rfl
    refine ⟨?_,?_,?_⟩
    · rw [ht,hk,hap.reap_frames.1]
      exact h.kernel
    · rw [ht,hpr,hap.reap_frames.1]
      exact h.process
    rw [ht,hpr]
    exact fun q hq g hg f hf hco =>
      hm.owned (h.owned q hq g hg f hf hco) fun _ _ _ _ => id
end

section
variable {s s' s1 s2 : Machine} {lent lent' lent1 lent2 : Nat → List Region} {c : Change} {call : Call}
theorem Causes.sparesRam (hc : Causes s call s1 lent1 c) (hm : Move s1 lent1 c s2 lent2)
    (hs : s1.frames.physical.Sound)
    (ht : s1.frames.physical.totalPages = s.frames.physical.totalPages)
    (hfi : ∀ pid, call ≠ .exec pid none) (hca : call.SparesRam s) (h : s1.RamShown lent1) :
    c.SparesRam s1 := by
  cases hc with
  | other => trivial
  | map hp hpl hsi =>
    intro f hf hco
    have hr := hco.mem_runPages (n := pagesFor _) (by rw [Region.pages,hsi])
    rw [hpl] at hr
    have ha := hca _ hp f hr
    omega
  | copy hg hcop =>
    cases hm with
    | grant hat =>
      intro f hf hco
      refine .inl (h.owned _ hat.mem _ (mem_append_right _ hg) f hf ?_)
      rw [hcop] at hco
      exact hco
  | segment hpr hme hl hpl hsi =>
    intro f hf hco
    have hr := hco.mem_runPages hsi
    rw [hpl] at hr
    cases call with
    | create program =>
      obtain rfl : program = some _ := hpr
      have ha := hca _ hme hl f hr
      omega
    | exec _ program =>
      obtain rfl : program = some _ := hpr
      have ha := hca.1 _ hme hl f hr
      omega
    | _ => cases hpr
  | stack hpr hpl =>
    cases hm with
    | grant hat hgr =>
      intro f hf hco
      refine .inr (hco.holds_own hgr.aligned hpl fun f' hf' => ?_)
      exact lt_of_lt_of_le (hgr.gives.fresh f' hf').2.2.1 hs.addressable
  | unmap hp hg hpl => exact hca _ hp _ hg hpl
  | exec hp =>
    rename_i pid program p
    cases program with
    | none => exact absurd rfl (hfi pid)
    | some program => exact hca.2 p hp
  | exit hp => exact hca _ hp

theorem Moves.ramShown (ha : Apportioned s lent) (hm : Moves (Causes s call) s lent s' lent')
    (hf : ∀ pid, call ≠ .exec pid none) (hca : call.SparesRam s) (h : s.RamShown lent) :
    s'.RamShown lent' := by
  induction hm with
  | refl => exact h
  | next hm hc hmo ih =>
    have ha1 := ha.moves hm
    exact ih.move ha1 hmo (hc.sparesRam hmo ha1.maps.sound (ha.moves_total hm) hf hca ih)

theorem RamShown.step (h : s.RamShown fun _ => []) (ha : Apportioned s fun _ => [])
    (hs : s.Served call) (hca : call.SparesRam s) (hst : s.step call = some s') :
    s'.RamShown fun _ => [] := by
  by_cases hf : ∃ pid, call = .exec pid none
  · obtain ⟨pid,rfl⟩ := hf
    obtain ⟨p,-,rfl⟩ := Option.map_eq_some_iff.mp hst
    exact h
  · exact (step_moves ha hs hst).ramShown ha (fun pid hc => hf ⟨pid,hc⟩) hca h
end

theorem Booted.ramShown (h : Booted s) : s.RamShown fun _ => [] := by
  refine ⟨h.identity,?_,?_⟩
  all_goals
    rw [h.processes]
    exact nofun

/-- In a run whose calls spare RAM, the frames that no process has are where the kernel looks for
them. -/
theorem identityMapped_run {s : Machine} (h : Reachable Booted step sparing s) : s.IdentityMapped := by
  suffices hs : Apportioned s (fun _ => []) ∧ s.RamShown fun _ => [] from
    hs.2.identityMapped
  induction h with
  | start hb => exact ⟨hb.apportioned,hb.ramShown⟩
  | next _ hst hg ih =>
    obtain ⟨ha,hs⟩ := ih
    obtain ⟨hse,hc⟩ := hg
    exact ⟨ha.moves (step_moves ha hse hst),hs.step ha hse hc hst⟩

theorem identityMapped_run_small : ∃ s p s' child, Forks s p s' child ∧
    Reachable Booted step sparing s' ∧ s'.IdentityMapped := by
  obtain ⟨p,h⟩ := small_oneProcess
  obtain ⟨s',child,hf⟩ := h.forks
  have hr : Reachable Booted step sparing s' := .next h.reachable hf.call ⟨trivial,trivial⟩
  exact ⟨_,p,s',child,hf,hr,identityMapped_run hr⟩

theorem Apportioned.holder_unique {p q : Process} {g g' : Region} {f : Nat}
    (h : Apportioned s fun _ => []) (hp : p ∈ s.processes) (hq : q ∈ s.processes)
    (hg : g ∈ p.memories) (hg' : g' ∈ q.memories) (hf : g.Holds f) (hf' : g'.Holds f) :
    p.processID = q.processID := by
  obtain ⟨before,after,ha⟩ := exists_at h.pids hp
  rcases ha.mem_iff.mp hq with rfl | ho
  · rfl
  have hon : 0 < holders p.memories f := countP_pos_iff.mpr ⟨g,hg,by simpa using hf⟩
  have ht : 0 < holders ((before ++ after).flatMap Process.memories) f :=
    countP_pos_iff.mpr ⟨g',mem_flatMap.mpr ⟨q,ho,hg'⟩,by simpa using hf'⟩
  have hm := h.exclusive f
  rw [ha.owners] at hm
  omega

/-- The first process forks and exits. The frames of its stack are free, and its child has others
at their place. -/
theorem exit_leaves_hidden : ∃ s child f, Reachable Booted step served s ∧
    child ∈ s.processes ∧ f < s.frames.physical.totalPages ∧ ¬ s.Owned f ∧
    ¬ s.frames.physical.Locked f ∧ ¬ IdentityAt s.frames.memory child.cr3 f := by
  obtain ⟨p,h⟩ := small_oneProcess
  obtain ⟨s1,child,hf⟩ := h.forks
  have hap := apportioned_of_run h.served
  have hr1 : Reachable Booted step served s1 := .next h.served hf.call trivial
  have ha1 := apportioned_of_run hr1
  obtain ⟨a,b,hme⟩ := h.memories
  obtain ⟨hw,ha⟩ := h.tidy
  have hs : stackRegion [codeHeader] a ∈ p.memories := by simp [hme]
  have hp : (stackRegion [codeHeader] a).pages = 4 := stack_pages _ a
  -- the child has another frame at the first page of the stack
  have ha' : ∀ g' ∈ [segmentRegion codeHeader b], (stackRegion [codeHeader] a).Apart g' := by
    rw [hme] at ha
    exact (pairwise_cons.mp ha).1
  obtain ⟨f,⟨e,he,hu,had⟩,-⟩ := hf.copies hap [] hme ha' (hw _ hs) (i := 0) (by rw [hp]; decide)
  have hh := Region.holds_page (g := stackRegion [codeHeader] a) (i := 0) (by rw [hp]; decide)
  rw [stack_paddr,add_zero] at hh
  have hl := (hap.taken _ (owners_pos h.only.mem hs hh)).2.1
  have hpa : vpage ((stackRegion [codeHeader] a).vaddr+0 * pageSize) = a / pageSize := by
    have hal : a % pageSize = 0 := hap.aligned p h.only.mem _ hs
    rw [stack_vaddr,zero_mul,add_zero,← page_mul_div hal,PhysicalMemory.page_mul]
    exact vpage_page (lt_of_lt_of_le hl hap.maps.sound.addressable)
  rw [hpa] at he
  obtain ⟨g',hg',hsh⟩ := ha1.confined child hf.there _
    (lt_of_lt_of_le hl hap.maps.sound.addressable) f
    ⟨e,he,hu,by rw [had,PhysicalMemory.page_mul]⟩
  rw [append_nil] at hg'
  -- the process is still there, and exits
  have hm : Moves (Causes _ (.fork p.processID)) _ (fun _ => []) s1 (fun _ => []) :=
    step_moves hap trivial hf.call
  obtain ⟨p1,hp1,hpi1,hg1⟩ := hm.hasRegion ⟨p,h.only.mem,rfl,hs⟩ id
  have hn : child.processID ≠ p1.processID := by
    have hk := hap.known p h.only.mem
    rw [hf.new,hpi1]
    omega
  have hne : f ≠ a / pageSize := by
    rintro rfl
    exact hn (ha1.holder_unique hf.there hp1 hg' hg1 hsh.holds hh)
  obtain ⟨before,after,hat⟩ := exists_at ha1.pids hp1
  have hd := ha1.discards hat
  have hst : s1.step (.exit p1.processID) = some (s1.removeProcess p1) := by
    rw [step,hat.process]
    rfl
  have hr2 : Reachable Booted step served (s1.removeProcess p1) := .next hr1 hst trivial
  have hfr : ¬ (s1.removeProcess p1).frames.physical.Locked (a / pageSize) := by
    rw [hd.back.locked]
    exact fun hc => hc.2 ⟨_,hg1,hh⟩
  refine ⟨s1.removeProcess p1,child,a / pageSize,hr2,?_,?_,?_,hfr,?_⟩
  · rw [hd.processes]
    rcases hat.mem_iff.mp hf.there with hsa | ho
    · exact absurd (congrArg Process.processID hsa) hn
    · exact ho
  · rw [hd.back.total,hap.moves_total hm]
    exact hl
  · rintro ⟨pid,g,hg,hhe⟩
    exact hfr ((apportioned_of_run hr2).framesOwned.held pid g hg _ hhe).1
  rintro ⟨e',he',had'⟩
  rw [hd.memory,he] at he'
  cases he'
  exact hne (Nat.eq_of_mul_eq_mul_right (by decide) (had.symm.trans had'))
end Machine
end LensorOS.Memory
