import LensorOS.Memory.ClonePageMap
import LensorOS.Memory.Mapping
import LensorOS.Memory.Processes

/-!
# Address spaces and the frames behind them

Page maps are separate trees, every frame is held by at most one region, and a page map shows user
code only frames of the process's own regions.
-/
namespace LensorOS.Memory
open Framework PageDirectoryEntry List Option Process Machine PhysicalMemory
def InRun (paddr pages f : Nat) : Prop := paddr / pageSize ≤ f ∧ f < paddr / pageSize+pages

instance (paddr pages f : Nat) : Decidable (InRun paddr pages f) :=
  inferInstanceAs (Decidable (_ ∧ _))

variable {r : Nat} {g : Region}
namespace Region
def Holds (g : Region) (f : Nat) : Prop := InRun g.paddr g.pages f

instance (g : Region) (f : Nat) : Decidable (g.Holds f) := inferInstanceAs (Decidable (InRun _ _ _))

/-- How many pages of a region are mapped: none when it reaches the end of the address space. -/
def mappedPages (g : Region) : Nat := Frames.pageLoopCount g.vaddr g.pages

def Covers (g : Region) (v : Nat) : Prop := ∃ i < g.mappedPages, v = vpage (g.vaddr+i * pageSize)

/-- The frame of a region meant for a virtual page. -/
def Shows (g : Region) (v f : Nat) : Prop :=
  ∃ i < g.mappedPages, v = vpage (g.vaddr+i * pageSize) ∧ f = g.paddr / pageSize+i

theorem Shows.covers {v f : Nat} (h : g.Shows v f) : g.Covers v := by
  obtain ⟨i,hi,hv,-⟩ := h
  exact ⟨i,hi,hv⟩

theorem Shows.holds {v f : Nat} (h : g.Shows v f) : g.Holds f := by
  obtain ⟨i,hi,-,rfl⟩ := h
  have hl := loop_le g.vaddr g.pages
  unfold mappedPages at hi
  exact ⟨by omega,by omega⟩
end Region

/-- Whether a frame is held after the events of a log; `none` once it was handed out while
held, or released while not. -/
def replay (log : List FrameEvent) (f : Nat) : Option Bool :=
  log.foldl (fun held event => held.bind fun held =>
    match event with
    | .handOut paddr pages =>
      if InRun paddr pages f then
        if held then none else some true
      else some held
    | .release paddr pages =>
      if InRun paddr pages f then
        if held then some false else none
      else some held) (some false)

section
variable {log : List FrameEvent} {f paddr pages : Nat} {held : Bool} (h : replay log f = some held)
include h
theorem replay_snoc_handOut (hf : InRun paddr pages f → held = false) :
    replay (log ++ [.handOut paddr pages]) f = some (held || decide (InRun paddr pages f)) := by
  unfold replay at h ⊢
  rw [foldl_append,h,foldl_cons,bind_some,foldl_nil]
  dsimp only
  by_cases hi : InRun paddr pages f
  · rw [if_pos hi,hf hi,if_neg Bool.false_ne_true,decide_eq_true hi,Bool.or_true]
  · rw [if_neg hi,decide_eq_false hi,Bool.or_false]

theorem replay_snoc_release (hh : InRun paddr pages f → held = true) :
    replay (log ++ [.release paddr pages]) f = some (held && !decide (InRun paddr pages f)) := by
  unfold replay at h ⊢
  rw [foldl_append,h,foldl_cons,bind_some,foldl_nil]
  dsimp only
  by_cases hi : InRun paddr pages f
  · rw [if_pos hi,hh hi,if_pos rfl,decide_eq_true hi]
    rfl
  · rw [if_neg hi,decide_eq_false hi,Bool.not_false,Bool.and_true]
end

def holders (regions : List Region) (f : Nat) : Nat := regions.countP fun g => g.Holds f

theorem holders_cons (g : Region) (regions : List Region) (f : Nat) :
    holders (g :: regions) f = holders regions f+if g.Holds f then 1 else 0 := by simp [holders,countP_cons]

theorem holders_pos {regions : List Region} {f : Nat} : 0 < holders regions f ↔ ∃ g ∈ regions, g.Holds f := by
  simp [holders,countP_pos_iff]

theorem replay_releases {log : List FrameEvent} {f rest : Nat} (gone : List Region)
    (h : replay log f = some (decide (holders gone f+rest = 1))) (ho : holders gone f+rest ≤ 1) :
    replay (log ++ gone.map fun g => .release g.paddr g.pages) f = some (decide (rest = 1)) := by
  induction gone generalizing log with
  | nil =>
    rw [map_nil,append_nil,h]
    simp [holders]
  | cons g gone ih =>
    rw [map_cons,append_cons]
    rw [holders_cons] at h ho
    by_cases hg : g.Holds f
    · rw [if_pos hg] at h ho
      refine ih ?_ (by omega)
      rw [replay_snoc_release h fun _ => decide_eq_true (by omega),
        decide_eq_true (show InRun g.paddr g.pages f from hg)]
      simp only [Bool.not_true,Bool.and_false,some.injEq]
      exact (decide_eq_false (by omega)).symm
    · rw [if_neg hg,add_zero] at h ho
      refine ih ?_ ho
      rw [replay_snoc_release h fun hi => absurd hi hg,
        decide_eq_false (show ¬ InRun g.paddr g.pages f from hg)]
      simp

/-- Frames given to a region: they were free, they are no tables, and the page map shows them at
the region's virtual pages. Nothing else changes. -/
structure GivesRegion (roots : List Nat) (r : Nat) (g : Region) (s s' : Frames) : Prop where
  keeps : Keeps roots s s'
  fresh : ∀ f, g.Holds f → ¬ s.physical.Locked f ∧ s'.physical.Locked f ∧
    f < s.physical.totalPages ∧ ¬ TablePage s' roots f
  others : ∀ r' ∈ roots, ∀ w < 2^36, ¬ (r' = r ∧ g.Covers w) →
    translate s'.memory r' w = translate s.memory r' w
  here : ∀ w, g.Covers w → ∃ f e, g.Shows w f ∧ translate s'.memory r w = some e ∧
    address e = f * pageSize

section
variable {s s' : Frames} {roots : List Nat} {r n a : Nat} {q : PhysicalMemory} {m : Bytes}
  {g : Region} {flags : BitVec 64} {vs : Finset Nat}
theorem Grows.tablePage (h : Grows s s') (hma : PageMaps s roots) {page : Nat}
    (hpa : TablePage s' roots page) : TablePage s roots page := by
  obtain ⟨r,hr,path,t,hp,ht,rfl⟩ := hpa
  rw [h.follow hma hr hp] at ht
  exact ⟨r,hr,path,t,hp,ht,rfl⟩

/-- Frames that were requested and filled, and mapped from `virt` on. -/
structure MapsGranted (roots : List Nat) (r virt a n count : Nat) (flags : BitVec 64) (m : Bytes)
    (q : PhysicalMemory) (s s' : Frames) : Prop where
  keeps : Keeps roots s s'
  own : OnlyOwn roots s s'
  fresh : ∀ f, InRun a n f → ¬ s.physical.Locked f ∧ s'.physical.Locked f ∧
    f < s.physical.totalPages ∧ ¬ TablePage s' roots f
  others : ∀ r' ∈ roots, ∀ w < 2^36, ¬ (r' = r ∧ ∃ i < count, w = vpage (virt+i * pageSize)) →
    translate s'.memory r' w = translate s.memory r' w
  run : MapsRun roots r virt (a / pageSize) count flags ⟨m,q⟩ s'

section
variable (h : PageMaps s roots) (hr : r ∈ roots) (hroot : r ≠ 0)
  (hreq : s.physical.requestPages n = (some a,q))
  (hm : ∀ x, ¬ InRun a n (x / pageSize) → m x = s.memory x)
include h hr hroot hreq hm
theorem mapsGranted {virt count : Nat} (hfl : flag flags .present = true) (hc : count ≤ n)
    (hv : ∀ i < count, vpage (virt+i * pageSize) ∈ vs)
    (hs : (missing s.memory r vs).card ≤ q.freeCount) :
    MapsGranted roots r virt a n count flags m q s ((⟨m,q⟩ : Frames).mapRun r virt a flags count) ∧
      ∃ k, ((⟨m,q⟩ : Frames).mapRun r virt a flags count).physical = q.afterRequests k ∧
        (missing ((⟨m,q⟩ : Frames).mapRun r virt a flags count).memory r vs).card+k =
          (missing s.memory r vs).card := by
  obtain ⟨page,rfl,-,hg,hi,hq⟩ := h.sound.requestPages hreq
  unfold InRun at hm
  rw [page_mul] at hm
  have hgr := Grows.of_granted hq hg hm
  have hkeeps := hgr.keeps h
  have hmi : missing m r vs = missing s.memory r vs := missing_congr fun path hp => hgr.follow h hr hp
  have hto := h.sound.addressable
  have hl : page+count ≤ 2^40 := by omega
  obtain ⟨hru,ho,k,hph,hta⟩ := mapRun_spec hkeeps.maps hr hroot hfl hl hv (hmi ▸ hs)
  rw [hmi] at hta
  refine ⟨⟨hkeeps.trans hru.keeps,?_,?_,?_,?_⟩,k,hph,hta⟩
  · refine OnlyOwn.trans (fun x hx => .inr ?_) hkeeps ho hru.keeps
    have hin := not_not.mp fun hou => hx (hm x hou)
    exact ⟨hg.clear _ hin.1 hin.2,hg.locked.mpr (.inr hin)⟩
  · intro f hf
    rw [InRun,page_mul] at hf
    have hlo : q.Locked f := hg.locked.mpr (.inr hf)
    have hfr := hg.clear f hf.1 hf.2
    refine ⟨hfr,hru.keeps.locked f hlo,by omega,fun htab => ?_⟩
    rcases hru.keeps.fresh f htab with hol | hn
    · obtain ⟨r',hr',path,t,hp,ht,hpt⟩ := hgr.tablePage h hol
      exact hfr (hpt ▸ (h.placed r' hr' path t hp ht).2.1)
    · exact hn hlo
  · intro r' hr' w hw hne
    rw [hru.others r' hr' w hw hne]
    exact hgr.translate h r' hr' w hw
  · rwa [page_mul]

theorem givesRegion (had : g.paddr = a) (hp : g.pages = n)
    (hf : flag flags .present = true) (hv : ∀ w, g.Covers w → w ∈ vs)
    (hs : (missing s.memory r vs).card ≤ q.freeCount) :
    GivesRegion roots r g s ((⟨m,q⟩ : Frames).mapRun r g.vaddr a flags g.mappedPages) ∧
      MapsRun roots r g.vaddr (a / pageSize) g.mappedPages flags ⟨m,q⟩
        ((⟨m,q⟩ : Frames).mapRun r g.vaddr a flags g.mappedPages) ∧
      ∃ k, ((⟨m,q⟩ : Frames).mapRun r g.vaddr a flags g.mappedPages).physical = q.afterRequests k ∧
        (missing ((⟨m,q⟩ : Frames).mapRun r g.vaddr a flags g.mappedPages).memory r vs).card+k =
          (missing s.memory r vs).card := by
  subst had hp
  obtain ⟨hma,hl⟩ := mapsGranted h hr hroot hreq hm hf
    (loop_le g.vaddr g.pages) (fun i hi => hv _ ⟨i,hi,rfl⟩) hs
  refine ⟨⟨hma.keeps,hma.fresh,hma.others,fun w hw => ?_⟩,hma.run,hl⟩
  obtain ⟨i,hi,hwi,e,he,ha,-⟩ := hma.run.here w hw
  exact ⟨_,e,⟨i,hi,hwi,rfl⟩,he,ha⟩
end
end

/-- A new page map: a clone of the map at `r`, with its own top table mapped to itself. -/
structure Spawns (s : Frames) (roots : List Nat) (r new : Nat) (s' : Frames) : Prop where
  maps : PageMaps s' (new :: roots)
  total : s'.physical.totalPages = s.physical.totalPages
  locked : ∀ page, s.physical.Locked page → s'.physical.Locked page
  fresh : ∀ page, TablePage s' (new :: roots) page →
    TablePage s roots page ∨ ¬ s.physical.Locked page
  nonzero : new ≠ 0
  free : ¬ s.physical.Locked (new / pageSize)
  paths : ∀ r' ∈ roots, ∀ path t, Path 512 3 path →
    follow (childTable s.memory) r' path = some t → follow (childTable s'.memory) r' path = some t
  old : SameTranslation roots s s'
  tables : ∀ path, Path 512 3 path → (follow (childTable s.memory) r path).isSome →
    (follow (childTable s'.memory) new path).isSome
  self : ∃ e, translate s'.memory new (new / pageSize) = some e ∧ address e = new ∧
    flag e .userSuper = false
  others : ∀ w < 2^36, w ≠ new / pageSize → translate s'.memory new w = translate s.memory r w

theorem vpage_page {page : Nat} (h : page < 2^36) : vpage (page * pageSize) = page := by
  unfold vpage pageSize
  omega

theorem page_mul_div {a : Nat} (h : a % pageSize = 0) : a / pageSize * pageSize = a :=
  Nat.div_mul_cancel (Nat.dvd_of_mod_eq_zero h)

theorem Region.Covers.holds_own {v : Nat} (h : g.Covers v)
    (ha : g.paddr % pageSize = 0) (hp : g.vaddr = g.paddr)
    (had : ∀ f, g.Holds f → f < 2^36) : g.Holds v := by
  obtain ⟨i,hi,rfl⟩ := h
  have hh : g.Holds (g.paddr / pageSize+i) := by
    refine ⟨Nat.le_add_right _ _,Nat.add_lt_add_left ?_ _⟩
    exact Nat.lt_of_lt_of_le hi (loop_le g.vaddr g.pages)
  have hpa : vpage (g.vaddr+i * pageSize) = g.paddr / pageSize+i := by
    rw [hp,← page_mul_div ha,← Nat.add_mul,page_mul]
    exact vpage_page (had _ hh)
  rwa [hpa]

section
variable {s s1 : Frames} {roots : List Nat} {r new : Nat}
/-- Starting a page map, when all of RAM has its tables in the original. The last part counts
what later mappings will need. -/
theorem spawns (h : PageMaps s roots) (hr : r ∈ roots)
    (hwi : ∀ v < s.physical.totalPages, (pageTableOf s.memory r v).isSome)
    (hclo : s.clonePageMap r = (some new,s1)) :
    Spawns s roots r new (s1.map new new new kernelFlags) ∧
      (s1.map new new new kernelFlags).physical = s1.physical ∧
      (∀ vs, (missing (s1.map new new new kernelFlags).memory new vs).card ≤
        (missing s.memory r vs).card) ∧
      SameContents roots s (s1.map new new new kernelFlags) := by
  have hcl := clone_spec h hr hclo
  obtain ⟨hal,hl,hlt⟩ := hcl.maps.placed new mem_cons_self [] new Path.nil rfl
  have had := hcl.maps.sound.addressable
  have hpag : new / pageSize < 2^36 := by omega
  have hse : vpage new = new / pageSize := by
    have hv := vpage_page hpag
    rwa [page_mul_div hal] at hv
  have hnew : new < 2^52 := by
    unfold pageSize at hpag hal
    omega
  have hta : (pageTableOf s1.memory new (vpage new)).isSome := by
    rw [hse]
    refine (hcl.shape _ (upper_path _)).mpr (hwi _ ?_)
    rwa [← hcl.grows.total]
  have hem : missing s1.memory new {vpage new} = ∅ :=
    missing_eq_empty fun v hv => Finset.mem_singleton.mp hv ▸ hta
  obtain ⟨hma,k,hph,hco⟩ := map_spec hcl.maps mem_cons_self
    hcl.nonzero (show flag kernelFlags .present = true by decide) hal hnew
    (Finset.mem_singleton_self (vpage new)) (by rw [hem]; exact Nat.zero_le _)
  have hk : k = 0 := by
    rw [hem,Finset.card_empty] at hco
    omega
  rw [hse] at hma
  rw [hk] at hph
  have hn : new ∉ roots := by
    intro hi
    exact hcl.free (h.placed new hi [] new Path.nil rfl).2.1
  refine ⟨⟨hma.keeps.maps,?_,?_,?_,hcl.nonzero,hcl.free,?_,?_,?_,?_,?_⟩,hph,?_,?_⟩
  · rw [hma.keeps.total,hcl.grows.total]
  · exact fun page hp => hma.keeps.locked page (hcl.grows.locked page hp)
  · intro page hpag
    rcases hma.keeps.fresh page hpag with ho | hf
    · exact hcl.fresh page ho
    · exact .inr fun hp => hf (hcl.grows.locked page hp)
  · intro r' hr' path t hpa ht
    rw [← hcl.grows.follow h hr' hpa] at ht
    exact hma.keeps.paths r' (mem_cons_of_mem _ hr') path t hpa ht
  · intro r' hr' v hv
    rw [hma.others r' (mem_cons_of_mem _ hr') v hv fun hc => hn (hc.1 ▸ hr')]
    exact hcl.grows.translate h r' hr' v hv
  · intro path hpa hs
    obtain ⟨t,ht⟩ := isSome_iff_exists.mp ((hcl.shape path hpa).mpr hs)
    exact isSome_iff_exists.mpr ⟨t,hma.keeps.paths new mem_cons_self path t hpa ht⟩
  · obtain ⟨e,he,ha,hu,-⟩ := hma.here
    exact ⟨e,he,ha,hu.trans (by decide)⟩
  · intro w hw hne
    rw [hma.others new mem_cons_self w hw fun hc => hne hc.2]
    exact hcl.translation w hw
  · intro vs
    refine Finset.card_le_card fun path hpa => ?_
    obtain ⟨hi,hno⟩ := mem_missing.mp hpa
    refine mem_missing.mpr ⟨hi,?_⟩
    by_contra hs
    have hlo := tablePaths_path hi
    obtain ⟨t,ht⟩ := isSome_iff_exists.mp ((hcl.shape path hlo).mpr (isSome_iff_ne_none.mpr hs))
    rw [hma.keeps.paths new mem_cons_self path t hlo ht] at hno
    cases hno
  · intro x hl hta
    have ht' : ¬ TablePage s1 (new :: roots) (x / pageSize) := by
      intro hpag
      rcases hcl.fresh _ hpag with ho | hf
      · exact hta ho
      · exact hf hl
    rw [hma.contents x (hcl.grows.locked _ hl) ht',hcl.grows.memory x hl]
end

theorem Keeps.pageTableOf {roots : List Nat} {s s' : Frames} (h : Keeps roots s s') {v : Nat}
    (hr : r ∈ roots) (hv : (pageTableOf s.memory r v).isSome) :
    (pageTableOf s'.memory r v).isSome := by
  obtain ⟨t,ht⟩ := isSome_iff_exists.mp hv
  exact isSome_iff_exists.mpr ⟨t,h.paths r hr _ t (upper_path v) ht⟩

theorem Keeps.null {roots : List Nat} {s s' : Frames} (h : Keeps roots s s')
    (hn : s.physical.Locked 0 ∧ ¬ TablePage s roots 0) : ¬ TablePage s' roots 0 := by
  intro hz
  rcases h.fresh 0 hz with ho | hf
  · exact hn.2 ho
  · exact hf hn.1

namespace Machine
/-- The page maps in use, and the dead ones that are not freed yet. -/
def roots (s : Machine) : List Nat := s.kernelMap :: (s.processes.map cr3 ++ s.pageMapsToFree.filter (· ≠ 0))

def owners (s : Machine) (f : Nat) : Nat := holders (s.processes.flatMap memories) f

/-- The page map of a process has a user entry for the frame at a virtual page. -/
def UserMapped (s : Machine) (p : Process) (v f : Nat) : Prop :=
  ∃ e, translate s.frames.memory p.cr3 v = some e ∧ flag e .userSuper = true ∧
    address e / pageSize = f

structure Apportioned (s : Machine) (lent : Nat → List Region) : Prop where
  maps : PageMaps s.frames s.roots
  distinct : s.roots.Nodup
  nonzero : 0 ∉ s.roots
  pids : (s.processes.map processID).Nodup
  known : ∀ p ∈ s.processes, p.processID ≤ s.thePid
  null : s.frames.physical.Locked 0 ∧ ¬ TablePage s.frames s.roots 0
  window : ∀ r ∈ s.kernelMap :: s.processes.map cr3, ∀ v < s.frames.physical.totalPages,
    (pageTableOf s.frames.memory r v).isSome
  supervisor : ∀ v < 2^36, ∀ e, translate s.frames.memory s.kernelMap v = some e →
    flag e .userSuper = false
  exclusive : ∀ f, s.owners f ≤ 1
  taken : ∀ f, 0 < s.owners f → s.frames.physical.Locked f ∧ f < s.frames.physical.totalPages ∧
    f ≠ 0 ∧ ¬ TablePage s.frames s.roots f
  tables : ∀ p ∈ s.processes, ∀ g ∈ p.memories ++ lent p.processID, ∀ v, g.Covers v →
    (pageTableOf s.frames.memory p.cr3 v).isSome
  confined : ∀ p ∈ s.processes, ∀ v < 2^36, ∀ f, s.UserMapped p v f →
    ∃ g ∈ p.memories ++ lent p.processID, g.Shows v f
  log : ∀ f, replay s.log f = some (decide (s.owners f = 1))
  aligned : ∀ p ∈ s.processes, ∀ g ∈ p.memories, g.paddr % pageSize = 0

structure Held (s : Machine) : Prop where
  null : s.frames.physical.Locked 0 ∧ ¬ TablePage s.frames s.roots 0
  exclusive : ∀ f, s.owners f ≤ 1
  taken : ∀ f, 0 < s.owners f → s.frames.physical.Locked f ∧ f < s.frames.physical.totalPages ∧
    f ≠ 0 ∧ ¬ TablePage s.frames s.roots f

structure At (s : Machine) (p : Process) (before after : List Process) : Prop where
  split : s.processes = before ++ p :: after
  others : ∀ q ∈ before ++ after, q.processID ≠ p.processID

section
variable {s : Machine} {p q : Process} {before after : List Process}
theorem At.mem (h : At s p before after) : p ∈ s.processes := by
  rw [h.split]
  simp

theorem At.mem_iff (h : At s p before after) : q ∈ s.processes ↔ q = p ∨ q ∈ before ++ after := by
  rw [h.split]
  simp only [mem_append,mem_cons]
  tauto

theorem exists_at (hpi : (s.processes.map processID).Nodup) (hp : p ∈ s.processes) :
    ∃ before after, At s p before after := by
  obtain ⟨before,after,hs⟩ := append_of_mem hp
  refine ⟨before,after,hs,fun q hq he => ?_⟩
  rw [hs,map_append,map_cons] at hpi
  have hmi := nodup_middle.mp hpi
  rw [← map_append] at hmi
  exact (nodup_cons.mp hmi).1 (he ▸ mem_map_of_mem hq)

theorem process_some {pid : Nat} (h : s.process pid = some p) : p ∈ s.processes ∧ p.processID = pid := by
  exact ⟨mem_of_find?_eq_some h,by simpa using find?_some h⟩

variable (h : At s p before after)
include h
theorem At.process : s.process p.processID = some p := by
  unfold Machine.process
  rw [h.split,find?_append,find?_eq_none.mpr,find?_cons_of_pos (by simp)]
  · rfl
  · intro q hq
    simpa using h.others q (mem_append_left _ hq)

theorem At.update (change : Process → Process) :
    (s.update p.processID change).processes = before ++ change p :: after := by
  have hs : ∀ l : List Process, (∀ q ∈ l, q ∈ before ++ after) →
      l.map (fun q => if q.processID = p.processID then change q else q) = l := by
    intro l hl
    refine map_congr_left (g := id) (fun q hq => ?_) |>.trans (map_id l)
    rw [if_neg (h.others q (hl q hq)),id]
  unfold Machine.update
  rw [h.split,map_append,map_cons,if_pos rfl,hs before fun q hq => mem_append_left _ hq,
    hs after fun q hq => mem_append_right _ hq]

theorem At.owners (f : Nat) : s.owners f = holders p.memories f+holders ((before ++ after).flatMap memories) f := by
  unfold Machine.owners holders
  rw [h.split]
  simp only [flatMap_append,flatMap_cons,countP_append]
  omega

theorem At.cr3_ne (hd : s.roots.Nodup) (hq : q ∈ before ++ after) : q.cr3 ≠ p.cr3 := by
  intro he
  have hc3 := (nodup_cons.mp hd).2.of_append_left
  rw [h.split,map_append,map_cons] at hc3
  have hmi := nodup_middle.mp hc3
  rw [← map_append] at hmi
  exact (nodup_cons.mp hmi).1 (he ▸ mem_map_of_mem hq)
end

theorem root_of_process {s : Machine} {p : Process} (hp : p ∈ s.processes) : p.cr3 ∈ s.roots :=
  mem_cons_of_mem _ (mem_append_left _ (mem_map_of_mem hp))

theorem kernelMap_root (s : Machine) : s.kernelMap ∈ s.roots := mem_cons_self

theorem roots_eq_append (s : Machine) : s.roots =
    (s.kernelMap :: s.processes.map cr3) ++ s.pageMapsToFree.filter (· ≠ 0) := rfl

theorem root_of_live {s : Machine} (hr : r ∈ s.kernelMap :: s.processes.map cr3) : r ∈ s.roots :=
  s.roots_eq_append ▸ mem_append_left _ hr

/-- The rest of the machine stays: the kernel's map, the dead maps, the last identifier. -/
structure SameKernel (s s' : Machine) : Prop where
  kernelMap : s'.kernelMap = s.kernelMap
  pageMapsToFree : s'.pageMapsToFree = s.pageMapsToFree
  thePid : s'.thePid = s.thePid

variable {σ : Frames}
section
variable {s s' : Machine} {lent lent' : Nat → List Region} {p p' : Process} {before after : List Process} {g : Region}
theorem At.roots (ha : At s p before after) (hk : SameKernel s s')
    (hp : s'.processes = before ++ p' :: after) (hc3 : p'.cr3 = p.cr3) :
    s'.roots = s.roots := by
  unfold Machine.roots
  rw [hk.kernelMap,hk.pageMapsToFree,hp,ha.split]
  simp [hc3]

theorem At.forall_processes (ha : At s p before after)
    (hpr : s'.processes = before ++ p' :: after) {P : Process → Prop} (hp : P p')
    (ho : ∀ q ∈ s.processes, q ∈ before ++ after → P q) : ∀ q ∈ s'.processes, P q := by
  intro q hq
  rw [hpr,mem_append,mem_cons] at hq
  rcases hq with hq | rfl | hq
  · exact ho q (ha.mem_iff.mpr (.inr (mem_append_left _ hq))) (mem_append_left _ hq)
  · exact hp
  · exact ho q (ha.mem_iff.mpr (.inr (mem_append_right _ hq))) (mem_append_right _ hq)

theorem At.pids (ha : At s p before after) (hp : s'.processes = before ++ p' :: after)
    (hpid : p'.processID = p.processID) :
    s'.processes.map processID = s.processes.map processID := by
  rw [hp,ha.split]
  simp [hpid]

structure Fitting (s : Machine) (lent : Nat → List Region) (p : Process) : Prop where
  known : p.processID ≤ s.thePid
  window : ∀ v < s.frames.physical.totalPages, (pageTableOf s.frames.memory p.cr3 v).isSome
  tables : ∀ g ∈ p.memories ++ lent p.processID, ∀ v, g.Covers v →
    (pageTableOf s.frames.memory p.cr3 v).isSome
  confined : ∀ v < 2^36, ∀ f, s.UserMapped p v f → ∃ g ∈ p.memories ++ lent p.processID, g.Shows v f
  aligned : ∀ g ∈ p.memories, g.paddr % pageSize = 0

/-- A page map keeps its tables, and shows nothing to user code that it did not show before. -/
structure Carries (s s' : Machine) (r : Nat) : Prop where
  tables : ∀ v, (pageTableOf s.frames.memory r v).isSome → (pageTableOf s'.frames.memory r v).isSome
  opens : ∀ v < 2^36, ∀ e, translate s'.frames.memory r v = some e → flag e .userSuper = true →
    translate s.frames.memory r v = some e

theorem Carries.of_memory (h : s'.frames.memory = s.frames.memory) (r : Nat) : Carries s s' r := by
  constructor
  · rw [h]
    exact fun _ => id
  · rw [h]
    exact fun _ _ _ he _ => he

theorem Fitting.carry (h : Fitting s lent p) (hc : Carries s s' p.cr3)
    (ht : s'.frames.physical.totalPages = s.frames.physical.totalPages)
    (hpid : s.thePid ≤ s'.thePid) (hl : lent' p.processID = lent p.processID) :
    Fitting s' lent' p := by
  refine ⟨h.known.trans hpid,?_,?_,?_,h.aligned⟩
  · intro v hv
    exact hc.tables v (h.window v (ht ▸ hv))
  · intro g hg v hv
    exact hc.tables v (h.tables g (hl ▸ hg) v hv)
  rintro v hv f ⟨e,he,hu,hf⟩
  rw [hl]
  exact h.confined v hv f ⟨e,hc.opens v hv e he hu,hu,hf⟩

section
variable (h : Apportioned s lent)
include h
theorem Apportioned.fitting (hp : p ∈ s.processes) : Fitting s lent p :=
  ⟨h.known p hp,h.window p.cr3 (mem_cons_of_mem _ (mem_map_of_mem hp)),h.tables p hp,
    h.confined p hp,h.aligned p hp⟩

theorem Apportioned.of_fitting (hma : PageMaps s'.frames s'.roots) (hd : s'.roots.Nodup)
    (hn : 0 ∉ s'.roots) (hp : (s'.processes.map processID).Nodup)
    (hfr : s'.Held) (ht : s'.frames.physical.totalPages = s.frames.physical.totalPages)
    (hkernel : s'.kernelMap = s.kernelMap) (hca : Carries s s' s.kernelMap)
    (hf : ∀ q ∈ s'.processes, Fitting s' lent' q)
    (hlog : ∀ f, replay s'.log f = some (decide (s'.owners f = 1))) : Apportioned s' lent' := by
  refine ⟨hma,hd,hn,hp,fun q hq => (hf q hq).known,hfr.null,?_,?_,
    hfr.exclusive,hfr.taken,fun q hq => (hf q hq).tables,
    fun q hq => (hf q hq).confined,hlog,fun q hq => (hf q hq).aligned⟩
  · intro r hr v hv
    rcases mem_cons.mp hr with rfl | hr
    · rw [hkernel]
      exact hca.tables v (h.window s.kernelMap mem_cons_self v (ht ▸ hv))
    · obtain ⟨q,hq,rfl⟩ := mem_map.mp hr
      exact (hf q hq).window v hv
  intro v hv e he
  rw [hkernel] at he
  by_contra hu
  have hu := eq_true_of_ne_false hu
  have hc := h.supervisor v hv e (hca.opens v hv e he hu)
  rw [hu] at hc
  cases hc

theorem Apportioned.cr3_ne_kernelMap (hp : p ∈ s.processes) : p.cr3 ≠ s.kernelMap := by
  intro he
  exact (nodup_cons.mp h.distinct).1 (he ▸ mem_append_left _ (mem_map_of_mem hp))

theorem Apportioned.frames_kept {lost : Nat → Nat} (ho : ∀ f, s.owners f = lost f+s'.owners f)
    (hto : s'.frames.physical.totalPages = s.frames.physical.totalPages)
    (hl : ∀ f, s.frames.physical.Locked f → ¬ TablePage s.frames s.roots f → lost f = 0 →
      s'.frames.physical.Locked f) (hp : ∀ f, TablePage s'.frames s'.roots f →
      TablePage s.frames s.roots f ∨ ¬ s.frames.physical.Locked f) : s'.Held := by
  have ht : ∀ f, s.frames.physical.Locked f → ¬ TablePage s.frames s.roots f →
      ¬ TablePage s'.frames s'.roots f := fun f hh hol hn =>
    (hp f hn).elim hol fun hfr => hfr hh
  have hz : ¬ 0 < s.owners 0 := fun hpo => (h.taken 0 hpo).2.2.1 rfl
  rw [ho] at hz
  refine ⟨⟨hl 0 h.null.1 h.null.2 (by omega),ht 0 h.null.1 h.null.2⟩,fun f => ?_,
    fun f hf => ?_⟩
  · have hon := ho f ▸ h.exclusive f
    omega
  have hon := ho f ▸ h.exclusive f
  obtain ⟨hh,hlt,hne,hol⟩ := h.taken f (by rw [ho]; omega)
  exact ⟨hl f hh hol (by omega),hto ▸ hlt,hne,ht f hh hol⟩

structure Grants (s : Machine) (p : Process) (before after : List Process) (g : Region) (next : Nat)
    (s' : Machine) : Prop where
  gives : GivesRegion s.roots p.cr3 g s.frames s'.frames
  kernel : SameKernel s s'
  processes : s'.processes =
    before ++ { p with memories := g :: p.memories, nextRegionVaddr := next } :: after
  log : s'.log = s.log ++ [.handOut g.paddr g.pages] ∨ g.pages = 0 ∧ s'.log = s.log
  aligned : g.paddr % pageSize = 0

/-- Granting a region keeps the invariant. Of the regions lent to the process, one at the same
place may be taken back. -/
theorem Apportioned.grant (hat : At s p before after) {next : Nat}
    (hgr : Grants s p before after g next s')
    (hle : ∀ pid, pid ≠ p.processID → lent' pid = lent pid)
    (hfe : ∀ g' ∈ lent' p.processID, g' ∈ lent p.processID)
    (hba : ∀ g' ∈ lent p.processID, g' ∈ lent' p.processID ∨ ∀ v, g'.Covers v → g.Covers v) :
    Apportioned s' lent' := by
  obtain ⟨hgi,hk,hp,hlog,hal⟩ := hgr
  have hro := hat.roots hk hp rfl
  have ha' : At s' { p with memories := g :: p.memories, nextRegionVaddr := next } before after := ⟨hp,hat.others⟩
  have ho : ∀ f, s'.owners f = s.owners f+if g.Holds f then 1 else 0 := by
    intro f
    rw [ha'.owners,hat.owners,holders_cons]
    omega
  have hu : ∀ f, g.Holds f → s.owners f = 0 := by
    intro f hf
    by_contra hpo
    exact (hgi.fresh f hf).1 (h.taken f (by omega)).1
  have hca : ∀ r ∈ s.roots, r ≠ p.cr3 → Carries s s' r := by
    intro r hr hne
    refine ⟨fun v => hgi.keeps.pageTableOf hr,fun v hv e he _ => ?_⟩
    rwa [hgi.others r hr v hv fun hc => hne hc.1] at he
  have ht := fun v => hgi.keeps.pageTableOf (v := v) (root_of_process hat.mem)
  have hfi := h.fitting hat.mem
  refine h.of_fitting (hro ▸ hgi.keeps.maps) (hro ▸ h.distinct) (hro ▸ h.nonzero) ?_
    ⟨⟨hgi.keeps.locked 0 h.null.1,?_⟩,?_,?_⟩ hgi.keeps.total hk.kernelMap
    (hca _ s.kernelMap_root (h.cr3_ne_kernelMap hat.mem).symm) ?_ ?_
  · rw [hat.pids hp rfl]
    exact h.pids
  · rw [hro]
    exact hgi.keeps.null h.null
  · intro f
    rw [ho]
    split_ifs with hf
    · rw [hu f hf]
    · exact h.exclusive f
  · intro f hf
    rw [ho] at hf
    rw [hro,hgi.keeps.total]
    by_cases hg : g.Holds f
    · obtain ⟨hfr,hl,hlt,hta⟩ := hgi.fresh f hg
      exact ⟨hl,hlt,fun hz => hfr (hz ▸ h.null.1),hta⟩
    rw [if_neg hg] at hf
    obtain ⟨hl,hlt,hz,hta⟩ := h.taken f hf
    refine ⟨hgi.keeps.locked f hl,hlt,hz,fun hn => ?_⟩
    rcases hgi.keeps.fresh f hn with hol | hfr
    · exact hta hol
    · exact hfr hl
  · refine hat.forall_processes hp ⟨hk.thePid ▸ hfi.known,?_,?_,?_,?_⟩ ?_
    · intro v hv
      exact ht v (hfi.window v (hgi.keeps.total ▸ hv))
    · intro g' hg' v hv
      rw [cons_append,mem_cons,mem_append] at hg'
      rcases hg' with rfl | hg' | hg'
      · obtain ⟨f,e,-,he,-⟩ := hgi.here v hv
        cases hpt : pageTableOf s'.frames.memory p.cr3 v with
        | none =>
          rw [translate,hpt] at he
          cases he
        | some t => rfl
      · exact ht v (hfi.tables g' (mem_append_left _ hg') v hv)
      · exact ht v (hfi.tables g' (mem_append_right _ (hfe g' hg')) v hv)
    · rintro v hv f ⟨e,he,hus,hf⟩
      by_cases hco : g.Covers v
      · obtain ⟨f',e',hs,he',ha⟩ := hgi.here v hco
        rw [he'] at he
        cases he
        rw [ha,page_mul] at hf
        exact ⟨g,mem_append_left _ mem_cons_self,hf ▸ hs⟩
      rw [hgi.others p.cr3 (root_of_process hat.mem) v hv fun hc => hco hc.2] at he
      obtain ⟨g',hg',hs⟩ := hfi.confined v hv f ⟨e,he,hus,hf⟩
      refine ⟨g',?_,hs⟩
      rcases mem_append.mp hg' with how | hb
      · exact mem_append_left _ (mem_cons_of_mem _ how)
      rcases hba g' hb with hst | hsa
      · exact mem_append_right _ hst
      · exact absurd (hsa v hs.covers) hco
    · intro g' hg'
      rcases mem_cons.mp hg' with rfl | hg'
      · exact hal
      · exact hfi.aligned g' hg'
    · intro q hq hi
      exact (h.fitting hq).carry (hca _ (root_of_process hq) (hat.cr3_ne h.distinct hi))
        hgi.keeps.total hk.thePid.ge (hle q.processID (hat.others q hi))
  · intro f
    rcases hlog with hlog | ⟨hem,hlog⟩
    · rw [hlog,replay_snoc_handOut (h.log f) fun hf => decide_eq_false (by
        rw [hu f hf]
        exact zero_ne_one),ho]
      by_cases hg : g.Holds f
      · rw [decide_eq_true (show InRun g.paddr g.pages f from hg),hu f hg,if_pos hg]
        rfl
      · rw [decide_eq_false (show ¬ InRun g.paddr g.pages f from hg),if_neg hg,Bool.or_false]
        rfl
    · have hg : ¬ g.Holds f := by
        rintro ⟨hlo,hh⟩
        rw [hem] at hh
        omega
      rw [hlog,h.log f,ho,if_neg hg]
      rfl
end

theorem GivesRegion.empty {roots : List Nat} (hma : PageMaps σ roots)
    (he : g.pages = 0) : GivesRegion roots r g σ σ := by
  have hn : g.mappedPages = 0 := Nat.le_zero.mp (he ▸ loop_le g.vaddr g.pages)
  refine ⟨hma.keeps hma.sound rfl (fun _ _ _ _ => rfl) fun _ hp => hp,?_,
    fun _ _ _ _ _ => rfl,?_⟩
  · rintro f ⟨hl,hh⟩
    rw [he] at hh
    omega
  rintro w ⟨i,hi,-⟩
  rw [hn] at hi
  exact absurd hi (by omega)
end

section
variable {s s' : Machine} {lent : Nat → List Region}
def view (p : Process) : Nat × Nat × List Region := (p.processID,p.cr3,p.memories)

theorem mem_of_view (hview : s'.processes.map view = s.processes.map view) {q' : Process}
    (hq' : q' ∈ s'.processes) : ∃ q ∈ s.processes, q.processID = q'.processID ∧ q.cr3 = q'.cr3 ∧
      q.memories = q'.memories := by
  have hme := hview ▸ mem_map_of_mem hq'
  obtain ⟨q,hq,he⟩ := mem_map.mp hme
  simp only [view,Prod.mk.injEq] at he
  exact ⟨q,hq,he⟩

theorem Fitting.congr {q q' : Process} (h : Fitting s lent q)
    (hs : q.processID = q'.processID ∧ q.cr3 = q'.cr3 ∧ q.memories = q'.memories) :
    Fitting s lent q' := by
  obtain ⟨hpid,hc3,hme⟩ := hs
  refine ⟨hpid ▸ h.known,hc3 ▸ h.window,?_,?_,hme ▸ h.aligned⟩
  · rw [← hpid,← hc3,← hme]
    exact h.tables
  unfold UserMapped
  rw [← hpid,← hc3,← hme]
  exact h.confined

theorem view_map {α : Type} (hview : s'.processes.map view = s.processes.map view)
    (pick : Nat × Nat × List Region → α) :
    s'.processes.map (fun p => pick (view p)) = s.processes.map fun p => pick (view p) := by
  have hma := congrArg (List.map pick) hview
  rw [List.map_map,List.map_map] at hma
  exact hma

theorem owners_of_view (hview : s'.processes.map view = s.processes.map view) (f : Nat) : s'.owners f = s.owners f := by
  unfold owners
  have hre : s'.processes.map memories = s.processes.map memories := view_map hview fun v => v.2.2
  rw [flatMap_def,flatMap_def,hre]

section
variable (h : Apportioned s lent) (hkeeps : Keeps s.roots s.frames s'.frames)
  (hkernel : s'.kernelMap = s.kernelMap)
  (hdead : s'.pageMapsToFree.filter (· ≠ 0) = s.pageMapsToFree.filter (· ≠ 0))
  (hpid : s.thePid ≤ s'.thePid) (hview : s'.processes.map view = s.processes.map view)
  (hlog : s'.log = s.log)
include h hkeeps hkernel hdead hpid hview hlog
theorem Apportioned.extend (hop : ∀ r ∈ s.roots, ∀ v < 2^36, ∀ e,
      translate s'.frames.memory r v = some e → flag e .userSuper = true →
        translate s.frames.memory r v = some e) : Apportioned s' lent := by
  have hc3 : s'.processes.map cr3 = s.processes.map cr3 := view_map hview fun v => v.2.1
  have hro : s'.roots = s.roots := by
    unfold roots
    rw [hkernel,hdead,hc3]
  have ho := owners_of_view hview
  have hfr := h.frames_kept
    (fun f => (ho f).symm.trans (zero_add _).symm) hkeeps.total
    (fun f hh _ _ => hkeeps.locked f hh) fun f hf => hkeeps.fresh f (hro ▸ hf)
  have hc : ∀ r ∈ s.roots, Carries s s' r := fun r hr =>
    ⟨fun v => hkeeps.pageTableOf hr,hop r hr⟩
  refine h.of_fitting (hro ▸ hkeeps.maps) (hro ▸ h.distinct) (hro ▸ h.nonzero) ?_ hfr
    hkeeps.total hkernel (hc _ s.kernelMap_root) ?_ ?_
  · have hp : s'.processes.map processID = s.processes.map processID :=
      view_map hview fun v => v.1
    rw [hp]
    exact h.pids
  · intro q' hq'
    obtain ⟨q,hq,hs⟩ := mem_of_view hview hq'
    have hfi : Fitting s' lent q := (h.fitting hq).carry (hc _ (root_of_process hq)) hkeeps.total hpid rfl
    exact hfi.congr hs
  · intro f
    rw [hlog,ho]
    exact h.log f

theorem Apportioned.steady (hs : SameTranslation s.roots s.frames s'.frames) : Apportioned s' lent := by
  refine h.extend hkeeps hkernel hdead hpid hview hlog fun r hr v hv e he _ => ?_
  rw [← hs r hr v hv]
  exact he
end

theorem Apportioned.write (h : Apportioned s lent) {m : Bytes}
    (hm : ∀ x, TablePage s.frames s.roots (x / pageSize) → m x = s.frames.memory x) :
    Apportioned (s.write m) lent ∧ Keeps s.roots s.frames (s.write m).frames ∧
      SameTranslation s.roots s.frames (s.write m).frames := by
  obtain ⟨hkeeps,hs⟩ := h.maps.write hm
  exact ⟨h.steady hkeeps rfl rfl le_rfl rfl rfl hs,hkeeps,hs⟩
end

section
variable {s s' : Machine} {p : Process} {before after : List Process} {gone rest : List Region} {covered : Nat → Prop}
private theorem tablePage_of_unmaps {roots : List Nat}
    {σ' : Frames} (hu : Unmaps roots r covered σ.memory σ'.memory) (page : Nat) :
    TablePage σ' roots page ↔ TablePage σ roots page := by
  refine exists_congr fun r' => and_congr_right fun hr' => exists_congr fun path =>
    exists_congr fun t => and_congr_right fun hp => ?_
  rw [hu.paths r' hr' path hp]

private theorem maps_of_unmaps {roots : List Nat} {lost : Nat → Prop}
    {σ' : Frames} (hma : PageMaps σ roots) (hu : Unmaps roots r covered σ.memory σ'.memory)
    (hb : GivesBack σ.physical σ'.physical lost)
    (hl : ∀ page, TablePage σ roots page → ¬ lost page) : PageMaps σ' roots := by
  refine hma.transfer hb.sound hb.total hu.paths fun page hpa => ?_
  obtain ⟨r',hr',path,t,hp,ht,rfl⟩ := hpa
  exact (hb.locked _).mpr ⟨(hma.placed r' hr' path t hp ht).2.1, hl _ ⟨r',hr',path,t,hp,ht,rfl⟩⟩

structure Drops (s : Machine) (p : Process) (before after : List Process) (gone rest : List Region)
    (s' : Machine) : Prop where
  unmaps : Unmaps s.roots p.cr3 (fun w => ∃ g ∈ gone, g.Covers w) s.frames.memory s'.frames.memory
  back : GivesBack s.frames.physical s'.frames.physical fun f => ∃ g ∈ gone, g.Holds f
  kernel : SameKernel s s'
  processes : s'.processes = before ++ { p with memories := rest } :: after
  log : s'.log = s.log ++ gone.map fun g => .release g.paddr g.pages
  parts : p.memories.Perm (gone ++ rest)

theorem Apportioned.drop (h : Apportioned s fun _ => []) (ha : At s p before after)
    (hd : Drops s p before after gone rest s') : Apportioned s' fun _ => [] := by
  obtain ⟨hu,hba,hk,hp,hlog,hpa⟩ := hd
  have hsp : ∀ f, holders p.memories f = holders gone f+holders rest f := by
    intro f
    unfold holders
    rw [hpa.countP_eq,countP_append]
  have hre : ∀ g ∈ rest, g ∈ p.memories := fun g hg =>
    hpa.mem_iff.mpr (mem_append_right _ hg)
  have hal : ∀ g ∈ p.memories, g ∈ gone ∨ g ∈ rest := fun g hg =>
    mem_append.mp (hpa.mem_iff.mp hg)
  have hro := ha.roots hk hp rfl
  have ha' : At s' { p with memories := rest } before after := ⟨hp,ha.others⟩
  have ho : ∀ f, s.owners f = holders gone f+s'.owners f := by
    intro f
    rw [ha.owners,ha'.owners,hsp f,add_assoc]
  have hpat : ∀ r ∈ s.roots, ∀ v, pageTableOf s'.frames.memory r v = pageTableOf s.frames.memory r v :=
    fun r hr v => hu.paths r hr _ (upper_path v)
  have hfr := h.frames_kept ho hba.total
    (fun f hh _ hn => (hba.locked f).mpr
      ⟨hh,fun hl => ne_of_gt (holders_pos.mpr hl) hn⟩)
    fun f hf => .inl (by rwa [hro,tablePage_of_unmaps hu] at hf)
  have hc : ∀ r ∈ s.roots, Carries s s' r := by
    intro r hr
    refine ⟨fun v hv => (hpat r hr v).symm ▸ hv,fun v hv e he _ => ?_⟩
    by_cases hco : r = p.cr3 ∧ ∃ g ∈ gone, g.Covers v
    · rw [hco.1,hu.here v hv hco.2] at he
      cases he
    · rwa [hu.others r hr v hv hco] at he
  have hfi := h.fitting ha.mem
  have how := hc _ (root_of_process ha.mem)
  refine h.of_fitting ?_ (hro ▸ h.distinct) (hro ▸ h.nonzero) ?_ hfr hba.total
    hk.kernelMap (hc _ s.kernelMap_root) ?_ ?_
  · rw [hro]
    refine maps_of_unmaps h.maps hu hba fun page hpag hl => ?_
    have hpo := holders_pos.mpr hl
    exact (h.taken page (by rw [ho]; omega)).2.2.2 hpag
  · rw [ha.pids hp rfl]
    exact h.pids
  · refine ha.forall_processes hp ⟨hk.thePid ▸ hfi.known,?_,?_,?_,?_⟩ ?_
    · intro v hv
      exact how.tables v (hfi.window v (hba.total ▸ hv))
    · intro g hg v hv
      rw [append_nil] at hg
      exact how.tables v (hfi.tables g (by rw [append_nil]; exact hre g hg) v hv)
    · rintro v hv f ⟨e,he,hus,hf⟩
      obtain ⟨g,hg,hs⟩ := hfi.confined v hv f ⟨e,how.opens v hv e he hus,hus,hf⟩
      rw [append_nil] at hg ⊢
      rcases hal g hg with hl | hke
      · have hn := hu.here v hv ⟨g,hl,hs.covers⟩
        rw [show translate s'.frames.memory p.cr3 v = some e from he] at hn
        cases hn
      · exact ⟨g,hke,hs⟩
    · exact fun g hg => hfi.aligned g (hre g hg)
    · intro q hq _
      exact (h.fitting hq).carry (hc _ (root_of_process hq)) hba.total hk.thePid.ge rfl
  · intro f
    have hon := h.exclusive f
    have hb := h.log f
    rw [ho] at hon hb
    rw [hlog]
    exact replay_releases gone hb hon

structure Discards (s : Machine) (p : Process) (before after : List Process) (s' : Machine) :
    Prop where
  kernelMap : s'.kernelMap = s.kernelMap
  thePid : s'.thePid = s.thePid
  dead : s'.pageMapsToFree = s.pageMapsToFree ++ [p.cr3]
  memory : s'.frames.memory = s.frames.memory
  back : GivesBack s.frames.physical s'.frames.physical fun f => ∃ g ∈ p.memories, g.Holds f
  processes : s'.processes = before ++ after
  log : s'.log = s.log ++ p.memories.map fun g => .release g.paddr g.pages

theorem Apportioned.discard (h : Apportioned s fun _ => []) (ha : At s p before after)
    (hd : Discards s p before after s') : Apportioned s' fun _ => [] := by
  obtain ⟨hkernel,hpid,hdead,hme,hba,hp,hlog⟩ := hd
  have hc3 : p.cr3 ≠ 0 := fun hz => h.nonzero (hz ▸ root_of_process ha.mem)
  have hpe : s'.roots.Perm s.roots := by
    unfold roots
    rw [hkernel,hdead,hp,ha.split,filter_append]
    refine List.Perm.cons _ ?_
    simp only [map_append,map_cons,append_assoc,ne_eq,hc3,not_false_eq_true,
      decide_true,filter_cons_of_pos,filter_nil]
    refine List.Perm.append_left _ ?_
    rw [← append_assoc]
    exact perm_append_singleton _ _
  have hmem : ∀ r, r ∈ s'.roots ↔ r ∈ s.roots := fun r => hpe.mem_iff
  have hpa : ∀ page, TablePage s'.frames s'.roots page ↔ TablePage s.frames s.roots page := by
    intro page
    simp [TablePage,hmem,hme]
  have ho : ∀ f, s.owners f = holders p.memories f+s'.owners f := by
    intro f
    rw [ha.owners]
    unfold owners
    rw [hp]
  have hma : PageMaps s'.frames s.roots := by
    have hu : Unmaps s.roots 0 (fun _ => False) s.frames.memory s'.frames.memory :=
      hme ▸ Unmaps.refl
    refine maps_of_unmaps h.maps hu hba fun page hpa hl => ?_
    have hpo := holders_pos.mpr hl
    exact (h.taken page (by rw [ho]; omega)).2.2.2 hpa
  have hfr := h.frames_kept ho hba.total
    (fun f hh _ hn => (hba.locked f).mpr
      ⟨hh,fun hl => ne_of_gt (holders_pos.mpr hl) hn⟩)
    fun f hf => .inl ((hpa f).mp hf)
  have hc := Carries.of_memory hme
  refine h.of_fitting (hma.mono fun r hr => (hmem r).mp hr) (hpe.nodup_iff.mpr h.distinct) ?_ ?_
    hfr hba.total hkernel (hc _) ?_ ?_
  · rw [hmem]
    exact h.nonzero
  · have hs : (s'.processes.map processID).Sublist (s.processes.map processID) := by
      rw [hp,ha.split]
      exact (List.Sublist.append_left (sublist_cons_self _ _) _).map _
    exact hs.nodup h.pids
  · intro q hq
    rw [hp] at hq
    exact (h.fitting (ha.mem_iff.mpr (.inr hq))).carry (hc _) hba.total hpid.ge rfl
  intro f
  have hon := h.exclusive f
  have hb := h.log f
  rw [ho] at hon hb
  rw [hlog]
  exact replay_releases p.memories hb hon
end

section
variable {s s' : Machine} {r : Nat} {child : Process}
structure Starts (s : Machine) (r : Nat) (child : Process) (s' : Machine) : Prop where
  spawns : Spawns s.frames s.roots r child.cr3 s'.frames
  kernelMap : s'.kernelMap = s.kernelMap
  dead : s'.pageMapsToFree = s.pageMapsToFree
  thePid : s'.thePid = s.thePid+1
  processes : s'.processes = s.processes ++ [child]
  childPid : child.processID = s.thePid+1
  empty : child.memories = []
  log : s'.log = s.log

/-- What a live page map shows to user code is lent to a process started on its clone. -/
theorem Apportioned.spawn (h : Apportioned s fun _ => []) (borrowed : List Region)
    (hr : r ∈ s.kernelMap :: s.processes.map cr3) (hst : Starts s r child s')
    (hsh : ∀ v < 2^36, ∀ e, translate s.frames.memory r v = some e →
      flag e .userSuper = true → ∃ g ∈ borrowed, g.Shows v (address e / pageSize))
    (hta : ∀ g ∈ borrowed, ∀ v, g.Covers v → (pageTableOf s.frames.memory r v).isSome) :
    Apportioned s' fun pid => if pid = child.processID then borrowed else [] := by
  obtain ⟨hs,hkernel,hdead,hpid,hp,hch,hno,hlog⟩ := hst
  have hpe : s'.roots.Perm (child.cr3 :: s.roots) := by
    unfold roots
    rw [hkernel,hdead,hp,map_append,map_singleton,append_assoc,singleton_append]
    exact (List.Perm.cons _ perm_middle).trans (List.Perm.swap _ _ _)
  have hme : ∀ r, r ∈ s'.roots ↔ r ∈ child.cr3 :: s.roots := fun r => hpe.mem_iff
  have hpa : ∀ page, TablePage s'.frames s'.roots page ↔ TablePage s'.frames (child.cr3 :: s.roots) page := by
    intro page
    simp [TablePage,hme]
  have hne : child.cr3 ∉ s.roots := by
    intro hi
    exact hs.free (h.maps.placed _ hi [] _ Path.nil rfl).2.1
  have hol : ∀ q ∈ s.processes, q.processID ≠ child.processID := by
    intro q hq he
    have hl := h.known q hq
    omega
  have ho : ∀ f, s'.owners f = s.owners f := by
    intro f
    unfold owners
    rw [hp,flatMap_append,flatMap_singleton,hno,append_nil]
  have hc : ∀ r' ∈ s.roots, Carries s s' r' := by
    refine fun r' hr' => ⟨fun v hv => ?_,fun v hv e he _ => hs.old r' hr' v hv ▸ he⟩
    obtain ⟨t,ht⟩ := isSome_iff_exists.mp hv
    exact isSome_iff_exists.mpr ⟨t,hs.paths r' hr' _ t (upper_path v) ht⟩
  have hfr := h.frames_kept
    (fun f => (ho f).symm.trans (zero_add _).symm) hs.total
    (fun f hh _ _ => hs.locked f hh) fun f hf => hs.fresh f ((hpa f).mp hf)
  refine h.of_fitting (hs.maps.mono fun r' hr' => (hme r').mp hr')
    (hpe.nodup_iff.mpr (nodup_cons.mpr ⟨hne,h.distinct⟩)) ?_ ?_ hfr hs.total hkernel
    (hc _ s.kernelMap_root) ?_ ?_
  · rw [hme,mem_cons]
    rintro (hz | hz)
    · exact hs.nonzero hz.symm
    · exact h.nonzero hz
  · rw [hp,map_append,map_singleton]
    refine nodup_append.mpr ⟨h.pids,nodup_singleton _,?_⟩
    intro pid hp' pid' hn
    obtain ⟨q,hq,rfl⟩ := mem_map.mp hp'
    rw [mem_singleton.mp hn]
    exact hol q hq
  · intro q hq
    rw [hp,mem_append,mem_singleton] at hq
    rcases hq with hq | rfl
    · exact (h.fitting hq).carry (hc _ (root_of_process hq)) hs.total
        (hpid ▸ Nat.le_succ _) (if_neg (hol q hq))
    refine ⟨hpid ▸ hch.le,?_,?_,?_,?_⟩
    · intro v hv
      exact hs.tables _ (upper_path v) (h.window r hr v (hs.total ▸ hv))
    · intro g hg v hv
      rw [if_pos rfl,hno] at hg
      exact hs.tables _ (upper_path v) (hta g hg v hv)
    · rintro v hv f ⟨e,he,hu,hf⟩
      rw [if_pos rfl,hno,nil_append]
      by_cases hse : v = q.cr3 / pageSize
      · obtain ⟨e',he',-,hsu⟩ := hs.self
        rw [hse,he'] at he
        cases he
        rw [hsu] at hu
        cases hu
      · rw [hs.others v hv hse] at he
        exact hf ▸ hsh v hv e he hu
    · intro g hg
      rw [hno] at hg
      cases hg
  · intro f
    rw [hlog,ho]
    exact h.log f
end

section
variable {s : Machine} {active : Nat}
theorem freePageMaps_givesBack (dead : List Nat) (hσ : σ.physical.Sound)
    (ha : ∀ r ∈ dead, r ≠ 0 → r ≠ active)
    (hi : ∀ r ∈ dead, r ≠ 0 → ∀ path u, Path 512 3 path →
      follow (childTable σ.memory) r path = some u →
        u % pageSize = 0 ∧ u / pageSize < σ.physical.totalPages) :
    (dead.foldl (fun frames table => frames.freePageMap active table) σ).memory = σ.memory ∧
      GivesBack σ.physical
        (dead.foldl (fun frames table => frames.freePageMap active table) σ).physical
        (TablePage σ (dead.filter (· ≠ 0))) := by
  induction dead generalizing σ with
  | nil =>
    refine ⟨rfl,hσ,rfl,fun j => ?_⟩
    simp [TablePage]
  | cons r dead ih =>
    rw [foldl_cons]
    by_cases hz : r = 0
    · have hs : σ.freePageMap active r = σ := by
        unfold Frames.freePageMap
        rw [if_pos hz]
      rw [hs,filter_cons_of_neg (by simpa using hz)]
      exact ih hσ (fun r' hr' => ha r' (mem_cons_of_mem _ hr'))
        fun r' hr' => hi r' (mem_cons_of_mem _ hr')
    obtain ⟨hme,hb⟩ := freePageMap_givesBack hσ hz (ha r mem_cons_self hz)
      (hi r mem_cons_self hz)
    have hre := ih hb.sound (fun r' hr' => ha r' (mem_cons_of_mem _ hr')) (by
      intro r' hr' hn path u hp hu
      rw [hme] at hu
      rw [hb.total]
      exact hi r' (mem_cons_of_mem _ hr') hn path u hp hu)
    refine ⟨hre.1.trans hme,hb.trans hre.2 fun j => ?_⟩
    rw [filter_cons_of_pos (by simpa using hz)]
    simp only [TablePage,hme,mem_cons,not_mem_nil,or_false,or_and_right,
      exists_or,exists_eq_left]

variable (h : Apportioned s fun _ => [])
include h
theorem Apportioned.dead_givesBack :
    (s.pageMapsToFree.foldl (fun frames table => frames.freePageMap s.kernelMap table)
        s.frames).memory = s.frames.memory ∧ GivesBack s.frames.physical
        (s.pageMapsToFree.foldl (fun frames table => frames.freePageMap s.kernelMap table)
          s.frames).physical (TablePage s.frames (s.pageMapsToFree.filter (· ≠ 0))) := by
  have hdead : ∀ r ∈ s.pageMapsToFree, r ≠ 0 → r ∈ s.roots := by
    intro r hr hn
    refine mem_cons_of_mem _ (mem_append_right _ (mem_filter.mpr ⟨hr,?_⟩))
    simpa using hn
  have ha : ∀ r ∈ s.pageMapsToFree, r ≠ 0 → r ≠ s.kernelMap := by
    intro r hr hn he
    refine (nodup_cons.mp h.distinct).1 (mem_append_right _ (mem_filter.mpr ⟨?_,?_⟩))
    · exact he ▸ hr
    · simpa [← he] using hn
  refine freePageMaps_givesBack s.pageMapsToFree h.maps.sound ha fun r hr hn path u hp hu => ?_
  obtain ⟨hal,-,hl⟩ := h.maps.placed r (hdead r hr hn) path u hp hu
  exact ⟨hal,hl⟩

theorem Apportioned.reap_frames : s.reapPageMaps.frames.memory = s.frames.memory ∧
      s.reapPageMaps.frames.physical.totalPages = s.frames.physical.totalPages := by
  obtain ⟨hme,hb⟩ := h.dead_givesBack
  unfold reapPageMaps
  split
  · exact ⟨hme,hb.total⟩
  · exact ⟨rfl,rfl⟩

theorem Apportioned.reap : Apportioned s.reapPageMaps (fun _ => []) := by
  obtain ⟨hme,hb⟩ := h.dead_givesBack
  unfold reapPageMaps
  split
  case isFalse => exact h
  generalize s.pageMapsToFree.foldl (fun frames table => frames.freePageMap s.kernelMap table)
    s.frames = frames at hme hb
  generalize hs' : ({ s with frames := frames, pageMapsToFree := [] } : Machine) = s'
  have hσ : s'.frames = frames := by rw [← hs']
  have hs := hσ ▸ hme
  have hp : s'.processes = s.processes := by rw [← hs']
  have hkernel : s'.kernelMap = s.kernelMap := by rw [← hs']
  have hro : s'.roots = s.kernelMap :: s.processes.map cr3 := by
    rw [← hs']
    simp [roots]
  have hl : ∀ r ∈ s'.roots, r ∈ s.roots := by
    rw [hro]
    exact fun r hr => root_of_live hr
  have hlos : ∀ page, TablePage s.frames s'.roots page →
      ¬ TablePage s.frames (s.pageMapsToFree.filter (· ≠ 0)) page := by
    rintro page ⟨r,hr,path,t,hpa,ht,htp⟩ ⟨r',hr',path',t',hp',ht',htp'⟩
    have hr'i : r' ∈ s.roots := mem_cons_of_mem _ (mem_append_right _ hr')
    have ha := (h.maps.placed r (hl r hr) path t hpa ht).1
    have ha' := (h.maps.placed r' hr'i path' t' hp' ht').1
    have hs : t' = t := by rw [← page_mul_div ha,← page_mul_div ha',htp,htp']
    have he := (h.maps.unique r (hl r hr) r' hr'i path path' t hpa hp' ht (hs ▸ ht')).1
    have hd := h.distinct
    rw [roots_eq_append] at hd
    rw [hro] at hr
    exact (nodup_append.mp hd).2.2 r hr r' hr' he
  have ho : ∀ f, s'.owners f = s.owners f := by
    intro f
    unfold owners
    rw [hp]
  have hlo : ∀ f, s'.frames.physical.Locked f ↔ s.frames.physical.Locked f ∧
      ¬ TablePage s.frames (s.pageMapsToFree.filter (· ≠ 0)) f := by
    rw [hσ]
    exact hb.locked
  have hpag : ∀ f, TablePage s'.frames s'.roots f → TablePage s.frames s.roots f := by
    rintro f ⟨r,hr,path,t,hpa,ht,rfl⟩
    rw [hs] at ht
    exact ⟨r,hl r hr,path,t,hpa,ht,rfl⟩
  have hde : ∀ f, TablePage s.frames (s.pageMapsToFree.filter (· ≠ 0)) f → TablePage s.frames s.roots f := by
    rintro f ⟨r,hr,rest⟩
    exact ⟨r,mem_cons_of_mem _ (mem_append_right _ hr),rest⟩
  have hma := h.maps.mono hl
  have hto := hσ ▸ hb.total
  have hfr := h.frames_kept
    (fun f => (ho f).symm.trans (zero_add _).symm) hto
    (fun f hh hta _ => (hlo f).mpr ⟨hh,fun hg => hta (hde f hg)⟩)
    fun f hf => .inl (hpag f hf)
  have hc := Carries.of_memory hs
  refine h.of_fitting ?_ ?_ (fun hz => h.nonzero (hl 0 hz)) (hp ▸ h.pids) hfr
    hto hkernel (hc _) ?_ ?_
  · refine hma.transfer (hσ ▸ hb.sound) hto ?_ ?_
    · intro r _ path _
      rw [hs]
    intro page hta
    refine (hlo page).mpr ⟨?_,hlos page hta⟩
    obtain ⟨r,hr,path,t,hpa,ht,rfl⟩ := hta
    exact (hma.placed r hr path t hpa ht).2.1
  · have hd := h.distinct
    rw [roots_eq_append] at hd
    rw [hro]
    exact hd.of_append_left
  · intro q hq
    rw [hp] at hq
    exact (h.fitting hq).carry (hc _) hto (by rw [← hs']) rfl
  · intro f
    rw [ho,← hs']
    exact h.log f
end

inductive Change
  | grant (pid : Nat) (g : Region)
  | drop (p : Process) (gone : List Region)
  | discard (p : Process)
  | other

/-- The steps the memory of the machine takes. While a process is forked, the regions of the
original are lent to the child, until they are copied. -/
inductive Move : Machine → (Nat → List Region) → Change → Machine → (Nat → List Region) → Prop
  | grant {s s' p before after g next lent lent'} (hat : At s p before after)
      (hgrants : Grants s p before after g next s')
      (hlent : ∀ pid, pid ≠ p.processID → lent' pid = lent pid)
      (hfewer : ∀ g' ∈ lent' p.processID, g' ∈ lent p.processID)
      (hback : ∀ g' ∈ lent p.processID, g' ∈ lent' p.processID ∨ ∀ v, g'.Covers v → g.Covers v) :
      Move s lent (.grant p.processID g) s' lent'
  | drop {s s' p before after gone rest} (hat : At s p before after)
      (hdrops : Drops s p before after gone rest s') :
      Move s (fun _ => []) (.drop p gone) s' (fun _ => [])
  | discard {s s' p before after} (hat : At s p before after)
      (hdiscards : Discards s p before after s') :
      Move s (fun _ => []) (.discard p) s' (fun _ => [])
  | create {s s' child} (hstart : Starts s s.kernelMap child s') :
      Move s (fun _ => []) .other s' (fun _ => [])
  | fork {s s' p child} (hp : p ∈ s.processes) (hstart : Starts s p.cr3 child s') :
      Move s (fun _ => []) .other s' (fun pid => if pid = child.processID then p.memories else [])
  | steady {s s' lent} (hkeeps : Keeps s.roots s.frames s'.frames)
      (hsame : SameTranslation s.roots s.frames s'.frames) (hkernel : s'.kernelMap = s.kernelMap)
      (hdead : s'.pageMapsToFree.filter (· ≠ 0) = s.pageMapsToFree.filter (· ≠ 0))
      (hpid : s.thePid ≤ s'.thePid) (hview : s'.processes.map view = s.processes.map view)
      (hlog : s'.log = s.log) : Move s lent .other s' lent
  | reap {s} : Move s (fun _ => []) .other s.reapPageMaps (fun _ => [])

inductive Moves (ok : Machine → (Nat → List Region) → Change → Prop) :
    Machine → (Nat → List Region) → Machine → (Nat → List Region) → Prop
  | refl {s lent} : Moves ok s lent s lent
  | next {s lent s1 lent1 c s2 lent2} : Moves ok s lent s1 lent1 → ok s1 lent1 c →
      Move s1 lent1 c s2 lent2 → Moves ok s lent s2 lent2

section
variable {s s' : Machine} {lent lent' : Nat → List Region} {c : Change}
theorem Apportioned.move (h : Apportioned s lent) (hmo : Move s lent c s' lent') : Apportioned s' lent' := by
  cases hmo with
  | grant ha hgr hl hf hb => exact h.grant ha hgr hl hf hb
  | drop ha hdr => exact h.drop ha hdr
  | discard ha hd => exact h.discard ha hd
  | create hs =>
    have hn := h.spawn [] mem_cons_self hs
      (fun v hv e he hu => by
        rw [h.supervisor v hv e he] at hu
        cases hu)
      (fun g hg => by cases hg)
    simpa only [ite_self] using hn
  | fork hp hs =>
    rename_i p child
    refine h.spawn p.memories (mem_cons_of_mem _ (mem_map_of_mem hp)) hs ?_ ?_
    · intro v hv e he hu
      have hsh := h.confined p hp v hv _ ⟨e,he,hu,rfl⟩
      rwa [append_nil] at hsh
    · intro g hg v hv
      exact h.tables p hp g (mem_append_left _ hg) v hv
  | steady hkeeps hsa hkernel hdead hpid hview hlog =>
    exact h.steady hkeeps hkernel hdead hpid hview hlog hsa
  | reap => exact h.reap

theorem Apportioned.move_total (h : Apportioned s lent) (hmo : Move s lent c s' lent') :
    s'.frames.physical.totalPages = s.frames.physical.totalPages := by
  cases hmo with
  | grant _ hg => exact hg.gives.keeps.total
  | drop _ hdr => exact hdr.back.total
  | discard _ hd => exact hd.back.total
  | create hs | fork _ hs => exact hs.spawns.total
  | steady hkeeps => exact hkeeps.total
  | reap => exact h.reap_frames.2

variable {ok : Machine → (Nat → List Region) → Change → Prop}
theorem Moves.trans {s1 s2 s3 : Machine}
    {lent1 lent2 lent3 : Nat → List Region} (h : Moves ok s1 lent1 s2 lent2)
    (h' : Moves ok s2 lent2 s3 lent3) : Moves ok s1 lent1 s3 lent3 := by
  induction h' with
  | refl => exact h
  | next _ ho hmo ih => exact .next ih ho hmo

theorem Apportioned.moves (h : Apportioned s lent) (hmo : Moves ok s lent s' lent') : Apportioned s' lent' := by
  induction hmo with
  | refl => exact h
  | next _ _ hmov ih => exact ih.move hmov

theorem Apportioned.moves_total (h : Apportioned s lent) (hmo : Moves ok s lent s' lent') :
    s'.frames.physical.totalPages = s.frames.physical.totalPages := by
  induction hmo with
  | refl => rfl
  | next hmo _ hmov ih => exact ((h.moves hmo).move_total hmov).trans ih
end
end Machine
end LensorOS.Memory
