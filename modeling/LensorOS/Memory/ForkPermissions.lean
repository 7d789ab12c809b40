import LensorOS.Memory.ForkCopies

/-!
# Permissions after a fork

The regions of a child are mapped writable, whatever the flags of the original.
-/
namespace LensorOS.Memory
open Framework PageDirectoryEntry
namespace Machine
/-- Each user page of `q` has the flags of the same page of `p`. -/
def SameFlags (s : Machine) (p : Process) (s' : Machine) (q : Process) : Prop :=
  ∀ v < 2^36, ∀ e', translate s'.frames.memory q.cr3 v = some e' → flag e' .userSuper = true →
    ∃ e, translate s.frames.memory p.cr3 v = some e ∧
      flag e .userSuper = flag e' .userSuper ∧ flag e .readWrite = flag e' .readWrite

def AllWritable (s : Machine) (p : Process) : Prop :=
  ∀ g ∈ p.memories, ∀ v, g.Covers v → UserWritable s.frames.memory p.cr3 v

/-- A process that comes from `p` through forks. Between two forks, the one that forks next has
left its regions and its page map as they are. -/
inductive Descends (s : Machine) (p : Process) : Machine → Process → Prop
  | self : Descends s p s p
  | fork {s1 q s2 child} : Descends s p s1 q → Forks s1 q s2 child → Descends s p s2 child
  | later {s1 q s2 q'} : Descends s p s1 q → Reachable Booted step sparing s2 →
      q' ∈ s2.processes → q'.memories = q.memories →
      (∀ v < 2^36, translate s2.frames.memory q'.cr3 v = translate s1.frames.memory q.cr3 v) →
      Descends s p s2 q'

section
variable {s s' s1 : Machine} {p child q : Process} {v : Nat}
theorem Forks.reachable (h : Reachable Booted step sparing s) (hf : Forks s p s' child) :
    Reachable Booted step sparing s' := .next h hf.call ⟨trivial,trivial⟩

theorem Region.covers_copy {g g' : Region} (hc : g' = { g with paddr := g'.paddr }) : g'.Covers v ↔ g.Covers v := by
  rw [hc]
  exact Iff.rfl

theorem Forks.allWritable (h : Apportioned s fun _ => []) (hf : Forks s p s' child) :
    AllWritable s' child := by
  obtain ⟨new,s1,-,-,hc,-,hr⟩ := hf.spec h
  intro g' hg' v hco
  obtain ⟨g,hg,hcop⟩ := hr g' hg'
  exact hc.writable g hg v ((Region.covers_copy hcop).mp hco)

section
variable (h : Apportioned s fun _ => []) (h' : Apportioned s' fun _ => []) (hf : Forks s p s' child)
include h h' hf
theorem Forks.userPage (hv : v < 2^36) {e' : BitVec 64}
    (he' : translate s'.frames.memory child.cr3 v = some e') (hu : flag e' .userSuper = true) :
    flag e' .readWrite = true ∧ ∃ g ∈ p.memories, g.Covers v := by
  obtain ⟨new,s1,-,-,hc,-,hr⟩ := hf.spec h
  obtain ⟨g',hg',hs⟩ := h'.confined child hf.there v hv _ ⟨e',he',hu,rfl⟩
  rw [List.append_nil] at hg'
  obtain ⟨g,hg,hcop⟩ := hr g' hg'
  have hco := (Region.covers_copy hcop).mp hs.covers
  obtain ⟨e,he,-,hw⟩ := hc.writable g hg v hco
  rw [he'] at he
  cases he
  exact ⟨hw,g,hg,hco⟩

theorem Forks.sameFlags_iff : SameFlags s p s' child ↔ AllWritable s p := by
  constructor
  · intro hfl g hg v hco
    obtain ⟨new,s1,-,-,hc,-⟩ := hf.spec h
    obtain ⟨e',he',hu',hw'⟩ := hc.writable g hg v hco
    obtain ⟨i,-,rfl⟩ := hco
    obtain ⟨e,he,hu,hw⟩ := hfl _ (vpage_lt _) e' he' hu'
    exact ⟨e,he,hu.trans hu',hw.trans hw'⟩
  · intro ha v hv e' he' hu'
    obtain ⟨hw',g,hg,hco⟩ := hf.userPage h h' hv he' hu'
    obtain ⟨e,he,hu,hw⟩ := ha g hg v hco
    exact ⟨e,he,hu.trans hu'.symm,hw.trans hw'.symm⟩
end

theorem SameFlags.trans {s2 : Machine} {q' : Process} (h : SameFlags s p s1 q)
    (h' : SameFlags s1 q s2 q') : SameFlags s p s2 q' := by
  intro v hv e2 he2 hu2
  obtain ⟨e1,he1,hu1,hw1⟩ := h' v hv e2 he2 hu2
  obtain ⟨e,he,hu,hw⟩ := h v hv e1 he1 (hu1.trans hu2)
  exact ⟨e,he,hu.trans hu1,hw.trans hw1⟩

theorem Descends.sameFlags (h : Reachable Booted step sparing s) (hal : AllWritable s p)
    (hch : Descends s p s1 q) :
    Reachable Booted step sparing s1 ∧ AllWritable s1 q ∧ SameFlags s p s1 q := by
  induction hch with
  | self => exact ⟨h,hal,fun v _ e he _ => ⟨e,he,rfl,rfl⟩⟩
  | fork _ hf ih =>
    obtain ⟨hr,hw,hfl⟩ := ih
    have ha := apportioned_of_run (served_of_sparing hr)
    have hr' := hf.reachable hr
    have ha' := apportioned_of_run (served_of_sparing hr')
    exact ⟨hr',hf.allWritable ha,hfl.trans ((hf.sameFlags_iff ha ha').mpr hw)⟩
  | later _ hr' _ hm hsa ih =>
    obtain ⟨-,hw,hfl⟩ := ih
    refine ⟨hr',fun g hg v hc => ?_,fun v hv e he hu => ?_⟩
    · obtain ⟨i,-,rfl⟩ := id hc
      obtain ⟨e,he,hs⟩ := hw g (hm ▸ hg) _ hc
      exact ⟨e,(hsa _ (vpage_lt _)).trans he,hs⟩
    · rw [hsa v hv] at he
      exact hfl v hv e he hu
end

/-- The flags of all user pages are kept by a fork exactly when user code can write every page of
the original's regions, and then they are kept by all chains of forks. -/
theorem fork_permissions {s s' : Machine} {p child : Process}
    (h : Reachable Booted step sparing s) (hf : Forks s p s' child) :
    (SameFlags s p s' child ↔ AllWritable s p) ∧
      (AllWritable s p → ∀ s1 q, Descends s p s1 q → SameFlags s p s1 q) := by
  have ha := apportioned_of_run (served_of_sparing h)
  have ha' := apportioned_of_run (served_of_sparing (hf.reachable h))
  exact ⟨hf.sameFlags_iff ha ha',fun hal s1 q hc => (hc.sameFlags h hal).2.2⟩

theorem fork_permissions_small : ∃ s p s' child, Reachable Booted step sparing s ∧
    Forks s p s' child ∧ (SameFlags s p s' child ↔ AllWritable s p) ∧
    (AllWritable s p → ∀ s1 q, Descends s p s1 q → SameFlags s p s1 q) := by
  obtain ⟨p,h⟩ := small_oneProcess
  obtain ⟨s',child,hf⟩ := h.forks
  exact ⟨_,p,s',child,h.reachable,hf,fork_permissions h.reachable hf⟩

/-- The read-only page of the code can be written after a fork. -/
theorem fork_makes_writable : ∃ s p s' child v e e', Reachable Booted step sparing s ∧
    Forks s p s' child ∧ translate s.frames.memory p.cr3 v = some e ∧
    flag e .userSuper = true ∧ flag e .readWrite = false ∧
    translate s'.frames.memory child.cr3 v = some e' ∧ flag e' .userSuper = true ∧
    flag e' .readWrite = true := by
  obtain ⟨p,h⟩ := small_oneProcess
  obtain ⟨s',child,hf⟩ := h.forks
  obtain ⟨e,he,hu,hw⟩ := h.code
  obtain ⟨new,s1,-,-,hc,-⟩ := hf.spec (apportioned_of_run h.served)
  obtain ⟨a,b,hm⟩ := h.memories
  have hco : (segmentRegion codeHeader b).Covers 512 := by
    obtain ⟨i,hi,hp⟩ := mem_runPages.mp code_page
    have hwh := small_whole.segments codeHeader List.mem_cons_self rfl
    exact ⟨i,(segment_mapped hwh b).symm ▸ hi,hp⟩
  obtain ⟨e',he',hu',hw'⟩ := hc.writable (segmentRegion codeHeader b) (by simp [hm]) 512 hco
  exact ⟨_,p,s',child,512,e,e',h.reachable,hf,he,hu,hw,he',hu',hw'⟩
end Machine
end LensorOS.Memory
