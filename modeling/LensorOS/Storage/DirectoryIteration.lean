import LensorOS.Storage.FileAllocationTable
import Mathlib.Data.Fintype.Order
import Mathlib.Logic.Relation

/-!
# Iterating over a directory

What the loop over a directory visits, as a relation; when the loop ends; and which
directories it lists exactly.
-/
namespace LensorOS.Storage.FileAllocationTableDriver
open Option Relation
variable (d : FileAllocationTableDriver)
/-- What the loop visits from an iterator on that is about to look at its entry. -/
inductive Yields : Iterator → List Found → Prop
  | done {it : Iterator} (hmore : it.moreClusters = false) : Yields it []
  | cluster {it : Iterator} {found : List Found} (hmore : it.moreClusters = true)
      (hin : ¬ d.Strays it) (hend : it.entry.mark = 0) (h : Yields (d.tryReadNextCluster it) found) : Yields it found
  | long {it : Iterator} {found : List Found} (hmore : it.moreClusters = true)
      (hin : ¬ d.Strays it) (hend : it.entry.mark ≠ 0) (hdel : it.entry.mark ≠ 0xe5)
      (hlong : it.entry.longFileName = true) (h : Yields it.clear.extend found) : Yields it found
  | short {it : Iterator} {found : List Found} (hmore : it.moreClusters = true)
      (hin : ¬ d.Strays it) (hend : it.entry.mark ≠ 0) (hdel : it.entry.mark ≠ 0xe5)
      (hshort : it.entry.longFileName = false) (h : Yields (d.settle it.clear).skip found) :
      Yields it ((d.settle it.clear).current :: found)

/-- What the loop visits from an iterator on that stands at an entry or at the end. -/
def Resumes (it : Iterator) (found : List Found) : Prop := it.moreClusters = false ∧ found = [] ∨
    it.moreClusters = true ∧ ∃ rest, found = it.current :: rest ∧ d.Yields it.skip rest

section
variable {d} {it it' : Iterator} {found : List Found}
@[simp] theorem clear_moreClusters (it : Iterator) : it.clear.moreClusters = it.moreClusters := by
  unfold Iterator.clear
  split <;> rfl

section
variable (fuel : Nat) (hmore : it.moreClusters = true) (hin : ¬ d.Strays it)
  (hend : it.entry.mark ≠ 0) (hdel : it.entry.mark ≠ 0xe5)
include hmore hin hend hdel
theorem search_long (hl : it.entry.longFileName = true) : d.search (fuel+1) it = d.search fuel it.clear.extend := by
  rw [search,if_neg (by simp [hmore]),if_neg hin,if_neg hend,if_neg hdel,if_pos hl]

theorem search_short (hs : it.entry.longFileName = false) : d.search (fuel+1) it = some (d.settle it.clear) := by
  rw [search,if_neg (by simp [hmore]),if_neg hin,if_neg hend,if_neg hdel,if_neg (by simp [hs])]
end

theorem yields_of_search {fuel : Nat} (hs : d.search fuel it = some it')
    (h : d.Resumes it' found) : d.Yields it found := by
  induction fuel generalizing it with
  | zero => cases hs
  | succ fuel ih =>
    rw [search] at hs
    split at hs
    · next hmore =>
      cases hs
      rcases h with ⟨-,rfl⟩ | ⟨hm',-⟩
      · exact .done hmore
      · rw [hmore] at hm'
        cases hm'
    · next hmore =>
      rw [Bool.not_eq_false] at hmore
      split at hs
      · cases hs
      next hin =>
      split at hs
      · next hend => exact .cluster hmore hin hend (ih hs)
      next hend =>
      split at hs
      · exact ih hs
      next hdel =>
      split at hs
      · next hl => exact .long hmore hin hend hdel hl (ih hs)
      next hsh =>
      cases hs
      rcases h with ⟨hm',-⟩ | ⟨-,rest,rfl,hr⟩
      · rw [settle,clear_moreClusters,hmore] at hm'
        cases hm'
      · exact .short hmore hin hend hdel (Bool.not_eq_true _ ▸ hsh) hr

theorem resumes_of_visits {fuel turns : Nat} (h : d.visits fuel turns it = some found) : d.Resumes it found := by
  induction turns generalizing it found with
  | zero => cases h
  | succ turns ih =>
    rw [visits] at h
    split at h
    · next hmore =>
      obtain ⟨next,hn,h⟩ := bind_eq_some_iff.mp h
      obtain ⟨rest,hr,h⟩ := bind_eq_some_iff.mp h
      cases h
      exact .inr ⟨hmore,rest,rfl,yields_of_search hn (ih hr)⟩
    · next hmore =>
      cases h
      exact .inl ⟨Bool.not_eq_true _ ▸ hmore,rfl⟩

theorem Yields.enough (h : d.Yields it found) : ∃ bound, ∀ first ≥ bound, ∀ fuel ≥ bound,
    ∀ turns ≥ bound, (d.search first it).bind (d.visits fuel turns) = some found := by
  induction h with
  | done hmore =>
    refine ⟨1,fun first hf fuel _ turns ht => ?_⟩
    obtain ⟨first,rfl⟩ := Nat.exists_eq_add_of_le' hf
    obtain ⟨turns,rfl⟩ := Nat.exists_eq_add_of_le' ht
    simp [search,visits,hmore]
  | cluster hmore hin hend _ ih =>
    obtain ⟨bound,ih⟩ := ih
    refine ⟨bound+1,fun first hf fuel hfu turns ht => ?_⟩
    obtain ⟨first,rfl⟩ := Nat.exists_eq_add_of_le' (Nat.le_of_add_left_le hf)
    simpa [search,hmore,hin,hend] using ih first (by omega) fuel (by omega) turns (by omega)
  | long hmore hin hend hdel hl _ ih =>
    obtain ⟨bound,ih⟩ := ih
    refine ⟨bound+1,fun first hf fuel hfu turns ht => ?_⟩
    obtain ⟨first,rfl⟩ := Nat.exists_eq_add_of_le' (Nat.le_of_add_left_le hf)
    rw [search_long first hmore hin hend hdel hl]
    exact ih first (by omega) fuel (by omega) turns (by omega)
  | @short it found hmore hin hend hdel hsh _ ih =>
    obtain ⟨bound,ih⟩ := ih
    refine ⟨bound+1,fun first hf fuel hfu turns ht => ?_⟩
    obtain ⟨first,rfl⟩ := Nat.exists_eq_add_of_le' (Nat.le_of_add_left_le hf)
    obtain ⟨turns,rfl⟩ := Nat.exists_eq_add_of_le' (Nat.le_of_add_left_le ht)
    have hr := ih fuel (by omega) fuel (by omega) turns (by omega)
    obtain ⟨next,hn,hv⟩ := bind_eq_some_iff.mp hr
    have hs : (d.settle it.clear).moreClusters = true := by rw [settle,clear_moreClusters,hmore]
    rw [search_short first hmore hin hend hdel hsh,bind_some,visits,if_pos hs]
    simp [increment,hn,hv]
end

variable (directoryCluster : BitVec 32)
def opened : Iterator := (d.readNextCluster { clusterIndex := directoryCluster }).skip

theorem forEach_iff (found : List Found) :
    (∃ fuel, d.forEachDirEntryIn fuel directoryCluster = some found) ↔
      d.Yields (d.opened directoryCluster) found := by
  constructor
  · intro ⟨fuel,h⟩
    obtain ⟨it,hi,hv⟩ := bind_eq_some_iff.mp h
    exact yields_of_search hi (resumes_of_visits hv)
  intro h
  obtain ⟨bound,h⟩ := h.enough
  exact ⟨bound,h bound le_rfl bound le_rfl bound le_rfl⟩

/-- A place in an iteration: a cluster that has been read, the index of the first entry that
is looked at, and the sector of the table that was looked at last. -/
structure Visit where
  cluster : BitVec 32
  start : Nat
  lastFatSector : BitVec 64

variable (v : Visit)
def remaining : List ClusterEntry := (d.clusterEntries v.cluster).drop v.start
def terminator : ClusterEntry := ((d.remaining v).find? (·.mark == 0)).getD .zero

/-- The cluster has a zero entry, none before it is deleted, and the look at the table that follows
stays in its vector. -/
structure Clean : Prop where
  padded : ∃ e ∈ d.remaining v, e.mark = 0
  live : ∀ e ∈ (d.remaining v).takeWhile (·.mark != 0), e.mark ≠ 0xe5
  inside : ¬ d.Overruns v.lastFatSector (d.terminator v).getClusterNumber

def next : Option Visit :=
  match d.lookUp v.lastFatSector (d.terminator v).getClusterNumber with
  | some (fatSector,value,true) => some ⟨value,0,fatSector⟩
  | _ => none

def Link (v w : Visit) : Prop := d.next v = some w

/-- A finite chain of clean clusters. -/
inductive Ends : Visit → Prop
  | last {v : Visit} (hclean : d.Clean v) (h : d.next v = none) : Ends v
  | more {v w : Visit} (hclean : d.Clean v) (h : d.next v = some w) (hrest : Ends w) : Ends v

/-- The iterator has read the cluster of a visit and stands at its first entry. -/
structure Standing (it : Iterator) (v : Visit) : Prop where
  contents : it.clusterContents = d.clusterEntries v.cluster
  start : it.ce = v.start
  sector : it.lastFatSector = v.lastFatSector
  more : it.moreClusters = true

section
variable {d} {it : Iterator} {v w : Visit} {found : List Found}
def Visit.skip (v : Visit) : Visit := { v with start := v.start+1 }

theorem Standing.entry (h : d.Standing it v) : it.entry = (d.remaining v).headD .zero := by
  rw [Iterator.entry,h.contents,h.start,remaining,List.headD_eq_head?_getD,List.head?_drop, List.getD_eq_getElem?_getD]

theorem Standing.remaining (h : d.Standing it v) (hend : it.entry.mark ≠ 0) :
    d.remaining v = it.entry :: d.remaining v.skip := by
  have hs : d.remaining v.skip = (d.remaining v).tail := by
    simp [FileAllocationTableDriver.remaining,Visit.skip]
  have he := h.entry
  cases hr : d.remaining v with
  | nil =>
    rw [hr] at he
    rw [he] at hend
    exact absurd rfl hend
  | cons e rest =>
    rw [hr] at he
    rw [hs,hr,he]
    rfl

theorem Standing.nonempty_iff (h : d.Standing it v) :
    d.remaining v ≠ [] ↔ it.ce < it.clusterContents.length := by
  rw [FileAllocationTableDriver.remaining,← h.contents,← h.start,ne_eq,List.drop_eq_nil_iff,not_le]

theorem Standing.terminator (h : d.Standing it v) (hend : it.entry.mark = 0) :
    d.terminator v = it.entry := by
  have he := h.entry
  unfold FileAllocationTableDriver.terminator
  cases hr : d.remaining v with
  | nil =>
    rw [hr] at he
    simp [he]
  | cons e rest =>
    rw [hr] at he
    obtain rfl : it.entry = e := he
    simp [hend]

theorem Standing.clean (h : d.Standing it v) (hin : ¬ d.Strays it) (hend : it.entry.mark = 0) :
    d.Clean v := by
  obtain ⟨hl,ho⟩ := not_or.mp hin
  have he := h.entry
  rw [← not_lt,not_not,← h.nonempty_iff] at hl
  obtain ⟨e,rest,hr⟩ := List.exists_cons_of_ne_nil hl
  rw [hr] at he
  obtain rfl : it.entry = e := he
  refine ⟨⟨it.entry,hr ▸ List.mem_cons_self,hend⟩,by simp [hr,hend],?_⟩
  rw [h.terminator hend,← h.sector]
  exact fun hov => ho ⟨hend,hov⟩

theorem Standing.inside (h : d.Standing it v) (hc : d.Clean v) : ¬ d.Strays it := by
  obtain ⟨e,he,-⟩ := hc.padded
  have hl := h.nonempty_iff.mp (List.ne_nil_of_mem he)
  rintro (hs | ⟨hend,ho⟩)
  · exact absurd hl (not_lt.mpr hs)
  · have hin := hc.inside
    rw [h.terminator hend,← h.sector] at hin
    exact hin ho

section
variable {e : ClusterEntry} (h : d.remaining v = e :: d.remaining v.skip) (hend : e.mark ≠ 0)
include h hend
theorem terminator_skip : d.terminator v = d.terminator v.skip := by
  rw [terminator,h,List.find?_cons_of_neg (by simpa using hend),terminator]

theorem clean_skip : d.Clean v ↔ e.mark ≠ 0xe5 ∧ d.Clean v.skip := by
  have ht : (d.remaining v).takeWhile (·.mark != 0) =
      e :: (d.remaining v.skip).takeWhile (·.mark != 0) := by
    rw [h,List.takeWhile_cons_of_pos (by simpa using hend)]
  have hp : (∃ e ∈ d.remaining v, e.mark = 0) ↔ ∃ e ∈ d.remaining v.skip, e.mark = 0 := by
    rw [h,List.exists_mem_cons_iff,or_iff_right hend]
  have ho := terminator_skip h hend
  constructor
  · rintro ⟨hz,hl,hin⟩
    rw [ht,List.forall_mem_cons] at hl
    exact ⟨hl.1,hp.mp hz,hl.2,ho ▸ hin⟩
  · rintro ⟨he,hz,hl,hin⟩
    refine ⟨hp.mpr hz,?_,ho ▸ hin⟩
    rw [ht,List.forall_mem_cons]
    exact ⟨he,hl⟩

theorem next_skip : d.next v = d.next v.skip := by
  rw [next,terminator_skip h hend]
  rfl

theorem ends_skip : d.Ends v ↔ e.mark ≠ 0xe5 ∧ d.Ends v.skip := by
  constructor
  · intro hen
    cases hen with
    | last hc hn =>
      obtain ⟨he,hc⟩ := (clean_skip h hend).mp hc
      exact ⟨he,.last hc (next_skip h hend ▸ hn)⟩
    | more hc hn hr =>
      obtain ⟨he,hc⟩ := (clean_skip h hend).mp hc
      exact ⟨he,.more hc (next_skip h hend ▸ hn) hr⟩
  · intro ⟨he,hen⟩
    cases hen with
    | last hc hn =>
      exact .last ((clean_skip h hend).mpr ⟨he,hc⟩) ((next_skip h hend).trans hn)
    | more hc hn hr =>
      exact .more ((clean_skip h hend).mpr ⟨he,hc⟩) ((next_skip h hend).trans hn) hr
end

theorem Standing.long (h : d.Standing it v) : d.Standing it.clear.extend v.skip := by
  unfold Iterator.clear
  split <;> exact ⟨h.contents,congrArg (· + 1) h.start,h.sector,h.more⟩

theorem Standing.short (h : d.Standing it v) : d.Standing (d.settle it.clear).skip v.skip := by
  unfold Iterator.clear
  split <;> exact ⟨h.contents,congrArg (· + 1) h.start,h.sector,h.more⟩

theorem Standing.tryReadNextCluster (h : d.Standing it v) (hend : it.entry.mark = 0) :
    (d.next v = none ∧ (d.tryReadNextCluster it).moreClusters = false) ∨
      ∃ w, d.next v = some w ∧ d.Standing (d.tryReadNextCluster it) w := by
  unfold next FileAllocationTableDriver.tryReadNextCluster
  rw [h.terminator hend,← h.sector]
  cases hl : d.lookUp it.lastFatSector it.entry.getClusterNumber with
  | none => exact .inl ⟨rfl,rfl⟩
  | some result =>
    obtain ⟨fatSector,value,more⟩ := result
    cases more with
    | false => exact .inl ⟨rfl,rfl⟩
    | true => exact .inr ⟨⟨value,0,fatSector⟩,rfl,rfl,rfl,rfl,rfl⟩

theorem ends_of_yields (h : d.Yields it found) (hs : d.Standing it v) : d.Ends v := by
  induction h generalizing v with
  | done hmore =>
    rw [hs.more] at hmore
    cases hmore
  | cluster _ hin hend _ ih =>
    have hc := hs.clean hin hend
    rcases hs.tryReadNextCluster hend with ⟨hn,-⟩ | ⟨w,hn,hw⟩
    · exact .last hc hn
    · exact .more hc hn (ih hw)
  | long _ _ hend hdel _ _ ih =>
    exact (ends_skip (hs.remaining hend) hend).mpr ⟨hdel,ih hs.long⟩
  | short _ _ hend hdel _ _ ih =>
    exact (ends_skip (hs.remaining hend) hend).mpr ⟨hdel,ih hs.short⟩

theorem Standing.atEnd (hs : d.Standing it v) (hc : d.Clean v) (hend : it.entry.mark = 0)
    (ha : ∀ w, d.next v = some w → ∀ it', d.Standing it' w → ∃ found, d.Yields it' found) :
    ∃ found, d.Yields it found := by
  rcases hs.tryReadNextCluster hend with ⟨-,hmore⟩ | ⟨w,hn,hw⟩
  · exact ⟨[],.cluster hs.more (hs.inside hc) hend (.done hmore)⟩
  · obtain ⟨found,hf⟩ := ha w hn _ hw
    exact ⟨found,.cluster hs.more (hs.inside hc) hend hf⟩

theorem Standing.through (hs : d.Standing it v) (hc : d.Clean v)
    (ha : ∀ w, d.next v = some w → ∀ it', d.Standing it' w → ∃ found, d.Yields it' found) :
    ∃ found, d.Yields it found := by
  induction hre : d.remaining v generalizing it v with
  | nil =>
    obtain ⟨e,he,-⟩ := hc.padded
    exact absurd (hre ▸ he) List.not_mem_nil
  | cons e rest ih =>
    by_cases hend : it.entry.mark = 0
    · exact hs.atEnd hc hend ha
    have hr := hs.remaining hend
    have hin := hs.inside hc
    obtain ⟨hdel,hc'⟩ := (clean_skip hr hend).mp hc
    rw [next_skip hr hend] at ha
    have hsk := (List.cons.inj (hr.symm.trans hre)).2
    cases hl : it.entry.longFileName with
    | true =>
      obtain ⟨found,hf⟩ := ih hs.long hc' ha hsk
      exact ⟨found,.long hs.more hin hend hdel hl hf⟩
    | false =>
      obtain ⟨found,hf⟩ := ih hs.short hc' ha hsk
      exact ⟨_,.short hs.more hin hend hdel hl hf⟩

theorem Ends.yields (h : d.Ends v) (hs : d.Standing it v) : ∃ found, d.Yields it found := by
  induction h generalizing it with
  | last hc hn =>
    apply hs.through hc
    intro w hw
    rw [hn] at hw
    cases hw
  | more hc hn _ ih =>
    apply hs.through hc
    intro w' hw' it' hi'
    rw [hn] at hw'
    cases hw'
    exact ih hi'

theorem Ends.acyclic (h : d.Ends v) (hw : ReflTransGen d.Link v w) : d.Clean w ∧ ¬ TransGen d.Link w w := by
  induction h generalizing w with
  | last hc hn =>
    have hno : ∀ u, ¬ d.Link _ u := fun u hl => by
      cases hn.symm.trans hl
    rcases hw.cases_head with rfl | ⟨u,hl,-⟩
    · exact ⟨hc,fun ht => let ⟨u,hl,_⟩ := TransGen.head'_iff.mp ht; hno u hl⟩
    · exact absurd hl (hno u)
  | more hc hn _ ih =>
    have hto : ∀ u, d.Link _ u → u = _ := fun u hl => Option.some.inj (hl.symm.trans hn)
    rcases hw.cases_head with rfl | ⟨u,hl,hu⟩
    · refine ⟨hc,fun ht => ?_⟩
      obtain ⟨u,hl,hu⟩ := TransGen.head'_iff.mp ht
      obtain rfl := hto u hl
      exact (ih hu).2 ht
    · obtain rfl := hto u hl
      exact ih hu

theorem start_of_links (hv : v.start ≤ 1) (hw : ReflTransGen d.Link v w) : w.start ≤ 1 := by
  rcases hw.cases_tail with rfl | ⟨u,-,hl⟩
  · exact hv
  · unfold Link next at hl
    split at hl
    · cases hl
      exact Nat.zero_le 1
    · cases hl
end

/-- There are finitely many places, so links without a cycle end. -/
theorem ends_iff {v : Visit} (hv : v.start ≤ 1) : d.Ends v ↔
    ∀ w, ReflTransGen d.Link v w → d.Clean w ∧ ¬ TransGen d.Link w w := by
  refine ⟨fun h w hw => h.acyclic hw,fun h => ?_⟩
  let Reached := { w : Visit // ReflTransGen d.Link v w }
  let place (w : Reached) : Fin (2^32) × Fin 2 × Fin (2^64) :=
    (w.1.cluster.toFin,⟨w.1.start,Nat.lt_succ_of_le (start_of_links hv w.2)⟩,w.1.lastFatSector.toFin)
  have hinj : Function.Injective place := by
    rintro ⟨⟨c,i,s⟩,hw⟩ ⟨⟨c',i',s'⟩,hw'⟩ heq
    simp only [place,Prod.mk.injEq,Fin.mk.injEq,BitVec.toFin_inj] at heq
    obtain ⟨rfl,rfl,rfl⟩ := heq
    rfl
  have : Finite Reached := Finite.of_injective place hinj
  let After (u w : Reached) : Prop := TransGen d.Link w.1 u.1
  have : IsTrans Reached After := ⟨fun _ _ _ hu hw => TransGen.trans hw hu⟩
  have : Std.Irrefl After := ⟨fun w => (h w.1 w.2).2⟩
  have hwf : WellFounded After := Finite.wellFounded_of_trans_of_irrefl After
  have hall : ∀ w : Reached, d.Ends w.1 := by
    intro w
    induction w using hwf.induction with | _ w ih
    have hc := (h w.1 w.2).1
    cases hn : d.next w.1 with
    | none => exact .last hc hn
    | some u => exact .more hc hn (ih ⟨u,w.2.tail hn⟩ (.single hn))
  exact hall ⟨v,.refl⟩

/-- The boot record of a volume with sectors and clusters of 512 bytes: one reserved sector,
one table of one sector, no root directory area, 100 sectors. -/
def smallBootRecord : List (Nat × BitVec 8) := [(12,2),(13,1),(14,1),(16,1),(19,100),(22,1),(510,0x55),(511,0xaa)]

def smallVolume (contents : List (Nat × BitVec 8)) : FileAllocationTableDriver :=
  let device : Framework.Bytes := fun x => ((smallBootRecord ++ contents).lookup x).getD 0
  ⟨device,0,BootRecord.ofBytes device⟩

end LensorOS.Storage.FileAllocationTableDriver
