import LensorOS.Framework.Run
import LensorOS.Memory.PhysicalMemoryManager

/-!
# Physical page ownership

Callers that share the physical memory manager, with a record of who was handed which page.
The record is not consulted by the allocator; freeing is only allowed to the recorded owner.
-/
namespace LensorOS.Memory
open Framework PhysicalMemory
variable {Owner : Type*}
structure PageLedger (Owner : Type*) where
  memory : PhysicalMemory
  owner : Nat → Option Owner

inductive PageCall (Owner : Type*)
  | requestPage (who : Owner)
  | requestPages (who : Owner) (numberOfPages : Nat)
  | freePage (who : Owner) (address : Nat)
  | freePages (who : Owner) (address numberOfPages : Nat)

namespace PageLedger
def assign (owner : Nat → Option Owner) (address n : Nat) (value : Option Owner) : Nat → Option Owner :=
  fun j => if address / pageSize ≤ j ∧ j < address / pageSize+n then value else owner j

def handOut (s : PageLedger Owner) (who : Owner) (n : Nat) :
    Option Nat × PhysicalMemory → PageLedger Owner
  | (some address,q) => ⟨q,assign s.owner address n (some who)⟩
  | (none,q) => ⟨q,s.owner⟩

def Owns (s : PageLedger Owner) (who : Owner) (address n : Nat) : Prop :=
  ∀ k < n, s.owner (address / pageSize+k) = some who

instance [DecidableEq Owner] (s : PageLedger Owner) (who : Owner) (address n : Nat) :
    Decidable (s.Owns who address n) :=
  inferInstanceAs (Decidable (∀ k < n, s.owner (address / pageSize+k) = some who))

def step [DecidableEq Owner] (s : PageLedger Owner) : PageCall Owner → Option (PageLedger Owner)
  | .requestPage who => some (s.handOut who 1 s.memory.requestPage)
  | .requestPages who n => some (s.handOut who n (s.memory.requestPages n))
  | .freePage who address =>
    if s.Owns who address 1 then
      some ⟨s.memory.freePage address,assign s.owner address 1 none⟩
    else none
  | .freePages who address n =>
    if s.Owns who address n then
      some ⟨s.memory.freePages address n,assign s.owner address n none⟩
    else none

/-- Where a run may start: the bitmap covers memory, the pages below the hint are locked,
and so is every page somebody already holds. -/
structure Consistent (s : PageLedger Owner) : Prop where
  covers : s.memory.Covers
  hint : s.memory.HintLocked
  held : ∀ page who, s.owner page = some who → s.memory.Locked page

variable {s : PageLedger Owner}
theorem Consistent.handOut (hs : s.Consistent) {who : Owner} {n : Nat}
    {r : Option Nat × PhysicalMemory} (hhi : r.2.HintLocked)
    (hn : ∀ q, r = (none,q) → q = { s.memory with firstFreePage := q.firstFreePage })
    (hso : ∀ a q, r = (some a,q) → ∃ page, a = page * pageSize ∧ s.memory.Granted n page q) :
    (s.handOut who n r).Consistent := by
  rcases r with ⟨_ | a,q⟩
  · have hq := hn q rfl
    refine ⟨?_,hhi,?_⟩
    · change q.Covers
      rw [hq]
      exact hs.covers
    intro page ho hh
    rw [hq]
    exact hs.held page ho hh
  obtain ⟨start,rfl,hg⟩ := hso a q rfl
  refine ⟨hg.covers hs.covers,hhi,?_⟩
  intro page ho hh
  change q.Locked page
  simp only [PageLedger.handOut,assign,page_mul] at hh
  rw [hg.locked]
  split_ifs at hh with hi
  · exact .inr hi
  · exact .inl (hs.held page ho hh)

theorem Consistent.free (hs : s.Consistent) {q : PhysicalMemory}
    {address n : Nat} (hsi : q.pageMap.size = s.memory.pageMap.size)
    (ht : q.totalPages = s.memory.totalPages) (hhi : q.HintLocked)
    (hg : ∀ page, q.pageMap.get page =
      if address / pageSize ≤ page ∧ page < address / pageSize+n then false
      else s.memory.pageMap.get page) :
    (PageLedger.mk q (assign s.owner address n none)).Consistent := by
  refine ⟨?_,hhi,?_⟩
  · unfold PhysicalMemory.Covers
    rw [hsi,ht]
    exact hs.covers
  intro page ho hh
  simp only [assign] at hh
  unfold PhysicalMemory.Locked
  rw [hg]
  split_ifs at hh with hi
  rw [if_neg hi]
  exact hs.held page ho hh

theorem step_consistent [DecidableEq Owner] {s s' : PageLedger Owner} {call : PageCall Owner}
    (hs : s.Consistent) (h : s.step call = some s') : s'.Consistent := by
  cases call with
  | requestPage who =>
    cases h
    refine hs.handOut (requestPage_hintLocked hs.covers hs.hint) ?_ ?_
    · intro q hq
      exact (requestPage_none hq).1
    intro a q hq
    obtain ⟨page,ha,hg,-⟩ := requestPage_some hs.covers hq
    exact ⟨page,ha,hg⟩
  | requestPages who n =>
    cases h
    refine hs.handOut (request_hintLocked hs.covers hs.hint n) ?_ ?_
    · intro q hq
      exact (request_none hq).1
    intro a q hq
    obtain ⟨page,ha,-,hg⟩ := request_some hs.covers hq
    exact ⟨page,ha,hg⟩
  | freePage who address =>
    simp only [step] at h
    split_ifs at h with ho
    cases h
    refine hs.free (freePageImpl_size _ _) (freePageImpl_totalPages _ _) (freePageImpl_hintLocked hs.hint _) ?_
    intro page
    rw [freePage,freePageImpl_get]
    exact if_congr (by omega) rfl rfl
  | freePages who address n =>
    simp only [step] at h
    split_ifs at h with ho
    cases h
    exact hs.free (freePages_size _ _ _) (freePages_totalPages _ _ _)
      (freePages_hintLocked hs.hint _ _) (freePages_get _ _ _)

/-- Every page of the run that a request returns was free and unowned, and is locked now. -/
def HandsOutFree (s : PageLedger Owner) (n : Nat) (r : Option Nat × PhysicalMemory) : Prop :=
  ∀ address, r.1 = some address → ∀ j, address / pageSize ≤ j → j < address / pageSize+n →
      ¬ s.memory.Locked j ∧ s.owner j = none ∧ r.2.Locked j

/-- The lowest free page below `totalPages`, or none when every such page is locked. -/
def ReturnsLowest (p : PhysicalMemory) : Prop :=
  (∃ page < p.totalPages, p.requestPage.1 = some (page * pageSize) ∧ ¬ p.Locked page ∧
    ∀ j < page, p.Locked j) ∨ (p.requestPage.1 = none ∧ ∀ j < p.totalPages, p.Locked j)

theorem Consistent.handsOutFree (hs : s.Consistent) {n : Nat}
    {r : Option Nat × PhysicalMemory} (hso : ∀ a q, r = (some a,q) →
      ∃ page, a = page * pageSize ∧ s.memory.Granted n page q) : s.HandsOutFree n r := by
  rcases r with ⟨r,q⟩
  rintro a rfl j hl hh
  obtain ⟨start,rfl,hg⟩ := hso a q rfl
  rw [page_mul] at hl hh
  have hc := hg.clear j hl hh
  refine ⟨hc,?_,hg.locked.mpr (.inr ⟨hl,hh⟩)⟩
  cases ho : s.owner j with
  | none => rfl
  | some who => exact absurd (hs.held j who ho) hc

theorem Consistent.returnsLowest (hs : s.Consistent) : ReturnsLowest s.memory := by
  have hb : ∀ j, (s.memory.firstFreePage ≤ j → s.memory.Locked j) → s.memory.Locked j := by
    intro j hj
    rcases lt_or_ge j s.memory.firstFreePage with hlo | hlo
    · exact hs.hint j hlo
    · exact hj hlo
  rcases h : s.memory.requestPage with ⟨_ | a,q⟩
  · refine .inr ⟨by rw [h],fun j hj => hb j fun hlo => ?_⟩
    exact (requestPage_none h).2.1 j hlo hj
  obtain ⟨page,rfl,hg,hlt,hl,-⟩ := requestPage_some hs.covers h
  refine .inl ⟨page,hlt,by rw [h],hg.clear page le_rfl (by omega),fun j hj => ?_⟩
  exact hb j fun hlo => hl j hlo hj

/-- In every state reached by the four calls, requests hand out free unowned pages, the hint
is valid and `requestPage` finds the lowest free page. -/
theorem ownership_run [DecidableEq Owner] {s : PageLedger Owner}
    (hrun : Reachable PageLedger.Consistent PageLedger.step anyStep s) :
    s.memory.HintLocked ∧ s.HandsOutFree 1 s.memory.requestPage ∧
      (∀ n, s.HandsOutFree n (s.memory.requestPages n)) ∧ ReturnsLowest s.memory := by
  have hs : s.Consistent := hrun.invariant (fun _ h => h) (fun _ _ _ hi hst _ => step_consistent hi hst)
  refine ⟨hs.hint,hs.handsOutFree ?_,fun n => hs.handsOutFree ?_,hs.returnsLowest⟩
  · intro a q hq
    obtain ⟨page,ha,hg,-⟩ := requestPage_some hs.covers hq
    exact ⟨page,ha,hg⟩
  intro a q hq
  obtain ⟨page,ha,-,hg⟩ := request_some hs.covers hq
  exact ⟨page,ha,hg⟩

def sixteenFree : PageLedger Nat := ⟨⟨⟨2,fun _ => 0⟩,16,16,0,16,0⟩,fun _ => none⟩
def firstHandedOut : PageLedger Nat := sixteenFree.handOut 7 1 (sixteenFree.memory.requestPages 1)

theorem sixteenFree_consistent : sixteenFree.Consistent := by
  refine ⟨le_refl 16,?_,?_⟩
  · intro page hl
    exact absurd hl (Nat.not_lt_zero page)
  · intro page who hh
    cases hh

theorem ownership_run_firstHandedOut : sixteenFree.step (.requestPages 7 1) = some firstHandedOut ∧
      firstHandedOut.memory.HintLocked ∧
      firstHandedOut.HandsOutFree 1 firstHandedOut.memory.requestPage ∧
      (∀ n, firstHandedOut.HandsOutFree n (firstHandedOut.memory.requestPages n)) ∧
      ReturnsLowest firstHandedOut.memory := by
  have hs : sixteenFree.step (.requestPages 7 1) = some firstHandedOut := rfl
  exact ⟨hs,ownership_run (.next (.start sixteenFree_consistent) hs trivial)⟩
end PageLedger
end LensorOS.Memory
