import LensorOS.Framework.Run
import LensorOS.Memory.PageSupply

/-!
# Page counters

The two counters move together, one up and one down. Locking a page checks that it is clear and
freeing one does not check that it is locked.
-/
namespace LensorOS.Memory
open Framework Option
inductive PageOperation
  | lockPage (address : Nat)
  | lockPages (address numberOfPages : Nat)
  | freePage (address : Nat)
  | freePages (address numberOfPages : Nat)
  | requestPage
  | requestPages (numberOfPages : Nat)

namespace PhysicalMemory
variable (p : PhysicalMemory)
def step : PageOperation → Option PhysicalMemory
  | .lockPage address => some (p.lockPage address)
  | .lockPages address n => some (p.lockPages address n)
  | .freePage address => some (p.freePage address)
  | .freePages address n => some (p.freePages address n)
  | .requestPage => some p.requestPage.2
  | .requestPages n => some (p.requestPages n).2

def Names : PageOperation → Prop
  | .lockPage address | .freePage address => address / pageSize < p.totalPages
  | .lockPages address n | .freePages address n => address / pageSize+n ≤ p.totalPages
  | .requestPage | .requestPages _ => True

def FreesLocked : PageOperation → Prop
  | .freePage address => p.Locked (address / pageSize)
  | .freePages address n => ∀ k < n, p.Locked (address / pageSize+k)
  | _ => True

/-- The free counter is the number of clear bits among the first `bound`, which are all pages of
memory and the indices of a run search, and the counters add up to `total` as the machine adds. -/
structure Accounted (bound total : Nat) (p : PhysicalMemory) : Prop where
  pages : p.totalPages ≤ bound
  searched : p.pageMap.length ≤ bound
  stored : bound ≤ 8 * p.pageMap.size
  addressable : bound < 2^64
  free : p.totalFreePages = p.clearBits bound
  sum : (p.totalFreePages+p.totalUsedPages) % 2^64 = total

section
variable {bound total address n : Nat} {p q : PhysicalMemory}
theorem clearBits_le : p.clearBits bound ≤ bound := (Finset.card_filter_le _ _).trans (Finset.card_range bound).le

theorem lockPage_of_locked (hl : p.Locked (address / pageSize)) : p.lockPage address = p := by
  exact if_pos hl

theorem freePageImpl_counters (hi : address / pageSize < 8 * p.pageMap.size) :
    (p.freePageImpl address).totalFreePages = increment64 p.totalFreePages ∧
      (p.freePageImpl address).totalUsedPages = decrement64 p.totalUsedPages := by
  have hs : (p.pageMap.set (address / pageSize) false).1 = true := by
    rw [Bitmap.set_fst,decide_eq_true_eq]
    omega
  unfold freePageImpl
  rw [if_pos hs]
  exact ⟨rfl,rfl⟩

theorem freePageImpl_granted (hl : p.Locked (address / pageSize))
    (hi : address / pageSize < 8 * p.pageMap.size) :
    Granted (p.freePageImpl address) 1 (address / pageSize) p := by
  refine ⟨?_,?_,?_,(freePageImpl_size _ _).symm,(freePageImpl_totalPages _ _).symm⟩
  · intro j hj hlt
    obtain rfl : j = address / pageSize := by omega
    simp [Locked,freePageImpl_get]
  · rw [freePageImpl_size]
    omega
  intro j
  rw [freePageImpl_get]
  by_cases hj : j = address / pageSize
  · rw [if_pos (by omega),hj]
    exact hl
  · rw [if_neg (by omega),if_neg hj]

section
variable (h : Accounted bound total p)
include h
theorem Accounted.hint (first : Nat) : Accounted bound total { p with firstFreePage := first } :=
  ⟨h.pages,h.searched,h.stored,h.addressable,h.free,h.sum⟩

theorem Accounted.of_counters
    (hs : q.pageMap.size = p.pageMap.size) (ht : q.totalPages = p.totalPages)
    (hf : q.totalFreePages = q.clearBits bound)
    (hsu : (q.totalFreePages+q.totalUsedPages) % 2^64 =
      (p.totalFreePages+p.totalUsedPages) % 2^64) : Accounted bound total q := by
  refine ⟨ht.trans_le h.pages,hs.trans_le h.searched,?_,h.addressable,hf,?_⟩
  · rw [hs]
    exact h.stored
  · rw [hsu]
    exact h.sum

theorem Accounted.lockPage (hi : address / pageSize < bound) : Accounted bound total (p.lockPage address) := by
  by_cases hl : p.Locked (address / pageSize)
  · rwa [lockPage_of_locked hl]
  have hbi := hi.trans_le h.stored
  have hg := lockPage_granted rfl (by simpa [Locked] using hl) hbi p.firstFreePage
    (p.lockPage address).firstFreePage
  have hb := hg.clearBits hi
  change (p.lockPage address).clearBits bound+1 = p.clearBits bound at hb
  have hle := (clearBits_le (p := p)).trans_lt h.addressable
  obtain ⟨hf,hu,-⟩ := lockPage_counters hl (by omega)
  have ho := h.free
  refine h.of_counters (lockPage_size _ _) (lockPage_totalPages _ _) ?_ ?_
  · rw [hf,decrement64]
    omega
  · rw [hf,hu,decrement64,increment64]
    omega

theorem Accounted.freePageImpl (hi : address / pageSize < bound)
    (hl : p.Locked (address / pageSize)) : Accounted bound total (p.freePageImpl address) := by
  have hbi := hi.trans_le h.stored
  have hb := (freePageImpl_granted hl hbi).clearBits hi
  have hle := (clearBits_le (p := p.freePageImpl address)).trans_lt h.addressable
  obtain ⟨hf,hu⟩ := freePageImpl_counters hbi
  have ho := h.free
  refine h.of_counters (freePageImpl_size _ _) (freePageImpl_totalPages _ _) ?_ ?_
  · rw [hf,increment64]
    omega
  · rw [hf,hu,decrement64,increment64]
    omega

theorem Accounted.lockPages (hi : address / pageSize+n ≤ bound) : Accounted bound total (p.lockPages address n) := by
  induction n with
  | zero => exact h
  | succ n ih =>
    rw [lockPages_succ]
    refine (ih (by omega)).lockPage ?_
    rw [page_add]
    omega

theorem Accounted.freePages
    (hi : address / pageSize+n ≤ bound) (hl : ∀ k < n, p.Locked (address / pageSize+k)) :
    Accounted bound total (p.freePages address n) := by
  induction n with
  | zero => exact h
  | succ n ih =>
    rw [freePages_succ]
    have hp := ih (by omega) fun k hk => hl k (by omega)
    refine hp.freePageImpl ?_ ?_ <;> rw [page_add]
    · omega
    · -- the pages freed so far lie below this one
      unfold Locked
      rw [freePages_get,if_neg (by omega)]
      exact hl n (by omega)

theorem Accounted.requestPage : Accounted bound total p.requestPage.2 := by
  have hp := h.pages
  unfold PhysicalMemory.requestPage
  dsimp only
  split_ifs with hl
  · refine ((h.hint _).lockPage ?_).hint _
    rw [page_mul]
    omega
  · exact h.hint _

theorem Accounted.requestPages (n : Nat) : Accounted bound total (p.requestPages n).2 := by
  have hse := h.searched
  unfold PhysicalMemory.requestPages
  split_ifs with hz ho
  · exact h
  · exact h.requestPage
  · exact h
  · exact h
  split
  · next page hs =>
    obtain ⟨-,hi,-⟩ := search_sound _ (pos_of_ne_zero hz) hs
    refine h.lockPages ?_
    rw [page_mul]
    omega
  · exact h

theorem Accounted.step {operation : PageOperation}
    (hs : p.step operation = some q) (hn : p.Names operation)
    (hl : p.FreesLocked operation) : Accounted bound total q := by
  have hp := h.pages
  cases operation with
  | lockPage address =>
    cases hs
    exact h.lockPage (hn.trans_le hp)
  | lockPages address n =>
    cases hs
    exact h.lockPages (hn.trans hp)
  | freePage address =>
    cases hs
    exact h.freePageImpl (hn.trans_le hp) hl
  | freePages address n =>
    cases hs
    exact h.freePages (hn.trans hp) hl
  | requestPage =>
    cases hs
    exact h.requestPage
  | requestPages n =>
    cases hs
    exact h.requestPages n
end

/-- In a run that frees only locked pages the free counter stays the number of clear bits and the
sum of the counters stays as it was. -/
theorem page_accounting
    (h : Reachable (Accounted bound total) step (fun p o _ => p.Names o ∧ p.FreesLocked o) p) :
    p.totalFreePages = p.clearBits bound ∧ (p.totalFreePages+p.totalUsedPages) % 2^64 = total := by
  have hp : Accounted bound total p := h.invariant (fun _ h => h) fun _ _ _ h hs hg => h.step hs hg.1 hg.2
  exact ⟨hp.free,hp.sum⟩
end

def sixteenPages : PhysicalMemory := ⟨⟨2,fun _ => 0⟩,16,16,0,16,0⟩

theorem sixteenPages_accounted : Accounted 16 16 sixteenPages :=
  ⟨by decide,by decide,by decide,by decide,by decide +kernel,by decide⟩

theorem page_accounting_sixteenPages :
    ∃ p : PhysicalMemory, p.totalFreePages = 15 ∧ p.totalFreePages = p.clearBits 16 ∧
      (p.totalFreePages+p.totalUsedPages) % 2^64 = 16 := by
  have hl : Reachable (Accounted 16 16) step (fun p o _ => p.Names o ∧ p.FreesLocked o)
      (sixteenPages.lockPages 0 2) :=
    .next (i := .lockPages 0 2) (.start sixteenPages_accounted) rfl
      ⟨show 0 / pageSize+2 ≤ 16 by decide,trivial⟩
  have hf : Reachable (Accounted 16 16) step (fun p o _ => p.Names o ∧ p.FreesLocked o)
      ((sixteenPages.lockPages 0 2).freePage 0) :=
    .next (i := .freePage 0) hl rfl ⟨show 0 / pageSize < 16 by decide,
      show (sixteenPages.lockPages 0 2).Locked 0 by decide +kernel⟩
  exact ⟨_,by decide +kernel,page_accounting hf⟩

theorem page_accounting_freed_twice :
    ∃ p, Reachable (Accounted 16 16) step (fun p o _ => p.Names o) p ∧
      p.totalFreePages = 17 ∧ p.clearBits 16 = 16 := by
  have hi : 0 / pageSize < 16 := by decide
  have hr : Reachable (Accounted 16 16) step (fun p o _ => p.Names o)
      sixteenPages.requestPage.2 :=
    .next (i := .requestPage) (.start sixteenPages_accounted) rfl trivial
  have hf : Reachable (Accounted 16 16) step (fun p o _ => p.Names o)
      (sixteenPages.requestPage.2.freePage 0) := .next (i := .freePage 0) hr rfl hi
  exact ⟨_,.next (i := .freePage 0) hf rfl hi,by decide +kernel⟩
end PhysicalMemory
end LensorOS.Memory
