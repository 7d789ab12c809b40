import LensorOS.Memory.PageAccounting

/-!
# Initialising the physical memory manager

A bitmap for the first megabytes serves the page tables of the identity map, and is then replaced by
one for all of memory. Page counts stay far below `2^64`.
-/
namespace LensorOS.Memory
open Framework Option PhysicalMemory
/-- The fields of an `EFI_MEMORY_DESCRIPTOR` that are read; type 7 is conventional memory. -/
structure MemoryDescriptor where
  type : Nat
  physicalAddress : Nat
  numPages : Nat

def MemoryDescriptor.Frees (desc : MemoryDescriptor) (page : Nat) : Prop :=
  desc.type = 7 ∧ desc.physicalAddress / pageSize ≤ page ∧
    page < desc.physicalAddress / pageSize+desc.numPages

def initialPageBitmapMaxAddress : Nat := 64 * 1024 * 1024
def initialPageBitmapPageCount : Nat := initialPageBitmapMaxAddress / pageSize
def initialPageBitmapSize : Nat := initialPageBitmapPageCount / 8

/-- Address and page count of the largest segment the first bitmap can address. -/
def largestFreeMemorySegment (memMap : List MemoryDescriptor) : Nat × Nat :=
  memMap.foldl (fun largest desc =>
    if desc.type = 7 ∧ largest.2 < desc.numPages ∧
        desc.physicalAddress+desc.numPages < initialPageBitmapMaxAddress then
      (desc.physicalAddress,desc.numPages)
    else largest) (0,0)

namespace PhysicalMemory
variable (p : PhysicalMemory)
def freeConventional (desc : MemoryDescriptor) : PhysicalMemory :=
  if desc.type = 7 then p.freePages desc.physicalAddress desc.numPages else p

def countConventional (desc : MemoryDescriptor) : PhysicalMemory :=
  let q := p.freeConventional desc
  if desc.type = 7 ∧ q.maxFreePagesInARow < desc.numPages then
    { q with maxFreePagesInARow := desc.numPages }
  else q

/-- The part that works with the first bitmap; mapping its memory takes `requests` pages. -/
def initialBitmap (memMap : List MemoryDescriptor)
    (totalPages kernelPhysical kernelPageCount requests : Nat) : PhysicalMemory :=
  let p : PhysicalMemory := ⟨⟨initialPageBitmapSize,fun _ => 0⟩,totalPages,0,0,0,0⟩
  let p := memMap.foldl freeConventional (p.lockPages 0 initialPageBitmapPageCount)
  (p.lockPages kernelPhysical kernelPageCount).afterRequests requests

def lockAll : PhysicalMemory :=
  let q := { p with pageMap := ⟨p.totalPages / 8+1,fun _ => 0⟩, totalUsedPages := 0 }
  { q.lockPages 0 (p.totalPages+1) with totalFreePages := 0 }

def finalBitmap (memMap : List MemoryDescriptor)
    (base kernelPhysical kernelPageCount : Nat) : PhysicalMemory :=
  let p := memMap.foldl countConventional p.lockAll
  (p.lockPages base (p.pageMap.length / pageSize+1)).lockPages kernelPhysical kernelPageCount

/-- It hangs where no segment is found. -/
def initPhysical (memMap : List MemoryDescriptor)
    (kernelPhysical kernelPageCount requests : Nat) : Option PhysicalMemory :=
  let largest := largestFreeMemorySegment memMap
  let totalPages := (memMap.map (·.numPages)).sum
  if largest.1 = 0 ∨ largest.2 = 0 then none
  else some ((initialBitmap memMap totalPages kernelPhysical kernelPageCount requests).finalBitmap
    memMap largest.1 kernelPhysical kernelPageCount)

structure Fitted (p : PhysicalMemory) : Prop where
  size : p.pageMap.size = p.totalPages / 8+1
  hint : p.HintLocked

section
variable {p q : PhysicalMemory} {n page total : Nat} {memMap : List MemoryDescriptor}
section
variable (h : p.Fitted)
include h
theorem Fitted.length : p.pageMap.length = p.totalPages / 8+1 := h.size

theorem Fitted.covers : p.Covers := by
  have hs := h.size
  unfold Covers
  omega

theorem Fitted.lockPages (address n : Nat) : (p.lockPages address n).Fitted :=
  ⟨by simpa using h.size,lockPages_hintLocked h.hint address n⟩

theorem Fitted.freePages (address n : Nat) : (p.freePages address n).Fitted :=
  ⟨by simpa using h.size,freePages_hintLocked h.hint address n⟩

theorem Fitted.requestPages (n : Nat) : (p.requestPages n).2.Fitted := by
  refine ⟨?_,request_hintLocked h.covers h.hint n⟩
  rcases hr : p.requestPages n with ⟨_ | a,q⟩
  · rw [(request_none hr).1]
    exact h.size
  obtain ⟨page,-,-,hg⟩ := request_some h.covers hr
  rw [hg.size,hg.totalPages]
  exact h.size

theorem Fitted.step {operation : PageOperation} (hs : p.step operation = some q) : q.Fitted := by
  cases operation with
  | lockPage address =>
    cases hs
    simpa [PhysicalMemory.lockPages] using h.lockPages address 1
  | lockPages address n =>
    cases hs
    exact h.lockPages address n
  | freePage address =>
    cases hs
    simpa [PhysicalMemory.freePages,PhysicalMemory.freePage] using h.freePages address 1
  | freePages address n =>
    cases hs
    exact h.freePages address n
  | requestPage =>
    cases hs
    exact h.requestPages 1
  | requestPages n =>
    cases hs
    exact h.requestPages n
end

theorem request_run {address : Nat} (hn : 2 ≤ n) (h : (p.requestPages n).1 = some address) :
    n ≤ p.totalFreePages ∧ n ≤ p.maxFreePagesInARow ∧ ∃ page, address = page * pageSize ∧
      page+n < p.pageMap.length ∧ ∀ k < n, ¬ p.Locked (page+k) := by
  unfold requestPages at h
  rw [if_neg (by omega),if_neg (by omega)] at h
  split_ifs at h with hf hr
  split at h
  · next found hs =>
    obtain ⟨-,hi,hc⟩ := search_sound _ (by omega) hs
    refine ⟨by omega,by omega,found,(some.inj h).symm,hi,fun k hk => ?_⟩
    simp [Locked,hc (found+k) (by omega) (by omega)]
  · cases h

theorem Fitted.request_met (h : p.Fitted) (hn : 2 ≤ n) (hf : n ≤ p.totalFreePages)
    (hr : n ≤ p.maxFreePagesInARow) (hi : page+n < p.pageMap.length)
    (hc : ∀ k < n, ¬ p.Locked (page+k)) : (p.requestPages n).1.isSome := by
  refine request_isSome h.hint ?_
  unfold Servable
  rw [if_neg (by omega)]
  refine ⟨by omega,hf,hr,page,by omega,?_,hi,hc⟩
  by_contra hl
  exact hc 0 (by omega) (h.hint _ (by omega))

@[simp] theorem lockPage_row (address : Nat) : (p.lockPage address).maxFreePagesInARow = p.maxFreePagesInARow := by
  rw [lockPage]
  split_ifs <;> rfl

@[simp] theorem lockPages_row (address n : Nat) :
    (p.lockPages address n).maxFreePagesInARow = p.maxFreePagesInARow := by
  induction n with
  | zero => rfl
  | succ n ih => rw [lockPages_succ,lockPage_row,ih]

@[simp] theorem freePages_row (address n : Nat) :
    (p.freePages address n).maxFreePagesInARow = p.maxFreePagesInARow := by
  induction n with
  | zero => rfl
  | succ n ih =>
    rw [freePages_succ,← ih,freePageImpl]
    split_ifs <;> rfl

/-- What the first part leaves for the second: the size of memory, a hint inside it, and no run. -/
structure Hinted (totalPages : Nat) (p : PhysicalMemory) : Prop where
  total : p.totalPages = totalPages
  first : p.firstFreePage ≤ totalPages
  row : p.maxFreePagesInARow = 0

theorem Hinted.lockPages (h : Hinted total p) (address n : Nat) : Hinted total (p.lockPages address n) :=
  ⟨by simpa using h.total,by simpa using h.first,by simpa using h.row⟩

theorem freePages_firstFreePage_le (address n : Nat) : (p.freePages address n).firstFreePage ≤ p.firstFreePage := by
  induction n with
  | zero => exact le_rfl
  | succ n ih =>
    rw [freePages_succ]
    exact (freePageImpl_firstFreePage_le _ _).trans ih

theorem Hinted.freeConventional (h : Hinted total p) (desc : MemoryDescriptor) :
    Hinted total (p.freeConventional desc) := by
  unfold PhysicalMemory.freeConventional
  split_ifs
  · exact ⟨by simpa using h.total,(freePages_firstFreePage_le _ _).trans h.first,by simpa using h.row⟩
  · exact h

theorem Hinted.afterRequests (h : Hinted total p) (k : Nat) : Hinted total (p.afterRequests k) := by
  induction k generalizing p with
  | zero => exact h
  | succ k ih =>
    refine ih ?_
    have hl : p.advancedHint ≤ _ := (firstClear_spec _ _ _).2.1
    have ht := h.total
    have hf := h.first
    unfold requestPage
    dsimp only
    split_ifs with hlt
    · exact ⟨by simpa using ht,hlt.trans_eq ht,by simpa using h.row⟩
    refine ⟨ht,?_,h.row⟩
    dsimp only
    omega

theorem initialBitmap_hinted (memMap : List MemoryDescriptor)
    (totalPages kernelPhysical kernelPageCount requests : Nat) : Hinted totalPages
      (initialBitmap memMap totalPages kernelPhysical kernelPageCount requests) := by
  refine Hinted.afterRequests (Hinted.lockPages ?_ _ _) _
  refine List.foldlRecOn memMap _ ?_ fun p hp desc _ => hp.freeConventional desc
  refine Hinted.lockPages ?_ _ _
  exact ⟨rfl,Nat.zero_le _,rfl⟩

theorem freed_locked (p : PhysicalMemory) (desc : MemoryDescriptor) (page : Nat) :
    (p.freeConventional desc).Locked page ↔ p.Locked page ∧ ¬ desc.Frees page := by
  unfold freeConventional MemoryDescriptor.Frees
  split_ifs with ht
  · simp [freePages_locked,ht]
  · simp [ht]

theorem conventional_locked (p : PhysicalMemory) (desc : MemoryDescriptor) (page : Nat) :
    (p.countConventional desc).Locked page ↔ p.Locked page ∧ ¬ desc.Frees page := by
  rw [← freed_locked]
  unfold countConventional
  dsimp only
  split_ifs <;> rfl

theorem segments_locked {free : PhysicalMemory → MemoryDescriptor → PhysicalMemory}
    (hf : ∀ p desc page, (free p desc).Locked page ↔ p.Locked page ∧ ¬ desc.Frees page)
    (memMap : List MemoryDescriptor) (page : Nat) : (memMap.foldl free p).Locked page ↔
      p.Locked page ∧ ∀ desc ∈ memMap, ¬ desc.Frees page := by
  induction memMap generalizing p with
  | nil => simp
  | cons desc rest ih => rw [List.foldl_cons,ih,hf,List.forall_mem_cons,and_assoc]

theorem Fitted.countConventional (h : p.Fitted) (desc : MemoryDescriptor) :
    (p.countConventional desc).Fitted ∧ (p.countConventional desc).totalPages = p.totalPages := by
  have hf : (p.freeConventional desc).Fitted ∧ (p.freeConventional desc).totalPages = p.totalPages := by
    unfold freeConventional
    split_ifs
    · exact ⟨h.freePages _ _,freePages_totalPages _ _ _⟩
    · exact ⟨h,rfl⟩
  unfold PhysicalMemory.countConventional
  dsimp only
  split_ifs
  · exact ⟨⟨hf.1.size,hf.1.hint⟩,hf.2⟩
  · exact hf

theorem lockPages_locked_iff (address n page : Nat) : (p.lockPages address n).Locked page ↔
    (address / pageSize ≤ page ∧ page < address / pageSize+n ∧ page / 8 < p.pageMap.size) ∨
      p.Locked page := by
  unfold Locked
  rw [lockPages_get]
  split_ifs with hi
  · simp [hi]
  · simp [hi]

theorem locked_zero (size page : Nat) : (⟨size,fun _ => 0⟩ : Bitmap).get page = false := by simp [Bitmap.get]

theorem lockAll_locked (h : Hinted total p) :
    p.lockAll.Fitted ∧ p.lockAll.totalPages = total ∧ ∀ page, p.lockAll.Locked page ↔ page ≤ total := by
  obtain ⟨rfl,hf,-⟩ := h
  have hl : ∀ page, p.lockAll.Locked page ↔ page ≤ p.totalPages := by
    intro page
    refine (lockPages_locked_iff _ _ _).trans ?_
    simp only [Locked,locked_zero,Bool.false_eq_true,or_false,Nat.zero_div,zero_le,true_and,
      zero_add,Nat.lt_succ_iff,and_iff_left_iff_imp]
    omega
  refine ⟨⟨?_,fun page hlt => (hl page).mpr ?_⟩,lockPages_totalPages _ _ _,hl⟩
  · simp [lockAll]
  · have hh : p.lockAll.firstFreePage = p.firstFreePage := lockPages_firstFreePage _ _ _
    omega

abbrev mapPages (memMap : List MemoryDescriptor) : Nat := (memMap.map (·.numPages)).sum
def OnPages (address n page : Nat) : Prop := address / pageSize ≤ page ∧ page < address / pageSize+n

def OnBitmap (memMap : List MemoryDescriptor) (page : Nat) : Prop :=
  OnPages (largestFreeMemorySegment memMap).1 ((mapPages memMap / 8+1) / pageSize+1) page

/-- The pages that are locked in the end: those of the kernel and of the bitmap, and those of
memory that no segment has. -/
def Kept (memMap : List MemoryDescriptor) (kernelPhysical kernelPageCount page : Nat) : Prop :=
  page / 8 < mapPages memMap / 8+1 ∧ (OnPages kernelPhysical kernelPageCount page ∨
    OnBitmap memMap page ∨ page ≤ mapPages memMap ∧ ∀ desc ∈ memMap, ¬ desc.Frees page)

theorem initPhysical_locked {kernelPhysical kernelPageCount requests : Nat}
    (h : initPhysical memMap kernelPhysical kernelPageCount requests = some p) :
    p.Fitted ∧ p.totalPages = mapPages memMap ∧
      ∀ page, p.Locked page ↔ Kept memMap kernelPhysical kernelPageCount page := by
  obtain ⟨-,h⟩ := ite_none_left_eq_some.mp h
  cases h
  obtain ⟨hall,hal,ha⟩ := lockAll_locked
    (initialBitmap_hinted memMap (mapPages memMap) kernelPhysical kernelPageCount requests)
  generalize hp : initialBitmap memMap (memMap.map (·.numPages)).sum kernelPhysical kernelPageCount
    requests = p at *
  have hs : (memMap.foldl countConventional p.lockAll).Fitted ∧
      (memMap.foldl countConventional p.lockAll).totalPages = mapPages memMap :=
    List.foldlRecOn memMap countConventional
      (motive := fun q => q.Fitted ∧ q.totalPages = mapPages memMap)
      ⟨hall,hal⟩ fun q hq desc _ =>
        ⟨(hq.1.countConventional desc).1,(hq.1.countConventional desc).2.trans hq.2⟩
  have hsi := hs.1.size
  rw [hs.2] at hsi
  refine ⟨(hs.1.lockPages _ _).lockPages _ _,?_,fun page => ?_⟩
  · simp [finalBitmap,hs.2]
  simp only [finalBitmap,Kept,OnBitmap,OnPages,lockPages_locked_iff,lockPages_size,hsi,
    segments_locked conventional_locked,ha,Bitmap.length]
  by_cases hl : page ≤ mapPages memMap
  · have hi : page / 8 < mapPages memMap / 8+1 := by omega
    simp [hl,hi]
  · simp only [hl,false_and,or_false]
    tauto

def Initialised (p : PhysicalMemory) : Prop := ∃ memMap kernelPhysical kernelPageCount requests,
    initPhysical memMap kernelPhysical kernelPageCount requests = some p

theorem Initialised.fitted (h : p.Initialised) : p.Fitted := by
  obtain ⟨memMap,kernelPhysical,kernelPageCount,requests,h⟩ := h
  exact (initPhysical_locked h).1

/-- A request for a run is met if the counters allow it and some run ends before the index that
is the number of bytes of the bitmap; the pages handed out are such a run of memory. -/
theorem contiguous_allocation (h : Reachable Initialised step anyStep p) (hn : 2 ≤ n) :
    ((p.requestPages n).1.isSome ↔ n ≤ p.totalFreePages ∧ n ≤ p.maxFreePagesInARow ∧
      ∃ page, page+n < p.pageMap.length ∧ ∀ k < n, ¬ p.Locked (page+k)) ∧
    ∀ address, (p.requestPages n).1 = some address → ∃ page, address = page * pageSize ∧
      page+n ≤ p.totalPages ∧ ∀ k < n, ¬ p.Locked (page+k) := by
  have hp : p.Fitted := h.invariant (fun _ h => h.fitted) fun _ _ _ hp hs _ => hp.step hs
  refine ⟨⟨fun hso => ?_,?_⟩,fun address ha => ?_⟩
  · obtain ⟨address,ha⟩ := isSome_iff_exists.mp hso
    obtain ⟨hf,hr,page,-,hru⟩ := request_run hn ha
    exact ⟨hf,hr,page,hru⟩
  · rintro ⟨hf,hr,page,hi,hc⟩
    exact hp.request_met hn hf hr hi hc
  obtain ⟨-,-,page,ha,hi,hc⟩ := request_run hn ha
  rw [hp.length] at hi
  exact ⟨page,ha,by omega,hc⟩
end

def halves : List MemoryDescriptor := [⟨0,0,32⟩,⟨7,32 * pageSize,32⟩]

def booted : PhysicalMemory :=
  (initialBitmap halves 64 (40 * pageSize) 4 1).finalBitmap halves (32 * pageSize) (40 * pageSize) 4

theorem booted_initialised : booted.Initialised := ⟨halves,40 * pageSize,4,1,rfl⟩

def lowMemory : List MemoryDescriptor := [⟨7,0,2⟩,⟨7,2 * pageSize,14⟩]

theorem lockPages_free (p : PhysicalMemory) (free address n : Nat) : ∃ left,
    lockPages { p with totalFreePages := free } address n =
      { p.lockPages address n with totalFreePages := left } := by
  induction n with
  | zero => exact ⟨free,rfl⟩
  | succ n ih =>
    obtain ⟨left,hl⟩ := ih
    rw [lockPages_succ,lockPages_succ,hl,lockPage,lockPage]
    split_ifs <;> exact ⟨_,rfl⟩

/-- The first two pages of memory are handed out. -/
theorem contiguous_allocation_low : ∃ p, initPhysical lowMemory (8 * pageSize) 2 1 = some p ∧
    (p.requestPages 2).1.isSome := by
  have hc : ∀ first ≤ 16, ∀ q, q = finalBitmap ⟨⟨0,fun _ => 0⟩,16,0,0,0,first⟩ lowMemory (2 * pageSize)
      (8 * pageSize) 2 → 2 ≤ q.totalFreePages ∧ 2 ≤ q.maxFreePagesInARow ∧ 0+2 < q.pageMap.length ∧
        ∀ k < 2, ¬ q.Locked (0+k) := by
    simp only [forall_eq]
    decide +kernel
  have hl : ∀ p : PhysicalMemory, p.totalPages = 16 → p.maxFreePagesInARow = 0 →
      p.lockAll = lockAll ⟨⟨0,fun _ => 0⟩,16,0,0,0,p.firstFreePage⟩ := by
    rintro ⟨bitmap,total,free,used,row,first⟩ rfl rfl
    obtain ⟨left,he⟩ := lockPages_free ⟨⟨16 / 8+1,fun _ => 0⟩,16,0,0,0,first⟩ free 0 (16+1)
    simp only [lockAll,he]
  have hh := initialBitmap_hinted lowMemory 16 (8 * pageSize) 2 1
  obtain ⟨p,hp⟩ : ∃ p, initPhysical lowMemory (8 * pageSize) 2 1 = some p := ⟨_,rfl⟩
  obtain ⟨hf,hr,hi,hu⟩ := hc _ hh.first p <| by
    rw [← Option.some.inj hp,finalBitmap,show (lowMemory.map (·.numPages)).sum = 16 from rfl,
      hl _ hh.total hh.row]
    rfl
  exact ⟨p,hp,(contiguous_allocation (.start ⟨_,_,_,_,hp⟩) le_rfl).1.mpr ⟨hf,hr,0,hi,hu⟩⟩

/-- The search does not reach the free half of memory. -/
theorem contiguous_allocation_unreached : booted.Initialised ∧ (∀ k < 20, ¬ booted.Locked (44+k)) ∧
      44+20 ≤ booted.totalPages ∧ (booted.requestPages 2).1 = none := by
  obtain ⟨hf,ht,hl⟩ :=
    initPhysical_locked (show initPhysical halves (40 * pageSize) 4 1 = some booted from rfl)
  have hp : mapPages halves = 64 := rfl
  have hb : (largestFreeMemorySegment halves).1 = 32 * pageSize := rfl
  refine ⟨booted_initialised,fun k hk => ?_,by omega,?_⟩
  · rw [hl]
    simp only [Kept,OnBitmap,OnPages,hp,hb]
    simp [MemoryDescriptor.Frees,halves,pageSize]
    omega
  · cases hr : (booted.requestPages 2).1 with
    | none => rfl
    | some address =>
      obtain ⟨-,-,page,-,hi,hc⟩ := request_run le_rfl hr
      rw [hf.length,ht] at hi
      refine absurd ((hl page).mpr ⟨by omega,.inr (.inr ⟨by omega,?_⟩)⟩) (hc 0 (by decide))
      simp [MemoryDescriptor.Frees,halves,pageSize]
      omega

def Overlaps (address byteCount page : Nat) : Prop :=
  page * pageSize < address+byteCount ∧ address < (page+1) * pageSize

/-- Mapping the memory of the first bitmap takes this page for a table. -/
def TakenForTable (memMap : List MemoryDescriptor) (kernelPhysical kernelPageCount requests page : Nat) : Prop :=
  ∃ k < requests, (initialBitmap memMap (mapPages memMap) kernelPhysical kernelPageCount
    k).requestPage.1 = some (page * pageSize)

/-- What must be locked once the allocator is initialised, and what may be free. -/
structure Reserves (memMap : List MemoryDescriptor) (kernelPhysical kernelByteCount requests : Nat)
    (p : PhysicalMemory) : Prop where
  kernel : ∀ page, Overlaps kernelPhysical kernelByteCount page → p.Locked page
  bitmap : ∀ page, Overlaps (largestFreeMemorySegment memMap).1 p.pageMap.length page →
    p.Locked page
  tables : ∀ page, TakenForTable memMap kernelPhysical (kernelByteCount / pageSize) requests page →
    p.Locked page
  free : ∀ page, page / 8 < p.pageMap.length → ¬ p.Locked page → ∃ desc ∈ memMap, desc.Frees page

section
variable {p : PhysicalMemory} {memMap : List MemoryDescriptor}
  {kernelPhysical kernelPageCount kernelByteCount requests page : Nat}
theorem requestPage_clear (h : p.requestPage.1 = some (page * pageSize)) : ¬ p.Locked page := by
  have hc := (firstClear_spec p.pageMap (p.totalPages-p.firstFreePage) p.firstFreePage).2.2.2
  unfold requestPage at h
  dsimp only at h
  split_ifs at h with hl
  obtain rfl := Nat.eq_of_mul_eq_mul_right (by decide) (some.inj h)
  unfold advancedHint at hl ⊢
  rw [Locked,hc (by omega)]
  decide

theorem requestPage_first (hh : p.HintLocked) (hb : ∀ j < page, p.Locked j)
    (hc : ¬ p.Locked page) (hlt : page < p.totalPages) :
    p.requestPage.1 = some (page * pageSize) := by
  obtain ⟨-,-,hl,hf⟩ :=
    firstClear_spec p.pageMap (p.totalPages-p.firstFreePage) p.firstFreePage
  have hfi := not_lt.mp fun hlt => hc (hh page hlt)
  have hle : p.advancedHint ≤ page := not_lt.mp fun hg => hc (hl page hfi hg)
  have hp : p.advancedHint = page := by
    refine hle.antisymm (not_lt.mp fun hs => ?_)
    have hse := hb _ hs
    rw [Locked,advancedHint,hf (by unfold advancedHint at hs; omega)] at hse
    cases hse
  rw [requestPage,hp,if_pos hlt]

theorem after_locked (h : p.Locked page) (k : Nat) : (p.afterRequests k).Locked page := by
  induction k generalizing p with
  | zero => exact h
  | succ k ih =>
    refine ih ?_
    unfold requestPage
    dsimp only
    split_ifs
    · exact (lockPage_get _ _ _).trans (by rw [show Bitmap.get _ page = true from h,ite_self])
    · exact h

theorem initialBitmap_locked (total k : Nat) (hp : page < initialPageBitmapPageCount)
    (h : OnPages kernelPhysical kernelPageCount page ∨ ∀ desc ∈ memMap, ¬ desc.Frees page) :
    (initialBitmap memMap total kernelPhysical kernelPageCount k).Locked page := by
  have hi : page / 8 < initialPageBitmapSize := Nat.div_lt_div_of_lt_of_dvd (by decide) hp
  refine after_locked ((lockPages_locked_iff _ _ _).mpr (h.imp (fun ho => ?_) fun hn =>
    (segments_locked freed_locked _ _).mpr ⟨(lockPages_locked_iff _ _ _).mpr ?_,hn⟩)) k
  · refine ⟨ho.1,ho.2,hi.trans_eq (Eq.symm ?_)⟩
    refine List.foldlRecOn memMap freeConventional
      (motive := fun q => q.pageMap.size = initialPageBitmapSize) ?_ fun q hq desc _ => ?_
    · exact lockPages_size _ _ _
    unfold freeConventional
    split_ifs
    · simpa using hq
    · exact hq
  · refine .inl ⟨?_,?_,hi⟩
    · rw [Nat.zero_div]
      omega
    · rwa [Nat.zero_div,Nat.zero_add]

/-- The first table is on the first page that a segment has. -/
theorem initialBitmap_first (desc : MemoryDescriptor) (hd : desc ∈ memMap) (hf : desc.Frees page)
    (hk : ¬ OnPages kernelPhysical kernelPageCount page) (hb : ∀ j < page, ∀ desc ∈ memMap, ¬ desc.Frees j)
    (hp : page < initialPageBitmapPageCount) {total : Nat} (ht : page < total) :
    (initialBitmap memMap total kernelPhysical kernelPageCount 0).requestPage.1 = some (page * pageSize) := by
  refine requestPage_first ?_ (fun j hj => initialBitmap_locked _ _ (hj.trans hp) (.inr (hb j hj)))
    (fun hlo => ?_) ?_
  · refine lockPages_hintLocked (List.foldlRecOn _ freeConventional (motive := HintLocked) ?_
      fun q hq desc _ => ?_) _ _
    · exact lockPages_hintLocked (fun page hlt => absurd hlt (Nat.not_lt_zero page)) _ _
    unfold freeConventional
    split_ifs
    · exact freePages_hintLocked hq _ _
    · exact hq
  · rcases (lockPages_locked_iff _ _ _).mp hlo with ho | hn
    · exact hk ⟨ho.1,ho.2.1⟩
    · exact ((segments_locked freed_locked _ _).mp hn).2 desc hd hf
  · rwa [(initialBitmap_hinted _ _ _ _ _).total]

theorem TakenForTable.kept_iff
    (h : TakenForTable memMap kernelPhysical kernelPageCount requests page)
    (hp : page < initialPageBitmapPageCount) : Kept memMap kernelPhysical kernelPageCount page ↔
      page / 8 < mapPages memMap / 8+1 ∧ OnBitmap memMap page := by
  obtain ⟨k,-,hr⟩ := h
  have hf := fun hl => requestPage_clear hr (initialBitmap_locked _ k hp hl)
  refine and_congr_right fun _ => ⟨fun hke => ?_,fun ho => .inr (.inl ho)⟩
  rcases hke with hk | ho | hn
  · exact absurd (.inl hk) hf
  · exact ho
  · exact absurd (.inr hn.2) hf

/-- The reservations are right just when the pages of the kernel and of the bitmap are kept, the
tables lie where the bitmap does, and the bits past the end of memory are those of a segment. -/
theorem initPhysical_reserves_iff
    (h : initPhysical memMap kernelPhysical (kernelByteCount / pageSize) requests = some p) :
    Reserves memMap kernelPhysical kernelByteCount requests p ↔
      (∀ page, Overlaps kernelPhysical kernelByteCount page ∨
          Overlaps (largestFreeMemorySegment memMap).1 (mapPages memMap / 8+1) page →
        Kept memMap kernelPhysical (kernelByteCount / pageSize) page) ∧
      (∀ page, TakenForTable memMap kernelPhysical (kernelByteCount / pageSize) requests page →
        if page < initialPageBitmapPageCount then
          page / 8 < mapPages memMap / 8+1 ∧ OnBitmap memMap page
        else Kept memMap kernelPhysical (kernelByteCount / pageSize) page) ∧
      ∀ page, mapPages memMap < page → page / 8 < mapPages memMap / 8+1 →
        Kept memMap kernelPhysical (kernelByteCount / pageSize) page ∨
          ∃ desc ∈ memMap, desc.Frees page := by
  obtain ⟨hf,hto,hl⟩ := initPhysical_locked h
  have hlen := hto ▸ hf.length
  constructor
  · rintro ⟨hk,hb,ht,hfre⟩
    refine ⟨fun page ho => (hl page).mp (ho.elim (hk page) fun ho => ?_),
      fun page hta => ?_,fun page _ hi => ?_⟩
    · exact hb page (hlen ▸ ho)
    · have hke := (hl page).mp (ht page hta)
      split_ifs with hp
      · exact (hta.kept_iff hp).mp hke
      · exact hke
    · exact or_iff_not_imp_left.mpr fun hno => hfre page (hlen ▸ hi) (hno ∘ (hl page).mp)
  rintro ⟨ho,ht,hr⟩
  refine ⟨fun page hk => (hl page).mpr (ho page (.inl hk)),
    fun page hb => (hl page).mpr (ho page (.inr (hlen ▸ hb))),
    fun page hta => (hl page).mpr ?_,fun page hi hno => ?_⟩
  · have hke := ht page hta
    split_ifs at hke with hp
    · exact (hta.kept_iff hp).mpr hke
    · exact hke
  rw [hl] at hno
  rw [hlen] at hi
  by_cases hle : page ≤ mapPages memMap
  · by_contra hn
    exact hno ⟨hi,.inr (.inr ⟨hle,fun desc hd hfr => hn ⟨desc,hd,hfr⟩⟩)⟩
  · exact (hr page (by omega) hi).resolve_left hno
end

def wholePages : List MemoryDescriptor := [⟨0,0,31⟩,⟨7,31 * pageSize,32⟩]

theorem initPhysical_reserves_whole : ∃ p,
    initPhysical wholePages (40 * pageSize) (4 * pageSize / pageSize) 1 = some p ∧
      TakenForTable wholePages (40 * pageSize) (4 * pageSize / pageSize) 1 31 ∧
      Reserves wholePages (40 * pageSize) (4 * pageSize) 1 p := by
  have hfirst : (initialBitmap wholePages (mapPages wholePages) (40 * pageSize) (4 * pageSize / pageSize)
      0).requestPage.1 = some (31 * pageSize) := by
    refine initialBitmap_first ⟨7,31 * pageSize,32⟩ (by simp [wholePages]) ⟨rfl,by decide,by decide⟩
      (by simp [OnPages,pageSize]) (fun j hj => ?_) (by decide) (by decide)
    simp [MemoryDescriptor.Frees,wholePages,pageSize]
    omega
  refine ⟨_,rfl,⟨0,one_pos,hfirst⟩,(initPhysical_reserves_iff rfl).mpr ⟨fun page ho => ?_,
    fun page ht => ?_,fun page hl hi => ?_⟩⟩
  · have hp : mapPages wholePages = 63 := rfl
    have hb : (largestFreeMemorySegment wholePages).1 = 31 * pageSize := rfl
    simp only [Kept,OnBitmap,OnPages,Overlaps,hp,hb,pageSize] at ho ⊢
    omega
  · obtain ⟨k,hk,hr⟩ := ht
    obtain rfl : k = 0 := by omega
    obtain rfl := Nat.eq_of_mul_eq_mul_right (by decide) (Option.some.inj (hfirst.symm.trans hr))
    rw [if_pos (by decide)]
    exact ⟨by decide,by decide,by decide⟩
  · have hp : mapPages wholePages = 63 := rfl
    omega

def twoSegments : List MemoryDescriptor := [⟨0,0,32⟩,⟨7,32 * pageSize,2⟩,⟨7,34 * pageSize,30⟩]

/-- The first table is on a page that is free in the end, and so is the end of a kernel that does
not fill its last page. -/
theorem initPhysical_frees_table : ∃ p,
    initPhysical twoSegments (40 * pageSize) ((4 * pageSize+1) / pageSize) 1 = some p ∧
      TakenForTable twoSegments (40 * pageSize) ((4 * pageSize+1) / pageSize) 1 32 ∧
      ¬ p.Locked 32 ∧ Overlaps (40 * pageSize) (4 * pageSize+1) 44 ∧ ¬ p.Locked 44 := by
  have hpa : mapPages twoSegments = 64 := rfl
  have hb : (largestFreeMemorySegment twoSegments).1 = 34 * pageSize := rfl
  have hf : ∀ page, page = 32 ∨ page = 44 →
      ¬ Kept twoSegments (40 * pageSize) ((4 * pageSize+1) / pageSize) page := by
    intro page hpag
    simp only [Kept,OnBitmap,OnPages,hpa,hb]
    simp [MemoryDescriptor.Frees,twoSegments,pageSize]
    omega
  obtain ⟨p,hp⟩ : ∃ p, initPhysical twoSegments (40 * pageSize) ((4 * pageSize+1) / pageSize) 1 = some p := ⟨_,rfl⟩
  obtain ⟨-,-,hlo⟩ := initPhysical_locked hp
  refine ⟨p,hp,⟨0,one_pos,initialBitmap_first ⟨7,32 * pageSize,2⟩ (by simp [twoSegments])
      ⟨rfl,by decide,by decide⟩ (by simp [OnPages,pageSize]) (fun j hj => ?_) (by decide) (by decide)⟩,
    fun hl => hf 32 (.inl rfl) ((hlo 32).mp hl),⟨by decide,by decide⟩,
    fun hl => hf 44 (.inr rfl) ((hlo 44).mp hl)⟩
  simp [MemoryDescriptor.Frees,twoSegments,pageSize]
  omega
end PhysicalMemory
end LensorOS.Memory
