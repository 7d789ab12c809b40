import LensorOS.Memory.Bitmap
import Mathlib.Order.Interval.Finset.Nat

/-!
# The physical memory manager

Pages are handed out from a bitmap by two searches: `requestPage` walks the `firstFreePage` hint
forward, `requestPages` scans for a run. A request that cannot be met is `none` here and the null
pointer, `asPointer`, in the source. Page addresses are exact; the two counters wrap.
-/
namespace LensorOS.Memory
open List Bitmap
def pageSize : Nat := 4096

structure PhysicalMemory where
  pageMap : Bitmap
  totalPages : Nat
  totalFreePages : Nat
  totalUsedPages : Nat
  maxFreePagesInARow : Nat
  firstFreePage : Nat

/-- The pointer a page request returns: null when it was not met. -/
def asPointer (request : Option Nat) : Nat := request.getD 0

/-- Outcome of following one run of clear bits: long enough, stopped by the end of the
bitmap, or stopped by the locked page at the given index. -/
inductive RunLength
  | enough
  | ranOut
  | short (index : Nat)

namespace PhysicalMemory
def decrement64 (n : Nat) : Nat := (n+(2^64-1)) % 2^64
def increment64 (n : Nat) : Nat := (n+1) % 2^64

def lockPage (p : PhysicalMemory) (address : Nat) : PhysicalMemory :=
  let index := address / pageSize
  if p.pageMap.get index then p
  else if (p.pageMap.set index true).1 then
    { p with
      pageMap := (p.pageMap.set index true).2
      totalFreePages := decrement64 p.totalFreePages
      totalUsedPages := increment64 p.totalUsedPages }
  else p

def lockPages (p : PhysicalMemory) (address numberOfPages : Nat) : PhysicalMemory :=
  (range numberOfPages).foldl (fun p i => p.lockPage (address+i * pageSize)) p

def freePageImpl (p : PhysicalMemory) (address : Nat) : PhysicalMemory :=
  let index := address / pageSize
  if (p.pageMap.set index false).1 then
    { p with
      pageMap := (p.pageMap.set index false).2
      firstFreePage := if index < p.firstFreePage then index else p.firstFreePage
      totalUsedPages := decrement64 p.totalUsedPages
      totalFreePages := increment64 p.totalFreePages }
  else p

def freePage (p : PhysicalMemory) (address : Nat) : PhysicalMemory := p.freePageImpl address

def freePages (p : PhysicalMemory) (address numberOfPages : Nat) : PhysicalMemory :=
  (range numberOfPages).foldl (fun p i => p.freePageImpl (address+i * pageSize)) p

/-- Where the loop of `requestPage` stops: at a clear bit, or after `fuel` locked pages. -/
def firstClear (m : Bitmap) : (fuel index : Nat) → Nat
  | 0, index => index
  | fuel+1, index => if m.get index = false then index else firstClear m fuel (index+1)

def advancedHint (p : PhysicalMemory) : Nat :=
  firstClear p.pageMap (p.totalPages-p.firstFreePage) p.firstFreePage

def requestPage (p : PhysicalMemory) : Option Nat × PhysicalMemory := let first := p.advancedHint
  if first < p.totalPages then
    let addr := first * pageSize
    (some addr, { lockPage { p with firstFreePage := first } addr with firstFreePage := first+1 })
  else (none, { p with firstFreePage := first })

/-- The inner loop of `requestPages`; the bound check precedes the length check. -/
def measureRun (m : Bitmap) (numberOfPages : Nat) : (fuel index run : Nat) → RunLength
  | 0, index, _ => .short index
  | fuel+1, index, run =>
    if m.get index then .short index
    else if m.length ≤ index+1 then .ranOut
    else if numberOfPages ≤ run+1 then .enough
    else measureRun m numberOfPages fuel (index+1) (run+1)

/-- The outer loop of `requestPages`: the first index whose run is long enough. -/
def searchRun (m : Bitmap) (numberOfPages : Nat) : (fuel index : Nat) → Option Nat
  | 0, _ => none
  | fuel+1, index =>
    if m.length ≤ index then none
    else if m.get index then searchRun m numberOfPages fuel (index+1)
    else match measureRun m numberOfPages (m.length-index) index 0 with
      | .enough => some index
      | .ranOut => none
      | .short stop => searchRun m numberOfPages fuel (stop+1)

def requestPages (p : PhysicalMemory) (numberOfPages : Nat) : Option Nat × PhysicalMemory :=
  if numberOfPages = 0 then (none,p)
  else if numberOfPages = 1 then p.requestPage
  else if p.totalFreePages < numberOfPages then (none,p)
  else if p.maxFreePagesInARow < numberOfPages then (none,p)
  else match searchRun p.pageMap numberOfPages (p.pageMap.length-p.firstFreePage)
      p.firstFreePage with
    | some index => (some (index * pageSize), p.lockPages (index * pageSize) numberOfPages)
    | none => (none,p)

def Locked (p : PhysicalMemory) (page : Nat) : Prop := p.pageMap.get page = true

instance (p : PhysicalMemory) (page : Nat) : Decidable (p.Locked page) :=
  inferInstanceAs (Decidable (_ = _))

def Covers (p : PhysicalMemory) : Prop := p.totalPages ≤ 8 * p.pageMap.size

theorem page_add (address i : Nat) : (address+i * pageSize) / pageSize = address / pageSize+i :=
  Nat.add_mul_div_right _ _ (by decide)

@[simp] theorem page_mul (index : Nat) : index * pageSize / pageSize = index :=
  Nat.mul_div_cancel _ (by decide)

section
variable (p : PhysicalMemory) (address : Nat)
@[simp] theorem lockPage_size : (p.lockPage address).pageMap.size = p.pageMap.size := by
  unfold lockPage
  dsimp only
  split_ifs <;> simp

@[simp] theorem lockPage_totalPages : (p.lockPage address).totalPages = p.totalPages := by
  unfold lockPage
  dsimp only
  split_ifs <;> rfl

@[simp] theorem lockPage_firstFreePage :
    (p.lockPage address).firstFreePage = p.firstFreePage := by
  unfold lockPage
  dsimp only
  split_ifs <;> rfl

theorem lockPage_get (address page : Nat) : (p.lockPage address).pageMap.get page =
      if page = address / pageSize ∧ page / 8 < p.pageMap.size then true
      else p.pageMap.get page := by
  unfold lockPage
  by_cases hl : p.pageMap.get (address / pageSize) = true
  · rw [if_pos hl]
    split_ifs with h
    · rw [h.1,hl]
    · rfl
  rw [if_neg hl]
  by_cases hs : address / pageSize / 8 < p.pageMap.size
  · rw [if_pos (by rw [set_fst]; simpa using hs)]
    simp only [get_set]
    by_cases he : page = address / pageSize
    · simp [he,hs]
    · simp [he]
  · rw [if_neg (by rw [set_fst]; simpa using hs)]
    by_cases he : page = address / pageSize
    · simp [he,hs]
    · simp [he]

@[simp] theorem freePageImpl_size :
    (p.freePageImpl address).pageMap.size = p.pageMap.size := by
  unfold freePageImpl
  dsimp only
  split_ifs <;> simp

@[simp] theorem freePageImpl_totalPages :
    (p.freePageImpl address).totalPages = p.totalPages := by
  unfold freePageImpl
  dsimp only
  split_ifs <;> rfl

theorem freePageImpl_firstFreePage_le : (p.freePageImpl address).firstFreePage ≤ p.firstFreePage := by
  unfold freePageImpl
  dsimp only
  split_ifs with _ h
  · exact h.le
  · exact le_rfl
  · exact le_rfl

theorem freePageImpl_get (address page : Nat) : (p.freePageImpl address).pageMap.get page =
      if page = address / pageSize then false else p.pageMap.get page := by
  unfold freePageImpl
  by_cases hs : address / pageSize / 8 < p.pageMap.size
  · rw [if_pos (by rw [set_fst]; simpa using hs)]
    simp only [get_set,hs,and_true]
  rw [if_neg (by rw [set_fst]; simpa using hs)]
  by_cases he : page = address / pageSize
  · rw [if_pos he,he,get_eq]
    simp [hs]
  · rw [if_neg he]

section
variable (address n : Nat)
theorem lockPages_succ : p.lockPages address (n+1) = (p.lockPages address n).lockPage (address+n * pageSize) := by
  simp only [lockPages,range_succ,foldl_append,foldl_cons,foldl_nil]

theorem freePages_succ : p.freePages address (n+1) = (p.freePages address n).freePageImpl (address+n * pageSize) := by
  simp only [freePages,range_succ,foldl_append,foldl_cons,foldl_nil]

@[simp] theorem lockPages_size : (p.lockPages address n).pageMap.size = p.pageMap.size := by
  induction n with
  | zero => rfl
  | succ n ih => rw [lockPages_succ,lockPage_size,ih]

@[simp] theorem lockPages_totalPages : (p.lockPages address n).totalPages = p.totalPages := by
  induction n with
  | zero => rfl
  | succ n ih => rw [lockPages_succ,lockPage_totalPages,ih]

@[simp] theorem lockPages_firstFreePage : (p.lockPages address n).firstFreePage = p.firstFreePage := by
  induction n with
  | zero => rfl
  | succ n ih => rw [lockPages_succ,lockPage_firstFreePage,ih]
end

theorem lockPages_get (address n page : Nat) : (p.lockPages address n).pageMap.get page =
      if address / pageSize ≤ page ∧ page < address / pageSize+n ∧ page / 8 < p.pageMap.size
      then true else p.pageMap.get page := by
  induction n with
  | zero =>
    rw [if_neg (by omega)]
    rfl
  | succ n ih =>
    rw [lockPages_succ,lockPage_get,page_add,lockPages_size,ih]
    by_cases hn : page = address / pageSize+n
    · by_cases hs : page / 8 < p.pageMap.size
      · rw [if_pos ⟨hn,hs⟩,if_pos (by omega)]
      · rw [if_neg (fun h => hs h.2),if_neg (fun h => hs h.2.2),if_neg (fun h => hs h.2.2)]
    · rw [if_neg (fun h => hn h.1)]
      exact if_congr (by omega) rfl rfl

@[simp] theorem freePages_size (address n : Nat) :
    (p.freePages address n).pageMap.size = p.pageMap.size := by
  induction n with
  | zero => rfl
  | succ n ih => rw [freePages_succ,freePageImpl_size,ih]

@[simp] theorem freePages_totalPages (address n : Nat) :
    (p.freePages address n).totalPages = p.totalPages := by
  induction n with
  | zero => rfl
  | succ n ih => rw [freePages_succ,freePageImpl_totalPages,ih]

theorem freePages_get (address n page : Nat) : (p.freePages address n).pageMap.get page =
      if address / pageSize ≤ page ∧ page < address / pageSize+n then false
      else p.pageMap.get page := by
  induction n with
  | zero =>
    rw [if_neg (by omega)]
    rfl
  | succ n ih =>
    rw [freePages_succ,freePageImpl_get,page_add,ih]
    by_cases hn : page = address / pageSize+n
    · rw [if_pos hn,if_pos (by omega)]
    · rw [if_neg hn]
      exact if_congr (by omega) rfl rfl
end

def HintLocked (p : PhysicalMemory) : Prop := ∀ page < p.firstFreePage, p.Locked page

variable {p : PhysicalMemory} {page n : Nat}
section
variable {p : PhysicalMemory}
theorem freePageImpl_hintLocked (hp : p.HintLocked) (address : Nat) : (p.freePageImpl address).HintLocked := by
  intro page hlt
  have ho := hlt.trans_le (p.freePageImpl_firstFreePage_le address)
  have hl := hp page ho
  unfold Locked at hl ⊢
  rw [freePageImpl_get,if_neg,hl]
  intro he
  subst he
  have hs := p.pageMap.get_lt hl
  unfold freePageImpl at hlt
  simp only [set_fst,decide_eq_true_eq,if_pos hs,if_pos ho] at hlt
  exact absurd hlt (lt_irrefl _)

theorem freePages_hintLocked (hp : p.HintLocked) (address n : Nat) : (p.freePages address n).HintLocked := by
  induction n with
  | zero => exact hp
  | succ n ih =>
    rw [freePages_succ]
    exact freePageImpl_hintLocked ih _

theorem lockPages_locked (hp : p.Locked page) (address n : Nat) : (p.lockPages address n).Locked page := by
  unfold Locked at *
  rw [lockPages_get,hp,ite_self]

theorem lockPages_hintLocked (hp : p.HintLocked) (address n : Nat) : (p.lockPages address n).HintLocked := by
  intro page hl
  rw [lockPages_firstFreePage] at hl
  exact lockPages_locked (hp page hl) address n
end

variable (m : Bitmap)
theorem firstClear_spec (fuel index : Nat) :
    index ≤ firstClear m fuel index ∧ firstClear m fuel index ≤ index+fuel ∧
      (∀ j, index ≤ j → j < firstClear m fuel index → m.get j = true) ∧
      (firstClear m fuel index < index+fuel → m.get (firstClear m fuel index) = false) := by
  induction fuel generalizing index with
  | zero =>
    simp only [firstClear]
    exact ⟨le_rfl,le_rfl,fun j h h' => absurd h (by omega),fun h => absurd h (by omega)⟩
  | succ fuel ih =>
    simp only [firstClear]
    by_cases hc : m.get index = false
    · rw [if_pos hc]
      exact ⟨le_rfl,by omega,fun j h h' => absurd h (by omega),fun _ => hc⟩
    rw [if_neg hc]
    obtain ⟨hlo,hh,hl,hf⟩ := ih (index+1)
    refine ⟨by omega,by omega,?_,fun h => hf (by omega)⟩
    intro j hj hlt
    rcases eq_or_lt_of_le hj with rfl | hj
    · simpa using hc
    · exact hl j hj hlt

theorem measureRun_spec (n fuel index run : Nat) (hf : m.length ≤ index+fuel)
    (hi : index < m.length) (hr : run < n) : match measureRun m n fuel index run with
    | .enough => index+(n-run) < m.length ∧ ∀ j, index ≤ j → j < index+(n-run) → m.get j = false
    | .ranOut => m.length ≤ index+(n-run)
    | .short stop => index ≤ stop ∧ stop < index+(n-run) ∧ m.get stop = true := by
  induction fuel generalizing index run with
  | zero => omega
  | succ fuel ih =>
    simp only [measureRun]
    by_cases hl : m.get index = true
    · rw [if_pos hl]
      exact ⟨le_rfl,by omega,hl⟩
    rw [if_neg hl]
    have hc : m.get index = false := by simpa using hl
    by_cases he : m.length ≤ index+1
    · rw [if_pos he]
      omega
    rw [if_neg he]
    by_cases hlo : n ≤ run+1
    · rw [if_pos hlo]
      refine ⟨by omega,fun j hj hlt => ?_⟩
      rwa [show j = index by omega]
    rw [if_neg hlo]
    have hn := ih (index+1) (run+1) (by omega) (by omega) (by omega)
    revert hn
    cases measureRun m n fuel (index+1) (run+1) with
    | enough =>
      rintro ⟨hlt,hru⟩
      refine ⟨by omega,fun j hj hlt => ?_⟩
      rcases eq_or_lt_of_le hj with rfl | hj
      · exact hc
      · exact hru j hj (by omega)
    | ranOut =>
      intro hle
      omega
    | short stop =>
      rintro ⟨hlow,hh,hs⟩
      exact ⟨by omega,by omega,hs⟩

theorem search_sound {fuel index found : Nat} (hn : 0 < n)
    (h : searchRun m n fuel index = some found) : index ≤ found ∧ found+n < m.length ∧
      ∀ j, found ≤ j → j < found+n → m.get j = false := by
  induction fuel generalizing index with
  | zero => simp [searchRun] at h
  | succ fuel ih =>
    simp only [searchRun] at h
    split_ifs at h with he hl
    · have hr := ih h
      exact ⟨by omega,hr.2⟩
    have hru := measureRun_spec m n (m.length-index) index 0 (by omega) (by omega) hn
    revert h hru
    cases measureRun m n (m.length-index) index 0 with
    | enough =>
      intro h hru
      cases h
      exact ⟨le_rfl,hru⟩
    | ranOut =>
      intro h
      exact absurd h (by simp)
    | short stop =>
      intro h hru
      have hr := ih h
      exact ⟨by have := hru.1; omega,hr.2⟩

theorem search_first {fuel index start : Nat} (hn : 0 < n)
    (hf : m.length ≤ index+fuel) (hs : index ≤ start) (hlt : start+n < m.length)
    (hc : ∀ j, start ≤ j → j < start+n → m.get j = false) :
    ∃ found, searchRun m n fuel index = some found ∧ found ≤ start := by
  induction fuel generalizing index with
  | zero => omega
  | succ fuel ih =>
    simp only [searchRun]
    rw [if_neg (by omega)]
    by_cases hl : m.get index = true
    · rw [if_pos hl]
      have hne : index ≠ start := by
        rintro rfl
        simp [hc index le_rfl (by omega)] at hl
      exact ih (by omega) (by omega)
    rw [if_neg hl]
    have hr := measureRun_spec m n (m.length-index) index 0 (by omega) (by omega) hn
    revert hr
    cases measureRun m n (m.length-index) index 0 with
    | enough => exact fun _ => ⟨index,rfl,hs⟩
    | ranOut =>
      intro hr
      omega
    | short stop =>
      rintro ⟨hlo,hh,hst⟩
      have hb : stop < start := by
        by_contra hg
        simp [hc stop (by omega) (by omega)] at hst
      exact ih (by omega) (by omega)

/-- What a met request does: the run starting at `page` was clear and is set, and nothing
else in the bitmap changes. -/
structure Granted (p : PhysicalMemory) (n page : Nat) (q : PhysicalMemory) : Prop where
  clear : ∀ j, page ≤ j → j < page+n → ¬ p.Locked j
  inside : page+n ≤ 8 * p.pageMap.size
  get : ∀ j, q.pageMap.get j = if page ≤ j ∧ j < page+n then true else p.pageMap.get j
  size : q.pageMap.size = p.pageMap.size
  totalPages : q.totalPages = p.totalPages

variable {q : PhysicalMemory}
theorem Granted.locked {j : Nat} (h : Granted p n page q) :
    q.Locked j ↔ p.Locked j ∨ (page ≤ j ∧ j < page+n) := by
  unfold Locked
  rw [h.get]
  split_ifs with hj
  · simp [hj]
  · simp [hj]

section
variable {p : PhysicalMemory}
theorem lockPage_granted {address : Nat}
    (hp : address / pageSize = page) (hc : p.pageMap.get page = false)
    (hi : page < 8 * p.pageMap.size) (hint hi' : Nat) : Granted p 1 page
      { lockPage { p with firstFreePage := hint } address with firstFreePage := hi' } := by
  refine ⟨?_,by omega,?_,lockPage_size _ _,lockPage_totalPages _ _⟩
  · intro j hj hl
    obtain rfl : j = page := by omega
    simp [Locked,hc]
  intro j
  rw [lockPage_get,hp]
  by_cases hj : j = page
  · rw [if_pos ⟨hj,by dsimp only; omega⟩,if_pos (by omega)]
  · rw [if_neg (fun h => hj h.1),if_neg (by omega)]

private theorem lockPages_granted (hc : ∀ j, page ≤ j → j < page+n → p.pageMap.get j = false)
    (hi : page+n < p.pageMap.length) : Granted p n page (p.lockPages (page * pageSize) n) := by
  unfold Bitmap.length at hi
  refine ⟨?_,by omega,?_,lockPages_size _ _ _,lockPages_totalPages _ _ _⟩
  · intro j hj hl
    simp [Locked,hc j hj hl]
  intro j
  rw [lockPages_get,page_mul]
  exact if_congr (by omega) rfl rfl

theorem advancedHint_locked
    (hl : p.firstFreePage ≤ page) (hlt : page < p.advancedHint) : p.Locked page :=
  (firstClear_spec _ _ _).2.2.1 page hl hlt

theorem advancedHint_clear (hl : p.advancedHint < p.totalPages) : p.pageMap.get p.advancedHint = false := by
  obtain ⟨-,-,-,hc⟩ := firstClear_spec p.pageMap (p.totalPages-p.firstFreePage) p.firstFreePage
  refine hc ?_
  unfold advancedHint at hl
  omega
end

section
variable {p q : PhysicalMemory}
theorem requestPage_some {a : Nat} (hc : p.Covers) (h : p.requestPage = (some a,q)) :
    ∃ page, a = page * pageSize ∧ Granted p 1 page q ∧ page < p.totalPages ∧
      (∀ j, p.firstFreePage ≤ j → j < page → p.Locked j) ∧ q.firstFreePage = page+1 := by
  unfold requestPage at h
  by_cases hl : p.advancedHint < p.totalPages
  swap
  · rw [if_neg hl] at h
    cases (Prod.mk.inj h).1
  rw [if_pos hl] at h
  obtain ⟨ha,rfl⟩ := Prod.mk.inj h
  refine ⟨p.advancedHint,(Option.some.inj ha).symm,?_,hl,?_,rfl⟩
  · exact lockPage_granted (page_mul _) (advancedHint_clear hl) (hl.trans_le hc) _ _
  · intro j
    exact advancedHint_locked

theorem requestPage_none (h : p.requestPage = (none,q)) : q = { p with firstFreePage := q.firstFreePage } ∧
      (∀ j, p.firstFreePage ≤ j → j < p.totalPages → p.Locked j) ∧
      (∀ j, p.firstFreePage ≤ j → j < q.firstFreePage → p.Locked j) := by
  unfold requestPage at h
  by_cases hlt : p.advancedHint < p.totalPages
  · rw [if_pos hlt] at h
    cases (Prod.mk.inj h).1
  rw [if_neg hlt] at h
  obtain ⟨-,rfl⟩ := Prod.mk.inj h
  refine ⟨rfl,fun j hl hj => ?_,fun j => advancedHint_locked⟩
  exact advancedHint_locked hl (by omega)

theorem request_some {a : Nat} (hc : p.Covers) (h : p.requestPages n = (some a,q)) :
    ∃ page, a = page * pageSize ∧ 0 < n ∧ Granted p n page q := by
  unfold requestPages at h
  split_ifs at h with hz ho hf hr
  · cases (Prod.mk.inj h).1
  · subst ho
    obtain ⟨page,ha,hg,-⟩ := requestPage_some hc h
    exact ⟨page,ha,one_pos,hg⟩
  · cases (Prod.mk.inj h).1
  · cases (Prod.mk.inj h).1
  split at h
  · next page hs =>
    obtain ⟨ha,rfl⟩ := Prod.mk.inj h
    obtain ⟨-,hi,hcl⟩ := search_sound _ (pos_of_ne_zero hz) hs
    exact ⟨page,(Option.some.inj ha).symm,pos_of_ne_zero hz,lockPages_granted hcl hi⟩
  · simp at h

theorem request_none (h : p.requestPages n = (none,q)) : q = { p with firstFreePage := q.firstFreePage } ∧
      (∀ j, p.firstFreePage ≤ j → j < q.firstFreePage → p.Locked j) := by
  have hs : q = p → q = { p with firstFreePage := q.firstFreePage } ∧
      (∀ j, p.firstFreePage ≤ j → j < q.firstFreePage → p.Locked j) := by
    rintro rfl
    exact ⟨rfl,fun j hl hj => absurd hj (by omega)⟩
  unfold requestPages at h
  split_ifs at h with hz ho hf hr
  · exact hs (Prod.mk.inj h).2.symm
  · exact ⟨(requestPage_none h).1,(requestPage_none h).2.2⟩
  · exact hs (Prod.mk.inj h).2.symm
  · exact hs (Prod.mk.inj h).2.symm
  split at h
  · simp at h
  · exact hs (Prod.mk.inj h).2.symm
end

theorem requestPage_hintLocked (hc : p.Covers) (hp : p.HintLocked) : p.requestPage.2.HintLocked := by
  intro j hj
  rcases h : p.requestPage with ⟨_ | a,q⟩
  · obtain ⟨hq,-,hl⟩ := requestPage_none h
    rw [h] at hj
    rw [hq]
    rcases lt_or_ge j p.firstFreePage with hlo | hlo
    · exact hp j hlo
    · exact hl j hlo hj
  obtain ⟨page,-,hg,-,hl,hh⟩ := requestPage_some hc h
  rw [h] at hj
  dsimp only at hj ⊢
  rw [hg.locked]
  rcases lt_or_ge j p.firstFreePage with hlo | hlo
  · exact .inl (hp j hlo)
  rcases lt_or_ge j page with hlt | hge
  · exact .inl (hl j hlo hlt)
  · exact .inr (by omega)

theorem request_hintLocked (hc : p.Covers) (hp : p.HintLocked) (n : Nat) : (p.requestPages n).2.HintLocked := by
  unfold requestPages
  split_ifs with hz ho
  · exact hp
  · exact requestPage_hintLocked hc hp
  · exact hp
  · exact hp
  split
  · exact lockPages_hintLocked hp _ _
  · exact hp

theorem Granted.covers (h : Granted p n page q) (hc : p.Covers) : q.Covers := by
  unfold Covers
  rw [h.size,h.totalPages]
  exact hc

/-- What the two searches look for in the current bitmap: one clear page of memory, or a
run of clear pages that ends before the last index the scan looks at, within the counters. -/
def Servable (p : PhysicalMemory) (n : Nat) : Prop :=
  if n = 1 then ∃ page < p.totalPages, ¬ p.Locked page
  else 0 < n ∧ n ≤ p.totalFreePages ∧ n ≤ p.maxFreePagesInARow ∧
    ∃ page < p.pageMap.length, p.firstFreePage ≤ page ∧ page+n < p.pageMap.length ∧
      ∀ k < n, ¬ p.Locked (page+k)

instance (p : PhysicalMemory) (n : Nat) : Decidable (p.Servable n) :=
  inferInstanceAs (Decidable (if n = 1 then ∃ page < p.totalPages, ¬ p.Locked page
    else 0 < n ∧ n ≤ p.totalFreePages ∧ n ≤ p.maxFreePagesInARow ∧
      ∃ page < p.pageMap.length, p.firstFreePage ≤ page ∧ page+n < p.pageMap.length ∧
        ∀ k < n, ¬ p.Locked (page+k)))

theorem requestPage_isSome (hp : p.HintLocked)
    (h : ∃ page < p.totalPages, ¬ p.Locked page) : p.requestPage.1.isSome := by
  obtain ⟨page,hl,hc⟩ := h
  rcases hr : p.requestPage with ⟨_ | a,q⟩
  · refine absurd ((requestPage_none hr).2.1 page ?_ hl) hc
    by_contra hlo
    exact hc (hp page (by omega))
  · rfl

theorem request_isSome (hp : p.HintLocked) (h : p.Servable n) : (p.requestPages n).1.isSome := by
  unfold Servable at h
  by_cases ho : n = 1
  · subst ho
    exact requestPage_isSome hp (by simpa using h)
  rw [if_neg ho] at h
  obtain ⟨hpo,hfr,hro,page,-,hl,hi,hc⟩ := h
  have hr : ∀ j, page ≤ j → j < page+n → p.pageMap.get j = false := by
    intro j hj hlt
    have hj' := hc (j-page) (by omega)
    rw [Nat.add_sub_cancel' hj] at hj'
    simpa [Locked] using hj'
  obtain ⟨found,hf,-⟩ := search_first p.pageMap hpo le_add_tsub hl hi hr
  unfold requestPages
  rw [if_neg hpo.ne',if_neg ho,if_neg (by omega),if_neg (by omega),hf]
  rfl

/-- The state of an allocator in use: the bitmap covers memory without reaching far beyond it,
the hint is valid, and physical addresses fit the address field of a page table entry. -/
structure Sound (p : PhysicalMemory) : Prop where
  covers : p.Covers
  hint : p.HintLocked
  bitmap : p.pageMap.length ≤ p.totalPages
  addressable : p.totalPages ≤ 2^36

def clearBits (p : PhysicalMemory) (bound : Nat) : Nat := ((Finset.range bound).filter fun j => ¬ p.Locked j).card

theorem Granted.clearBits {bound : Nat} (h : Granted p n page q)
    (hi : page+n ≤ bound) : q.clearBits bound+n = p.clearBits bound := by
  have hse : (Finset.range bound).filter (fun j => ¬ q.Locked j) =
      (Finset.range bound).filter (fun j => ¬ p.Locked j) \ Finset.Ico page (page+n) := by
    ext j
    simp only [Finset.mem_filter,Finset.mem_range,Finset.mem_sdiff,Finset.mem_Ico,h.locked,not_or]
    tauto
  have hs : Finset.Ico page (page+n) ⊆ (Finset.range bound).filter (fun j => ¬ p.Locked j) := by
    intro j hj
    obtain ⟨hl,hh⟩ := Finset.mem_Ico.mp hj
    rw [Finset.mem_filter,Finset.mem_range]
    exact ⟨by omega,h.clear j hl hh⟩
  have hc := Finset.card_le_card hs
  rw [Nat.card_Ico,Nat.add_sub_cancel_left] at hc
  unfold PhysicalMemory.clearBits
  rw [hse,Finset.card_sdiff_of_subset hs,Nat.card_Ico]
  omega

def freeCount (p : PhysicalMemory) : Nat := ((Finset.range p.totalPages).filter fun j => ¬ p.Locked j).card

theorem Granted.freeCount (h : Granted p n page q)
    (hi : page+n ≤ p.totalPages) : q.freeCount+n = p.freeCount := by
  unfold PhysicalMemory.freeCount
  rw [h.totalPages]
  exact h.clearBits hi

theorem Sound.granted (hp : p.Sound)
    (h : Granted p n page q) (hh : q.HintLocked) : q.Sound := by
  refine ⟨h.covers hp.covers,hh,?_,by rw [h.totalPages]; exact hp.addressable⟩
  have hb := hp.bitmap
  unfold Bitmap.length at hb ⊢
  rw [h.size,h.totalPages]
  exact hb

theorem Sound.requestPage (hp : p.Sound) (hf : 0 < p.freeCount) :
    ∃ page, p.requestPage.1 = some (page * pageSize) ∧ page < p.totalPages ∧
      Granted p 1 page p.requestPage.2 ∧ p.requestPage.2.Sound ∧
      p.requestPage.2.freeCount+1 = p.freeCount := by
  obtain ⟨j,hj⟩ := Finset.card_pos.mp hf
  rw [Finset.mem_filter,Finset.mem_range] at hj
  obtain ⟨a,ha⟩ := Option.isSome_iff_exists.mp (requestPage_isSome hp.hint ⟨j,hj⟩)
  obtain ⟨page,rfl,hg,hl,-⟩ :=
    requestPage_some hp.covers (Prod.ext ha rfl : p.requestPage = (some a,p.requestPage.2))
  refine ⟨page,ha,hl,hg,hp.granted hg ?_,hg.freeCount hl⟩
  exact requestPage_hintLocked hp.covers hp.hint
end PhysicalMemory
end LensorOS.Memory
