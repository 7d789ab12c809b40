import LensorOS.Memory.PhysicalMemoryManager

/-!
# The supply of pages

How many requests an allocator can still meet. Both searches take pages from the low end.
-/
namespace LensorOS.Memory
open Option
namespace PhysicalMemory
variable {a : Nat}
section
variable {p q : PhysicalMemory} {n page : Nat}
theorem Sound.requestPages (hp : p.Sound) (h : p.requestPages n = (some a,q)) :
    ∃ page, a = page * pageSize ∧ 0 < n ∧ Granted p n page q ∧ page+n ≤ p.totalPages ∧ q.Sound := by
  have hh := request_hintLocked hp.covers hp.hint n
  rw [h] at hh
  by_cases ho : n = 1
  · subst ho
    obtain ⟨page,ha,hg,hlt,-⟩ := requestPage_some hp.covers h
    exact ⟨page,ha,zero_lt_one,hg,hlt,hp.granted hg hh⟩
  obtain ⟨page,ha,hpo,hg⟩ := request_some hp.covers h
  refine ⟨page,ha,hpo,hg,?_,hp.granted hg hh⟩
  have hl : page+n < p.pageMap.length := by
    unfold PhysicalMemory.requestPages at h
    rw [if_neg hpo.ne',if_neg ho] at h
    split_ifs at h
    · cases (Prod.mk.inj h).1
    · cases (Prod.mk.inj h).1
    split at h
    · next found hs =>
      obtain ⟨hf,-⟩ := Prod.mk.inj h
      rw [ha] at hf
      have hsa := Nat.eq_of_mul_eq_mul_right (by decide) (some.inj hf)
      rw [← hsa]
      exact (search_sound _ hpo hs).2.1
    · simp at h
  exact hl.le.trans hp.bitmap

theorem Sound.request_aligned (hp : p.Sound)
    (h : p.requestPages n = (some a,q)) : a % pageSize = 0 ∧ a+n * pageSize < 2^64 := by
  obtain ⟨page,rfl,-,-,hi,-⟩ := hp.requestPages h
  have ha := hp.addressable
  unfold pageSize
  omega

theorem Sound.request_refused (hp : p.Sound) (h : p.requestPages n = (none,q)) :
    q.Sound ∧ q.pageMap = p.pageMap ∧ q.totalPages = p.totalPages := by
  have hh := request_hintLocked hp.covers hp.hint n
  rw [h] at hh
  obtain ⟨hq,-⟩ := request_none h
  have hm : q.pageMap = p.pageMap := by rw [hq]
  have ht : q.totalPages = p.totalPages := by rw [hq]
  refine ⟨⟨?_,hh,?_,?_⟩,hm,ht⟩
  · unfold Covers
    rw [hm,ht]
    exact hp.covers
  · rw [hm,ht]
    exact hp.bitmap
  · rw [ht]
    exact hp.addressable

theorem freePages_locked (address page : Nat) : (p.freePages address n).Locked page ↔
    p.Locked page ∧ ¬ (address / pageSize ≤ page ∧ page < address / pageSize+n) := by
  unfold Locked
  rw [freePages_get]
  split_ifs with hi
  · simp [hi]
  · simp [hi]

theorem Sound.freePages (hp : p.Sound) (address n : Nat) : (p.freePages address n).Sound := by
  refine ⟨?_,freePages_hintLocked hp.hint address n,?_,?_⟩
  · unfold Covers
    rw [freePages_totalPages,freePages_size]
    exact hp.covers
  · have hb := hp.bitmap
    unfold Bitmap.length at hb ⊢
    rw [freePages_totalPages,freePages_size]
    exact hb
  · rw [freePages_totalPages]
    exact hp.addressable
end

def afterRequests (p : PhysicalMemory) : Nat → PhysicalMemory
  | 0 => p
  | k+1 => p.requestPage.2.afterRequests k

section
variable {p : PhysicalMemory}
theorem after_add (k l : Nat) : p.afterRequests (k+l) = (p.afterRequests k).afterRequests l := by
  induction k generalizing p with
  | zero => rw [zero_add,afterRequests]
  | succ k ih =>
    rw [add_right_comm,afterRequests,afterRequests]
    exact ih

theorem Sound.afterRequests (hp : p.Sound) {k : Nat} (hk : k ≤ p.freeCount) :
    (p.afterRequests k).freeCount+k = p.freeCount := by
  induction k generalizing p with
  | zero => rfl
  | succ k ih =>
    obtain ⟨-,-,-,-,hs,hc⟩ := hp.requestPage (by omega)
    have hr := ih hs (by omega)
    rw [PhysicalMemory.afterRequests]
    omega
end

/-- A free run of `n` pages that the run search can see, within the allocator's counters. -/
structure Roomy (p : PhysicalMemory) (n : Nat) : Prop where
  run : ∃ start, start+n < p.pageMap.length ∧ ∀ k < n, ¬ p.Locked (start+k)
  counted : n ≤ p.totalFreePages ∧ p.totalFreePages < 2^64
  row : n ≤ p.maxFreePagesInARow

section
variable {p q : PhysicalMemory} {n k : Nat}
theorem Roomy.mono (h : p.Roomy n) (hk : k ≤ n) : p.Roomy k := by
  obtain ⟨⟨start,he,hc⟩,⟨hf,hw⟩,hr⟩ := h
  exact ⟨⟨start,by omega,fun j hj => hc j (by omega)⟩,⟨by omega,hw⟩,by omega⟩

theorem Roomy.le_freeCount (h : p.Roomy n) (hp : p.Sound) : n ≤ p.freeCount := by
  obtain ⟨start,he,hc⟩ := h.run
  have hs : Finset.Ico start (start+n) ⊆ (Finset.range p.totalPages).filter (fun j => ¬ p.Locked j) := by
    intro j hj
    obtain ⟨hl,hh⟩ := Finset.mem_Ico.mp hj
    have hb := hp.bitmap
    have hj := hc (j-start) (by omega)
    rw [Nat.add_sub_cancel' hl] at hj
    rw [Finset.mem_filter,Finset.mem_range]
    exact ⟨by omega,hj⟩
  have hca := Finset.card_le_card hs
  rw [Nat.card_Ico,Nat.add_sub_cancel_left] at hca
  exact hca

theorem Roomy.servable (h : p.Roomy n) (hp : p.Sound) (hn : 0 < n) : p.Servable n := by
  obtain ⟨start,he,hc⟩ := h.run
  have hb := hp.bitmap
  have hh : p.firstFreePage ≤ start := by
    by_contra hl
    exact hc 0 hn (hp.hint _ (by omega))
  unfold Servable
  split_ifs with ho
  · exact ⟨start,by omega,hc 0 hn⟩
  · exact ⟨hn,h.counted.1,h.row,start,by omega,hh,he,hc⟩

theorem lockPage_counters {address : Nat} (hc : ¬ p.Locked (address / pageSize))
    (hi : address / pageSize / 8 < p.pageMap.size) :
    (p.lockPage address).totalFreePages = decrement64 p.totalFreePages ∧
      (p.lockPage address).totalUsedPages = increment64 p.totalUsedPages ∧
      (p.lockPage address).maxFreePagesInARow = p.maxFreePagesInARow := by
  have hg : ¬ p.pageMap.get (address / pageSize) = true := hc
  unfold lockPage
  rw [if_neg hg,if_pos (by rw [Bitmap.set_fst]; simpa using hi)]
  exact ⟨rfl,rfl,rfl⟩

private theorem decrement64_of_pos (hp : 0 < n) (hl : n < 2^64) : decrement64 n = n-1 := by
  unfold decrement64
  omega

private theorem lockPages_counters {page : Nat} (hc : ∀ j, page ≤ j → j < page+n → ¬ p.Locked j)
    (hi : page+n ≤ 8 * p.pageMap.size) (hf : n ≤ p.totalFreePages)
    (hw : p.totalFreePages < 2^64) :
    (p.lockPages (page * pageSize) n).totalFreePages = p.totalFreePages-n ∧
      (p.lockPages (page * pageSize) n).maxFreePagesInARow = p.maxFreePagesInARow := by
  induction n with
  | zero => exact ⟨rfl,rfl⟩
  | succ n ih =>
    obtain ⟨hco,hr⟩ := ih (fun j hj hl => hc j hj (by omega)) (by omega) (by omega)
    have hp : (page * pageSize+n * pageSize) / pageSize = page+n := by rw [← add_mul,page_mul]
    have hu : ¬ (p.lockPages (page * pageSize) n).Locked ((page * pageSize+n * pageSize) / pageSize) := by
      rw [hp]
      unfold Locked
      rw [lockPages_get,page_mul,if_neg (by omega)]
      exact hc (page+n) (by omega) (by omega)
    obtain ⟨hf',-,hr'⟩ := lockPage_counters hu (by rw [hp,lockPages_size]; omega)
    rw [lockPages_succ,hf',hr',hco,hr,decrement64_of_pos (by omega) (by omega)]
    exact ⟨by omega,rfl⟩

private theorem request_counters (hp : p.Sound) (h : p.requestPages n = (some a,q))
    (hfr : n ≤ p.totalFreePages) (hw : p.totalFreePages < 2^64) :
    q.totalFreePages = p.totalFreePages-n ∧ q.maxFreePagesInARow = p.maxFreePagesInARow := by
  obtain ⟨page,rfl,hpo,hg,-,-⟩ := hp.requestPages h
  unfold requestPages at h
  rw [if_neg hpo.ne'] at h
  by_cases ho : n = 1
  · subst ho
    rw [if_pos rfl] at h
    unfold requestPage at h
    dsimp only at h
    split_ifs at h with hl
    · obtain ⟨ha,rfl⟩ := Prod.mk.inj h
      have hf := Nat.eq_of_mul_eq_mul_right (by decide) (some.inj ha)
      have hi := hg.inside
      obtain ⟨hc,-,hr⟩ := lockPage_counters
        (p := { p with firstFreePage := p.advancedHint })
        (show ¬ p.Locked (p.advancedHint * pageSize / pageSize) by
          rw [page_mul,hf]
          exact hg.clear page le_rfl (by omega))
        (show p.advancedHint * pageSize / pageSize / 8 < p.pageMap.size by
          rw [page_mul,hf]
          omega)
      exact ⟨hc.trans (decrement64_of_pos hfr hw),hr⟩
    · cases (Prod.mk.inj h).1
  · rw [if_neg ho] at h
    split_ifs at h
    · cases (Prod.mk.inj h).1
    · cases (Prod.mk.inj h).1
    split at h
    · obtain ⟨ha,rfl⟩ := Prod.mk.inj h
      have hf := Nat.eq_of_mul_eq_mul_right (by decide) (some.inj ha)
      rw [hf]
      exact lockPages_counters hg.clear hg.inside hfr hw
    · simp at h

theorem Roomy.requestPages (h : p.Roomy (n+k)) (hp : p.Sound) (hr : p.requestPages n = (some a,q)) : q.Roomy k := by
  obtain ⟨⟨start,he,hc⟩,⟨hfr,hw⟩,hro⟩ := h
  obtain ⟨hco,hr'⟩ := request_counters hp hr (by omega) hw
  obtain ⟨page,rfl,hpo,hg,-,-⟩ := hp.requestPages hr
  have hh : p.firstFreePage ≤ start := by
    by_contra hlt
    exact hc 0 (by omega) (hp.hint _ (by omega))
  have hfi : page ≤ start := by
    by_cases ho : n = 1
    · subst ho
      obtain ⟨first,hpa,-,-,hl,-⟩ := requestPage_some hp.covers hr
      have hs := Nat.eq_of_mul_eq_mul_right (by decide) hpa
      by_contra hlt
      exact hc 0 (by omega) (hl start hh (by omega))
    unfold PhysicalMemory.requestPages at hr
    have hru : ∀ j, start ≤ j → j < start+n → p.pageMap.get j = false := by
      intro j hj hlt
      have hj' := hc (j-start) (by omega)
      rw [Nat.add_sub_cancel' hj] at hj'
      simpa [Locked] using hj'
    obtain ⟨found,hf,hle⟩ := search_first p.pageMap hpo le_add_tsub hh (by omega) hru
    rw [if_neg hpo.ne',if_neg ho,if_neg (by omega),if_neg (by omega),hf] at hr
    obtain ⟨ha,-⟩ := Prod.mk.inj hr
    have hs := Nat.eq_of_mul_eq_mul_right (by decide) (some.inj ha)
    exact hs ▸ hle
  refine ⟨⟨start+n,?_,?_⟩,⟨by omega,by omega⟩,by omega⟩
  · unfold Bitmap.length at he ⊢
    rw [hg.size]
    omega
  intro j hj
  rw [hg.locked,add_assoc]
  rintro (hl | hi)
  · exact hc (n+j) (by omega) hl
  · omega

theorem Roomy.requestPage (h : p.Roomy (k+1)) (hp : p.Sound) : p.requestPage.2.Roomy k := by
  obtain ⟨page,hr,-⟩ := hp.requestPage (lt_of_lt_of_le (by omega) (h.le_freeCount hp))
  rw [add_comm] at h
  exact h.requestPages hp (show p.requestPages 1 = (some (page * pageSize), p.requestPage.2) from Prod.ext hr rfl)

theorem Roomy.afterRequests (h : p.Roomy (n+k)) (hp : p.Sound) : (p.afterRequests n).Roomy k := by
  induction n generalizing p with
  | zero => rwa [zero_add] at h
  | succ n ih =>
    rw [add_right_comm] at h
    obtain ⟨-,-,-,-,hs,-⟩ := hp.requestPage (lt_of_lt_of_le (by omega) (h.le_freeCount hp))
    exact ih (h.requestPage hp) hs
end

/-- Room for `n` pages in a row, and `c` more pages free besides. -/
structure Plenty (p : PhysicalMemory) (c n : Nat) : Prop where
  roomy : p.Roomy n
  spare : c+n ≤ p.freeCount

section
variable {p q : PhysicalMemory} {c n k : Nat}
theorem Roomy.plenty (h : p.Roomy n) (hp : p.Sound) : p.Plenty 0 n := ⟨h,by simpa using h.le_freeCount hp⟩

theorem Plenty.mono (h : p.Plenty c n) (hk : k ≤ n) : p.Plenty c k := by
  have hs := h.spare
  exact ⟨h.roomy.mono hk,by omega⟩

theorem Plenty.request (h : p.Plenty c (n+k)) (hp : p.Sound) (hn : 0 < n) :
    ∃ a q, p.requestPages n = (some a,q) ∧ q.Plenty c k := by
  have hs := (h.roomy.mono (by omega)).servable hp hn
  obtain ⟨a,ha⟩ := isSome_iff_exists.mp (request_isSome hp.hint hs)
  have hr : p.requestPages n = (some a, (p.requestPages n).2) := Prod.ext ha rfl
  obtain ⟨page,-,-,hg,hi,-⟩ := hp.requestPages hr
  have hc := hg.freeCount hi
  have hsp := h.spare
  exact ⟨a,_,hr,h.roomy.requestPages hp hr,by omega⟩

theorem Plenty.afterRequests (h : p.Plenty c (n+k)) (hp : p.Sound) : (p.afterRequests n).Plenty c k := by
  have hs := h.spare
  have hc := hp.afterRequests (show n ≤ p.freeCount by omega)
  exact ⟨h.roomy.afterRequests hp,by omega⟩
end
end PhysicalMemory
end LensorOS.Memory
