import LensorOS.Memory.HeapWrap

/-!
# Coalescing

A block that is freed is combined with the free segments beside it.
-/
namespace LensorOS.Memory
open Framework List
namespace Heap
def walk (m : Bytes) : (fuel current : Nat) → List Tile
  | 0, _ => []
  | fuel+1, current =>
    ⟨lengthOf m current,freeOf m current⟩ ::
      if nextOf m current = 0 then [] else walk m fuel (nextOf m current)

def segments (h : Heap) : List Tile := walk h.memory h.segmentBound h.sHeapStart

variable {tiles : List Tile}
theorem walk_eq {m : Bytes} {fuel prev a : Nat}
    (hl : Tile.Linked headerSize (segmentHeader m) 0 prev a tiles) (hne : tiles ≠ [])
    (hf : tiles.length ≤ fuel) : walk m fuel a = tiles := by
  induction fuel generalizing tiles prev a with
  | zero => exact absurd (length_eq_zero_iff.mp (by omega)) hne
  | succ fuel ih =>
    obtain ⟨t,ts,rfl⟩ := exists_cons_of_ne_nil hne
    rw [walk,lengthOf_eq,freeOf_eq,nextOf_eq,hl.1]
    cases ts with
    | nil => rfl
    | cons u us =>
      have hn : a+(headerSize+t.length) ≠ 0 := by unfold headerSize; omega
      rw [Tile.front,if_neg hn,ih hl.2 (cons_ne_nil u us) (Nat.le_of_succ_le_succ hf)]

theorem Shaped.segments_eq {h : Heap} (hs : h.Shaped tiles) : h.segments = tiles := by
  rw [segments,hs.start]
  exact walk_eq hs.linked hs.nonempty hs.length_le_segmentBound

theorem Coalesced.single {a : Nat} (hc : Coalesced tiles) (hn : tiles ≠ [])
    (hus : usedFrom a tiles = []) : ∃ n, tiles = [⟨n,true⟩] := by
  obtain ⟨⟨n,free⟩,ts,rfl⟩ := exists_cons_of_ne_nil hn
  rw [used_cons] at hus
  obtain rfl : free = true := by
    by_contra hf
    simp [hf] at hus
  cases ts with
  | nil => exact ⟨n,rfl⟩
  | cons u us =>
    have hu := (isChain_cons_cons.mp hc).1 rfl
    simp [used_cons,hu] at hus

/-- Freeing both blocks joins them, with nothing behind them. -/
theorem Closed.free_segments {h : Heap} {length : Nat} (hc : h.Closed length) (hl : length < 2^40) :
    ((h.free (second+headerSize)).free (heapVirtualBase+headerSize)).segments =
      [⟨80+length+headerSize,true⟩] := by
  have ha : Apart second heapVirtualBase := .inr (by decide)
  have hf : h.free (second+headerSize) = { h with memory := setFree h.memory second true } := by
    have hb : segmentHeader (setFree h.memory second true) second = ⟨heapVirtualBase,0,length,true⟩ := by
      rw [setFree_same,hc.block]
    have h0 : segmentHeader (setFree h.memory second true) heapVirtualBase = ⟨0,second,80,false⟩ := by
      rw [setFree_apart ha,hc.first]
    rw [free,if_neg (by decide)]
    simp [combineForward,combineBackward,nextOf_eq,lastOf_eq,freeOf_eq,hb,h0]
  rw [hf]
  generalize hm : setFree (setFree h.memory second true) heapVirtualBase true = m
  have h0 : segmentHeader m heapVirtualBase = ⟨0,second,80,true⟩ := by
    rw [← hm,setFree_same,setFree_apart ha,hc.first]
  have hb : segmentHeader m second = ⟨heapVirtualBase,0,length,true⟩ := by
    rw [← hm,setFree_apart ha.symm,setFree_same,hc.block]
  obtain ⟨g,hg,hgv,hgs,-⟩ := backward_extended (h := { h with memory := m }) hb h0
    (by decide) (by decide) ha.symm (by unfold headerSize; omega)
  have hj : Heap.free { h with memory := setFree h.memory second true } (heapVirtualBase+headerSize) = g := by
    rw [free,if_neg (by decide),Nat.add_sub_cancel]
    have hfo : combineForward { h with memory := m } heapVirtualBase = g := by
      rw [← hg,combineBackward,lastOf_eq,hb,if_neg (show heapVirtualBase ≠ 0 by decide),freeOf_eq,h0]
      rfl
    dsimp only
    rw [hm,hfo,combineBackward,lastOf_eq,hgv]
    rfl
  rw [hj,segments,segmentBound,walk,hgs,hc.start,lengthOf_eq,freeOf_eq,nextOf_eq,hgv]
  rfl
end Heap

namespace HeapRun
variable {s : HeapRun}
def freeAll (s : HeapRun) (order : List Nat) : Heap := order.foldl Heap.free s.heap

theorem freeAll_tidy {order : List Nat} (hs : ∃ tiles, s.Tidy tiles)
    (ho : order.Perm (s.live.map Prod.fst)) :
    (∃ tiles, Tidy ⟨s.freeAll order,[]⟩ tiles) ∧ (s.freeAll order).mapped = s.heap.mapped := by
  induction order generalizing s with
  | nil =>
    have hl := map_eq_nil_iff.mp ho.symm.eq_nil
    exact ⟨hl ▸ hs,rfl⟩
  | cons a order ih =>
    obtain ⟨tiles,hs⟩ := hs
    obtain ⟨b,hb,hba⟩ := mem_map.mp (ho.mem_iff.mp mem_cons_self)
    have hn := ho.nodup_iff.mpr hs.distinct
    have hr : order.Perm ((s.live.filter fun b => b.1 ≠ a).map Prod.fst) := by
      have hf := ho.filter (fun x => decide (x ≠ a))
      have hk : order.filter (fun x => decide (x ≠ a)) = order := by
        refine filter_eq_self.mpr fun x hx => decide_eq_true ?_
        rintro rfl
        exact (nodup_cons.mp hn).1 hx
      rw [filter_cons_of_neg (by simp),hk,filter_map] at hf
      exact hf
    obtain ⟨ht,hm⟩ := ih (free_tidy hs ⟨b,hb,hba⟩) hr
    exact ⟨ht,hm.trans (s.heap.free_mapped a)⟩

/-- In every run in which each allocation has room no two neighbours are free, and freeing the live
blocks in any order leaves one free segment from the start of the heap to its end. -/
theorem heap_coalesced (hrun : Reachable Start step Roomy s) :
    Heap.Coalesced s.heap.segments ∧ ∀ order, order.Perm (s.live.map Prod.fst) →
      (s.freeAll order).segments = [⟨s.heap.sHeapEnd-s.heap.sHeapStart-headerSize,true⟩] := by
  obtain ⟨tiles,hs⟩ := tidy_run (endFits_run hrun)
  rw [hs.shaped.segments_eq]
  refine ⟨hs.coalesced,fun order ho => ?_⟩
  obtain ⟨⟨rest,hr⟩,hm⟩ := freeAll_tidy ⟨tiles,hs⟩ ho
  have hu : Heap.usedFrom heapVirtualBase rest = [] :=
    eq_nil_iff_forall_not_mem.mpr fun x hx => by
      obtain ⟨b,hb,-⟩ := hr.held x hx
      cases hb
  obtain ⟨n,rfl⟩ := hr.coalesced.single hr.shaped.nonempty hu
  have hf := hr.shaped.filled
  have hp := hr.shaped.pages
  simp only [Tile.span,hm] at hf hp
  have hl : n = heapVirtualBase+pageSize * s.heap.mapped.length-heapVirtualBase - headerSize := by omega
  rw [hr.shaped.segments_eq,hs.shaped.start,hs.shaped.pages,← hl]

theorem heap_coalesced_firstBlock : Heap.Coalesced firstBlock.heap.segments ∧
    (firstBlock.freeAll [heapVirtualBase+32,heapVirtualBase+144]).segments = [⟨4064,true⟩] := by
  have hl : firstBlock.live.map Prod.fst = [heapVirtualBase+144,heapVirtualBase+32] := by decide +kernel
  have hs : firstBlock.heap.sHeapEnd-firstBlock.heap.sHeapStart-headerSize = 4064 := by decide +kernel
  obtain ⟨hc,ha⟩ := heap_coalesced firstBlock_run
  exact ⟨hc,(ha _ (by rw [hl]; exact .swap _ _ _)).trans (by rw [hs])⟩

/-- The segment at address zero is lost: freeing the blocks leaves one segment that ends at the top
of the address space. -/
theorem heap_coalesced_wrap : ∃ s : HeapRun, Reachable Start step anyStep s ∧
    ∃ order, order.Perm (s.live.map Prod.fst) ∧ (s.freeAll order).segments ≠
      [⟨s.heap.sHeapEnd-s.heap.sHeapStart-headerSize,true⟩] := by
  obtain ⟨h,hr,hc,he,-⟩ := closed_run
  refine ⟨_,hr,[Heap.second+headerSize,heapVirtualBase+headerSize],.refl _,fun heq => ?_⟩
  have hl := (hc.free_segments (by decide)).symm.trans heq
  rw [he,hc.start] at hl
  revert hl
  decide
end HeapRun
end LensorOS.Memory
