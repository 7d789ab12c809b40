import LensorOS.Memory.HeapSafety

/-!
# The heap at the top of the address space

The heap grows upwards from sixteen megabytes below `2^64`, and no expansion checks where it ends.
-/
namespace LensorOS.Memory
open Framework
namespace Heap
def OutsideNew (h : Heap) (k x : Nat) : Prop :=
  ∀ i < k, x+headerSize ≤ add64 h.sHeapEnd (i * pageSize) ∨
    add64 h.sHeapEnd (i * pageSize)+pageSize ≤ x

/-- `g` is `h` with `k` new pages, their header linked behind the last one. -/
structure Extended (h : Heap) (k : Nat) (g : Heap) : Prop where
  start : g.sHeapStart = h.sHeapStart
  stop : g.sHeapEnd = add64 h.sHeapEnd (k * pageSize)
  final : g.sLastHeader = h.sHeapEnd
  sound : g.physical.Sound
  supply : g.physical.freeCount+k = h.physical.freeCount
  fresh : segmentHeader g.memory h.sHeapEnd = ⟨h.sLastHeader,0,k * pageSize-headerSize,true⟩
  last : segmentHeader g.memory h.sLastHeader =
    { segmentHeader h.memory h.sLastHeader with next := h.sHeapEnd }
  other : ∀ x, h.OutsideNew k x → Apart h.sLastHeader x → Apart h.sHeapEnd x →
    segmentHeader g.memory x = segmentHeader h.memory x

variable {h g : Heap} {n k : Nat}
theorem mapNew_supplied (clear : Bool) {count : Nat} (index : Nat) (hp : h.physical.Sound)
    (hco : count ≤ h.physical.freeCount) :
    ∃ g, h.mapNewPages clear count index = .ok g ∧ g.physical.Sound ∧
      g.physical.freeCount+count = h.physical.freeCount ∧ g.sHeapStart = h.sHeapStart ∧
      g.sHeapEnd = h.sHeapEnd ∧ g.sLastHeader = h.sLastHeader ∧
      ∀ x, (∀ i < count, x+headerSize ≤ add64 h.sHeapEnd ((index+i) * pageSize) ∨
        add64 h.sHeapEnd ((index+i) * pageSize)+pageSize ≤ x) →
        segmentHeader g.memory x = segmentHeader h.memory x := by
  induction count generalizing h index with
  | zero => exact ⟨h,rfl,hp,rfl,rfl,rfl,rfl,fun _ _ => rfl⟩
  | succ count ih =>
    obtain ⟨page,hr,-,-,hso,hf⟩ := hp.requestPage (by omega)
    have hr' : h.physical.requestPage = (some (page * pageSize), h.physical.requestPage.2) := Prod.ext hr rfl
    rw [mapNewPages,hr']
    obtain ⟨g,hok,hg,hc',hs,he,hl,ho⟩ := ih
      (h := { h with
        memory := if clear then h.memory.fill (add64 h.sHeapEnd (index * pageSize)) pageSize 0
          else h.memory
        physical := h.physical.requestPage.2
        mapped := (add64 h.sHeapEnd (index * pageSize), page * pageSize) :: h.mapped })
      (index+1) hso (by dsimp only; omega)
    dsimp only at hc' hs he hl ho
    refine ⟨g,hok,hg,by omega,hs,he,hl,fun x hx => ?_⟩
    rw [ho x fun i hi => by simpa [add_assoc,add_comm 1 i] using hx (i+1) (by omega)]
    refine header_congr fun y hlo hh => ?_
    split_ifs
    · have hpa := hx 0 (by omega)
      rw [add_zero] at hpa
      exact Bytes.fill_outside _ _ (by omega)
    · rfl

theorem expand_extended (hp : h.physical.Sound) (hf : n / pageSize+1 ≤ h.physical.freeCount)
    (hn : n < 2^40) (ha : Apart h.sLastHeader h.sHeapEnd) (hla : h.sLastHeader < 2^64)
    (he : h.sHeapEnd < 2^64) (hou : h.OutsideNew (n / pageSize+1) h.sLastHeader) :
    ∃ g, h.expandHeap n = .ok (g.combineBackward h.sHeapEnd) ∧ h.Extended (n / pageSize+1) g := by
  obtain ⟨g,hok,hso,hs,hs',he',hl',ho⟩ := mapNew_supplied true 0 hp hf
  simp only [zero_add] at ho
  have hl : (n / pageSize+1) * pageSize-headerSize < 2^64 := by
    unfold pageSize
    omega
  refine ⟨{ g with
    memory := extended g.memory g.sLastHeader g.sHeapEnd
      ((n / pageSize+1) * pageSize-headerSize)
    sHeapEnd := add64 g.sHeapEnd ((n / pageSize+1) * pageSize)
    sLastHeader := g.sHeapEnd },?_,hs',by rw [he'],he',hso,hs,?_,?_,
    fun x hx hlo hh => ?_⟩
  · simp only [expandHeap,hok,← he']
    rfl
  · rw [he',hl']
    exact extended_new ha hla hl
  · rw [he',hl',extended_last ha.symm he,ho _ hou]
  · rw [he',hl',extended_apart hlo hh,ho x hx]

theorem search_used {p last next length : Nat} (fuel : Nat)
    (hv : segmentHeader h.memory p = ⟨last,next,length,false⟩) : h.searchSegments n (fuel+1) p =
      if next = 0 then .ok none else h.searchSegments n fuel next := by
  have hu : freeOf h.memory p = false := by rw [freeOf_eq,hv]
  have hne : nextOf h.memory p = next := by rw [nextOf_eq,hv]
  simp only [searchSegments,hu,hne,if_true]

theorem search_last {p last length : Nat} (fuel : Nat)
    (hv : segmentHeader h.memory p = ⟨last,0,length,true⟩) (hn : heapByteAlign ≤ n)
    (hlo : n+headerSize+heapByteAlign ≤ length)
    (ha : Apart p (add64 (add64 p headerSize) n)) :
    ∃ g, h.searchSegments n (fuel+1) p = .ok (some (add64 p headerSize,g)) ∧
      segmentHeader g.memory p = ⟨last,add64 (add64 p headerSize) n,n,false⟩ ∧
      g.sHeapStart = h.sHeapStart ∧ g.sHeapEnd = h.sHeapEnd ∧
      g.sLastHeader = add64 (add64 p headerSize) n ∧ g.physical = h.physical ∧
      ∀ x, Apart p x → Apart (add64 (add64 p headerSize) n) x →
        segmentHeader g.memory x = segmentHeader h.memory x := by
  have hl : lengthOf h.memory p = length := by rw [lengthOf_eq,hv]
  have hne : nextOf h.memory p = 0 := by rw [nextOf_eq,hv]
  have ho : freeOf h.memory p = true := by rw [freeOf_eq,hv]
  have hw : length < 2^64 := hl ▸ BitVec.isLt _
  have hc : add64 (add64 p headerSize) n < 2^64 := Nat.mod_lt _ (by decide)
  have hsu : add64 n headerSize = n+headerSize := add64_lt (by unfold heapByteAlign at *; omega)
  have hs : h.split p n = some { h with
      memory := parted h.memory p (add64 (add64 p headerSize) n) 0 n (length-n-headerSize)
      sLastHeader := add64 (add64 p headerSize) n } := by
    simp only [split,hne,hsu,hl]
    rw [if_neg (by omega),if_neg (by omega),if_neg (by omega)]
    rfl
  simp only [searchSegments,hs,ho,hl]
  rw [if_neg (by simp),if_pos (by unfold headerSize at *; omega)]
  refine ⟨_,rfl,?_,rfl,rfl,rfl,rfl,fun x hp hx => ?_⟩
  · rw [setFree_same,parted_self ha.symm (fun h0 => absurd rfl h0) hc (by omega),hv]
  · rw [setFree_apart hp,parted_apart hp hx fun h0 => absurd rfl h0]

theorem malloc_found {r : Nat × Heap} (fuel : Nat) (hn : n ≠ 0)
    (hs : h.searchSegments (roundUp n) h.segmentBound h.sHeapStart = .ok (some r)) :
    mallocBounded (fuel+1) h n = .ok r := by simp [mallocBounded,hn,hs]

theorem malloc_retry (fuel : Nat) (hn : n ≠ 0)
    (hs : h.searchSegments (roundUp n) h.segmentBound h.sHeapStart = .ok none)
    (he : h.expandHeap (roundUp n) = .ok g) :
    mallocBounded (fuel+1) h n = mallocBounded fuel g (roundUp n) := by
  simp [mallocBounded,hn,hs,he]

theorem backward_extended {l p e len : Nat}
    (hf : segmentHeader h.memory e = ⟨p,0,len,true⟩)
    (hla : segmentHeader h.memory p = ⟨l,e,n,true⟩) (hp : p ≠ 0) (he : e ≠ 0)
    (ha : Apart p e) (hle : n+len+headerSize < 2^64) : ∃ g, h.combineBackward e = g ∧
      segmentHeader g.memory p = ⟨l,0,n+len+headerSize,true⟩ ∧ g.sHeapStart = h.sHeapStart ∧
      g.sHeapEnd = h.sHeapEnd ∧ g.physical = h.physical ∧
      ∀ x, Apart p x → segmentHeader g.memory x = segmentHeader h.memory x := by
  have hl : lastOf h.memory e = p := by rw [lastOf_eq,hf]
  have hn : nextOf h.memory p = e := by rw [nextOf_eq,hla]
  have ho : freeOf h.memory p = true := by rw [freeOf_eq,hla]
  have ho' : freeOf h.memory e = true := by rw [freeOf_eq,hf]
  have hen : nextOf h.memory e = 0 := by rw [nextOf_eq,hf]
  have hb := bridged_self (m := h.memory) ha (fun h0 : (0 : Nat) ≠ 0 => absurd rfl h0)
    (fun h0 => absurd rfl h0) (by rw [lengthOf_eq,lengthOf_eq,hla,hf]; exact hle)
  rw [hla,hf,lengthOf_eq,lengthOf_eq,hla,hf] at hb
  refine ⟨_,rfl,?_⟩
  simp only [combineBackward,combineForward,hl,hp,ho,hn,he,ho',hen,if_false,if_true]
  exact ⟨hb,rfl,rfl,rfl,fun x hx => @bridged_apart _ _ e 0 x hx fun h0 => absurd rfl h0⟩

/-- After the first report: its array, and the rest of the first page. -/
def reported : List Tile := [⟨80,false⟩,⟨3952,true⟩]

/-- The header behind that array. -/
def second : Nat := heapVirtualBase+112

theorem init_supplied {physical : PhysicalMemory} (memory : Bytes) (hp : physical.Sound)
    (hf : 0 < physical.freeCount) :
    ∃ h, initHeap memory physical = .ok (heapVirtualBase+headerSize,h) ∧ h.Shaped reported ∧
      h.physical.Sound ∧ h.physical.freeCount+1 = physical.freeCount := by
  obtain ⟨g,ho,hs,hco,-⟩ := mapNew_supplied
    (h := ⟨memory,heapVirtualBase,heapVirtualBase,0,physical,[]⟩) false 0 hp hf
  have ho' : mapNewPages ⟨memory,heapVirtualBase,heapVirtualBase,0,physical,[]⟩ false heapInitialPages 0 = .ok g := ho
  obtain ⟨f,hi,hfp⟩ : ∃ f, initSegments memory physical = .ok f ∧ f.physical = g.physical := by
    unfold initSegments
    rw [ho']
    exact ⟨_,rfl,rfl⟩
  have hsh := init_shaped hi
  obtain ⟨r,hse,-,-,-,-,hrp,-⟩ := search_last (n := 80) (f.mapped.length * pageSize / headerSize)
    hsh.linked.1 (by decide) (by decide) (.inl (by decide))
  have hse' : f.searchSegments (roundUp 65) f.segmentBound f.sHeapStart =
      .ok (some (heapVirtualBase+headerSize,r)) := by
    rw [hsh.start]
    exact hse
  refine ⟨r,?_,?_,by rwa [hrp,hfp],by rwa [hrp,hfp]⟩
  · rw [initHeap,hi]
    change f.malloc f.totalChars = _
    rw [hsh.totalChars]
    exact malloc_found 2 (by decide) hse'
  · obtain ⟨ws,s,zs,g',heq,hu,hg,hg'⟩ := (hsh.search (n := 80) (by decide) (by decide)
      (by decide)).resolve_right fun hn => hn.2 _ List.mem_cons_self ⟨rfl,.inr (by decide)⟩
    obtain ⟨-,rfl⟩ := Prod.mk.inj (Option.some.inj (Except.ok.inj (hse'.symm.trans hg')))
    obtain ⟨rfl,rfl,rfl⟩ : ws = [] ∧ s = ⟨pageSize-headerSize,true⟩ ∧ zs = [] := by
      cases ws <;> simp_all
    exact hg

/-- The first block that the initial page cannot hold ends near the new end of the heap,
wherever that is modulo `2^64`. -/
theorem Shaped.reported_full (hs : h.Shaped reported) (hmi : pageSize ≤ n) (hm : n < 2^40)
    (hd : 16 ∣ n) : h.searchSegments n h.segmentBound h.sHeapStart = .ok none := by
  unfold pageSize at hmi
  rcases hs.search (by unfold heapByteAlign; omega) hd (by unfold headerSize; omega) with
    ⟨ws,s,zs,-,heq,⟨hfr,hlo⟩,-⟩ | ⟨hse,-⟩
  · have hmem : s ∈ reported := heq ▸ List.mem_append_right ws List.mem_cons_self
    rcases List.mem_pair.mp hmem with rfl | rfl
    · cases hfr
    · dsimp only at hlo
      omega
  · exact hse

theorem Shaped.malloc_first (hs : h.Shaped reported)
    (hp : h.physical.Sound) (hmi : pageSize ≤ n) (hm : n < 2^40) (hd : 16 ∣ n)
    (hfre : n / pageSize+1 ≤ h.physical.freeCount)
    (hap : add64 (second+headerSize) n+headerSize ≤ heapVirtualBase) :
    ∃ g, h.malloc n = .ok (second+headerSize,g) ∧ g.sHeapStart = heapVirtualBase ∧
      segmentHeader g.memory heapVirtualBase = ⟨0,second,80,false⟩ ∧
      segmentHeader g.memory second = ⟨heapVirtualBase,add64 (second+headerSize) n,n,false⟩ ∧
      g.sHeapEnd = add64 heapVirtualBase ((n / pageSize+2) * pageSize) ∧
      g.sLastHeader = add64 (second+headerSize) n ∧ g.physical.Sound ∧
      g.physical.freeCount+(n / pageSize+1) = h.physical.freeCount ∧ 0 < g.mapped.length := by
  have hr := roundUp_of_dvd hd
  have hsi : headerSize = 32 := rfl
  have hpa : pageSize = 4096 := rfl
  have hba : heapVirtualBase = 2^64-2^24 := rfl
  have hse2 : second = heapVirtualBase+112 := rfl
  have ha : heapByteAlign ≤ n := by unfold heapByteAlign; omega
  have hen : h.sHeapEnd = heapVirtualBase+pageSize := hs.filled.symm
  have hl : h.sLastHeader = second := hs.final.symm
  have hv0 : segmentHeader h.memory heapVirtualBase = ⟨0,second,80,false⟩ := hs.linked.1
  have hv : segmentHeader h.memory second = ⟨heapVirtualBase,0,3952,true⟩ := hs.linked.2.1
  have hse := hs.reported_full hmi hm hd
  have ho : ∀ x, x = heapVirtualBase ∨ x = second → h.OutsideNew (n / pageSize+1) x := by
    intro x hx i hi
    rw [hen]
    unfold add64 pageSize at *
    omega
  have hb : n < (n / pageSize+1) * pageSize ∧ (n / pageSize+1) * pageSize ≤ n+4096 := by
    unfold pageSize
    omega
  obtain ⟨g,he,hg⟩ := expand_extended hp hfre hm
    (by rw [hen,hl]; unfold Apart; omega) (by omega) (by omega) (ho _ (.inr hl))
  have ha0 : Apart second heapVirtualBase := .inr (by omega)
  have hfr := hg.fresh
  have hpr := hg.last
  have hot := hg.other heapVirtualBase (ho _ (.inl rfl)) (hl ▸ ha0) (.inr (by omega))
  rw [hen,hl] at hfr
  rw [hen,hl,hv] at hpr
  obtain ⟨f,hf,hw,hst,hsto,hph,hfo⟩ := backward_extended hfr hpr
    (by decide) (by decide) (.inl (by omega)) (by dsimp only; omega)
  rw [hen,hf] at he
  have hma : 0 < f.mapped.length := expand_mapped he ▸ Nat.succ_pos _
  obtain ⟨fuel,hfu⟩ : ∃ fuel, f.segmentBound = fuel+1+1 :=
    ⟨f.segmentBound-2,by unfold segmentBound; rw [hsi,hpa]; omega⟩
  have hc : add64 second headerSize = second+headerSize := rfl
  obtain ⟨r,ht,hfi,hs',hst',hl',hp',hro⟩ := search_last (n := n) fuel hw ha
    (by dsimp only; unfold heapByteAlign; omega) (.inr (by rw [hc]; omega))
  rw [hc] at ht hfi hl' hro
  have hf0 : segmentHeader f.memory heapVirtualBase = ⟨0,second,80,false⟩ := by
    rw [hfo _ ha0,hot,hv0]
  have hfound : f.searchSegments n f.segmentBound f.sHeapStart = .ok (some (second+headerSize,r)) := by
    rw [hst,hg.start,hs.start,hfu,search_used (fuel+1) hf0,if_neg (by decide),ht]
  refine ⟨r,?_,?_,?_,hfi,?_,hl',?_,?_,?_⟩
  · rw [malloc,malloc_retry 2 (by omega) (by rwa [hr]) (by rw [hr,he]),hr]
    exact malloc_found 1 (by omega) (by rwa [hr])
  · rw [hs',hst,hg.start,hs.start]
  · rw [hro _ ha0 (.inl hap),hf0]
  · rw [hst',hsto,hg.stop,hen]
    unfold add64 pageSize
    omega
  · rw [hp',hph]
    exact hg.sound
  · rw [hp',hph]
    exact hg.supply
  · rwa [search_mapped hfound]

/-- The list ends behind its second segment, and both are in use; what else there is of the heap
lies at low addresses. -/
structure Closed (h : Heap) (length : Nat) : Prop where
  start : h.sHeapStart = heapVirtualBase
  first : segmentHeader h.memory heapVirtualBase = ⟨0,second,80,false⟩
  block : segmentHeader h.memory second = ⟨heapVirtualBase,0,length,false⟩
  sound : h.physical.Sound
  low : h.sLastHeader+headerSize ≤ h.sHeapEnd
  pages : 0 < h.mapped.length

section
variable {length : Nat} (hc : h.Closed length)
include hc
theorem Closed.search_none : h.searchSegments n h.segmentBound h.sHeapStart = .ok none := by
  obtain ⟨fuel,hfu⟩ : ∃ fuel, h.segmentBound = fuel+1+1 := by
    have hp := hc.pages
    exact ⟨h.segmentBound-2,by unfold segmentBound pageSize headerSize; omega⟩
  rw [hc.start,hfu,search_used (fuel+1) hc.first,if_neg (by decide),search_used fuel hc.block,if_pos rfl]

theorem Closed.expand (hn : n < 2^40) (hen : h.sHeapEnd+(n+4096) ≤ 2^63)
    (hfr : n / pageSize+1 ≤ h.physical.freeCount) :
    ∃ g, h.expandHeap n = .ok g ∧ g.Closed length ∧ g.sHeapEnd ≤ h.sHeapEnd+(n+4096) ∧
      g.physical.freeCount+(n / pageSize+1) = h.physical.freeCount := by
  have hlo := hc.low
  have hsi : headerSize = 32 := rfl
  have hb : heapVirtualBase = 2^64-2^24 := rfl
  have hs2 : second = heapVirtualBase+112 := rfl
  have hou : ∀ x, x+headerSize ≤ h.sHeapEnd ∨ x = heapVirtualBase ∨ x = second →
      h.OutsideNew (n / pageSize+1) x := by
    intro x hx i hi
    unfold add64 pageSize at *
    omega
  obtain ⟨g,he,hg⟩ := expand_extended hc.sound hfr hn (.inl hlo) (by omega) (by omega) (hou _ (.inl hlo))
  have ha : ∀ x, x = heapVirtualBase ∨ x = second → Apart h.sLastHeader x :=
    fun x hx => .inl (by omega)
  have hfi : ∀ x, x = heapVirtualBase ∨ x = second →
      segmentHeader g.memory x = segmentHeader h.memory x :=
    fun x hx => hg.other _ (hou _ (.inr hx)) (ha x hx) (.inl (by omega))
  have hs : g.sHeapEnd = h.sHeapEnd+(n / pageSize+1) * pageSize := by
    rw [hg.stop]
    unfold add64 pageSize
    omega
  have hla : lastOf g.memory h.sHeapEnd = h.sLastHeader := by rw [lastOf_eq,hg.fresh]
  have ho : freeOf g.memory h.sHeapEnd = true := by rw [freeOf_eq,hg.fresh]
  have hf : nextOf g.memory h.sHeapEnd = 0 := by rw [nextOf_eq,hg.fresh]
  have hnex : nextOf g.memory h.sLastHeader = h.sHeapEnd := by rw [nextOf_eq,hg.last]
  obtain ⟨m,l,hco,hm,hl⟩ : ∃ m l,
      g.combineBackward h.sHeapEnd = { g with memory := m, sLastHeader := l } ∧
      (∀ x, x = heapVirtualBase ∨ x = second → segmentHeader m x = segmentHeader h.memory x) ∧
      l ≤ h.sHeapEnd := by
    have hne : h.sHeapEnd ≠ 0 := by omega
    simp only [combineBackward,combineForward,hla,hnex,hne,ho,hf,hg.final,
      if_true,if_false,Bool.true_eq_false]
    split_ifs
    · exact ⟨g.memory,g.sLastHeader,rfl,hfi,hg.final.le⟩
    · exact ⟨g.memory,g.sLastHeader,rfl,hfi,hg.final.le⟩
    · exact ⟨_,_,rfl,fun x hx => (bridged_apart (ha x hx) fun h0 => absurd rfl h0).trans (hfi x hx),
        by omega⟩
  rw [hco] at he
  have hma : 0 < g.mapped.length := expand_mapped he ▸ Nat.succ_pos _
  refine ⟨_,he,⟨hg.start.trans hc.start,(hm _ (.inl rfl)).trans hc.first,
    (hm _ (.inr rfl)).trans hc.block,hg.sound,?_,hma⟩,?_,hg.supply⟩
  all_goals
    unfold pageSize at hs
    dsimp only
    omega

theorem Closed.mallocBounded (hn : 0 < n) (hl : n < 2^40) (hd : 16 ∣ n)
    (fuel : Nat) {bytes : Nat} (hb : bytes = n+4096) (hk : k = n / pageSize+1)
    (hen : h.sHeapEnd+fuel * bytes ≤ 2^63) (hf : fuel * k ≤ h.physical.freeCount) :
    mallocBounded fuel h n = .error .outOfFuel := by
  induction fuel generalizing h with
  | zero => rfl
  | succ fuel ih =>
    rw [Nat.succ_mul] at hen hf
    obtain ⟨g,he,hg,hge,hgf⟩ := hc.expand hl (by omega) (by omega)
    have hr := roundUp_of_dvd hd
    have hre : mallocBounded (fuel+1) h n = mallocBounded fuel g (roundUp n) :=
      malloc_retry fuel hn.ne' hc.search_none (by rwa [hr])
    rw [hre,hr]
    exact ih hg (by omega) (by omega)
end
end Heap

namespace HeapRun
/-- In every run in which each allocation has room the blocks lie above the base, where `free`
accepts them, and the heap ends above its start. -/
theorem heap_addresses {s : HeapRun} (hrun : Reachable Start step Roomy s) :
    s.heap.sHeapStart < s.heap.sHeapEnd ∧
      ∀ b ∈ s.live, heapVirtualBase ≤ b.1 ∧ b.1 &&& heapVirtualBase = heapVirtualBase := by
  obtain ⟨tiles,hs⟩ := tidy_run (endFits_run hrun)
  have hst := hs.shaped.start
  have hf := hs.shaped.filled
  have hfi := hs.shaped.fits
  constructor
  · obtain ⟨t,ts,rfl⟩ := List.exists_cons_of_ne_nil hs.shaped.nonempty
    simp only [Tile.span,headerSize] at hf
    omega
  intro b hb
  obtain ⟨x,hx,hbl,-⟩ := hs.used b hb
  have hbo := Tile.locate_bounds hx.1
  exact ⟨by omega,Heap.mask_of_heap (by omega) (by omega)⟩

theorem firstBlock_run : Reachable Start step Roomy firstBlock := by
  refine .next (.start booted_start) firstBlock_step fun n hn => ?_
  cases hn
  decide +kernel

theorem heap_addresses_firstBlock : firstBlock.heap.sHeapStart < firstBlock.heap.sHeapEnd ∧
    ∀ b ∈ firstBlock.live, heapVirtualBase ≤ b.1 ∧ b.1 &&& heapVirtualBase = heapVirtualBase :=
  heap_addresses firstBlock_run

/-- With room for two expansions `malloc` returns a block by its third search. -/
theorem malloc_terminates {s : HeapRun} (hrun : Reachable Start step Roomy s) {n : Nat}
    (hn : 0 < n) (hlt : n < 2^40) (hroom : s.heap.HasRoom n)
    (hpages : s.heap.malloc n ≠ .error .outOfPages) :
    ∃ address h, Heap.mallocBounded 3 s.heap n = .ok (address,h) := by
  obtain ⟨tiles,hs⟩ := tidy_run (endFits_run hrun)
  obtain ⟨r,hr⟩ := (Heap.malloc_returns hs.shaped hn hlt.le hroom).resolve_right hpages
  exact ⟨r.1,r.2,hr⟩

theorem malloc_terminates_firstBlock : ∃ address h, Heap.mallocBounded 3 firstBlock.heap 5000 = .ok (address,h) := by
  have ho : (firstBlock.heap.malloc 5000).isOk = true := by decide +kernel
  refine malloc_terminates firstBlock_run (by decide) (by decide) (by decide +kernel) fun he => ?_
  rw [he] at ho
  cases ho

def freeMachine : PhysicalMemory := ⟨⟨1024,fun _ => 0⟩,8192,8192,0,8192,0⟩

theorem freeMachine_sound : freeMachine.Sound := by
  refine ⟨?_,fun page hl => absurd hl (Nat.not_lt_zero page),by decide,by decide⟩
  unfold PhysicalMemory.Covers
  decide

theorem freeMachine_freeCount : freeMachine.freeCount = 8192 := by
  have hcl : ∀ page, ¬ freeMachine.Locked page := by
    intro page
    simp [PhysicalMemory.Locked,freeMachine,Bitmap.get_eq]
  simp [PhysicalMemory.freeCount,hcl]
  rfl

theorem freeMachine_start : ∃ h : Heap, Start ⟨h,[(heapVirtualBase+headerSize,65)]⟩ ∧
    h.Shaped Heap.reported ∧ h.physical.Sound ∧ h.physical.freeCount = 8191 := by
  have hco := freeMachine_freeCount
  obtain ⟨h,hi,hsh,hso,hs⟩ := Heap.init_supplied (fun _ => 0) freeMachine_sound (by omega)
  exact ⟨h,⟨_,_,_,hi,rfl⟩,hsh,hso,by omega⟩

theorem closed_run : ∃ h : Heap, Reachable Start step anyStep
      ⟨h,[(Heap.second+headerSize,2^24-144),(heapVirtualBase+headerSize,65)]⟩ ∧
      h.Closed (2^24-144) ∧ h.sHeapEnd = 4096 ∧ 4000 ≤ h.physical.freeCount := by
  obtain ⟨h₀,hst,hs,hso,hco⟩ := freeMachine_start
  obtain ⟨h,hm,hb,hf,hs2,he,hl,hs',hfr,hpa⟩ := hs.malloc_first
    (n := 2^24-144) hso (by decide) (by decide) (by decide) (by rw [hco]; decide) (by decide)
  have hste : step ⟨h₀,[(heapVirtualBase+headerSize,65)]⟩ (.malloc (2^24-144)) =
      some ⟨h,[(Heap.second+headerSize,2^24-144),(heapVirtualBase+headerSize,65)]⟩ := by
    simp only [step,hm]
    rw [if_pos (by decide)]
  refine ⟨h,.next (.start hst) hste trivial,⟨hb,hf,hs2,hs',?_,hpa⟩,he,?_⟩
  · rw [hl,he]
    decide
  rw [hco] at hfr
  unfold pageSize at hfr
  omega

/-- The heap then ends below its start. -/
theorem heap_addresses_wrap : ∃ s : HeapRun, Reachable Start step anyStep s ∧ s.heap.sHeapEnd < s.heap.sHeapStart := by
  obtain ⟨h,hr,hc,he,-⟩ := closed_run
  refine ⟨_,hr,?_⟩
  rw [he,hc.start]
  decide

/-- The list then ends behind the second block, and no expansion helps. -/
theorem malloc_terminates_wrap : ∃ (s : HeapRun) (n : Nat), Reachable Start step anyStep s ∧
    0 < n ∧ n < 2^40 ∧ Heap.mallocBounded 3 s.heap n = .error .outOfFuel := by
  obtain ⟨h,hr,hc,he,hf⟩ := closed_run
  refine ⟨_,16,hr,by decide,by decide,?_⟩
  exact hc.mallocBounded (by decide) (by decide) (by decide) 3 rfl rfl (by omega) (by unfold pageSize; omega)
end HeapRun
end LensorOS.Memory
