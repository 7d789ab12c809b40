import LensorOS.Libc.HeapLayout

/-!
# Allocation and release of blocks

A block is taken from the free list or cut off the end of the heap; releasing it only moves its
header to the other list.
-/
namespace LensorOS.Libc
open Framework List AllocHeader
variable {m : Bytes}
namespace Layout
variable {h : Heap} {tiles : List Tile} {allocated free xs ys : List Nat} {b : Nat}
section
variable (hl : Layout h tiles allocated free)
include hl
theorem allocated_nonnull : 0 ∉ allocated := fun hm =>
  hl.spaced.nonnull (hl.listed.subset (mem_append_left free hm))

theorem free_nonnull : 0 ∉ free := fun hm =>
  hl.spaced.nonnull (hl.listed.subset (mem_append_right allocated hm))

theorem findFreeBlock_eq (size : Nat) : h.findFreeBlock size =
      some ((free.find? fun block => sizeOf h.memory block ≥ size).getD 0) := by
  rw [Heap.findFreeBlock,hl.freeList]
  exact Chain.search_eq hl.freeChain hl.free_nonnull hl.length_lt.2

theorem findAllocBlock_eq (ptr : Nat) : h.findAllocBlock ptr =
      some ((allocated.find? fun block => ptrOf h.memory block = ptr).getD 0) := by
  rw [Heap.findAllocBlock,hl.allocList]
  exact Chain.search_eq hl.allocChain hl.allocated_nonnull hl.length_lt.1

theorem relisted {allocated' free' : List Nat}
    (hb : SameBlocks (headersOf h.heapBase tiles) h.memory m)
    (ha : Visits m allocated') (hf : Visits m free')
    (hp : (allocated' ++ free').Perm (allocated ++ free)) : Layout { h with
      memory := m
      allocList := firstOf 0 allocated'
      freeList := firstOf 0 free' } tiles allocated' free' where
  base_pos := hl.base_pos
  aligned := hl.aligned
  room := hl.room
  heapPtr := hl.heapPtr
  within := hl.within
  sizes := hl.sizes
  blocks := by
    intro b t hm
    obtain ⟨hpt,hs⟩ := hb b (mem_headers.mpr ⟨t,hm⟩)
    obtain ⟨hp',hs'⟩ := hl.blocks b t hm
    exact ⟨hpt.trans hp',hs.trans hs'⟩
  listed := hp.trans hl.listed
  allocChain := ha
  freeChain := hf
  allocList := rfl
  freeList := rfl
  freeHeaders := hl.freeHeaders
  handedOut := hl.handedOut
end

theorem movable_free (hl : Layout h tiles allocated (xs ++ b :: ys)) :
    Movable (headersOf h.heapBase tiles) h.memory xs b ys allocated where
  spaced := hl.spaced
  origin := hl.freeChain
  destination := hl.allocChain
  inside := fun _ hx => hl.listed.subset (perm_append_comm.subset hx)
  nodup := perm_append_comm.nodup_iff.mp hl.nodup

theorem movable_allocated (hl : Layout h tiles (xs ++ b :: ys) free) :
    Movable (headersOf h.heapBase tiles) h.memory xs b ys free where
  spaced := hl.spaced
  origin := hl.allocChain
  destination := hl.freeChain
  inside := fun _ hx => hl.listed.subset hx
  nodup := hl.nodup

theorem reuseBlock (hl : Layout h tiles allocated (xs ++ b :: ys)) :
    Layout (h.reuseBlock b) tiles (b :: allocated) (xs ++ ys) ∧
      SameOutside (headersOf h.heapBase tiles) h.memory (h.reuseBlock b).memory := by
  have hmo := hl.movable_free
  have hm := hmo.moves
  have heq : h.reuseBlock b = { h with
      memory := pushFront (unlink h.memory b) (firstOf 0 allocated) b
      allocList := firstOf 0 (b :: allocated)
      freeList := firstOf 0 (xs ++ ys) } := by
    rw [Heap.reuseBlock,hl.allocList,hl.freeList,← hmo.first_left]
    rfl
  have hp : (b :: allocated ++ (xs ++ ys)).Perm (allocated ++ (xs ++ b :: ys)) := by
    rw [← append_assoc allocated,cons_append,← append_assoc]
    exact perm_middle.symm
  rw [heq]
  exact ⟨hl.relisted hm.blocks hm.arrived hm.left hp,hm.outside⟩

theorem releaseBlock (hl : Layout h tiles (xs ++ b :: ys) free) :
    Layout (h.releaseBlock b) tiles (xs ++ ys) (b :: free) ∧
      SameOutside (headersOf h.heapBase tiles) h.memory (h.releaseBlock b).memory := by
  have hmo := hl.movable_allocated
  have hm := hmo.moves
  have heq : h.releaseBlock b = { h with
      memory := pushFront (unlink h.memory b) (firstOf 0 free) b
      allocList := firstOf 0 (xs ++ ys)
      freeList := firstOf 0 (b :: free) } := by
    rw [Heap.releaseBlock,hl.allocList,hl.freeList,← hmo.first_left]
    rfl
  have hp : (xs ++ ys ++ b :: free).Perm (xs ++ b :: ys ++ free) := by
    rw [append_assoc xs (b :: ys),cons_append]
    refine perm_middle.trans ?_
    rw [append_assoc]
    exact perm_middle.symm
  rw [heq]
  exact ⟨hl.relisted hm.blocks hm.left hm.arrived hp,hm.outside⟩

def freshHeader (m : Bytes) (block ptr size : Nat) : Bytes :=
  setSize (setPtr (setPrev (setNext m block 0) block 0) block ptr) block size

def grown (h : Heap) (bytes : Nat) : Heap := { h with
    memory := pushFront (freshHeader h.memory h.heapPtr (h.heapPtr+headerSize) bytes)
      h.allocList h.heapPtr
    heapPtr := (h.heapPtr+headerSize+bytes) % 2^64
    allocList := h.heapPtr
    handedOut := h.handedOut ++ [(h.heapPtr+headerSize,bytes)] }

theorem allocateHeader_eq (hl : Layout h tiles allocated free) : h.allocateHeader =
    if h.heapPtr+headerSize ≥ h.heapBase+h.heapSize then (0,h) else (h.heapPtr, { h with
      memory := setPrev (setNext h.memory h.heapPtr 0) h.heapPtr 0
      heapPtr := h.heapPtr+headerSize }) := by
  have hr := hl.room
  have hw := hl.within
  have hp : h.heapPtr ≠ 0 := by
    have hb := hl.base_pos
    have hpt := hl.heapPtr
    omega
  have hsu : (h.heapPtr+headerSize) % 2^64 = h.heapPtr+headerSize := by
    unfold headerSize
    omega
  rw [Heap.allocateHeader,if_neg (not_not.mpr hl.freeHeaders),Heap.heapAlloc,Heap.heapHasSpace, hl.heapEnd_eq,hsu]
  by_cases hs : h.heapPtr+headerSize ≥ h.heapBase+h.heapSize
  · rw [if_pos hs,if_neg (by simpa using hs)]
    rfl
  · rw [if_neg hs,if_pos (by simpa using hs)]
    exact if_pos hp

/-- A new block is refused, or put at the end of the heap. The block is longer than the rest of
the heap only if a sum wrapped. -/
theorem newBlock_eq (hl : Layout h tiles allocated free) (bytes : Nat) : h.newBlock bytes =
      if (h.heapPtr+headerSize+bytes) % 2^64 ≥ h.heapBase+h.heapSize then
        (0, { h with errno := enomem })
      else if h.heapPtr+headerSize ≥ h.heapBase+h.heapSize then (0,h)
      else (h.heapPtr+headerSize,grown h bytes) := by
  have hp : h.heapPtr ≠ 0 := by
    have hb := hl.base_pos
    have hpt := hl.heapPtr
    omega
  rw [Heap.newBlock,hl.heapEnd_eq,add_right_comm,hl.allocateHeader_eq]
  by_cases hf : (h.heapPtr+headerSize+bytes) % 2^64 ≥ h.heapBase+h.heapSize
  · rw [if_pos hf,if_pos hf]
  rw [if_neg hf,if_neg hf]
  by_cases hs : h.heapPtr+headerSize ≥ h.heapBase+h.heapSize
  · rw [if_pos hs,if_pos hs]
    rfl
  rw [if_neg hs,if_neg hs]
  have hso : Heap.heapHasSpace { h with
      memory := setPrev (setNext h.memory h.heapPtr 0) h.heapPtr 0
      heapPtr := h.heapPtr+headerSize } bytes = true := by
    rw [Heap.heapHasSpace,show Heap.heapEnd { h with
      memory := setPrev (setNext h.memory h.heapPtr 0) h.heapPtr 0
      heapPtr := h.heapPtr+headerSize } = h.heapBase+h.heapSize from hl.heapEnd_eq]
    simpa using hf
  simp only [if_neg hp,Heap.heapAlloc,hso,if_true]
  rw [if_neg (by omega)]
  rfl

theorem header_freshHeader {block ptr size a : Nat} (h : Apart block a)
    (hn : a ≠ block) : headerAt (freshHeader m block ptr size) a = headerAt m a := by
  unfold freshHeader setSize setPtr setPrev setNext
  rw [header_apart _ _ h hn,header_apart _ _ h hn,header_apart _ _ h hn,
    header_apart _ _ h hn] <;> simp [headerSize]

theorem freshHeader_self {block ptr size : Nat} (hp : ptr < 2^64)
    (hs : size < 2^64) : ptrOf (freshHeader m block ptr size) block = ptr ∧
      sizeOf (freshHeader m block ptr size) block = size := by
  have hse : ∀ m, headerAt (setSize m block size) block = { headerAt m block with size := size } :=
    fun m => by rw [header_setSize (.inl rfl) hs,if_pos rfl]
  have hs' : ∀ m, headerAt (setPtr m block ptr) block = { headerAt m block with ptr := ptr } :=
    fun m => by rw [header_setPtr (.inl rfl) hp,if_pos rfl]
  have hh := hse (setPtr (setPrev (setNext m block 0) block 0) block ptr)
  rw [hs'] at hh
  exact ⟨congrArg AllocHeader.ptr hh,congrArg AllocHeader.size hh⟩

theorem outside_freshHeader {block ptr size : Nat} {headers : List Nat}
    (hb : block ∈ headers) : SameOutside headers m (freshHeader m block ptr size) := by
  have hw : ∀ m : Bytes, ∀ x v, block ≤ x → x+8 ≤ block+headerSize →
      SameOutside headers m (m.write64 x v) := fun m x v => outside_write hb
  refine (((hw _ _ _ ?_ ?_).trans (hw _ _ _ ?_ ?_)).trans (hw _ _ _ ?_ ?_)).trans
    (hw _ _ _ ?_ ?_) <;> simp [headerSize]

section
variable {bytes : Nat}
variable (hl : Layout h tiles allocated free)
include hl
theorem headers_grown (bytes : Nat) : headersOf h.heapBase (tiles ++ [⟨bytes,false⟩]) =
      headersOf h.heapBase tiles ++ [h.heapPtr] := by
  rw [headers_append,← hl.heapPtr]
  rfl

theorem span_grown (bytes : Nat) : h.heapBase+Tile.span headerSize (tiles ++ [⟨bytes,false⟩]) =
      h.heapPtr+headerSize+bytes := by
  rw [Tile.span_append,hl.heapPtr]
  simp only [Tile.span]
  omega

theorem spaced_grown (hh : h.heapPtr+headerSize < h.heapBase+h.heapSize) :
    Spaced (headersOf h.heapBase tiles ++ [h.heapPtr]) := by
  rw [← hl.headers_grown 0]
  refine spaced_headers hl.base_pos ?_
  rw [hl.span_grown]
  have hr := hl.room
  omega

theorem listed_ne {a : Nat} (ha : a ∈ headersOf h.heapBase tiles) : a ≠ h.heapPtr := by
  have hb := (headers_bounds ha).2
  have hp := hl.heapPtr
  have hs : headerSize = 32 := rfl
  omega

theorem grown_headers
    (hh : h.heapPtr+headerSize < h.heapBase+h.heapSize) (hb : bytes < 2^64) :
    (∀ a ∈ headersOf h.heapBase tiles, headerAt (grown h bytes).memory a =
      { headerAt h.memory a with
        prev := if a = firstOf 0 allocated then h.heapPtr else prevOf h.memory a }) ∧
    headerAt (grown h bytes).memory h.heapPtr =
      ⟨h.heapPtr+headerSize,bytes,firstOf 0 allocated,0⟩ := by
  have hr := hl.room
  have hs := hl.spaced_grown hh
  have hnew : h.heapPtr ∈ headersOf h.heapBase tiles ++ [h.heapPtr] := by simp
  rw [← hl.allocList]
  have hf : h.allocList ≠ 0 → h.allocList ∈ headersOf h.heapBase tiles := by
    rw [hl.allocList]
    exact fun hne => hl.listed.subset (mem_append_left free (firstOf_mem hne))
  have hse : h.allocList ≠ h.heapPtr := by
    by_cases hz : h.allocList = 0
    · have hba := hl.base_pos
      have hpt := hl.heapPtr
      omega
    · exact hl.listed_ne (hf hz)
  have hp : ∀ a ∈ headersOf h.heapBase tiles ++ [h.heapPtr],
      headerAt (grown h bytes).memory a = _ := fun a ha =>
    header_pushFront hs hnew (fun hne => mem_append_left _ (hf hne)) hse ha
  constructor
  · intro a ha
    have hne := hl.listed_ne ha
    have hm : a ∈ headersOf h.heapBase tiles ++ [h.heapPtr] := mem_append_left _ ha
    have hk : headerAt (freshHeader h.memory h.heapPtr (h.heapPtr+headerSize) bytes) a =
        headerAt h.memory a := header_freshHeader (hs.apart _ hnew _ hm) hne
    have hn := congrArg next hk
    have hpr := congrArg prev hk
    simp only [headerAt] at hn hpr
    rw [hp a hm,if_neg hne,if_neg hne,hk,hn,hpr]
    rfl
  · have hsi : headerSize = 32 := rfl
    have hfr : ptrOf (freshHeader h.memory h.heapPtr (h.heapPtr+headerSize) bytes) h.heapPtr =
        h.heapPtr+headerSize ∧
          sizeOf (freshHeader h.memory h.heapPtr (h.heapPtr+headerSize) bytes) h.heapPtr = bytes :=
      freshHeader_self (by omega) hb
    rw [hp _ hnew,if_pos rfl,if_pos rfl,headerAt,hfr.1,hfr.2]

theorem grown_layout (hb : bytes % maxAlign = 0)
    (hf : h.heapPtr+headerSize+bytes < h.heapBase+h.heapSize) :
    Layout (grown h bytes) (tiles ++ [⟨bytes,false⟩]) (h.heapPtr :: allocated) free := by
  have hr := hl.room
  have hpt := hl.heapPtr
  have hn : h.heapPtr+headerSize+bytes < 2^64 := by omega
  have hlt : bytes < 2^64 := by omega
  obtain ⟨hol,hne⟩ := hl.grown_headers (by omega) hlt
  exact
    { base_pos := hl.base_pos
      aligned := hl.aligned
      room := hl.room
      heapPtr := by
        rw [show (grown h bytes).heapBase = h.heapBase from rfl,hl.span_grown]
        exact Nat.mod_eq_of_lt hn
      within := by
        rw [show (grown h bytes).heapPtr = h.heapPtr+headerSize+bytes from Nat.mod_eq_of_lt hn]
        exact hf.le
      sizes := by
        intro t ht
        rcases mem_append.mp ht with ht | ht
        · exact hl.sizes t ht
        · rw [mem_singleton.mp ht]
          exact hb
      blocks := by
        intro b t hm
        rw [show (grown h bytes).heapBase = h.heapBase from rfl,Tile.locate_append] at hm
        rcases mem_append.mp hm with hm | hm
        · have hh := hol b (mem_headers.mpr ⟨t,hm⟩)
          obtain ⟨hp',hs'⟩ := hl.blocks b t hm
          exact ⟨(congrArg ptr hh).trans hp', (congrArg size hh).trans hs'⟩
        rw [← hpt] at hm
        simp only [Tile.locate,mem_cons,Prod.mk.injEq,not_mem_nil,or_false] at hm
        obtain ⟨rfl,rfl⟩ := hm
        exact ⟨congrArg ptr hne,congrArg size hne⟩
      listed := by
        rw [show (grown h bytes).heapBase = h.heapBase from rfl,hl.headers_grown]
        exact (hl.listed.cons h.heapPtr).trans (perm_append_singleton _ _).symm
      allocChain := by
        have hm : ∀ a ∈ allocated, a ∈ headersOf h.heapBase tiles := fun a ha =>
          hl.listed.subset (mem_append_left free ha)
        refine Chain.push hl.allocChain (nodup_append.mp hl.nodup).1 (congrArg next hne) (congrArg prev hne) ?_ ?_
        · exact fun a ha => congrArg next (hol a (hm a ha))
        · exact fun a ha => congrArg prev (hol a (hm a ha))
      freeChain := by
        have hm : ∀ a ∈ free, a ∈ headersOf h.heapBase tiles := fun a ha =>
          hl.listed.subset (mem_append_right allocated ha)
        refine Chain.congr hl.freeChain ?_ ?_
        · exact fun a ha => congrArg next (hol a (hm a ha))
        intro a ha
        have ho : a ≠ firstOf 0 allocated := by
          rintro rfl
          have hz : firstOf 0 allocated ≠ 0 := fun he => hl.free_nonnull (he ▸ ha)
          exact (nodup_append.mp hl.nodup).2.2 _ (firstOf_mem hz) _ ha rfl
        have hp := congrArg prev (hol a (hm a ha))
        rw [if_neg ho] at hp
        exact hp
      allocList := rfl
      freeList := hl.freeList
      freeHeaders := hl.freeHeaders
      handedOut := by
        rw [show (grown h bytes).heapBase = h.heapBase from rfl,Tile.locate_append, map_append,← hl.handedOut,← hpt]
        rfl }

theorem grown_outside (bytes : Nat) :
    SameOutside (headersOf h.heapBase tiles ++ [h.heapPtr]) h.memory (grown h bytes).memory := by
  have hn : h.heapPtr ∈ headersOf h.heapBase tiles ++ [h.heapPtr] := by simp
  refine (outside_freshHeader hn).trans (outside_pushFront hn ?_)
  rw [hl.allocList]
  exact fun hne => mem_append_left _
    (hl.listed.subset (mem_append_left free (firstOf_mem hne)))
end
end Layout

section
variable {n : Nat}
theorem align_mod (n : Nat) : alignToMaxAlignT n % maxAlign = 0 := by
  unfold alignToMaxAlignT maxAlign
  split
  · rfl
  · omega

theorem le_align (hn : n ≤ 2^64-16) : n ≤ alignToMaxAlignT n ∧ alignToMaxAlignT n ≤ n+16 ∧ 16 ≤ alignToMaxAlignT n := by
  unfold alignToMaxAlignT maxAlign
  split <;> omega

theorem align_le (hn : n ≤ 2^62) : alignToMaxAlignT n ≤ 2^62 := by
  unfold alignToMaxAlignT maxAlign
  split <;> omega

theorem align_lt (n : Nat) : alignToMaxAlignT n < 2^64 := by
  unfold alignToMaxAlignT maxAlign
  split <;> omega
end

structure SamePlace (h h' : Heap) : Prop where
  base : h'.heapBase = h.heapBase
  size : h'.heapSize = h.heapSize

theorem SamePlace.trans {h h' h'' : Heap} (hp : SamePlace h h') (hp' : SamePlace h' h'') :
    SamePlace h h'' := ⟨hp'.base.trans hp.base,hp'.size.trans hp.size⟩

/-- The answer to a request for a block: the null pointer, or a block that was free, or one that
was cut off the heap. -/
inductive Granted (h : Heap) (tiles : List Tile) (allocated free : List Nat) (n : Nat) :
    Nat → Heap → Prop
  | refused {h' : Heap} (hplace : SamePlace h h') (hlayout : Layout h' tiles allocated free)
      (hmemory : h'.memory = h.memory) : Granted h tiles allocated free n 0 h'
  | block {h' : Heap} {b : Nat} {t : Tile} {tiles' : List Tile} {free' : List Nat}
      (hplace : SamePlace h h') (htiles : tiles <+: tiles')
      (hblock : (b,t) ∈ Tile.locate headerSize h.heapBase tiles') (hsize : n ≤ t.length)
      (hlayout : Layout h' tiles' (b :: allocated) free')
      (houtside : SameOutside (headersOf h.heapBase tiles') h.memory h'.memory) :
      Granted h tiles allocated free n (b+headerSize) h'

namespace Layout
variable {h : Heap} {tiles : List Tile} {allocated free xs ys : List Nat} {b n : Nat}
theorem initial (memory : Bytes) {heapBase : Nat} (hp : 0 < heapBase)
    (ha : heapBase % maxAlign = 0) (hr : heapBase+2^20 < 2^63) :
    Layout (.initial memory heapBase) [] [] [] where
  base_pos := hp
  aligned := ha
  room := hr
  heapPtr := rfl
  within := Nat.le_add_right _ _
  sizes := fun _ ht => (not_mem_nil ht).elim
  blocks := fun _ _ ht => (not_mem_nil ht).elim
  listed := List.Perm.refl _
  allocChain := trivial
  freeChain := trivial
  allocList := rfl
  freeList := rfl
  freeHeaders := rfl
  handedOut := rfl

section
variable (hl : Layout h tiles allocated free)
include hl
theorem exists_tile (hb : b ∈ allocated ++ free) :
    ∃ t, (b,t) ∈ Tile.locate headerSize h.heapBase tiles ∧ ptrOf h.memory b = b+headerSize ∧
      sizeOf h.memory b = t.length := by
  obtain ⟨t,ht⟩ := mem_headers.mp (hl.listed.subset hb)
  exact ⟨t,ht,hl.blocks b t ht⟩

theorem sizeOf_lt (hb : b ∈ free) : sizeOf h.memory b < 2^63 := by
  obtain ⟨t,ht,-,hs⟩ := hl.exists_tile (mem_append_right allocated hb)
  have he := (Tile.locate_bounds ht).2
  dsimp only at he
  have hp := hl.heapPtr
  have hw := hl.within
  have hr := hl.room
  omega

theorem withErrno (errno : Nat) : Layout { h with errno := errno } tiles allocated free :=
  ⟨hl.base_pos,hl.aligned,hl.room,hl.heapPtr,hl.within,hl.sizes,hl.blocks,hl.listed,
    hl.allocChain,hl.freeChain,hl.allocList,hl.freeList,hl.freeHeaders,hl.handedOut⟩

theorem malloc_eq (n : Nat) : h.malloc n = .ok
    (match free.find? fun block => sizeOf h.memory block ≥ alignToMaxAlignT n with
      | some b => (b+headerSize,h.reuseBlock b)
      | none => h.newBlock (alignToMaxAlignT n)) := by
  rw [Heap.malloc,hl.findFreeBlock_eq]
  cases hf : free.find? fun block => sizeOf h.memory block ≥ alignToMaxAlignT n with
  | none => rfl
  | some b =>
    have hb : b ∈ free := mem_of_find?_eq_some hf
    have hn : b ≠ 0 := fun he => hl.free_nonnull (he ▸ hb)
    obtain ⟨xs,ys,rfl⟩ := append_of_mem hb
    obtain ⟨t,-,hp,-⟩ := (hl.reuseBlock).1.exists_tile (b := b) (by simp)
    simp [if_neg hn,hp]

theorem malloc_granted (hn : n ≤ 2^62) : ∃ p h', h.malloc n = .ok (p,h') ∧ Granted h tiles allocated free n p h' := by
  obtain ⟨hle,hg,-⟩ : n ≤ alignToMaxAlignT n ∧ alignToMaxAlignT n ≤ n+16 ∧ _ := le_align (by omega)
  have hr := hl.room
  have hw := hl.within
  have hs : headerSize = 32 := rfl
  rw [hl.malloc_eq]
  cases hf : free.find? fun block => sizeOf h.memory block ≥ alignToMaxAlignT n with
  | some b =>
    have hfi : sizeOf h.memory b ≥ alignToMaxAlignT n := by simpa using find?_some hf
    obtain ⟨xs,ys,rfl⟩ := append_of_mem (mem_of_find?_eq_some hf)
    obtain ⟨t,ht,-,hlen⟩ := hl.exists_tile (b := b) (by simp)
    refine ⟨_,_,rfl,.block ⟨rfl,rfl⟩ (prefix_refl tiles) ht (by omega) hl.reuseBlock.1 hl.reuseBlock.2⟩
  | none =>
    rw [hl.newBlock_eq]
    have hsu : (h.heapPtr+headerSize+alignToMaxAlignT n) % 2^64 = h.heapPtr+headerSize+alignToMaxAlignT n := by omega
    rw [hsu]
    by_cases hfu : h.heapPtr+headerSize+alignToMaxAlignT n ≥ h.heapBase+h.heapSize
    · rw [if_pos hfu]
      exact ⟨_,_,rfl,.refused ⟨rfl,rfl⟩ (hl.withErrno enomem) rfl⟩
    rw [if_neg hfu,if_neg (by omega)]
    have hb : (h.heapPtr, ⟨alignToMaxAlignT n,false⟩) ∈
        Tile.locate headerSize h.heapBase (tiles ++ [⟨alignToMaxAlignT n,false⟩]) := by
      rw [hl.heapPtr]
      exact Tile.mem_locate_middle _ _ _ _
    have ho := hl.grown_outside (alignToMaxAlignT n)
    rw [← hl.headers_grown (alignToMaxAlignT n)] at ho
    exact ⟨_,_,rfl,.block ⟨rfl,rfl⟩ (prefix_append _ _) hb hle (hl.grown_layout (align_mod n) (by omega)) ho⟩

theorem findAllocBlock_live (hb : b ∈ allocated) : h.findAllocBlock (b+headerSize) = some b := by
  rw [hl.findAllocBlock_eq]
  have hf : allocated.find? (fun block => ptrOf h.memory block = b+headerSize) = some b := by
    have hp : ∀ a ∈ allocated, ptrOf h.memory a = a+headerSize := by
      intro a ha
      obtain ⟨t,-,hp,-⟩ := hl.exists_tile (mem_append_left free ha)
      exact hp
    rw [find?_eq_some_iff_append]
    obtain ⟨xs,ys,rfl⟩ := append_of_mem hb
    refine ⟨by simp [hp b hb],xs,ys,rfl,?_⟩
    intro a ha
    have hn : a ≠ b := by
      rintro rfl
      exact (nodup_append.mp (nodup_append.mp hl.nodup).1).2.2 a ha a mem_cons_self rfl
    have ha' := hp a (mem_append_left _ ha)
    simp [ha',hn]
  rw [hf]
  rfl
end

theorem free_live (hl : Layout h tiles (xs ++ b :: ys) free) : h.free (b+headerSize) = .ok (h.releaseBlock b) := by
  have hb : b ∈ xs ++ b :: ys := by simp
  have hn : b ≠ 0 := fun he => hl.allocated_nonnull (he ▸ hb)
  have hp : b+headerSize ≠ 0 := by omega
  rw [Heap.free,if_neg hp,hl.findAllocBlock_live hb]
  exact if_neg hn

theorem withMemory (hl : Layout h tiles allocated free)
    (hm : ∀ a ∈ headersOf h.heapBase tiles, headerAt m a = headerAt h.memory a) :
    Layout { h with memory := m } tiles allocated free := by
  have hb : SameBlocks (headersOf h.heapBase tiles) h.memory m := fun a ha =>
    ⟨congrArg ptr (hm a ha),congrArg size (hm a ha)⟩
  have hv : ∀ blocks, Visits h.memory blocks → blocks ⊆ headersOf h.heapBase tiles →
      Visits m blocks := fun blocks hc hs => Chain.congr hc
    (fun a ha => congrArg next (hm a (hs ha)))
    fun a ha => congrArg prev (hm a (hs ha))
  have hn := hl.relisted hb
    (hv allocated hl.allocChain fun a ha => hl.listed.subset (mem_append_left free ha))
    (hv free hl.freeChain fun a ha => hl.listed.subset (mem_append_right allocated ha))
    (List.Perm.refl _)
  rw [← hl.allocList,← hl.freeList] at hn
  exact hn
end Layout

section
variable {base a b : Nat} {tiles : List Tile} {t : Tile} {m m' : Bytes}
theorem headerAt_congr (h : ∀ x, b ≤ x → x < b+headerSize → m' x = m x) : headerAt m' b = headerAt m b := by
  have hr : ∀ k, k+8 ≤ headerSize → m'.read64 (b+k) = m.read64 (b+k) := fun k hk =>
    Bytes.read64_congr fun x hx hx' => h x (by omega) (by omega)
  simp only [headerAt,ptrOf,sizeOf,nextOf,prevOf,mk.injEq]
  rw [hr 8 (by decide),hr 16 (by decide),hr 24 (by decide),
    show m'.read64 b = m.read64 b from hr 0 (by decide)]
  exact ⟨rfl,rfl,rfl,rfl⟩

theorem header_payload (hb : (b,t) ∈ Tile.locate headerSize base tiles)
    (hm : ∀ x, x < b+headerSize ∨ b+headerSize+t.length ≤ x → m' x = m x)
    (ha : a ∈ headersOf base tiles) : headerAt m' a = headerAt m a := by
  obtain ⟨t',ht'⟩ := mem_headers.mp ha
  refine headerAt_congr fun x hx hx' => hm x ?_
  rcases Tile.locate_apart hb ht' with he | hba | hab
  · obtain ⟨rfl,-⟩ := Prod.mk.inj he
    exact .inl hx'
  · dsimp only at hba
    omega
  · omega
end

/-- The answer to a request for another size of a block in use: the block itself, the null pointer
with the block as it was, or another block in its place. -/
inductive Resized (h : Heap) (tiles : List Tile) (xs : List Nat) (b : Nat) (t : Tile)
    (ys free : List Nat) (n : Nat) : Nat → Heap → Prop
  | kept (hsize : n ≤ t.length) : Resized h tiles xs b t ys free n (b+headerSize) h
  | refused {h' : Heap} (hplace : SamePlace h h')
      (hlayout : Layout h' tiles (xs ++ b :: ys) free) : Resized h tiles xs b t ys free n 0 h'
  | moved {h' : Heap} {b' : Nat} {t' : Tile} {tiles' : List Tile} {free' : List Nat}
      (hplace : SamePlace h h') (htiles : tiles <+: tiles')
      (hblock : (b',t') ∈ Tile.locate headerSize h.heapBase tiles') (hsize : n ≤ t'.length)
      (hlayout : Layout h' tiles' (b' :: (xs ++ ys)) (b :: free')) :
      Resized h tiles xs b t ys free n (b'+headerSize) h'

namespace Layout
variable {h : Heap} {tiles : List Tile} {xs ys free : List Nat} {b n : Nat} {t : Tile}
theorem copied {allocated : List Nat} {h1 : Heap} {size : Nat}
    (hl : Layout h1 tiles allocated free) (hp : SamePlace h h1)
    (ht : (b,t) ∈ Tile.locate headerSize h.heapBase tiles) (hs : size ≤ t.length)
    (copyData : Bool) (src old : Nat) : ∃ h2, (if copyData then
        { h1 with memory := h1.memory.copy (b+headerSize) src (min size old) } else h1) = h2 ∧
      SamePlace h1 h2 ∧ Layout h2 tiles allocated free := by
  cases copyData with
  | false => exact ⟨h1,rfl,⟨rfl,rfl⟩,hl⟩
  | true =>
    rw [← hp.base] at ht
    refine ⟨_,rfl,⟨rfl,rfl⟩,hl.withMemory fun a ha => header_payload ht (fun x hx => ?_) ha⟩
    exact Bytes.copy_outside _ (by omega)

theorem realloc_resized (hl : Layout h tiles (xs ++ b :: ys) free)
    (ht : (b,t) ∈ Tile.locate headerSize h.heapBase tiles) (hn : n ≤ 2^62) (copyData : Bool) :
    ∃ p h', h.reallocImpl copyData (b+headerSize) n = .ok (p,h') ∧
      Resized h tiles xs b t ys free n p h' := by
  have hb : b ∈ xs ++ b :: ys := by simp
  have hne : b ≠ 0 := fun he => hl.allocated_nonnull (he ▸ hb)
  have hpt : b+headerSize ≠ 0 := by omega
  have hlen := (hl.blocks b t ht).2
  by_cases hz : n = 0
  · refine ⟨_,h,?_,.kept (by omega)⟩
    rw [Heap.reallocImpl,if_neg hpt,if_pos hz]
  obtain ⟨hle,-,-⟩ : n ≤ alignToMaxAlignT n ∧ _ ∧ _ := le_align (by omega)
  rw [Heap.reallocImpl,if_neg hpt,if_neg hz]
  rw [hl.findAllocBlock_live hb]
  dsimp only
  rw [if_neg hne,hlen]
  by_cases hs : alignToMaxAlignT n ≤ t.length
  · rw [if_pos hs]
    exact ⟨_,h,rfl,.kept (by omega)⟩
  rw [if_neg hs]
  obtain ⟨p,h1,hm,hg⟩ := hl.malloc_granted (align_le hn)
  rw [hm]
  dsimp only
  cases hg with
  | refused hp hla => exact ⟨0,h1,if_pos rfl,.refused hp hla⟩
  | @block _ b' t' tiles' free' hp hti hbl hsi hla =>
    rw [if_neg (by simp [headerSize])]
    obtain ⟨h2,hh2,hp2,hl2⟩ := hla.copied hp hbl hsi copyData (b+headerSize) (sizeOf h1.memory b)
    rw [hh2]
    have hmo : Layout h2 tiles' ((b' :: xs) ++ b :: ys) free' := hl2
    rw [hmo.free_live]
    exact ⟨_,_,rfl,.moved (hp.trans (hp2.trans ⟨rfl,rfl⟩)) hti hbl (by omega) hmo.releaseBlock.1⟩
end Layout
end LensorOS.Libc
