import LensorOS.Framework.LinkedTiles
import LensorOS.Libc.Malloc

/-!
# The layout of the heap

The heap is a row of headers, each with its block behind it. Every header is on the list of blocks
in use or on the free list.
-/
namespace LensorOS.Libc
open Framework List Tile Bytes
structure AllocHeader where
  ptr : Nat
  size : Nat
  next : Nat
  prev : Nat

def headerAt (m : Bytes) (block : Nat) : AllocHeader := ⟨ptrOf m block,sizeOf m block,nextOf m block,prevOf m block⟩

def Apart (a b : Nat) : Prop := a = b ∨ a+headerSize ≤ b ∨ b+headerSize ≤ a

variable {x : Nat}
section
variable {m : Bytes} {a b value : Nat}
theorem read64_self (hvalue : value < 2^64) : ((m.write64 a (.ofNat 64 value)).read64 a).toNat = value := by
  rw [read64_write64_same,BitVec.toNat_ofNat,Nat.mod_eq_of_lt hvalue]

theorem header_apart {v : BitVec 64} (hx : a ≤ x) (hx' : x+8 ≤ a+headerSize)
    (h : Apart a b) (hn : b ≠ a) : headerAt (m.write64 x v) b = headerAt m b := by
  have ho : b+headerSize ≤ a ∨ a+headerSize ≤ b := by
    unfold Apart at h
    omega
  unfold headerSize at hx' ho
  simp only [headerAt,ptrOf,sizeOf,nextOf,prevOf,AllocHeader.mk.injEq]
  refine ⟨?_,?_,?_,?_⟩ <;> rw [read64_write64_ne _ _ (by omega)]

section
variable (h : Apart a b) (hvalue : value < 2^64)
include h hvalue
theorem header_setNext : headerAt (setNext m a value) b = { headerAt m b with next := if b = a then value else nextOf m b } := by
  by_cases hb : b = a
  · subst hb
    simp only [headerAt,ptrOf,sizeOf,nextOf,prevOf,setNext,if_pos,AllocHeader.mk.injEq, read64_self hvalue]
    refine ⟨?_,?_,trivial,?_⟩ <;> rw [read64_write64_ne _ _ (by omega)]
  · rw [if_neg hb,setNext,header_apart (by omega) (by unfold headerSize; omega) h hb]
    rfl

theorem header_setPrev : headerAt (setPrev m a value) b = { headerAt m b with prev := if b = a then value else prevOf m b } := by
  by_cases hb : b = a
  · subst hb
    simp only [headerAt,ptrOf,sizeOf,nextOf,prevOf,setPrev,if_pos,AllocHeader.mk.injEq, read64_self hvalue]
    refine ⟨?_,?_,?_,trivial⟩ <;> rw [read64_write64_ne _ _ (by omega)]
  · rw [if_neg hb,setPrev,header_apart (by omega) (by unfold headerSize; omega) h hb]
    rfl

theorem header_setPtr : headerAt (setPtr m a value) b = { headerAt m b with ptr := if b = a then value else ptrOf m b } := by
  by_cases hb : b = a
  · subst hb
    simp only [headerAt,ptrOf,sizeOf,nextOf,prevOf,setPtr,if_pos,AllocHeader.mk.injEq, read64_self hvalue]
    refine ⟨trivial,?_,?_,?_⟩ <;> rw [read64_write64_ne _ _ (by omega)]
  · rw [if_neg hb,setPtr,header_apart (by omega) (by unfold headerSize; omega) h hb]
    rfl

theorem header_setSize : headerAt (setSize m a value) b = { headerAt m b with size := if b = a then value else sizeOf m b } := by
  by_cases hb : b = a
  · subst hb
    simp only [headerAt,ptrOf,sizeOf,nextOf,prevOf,setSize,if_pos,AllocHeader.mk.injEq, read64_self hvalue]
    refine ⟨?_,trivial,?_,?_⟩ <;> rw [read64_write64_ne _ _ (by omega)]
  · rw [if_neg hb,setSize,header_apart (by omega) (by unfold headerSize; omega) h hb]
    rfl
end

theorem nextOf_lt : nextOf m a < 2^64 := BitVec.isLt _
theorem prevOf_lt : prevOf m a < 2^64 := BitVec.isLt _
end

section
variable {m : Bytes} {headers : List Nat} {a b list : Nat}
structure Spaced (headers : List Nat) : Prop where
  apart : ∀ a ∈ headers, ∀ b ∈ headers, Apart a b
  nonnull : 0 ∉ headers
  bounded : ∀ a ∈ headers, a < 2^64

/-- The first half of taking a block out: the block before it is linked past it. -/
def linkPast (m : Bytes) (b : Nat) : Bytes :=
  if prevOf m b ≠ 0 then setNext m (prevOf m b) (nextOf m b) else m

theorem header_linkPast (hs : Spaced headers) (hprev : prevOf m b ≠ 0 → prevOf m b ∈ headers)
    (ha : a ∈ headers) : headerAt (linkPast m b) a =
      { headerAt m a with next := if a = prevOf m b then nextOf m b else nextOf m a } := by
  unfold linkPast
  by_cases hz : prevOf m b = 0
  · have hn : a ≠ prevOf m b := fun he => hs.nonnull (hz ▸ he ▸ ha)
    rw [if_neg (not_not.mpr hz),if_neg hn]
    rfl
  · rw [if_pos hz]
    exact header_setNext (hs.apart _ (hprev hz) _ ha) nextOf_lt

section
variable (hs : Spaced headers) (hb : b ∈ headers) (hprev : prevOf m b ≠ 0 → prevOf m b ∈ headers)
include hs hb hprev
theorem unlink_eq (hse : prevOf m b ≠ b) :
    unlink m b = if nextOf m b ≠ 0 then setPrev (linkPast m b) (nextOf m b) (prevOf m b)
      else linkPast m b := by
  have hbl := header_linkPast hs hprev hb
  rw [if_neg hse.symm] at hbl
  have hn1 : nextOf (linkPast m b) b = nextOf m b := congrArg AllocHeader.next hbl
  have hp1 : prevOf (linkPast m b) b = prevOf m b := congrArg AllocHeader.prev hbl
  rw [← hn1,← hp1]
  rfl

theorem header_unlink (hn : nextOf m b ≠ 0 → nextOf m b ∈ headers) (hse : prevOf m b ≠ b)
    (ha : a ∈ headers) : headerAt (unlink m b) a = { headerAt m a with
        next := if a = prevOf m b then nextOf m b else nextOf m a
        prev := if a = nextOf m b then prevOf m b else prevOf m a } := by
  have hf := header_linkPast hs hprev ha
  rw [unlink_eq hs hb hprev hse]
  by_cases hz : nextOf m b = 0
  · have hne : a ≠ nextOf m b := fun he => hs.nonnull (hz ▸ he ▸ ha)
    rw [if_neg (not_not.mpr hz),hf,if_neg hne]
    rfl
  · have hp : prevOf (linkPast m b) a = prevOf m a := congrArg AllocHeader.prev hf
    rw [if_pos hz,header_setPrev (hs.apart _ (hn hz) _ ha) prevOf_lt,hf,hp]
end

theorem header_pushFront (hs : Spaced headers) (hb : b ∈ headers)
    (hli : list ≠ 0 → list ∈ headers) (hse : list ≠ b) (ha : a ∈ headers) :
    headerAt (pushFront m list b) a = { headerAt m a with
        next := if a = b then list else nextOf m a
        prev := if a = b then 0 else if a = list then b else prevOf m a } := by
  have hbo : list < 2^64 := by
    by_cases hz : list = 0
    · omega
    · exact hs.bounded list (hli hz)
  let m1 := setPrev m b 0
  let m2 := setNext m1 b list
  have ho : headerAt m2 a = { headerAt m a with
        next := if a = b then list else nextOf m a
        prev := if a = b then 0 else prevOf m a } := by
    have hf : headerAt m1 a = { headerAt m a with prev := if a = b then 0 else prevOf m a } :=
      header_setPrev (hs.apart b hb a ha) (by omega)
    have hn : nextOf m1 a = nextOf m a := congrArg AllocHeader.next hf
    rw [header_setNext (hs.apart b hb a ha) hbo,hf,hn]
  by_cases hz : list = 0
  · have hne : a ≠ list := fun he => hs.nonnull (hz ▸ he ▸ ha)
    have hpu : pushFront m list b = m2 := if_neg (not_not.mpr hz)
    rw [hpu,ho,if_neg hne]
  have hpu : pushFront m list b = setPrev m2 list b := if_pos hz
  have hp : prevOf m2 a = if a = b then 0 else prevOf m a := congrArg AllocHeader.prev ho
  rw [hpu,header_setPrev (hs.apart list (hli hz) a ha) (hs.bounded b hb),ho,hp]
  by_cases hab : a = b
  · have hne : b ≠ list := hse.symm
    simp [hab,hne]
  · simp [hab]

def SameOutside (headers : List Nat) (m m' : Bytes) : Prop :=
  ∀ x, (∀ b ∈ headers, x < b ∨ b+headerSize ≤ x) → m' x = m x

theorem SameOutside.refl (headers : List Nat) (m : Bytes) : SameOutside headers m m := fun _ _ => rfl

theorem SameOutside.trans {m' m'' : Bytes} (h : SameOutside headers m m')
    (h' : SameOutside headers m' m'') : SameOutside headers m m'' :=
  fun x hx => (h' x hx).trans (h x hx)

theorem outside_write {v : BitVec 64} (hb : b ∈ headers) (hx : b ≤ x)
    (hx' : x+8 ≤ b+headerSize) : SameOutside headers m (m.write64 x v) := by
  intro y hy
  have ho := hy b hb
  exact write64_outside m v (by omega)

theorem outside_unlink (hs : Spaced headers) (hb : b ∈ headers)
    (hprev : prevOf m b ≠ 0 → prevOf m b ∈ headers)
    (hn : nextOf m b ≠ 0 → nextOf m b ∈ headers) (hse : prevOf m b ≠ b) :
    SameOutside headers m (unlink m b) := by
  have hf : SameOutside headers m (linkPast m b) := by
    unfold linkPast
    split
    · next hz =>
      exact outside_write (hprev hz) (by omega) (by unfold headerSize; omega)
    · exact .refl headers m
  rw [unlink_eq hs hb hprev hse]
  split
  · next hz =>
    exact hf.trans (outside_write (hn hz) (by omega) (by unfold headerSize; omega))
  · exact hf

theorem outside_pushFront (hb : b ∈ headers) (hli : list ≠ 0 → list ∈ headers) :
    SameOutside headers m (pushFront m list b) := by
  have ho : SameOutside headers m (setNext (setPrev m b 0) b list) :=
    (outside_write hb (by omega) (by unfold headerSize; omega)).trans
      (outside_write hb (by omega) (by unfold headerSize; omega))
  unfold pushFront
  split
  · next hz =>
    exact ho.trans (outside_write (hli hz) (by omega) (by unfold headerSize; omega))
  · exact ho

def Visits (m : Bytes) (blocks : List Nat) : Prop := Chain 0 (nextOf m) (prevOf m) 0 blocks

def SameBlocks (headers : List Nat) (m m' : Bytes) : Prop :=
  ∀ a ∈ headers, ptrOf m' a = ptrOf m a ∧ sizeOf m' a = sizeOf m a

structure Moves (headers : List Nat) (m m' : Bytes) (rest target : List Nat) (b : Nat) : Prop where
  left : Visits m' rest
  arrived : Visits m' (b :: target)
  blocks : SameBlocks headers m m'
  outside : SameOutside headers m m'

variable {xs ys target : List Nat}
theorem firstOf_mem (hn : firstOf 0 target ≠ 0) : firstOf 0 target ∈ target :=
  (Chain.firstOf_mem_or 0 target).resolve_left hn

theorem Visits.neighbours (h : Visits m (xs ++ b :: ys)) :
    (nextOf m b = firstOf 0 ys ∧ (nextOf m b ≠ 0 → nextOf m b ∈ ys)) ∧
      (prevOf m b ≠ 0 → prevOf m b ∈ xs) := by
  obtain ⟨hn,hprev⟩ := Chain.at_node h
  refine ⟨⟨hn,?_⟩,?_⟩
  · intro hne
    rw [hn] at hne ⊢
    exact firstOf_mem hne
  intro hne
  rw [hprev] at hne ⊢
  cases xs with
  | nil => exact absurd rfl hne
  | cons x rest =>
    rw [getLastD_cons]
    exact getLastD_mem_cons

/-- A block between others on one list, and another list that it is not on. -/
structure Movable (headers : List Nat) (m : Bytes) (xs : List Nat) (b : Nat)
    (ys target : List Nat) : Prop where
  spaced : Spaced headers
  origin : Visits m (xs ++ b :: ys)
  destination : Visits m target
  inside : xs ++ b :: ys ++ target ⊆ headers
  nodup : (xs ++ b :: ys ++ target).Nodup

namespace Movable
variable (h : Movable headers m xs b ys target)
include h
theorem block_mem : b ∈ headers := h.inside (by simp)

theorem nonnull (hx : x ∈ xs ++ b :: ys ++ target) : x ≠ 0 := by
  rintro rfl
  exact h.spaced.nonnull (h.inside hx)

theorem next_mem (hn : nextOf m b ≠ 0) : nextOf m b ∈ ys := h.origin.neighbours.1.2 hn
theorem prev_mem (hn : prevOf m b ≠ 0) : prevOf m b ∈ xs := h.origin.neighbours.2 hn

theorem separate : b ∉ xs ∧ b ∉ ys ∧ b ∉ target ∧ (∀ x ∈ xs ++ ys, x ∉ target) ∧ target.Nodup := by
  have hn := h.nodup
  simp only [nodup_append,nodup_cons,mem_append,mem_cons] at hn
  obtain ⟨⟨-,⟨hby,-⟩,hxs⟩,ht,ha⟩ := hn
  refine ⟨?_,hby,?_,?_,ht⟩
  · exact fun hm => hxs b hm b (.inl rfl) rfl
  · exact fun hm => ha b (.inr (.inl rfl)) b hm rfl
  intro x hx hm
  rcases mem_append.mp hx with hx | hx
  · exact ha x (.inl hx) x hm rfl
  · exact ha x (.inr (.inr hx)) x hm rfl

theorem prev_ne : prevOf m b ≠ b := by
  intro he
  have hb : b ≠ 0 := h.nonnull (by simp)
  exact h.separate.1 (he ▸ h.prev_mem (he.symm ▸ hb))

theorem unlink_links (ha : a ∈ headers) : headerAt (unlink m b) a = { headerAt m a with
      next := if a = prevOf m b then nextOf m b else nextOf m a
      prev := if a = nextOf m b then prevOf m b else prevOf m a } :=
  header_unlink h.spaced h.block_mem (fun hn => h.inside (by simp [h.prev_mem hn]))
    (fun hn => h.inside (by simp [h.next_mem hn])) h.prev_ne ha

theorem links (ha : a ∈ headers) : headerAt (pushFront (unlink m b) (firstOf 0 target) b) a =
      { headerAt m a with
        next := if a = b then firstOf 0 target
          else if a = prevOf m b then nextOf m b else nextOf m a
        prev := if a = b then 0 else if a = firstOf 0 target then b
          else if a = nextOf m b then prevOf m b else prevOf m a } := by
  have hse : firstOf 0 target ≠ b := by
    intro he
    exact h.separate.2.2.1 (he ▸ firstOf_mem (he.symm ▸ h.nonnull (by simp)))
  have hu := h.unlink_links ha
  have hn := congrArg AllocHeader.next hu
  have hprev := congrArg AllocHeader.prev hu
  simp only [headerAt] at hn hprev
  rw [header_pushFront h.spaced h.block_mem
    (fun hne => h.inside (by simp [firstOf_mem hne])) hse ha,hu,hn,hprev]

theorem moved_next (ha : a ∈ headers) :
    nextOf (pushFront (unlink m b) (firstOf 0 target) b) a = if a = b then firstOf 0 target
      else if a = prevOf m b then nextOf m b else nextOf m a :=
  congrArg AllocHeader.next (h.links ha)

theorem moved_prev (ha : a ∈ headers) :
    prevOf (pushFront (unlink m b) (firstOf 0 target) b) a = if a = b then 0
      else if a = firstOf 0 target then b else if a = nextOf m b then prevOf m b else prevOf m a :=
  congrArg AllocHeader.prev (h.links ha)

theorem others (hx : x ∈ xs ++ ys) : x ∈ headers ∧ x ≠ b ∧ x ≠ firstOf 0 target := by
  obtain ⟨hbx,hby,-,ha,-⟩ := h.separate
  have hal : x ∈ xs ++ b :: ys ++ target := by
    rcases mem_append.mp hx with hx | hx <;> simp [hx]
  refine ⟨h.inside hal,?_,?_⟩
  · rintro rfl
    exact (mem_append.mp hx).elim hbx hby
  · rintro rfl
    exact ha _ hx (firstOf_mem (h.nonnull hal))

theorem targets (hx : x ∈ target) : x ∈ headers ∧ x ≠ b ∧ x ≠ nextOf m b ∧ x ≠ prevOf m b := by
  obtain ⟨-,-,hbt,ha,-⟩ := h.separate
  have hal : x ∈ xs ++ b :: ys ++ target := mem_append_right _ hx
  refine ⟨h.inside hal,?_,?_,?_⟩
  · rintro rfl
    exact hbt hx
  · rintro rfl
    exact ha _ (mem_append_right xs (h.next_mem (h.nonnull hal))) hx
  · rintro rfl
    exact ha _ (mem_append_left ys (h.prev_mem (h.nonnull hal))) hx

theorem moves : Moves headers m (pushFront (unlink m b) (firstOf 0 target) b) (xs ++ ys) target b := by
  constructor
  · have hn : (0 :: (xs ++ b :: ys)).Nodup := by
      refine nodup_cons.mpr ⟨?_,(nodup_append.mp h.nodup).1⟩
      exact fun hm => h.nonnull (mem_append_left target hm) rfl
    refine Chain.unlink h.origin hn (fun hm => h.spaced.nonnull (h.others hm).1) ?_ ?_
    · intro x hx
      obtain ⟨hm,hb,-⟩ := h.others hx
      rw [h.moved_next hm,if_neg hb]
    intro x hx
    obtain ⟨hm,hb,hf⟩ := h.others hx
    rw [h.moved_prev hm,if_neg hb,if_neg hf]
  · refine Chain.push h.destination h.separate.2.2.2.2 ?_ ?_ ?_ ?_
    · rw [h.moved_next h.block_mem,if_pos rfl]
    · rw [h.moved_prev h.block_mem,if_pos rfl]
    · intro x hx
      obtain ⟨hm,hb,-,hprev⟩ := h.targets hx
      rw [h.moved_next hm,if_neg hb,if_neg hprev]
    intro x hx
    obtain ⟨hm,hb,hnex,-⟩ := h.targets hx
    rw [h.moved_prev hm,if_neg hb,if_neg hnex]
  · intro x hx
    exact ⟨congrArg AllocHeader.ptr (h.links hx),congrArg AllocHeader.size (h.links hx)⟩
  · refine (outside_unlink h.spaced h.block_mem (fun hne => h.inside (by simp [h.prev_mem hne]))
      (fun hne => h.inside (by simp [h.next_mem hne])) h.prev_ne).trans ?_
    exact outside_pushFront h.block_mem fun hne => h.inside (by simp [firstOf_mem hne])

theorem first_left : (if firstOf 0 (xs ++ b :: ys) = b then nextOf (unlink m b) b
    else firstOf 0 (xs ++ b :: ys)) = firstOf 0 (xs ++ ys) := by
  cases xs with
  | nil =>
    have hn : nextOf (unlink m b) b = if b = prevOf m b then nextOf m b else nextOf m b :=
      congrArg AllocHeader.next (h.unlink_links h.block_mem)
    rw [nil_append,firstOf_cons,if_pos rfl,hn,ite_self]
    exact h.origin.neighbours.1.1
  | cons x rest =>
    have hne : x ≠ b := fun he => h.separate.1 (he ▸ mem_cons_self)
    exact if_neg hne
end Movable
end

def headersOf (base : Nat) (tiles : List Tile) : List Nat := (locate headerSize base tiles).map Prod.fst

/-- The heap is a row of blocks behind their headers, each on one of the two lists. -/
structure Layout (h : Heap) (tiles : List Tile) (allocated free : List Nat) : Prop where
  base_pos : 0 < h.heapBase
  aligned : h.heapBase % maxAlign = 0
  room : h.heapBase+h.heapSize < 2^63
  heapPtr : h.heapPtr = h.heapBase+Tile.span headerSize tiles
  within : h.heapPtr ≤ h.heapBase+h.heapSize
  sizes : ∀ t ∈ tiles, t.length % maxAlign = 0
  blocks : ∀ b t, (b,t) ∈ locate headerSize h.heapBase tiles →
    ptrOf h.memory b = b+headerSize ∧ sizeOf h.memory b = t.length
  listed : (allocated ++ free).Perm (headersOf h.heapBase tiles)
  allocChain : Visits h.memory allocated
  freeChain : Visits h.memory free
  allocList : h.allocList = firstOf 0 allocated
  freeList : h.freeList = firstOf 0 free
  freeHeaders : h.freeHeaders = 0
  handedOut : h.handedOut =
    (locate headerSize h.heapBase tiles).map fun x => (x.1+headerSize,x.2.length)

section
variable {base b : Nat} {tiles : List Tile}
theorem headers_append (base : Nat) (tiles more : List Tile) : headersOf base (tiles ++ more) =
    headersOf base tiles ++ headersOf (base+Tile.span headerSize tiles) more := by
  rw [headersOf,locate_append,map_append]
  rfl

theorem mem_headers : b ∈ headersOf base tiles ↔ ∃ t, (b,t) ∈ locate headerSize base tiles := by
  simp [headersOf]

theorem headers_bounds (h : b ∈ headersOf base tiles) : base ≤ b ∧ b+headerSize ≤ base+Tile.span headerSize tiles := by
  obtain ⟨t,ht⟩ := mem_headers.mp h
  obtain ⟨hlo,hh⟩ := locate_bounds ht
  omega

theorem headers_nodup (base : Nat) (tiles : List Tile) : (headersOf base tiles).Nodup := by
  induction tiles generalizing base with
  | nil => exact nodup_nil
  | cons t rest ih =>
    refine nodup_cons.mpr ⟨?_,ih _⟩
    intro hm
    have hlo := (headers_bounds hm).1
    unfold headerSize at hlo
    omega

theorem headers_length (base : Nat) (tiles : List Tile) :
    headerSize * (headersOf base tiles).length ≤ Tile.span headerSize tiles := by
  induction tiles generalizing base with
  | nil => exact Nat.zero_le _
  | cons t rest ih =>
    have hr := ih (base+(headerSize+t.length))
    simp only [headersOf,Tile.locate,map_cons,length_cons,Tile.span] at hr ⊢
    rw [Nat.mul_succ]
    omega

theorem spaced_headers (hp : 0 < base) (hr : base+Tile.span headerSize tiles < 2^64) :
    Spaced (headersOf base tiles) := by
  refine ⟨?_,?_,?_⟩
  · intro a ha b hb
    obtain ⟨t,ht⟩ := mem_headers.mp ha
    obtain ⟨t',ht'⟩ := mem_headers.mp hb
    rcases locate_apart ht ht' with he | hab | hba
    · exact .inl (congrArg Prod.fst he)
    · exact .inr (.inl (by dsimp only at hab; omega))
    · exact .inr (.inr (by dsimp only at hba; omega))
  · intro hz
    have hlo := (headers_bounds hz).1
    omega
  · intro a ha
    have hh := (headers_bounds ha).2
    omega
end

namespace Layout
variable {h : Heap} {tiles : List Tile} {allocated free : List Nat}
variable (hl : Layout h tiles allocated free)
include hl
theorem heapEnd_eq : h.heapEnd = h.heapBase+h.heapSize := by
  have := hl.room
  unfold Heap.heapEnd
  omega

theorem spaced : Spaced (headersOf h.heapBase tiles) := by
  have hr := hl.room
  have hw := hl.within
  have hp := hl.heapPtr
  exact spaced_headers hl.base_pos (by omega)

theorem nodup : (allocated ++ free).Nodup := hl.listed.nodup_iff.mpr (headers_nodup _ _)

theorem length_lt : allocated.length < h.listBound ∧ free.length < h.listBound := by
  have hle := hl.listed.length_eq
  rw [length_append] at hle
  have hsp := headers_length h.heapBase tiles
  have hw := hl.within
  have hp := hl.heapPtr
  unfold Heap.listBound
  have hd : (headersOf h.heapBase tiles).length ≤ h.heapSize / headerSize := by
    rw [Nat.le_div_iff_mul_le (by decide),mul_comm]
    omega
  omega
end Layout
end LensorOS.Libc
