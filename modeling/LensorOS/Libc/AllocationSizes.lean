import LensorOS.Libc.Allocation

/-!
# Sizes of blocks

A block that is returned holds the bytes asked for unless a product, the rounding of a size or the
end of a new block wrapped. The capacity checks compare sums that wrap as well.
-/
namespace LensorOS.Libc
open Framework AllocHeader
/-- The block put in front of the blocks in use: at the pointer returned, large enough, inside of
the heap, and apart from the blocks that were in use before. -/
structure Serves (h : Heap) (allocated : List Nat) (needed p : Nat) (h' : Heap) : Prop where
  pointer : ptrOf h'.memory h'.allocList = p
  enough : needed ≤ sizeOf h'.memory h'.allocList
  within : h.heapBase ≤ p ∧ p+sizeOf h'.memory h'.allocList ≤ h.heapBase+h.heapSize
  apart : ∀ b ∈ allocated, ptrOf h.memory b+sizeOf h.memory b ≤ p ∨
    p+sizeOf h'.memory h'.allocList ≤ ptrOf h.memory b

/-- No free block is large enough, and one of the capacity checks fails. -/
def Refuses (h : Heap) (free : List Nat) (bytes : Nat) : Prop :=
  (∀ b ∈ free, sizeOf h.memory b < bytes) ∧
    (h.heapBase+h.heapSize ≤ (h.heapPtr+headerSize+bytes) % 2^64 ∨
      h.heapBase+h.heapSize ≤ h.heapPtr+headerSize)

/-- Neither the size nor, without a free block, the end of the new block wraps. -/
def Representable (h : Heap) (free : List Nat) (needed : Nat) : Prop :=
  needed ≤ 2^64-16 ∧ ((∃ b ∈ free, alignToMaxAlignT needed ≤ sizeOf h.memory b) ∨
    h.heapPtr+headerSize+alignToMaxAlignT needed < 2^64)

namespace Layout
variable {h h' : Heap} {tiles : List Tile} {allocated free : List Nat} {b needed bytes : Nat}
theorem serves_reused (hl : Layout h tiles allocated free) (hb : b ∈ free) :
    Serves h allocated needed (b+headerSize) (h.reuseBlock b) ↔ needed ≤ sizeOf h.memory b := by
  obtain ⟨t,ht,-,hsiz⟩ := hl.exists_tile (List.mem_append_right allocated hb)
  obtain ⟨xs,ys,rfl⟩ := List.append_of_mem hb
  obtain ⟨hp',hs'⟩ := hl.reuseBlock.1.blocks b t ht
  have hsa : sizeOf (h.reuseBlock b).memory (h.reuseBlock b).allocList = t.length := hs'
  rw [hsiz]
  constructor
  · intro hs
    have hen := hs.enough
    rw [hsa] at hen
    exact hen
  intro hn
  obtain ⟨hlo,hh⟩ := Tile.locate_bounds ht
  dsimp only at hlo hh
  have hw := hl.within
  rw [hl.heapPtr] at hw
  refine ⟨hp',hsa ▸ hn,⟨by omega,by rw [hsa]; omega⟩,fun a ha => ?_⟩
  obtain ⟨t',ht',hp,hsi⟩ := hl.exists_tile (List.mem_append_left _ ha)
  have hne : a ≠ b := by
    rintro rfl
    exact (List.nodup_append.mp hl.nodup).2.2 a ha a hb rfl
  have hap : a+(headerSize+t'.length) ≤ b ∨ b+(headerSize+t.length) ≤ a :=
    (Tile.locate_apart ht' ht).resolve_left fun he => hne (Prod.mk.inj he).1
  rw [hp,hsi,hsa]
  omega

theorem serves_grown (hl : Layout h tiles allocated free)
    (hh : h.heapPtr+headerSize < h.heapBase+h.heapSize) (hb : bytes < 2^64) :
    Serves h allocated needed (h.heapPtr+headerSize) (grown h bytes) ↔
      needed ≤ bytes ∧ h.heapPtr+headerSize+bytes ≤ h.heapBase+h.heapSize := by
  obtain ⟨-,hne⟩ := hl.grown_headers hh hb
  have hpt := congrArg ptr hne
  have hsiz : sizeOf (grown h bytes).memory (grown h bytes).allocList = bytes :=
    congrArg size hne
  constructor
  · intro hs
    have he := hs.enough
    have hw := hs.within.2
    rw [hsiz] at he hw
    exact ⟨he,hw⟩
  rintro ⟨hn,hen⟩
  have hst := hl.heapPtr
  refine ⟨hpt,hsiz.symm.le.trans' hn,⟨by omega,by rw [hsiz]; exact hen⟩,?_⟩
  intro a ha
  obtain ⟨t,ht,hp,hsi⟩ := hl.exists_tile (List.mem_append_left _ ha)
  have hbe := (Tile.locate_bounds ht).2
  dsimp only at hbe
  rw [hp,hsi]
  omega

theorem forall_returned {x : Nat × Heap} {P : Nat → Heap → Prop} :
    (∀ p h', (.ok x : Except Fault (Nat × Heap)) = .ok (p,h') → P p h') ↔ P x.1 x.2 := by
  constructor
  · exact fun ha => ha x.1 x.2 rfl
  rintro hx p h' heq
  cases heq
  exact hx

theorem malloc_serves_iff (hl : Layout h tiles allocated free) (needed : Nat) :
    (∀ p h', h.malloc (needed % 2^64) = .ok (p,h') → p ≠ 0 → Serves h allocated needed p h') ↔
      Refuses h free (alignToMaxAlignT (needed % 2^64)) ∨ Representable h free needed := by
  have hr := hl.room
  have hn : ∀ a, a+headerSize ≠ 0 := fun a => by simp [headerSize]
  have hs : needed ≤ 2^64-16 → needed % 2^64 = needed ∧ needed ≤ alignToMaxAlignT needed :=
    fun hle => ⟨Nat.mod_eq_of_lt (by omega),(le_align hle).1⟩
  rw [hl.malloc_eq,forall_returned]
  cases hfi : free.find? fun block =>
      sizeOf h.memory block ≥ alignToMaxAlignT (needed % 2^64) with
  | some b =>
    have hb : b ∈ free := List.mem_of_find?_eq_some hfi
    have hf : alignToMaxAlignT (needed % 2^64) ≤ sizeOf h.memory b := by simpa using List.find?_some hfi
    have hbe := hl.sizeOf_lt hb
    rw [hl.serves_reused hb]
    constructor
    · intro hal
      have hnee := hal (hn b)
      rw [(hs (by omega)).1] at hf
      exact .inr ⟨by omega,.inl ⟨b,hb,hf⟩⟩
    rintro (⟨hnon,-⟩ | ⟨hle,-⟩) -
    · exact absurd (hnon b hb) (not_lt.mpr hf)
    obtain ⟨hm,ha⟩ := hs hle
    rw [hm] at hf
    exact ha.trans hf
  | none =>
    have hnon : ∀ b ∈ free, sizeOf h.memory b < alignToMaxAlignT (needed % 2^64) := by simpa using hfi
    rw [hl.newBlock_eq]
    by_cases hfu : h.heapBase+h.heapSize ≤
        (h.heapPtr+headerSize+alignToMaxAlignT (needed % 2^64)) % 2^64
    · rw [if_pos hfu]
      exact ⟨fun _ => .inl ⟨hnon,.inl hfu⟩,fun _ hne => (hne rfl).elim⟩
    rw [if_neg hfu]
    by_cases hla : h.heapBase+h.heapSize ≤ h.heapPtr+headerSize
    · rw [if_pos hla]
      exact ⟨fun _ => .inl ⟨hnon,.inr hla⟩,fun _ hne => (hne rfl).elim⟩
    rw [if_neg hla]
    rw [hl.serves_grown (by omega) (align_lt _)]
    constructor
    · intro hal
      obtain ⟨hnee,he⟩ := hal (hn h.heapPtr)
      have hle : needed ≤ 2^64-16 := by omega
      rw [(hs hle).1] at he
      exact .inr ⟨hle,.inr (by omega)⟩
    rintro (⟨-,hf' | hl'⟩ | ⟨hle,hf⟩) -
    · exact absurd hf' hfu
    · exact absurd hl' hla
    obtain ⟨hm,ha⟩ := hs hle
    rw [hm] at hnon hfu ⊢
    have hno : h.heapPtr+headerSize+alignToMaxAlignT needed < 2^64 := by
      refine hf.resolve_left ?_
      rintro ⟨b,hb,hfit⟩
      exact absurd (hnon b hb) (not_lt.mpr hfit)
    rw [Nat.mod_eq_of_lt hno] at hfu
    exact ⟨ha,by omega⟩

theorem serves_fill {p k : Nat} (hp : h'.allocList+headerSize = p) :
    Serves h allocated needed p { h' with memory := h'.memory.fill p k 0 } ↔
      Serves h allocated needed p h' := by
  have hh : headerAt (h'.memory.fill p k 0) h'.allocList = headerAt h'.memory h'.allocList :=
    headerAt_congr fun x _ hx => Bytes.fill_outside _ _ (by omega)
  have hpt : ptrOf (h'.memory.fill p k 0) h'.allocList = ptrOf h'.memory h'.allocList :=
    congrArg ptr hh
  have hs : sizeOf (h'.memory.fill p k 0) h'.allocList = sizeOf h'.memory h'.allocList :=
    congrArg size hh
  constructor
  · rintro ⟨hpo,he,hw,ha⟩
    simp only [hpt,hs] at hpo he hw ha
    exact ⟨hpo,he,hw,ha⟩
  · rintro ⟨hpo,he,hw,ha⟩
    refine ⟨?_,?_,?_,?_⟩ <;> simpa only [hpt,hs]

theorem malloc_front (hl : Layout h tiles allocated free) {p : Nat}
    (hm : h.malloc bytes = .ok (p,h')) (hp : p ≠ 0) : h'.allocList+headerSize = p := by
  rw [hl.malloc_eq] at hm
  have hr := Except.ok.inj hm
  cases hf : free.find? fun block => sizeOf h.memory block ≥ alignToMaxAlignT bytes with
  | some b =>
    rw [hf] at hr
    obtain ⟨rfl,rfl⟩ := Prod.mk.inj hr
    rfl
  | none =>
    rw [hf] at hr
    dsimp only at hr
    rw [hl.newBlock_eq] at hr
    split at hr
    · exact absurd (Prod.mk.inj hr).1.symm hp
    split at hr
    · exact absurd (Prod.mk.inj hr).1.symm hp
    · obtain ⟨rfl,rfl⟩ := Prod.mk.inj hr
      rfl

theorem calloc_serves_iff (hl : Layout h tiles allocated free) (n s : Nat) :
    (∀ p h', h.calloc n s = .ok (p,h') → p ≠ 0 → Serves h allocated (n * s) p h') ↔
      ∀ p h', h.malloc (n * s % 2^64) = .ok (p,h') → p ≠ 0 → Serves h allocated (n * s) p h' := by
  have hc : ∀ p h', h.malloc (n * s % 2^64) = .ok (p,h') → p ≠ 0 → h.calloc n s =
      .ok (p, { h' with memory := h'.memory.fill p (n * s % 2^64) 0 }) := by
    intro p h' hm hp
    rw [Heap.calloc,hm]
    exact if_neg hp
  constructor
  · intro ha p h' hm hp
    exact (serves_fill (hl.malloc_front hm hp)).mp (ha p _ (hc p h' hm hp) hp)
  intro ha p h' hr hp
  cases hm : h.malloc (n * s % 2^64) with
  | error fault =>
    rw [Heap.calloc,hm] at hr
    cases hr
  | ok x =>
    obtain ⟨q,h1⟩ := x
    by_cases hq : q = 0
    · rw [Heap.calloc,hm] at hr
      dsimp only at hr
      rw [if_pos hq] at hr
      exact absurd (Prod.mk.inj (Except.ok.inj hr)).1.symm hp
    · rw [hc q h1 hm hq] at hr
      obtain ⟨rfl,rfl⟩ := Prod.mk.inj (Except.ok.inj hr)
      exact (serves_fill (hl.malloc_front hm hq)).mpr (ha q h1 hm hq)

/-- Blocks hold what was asked for exactly where the request is refused, or no size and no end of
a block wraps. -/
theorem sizes_served_iff (hl : Layout h tiles allocated free) {n s : Nat} (hn : n < 2^64) :
    ((∀ p h', h.malloc n = .ok (p,h') → p ≠ 0 → Serves h allocated n p h') ↔
      Refuses h free (alignToMaxAlignT n) ∨ Representable h free n) ∧
    ((∀ p h', h.calloc n s = .ok (p,h') → p ≠ 0 → Serves h allocated (n * s) p h') ↔
      Refuses h free (alignToMaxAlignT (n * s % 2^64)) ∨ Representable h free (n * s)) := by
  have hm := hl.malloc_serves_iff n
  rw [Nat.mod_eq_of_lt hn] at hm
  refine ⟨hm,?_⟩
  rw [hl.calloc_serves_iff]
  exact hl.malloc_serves_iff (n * s)

/-- Requests for 100 bytes and for 3 times 100 bytes, behind a block of 48. -/
theorem sizes_served_hundred : ∃ h, (Heap.initial (fun _ => 0) 0xf8000000).malloc 48 = .ok (0xf8000020,h) ∧
    (∀ p h', h.malloc 100 = .ok (p,h') → p ≠ 0 → Serves h [0xf8000000] 100 p h') ∧
    ∀ p h', h.calloc 100 3 = .ok (p,h') → p ≠ 0 → Serves h [0xf8000000] (100 * 3) p h' := by
  have hl : Layout (.initial (fun _ => 0) 0xf8000000) [] [] [] :=
    .initial _ (by decide) (by decide) (by decide)
  have hg : Layout (grown (.initial (fun _ => 0) 0xf8000000) 48) _ [0xf8000000] [] :=
    hl.grown_layout (by decide) (by decide)
  obtain ⟨hm,hc⟩ := hg.sizes_served_iff (n := 100) (s := 3) (by decide)
  refine ⟨_,?_,hm.mpr (.inr ⟨by decide,.inr (by decide)⟩),hc.mpr (.inr ⟨by decide,.inr (by decide)⟩)⟩
  rw [hl.malloc_eq]
  exact congrArg Except.ok (hl.newBlock_eq 48)
end Layout

/-- The product of `2^32` and `2^32` is zero, and so is the largest size when it is rounded up. -/
theorem wrapped_requests_granted :
    (∃ p h', (Heap.initial (fun _ => 0) 0xf8000000).calloc (2^32) (2^32) = .ok (p,h') ∧ p ≠ 0 ∧
      ¬Serves (.initial (fun _ => 0) 0xf8000000) [] (2^32 * 2^32) p h') ∧
    ∃ p h', (Heap.initial (fun _ => 0) 0xf8000000).malloc (2^64-1) = .ok (p,h') ∧ p ≠ 0 ∧
      ¬Serves (.initial (fun _ => 0) 0xf8000000) [] (2^64-1) p h' := by
  have hc : ∀ (result : Except Fault (Nat × Heap)) (needed : Nat),
      (result.toOption.any fun x => decide (x.1 ≠ 0 ∧
        sizeOf x.2.memory x.2.allocList < needed)) = true → ∃ p h', result = .ok (p,h') ∧ p ≠ 0 ∧
        ¬Serves (.initial (fun _ => 0) 0xf8000000) [] needed p h' := by
    intro result needed hf
    cases result with
    | error fault => cases hf
    | ok x =>
      obtain ⟨hp,hsi⟩ := of_decide_eq_true hf
      exact ⟨x.1,x.2,rfl,hp,fun hs => absurd hs.enough (not_le.mpr hsi)⟩
  exact ⟨hc _ _ (by decide +kernel),hc _ _ (by decide +kernel)⟩
end LensorOS.Libc
