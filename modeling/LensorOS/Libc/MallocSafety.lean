import LensorOS.Framework.Ownership
import LensorOS.Framework.Run
import LensorOS.Libc.Allocation

/-!
# Programs that use the allocator

Runs of a program that asks for blocks, writes to the bytes it asked for, and releases or resizes
blocks that it has.
-/
namespace LensorOS.Libc
open Framework List Tile
/-- A program with the pointers it has, each with the size it asked for. -/
structure Client where
  heap : Heap
  live : List (Nat × Nat)

variable {x : Nat × Nat}
namespace Client
inductive Call
  | malloc (bytes : Nat)
  | free (ptr : Nat)
  | realloc (copyData : Bool) (ptr size : Nat)
  | store (address : Nat) (byte : BitVec 8)

def replace (live : List (Nat × Nat)) (old ptr size : Nat) : List (Nat × Nat) :=
  if ptr = 0 then live else (ptr,size) :: live.filter fun x => x.1 ≠ old

variable (c : Client)
def step : Call → Option Client
  | .malloc bytes =>
    (c.heap.malloc bytes).toOption.map fun (ptr,heap) => ⟨heap,replace c.live 0 ptr bytes⟩
  | .free ptr =>
    (c.heap.free ptr).toOption.map fun heap => ⟨heap,c.live.filter fun x => x.1 ≠ ptr⟩
  | .realloc copyData ptr size =>
    (c.heap.reallocImpl copyData ptr size).toOption.map fun (newPtr,heap) =>
      ⟨heap,replace c.live ptr newPtr size⟩
  | .store address byte =>
    some { c with heap := { c.heap with memory := c.heap.memory.write8 address byte } }

/-- The kernel mapped the heap in the lower half of the addresses. -/
def Started : Prop :=
  ∃ memory heapBase, 0 < heapBase ∧ heapBase % 4096 = 0 ∧ heapBase+2^20 < 2^63 ∧
    c = ⟨.initial memory heapBase,[]⟩

def Live (ptr : Nat) : Prop := ptr = 0 ∨ ptr ∈ c.live.map Prod.fst

/-- Pointers are live, sizes are not excessive, and stores go to bytes that were asked for. -/
def WellBehaved (c : Client) (call : Call) (_ : Client) : Prop := match call with
  | .malloc bytes => bytes ≤ 2^62
  | .free ptr => c.Live ptr
  | .realloc _ ptr size => c.Live ptr ∧ size ≤ 2^62
  | .store address _ => ∃ x ∈ c.live, x.1 ≤ address ∧ address < x.1+x.2

instance (c : Client) (ptr : Nat) : Decidable (c.Live ptr) := inferInstanceAs (Decidable (_ ∨ _))

instance (c : Client) (call : Call) (c' : Client) : Decidable (WellBehaved c call c') :=
  match call with
  | .malloc bytes => inferInstanceAs (Decidable (bytes ≤ 2^62))
  | .free ptr => inferInstanceAs (Decidable (c.Live ptr))
  | .realloc _ ptr size => inferInstanceAs (Decidable (c.Live ptr ∧ size ≤ 2^62))
  | .store address _ =>
    inferInstanceAs (Decidable (∃ x ∈ c.live, x.1 ≤ address ∧ address < x.1+x.2))

/-- The pointers that a program has are those of the blocks in use, which are as large as it
asked for. -/
structure Backed (base : Nat) (tiles : List Tile) (allocated : List Nat)
    (live : List (Nat × Nat)) : Prop where
  pointers : (live.map Prod.fst).Perm (allocated.map (· + headerSize))
  sizes : ∀ x ∈ live, ∃ b t, x.1 = b+headerSize ∧
    (b,t) ∈ locate headerSize base tiles ∧ x.2 ≤ t.length

def Sound : Prop := ∃ tiles allocated free, Layout c.heap tiles allocated free ∧
    Backed c.heap.heapBase tiles allocated c.live

section
variable {base b n : Nat} {tiles tiles' : List Tile} {allocated allocated' xs ys : List Nat}
  {live : List (Nat × Nat)} {t : Tile}
theorem locate_of_isPrefix {x : Nat × Tile} (hx : x ∈ locate headerSize base tiles)
    (h : tiles <+: tiles') : x ∈ locate headerSize base tiles' := by
  obtain ⟨more,rfl⟩ := h
  rw [locate_append]
  exact mem_append_left _ hx

namespace Backed
section
variable (h : Backed base tiles allocated live)
include h
theorem extend (hti : tiles <+: tiles') : Backed base tiles' allocated live := by
  refine ⟨h.pointers,fun x hx => ?_⟩
  obtain ⟨b,t,hp,ht,hs⟩ := h.sizes x hx
  exact ⟨b,t,hp,locate_of_isPrefix ht hti,hs⟩

theorem perm (hp : allocated.Perm allocated') : Backed base tiles allocated' live :=
  ⟨h.pointers.trans (hp.map _),h.sizes⟩

theorem add (ht : (b,t) ∈ locate headerSize base tiles) (hs : n ≤ t.length) :
    Backed base tiles (b :: allocated) ((b+headerSize,n) :: live) := by
  refine ⟨h.pointers.cons _,fun x hx => ?_⟩
  rcases mem_cons.mp hx with rfl | hx
  · exact ⟨b,t,rfl,ht,hs⟩
  · exact h.sizes x hx
end

theorem remove (h : Backed base tiles (xs ++ b :: ys) live) (hn : (xs ++ b :: ys).Nodup) :
    Backed base tiles (xs ++ ys) (live.filter fun x => x.1 ≠ b+headerSize) := by
  refine ⟨?_,fun x hx => h.sizes x (mem_filter.mp hx).1⟩
  have hf := h.pointers.filter fun p => p ≠ b+headerSize
  have hk : ∀ zs : List Nat, b ∉ zs →
      (zs.map (· + headerSize)).filter (fun p => p ≠ b+headerSize) = zs.map (· + headerSize) := by
    intro zs hb
    refine filter_eq_self.mpr fun p hp => ?_
    obtain ⟨a,ha,rfl⟩ := mem_map.mp hp
    have hne : a ≠ b := fun he => hb (he ▸ ha)
    simpa using hne
  obtain ⟨hb,-⟩ := nodup_cons.mp ((perm_middle.nodup_iff).mp hn)
  rw [mem_append,not_or] at hb
  rw [map_append,map_cons,filter_append,hk xs hb.1,
    filter_cons_of_neg (by simp),hk ys hb.2,← map_append,filter_map] at hf
  exact hf

theorem exists_block (h : Backed base tiles allocated live) {ptr : Nat}
    (hp : ptr ∈ live.map Prod.fst) : ∃ b ∈ allocated, ptr = b+headerSize := by
  obtain ⟨b,hb,rfl⟩ := mem_map.mp (h.pointers.subset hp)
  exact ⟨b,hb,rfl⟩

theorem filter_null (h : Backed base tiles allocated live) : (live.filter fun x => x.1 ≠ 0) = live := by
  refine filter_eq_self.mpr fun x hx => ?_
  obtain ⟨b,-,hp⟩ := h.exists_block (mem_map_of_mem hx)
  simp [hp,headerSize]
end Backed
end

section
variable {c c' : Client} {call : Call} {tiles : List Tile} {allocated free : List Nat} {h' : Heap} {p n : Nat}
theorem granted_sound (hb : Backed c.heap.heapBase tiles allocated c.live)
    (hg : Granted c.heap tiles allocated free n p h') : Sound ⟨h',replace c.live 0 p n⟩ := by
  cases hg with
  | refused hp hla =>
    refine ⟨tiles,allocated,free,hla,?_⟩
    rw [hp.base]
    exact hb
  | @block _ b t tiles' free' hp ht hbl hs hla =>
    refine ⟨tiles',b :: allocated,free',hla,?_⟩
    rw [replace,if_neg (by simp [headerSize]),hb.filter_null,hp.base]
    exact (hb.extend ht).add hbl hs

theorem malloc_returns (hs : c.Sound) (hn : n ≤ 2^62) :
    ∃ p h', c.heap.malloc n = .ok (p,h') ∧ Sound ⟨h',replace c.live 0 p n⟩ := by
  obtain ⟨tiles,allocated,free,hla,hb⟩ := hs
  obtain ⟨p,h',hm,hg⟩ := hla.malloc_granted hn
  exact ⟨p,h',hm,granted_sound hb hg⟩

theorem free_returns (hs : c.Sound) (hli : c.Live p) :
    ∃ h', c.heap.free p = .ok h' ∧ Sound ⟨h',c.live.filter fun x => x.1 ≠ p⟩ := by
  obtain ⟨tiles,allocated,free,hla,hba⟩ := hs
  rcases hli with rfl | hli
  · refine ⟨c.heap,rfl,tiles,allocated,free,hla,?_⟩
    rw [hba.filter_null]
    exact hba
  obtain ⟨b,hb,rfl⟩ := hba.exists_block hli
  obtain ⟨xs,ys,rfl⟩ := append_of_mem hb
  exact ⟨_,hla.free_live,tiles,xs ++ ys,b :: free,hla.releaseBlock.1,
    hba.remove (nodup_append.mp hla.nodup).1⟩

theorem realloc_returns (hs : c.Sound) (hli : c.Live p) (hn : n ≤ 2^62) (copyData : Bool) :
    ∃ q h', c.heap.reallocImpl copyData p n = .ok (q,h') ∧ Sound ⟨h',replace c.live p q n⟩ := by
  rcases hli with rfl | hli
  · exact malloc_returns hs hn
  obtain ⟨tiles,allocated,free,hla,hba⟩ := hs
  obtain ⟨b,hb,rfl⟩ := hba.exists_block hli
  obtain ⟨t,ht,-⟩ := hla.exists_tile (mem_append_left free hb)
  obtain ⟨xs,ys,rfl⟩ := append_of_mem hb
  have hres := hba.remove (nodup_append.mp hla.nodup).1
  have hno : ∀ a, a+headerSize ≠ 0 := fun a => by simp [headerSize]
  obtain ⟨q,h',hr,hre⟩ := hla.realloc_resized ht hn copyData
  refine ⟨q,h',hr,?_⟩
  cases hre with
  | kept hsi =>
    refine ⟨tiles,xs ++ b :: ys,free,hla,?_⟩
    rw [replace,if_neg (hno b)]
    exact (hres.add ht hsi).perm perm_middle.symm
  | refused hp hl' =>
    refine ⟨tiles,xs ++ b :: ys,free,hl',?_⟩
    rw [hp.base]
    exact hba
  | @moved _ b' t' tiles' free' hp hti hbl hsi hl' =>
    refine ⟨tiles',b' :: (xs ++ ys),b :: free',hl',?_⟩
    rw [replace,if_neg (hno b'),hp.base]
    exact (hres.extend hti).add hbl hsi

theorem Sound.withMemory (hs : c.Sound) {m : Bytes} (hx : x ∈ c.live)
    (hm : ∀ y, y < x.1 ∨ x.1+x.2 ≤ y → m y = c.heap.memory y) :
    Sound { c with heap := { c.heap with memory := m } } := by
  obtain ⟨tiles,allocated,free,hla,hb⟩ := hs
  obtain ⟨b,t,hp,ht,hsi⟩ := hb.sizes x hx
  refine ⟨tiles,allocated,free,hla.withMemory fun a ha => ?_,hb⟩
  exact header_payload ht (fun y hy => hm y (by omega)) ha

theorem step_returns (hs : c.Sound) (hc : WellBehaved c call c') :
    ∃ c'', c.step call = some c'' ∧ c''.Sound := by
  cases call with
  | malloc bytes =>
    obtain ⟨p,h',hm,hs'⟩ := malloc_returns hs hc
    refine ⟨_,?_,hs'⟩
    rw [step,hm]
    rfl
  | free ptr =>
    obtain ⟨h',hf,hs'⟩ := free_returns hs hc
    refine ⟨_,?_,hs'⟩
    rw [step,hf]
    rfl
  | realloc copyData ptr size =>
    obtain ⟨q,h',hr,hs'⟩ := realloc_returns hs hc.1 hc.2 copyData
    refine ⟨_,?_,hs'⟩
    rw [step,hr]
    rfl
  | store address byte =>
    obtain ⟨x,hx,hlo,hh⟩ := hc
    exact ⟨_,rfl,hs.withMemory hx fun y hy => Bytes.write8_outside _ _ (by omega)⟩

theorem started_sound (h : c.Started) : c.Sound := by
  obtain ⟨memory,heapBase,hp,ha,hr,rfl⟩ := h
  have hm : heapBase % maxAlign = 0 := by
    unfold maxAlign
    omega
  exact ⟨[],[],[],.initial memory hp hm hr,List.Perm.refl _, fun x hx => (not_mem_nil hx).elim⟩

theorem sound_of_run (h : Reachable Started step WellBehaved c) : c.Sound := by
  refine h.invariant_of_taken (fun _ => started_sound) fun c call c' hs hc => ?_
  exact step_returns hs hc
end

def ranges (m : Bytes) (block : Nat) : List (Nat × Nat) := [(block,headerSize),(ptrOf m block,sizeOf m block)]

structure Safe (c : Client) (allocated free : List Nat) : Prop where
  allocatedList : c.heap.allocList = firstOf 0 allocated ∧ Visits c.heap.memory allocated
  freeList : c.heap.freeList = firstOf 0 free ∧ Visits c.heap.memory free
  headerList : c.heap.freeHeaders = 0
  nonnull : 0 ∉ allocated ++ free
  nodup : (allocated ++ free).Nodup
  separate : ((allocated ++ free).flatMap (ranges c.heap.memory)).Pairwise Separate
  placed : ∀ x ∈ (allocated ++ free).flatMap (ranges c.heap.memory), x.1 % 16 = 0 ∧
    c.heap.heapBase ≤ x.1 ∧ x.1+x.2 ≤ c.heap.heapBase+c.heap.heapSize
  pointers : (c.live.map Prod.fst).Perm (allocated.map (ptrOf c.heap.memory))
  sizes : ∀ x ∈ c.live, ∃ b ∈ allocated, ptrOf c.heap.memory b = x.1 ∧ x.2 ≤ sizeOf c.heap.memory b
  handedOut : c.heap.handedOut.Perm
    ((allocated ++ free).map fun b => (ptrOf c.heap.memory b,sizeOf c.heap.memory b))
end Client

section
variable {h : Heap} {tiles : List Tile} {allocated free : List Nat}
theorem span_aligned (hs : ∀ t ∈ tiles, t.length % maxAlign = 0) : Tile.span headerSize tiles % maxAlign = 0 := by
  induction tiles with
  | nil => rfl
  | cons t rest ih =>
    have ht := hs t mem_cons_self
    have hr := ih fun x hx => hs x (mem_cons_of_mem t hx)
    simp only [Tile.span,headerSize,maxAlign] at ht hr ⊢
    omega

namespace Layout
variable (hl : Layout h tiles allocated free)
include hl
theorem ranges_placed (hx : x ∈ (allocated ++ free).flatMap (Client.ranges h.memory)) :
    x.1 % 16 = 0 ∧ h.heapBase ≤ x.1 ∧ x.1+x.2 ≤ h.heapBase+h.heapSize := by
  obtain ⟨b,hb,hx⟩ := mem_flatMap.mp hx
  obtain ⟨t,ht,hp,hsi⟩ := hl.exists_tile hb
  obtain ⟨hlo,hhi⟩ := locate_bounds ht
  dsimp only at hlo hhi
  have hw := hl.within
  rw [hl.heapPtr] at hw
  have ha : b % 16 = 0 := by
    obtain ⟨before,after,rfl,rfl⟩ := mem_locate_split ht
    have hs : ∀ t ∈ before, t.length % maxAlign = 0 := fun x hx =>
      hl.sizes x (mem_append_left _ hx)
    have hsp := span_aligned hs
    have hba := hl.aligned
    unfold maxAlign at hsp hba
    omega
  have hh : headerSize = 32 := rfl
  simp only [Client.ranges,hp,hsi,mem_cons,not_mem_nil,or_false] at hx
  rcases hx with rfl | rfl
  · exact ⟨ha,hlo,by dsimp only; omega⟩
  · refine ⟨?_,?_,?_⟩ <;> dsimp only <;> omega

theorem ranges_separate : ((allocated ++ free).flatMap (Client.ranges h.memory)).Pairwise Separate := by
  have hr : ∀ b ∈ allocated ++ free, ∃ t, (b,t) ∈ locate headerSize h.heapBase tiles ∧
        Client.ranges h.memory b = [(b,headerSize),(b+headerSize,t.length)] := by
    intro b hb
    obtain ⟨t,ht,hp,hs⟩ := hl.exists_tile hb
    exact ⟨t,ht,by rw [Client.ranges,hp,hs]⟩
  rw [pairwise_flatMap]
  constructor
  · intro b hb
    obtain ⟨t,-,heq⟩ := hr b hb
    rw [heq]
    simp [Separate]
  refine hl.nodup.imp_of_mem fun {a b} ha hb hn x hx y hy => ?_
  obtain ⟨t,ht,heq⟩ := hr a ha
  obtain ⟨t',ht',he'⟩ := hr b hb
  rw [heq] at hx
  rw [he'] at hy
  have hap : a+(headerSize+t.length) ≤ b ∨ b+(headerSize+t'.length) ≤ a :=
    (locate_apart ht ht').resolve_left fun he => hn (Prod.mk.inj he).1
  simp only [mem_cons,not_mem_nil,or_false] at hx hy
  rcases hx with rfl | rfl <;> rcases hy with rfl | rfl <;>
    simp [Separate] <;> omega

theorem handedOut_listed : h.handedOut.Perm
    ((allocated ++ free).map fun b => (ptrOf h.memory b,sizeOf h.memory b)) := by
  have hr : h.handedOut = (headersOf h.heapBase tiles).map fun b => (ptrOf h.memory b,sizeOf h.memory b) := by
    rw [hl.handedOut,headersOf,map_map]
    refine map_congr_left fun x hx => ?_
    obtain ⟨hp,hs⟩ := hl.blocks x.1 x.2 hx
    simp [hp,hs]
  rw [hr]
  exact (hl.listed.map _).symm
end Layout
end

namespace Client
variable {c : Client}
theorem Sound.within (h : c.Sound) (hx : x ∈ c.live) : 0 < c.heap.heapBase ∧ c.heap.heapBase ≤ x.1 ∧
      x.1+x.2 ≤ c.heap.heapBase+c.heap.heapSize ∧ c.heap.heapBase+c.heap.heapSize < 2^63 := by
  obtain ⟨tiles,allocated,free,hla,hb⟩ := h
  obtain ⟨b,t,hp,ht,hs⟩ := hb.sizes x hx
  obtain ⟨hlo,hh⟩ := locate_bounds ht
  dsimp only at hlo hh
  have hw := hla.within
  rw [hla.heapPtr] at hw
  exact ⟨hla.base_pos,by omega,by omega,hla.room⟩

theorem Sound.nodup (h : c.Sound) : (c.live.map Prod.fst).Nodup := by
  obtain ⟨tiles,allocated,free,hla,hb⟩ := h
  rw [hb.pointers.nodup_iff]
  exact (nodup_append.mp hla.nodup).1.map (add_left_injective headerSize)

theorem Sound.perm (h : c.Sound) {live : List (Nat × Nat)} (hp : c.live.Perm live) : Sound ⟨c.heap,live⟩ := by
  obtain ⟨tiles,allocated,free,hla,hb⟩ := h
  refine ⟨tiles,allocated,free,hla,(hp.map _).symm.trans hb.pointers,?_⟩
  exact fun x hx => hb.sizes x (hp.symm.subset hx)

theorem replace_cons {p n q k : Nat} {rest : List (Nat × Nat)}
    (hn : (((p,n) :: rest).map Prod.fst).Nodup) (hq : q ≠ 0) :
    replace ((p,n) :: rest) p q k = (q,k) :: rest := by
  have hr : (rest.filter fun x => x.1 ≠ p) = rest := by
    refine filter_eq_self.mpr fun x hx => ?_
    have hne : x.1 ≠ p := by
      rintro rfl
      exact (nodup_cons.mp hn).1 (mem_map.mpr ⟨x,hx,rfl⟩)
    simpa using hne
  rw [replace,if_neg hq,filter_cons_of_neg (by simp),hr]

theorem Sound.safe (h : c.Sound) : ∃ allocated free, c.Safe allocated free := by
  obtain ⟨tiles,allocated,free,hla,hba⟩ := h
  have hp : ∀ b ∈ allocated, ptrOf c.heap.memory b = b+headerSize := by
    intro b hb
    obtain ⟨t,-,hp,-⟩ := hla.exists_tile (mem_append_left free hb)
    exact hp
  refine ⟨allocated,free,?_⟩
  exact
    { allocatedList := ⟨hla.allocList,hla.allocChain⟩
      freeList := ⟨hla.freeList,hla.freeChain⟩
      headerList := hla.freeHeaders
      nonnull := by
        rw [mem_append,not_or]
        exact ⟨hla.allocated_nonnull,hla.free_nonnull⟩
      nodup := hla.nodup
      separate := hla.ranges_separate
      placed := fun x hx => hla.ranges_placed hx
      pointers := by
        rw [map_congr_left hp]
        exact hba.pointers
      sizes := by
        intro x hx
        obtain ⟨b,t,hb,ht,hs⟩ := hba.sizes x hx
        obtain ⟨b',hb',heq⟩ := hba.exists_block (mem_map_of_mem hx)
        obtain rfl : b' = b := by omega
        exact ⟨b',hb',(hp b' hb').trans hb.symm,by rw [(hla.blocks b' t ht).2]; exact hs⟩
      handedOut := hla.handedOut_listed }

/-- Whatever blocks a program asks for, releases and resizes, blocks and headers are apart, aligned
and inside of the heap, blocks are as large as asked for, and all of them are on one of the two
lists. Its next call returns. -/
theorem allocator_safe (h : Reachable Started step WellBehaved c) :
    (∃ allocated free, c.Safe allocated free) ∧
      ∀ call c', WellBehaved c call c' → (c.step call).isSome := by
  have hs := sound_of_run h
  refine ⟨hs.safe,fun call c' hc => ?_⟩
  obtain ⟨c'',hst,-⟩ := step_returns hs hc
  rw [hst]
  rfl

theorem started_initial : Started ⟨.initial (fun _ => 0) 0xf8000000,[]⟩ :=
  ⟨_,_,by decide,by decide,by decide,rfl⟩

/-- Two blocks, one of which is released before the other has to move to a larger one. -/
theorem allocator_safe_three : ∃ c, Reachable Started step WellBehaved c ∧
    c.live = [(0xf8000100,200)] ∧ c.heap.allocList = 0xf80000e0 ∧ c.heap.freeList = 0xf8000090 ∧
      (∃ allocated free, c.Safe allocated free) ∧ (c.step (.free 0xf8000100)).isSome := by
  obtain ⟨c,hr,hli,ha,hf⟩ : ∃ c, Reachable Started step WellBehaved c ∧
      c.live = [(0xf8000100,200)] ∧ c.heap.allocList = 0xf80000e0 ∧ c.heap.freeList = 0xf8000090 :=
    Reachable.exists_checked started_initial (fun c call => WellBehaved c call c)
      (fun _ _ _ h => of_decide_eq_true h)
      [.malloc 100,.malloc 40,.free 0xf8000020,.realloc true 0xf80000b0 200,
        .store 0xf80001c7 65] (by decide +kernel)
  have hc : WellBehaved c (.free 0xf8000100) c := by
    change c.Live _
    simp [Live,hli]
  obtain ⟨hs,hn⟩ := allocator_safe hr
  exact ⟨c,hr,hli,ha,hf,hs,hn _ c hc⟩
end Client
end LensorOS.Libc
