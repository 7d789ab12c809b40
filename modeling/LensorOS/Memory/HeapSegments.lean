import LensorOS.Memory.Heap

/-!
# The heap as a list of segments

The abstract heap is a list of tiles from `heapVirtualBase` on. `Shaped` relates it to
memory; each operation on headers is a change of the list.
-/
namespace LensorOS.Memory
open Framework List Bytes
open Tile hiding span
namespace Heap
section
variable {m m' : Bytes} {a b v : Nat}
def Apart (a b : Nat) : Prop := a+headerSize ≤ b ∨ b+headerSize ≤ a
theorem Apart.symm (h : Apart a b) : Apart b a := Or.symm h

theorem header_congr (h : ∀ x, b ≤ x → x < b+headerSize → m' x = m x) :
    segmentHeader m' b = segmentHeader m b := by
  unfold headerSize at h
  have hla : m'.read64 b = m.read64 b := read64_congr fun x h1 h2 => h x (by omega) (by omega)
  have hn : m'.read64 (b+8) = m.read64 (b+8) := read64_congr fun x h1 h2 => h x (by omega) (by omega)
  have hl : m'.read64 (b+16) = m.read64 (b+16) := read64_congr fun x h1 h2 => h x (by omega) (by omega)
  have hf : m' (b+24) = m (b+24) := h (b+24) (by omega) (by omega)
  simp [segmentHeader,lastOf,nextOf,lengthOf,freeOf,hla,hn,hl,hf]

theorem write64_apart {x : Nat} {w : BitVec 64} (h : Apart a b) (hl : a ≤ x) (hh : x ≤ a+16) :
    segmentHeader (m.write64 x w) b = segmentHeader m b := by
  unfold Apart headerSize at h
  apply header_congr
  intro y h1 h2
  unfold headerSize at h2
  exact write64_outside m _ (by omega)

theorem setLast_apart (h : Apart a b) : segmentHeader (setLast m a v) b = segmentHeader m b :=
  write64_apart h le_rfl (by omega)

theorem setNext_apart (h : Apart a b) : segmentHeader (setNext m a v) b = segmentHeader m b :=
  write64_apart h (by omega) (by omega)

theorem setLength_apart (h : Apart a b) : segmentHeader (setLength m a v) b = segmentHeader m b :=
  write64_apart h (by omega) le_rfl

theorem setFree_apart {f : Bool} (h : Apart a b) : segmentHeader (setFree m a f) b = segmentHeader m b := by
  unfold Apart headerSize at h
  apply header_congr
  intro x h1 h2
  unfold headerSize at h2
  exact write8_outside m _ (by omega)

theorem write8_apart {w : BitVec 8} (h : a < b ∨ b+headerSize ≤ a) :
    segmentHeader (m.write8 a w) b = segmentHeader m b := by
  apply header_congr
  intro x h1 h2
  exact write8_outside m _ (by omega)

private theorem word_toNat (h : v < 2^64) : (BitVec.ofNat 64 v).toNat = v := by
  rw [BitVec.toNat_ofNat,Nat.mod_eq_of_lt h]

theorem setLast_same (h : v < 2^64) : segmentHeader (setLast m a v) a = { segmentHeader m a with last := v } := by
  simp only [segmentHeader,lastOf,nextOf,lengthOf,freeOf,setLast,read64_write64_same,word_toNat h]
  rw [read64_write64_ne m _ (by omega),read64_write64_ne m _ (by omega), write64_outside m _ (by omega)]

theorem setNext_same (h : v < 2^64) : segmentHeader (setNext m a v) a = { segmentHeader m a with next := v } := by
  simp only [segmentHeader,lastOf,nextOf,lengthOf,freeOf,setNext,read64_write64_same,word_toNat h]
  rw [read64_write64_ne m _ (by omega),read64_write64_ne m _ (by omega), write64_outside m _ (by omega)]

theorem setLength_same (h : v < 2^64) : segmentHeader (setLength m a v) a = { segmentHeader m a with length := v } := by
  simp only [segmentHeader,lastOf,nextOf,lengthOf,freeOf,setLength,read64_write64_same,word_toNat h]
  rw [read64_write64_ne m _ (by omega),read64_write64_ne m _ (by omega), write64_outside m _ (by omega)]

theorem setFree_same (f : Bool) : segmentHeader (setFree m a f) a = { segmentHeader m a with free := f } := by
  simp only [segmentHeader,lastOf,nextOf,lengthOf,freeOf,setFree,write8_same]
  rw [read64_write8_ne m _ (by omega),read64_write8_ne m _ (by omega),
    read64_write8_ne m _ (by omega)]
  cases f <;> rfl

variable (m : Bytes) (a : Nat)
theorem lastOf_eq : lastOf m a = (segmentHeader m a).last := rfl
theorem nextOf_eq : nextOf m a = (segmentHeader m a).next := rfl
theorem lengthOf_eq : lengthOf m a = (segmentHeader m a).length := rfl
theorem freeOf_eq : freeOf m a = (segmentHeader m a).free := rfl
end

/-- Memory holds the segments `tiles`: their headers are linked both ways, they fill the heap
from its start to its end, and the bookkeeping variables agree. -/
structure Shaped (h : Heap) (tiles : List Tile) : Prop where
  start : h.sHeapStart = heapVirtualBase
  linked : Tile.Linked headerSize (segmentHeader h.memory) 0 0 heapVirtualBase tiles
  nonempty : tiles ≠ []
  filled : heapVirtualBase+Tile.span headerSize tiles = h.sHeapEnd
  final : final headerSize 0 heapVirtualBase tiles = h.sLastHeader
  pages : h.sHeapEnd = heapVirtualBase+pageSize * h.mapped.length
  fits : h.sHeapEnd < 2^64
  aligned : ∀ t ∈ tiles, 16 ∣ t.length

@[simp] theorem forward_mapped (h : Heap) (p : Nat) :
    (h.combineForward p).mapped = h.mapped := by
  unfold combineForward
  dsimp only
  split_ifs <;> rfl

@[simp] theorem backward_mapped (h : Heap) (p : Nat) :
    (h.combineBackward p).mapped = h.mapped := by
  unfold combineBackward
  dsimp only
  split_ifs <;> simp

variable {m : Bytes} {p n : Nat} {h : Heap} {s : Tile} {ws : List Tile}
theorem split_mapped {h' : Heap} (hsp : h.split p n = some h') : h'.mapped = h.mapped := by
  unfold split at hsp
  dsimp only at hsp
  split_ifs at hsp <;> (obtain rfl := Option.some.inj hsp; rfl)

def absorb (s : Tile) : List Tile → List Tile
  | [] => [s]
  | t :: ts => if t.free then ⟨s.length+t.length+headerSize,s.free⟩ :: ts else s :: t :: ts

private theorem base_pos : heapVirtualBase+n ≠ 0 := by
  unfold heapVirtualBase
  omega

theorem add64_lt {x y : Nat} (h : x+y < 2^64) : add64 x y = x+y := Nat.mod_eq_of_lt h

def bridged (m : Bytes) (p q following : Nat) : Bytes :=
  let m1 := if following = 0 then m else setLast m following p
  let m2 := setLength m1 p (add64 (add64 (lengthOf m1 p) (lengthOf m1 q)) headerSize)
  setNext m2 p (nextOf m2 q)

theorem bridged_apart {q following x : Nat} (hp : Apart p x)
    (hf : following ≠ 0 → Apart following x) :
    segmentHeader (bridged m p q following) x = segmentHeader m x := by
  unfold bridged
  rw [setNext_apart hp,setLength_apart hp]
  split_ifs with h0
  · rfl
  · exact setLast_apart (hf h0)

theorem bridged_self {q following : Nat} (hpq : Apart p q)
    (hp : following ≠ 0 → Apart following p) (hq : following ≠ 0 → Apart following q)
    (hl : lengthOf m p+lengthOf m q+headerSize < 2^64) :
    segmentHeader (bridged m p q following) p = { segmentHeader m p with
        next := (segmentHeader m q).next
        length := lengthOf m p+lengthOf m q+headerSize } := by
  have hf : ∀ x, (following ≠ 0 → Apart following x) →
      segmentHeader (if following = 0 then m else setLast m following p) x = segmentHeader m x := by
    intro x hx
    split_ifs with h0
    · rfl
    · exact setLast_apart (hx h0)
  have hn : (segmentHeader m q).next < 2^64 := BitVec.isLt _
  have hsu : lengthOf m p+lengthOf m q < 2^64 := by omega
  unfold bridged
  dsimp only
  rw [lengthOf_eq _ p,lengthOf_eq _ q,hf p hp,hf q hq,nextOf_eq,setLength_apart hpq,
    hf q hq,setNext_same hn,← lengthOf_eq,← lengthOf_eq,add64_lt hsu,add64_lt hl,
    setLength_same hl,hf p hp]

private theorem bridged_following {q following : Nat} (hp : Apart p following)
    (hf : following ≠ 0) (hl : p < 2^64) : segmentHeader (bridged m p q following) following =
      { segmentHeader m following with last := p } := by
  unfold bridged
  rw [setNext_apart hp,setLength_apart hp,if_neg hf,setLast_same hl]

private theorem front_of_ne_zero {r : Nat} {ts : List Tile} (h : front 0 r ts ≠ 0) : front 0 r ts = r := by
  cases ts with
  | nil => exact absurd rfl h
  | cons u us => rfl

private theorem bridged_linked {xs ts : List Tile} {t : Tile} {q r : Nat}
    (h : Tile.Linked headerSize (segmentHeader m) 0 0 heapVirtualBase (xs ++ s :: t :: ts))
    (hp : p = heapVirtualBase+Tile.span headerSize xs) (hq : q = p+(headerSize+s.length))
    (hr : r = q+(headerSize+t.length)) (hfi : r < 2^64) :
    Tile.Linked headerSize (segmentHeader (bridged m p q (front 0 r ts))) 0 0
      heapVirtualBase (xs ++ ⟨s.length+t.length+headerSize,s.free⟩ :: ts) := by
  obtain ⟨-,hh,hse,hri⟩ := linked_append.mp h
  rw [← hp] at hh
  rw [← hp,← hq] at hse hri
  rw [← hr] at hri
  have hl : lengthOf m p = s.length := by rw [lengthOf_eq,hh]
  have hlq : lengthOf m q = t.length := by rw [lengthOf_eq,hse]
  have hsi : headerSize = 32 := rfl
  have hf : ∀ x, Apart r x → front 0 r ts ≠ 0 → Apart (front 0 r ts) x := by
    intro x hx h0
    rwa [front_of_ne_zero h0]
  have hpq : Apart p q := by unfold Apart; omega
  have hrp : Apart r p := by unfold Apart; omega
  have hrq : Apart r q := by unfold Apart; omega
  have hsel := bridged_self hpq (hf p hrp) (hf q hrq) (by rw [hl,hlq]; omega)
  rw [hl,hlq] at hsel
  refine h.merge hp hq hsel ?_ ?_
  · intro x hx
    have hb := locate_bounds hx
    exact bridged_apart (by unfold Apart; omega) (hf x.1 (by unfold Apart; omega))
  rw [← hr]
  cases ts with
  | nil => trivial
  | cons u us =>
    refine hri.relast p (bridged_following hrp.symm ?_ (by omega)) ?_
    · rw [front]
      omega
    intro x hx
    have hb := locate_bounds hx
    exact bridged_apart (by unfold Apart; omega) (hf x.1 (by unfold Apart; omega))

private theorem bridged_final {xs ts : List Tile} {t : Tile} {q : Nat}
    (hp : p = heapVirtualBase+Tile.span headerSize xs) (hq : q = p+(headerSize+s.length)) :
    final headerSize 0 heapVirtualBase (xs ++ ⟨s.length+t.length+headerSize,s.free⟩ :: ts) =
      if q = final headerSize 0 heapVirtualBase (xs ++ s :: t :: ts) then p
      else final headerSize 0 heapVirtualBase (xs ++ s :: t :: ts) := by
  have he : p+(headerSize+(s.length+t.length+headerSize)) = q+(headerSize+t.length) := by omega
  rw [final_append,final_append]
  simp only [final,← hp,← hq,he]
  cases ts with
  | nil => rw [final,final,if_pos rfl]
  | cons u us =>
    obtain ⟨v,hv⟩ := final_mem_locate headerSize q (q+(headerSize+t.length)) (cons_ne_nil u us)
    have hb := (locate_bounds hv).1
    have hsi : headerSize = 32 := rfl
    rw [if_neg (by omega)]
    rfl

variable {xs ys : List Tile}
theorem forward_shaped
    (hs : h.Shaped (xs ++ s :: ys)) (hp : p = heapVirtualBase+Tile.span headerSize xs) :
    (h.combineForward p).Shaped (xs ++ absorb s ys) := by
  obtain ⟨-,hh,hre⟩ := linked_append.mp hs.linked
  rw [← hp] at hh hre
  unfold combineForward
  cases ys with
  | nil =>
    have hn : nextOf h.memory p = 0 := by rw [nextOf_eq,hh]; rfl
    rw [if_pos hn]
    exact hs
  | cons t ts =>
    obtain ⟨q,hq⟩ : ∃ q, q = p+(headerSize+s.length) := ⟨_,rfl⟩
    obtain ⟨r,hr⟩ : ∃ r, r = q+(headerSize+t.length) := ⟨_,rfl⟩
    obtain ⟨hse,-⟩ := hre
    rw [← hq,← hr] at hse
    have hn : nextOf h.memory p = q := by rw [nextOf_eq,hh,hq]; rfl
    have hfr : freeOf h.memory q = t.free := by rw [freeOf_eq,hse]
    have hf : nextOf h.memory q = front 0 r ts := by rw [nextOf_eq,hse]
    have hq0 : q ≠ 0 := by rw [hq,hp,add_assoc]; exact base_pos
    rw [hn,if_neg hq0,hfr]
    by_cases ht : t.free = false
    · rw [if_pos ht,absorb,if_neg (by simp [ht])]
      exact hs
    have ht' : t.free = true := by simpa using ht
    rw [if_neg ht,absorb,if_pos ht',hf]
    have hsp := hs.filled
    have hfi := hs.fits
    simp only [span_append,Tile.span] at hsp
    refine ⟨hs.start,?_,by simp,?_,?_,hs.pages,hs.fits,?_⟩
    · exact bridged_linked hs.linked hp hq hr (by omega)
    · rw [← hsp]
      simp only [span_append,Tile.span]
      omega
    · rw [bridged_final hp hq,hs.final]
    intro x hx
    have ha := hs.aligned
    simp only [mem_append,mem_cons] at hx ha
    rcases hx with hx | rfl | hx
    · exact ha x (.inl hx)
    · have h1 := ha s (.inr (.inl rfl))
      have h2 := ha t (.inr (.inr (.inl rfl)))
      unfold headerSize
      dsimp only
      omega
    · exact ha x (.inr (.inr (.inr hx)))

theorem backward_first {ys : List Tile} (hs : h.Shaped (s :: ys)) : h.combineBackward heapVirtualBase = h := by
  have hl : lastOf h.memory heapVirtualBase = 0 := by rw [lastOf_eq,hs.linked.1]
  unfold combineBackward
  rw [if_pos hl]

theorem backward_shaped {ys : List Tile} {w : Tile} (hs : h.Shaped (ws ++ w :: s :: ys))
    (hp : p = heapVirtualBase+Tile.span headerSize ws+(headerSize+w.length)) :
    (h.combineBackward p).Shaped (ws ++ if w.free then absorb w (s :: ys) else w :: s :: ys) := by
  obtain ⟨-,hf,hse,-⟩ := linked_append.mp hs.linked
  rw [← hp] at hse
  have hl : lastOf h.memory p = heapVirtualBase+Tile.span headerSize ws := by rw [lastOf_eq,hse]
  have hfr : freeOf h.memory (heapVirtualBase+Tile.span headerSize ws) = w.free := by rw [freeOf_eq,hf]
  unfold combineBackward
  rw [hl,if_neg base_pos,hfr]
  cases hw : w.free with
  | false => exact hs
  | true => exact forward_shaped hs rfl

private theorem span_mark (xs ys : List Tile) (t : Tile) (b : Bool) :
    Tile.span headerSize (xs ++ { t with free := b } :: ys) =
      Tile.span headerSize (xs ++ t :: ys) := by simp [span_append,Tile.span]

private theorem final_mark (prev a : Nat) (xs ys : List Tile) (t : Tile) (b : Bool) :
    final headerSize prev a (xs ++ { t with free := b } :: ys) =
      final headerSize prev a (xs ++ t :: ys) := by simp [final_append,final]

theorem setFree_shaped {t : Tile}
    (hs : h.Shaped (xs ++ t :: ys)) (hp : p = heapVirtualBase+Tile.span headerSize xs) (b : Bool) :
    Shaped { h with memory := setFree h.memory p b } (xs ++ { t with free := b } :: ys) := by
  refine ⟨hs.start,?_,by simp,?_,?_,hs.pages,hs.fits,?_⟩
  · refine hs.linked.mark b ?_ ?_ ?_
    · rw [← hp]
      exact setFree_same b
    all_goals
      intro x hx
      have hb := locate_bounds hx
      exact setFree_apart (by unfold Apart; omega)
  · rw [span_mark]
    exact hs.filled
  · rw [final_mark]
    exact hs.final
  intro x hx
  have ha := hs.aligned
  simp only [mem_append,mem_cons] at hx ha
  rcases hx with hx | rfl | hx
  · exact ha x (.inl hx)
  · exact ha t (.inr (.inl rfl))
  · exact ha x (.inr (.inr hx))

def parted (m : Bytes) (p c next n rest : Nat) : Bytes :=
  let m1 := if next = 0 then setNext m c 0 else setNext (setLast m next c) c next
  let m2 := setNext m1 p c
  let m3 := setLast m2 c p
  let m4 := setLength m3 p n
  let m5 := setLength m4 c rest
  setFree m5 c (freeOf m5 p)

private theorem parted_first {c next x : Nat} (hc : Apart c x) (hn : next ≠ 0 → Apart next x) :
    segmentHeader (if next = 0 then setNext m c 0 else setNext (setLast m next c) c next) x =
      segmentHeader m x := by
  split_ifs with h0
  · exact setNext_apart hc
  · rw [setNext_apart hc,setLast_apart (hn h0)]

theorem parted_apart {c next rest x : Nat} (hp : Apart p x)
    (hc : Apart c x) (hn : next ≠ 0 → Apart next x) :
    segmentHeader (parted m p c next n rest) x = segmentHeader m x := by
  unfold parted
  rw [setFree_apart hc,setLength_apart hc,setLength_apart hp,setLast_apart hc, setNext_apart hp,parted_first hc hn]

section
variable {m : Bytes} {p c next n rest : Nat}
theorem parted_self (hcp : Apart c p)
    (hn : next ≠ 0 → Apart next p) (hc : c < 2^64) (hl : n < 2^64) :
    segmentHeader (parted m p c next n rest) p =
      { segmentHeader m p with next := c, length := n } := by
  unfold parted
  rw [setFree_apart hcp,setLength_apart hcp,setLength_same hl,setLast_apart hcp, setNext_same hc,parted_first hcp hn]

theorem parted_new (hpc : Apart p c)
    (hnp : next ≠ 0 → Apart next p) (hp : p < 2^64) (hc : c < 2^64) (hn : next < 2^64)
    (hle : n < 2^64) (hr : rest < 2^64) : segmentHeader (parted m p c next n rest) c =
      ⟨p,next,rest,(segmentHeader m p).free⟩ := by
  have hl : (segmentHeader
      (if next = 0 then setNext m c 0 else setNext (setLast m next c) c next) c).next = next := by
    split_ifs with h0
    · rw [setNext_same (by decide),h0]
    · rw [setNext_same hn]
  unfold parted
  dsimp only
  rw [freeOf_eq,setLength_apart hpc.symm,setLength_same hle,setLast_apart hpc.symm,
    setNext_same hc,parted_first hpc.symm hnp,setFree_same,setLength_same hr,
    setLength_apart hpc,setLast_same hp,setNext_apart hpc]
  simp [hl]

private theorem parted_next (hp : Apart p next)
    (hc : Apart c next) (h0 : next ≠ 0) (hl : c < 2^64) :
    segmentHeader (parted m p c next n rest) next = { segmentHeader m next with last := c } := by
  unfold parted
  rw [setFree_apart hc,setLength_apart hc,setLength_apart hp,setLast_apart hc,
    setNext_apart hp,if_neg h0,setNext_apart hc,setLast_same hl]
end

private theorem parted_linked {rest c r : Nat}
    (h : Tile.Linked headerSize (segmentHeader m) 0 0 heapVirtualBase (xs ++ s :: ys))
    (hp : p = heapVirtualBase+Tile.span headerSize xs) (hc : c = p+(headerSize+n))
    (hr : r = p+(headerSize+s.length)) (hl : s.length = n+headerSize+rest) (hfi : r < 2^64) :
    Tile.Linked headerSize (segmentHeader (parted m p c (front 0 r ys) n rest)) 0 0
      heapVirtualBase (xs ++ ⟨n,s.free⟩ :: ⟨rest,s.free⟩ :: ys) := by
  obtain ⟨-,hh,hri⟩ := linked_append.mp h
  rw [← hp,← hr] at hh hri
  have hsi : headerSize = 32 := rfl
  have hf : ∀ x, Apart r x → front 0 r ys ≠ 0 → Apart (front 0 r ys) x := by
    intro x hx h0
    rwa [front_of_ne_zero h0]
  have hcp : Apart c p := by unfold Apart; omega
  have hrp : Apart r p := by unfold Apart; omega
  have hrc : Apart r c := by unfold Apart; omega
  have hn : front 0 r ys < 2^64 := by
    by_cases h0 : front 0 r ys = 0
    · omega
    · rwa [front_of_ne_zero h0]
  have hne : segmentHeader (parted m p c (front 0 r ys) n rest) c = ⟨p,(segmentHeader m p).next,rest,s.free⟩ := by
    rw [parted_new hcp.symm (hf p hrp) (by omega) (by omega) hn (by omega) (by omega),hh]
  refine h.cut hp hc hl (parted_self hcp (hf p hrp) (by omega) (by omega)) hne ?_ ?_
  · intro x hx
    have hb := locate_bounds hx
    exact parted_apart (by unfold Apart; omega) (by unfold Apart; omega) (hf x.1 (by unfold Apart; omega))
  rw [← hr]
  cases ys with
  | nil => trivial
  | cons u us =>
    refine hri.relast c (parted_next hrp.symm hrc.symm ?_ (by omega)) ?_
    · rw [front]
      omega
    intro x hx
    have hb := locate_bounds hx
    exact parted_apart (by unfold Apart; omega) (by unfold Apart; omega) (hf x.1 (by unfold Apart; omega))

private theorem parted_final {rest c : Nat}
    (hp : p = heapVirtualBase+Tile.span headerSize xs) (hc : c = p+(headerSize+n))
    (hl : s.length = n+headerSize+rest) :
    final headerSize 0 heapVirtualBase (xs ++ ⟨n,s.free⟩ :: ⟨rest,s.free⟩ :: ys) =
      if front 0 (p+(headerSize+s.length)) ys = 0 then c
      else final headerSize 0 heapVirtualBase (xs ++ s :: ys) := by
  have he : c+(headerSize+rest) = p+(headerSize+s.length) := by omega
  rw [final_append,final_append]
  simp only [final,← hp,← hc,he]
  cases ys with
  | nil => rw [final,front,if_pos rfl]
  | cons u us =>
    rw [front,if_neg (by rw [hp,add_assoc]; exact base_pos)]
    rfl

section
variable {h : Heap} {xs ys : List Tile} {s : Tile} {p n : Nat} (hs : h.Shaped (xs ++ s :: ys))
  (hp : p = heapVirtualBase+Tile.span headerSize xs)
include hs hp
theorem split_shaped (hn : heapByteAlign ≤ n) (hd : 16 ∣ n)
    (hlo : n+headerSize+heapByteAlign ≤ s.length) : ∃ h', h.split p n = some h' ∧
      h'.Shaped (xs ++ ⟨n,s.free⟩ :: ⟨s.length-n-headerSize,s.free⟩ :: ys) := by
  obtain ⟨-,hh,-⟩ := linked_append.mp hs.linked
  rw [← hp] at hh
  obtain ⟨rest,hr⟩ : ∃ rest, s.length = n+headerSize+rest := ⟨s.length-n-headerSize,by omega⟩
  have hle : s.length-n-headerSize = rest := by omega
  have hl : lengthOf h.memory p = s.length := by rw [lengthOf_eq,hh]
  have hne : nextOf h.memory p = front 0 (p+(headerSize+s.length)) ys := by rw [nextOf_eq,hh]
  have hsp := hs.filled
  have hf := hs.fits
  simp only [span_append,Tile.span] at hsp
  have hc : add64 (add64 p headerSize) n = p+(headerSize+n) := by
    have hi : add64 p headerSize = p+headerSize := add64_lt (by omega)
    rw [hi,add64_lt (by omega),add_assoc]
  unfold split
  dsimp only
  rw [hl,hne,hc,hle,add64_lt (by omega),if_neg (by omega),if_neg (by omega), if_neg (by omega)]
  refine ⟨_,rfl,hs.start,?_,by simp,?_,?_,hs.pages,hs.fits,?_⟩
  · exact parted_linked hs.linked hp rfl rfl hr (by omega)
  · change _ = h.sHeapEnd
    rw [← hsp]
    simp only [span_append,Tile.span]
    omega
  · rw [parted_final hp rfl hr,hs.final]
  intro x hx
  have ha := hs.aligned
  simp only [mem_append,mem_cons] at hx ha
  have h1 := ha s (.inr (.inl rfl))
  have hsi : headerSize = 32 := rfl
  rcases hx with hx | rfl | rfl | hx
  · exact ha x (.inl hx)
  · exact hd
  · dsimp only
    omega
  · exact ha x (.inr (.inr hx))

theorem split_none (hn : n+headerSize < 2^64) (hsh : s.length < n+headerSize+heapByteAlign) :
    h.split p n = none := by
  obtain ⟨-,hh,-⟩ := linked_append.mp hs.linked
  rw [← hp] at hh
  have hl : lengthOf h.memory p = s.length := by rw [lengthOf_eq,hh]
  unfold split
  dsimp only
  rw [hl,add64_lt hn]
  split_ifs with hf ha hle
  · rfl
  · rfl
  · rfl
  · omega
end

section
variable {h h' : Heap} {clear : Bool} {count index : Nat} (hok : h.mapNewPages clear count index = .ok h')
include hok
theorem mapNew_length : h'.mapped.length = h.mapped.length+count := by
  induction count generalizing h index with
  | zero =>
    cases hok
    rfl
  | succ count ih =>
    simp only [mapNewPages] at hok
    split at hok
    · cases hok
    · rw [ih hok,length_cons]
      omega

theorem mapNew_frame (hf : h.sHeapEnd+(index+count) * pageSize < 2^64) :
    h'.sHeapStart = h.sHeapStart ∧ h'.sHeapEnd = h.sHeapEnd ∧ h'.sLastHeader = h.sLastHeader ∧
      ∀ x < h.sHeapEnd, h'.memory x = h.memory x := by
  induction count generalizing h index with
  | zero =>
    cases hok
    exact ⟨rfl,rfl,rfl,fun _ _ => rfl⟩
  | succ count ih =>
    have hpa : h.sHeapEnd+index * pageSize < 2^64 :=
      (Nat.add_le_add_left (Nat.mul_le_mul_right _ (Nat.le_add_right _ _)) _).trans_lt hf
    simp only [mapNewPages] at hok
    split at hok
    · cases hok
    have hr := ih hok (by rw [add_right_comm,add_assoc]; exact hf)
    refine ⟨hr.1,hr.2.1,hr.2.2.1,?_⟩
    intro x hx
    rw [hr.2.2.2 x hx]
    split_ifs with hc
    · refine fill_outside _ _ (.inl ?_)
      rw [add64_lt hpa]
      omega
    · rfl
end

def extended (m : Bytes) (p e n : Nat) : Bytes := let m1 := setFree m e true
  let m2 := setLast m1 e p
  let m3 := setNext m2 p e
  let m4 := setNext m3 e 0
  setLength m4 e n

theorem extended_apart {e x : Nat} (hp : Apart p x) (he : Apart e x) :
    segmentHeader (extended m p e n) x = segmentHeader m x := by
  unfold extended
  rw [setLength_apart he,setNext_apart he,setNext_apart hp,setLast_apart he,setFree_apart he]

theorem extended_last {e : Nat} (hep : Apart e p) (he : e < 2^64) :
    segmentHeader (extended m p e n) p = { segmentHeader m p with next := e } := by
  unfold extended
  rw [setLength_apart hep,setNext_apart hep,setNext_same he,setLast_apart hep,setFree_apart hep]

theorem extended_new {e : Nat} (hpe : Apart p e) (hp : p < 2^64)
    (hn : n < 2^64) : segmentHeader (extended m p e n) e = ⟨p,0,n,true⟩ := by
  unfold extended
  rw [setLength_same hn,setNext_same (by decide),setNext_apart hpe,setLast_same hp,setFree_same]

private theorem extended_linked {w : Tile} {e : Nat}
    (h : Tile.Linked headerSize (segmentHeader m) 0 0 heapVirtualBase (ws ++ [w]))
    (hp : p = heapVirtualBase+Tile.span headerSize ws) (he : e = p+(headerSize+w.length))
    (hlt : e < 2^64) (hn : n < 2^64) :
    Tile.Linked headerSize (segmentHeader (extended m p e n)) 0 0 heapVirtualBase
      (ws ++ w :: [⟨n,true⟩]) := by
  have hep : Apart e p := by unfold Apart; omega
  have hl : Tile.Linked headerSize (segmentHeader (extended m p e n)) e 0 heapVirtualBase (ws ++ [w]) := by
    refine h.renext e ?_ ?_
    · rw [← hp]
      exact extended_last hep hlt
    intro x hx
    have hbo := locate_bounds hx
    exact extended_apart (by unfold Apart; omega) (by unfold Apart; omega)
  obtain ⟨hb,hla,-⟩ := linked_append.mp hl
  refine linked_append.mpr ⟨hb,?_,?_,trivial⟩
  · rw [hla,he,hp]
    rfl
  · rw [← hp,← he]
    exact extended_new hep.symm (by omega) hn

theorem ok_of_bind {ε α β : Type} {x : Except ε α} {f : α → Except ε β} {b : β} (h : x.bind f = .ok b) :
    ∃ a, x = .ok a ∧ f a = .ok b := by
  cases x with
  | error => cases h
  | ok a => exact ⟨a,rfl,h⟩

theorem expand_mapped {h' : Heap} (hok : h.expandHeap n = .ok h') :
    h'.mapped.length = h.mapped.length+(n / pageSize+1) := by
  obtain ⟨g,hm,hok⟩ := ok_of_bind hok
  cases hok
  rw [backward_mapped]
  change g.mapped.length = _
  exact mapNew_length hm

theorem expand_shaped {h' : Heap} {w : Tile}
    (hs : h.Shaped (ws ++ [w])) (hok : h.expandHeap n = .ok h')
    (hfit : heapVirtualBase+pageSize * h'.mapped.length < 2^64) : h'.Shaped (ws ++
      if w.free then absorb w [⟨(n / pageSize+1) * pageSize-headerSize,true⟩]
      else w :: [⟨(n / pageSize+1) * pageSize-headerSize,true⟩]) := by
  rw [expand_mapped hok] at hfit
  obtain ⟨g,hm,hok⟩ := ok_of_bind hok
  cases hok
  have hpa := hs.pages
  have hb : h.sHeapEnd+(n / pageSize+1) * pageSize < 2^64 := by
    unfold pageSize at *
    omega
  obtain ⟨hst,hen,hla,hme⟩ := mapNew_frame hm (by rwa [zero_add])
  have hl := mapNew_length hm
  have hsi : headerSize = 32 := rfl
  have hf := hs.filled
  simp only [span_append,Tile.span,add_zero] at hf
  have hfi : g.sLastHeader = heapVirtualBase+Tile.span headerSize ws := by
    rw [hla,← hs.final,final_append]
    rfl
  have he' : g.sHeapEnd = g.sLastHeader+(headerSize+w.length) := by omega
  have hli : Tile.Linked headerSize (segmentHeader g.memory) 0 0 heapVirtualBase (ws ++ [w]) := by
    refine hs.linked.congr fun x hx => header_congr fun y hy hlt => hme y ?_
    have hbo := locate_bounds hx
    have hf' := hs.filled
    omega
  have he : Shaped { g with
      memory := extended g.memory g.sLastHeader g.sHeapEnd
        ((n / pageSize+1) * pageSize-headerSize)
      sHeapEnd := add64 g.sHeapEnd ((n / pageSize+1) * pageSize)
      sLastHeader := g.sHeapEnd }
      (ws ++ w :: [⟨(n / pageSize+1) * pageSize-headerSize,true⟩]) := by
    refine ⟨hst.trans hs.start,?_,by simp,?_,?_,?_,?_,?_⟩
    · exact extended_linked hli hfi he' (by omega) (by omega)
    · change _ = add64 g.sHeapEnd _
      rw [add64_lt (by omega)]
      simp only [span_append,Tile.span,add_zero]
      unfold pageSize
      omega
    · change _ = g.sHeapEnd
      rw [final_append,he',hfi]
      rfl
    · change add64 g.sHeapEnd _ = _+_ * g.mapped.length
      rw [add64_lt (by omega),hl]
      unfold pageSize at *
      omega
    · change add64 g.sHeapEnd _ < _
      exact Nat.mod_lt _ (by decide)
    intro x hx
    have ha := hs.aligned
    simp only [mem_append,mem_cons,not_mem_nil,or_false] at hx ha
    rcases hx with hx | rfl | rfl
    · exact ha x (.inl hx)
    · exact ha x (.inr rfl)
    dsimp only
    unfold pageSize headerSize
    omega
  exact backward_shaped he (by omega)
end Heap
end LensorOS.Memory
