import LensorOS.Framework.Run
import LensorOS.Memory.HeapSegments
import Mathlib.Data.List.Chain

/-!
# Safety of heap allocation

Every run of `malloc` and `free` keeps the segment list intact and keeps the blocks handed
out apart from each other and from the headers.
-/
namespace LensorOS.Memory
open Framework List Option Heap
open Tile hiding span
variable {tiles : List Tile} {h : Heap} {n address : Nat} {x : Nat × Tile}
namespace Heap
/-- A segment that `malloc` takes for a rounded request: an exact match, or one from which
a usable segment is left over. -/
def Usable (n : Nat) (t : Tile) : Prop := t.free = true ∧ (t.length = n ∨ n+headerSize+heapByteAlign ≤ t.length)

def takenFrom (n : Nat) (s : Tile) (rest : List Tile) : List Tile :=
  if s.length = n then ⟨n,false⟩ :: rest
  else ⟨n,false⟩ :: ⟨s.length-n-headerSize,true⟩ :: rest

variable {fuel : Nat} {fault : HeapFault}
theorem search_mapped {current : Nat} {r : Nat × Heap}
    (ho : h.searchSegments n fuel current = .ok (some r)) : r.2.mapped = h.mapped := by
  induction fuel generalizing current with
  | zero => cases ho
  | succ fuel ih =>
    have ha : (if nextOf h.memory current = 0 then Except.ok none
        else searchSegments h n fuel (nextOf h.memory current)) = .ok (some r) →
        r.2.mapped = h.mapped := by
      intro hn
      split_ifs at hn
      · cases hn
      · exact ih hn
    simp only [searchSegments] at ho
    by_cases hu : freeOf h.memory current = false
    · rw [if_pos hu] at ho
      exact ha ho
    rw [if_neg hu] at ho
    by_cases hl : n < lengthOf h.memory current
    · rw [if_pos hl] at ho
      cases hsp : h.split current n with
      | none =>
        rw [hsp] at ho
        exact ha ho
      | some g =>
        rw [hsp] at ho
        obtain rfl := some.inj (Except.ok.inj ho)
        change g.mapped = h.mapped
        exact split_mapped hsp
    rw [if_neg hl] at ho
    by_cases he : lengthOf h.memory current = n
    · rw [if_pos he] at ho
      obtain rfl := some.inj (Except.ok.inj ho)
      rfl
    · rw [if_neg he] at ho
      exact ha ho

private theorem search_head {xs ys : List Tile} {s : Tile} {p : Nat}
    (fuel : Nat) (hs : h.Shaped (xs ++ s :: ys)) (hp : p = heapVirtualBase+Tile.span headerSize xs)
    (hn : heapByteAlign ≤ n) (hd : 16 ∣ n) (hb : n+headerSize < 2^64) :
    (Usable n s ∧ ∃ g, h.searchSegments n (fuel+1) p = .ok (some (p+headerSize,g)) ∧
        g.Shaped (xs ++ takenFrom n s ys)) ∨ (¬ Usable n s ∧ h.searchSegments n (fuel+1) p =
        if front 0 (p+(headerSize+s.length)) ys = 0 then .ok none
        else h.searchSegments n fuel (p+(headerSize+s.length))) := by
  have hv := hs.linked.view_eq
  rw [← hp] at hv
  have hne : nextOf h.memory p = front 0 (p+(headerSize+s.length)) ys := by rw [nextOf_eq,hv]
  have hl : lengthOf h.memory p = s.length := by rw [lengthOf_eq,hv]
  have hfr : freeOf h.memory p = s.free := by rw [freeOf_eq,hv]
  have hf := hs.filled
  have hfi := hs.fits
  simp only [span_append,Tile.span] at hf
  have hpa : add64 p headerSize = p+headerSize := Nat.mod_eq_of_lt (by omega)
  have ha : (if front 0 (p+(headerSize+s.length)) ys = 0 then
        (Except.ok none : Except HeapFault (Option (Nat × Heap)))
      else h.searchSegments n fuel (front 0 (p+(headerSize+s.length)) ys)) =
      if front 0 (p+(headerSize+s.length)) ys = 0 then .ok none
      else h.searchSegments n fuel (p+(headerSize+s.length)) := by
    cases ys with
    | nil => rfl
    | cons t ts => rfl
  simp only [searchSegments]
  rw [hfr,hl,hne,hpa,ha]
  by_cases hus : s.free = false
  · right
    rw [if_pos hus]
    exact ⟨fun hu => by simp [hu.1] at hus,rfl⟩
  have ho : s.free = true := by simpa using hus
  rw [if_neg hus]
  by_cases hlo : n < s.length
  · rw [if_pos hlo]
    by_cases hfit : n+headerSize+heapByteAlign ≤ s.length
    · left
      obtain ⟨g,hsp,hg⟩ := split_shaped hs hp hn hd hfit
      rw [hsp]
      refine ⟨⟨ho,.inr hfit⟩,_,rfl,?_⟩
      have ht := setFree_shaped hg hp false
      rw [ho] at ht
      rwa [takenFrom,if_neg hlo.ne']
    · right
      rw [split_none hs hp hb (by omega)]
      refine ⟨fun hu => ?_,rfl⟩
      rcases hu.2 with hu | hu
      · omega
      · exact hfit hu
  · rw [if_neg hlo]
    by_cases he : s.length = n
    · left
      rw [if_pos he]
      refine ⟨⟨ho,.inl he⟩,_,rfl,?_⟩
      have ht := setFree_shaped hs hp false
      rw [he] at ht
      rwa [takenFrom,if_pos he]
    right
    rw [if_neg he]
    refine ⟨fun hu => ?_,rfl⟩
    rcases hu.2 with hu | hu
    · exact he hu
    · omega

theorem search_spec {xs ys : List Tile} {p : Nat} (hs : h.Shaped (xs ++ ys)) (hy : ys ≠ [])
    (hp : p = heapVirtualBase+Tile.span headerSize xs) (hfu : ys.length ≤ fuel)
    (hn : heapByteAlign ≤ n) (hd : 16 ∣ n) (hb : n+headerSize < 2^64) :
    (∃ ws s zs g, xs ++ ys = ws ++ s :: zs ∧ Usable n s ∧ g.Shaped (ws ++ takenFrom n s zs) ∧
        h.searchSegments n fuel p =
          .ok (some (heapVirtualBase+Tile.span headerSize ws+headerSize,g))) ∨
      (h.searchSegments n fuel p = .ok none ∧ ∀ t ∈ ys, ¬ Usable n t) := by
  induction fuel generalizing xs ys p with
  | zero => exact absurd (length_eq_zero_iff.mp (by omega)) hy
  | succ fuel ih =>
    cases ys with
    | nil => exact absurd rfl hy
    | cons s ys =>
      rcases search_head fuel hs hp hn hd hb with
        ⟨hus,g,ho,hg⟩ | ⟨hno,ho⟩
      · left
        exact ⟨xs,s,ys,g,rfl,hus,hg,by rw [ho,hp]⟩
      rw [ho]
      cases ys with
      | nil =>
        right
        rw [front,if_pos rfl]
        refine ⟨rfl,fun t ht => ?_⟩
        obtain rfl := mem_singleton.mp ht
        exact hno
      | cons t ts =>
        have hne : p+(headerSize+s.length) ≠ 0 := by
          rw [hp]
          unfold heapVirtualBase
          omega
        rw [front,if_neg hne]
        have hs' : h.Shaped ((xs ++ [s]) ++ t :: ts) := by simpa using hs
        have hp' : p+(headerSize+s.length) = heapVirtualBase+Tile.span headerSize (xs ++ [s]) := by
          simp only [span_append,Tile.span]
          omega
        have hf' : (t :: ts).length ≤ fuel := by
          simp only [length_cons] at hfu ⊢
          omega
        rcases ih hs' (cons_ne_nil t ts) hp' hf' with
          ⟨ws,u,zs,g,heq,hf⟩ | ⟨he,ha⟩
        · left
          exact ⟨ws,u,zs,g,by simpa using heq,hf⟩
        right
        refine ⟨he,fun u hu => ?_⟩
        rcases mem_cons.mp hu with rfl | hu
        · exact hno
        · exact ha u hu

def InUse (tiles : List Tile) (x : Nat × Tile) : Prop := x ∈ locate headerSize heapVirtualBase tiles ∧ x.2.free = false

def usedFrom (a : Nat) (tiles : List Tile) : List (Nat × Tile) := (locate headerSize a tiles).filter fun x => !x.2.free

def Coalesced (tiles : List Tile) : Prop := tiles.IsChain fun s t => s.free = true → t.free = false

section
variable {a n : Nat} {s e : Tile} {xs ys : List Tile} {x : Nat × Tile}
theorem inUse_iff : InUse xs x ↔ x ∈ usedFrom heapVirtualBase xs := by simp [InUse,usedFrom]

@[simp] theorem usedFrom_nil (a : Nat) : usedFrom a [] = [] := rfl

theorem used_append (a : Nat) (xs ys : List Tile) :
    usedFrom a (xs ++ ys) = usedFrom a xs ++ usedFrom (a+Tile.span headerSize xs) ys := by
  simp [usedFrom,locate_append]

theorem used_cons (a : Nat) (t : Tile) (ts : List Tile) : usedFrom a (t :: ts) =
    (if t.free then [] else [(a,t)]) ++ usedFrom (a+(headerSize+t.length)) ts := by
  cases ht : t.free <;> simp [usedFrom,locate,ht]

theorem nodup_used : ((usedFrom a xs).map Prod.fst).Nodup := by
  induction xs generalizing a with
  | nil => exact nodup_nil
  | cons t ts ih =>
    rw [used_cons]
    cases t.free with
    | true => exact ih
    | false =>
      refine nodup_cons.mpr ⟨fun hm => ?_,ih⟩
      obtain ⟨x,hx,he⟩ := mem_map.mp hm
      have hb := (locate_bounds (mem_of_mem_filter hx)).1
      unfold headerSize at hb
      omega

theorem used_absorb (hf : s.free = true) :
    usedFrom a (absorb s ys) = usedFrom a (s :: ys) := by
  cases ys with
  | nil => rfl
  | cons t ts =>
    rw [absorb]
    split_ifs with ht
    · have he : a+(headerSize+(s.length+t.length+headerSize)) =
          a+(headerSize+s.length)+(headerSize+t.length) := by omega
      simp [used_cons,hf,ht,he]
    · rfl

theorem used_takenFrom (hu : Usable n s) :
    usedFrom a (takenFrom n s ys) = (a, ⟨n,false⟩) :: usedFrom a (s :: ys) := by
  rw [takenFrom]
  split_ifs with hn
  · simp [used_cons,hu.1,hn]
  have hl := hu.2.resolve_left hn
  have he : a+(headerSize+n)+(headerSize+(s.length-n-headerSize)) = a+(headerSize+s.length) := by omega
  simp [used_cons,hu.1,he]

theorem used_expanded (he : e.free = true) :
    usedFrom a (xs ++ if s.free then absorb s [e] else s :: [e]) = usedFrom a (xs ++ [s]) := by
  cases hs : s.free with
  | false => simp [used_append,used_cons,he]
  | true => simp [used_append,used_absorb hs,used_cons,he]

theorem coalesced_absorb (hy : Coalesced ys) : Coalesced (absorb s ys) := by
  cases ys with
  | nil => exact isChain_singleton s
  | cons t ts =>
    rw [absorb]
    split_ifs with ht
    · refine isChain_cons.mpr ⟨fun u hu _ => ?_,hy.tail⟩
      exact (isChain_cons.mp hy).1 u hu ht
    · exact isChain_cons_cons.mpr ⟨fun _ => by simpa using ht,hy⟩

theorem coalesced_concat (hx : Coalesced (xs ++ [s])) (hy : Coalesced ys) :
    Coalesced (xs ++ if s.free then absorb s ys else s :: ys) := by
  obtain ⟨hl,-,hj⟩ := isChain_append.mp hx
  cases hs : s.free with
  | false =>
    refine isChain_append.mpr ⟨hl,?_,fun u hu v hv _ => ?_⟩
    · exact isChain_cons.mpr ⟨fun v _ ht => by simp [hs] at ht,hy⟩
    · rw [← some.inj hv,hs]
  | true =>
    refine isChain_append.mpr ⟨hl,coalesced_absorb hy,fun u hu v _ hf => ?_⟩
    cases (hj u hu s rfl hf).symm.trans hs

theorem coalesced_takenFrom (h : Coalesced (xs ++ s :: ys)) (hf : s.free = true) :
    Coalesced (xs ++ takenFrom n s ys) := by
  obtain ⟨hl,hr,-⟩ := isChain_append.mp h
  obtain ⟨hn,hre⟩ := isChain_cons.mp hr
  have hu : ∀ zs, Coalesced zs → Coalesced (xs ++ (⟨n,false⟩ : Tile) :: zs) := by
    intro zs hz
    refine isChain_append.mpr ⟨hl,isChain_cons.mpr ⟨?_,hz⟩,fun u _ v hv _ => ?_⟩
    · simp
    · rw [← some.inj hv]
  rw [takenFrom]
  split_ifs
  · exact hu ys hre
  · exact hu _ (isChain_cons.mpr ⟨fun v hv _ => hn v hv hf,hre⟩)
end

theorem roundUp_spec (hn : 0 < n) : heapByteAlign ≤ roundUp n ∧ 16 ∣ roundUp n ∧ n ≤ roundUp n ∧ roundUp n ≤ n+15 := by
  unfold roundUp heapByteAlign
  split_ifs <;> omega

theorem roundUp_of_dvd (h : 16 ∣ n) : roundUp n = n := by
  rw [roundUp,if_neg]
  unfold heapByteAlign
  omega

theorem malloc_mapped {h' : Heap} {p : Nat} (ho : mallocBounded fuel h n = .ok (p,h')) :
    h.mapped.length ≤ h'.mapped.length ∧
      h'.mapped.length ≤ h.mapped.length+(fuel-1) * (roundUp n / pageSize+1) := by
  induction fuel generalizing h n with
  | zero => cases ho
  | succ fuel ih =>
    simp only [mallocBounded] at ho
    split_ifs at ho with hz
    · obtain ⟨-,rfl⟩ := Prod.mk.inj (Except.ok.inj ho)
      exact ⟨le_rfl,Nat.le_add_right _ _⟩
    split at ho
    · cases ho
    · next r hse =>
      cases ho
      rw [search_mapped hse]
      exact ⟨le_rfl,Nat.le_add_right _ _⟩
    split at ho
    · cases ho
    next g he =>
    obtain ⟨hl,hu⟩ := ih ho
    rw [expand_mapped he] at hl hu
    rw [roundUp_of_dvd (roundUp_spec (Nat.pos_of_ne_zero hz)).2.1] at hu
    cases fuel with
    | zero => cases ho
    | succ fuel =>
      rw [Nat.add_sub_cancel] at hu ⊢
      rw [Nat.succ_mul]
      generalize roundUp n / pageSize+1 = k at hl hu ⊢
      omega

private theorem exists_concat (h : tiles ≠ []) : ∃ ws w, tiles = ws ++ [w] :=
  ⟨tiles.dropLast,tiles.getLast h,(dropLast_append_getLast h).symm⟩

theorem Shaped.length_le_segmentBound (hs : h.Shaped tiles) : tiles.length ≤ h.segmentBound := by
  have hsp : ∀ ts : List Tile, headerSize * ts.length ≤ Tile.span headerSize ts := by
    intro ts
    induction ts with
    | nil => exact le_rfl
    | cons t ts ih =>
      simp only [length_cons,Tile.span]
      unfold headerSize at *
      omega
  have hf := hs.filled
  have hp := hs.pages
  have hl := hsp tiles
  unfold segmentBound
  unfold headerSize pageSize at *
  omega

theorem Shaped.search (hs : h.Shaped tiles)
    (hn : heapByteAlign ≤ n) (hd : 16 ∣ n) (hb : n+headerSize < 2^64) :
    (∃ ws s zs g, tiles = ws ++ s :: zs ∧ Usable n s ∧ g.Shaped (ws ++ takenFrom n s zs) ∧
        h.searchSegments n h.segmentBound h.sHeapStart =
          .ok (some (heapVirtualBase+Tile.span headerSize ws+headerSize,g))) ∨
      (h.searchSegments n h.segmentBound h.sHeapStart = .ok none ∧ ∀ t ∈ tiles, ¬ Usable n t) := by
  rw [hs.start]
  have hs0 : h.Shaped ([] ++ tiles) := hs
  exact search_spec hs0 hs.nonempty rfl hs.length_le_segmentBound hn hd hb

theorem malloc_spec {h' : Heap} {p : Nat}
    (hs : h.Shaped tiles) (hn : 0 < n) (hle : n ≤ 2^40) (ho : mallocBounded fuel h n = .ok (p,h'))
    (hf : heapVirtualBase+pageSize * h'.mapped.length < 2^64) :
    ∃ tiles' x, h'.Shaped tiles' ∧ (Coalesced tiles → Coalesced tiles') ∧
      (usedFrom heapVirtualBase tiles').Perm (x :: usedFrom heapVirtualBase tiles) ∧
      p = x.1+headerSize ∧ n ≤ x.2.length := by
  induction fuel generalizing h tiles n with
  | zero => cases ho
  | succ fuel ih =>
    obtain ⟨hm,hd,hr,hr'⟩ := roundUp_spec hn
    have hl' : roundUp n ≤ 2^40 := by omega
    have hb : roundUp n+headerSize < 2^64 := by unfold headerSize; omega
    simp only [mallocBounded] at ho
    rw [if_neg hn.ne'] at ho
    rcases hs.search hm hd hb with ⟨ws,s,zs,g,rfl,hu,hg,hse⟩ | ⟨hse,-⟩
    · rw [hse] at ho
      obtain ⟨rfl,rfl⟩ := Prod.mk.inj (Except.ok.inj ho)
      refine ⟨_,(heapVirtualBase+Tile.span headerSize ws, ⟨roundUp n,false⟩),hg,fun hc =>
        coalesced_takenFrom hc hu.1,?_,rfl,hr⟩
      rw [used_append,used_takenFrom hu,used_append]
      exact perm_middle
    rw [hse] at ho
    dsimp only at ho
    split at ho
    · cases ho
    next g he =>
    obtain ⟨ws,w,rfl⟩ := exists_concat hs.nonempty
    have hgr := (malloc_mapped ho).1
    have hg := expand_shaped hs he
      (lt_of_le_of_lt (Nat.add_le_add_left (Nat.mul_le_mul_left _ hgr) _) hf)
    obtain ⟨tiles',x,hsh,hco,hus,hp,hl⟩ := ih hg (by omega) hl' ho
    rw [used_expanded rfl] at hus
    exact ⟨tiles',x,hsh,fun hc =>
      hco (coalesced_concat hc (isChain_singleton _)),hus,hp,hr.trans hl⟩

theorem mask_of_heap (hl : heapVirtualBase ≤ address)
    (hh : address < 2^64) : address &&& heapVirtualBase = heapVirtualBase := by
  obtain ⟨k,rfl⟩ := Nat.exists_eq_add_of_le hl
  have hb : heapVirtualBase = 2^24 * (2^40-1) := by decide
  have hk : k < 2^24 := by
    omega
  rw [hb]
  apply Nat.eq_of_testBit_eq
  intro i
  have hz := Nat.testBit_two_pow_mul_add (2^40-1) (Nat.two_pow_pos 24) i
  rw [Nat.testBit_and,Nat.testBit_two_pow_mul_add _ hk]
  simp only [add_zero,Nat.zero_testBit] at hz
  rw [hz]
  split_ifs
  · rw [Bool.and_false]
  · rw [Bool.and_self]

private theorem absorb_eq_cons (s : Tile) (ys : List Tile) : ∃ t ts, absorb s ys = t :: ts ∧ t.free = s.free := by
  cases ys with
  | nil => exact ⟨s,[],rfl,rfl⟩
  | cons t ts =>
    rw [absorb]
    split_ifs
    · exact ⟨_,_,rfl,rfl⟩
    · exact ⟨_,_,rfl,rfl⟩

theorem free_spec (hs : h.Shaped tiles) (hx : InUse tiles x) :
    ∃ tiles', (h.free (x.1+headerSize)).Shaped tiles' ∧ (Coalesced tiles → Coalesced tiles') ∧
      (usedFrom heapVirtualBase tiles).Perm (x :: usedFrom heapVirtualBase tiles') := by
  have hb := locate_bounds hx.1
  have hfi := hs.filled
  have hfit := hs.fits
  obtain ⟨xs,ys,rfl,hp⟩ := mem_locate_split hx.1
  unfold free
  rw [if_neg (not_not_intro (mask_of_heap (by omega) (by omega))),Nat.add_sub_cancel]
  have hm := setFree_shaped hs hp true
  have hf := forward_shaped hm hp
  have hu : (usedFrom heapVirtualBase (xs ++ x.2 :: ys)).Perm
      (x :: usedFrom heapVirtualBase (xs ++ absorb { x.2 with free := true } ys)) := by
    rw [used_append,used_append,used_absorb rfl,used_cons,used_cons,hx.2,← hp]
    exact perm_middle
  obtain ⟨t,ts,ha,-⟩ := absorb_eq_cons { x.2 with free := true } ys
  have hre : Coalesced (xs ++ x.2 :: ys) → Coalesced xs ∧ Coalesced (t :: ts) := by
    intro hc
    obtain ⟨hl,hr,-⟩ := isChain_append.mp hc
    exact ⟨hl,ha ▸ coalesced_absorb hr.tail⟩
  rw [ha] at hf hu
  rcases eq_or_ne xs [] with rfl | hxs
  · refine ⟨_,?_,fun hc => (hre hc).2,hu⟩
    have hba : x.1 = heapVirtualBase := hp
    rw [hba] at hf ⊢
    have hf' : Shaped _ (t :: ts) := hf
    rwa [backward_first hf']
  obtain ⟨ws,w,rfl⟩ := exists_concat hxs
  have hass : ws ++ [w] ++ t :: ts = ws ++ w :: t :: ts := by simp
  rw [hass] at hf hu
  simp only [span_append,Tile.span,add_zero] at hp
  refine ⟨_,backward_shaped hf (by omega),fun hc =>
    coalesced_concat (hre hc).1 (hre hc).2,?_⟩
  cases hw : w.free with
  | false => exact hu
  | true => simpa only [if_true,used_append,used_absorb hw] using hu

theorem free_mapped (h : Heap) (address : Nat) : (h.free address).mapped = h.mapped := by
  unfold free
  split_ifs <;> simp

private theorem mapNew_error {clear : Bool} {count index : Nat}
    (he : h.mapNewPages clear count index = .error fault) : fault = .outOfPages := by
  induction count generalizing h index with
  | zero => cases he
  | succ count ih =>
    simp only [mapNewPages] at he
    split at he
    · exact (Except.error.inj he).symm
    · exact ih he

private theorem expand_error (he : h.expandHeap n = .error fault) : fault = .outOfPages := by
  unfold expandHeap at he
  dsimp only at he
  cases hm : h.mapNewPages true (n / pageSize+1) 0 with
  | error fault' =>
    rw [hm] at he
    obtain rfl := Except.error.inj he
    exact mapNew_error hm
  | ok g =>
    rw [hm] at he
    cases he

/-- One round of `malloc`: it returns, runs out of pages, or goes on with a heap that ends in
a free segment at least as long as the expansion. -/
private theorem malloc_round {ws : List Tile} {w : Tile}
    (fuel : Nat) (hs : h.Shaped (ws ++ [w])) (hn : 0 < n) (hl : n ≤ 2^40)
    (hro : heapVirtualBase + pageSize * (h.mapped.length+(roundUp n / pageSize+1)) < 2^64) :
    (∃ r, mallocBounded (fuel+1) h n = .ok r) ∨ mallocBounded (fuel+1) h n = .error .outOfPages ∨
      ∃ g vs v, g.Shaped (vs ++ [v]) ∧ v.free = true ∧
        (roundUp n / pageSize+1) * pageSize+(if w.free then w.length else 0) ≤ v.length+headerSize ∧
        g.mapped.length = h.mapped.length+(roundUp n / pageSize+1) ∧
        mallocBounded (fuel+1) h n = mallocBounded fuel g (roundUp n) := by
  obtain ⟨hm,hd,-,hr⟩ := roundUp_spec hn
  have hb : roundUp n+headerSize < 2^64 := by unfold headerSize; omega
  simp only [mallocBounded]
  rw [if_neg hn.ne']
  rcases hs.search hm hd hb with ⟨us,s,zs,g,-,-,-,hse⟩ | ⟨hse,-⟩
  · left
    rw [hse]
    exact ⟨_,rfl⟩
  right
  rw [hse]
  cases he : h.expandHeap (roundUp n) with
  | error fault =>
    left
    rw [expand_error he]
  | ok g =>
    right
    have hgr := expand_mapped he
    have hg := expand_shaped hs he (by rwa [hgr])
    have hp : headerSize ≤ (roundUp n / pageSize+1) * pageSize := by
      unfold headerSize pageSize
      omega
    cases hw : w.free with
    | false =>
      rw [hw] at hg
      have hg' : g.Shaped ((ws ++ [w]) ++ [⟨(roundUp n / pageSize+1) * pageSize-headerSize,true⟩]) := by simpa using hg
      refine ⟨g,_,_,hg',rfl,?_,hgr,rfl⟩
      simp only [Bool.false_eq_true,if_false]
      omega
    | true =>
      rw [hw] at hg
      refine ⟨g,ws,_,hg,hw,?_,hgr,rfl⟩
      simp only [if_true]
      omega

/-- Two expansions for a request of `n` bytes would end below `2^64`. -/
def HasRoom (h : Heap) (n : Nat) : Prop :=
  heapVirtualBase+pageSize * (h.mapped.length+2 * (roundUp n / pageSize+1)) < 2^64
deriving Decidable

theorem HasRoom.malloc_fits {h' : Heap} {p : Nat} (hr : h.HasRoom n) (ho : h.malloc n = .ok (p,h')) :
    heapVirtualBase+pageSize * h'.mapped.length < 2^64 :=
  lt_of_le_of_lt (Nat.add_le_add_left (Nat.mul_le_mul_left _ (malloc_mapped ho).2) _) hr

/-- With room for two expansions `malloc` returns unless a page request fails: the bound on
its calls of itself is never reached. -/
theorem malloc_returns (hs : h.Shaped tiles)
    (hn : 0 < n) (hl : n ≤ 2^40) (hro : h.HasRoom n) :
    (∃ r, h.malloc n = .ok r) ∨ h.malloc n = .error .outOfPages := by
  obtain ⟨hm,hdv,hr,hr'⟩ := roundUp_spec hn
  have ha := roundUp_of_dvd hdv
  obtain ⟨ws,w,rfl⟩ := exists_concat hs.nonempty
  unfold malloc
  have hr1 : heapVirtualBase + pageSize * (h.mapped.length+(roundUp n / pageSize+1)) < 2^64 := by
    refine lt_of_le_of_lt (Nat.add_le_add_left (Nat.mul_le_mul_left _ ?_) _) hro
    omega
  rcases malloc_round 2 hs hn hl hr1 with
    hd | hf | ⟨g,vs,v,hg,hv,hlen,hgr,heq⟩
  · exact .inl hd
  · exact .inr hf
  rw [heq]
  have hr2 : heapVirtualBase + pageSize * (g.mapped.length+(roundUp (roundUp n) / pageSize+1)) < 2^64 := by
    rw [hgr,ha,add_assoc,← two_mul]
    exact hro
  rcases malloc_round 1 hg (by omega) (by omega) hr2 with
    hd | hf | ⟨g',vs',v',hg',hv',hl',-,he'⟩
  · exact .inl hd
  · exact .inr hf
  rw [ha] at hl'
  rw [he',ha]
  left
  simp only [mallocBounded]
  rw [if_neg (by omega),ha]
  have hu : Usable (roundUp n) v' := by
    refine ⟨hv',.inr ?_⟩
    rw [hv,if_pos rfl] at hl'
    unfold pageSize headerSize heapByteAlign at *
    omega
  rcases hg'.search hm hdv (by unfold headerSize; omega) with
    ⟨us,s,zs,g'',-,-,-,hse⟩ | ⟨-,hno⟩
  · rw [hse]
    exact ⟨_,rfl⟩
  · exact absurd hu (hno v' (by simp))

theorem init_shaped {memory : Bytes} {physical : PhysicalMemory}
    (ho : initSegments memory physical = .ok h) : h.Shaped [⟨pageSize-headerSize,true⟩] := by
  obtain ⟨g,hm,ho⟩ := ok_of_bind ho
  cases ho
  obtain ⟨hst,-,-,-⟩ := mapNew_frame hm
    (show heapVirtualBase+(0+heapInitialPages) * pageSize < 2^64 by decide)
  have hl := mapNew_length hm
  dsimp only at hst hl
  refine ⟨hst,⟨?_,trivial⟩,by simp,?_,rfl,?_,?_,?_⟩
  · rw [setFree_same,setLast_same (by decide),setNext_same (by decide),setLength_same (by decide)]
    rfl
  · dsimp only
    rw [hst]
    decide
  · dsimp only
    rw [hst,hl]
    decide
  · dsimp only
    rw [hst]
    decide
  intro t ht
  obtain rfl := mem_singleton.mp ht
  decide
theorem Shaped.totalChars (hs : h.Shaped [⟨pageSize-headerSize,true⟩]) : h.totalChars = 65 := by
  rw [Heap.totalChars,hs.start,← hs.filled]
  decide

theorem init_reported {memory : Bytes} {physical : PhysicalMemory} {p : Nat}
    (ho : initHeap memory physical = .ok (p,h)) :
    ∃ g : Heap, g.Shaped [⟨pageSize-headerSize,true⟩] ∧ g.malloc 65 = .ok (p,h) := by
  obtain ⟨g,hi,ho⟩ := ok_of_bind ho
  have hs := init_shaped hi
  exact ⟨g,hs,hs.totalChars ▸ ho⟩
end Heap

/-- A heap with the blocks that were handed out and not yet freed: address and requested
size. -/
structure HeapRun where
  heap : Heap
  live : List (Nat × Nat)

/-- Calls of the heap, a store by the holder of a block, and page traffic of the rest of the
kernel. -/
inductive HeapCall
  | malloc (numBytes : Nat)
  | free (address : Nat)
  | store (address offset : Nat) (value : BitVec 8)
  | elsewhere (physical : PhysicalMemory)

namespace HeapRun
def step (s : HeapRun) : HeapCall → Option HeapRun
  | .malloc numBytes =>
    if 0 < numBytes ∧ numBytes < 2^40 then
      match s.heap.malloc numBytes with
      | .ok (address,h) => some ⟨h,(address,numBytes) :: s.live⟩
      | .error _ => none
    else none
  | .free address =>
    if ∃ b ∈ s.live, b.1 = address then
      some ⟨s.heap.free address,s.live.filter (fun b => b.1 ≠ address)⟩
    else none
  | .store address offset value =>
    if ∃ b ∈ s.live, b.1 = address ∧ offset < b.2 then
      some ⟨{ s.heap with memory := s.heap.memory.write8 (address+offset) value },s.live⟩
    else none
  | .elsewhere physical => some ⟨{ s.heap with physical := physical },s.live⟩

/-- The array of the first report is a live block: no code has its address any more. -/
def Start (s : HeapRun) : Prop :=
  ∃ memory physical address, initHeap memory physical = .ok (address,s.heap) ∧
    s.live = [(address,heapInitialPages * pageSize / 64+1)]

def EndFits (_ : HeapRun) (_ : HeapCall) (s : HeapRun) : Prop := heapVirtualBase+pageSize * s.heap.mapped.length < 2^64

def Roomy (s : HeapRun) (call : HeapCall) (_ : HeapRun) : Prop := ∀ n, call = .malloc n → s.heap.HasRoom n

def blockLength (s : HeapRun) (b : Nat × Nat) : Nat := lengthOf s.heap.memory (b.1-headerSize)

/-- The segment list is intact, and every live block is aligned, long enough, apart from the
other live blocks and apart from every header. -/
structure Intact (s : HeapRun) (tiles : List Tile) : Prop where
  shaped : s.heap.Shaped tiles
  aligned : ∀ b ∈ s.live, heapByteAlign ∣ b.1
  long : ∀ b ∈ s.live, b.2 ≤ s.blockLength b
  apart : s.live.Pairwise fun b c =>
    b.1+s.blockLength b ≤ c.1 ∨ c.1+s.blockLength c ≤ b.1
  headers : ∀ b ∈ s.live, ∀ x ∈ locate headerSize heapVirtualBase tiles,
    x.1+headerSize ≤ b.1 ∨ b.1+s.blockLength b ≤ x.1

/-- The invariant of a run: every live block is the payload of its own segment in use. -/
structure Backed (s : HeapRun) (tiles : List Tile) : Prop where
  shaped : s.heap.Shaped tiles
  used : ∀ b ∈ s.live, ∃ x, InUse tiles x ∧ b.1 = x.1+headerSize ∧ b.2 ≤ x.2.length
  distinct : (s.live.map Prod.fst).Nodup

/-- Besides, every block in use is live, and no two neighbours are free. -/
structure Tidy (s : HeapRun) (tiles : List Tile) : Prop extends Backed s tiles where
  held : ∀ x ∈ usedFrom heapVirtualBase tiles, ∃ b ∈ s.live, b.1 = x.1+headerSize
  coalesced : Coalesced tiles

variable {s : HeapRun}
section
variable {s : HeapRun} {tiles : List Tile} (hs : s.Tidy tiles)
include hs
private theorem malloc_tidy
    {p : Nat} (hn : 0 < n) (hlt : n < 2^40) (ho : s.heap.malloc n = .ok (p,h))
    (hf : heapVirtualBase+pageSize * h.mapped.length < 2^64) :
    ∃ tiles', Tidy ⟨h,(p,n) :: s.live⟩ tiles' := by
  obtain ⟨tiles',x,hsh,hc,hpe,hp,hl⟩ := malloc_spec hs.shaped hn hlt.le ho hf
  have hne : x.1 ∉ (usedFrom heapVirtualBase tiles).map Prod.fst :=
    (nodup_cons.mp ((hpe.map _).nodup_iff.mp nodup_used)).1
  refine ⟨tiles',⟨hsh,?_,?_⟩,?_,hc hs.coalesced⟩
  · intro b hb
    simp only [inUse_iff,hpe.mem_iff]
    rcases mem_cons.mp hb with rfl | hb
    · exact ⟨x,mem_cons_self,hp,hl⟩
    · obtain ⟨y,hy,hbl⟩ := hs.used b hb
      exact ⟨y,mem_cons_of_mem _ (inUse_iff.mp hy),hbl⟩
  · refine nodup_cons.mpr ⟨fun hm => ?_,hs.distinct⟩
    obtain ⟨b,hb,hbp⟩ := mem_map.mp hm
    obtain ⟨y,hy,hbl,-⟩ := hs.used b hb
    exact hne (mem_map.mpr ⟨y,inUse_iff.mp hy,by omega⟩)
  · intro y hy
    rcases mem_cons.mp (hpe.mem_iff.mp hy) with rfl | hy
    · exact ⟨(p,n),mem_cons_self,hp⟩
    · obtain ⟨b,hb,hbl⟩ := hs.held y hy
      exact ⟨b,mem_cons_of_mem _ hb,hbl⟩

theorem free_tidy (hl : ∃ b ∈ s.live, b.1 = address) :
    ∃ tiles', Tidy ⟨s.heap.free address,s.live.filter (fun b => b.1 ≠ address)⟩ tiles' := by
  obtain ⟨b,hb,rfl⟩ := hl
  obtain ⟨x,hx,hbl,-⟩ := hs.used b hb
  obtain ⟨tiles',hsh,hco,hp⟩ := free_spec hs.shaped hx
  have hg : x.1 ∉ (usedFrom heapVirtualBase tiles').map Prod.fst :=
    (nodup_cons.mp ((hp.map _).nodup_iff.mp nodup_used)).1
  rw [← hbl] at hsh
  refine ⟨tiles',⟨hsh,?_,hs.distinct.sublist (filter_sublist.map _)⟩,?_,hco hs.coalesced⟩
  · intro c hc
    obtain ⟨hc,hn⟩ := mem_filter.mp hc
    obtain ⟨y,hy,hcy,hle⟩ := hs.used c hc
    have hn' : c.1 ≠ b.1 := by simpa using hn
    refine ⟨y,inUse_iff.mpr ?_,hcy,hle⟩
    rcases mem_cons.mp (hp.mem_iff.mp (inUse_iff.mp hy)) with rfl | hy
    · omega
    · exact hy
  · intro y hy
    obtain ⟨c,hc,hcy⟩ := hs.held y (hp.mem_iff.mpr (mem_cons_of_mem _ hy))
    refine ⟨c,mem_filter.mpr ⟨hc,decide_eq_true fun he => ?_⟩,hcy⟩
    exact hg (mem_map.mpr ⟨y,hy,by omega⟩)

private theorem store_tidy {offset : Nat} {value : BitVec 8}
    (hl : ∃ b ∈ s.live, b.1 = address ∧ offset < b.2) :
    Tidy ⟨{ s.heap with memory := s.heap.memory.write8 (address+offset) value },s.live⟩
      tiles := by
  obtain ⟨b,hb,rfl,ho⟩ := hl
  obtain ⟨x,hx,hbl,hle⟩ := hs.used b hb
  refine ⟨⟨{ hs.shaped with linked := ?_ },hs.used,hs.distinct⟩,hs.held,hs.coalesced⟩
  refine hs.shaped.linked.congr fun y hy => write8_apart ?_
  rcases locate_apart hx.1 hy with rfl | h | h
  · right
    omega
  · left
    omega
  · right
    omega
end

theorem step_tidy {s' : HeapRun} {call : HeapCall}
    (hs : s.Tidy tiles) (hst : s.step call = some s') (hf : EndFits s call s') :
    ∃ tiles', s'.Tidy tiles' := by
  cases call with
  | malloc n =>
    simp only [step] at hst
    split_ifs at hst with hn
    cases ho : s.heap.malloc n with
    | error fault =>
      rw [ho] at hst
      cases hst
    | ok r =>
      rw [ho] at hst
      cases hst
      exact malloc_tidy hs hn.1 hn.2 ho hf
  | free address =>
    simp only [step] at hst
    split_ifs at hst with hl
    cases hst
    exact free_tidy hs hl
  | store address offset value =>
    simp only [step] at hst
    split_ifs at hst with hl
    cases hst
    exact ⟨tiles,store_tidy hs hl⟩
  | elsewhere physical =>
    cases hst
    exact ⟨tiles,⟨{ hs.shaped with },hs.used,hs.distinct⟩,hs.held,hs.coalesced⟩

theorem start_tidy (hs : s.Start) : ∃ tiles, s.Tidy tiles := by
  obtain ⟨memory,physical,address,ho,hl⟩ := hs
  obtain ⟨h,hsh,ho⟩ := init_reported ho
  have hs : Tidy ⟨h,[]⟩ _ := ⟨⟨hsh,by simp,by simp⟩,by simp [usedFrom,locate],isChain_singleton _⟩
  have hp := hsh.pages.symm.trans hsh.filled.symm
  have hr : h.HasRoom 65 := by
    unfold HasRoom
    rw [Nat.mul_add,← add_assoc,hp]
    decide
  have ht := malloc_tidy hs (by decide) (by decide) ho (hr.malloc_fits ho)
  rwa [← show s.live = [(address,65)] from hl] at ht

theorem tidy_run (hr : Reachable Start step EndFits s) : ∃ tiles, s.Tidy tiles := by
  refine hr.invariant (fun _ => start_tidy) ?_
  rintro s call s' ⟨tiles,hs⟩ hst hf
  exact step_tidy hs hst hf

theorem Tidy.pages_fit (hs : s.Tidy tiles) : heapVirtualBase+pageSize * s.heap.mapped.length < 2^64 :=
  hs.shaped.pages ▸ hs.shaped.fits

theorem Roomy.fits {s' : HeapRun} {call : HeapCall} (hs : s.Tidy tiles) (hro : s.Roomy call s')
    (hst : s.step call = some s') : EndFits s call s' := by
  cases call with
  | malloc n =>
    simp only [step] at hst
    split_ifs at hst
    cases ho : s.heap.malloc n with
    | error fault =>
      rw [ho] at hst
      cases hst
    | ok r =>
      rw [ho] at hst
      cases hst
      exact (hro n rfl).malloc_fits ho
  | free address =>
    simp only [step] at hst
    split_ifs at hst
    cases hst
    rw [EndFits,free_mapped]
    exact hs.pages_fit
  | store address offset value =>
    simp only [step] at hst
    split_ifs at hst
    cases hst
    exact hs.pages_fit
  | elsewhere physical =>
    cases hst
    exact hs.pages_fit

/-- Room before every call keeps the end of the heap below `2^64` after it. -/
theorem endFits_run (hr : Reachable Start step Roomy s) : Reachable Start step EndFits s :=
  hr.invariant (fun _ => .start) fun _ _ _ ih hst hro =>
    let ⟨_,hs⟩ := tidy_run ih
    .next ih hst (hro.fits hs hst)

private theorem header_aligned (h : ∀ t ∈ tiles, 16 ∣ t.length)
    (hx : x ∈ locate headerSize heapVirtualBase tiles) : 16 ∣ x.1 := by
  obtain ⟨ys,zs,rfl,hp⟩ := mem_locate_split hx
  have hsp : ∀ ts : List Tile, (∀ t ∈ ts, 16 ∣ t.length) → 16 ∣ Tile.span headerSize ts := by
    intro ts hts
    induction ts with
    | nil => exact dvd_zero _
    | cons t ts ih =>
      have hr := ih fun u hu => hts u (mem_cons_of_mem _ hu)
      have hh := hts t mem_cons_self
      simp only [Tile.span]
      unfold headerSize at *
      omega
  have hb := hsp ys fun t ht => h t (mem_append_left _ ht)
  rw [hp]
  unfold heapVirtualBase
  omega

theorem Backed.intact (hs : s.Backed tiles) : s.Intact tiles := by
  have hl : ∀ b x, InUse tiles x → b.1 = x.1+headerSize → s.blockLength b = x.2.length := by
    intro b x hx hb
    rw [blockLength,hb,Nat.add_sub_cancel]
    exact (hs.shaped.linked.view_located hx.1).1
  refine ⟨hs.shaped,?_,?_,?_,?_⟩
  · intro b hb
    obtain ⟨x,hx,hbl,-⟩ := hs.used b hb
    have ha := header_aligned hs.shaped.aligned hx.1
    rw [hbl]
    unfold heapByteAlign headerSize
    omega
  · intro b hb
    obtain ⟨x,hx,hbl,hle⟩ := hs.used b hb
    rwa [hl b x hx hbl]
  · refine (pairwise_map.mp hs.distinct).imp_of_mem fun {b c} hb hc hn => ?_
    obtain ⟨x,hx,hbl,-⟩ := hs.used b hb
    obtain ⟨y,hy,hcb,-⟩ := hs.used c hc
    rw [hl b x hx hbl,hl c y hy hcb]
    rcases locate_apart hx.1 hy.1 with rfl | h | h
    · exact absurd (hbl.trans hcb.symm) hn
    · left
      omega
    · right
      omega
  intro b hb y hy
  obtain ⟨x,hx,hbl,-⟩ := hs.used b hb
  rw [hl b x hx hbl]
  rcases locate_apart hx.1 hy with rfl | h | h
  · left
    omega
  · right
    omega
  · left
    omega

theorem heap_run {s : HeapRun} (hrun : Reachable Start step EndFits s) : ∃ tiles, s.Intact tiles := by
  obtain ⟨tiles,hs⟩ := tidy_run hrun
  exact ⟨tiles,hs.toBacked.intact⟩

def booted : HeapRun := match initHeap (fun _ => 0) ⟨⟨2,fun _ => 0⟩,16,16,0,16,0⟩ with
  | .ok (address,h) => ⟨h,[(address,65)]⟩
  | .error _ => ⟨⟨fun _ => 0,0,0,0,⟨⟨0,fun _ => 0⟩,0,0,0,0,0⟩,[]⟩,[]⟩

def firstBlock : HeapRun := (booted.step (.malloc 100)).getD booted

theorem booted_start : booted.Start := by
  refine ⟨fun _ => 0,⟨⟨2,fun _ => 0⟩,16,16,0,16,0⟩,heapVirtualBase+headerSize,?_,?_⟩
  all_goals rfl

theorem firstBlock_step : booted.step (.malloc 100) = some firstBlock := by
  have hso : (booted.step (.malloc 100)).isSome := by decide +kernel
  obtain ⟨s,hs⟩ := isSome_iff_exists.mp hso
  unfold firstBlock
  rw [hs]
  rfl

theorem heap_run_firstBlock :
    firstBlock.live = [(heapVirtualBase+144,100),(heapVirtualBase+32,65)] ∧
      ∃ tiles, firstBlock.Intact tiles := by
  have hl : firstBlock.live = [(heapVirtualBase+144,100),(heapVirtualBase+32,65)] := by decide +kernel
  have hf : heapVirtualBase+pageSize * firstBlock.heap.mapped.length < 2^64 := by decide +kernel
  exact ⟨hl,heap_run (.next (.start booted_start) firstBlock_step hf)⟩
end HeapRun
end LensorOS.Memory
