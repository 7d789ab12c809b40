import LensorOS.Framework.Ownership
import LensorOS.Strings.BasicString

/-!
# Buffers of strings

Every buffer belongs to one string. A string gets a buffer, changes the one it has, gives it up or
passes it on; the characters of the other strings stay as they are.
-/
namespace LensorOS.Strings
open Framework List Function
namespace Repr
def buffer : Repr → Option Nat
  | small _ _ => none
  | large data _ _ => some data

def Fits (blocks : List (Nat × Nat)) : Repr → Prop
  | small _ remCap => remCap ≤ maxCharsSmall
  | large data sz _ => ∀ n, (data,n) ∈ blocks → sz+1 ≤ n

theorem Fits.mono {blocks blocks' : List (Nat × Nat)} {r : Repr} (h : r.Fits blocks)
    (hs : blocks' ⊆ blocks) : r.Fits blocks' := by
  cases r with
  | small data remCap => exact h
  | large data sz cap => exact fun n hn => h n (hs hn)
end Repr

namespace Store
def own (s : Store) (i : Nat) : Option Nat := (s.objects i).bind Repr.buffer

def contents (s : Store) (i : Nat) : Option (List (BitVec 8)) := (s.objects i).map (Repr.value s.memory)

/-- Every buffer has one string, and every large string a buffer with room for it. -/
structure Owned (s : Store) : Prop where
  exclusive : Exclusive s.own s.blocks
  fits : ∀ i r, s.objects i = some r → r.Fits s.blocks

def without (s : Store) (i : Nat) : Store := { s with objects := update s.objects i none }

variable {s : Store} {i j p n k sz : Nat} {r : Repr} {m : Bytes} {v : List (BitVec 8)}
theorem own_put : (s.put i r).own = update s.own i r.buffer := by
  funext k
  by_cases hk : k = i
  · subst hk
    simp [own,put]
  · simp [own,put,hk]

theorem own_without : (s.without i).own = update s.own i none := by
  funext k
  by_cases hk : k = i
  · subst hk
    simp [own,without]
  · simp [own,without,hk]

theorem contents_put : (s.put i r).contents = update s.contents i (some (r.value s.memory)) := by
  funext k
  by_cases hk : k = i
  · subst hk
    simp [contents,put]
  · simp [contents,put,hk]

theorem contents_without : (s.without i).contents = update s.contents i none := by
  funext k
  by_cases hk : k = i
  · subst hk
    simp [contents,without]
  · simp [contents,without,hk]

theorem objects_put_ne (h : k ≠ i) : (s.put i r).objects k = s.objects k := update_of_ne h ..
theorem objects_without_ne (h : k ≠ i) : (s.without i).objects k = s.objects k := update_of_ne h ..

theorem without_put : (s.put i r).without i = s.without i := by simp [without,put]

theorem objects_of_without (h : (s.without i).objects k = some r) : k ≠ i ∧ s.objects k = some r := by
  have hk : k ≠ i := by
    rintro rfl
    simp [without] at h
  exact ⟨hk,(objects_without_ne hk).symm.trans h⟩

theorem own_of_objects (h : s.objects i = none) : s.own i = none := by
  rw [own,h]
  rfl

theorem own_of_large {data cap : Nat} (h : s.objects i = some (.large data sz cap)) : s.own i = some data := by
  rw [own,h]
  rfl

theorem contents_of_objects (h : s.objects i = some r) : s.contents i = some (r.value s.memory) := by
  rw [contents,h]
  rfl

theorem fits_put (hr : r.Fits s.blocks)
    (ho : ∀ k r', k ≠ i → s.objects k = some r' → r'.Fits s.blocks) (k : Nat) (r' : Repr)
    (hk : (s.put i r).objects k = some r') : r'.Fits s.blocks := by
  by_cases hki : k = i
  · subst hki
    obtain rfl : r = r' := by simpa [put] using hk
    exact hr
  · rw [objects_put_ne hki] at hk
    exact ho k r' hki hk

theorem contents_put_frame {s' : Store} (ho : s'.objects = s.objects)
    (hv : ∀ k r', k ≠ i → s.objects k = some r' → r'.value s'.memory = r'.value s.memory) :
    (s'.put i r).contents = update s.contents i (some (r.value s'.memory)) := by
  rw [contents_put]
  funext k
  by_cases hki : k = i
  · subst hki
    rw [update_self,update_self]
  rw [update_of_ne hki,update_of_ne hki,contents,contents,ho]
  cases hk : s.objects k with
  | none => rfl
  | some r' => exact congrArg some (hv k r' hki hk)

theorem Owned.without_of_small (h : s.Owned) (hi : s.own i = none) : (s.without i).Owned := by
  refine ⟨?_,fun k r hk => h.fits k r (objects_of_without hk).2⟩
  rw [own_without,← hi,update_eq_self]
  exact h.exclusive

theorem Owned.own_without_self : (s.without i).own i = none := by rw [own_without,update_self]

theorem Owned.put_small (h : (s.without i).Owned) {data : Bytes} {remCap : Nat}
    (hc : remCap ≤ maxCharsSmall) : (s.put i (.small data remCap)).Owned := by
  have ho : (s.put i (.small data remCap)).own = (s.without i).own := by
    rw [own_put,own_without]
    rfl
  refine ⟨?_,fits_put hc fun k r hki hk => h.fits k r ((objects_without_ne hki).trans hk)⟩
  rw [ho]
  exact h.exclusive

theorem Owned.value_eq (h : s.Owned) (hi : s.objects i = some r)
    (hm : ∀ a n, s.own i = some a → (a,n) ∈ s.blocks → ∀ x, a ≤ x → x < a+n →
      m x = s.memory x) : r.value m = r.value s.memory := by
  cases r with
  | small data remCap => rfl
  | large data sz cap =>
    have ho := own_of_large hi
    obtain ⟨n,hn⟩ := h.exclusive.held i data ho
    have hf : sz+1 ≤ n := h.fits i _ hi n hn
    exact Bytes.load_congr fun x hx hx' => hm data n ho hn x hx (by omega)

def Yields (result : Option Store) (v : Nat → Option (List (BitVec 8))) : Prop :=
  ∃ s', result = some s' ∧ s'.Owned ∧ s'.contents = v

theorem Owned.yields_fresh (h : (s.without i).Owned) (hf : s.Fresh p n) (cap : Nat)
    (hsz : sz+1 ≤ n) (hm : ∀ x, x < p ∨ p+n ≤ x → m x = s.memory x) (hv : m.load p sz = v) :
    Yields (some (({ s with memory := m, blocks := (p,n) :: s.blocks } : Store).put i
      (.large p sz cap))) (update s.contents i (some v)) := by
  subst hv
  have hs := hf
  have he : Exclusive (update s.own i (some p)) ((p,n) :: s.blocks) := by
    have ht := h.exclusive.take own_without_self hs (by omega)
    rwa [own_without,update_idem] at ht
  refine ⟨_,rfl,⟨?_,fits_put ?_ fun k r hki hk => ?_⟩,contents_put_frame rfl fun k r hki hk => ?_⟩
  · rw [own_put]
    exact he
  · intro n' hn'
    rwa [he.length_unique hn' mem_cons_self]
  · have hk' := (objects_without_ne hki).trans hk
    cases r with
    | small data remCap => exact h.fits k _ hk'
    | large data sz' cap' =>
      intro n' hn'
      obtain ⟨n'',hn''⟩ := h.exclusive.held k data (own_of_large hk')
      rw [he.length_unique hn' (mem_cons_of_mem _ hn'')]
      exact h.fits k _ hk' n'' hn''
  · have hva : r.value m = r.value (s.without i).memory := by
      refine h.value_eq ((objects_without_ne hki).trans hk) fun a n' ho hn' x hx hx' => hm x ?_
      have hse : p+n ≤ a ∨ a+n' ≤ p := hf _ hn'
      omega
    exact hva

theorem Owned.yields_own (h : s.Owned) {data cap sz' : Nat}
    (hi : s.objects i = some (.large data sz cap)) (hn : (data,n) ∈ s.blocks) (hsz : sz'+1 ≤ n)
    (hm : ∀ x, x < data ∨ data+n ≤ x → m x = s.memory x) (hv : m.load data sz' = v) :
    Yields (some ((s.write m).put i (.large data sz' cap))) (update s.contents i (some v)) := by
  subst hv
  have ho := own_of_large hi
  have hs : ((s.write m).put i (.large data sz' cap)).own = s.own := by
    rw [own_put]
    exact (congrArg (update s.own i) ho.symm).trans (update_eq_self ..)
  refine ⟨_,rfl,⟨?_,fits_put ?_ fun k r _ hk => h.fits k r hk⟩,
    contents_put_frame rfl fun k r hki hk => ?_⟩
  · rw [hs]
    exact h.exclusive
  · intro n' hn'
    rwa [h.exclusive.length_unique hn' hn]
  refine h.value_eq hk fun a n' ho' hn' x hx hx' => hm x ?_
  have hse : data+n ≤ a ∨ a+n' ≤ data := h.exclusive.separate (Ne.symm hki) ho ho' hn hn'
  omega

theorem Owned.release_eq (h : s.Owned) (i : Nat) : ∃ s', s.release i = some s' ∧
    s'.memory = s.memory ∧ s'.objects = s.objects ∧ s'.blocks ⊆ s.blocks ∧
      (s'.without i).Owned := by
  cases ho : s.own i with
  | none =>
    refine ⟨s,?_,rfl,rfl,List.Subset.refl _,h.without_of_small ho⟩
    unfold release
    cases hi : s.objects i with
    | none => rfl
    | some r =>
      cases r with
      | small data remCap => rfl
      | large data sz cap =>
        rw [own_of_large hi] at ho
        cases ho
  | some data =>
    obtain ⟨n,hn⟩ := h.exclusive.held i data ho
    have hm : data ∈ s.blocks.map Prod.fst := mem_map.mpr ⟨_,hn,rfl⟩
    refine ⟨{ s with blocks := s.blocks.filter fun x => x.1 ≠ data },?_,rfl,rfl,
      filter_subset_self _,?_,fun k r hk => ?_⟩
    · obtain ⟨r,hr,hb⟩ := Option.bind_eq_some_iff.mp ho
      cases r with
      | small data' remCap => cases hb
      | large data' sz cap =>
        cases hb
        rw [release,hr]
        exact if_pos hm
    · have hre := h.exclusive.release ho
      rw [own_without]
      exact hre
    · exact (h.fits k r (objects_of_without hk).2).mono (filter_subset_self _)

theorem Owned.yields_instead (h : s.Owned) {data cap sz' : Nat}
    (hi : s.objects i = some (.large data sz cap)) (cap' : Nat) (hf : s.Fresh p n)
    (hs : sz'+1 ≤ n) (hm : ∀ x, x < p ∨ p+n ≤ x → m x = s.memory x) (hv : m.load p sz' = v) :
    Yields ((({ s with memory := m, blocks := (p,n) :: s.blocks } : Store).delete data).map
      fun s => s.put i (.large p sz' cap')) (update s.contents i (some v)) := by
  obtain ⟨n',hn'⟩ := h.exclusive.held i data (own_of_large hi)
  have hn : p ≠ data := by
    have hp : 0 < n' := h.exclusive.positive _ hn'
    have hse : p+n ≤ data ∨ data+n' ≤ p := hf _ hn'
    omega
  obtain ⟨s1,hr,hme,-,hb,ho⟩ := h.release_eq i
  have hs1 : s1 = { s with blocks := s.blocks.filter fun x => x.1 ≠ data } := by
    have hmem : data ∈ s.blocks.map Prod.fst := mem_map.mpr ⟨_,hn',rfl⟩
    rw [release,hi] at hr
    exact (Option.some.inj ((if_pos hmem).symm.trans hr)).symm
  have hf1 : s1.Fresh p n := fun x hx => hf x (hb hx)
  have hd : ({ s with memory := m, blocks := (p,n) :: s.blocks } : Store).delete data =
      some { s1 with memory := m, blocks := (p,n) :: s1.blocks } := by
    have hmem : data ∈ ((p,n) :: s.blocks).map Prod.fst := mem_map.mpr ⟨_,mem_cons_of_mem _ hn',rfl⟩
    rw [delete,if_pos hmem,hs1,filter_cons_of_pos (by simpa using hn)]
  have hc : s1.contents = s.contents := by
    rw [hs1]
    rfl
  rw [hd,← hc]
  exact ho.yields_fresh hf1 cap' hs (fun x hx => (hm x hx).trans (congrFun hme x).symm) hv

theorem Owned.put_pass (h : (s.without i).Owned) (hj : s.objects j = some r) (hn : i ≠ j) :
    ((s.put i r).put j .empty).Owned := by
  have ho : (s.without i).own j = r.buffer := by
    rw [own_without,update_of_ne (Ne.symm hn),own,hj]
    rfl
  refine ⟨?_,fits_put (le_refl _) fun k r' _ hk => ?_⟩
  · have hp := h.exclusive.pass own_without_self hn
    rw [ho,own_without,update_idem] at hp
    rw [own_put,own_put]
    exact hp
  · have hf : r.Fits s.blocks := h.fits j r ((objects_without_ne (Ne.symm hn)).trans hj)
    exact fits_put hf (fun k r' hki hk => h.fits k r' ((objects_without_ne hki).trans hk)) k r' hk
end Store
end LensorOS.Strings
