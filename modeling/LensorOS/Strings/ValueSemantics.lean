import LensorOS.Framework.Run
import LensorOS.Strings.Ownership

/-!
# Strings as values

Operations on strings have the effect that they have on lists of characters, and on no other
string.
-/
namespace LensorOS.Strings
open Framework Option Function Bytes
section
variable {m : Bytes} {p size n : Nat} {old chars : List (BitVec 8)}
theorem load_store_front (m : Bytes) (p : Nat) (chars more : List (BitVec 8)) :
    (m.store p (chars ++ more)).load p chars.length = chars := by
  rw [store_append,load_store_outside _ (.inl (le_refl _)),load_store]

theorem load_store_load (m source : Bytes) (p a : Nat) {k n : Nat} (h : k ≤ n) :
    (m.store p (source.load a n)).load p k = source.load a k := by
  obtain ⟨more,rfl⟩ := Nat.exists_eq_add_of_le h
  have hf := load_store_front m p (source.load a k) (source.load (a+k) more)
  rwa [length_load,← load_add] at hf

theorem store_load_outside (m source : Bytes) {p a k n x : Nat} (h : k ≤ n)
    (hx : x < p ∨ p+n ≤ x) : m.store p (source.load a k) x = m x :=
  store_outside _ (by rw [length_load]; omega)

theorem load_behind (ho : m.load p size = old) (chars : List (BitVec 8)) :
    (m.store (p+size) chars).load p (size+chars.length) = old ++ chars := by
  rw [load_add,load_store,load_store_outside _ (.inl (le_refl _)),ho]

theorem load_appended (ho : m.load p size = old) :
    ((m.store (p+size) chars).write8 (p+size+chars.length) 0).load p
      (size+chars.length) = old ++ chars := by
  rw [← load_behind ho,load_write8_outside _ _ (.inl (by omega))]

theorem appended_outside {x : Nat} (hn : size+chars.length+1 ≤ n) (hx : x < p ∨ p+n ≤ x) :
    ((m.store (p+size) chars).write8 (p+size+chars.length) 0) x = m x := by
  rw [write8_outside _ _ (by omega),store_outside _ (by omega)]

theorem load_erased {source : Bytes} {pos : Nat} (hp : pos+n < size)
    (hs : source.load p size = m.load p size) :
    (m.store (p+pos) (source.load (p+pos+n) (size-pos-n+1))).load p (size-n) =
      (m.load p size).take pos ++ (m.load p size).drop (pos+n) := by
  have hsp : size-n = pos+(size-pos-n) := by omega
  have hd := drop_load source (a := p) (le_of_lt hp)
  rw [hsp,load_add,load_store_outside _ (.inl (le_refl _)),
    load_store_load _ _ _ _ (by omega),take_load _ (by omega),← hs,hd,
    add_assoc,Nat.sub_add_eq]

theorem newSize_eq (hn : n < 2^22) : newSize n = 2^(9+Nat.log2 n) := by
  have hl : Nat.log2 n < 22 := by
    by_cases hz : n = 0
    · rw [hz]
      decide
    · exact (Nat.log2_lt hz).mpr hn
  have hs : (8+2^64-clz n) % 2^64 % 32 = 9+Nat.log2 n := by
    unfold clz
    omega
  rw [newSize,hs,if_neg (by omega)]

theorem lt_newSize (hn : n < 2^22) : n+1 ≤ newSize n := by
  have hl : n < 2 ^ (Nat.log2 n+1) := Nat.lt_log2_self
  have hp : 2 ^ (Nat.log2 n+1) ≤ 2 ^ (9+Nat.log2 n) := Nat.pow_le_pow_right (by decide) (by omega)
  rw [newSize_eq hn]
  omega
end

namespace Store
variable {s : Store} {i j p n remCap : Nat} {r : Repr} {chars : List (BitVec 8)} {data : Bytes}
theorem alloc_eq (h : s.Fresh p n) : s.alloc p n = some { s with blocks := (p,n) :: s.blocks } := if_pos h

theorem Owned.small_le (h : s.Owned)
    (hi : s.objects i = some (.small data remCap)) : remCap ≤ maxCharsSmall := h.fits i _ hi

theorem Owned.block (h : s.Owned) {data sz cap : Nat}
    (hi : s.objects i = some (.large data sz cap)) : ∃ n, (data,n) ∈ s.blocks ∧ sz+1 ≤ n := by
  obtain ⟨n,hn⟩ := h.exclusive.held i data (own_of_large hi)
  exact ⟨n,hn,h.fits i _ hi n hn⟩

theorem Owned.without_small (h : s.Owned) (hi : s.objects i = some (.small data remCap)) : (s.without i).Owned :=
  h.without_of_small (by rw [own,hi]; rfl)

theorem Owned.yields_small (h : (s.without i).Owned)
    {v : List (BitVec 8)} (hc : remCap ≤ maxCharsSmall)
    (hv : data.load 0 (maxCharsSmall-remCap) = v) :
    Yields (some (s.put i (.small data remCap))) (update s.contents i (some v)) := by
  refine ⟨_,rfl,h.put_small hc,?_⟩
  rw [contents_put,← hv]
  rfl

theorem update_contents_self (hi : s.objects i = some r) :
    update s.contents i (some (r.value s.memory)) = s.contents := by
  rw [← contents_of_objects hi,update_eq_self]

section
variable (h : s.Owned) (hi : s.objects i = none)
include h hi
theorem Owned.construct_yields : Yields (s.construct i) (update s.contents i (some [])) :=
  (h.without_of_small (own_of_objects hi)).yields_small (le_refl _) rfl

theorem Owned.constructChar_yields (c : BitVec 8) : Yields (s.constructChar i c) (update s.contents i (some [c])) := by
  refine (h.without_of_small (own_of_objects hi)).yields_small (by decide) ?_
  change [_] = [c]
  simp [write8]

theorem Owned.constructView_yields
    (hf : chars.length > maxCharsSmall → s.Fresh p (chars.length+1)) :
    Yields (s.constructView i chars p) (update s.contents i (some chars)) := by
  have hv := h.without_of_small (own_of_objects hi)
  unfold constructView
  by_cases hl : chars.length > maxCharsSmall
  · rw [if_pos hl,alloc_eq (hf hl)]
    refine hv.yields_fresh (hf hl) chars.length (le_refl _)
      (m := s.memory.store p (chars ++ [0])) ?_ (load_store_front ..)
    exact fun x hx => store_outside _ (by simpa using hx)
  rw [if_neg hl]
  have hs : maxCharsSmall-(maxCharsSmall-chars.length) = chars.length := by omega
  refine hv.yields_small (by omega) ?_
  rw [hs,load_write8_outside _ _ (.inl (by omega))]
  exact load_store _ _ _

theorem Owned.copy_yields (hj : s.objects j = some r)
    (hf : ∀ data sz cap, r = .large data sz cap → s.Fresh p (sz+1)) :
    Yields (s.copy i j p) (update s.contents i (s.contents j)) := by
  have hv := h.without_of_small (own_of_objects hi)
  rw [copy,hj,contents_of_objects hj]
  cases r with
  | small data remCap => exact hv.yields_small (h.small_le hj) rfl
  | large data sz cap =>
    dsimp only
    have hf := hf data sz cap rfl
    rw [alloc_eq hf]
    refine hv.yields_fresh hf cap (le_refl _) (m := s.memory.store p (s.memory.load data (sz+1))) ?_ ?_
    · exact fun x hx => store_load_outside _ _ (le_refl _) hx
    · exact load_store_load _ _ _ _ (by omega)
end

theorem contents_pass (hj : s.objects j = some r) : ((s.put i r).put j .empty).contents =
      update (update s.contents i (s.contents j)) j (some []) := by
  rw [contents_put,contents_put,contents_of_objects hj]
  rfl

theorem Owned.move_yields (h : s.Owned) (hi : s.objects i = none) (hj : s.objects j = some r) :
    Yields (s.move i j) (update (update s.contents i (s.contents j)) j (some [])) := by
  have hn : i ≠ j := by
    rintro rfl
    rw [hi] at hj
    cases hj
  rw [move,hj]
  exact ⟨_,rfl,(h.without_of_small (own_of_objects hi)).put_pass hj hn,contents_pass hj⟩

theorem contents_congr {s' : Store} (hm : s'.memory = s.memory)
    (ho : s'.objects = s.objects) : s'.contents = s.contents := by
  funext k
  rw [contents,contents,hm,ho]

section
variable (h : s.Owned)
include h
theorem Owned.copyAssign_yields (i : Nat) (hj : s.objects j = some r) (hs : s.own j = none) :
    Yields (s.copyAssign i j) (update s.contents i (s.contents j)) := by
  obtain ⟨s1,hr,hm,ho,-,hv⟩ := h.release_eq i
  rw [copyAssign,hr,bind_some,ho,hj,contents_of_objects hj, ← contents_congr hm ho]
  cases r with
  | small data remCap => exact hv.yields_small (h.small_le hj) rfl
  | large data sz cap =>
    rw [own_of_large hj] at hs
    cases hs

theorem Owned.moveAssign_yields (i : Nat) (hj : s.objects j = some r) : Yields (s.moveAssign i j)
      (update (update s.contents i (s.contents j)) j (some [])) := by
  obtain ⟨s1,hr,hm,ho,-,hv⟩ := h.release_eq i
  have hj1 : s1.objects j = some r := by rw [ho,hj]
  rw [moveAssign,hr,bind_some,hj1,← contents_congr hm ho]
  refine ⟨_,rfl,?_,contents_pass hj1⟩
  by_cases hn : i = j
  · -- The buffer is gone, but so is the pointer to it.
    subst hn
    rw [← without_put] at hv
    exact hv.put_small (le_refl _)
  · exact hv.put_pass hj1 hn

theorem Owned.destroy_yields (i : Nat) : Yields (s.destroy i) (update s.contents i none) := by
  obtain ⟨s1,hr,hm,ho,-,hv⟩ := h.release_eq i
  rw [destroy,hr]
  refine ⟨s1.without i,rfl,hv,?_⟩
  rw [contents_without,contents_congr hm ho]

theorem Owned.append_small_yields (hi : s.objects i = some (.small data remCap))
    (hr : ¬chars.length ≤ remCap → maxCharsSmall-remCap+chars.length < 2^22 ∧
      s.Fresh p (newSize (maxCharsSmall-remCap+chars.length))) : Yields (s.append i chars p)
      (update s.contents i ((s.contents i).map (· ++ chars))) := by
  have hc := h.small_le hi
  have hv := h.without_small hi
  rw [append,hi,contents_of_objects hi]
  dsimp only
  by_cases hfi : chars.length ≤ remCap
  · rw [if_pos hfi]
    refine hv.yields_small ((Nat.sub_le _ _).trans hc) ?_
    have hs : maxCharsSmall-(remCap-chars.length) = maxCharsSmall-remCap+chars.length := by omega
    have hb : (data.store (maxCharsSmall-remCap) chars).load 0
        (maxCharsSmall-remCap+chars.length) = data.load 0 (maxCharsSmall-remCap) ++ chars := by
      have hlo := load_behind (rfl : data.load 0 (maxCharsSmall-remCap) = _) chars
      rwa [zero_add] at hlo
    rw [hs]
    by_cases ht : maxCharsSmall-remCap+chars.length < maxCharsSmall
    · rw [if_pos ht]
      rw [load_write8_outside _ _ (.inl (by omega))]
      exact hb
    · rw [if_neg ht]
      exact hb
  · obtain ⟨hlt,hf⟩ := hr hfi
    rw [if_neg hfi,alloc_eq hf]
    have hl := lt_newSize hlt
    refine hv.yields_fresh hf (newSize (maxCharsSmall-remCap+chars.length) % 2^63)
      hl (m := ((s.memory.store p (data.load 0 maxCharsSmall)).store
        (p+(maxCharsSmall-remCap)) chars).write8
          (p+(maxCharsSmall-remCap)+chars.length) 0) ?_ ?_
    · intro x hx
      rw [appended_outside hl hx,store_load_outside _ _ (by omega) hx]
    · exact load_appended (load_store_load _ _ _ _ (by omega))

theorem Owned.append_large_yields {data sz cap : Nat} (hi : s.objects i = some (.large data sz cap))
    (hr : if sz+chars.length < cap then ∃ x ∈ s.blocks, x.1 = data ∧ sz+chars.length+1 ≤ x.2
      else sz+chars.length < 2^22 ∧ s.Fresh p (newSize (sz+chars.length))) :
    Yields (s.append i chars p) (update s.contents i ((s.contents i).map (· ++ chars))) := by
  rw [append,hi,contents_of_objects hi]
  dsimp only
  by_cases hfi : sz+chars.length < cap
  · rw [if_pos hfi] at hr ⊢
    obtain ⟨x,hx,rfl,hl⟩ := hr
    exact h.yields_own hi hx hl (fun y hy => appended_outside hl hy) (load_appended rfl)
  rw [if_neg hfi] at hr ⊢
  obtain ⟨hlt,hf⟩ := hr
  have hl := lt_newSize hlt
  rw [alloc_eq hf,bind_some]
  refine h.yields_instead hi (newSize (sz+chars.length) % 2^63) hf hl
    (m := ((s.memory.store p (s.memory.load data sz)).store (p+sz) chars).write8
      (p+sz+chars.length) 0) ?_ ?_
  · intro x hx
    rw [appended_outside hl hx,store_load_outside _ _ (by omega) hx]
  · exact load_appended (load_store_load _ _ _ _ (le_refl _))

theorem Owned.reserve_yields (hi : s.objects i = some r)
    (hr : ¬n ≤ r.capacity → r.size+n < 2^22 ∧ s.Fresh p (newSize (r.size+n))) :
    Yields (s.reserve i n p) s.contents := by
  rw [reserve,hi]
  dsimp only
  by_cases hfi : n ≤ r.capacity
  · rw [if_pos hfi]
    exact ⟨s,rfl,h,rfl⟩
  obtain ⟨hlt,hf⟩ := hr hfi
  rw [if_neg hfi,alloc_eq hf,bind_some,← update_contents_self hi]
  cases r with
  | small data remCap =>
    have hn : maxCharsSmall < n := not_le.mp hfi
    have hl : maxCharsSmall-remCap+n+1 ≤ newSize (maxCharsSmall-remCap+n) := lt_newSize hlt
    refine (h.without_small hi).yields_fresh hf
      (newSize ((Repr.small data remCap).size+n) % 2^63)
      (by omega : maxCharsSmall-remCap+1 ≤ newSize (maxCharsSmall-remCap+n))
      (m := s.memory.store p ((Repr.smallBytes data remCap).load 0 (maxCharsSmall+1))) ?_ ?_
    · exact fun x hx => store_load_outside _ _
        (by omega : maxCharsSmall+1 ≤ newSize (maxCharsSmall-remCap+n)) hx
    have hfr : maxCharsSmall-remCap ≤ maxCharsSmall+1 := by omega
    refine (load_store_load _ _ _ _ hfr).trans ?_
    exact load_write8_outside _ _ (.inl (by omega))
  | large data sz cap =>
    have hl : sz+n+1 ≤ newSize (sz+n) := lt_newSize hlt
    have hs : sz+1 ≤ newSize (sz+n) := by omega
    refine h.yields_instead hi (newSize (sz+n) % 2^63) hf hs
      (m := s.memory.store p (s.memory.load data (sz+1))) ?_ ?_
    · exact fun x hx => store_load_outside _ _ hs hx
    · exact load_store_load _ _ _ _ (by omega)

theorem Owned.shrinkToFit_yields (hi : s.objects i = some r)
    (hr : ∀ data sz cap, r = .large data sz cap → sz+1 ≠ cap → s.Fresh p (sz+1)) :
    Yields (s.shrinkToFit i p) s.contents := by
  rw [shrinkToFit,hi]
  cases r with
  | small data remCap => exact ⟨s,rfl,h,rfl⟩
  | large data sz cap =>
    dsimp only
    by_cases hfi : sz+1 = cap
    · rw [if_pos hfi]
      exact ⟨s,rfl,h,rfl⟩
    have hf := hr data sz cap rfl hfi
    rw [if_neg hfi,alloc_eq hf,bind_some]
    rw [← update_contents_self hi]
    refine h.yields_instead hi (sz+1) hf (le_refl _) (m := s.memory.store p (s.memory.load data (sz+1))) ?_ ?_
    · exact fun x hx => store_load_outside _ _ (le_refl _) hx
    · exact load_store_load _ _ _ _ (by omega)

theorem Owned.clear_yields (hi : s.objects i = some r) : Yields (s.clear i) (update s.contents i (some [])) := by
  rw [clear,hi]
  cases r with
  | small data remCap => exact (h.without_small hi).yields_small (le_refl _) rfl
  | large data sz cap =>
    obtain ⟨n,hn,hl⟩ := h.block hi
    exact h.yields_own hi hn (by omega : 0+1 ≤ n) (fun x hx => write8_outside _ _ (by omega)) (load_zero _ _)
end

def erased (pos n : Nat) (chars : List (BitVec 8)) : List (BitVec 8) := chars.take pos ++ chars.drop (pos+n)

theorem erased_of_le {pos n : Nat} (h : chars.length ≤ pos) : erased pos n chars = chars := by
  rw [erased,List.take_of_length_le h,List.drop_of_length_le (by omega),List.append_nil]

theorem erased_clipped (pos n : Nat) {size : Nat} (h : chars.length = size) (hp : pos < size) :
    erased pos (if n ≥ size ∨ pos+n ≥ size then size-pos else n) chars = erased pos n chars := by
  split
  next he =>
    rw [erased,erased,List.drop_of_length_le (by omega),List.drop_of_length_le (by omega)]
  next => rfl

theorem erased_end {pos n : Nat} (h : pos+n = chars.length) : erased pos n chars = chars.take pos := by
  rw [erased,List.drop_of_length_le (by omega),List.append_nil]

theorem length_value (r : Repr) (m : Bytes) : (r.value m).length = r.size := by
  cases r <;> exact length_load _ _ _

theorem Owned.erase_small_yields (h : s.Owned) {pos k : Nat}
    (hi : s.objects i = some (.small data remCap)) (hk : pos+k ≤ maxCharsSmall-remCap) :
    Yields (if pos+k = maxCharsSmall-remCap then
        some (s.put i (.small (data.write8 pos 0) (remCap+k)))
      else some (s.put i (.small (data.store pos ((Repr.smallBytes data remCap).load (pos+k)
        (maxCharsSmall-remCap-pos-k+1))) (remCap+k)))) (update s.contents i
        (some (erased pos k (data.load 0 (maxCharsSmall-remCap))))) := by
  have hc := h.small_le hi
  have hv := h.without_small hi
  have hsi : maxCharsSmall-(remCap+k) = maxCharsSmall-remCap-k := by omega
  by_cases he : pos+k = maxCharsSmall-remCap
  · rw [if_pos he,erased_end (by rw [length_load,he])]
    refine hv.yields_small (by omega) ?_
    rw [hsi,show maxCharsSmall-remCap-k = pos by omega,
      load_write8_outside _ _ (.inl (by omega)),take_load _ (by omega)]
  rw [if_neg he]
  refine hv.yields_small (by omega) ?_
  have hs : (Repr.smallBytes data remCap).load 0 (maxCharsSmall-remCap) =
      data.load 0 (maxCharsSmall-remCap) := load_write8_outside _ _ (.inl (by omega))
  have hl := load_erased (lt_of_le_of_ne hk he) hs
  rw [zero_add] at hl
  rw [hsi]
  exact hl

theorem Owned.erase_large_yields (h : s.Owned) {data sz cap pos k : Nat}
    (hi : s.objects i = some (.large data sz cap)) (hk : pos+k ≤ sz) : Yields (if pos+k = sz then
        some ((s.write (s.memory.write8 (data+pos) 0)).put i (.large data pos cap))
      else some ((s.write (s.memory.store (data+pos)
        (s.memory.load (data+pos+k) (sz-pos-k+1)))).put i (.large data (sz-k) cap)))
      (update s.contents i (some (erased pos k (s.memory.load data sz)))) := by
  obtain ⟨len,hl,hle⟩ := h.block hi
  by_cases he : pos+k = sz
  · rw [if_pos he,erased_end (by rw [length_load,he])]
    refine h.yields_own hi hl (by omega) (fun x hx => write8_outside _ _ (by omega)) ?_
    rw [load_write8_outside _ _ (.inl (by omega)),take_load _ (by omega)]
  rw [if_neg he]
  refine h.yields_own hi hl (by omega) ?_ (load_erased (by omega) rfl)
  exact fun x hx => store_outside _ (by rw [length_load]; omega)

theorem Owned.erase_yields (h : s.Owned) (hi : s.objects i = some r) (pos n : Nat) :
    Yields (s.erase i pos n) (update s.contents i ((s.contents i).map (erased pos n))) := by
  have hl := length_value r s.memory
  rw [erase,hi,contents_of_objects hi,map_some]
  dsimp only
  by_cases hp : pos ≥ r.size
  · rw [if_pos hp,erased_of_le (hl.le.trans hp),update_contents_self hi]
    exact ⟨s,rfl,h,rfl⟩
  rw [if_neg hp,← erased_clipped pos n hl (not_le.mp hp)]
  generalize hn : (if n ≥ r.size ∨ pos+n ≥ r.size then r.size-pos else n) = k
  have hk : pos+k ≤ r.size := by
    rw [← hn]
    split <;> omega
  cases r with
  | small data remCap => exact h.erase_small_yields hi hk
  | large data sz cap => exact h.erase_large_yields hi hk
end Store
end LensorOS.Strings
