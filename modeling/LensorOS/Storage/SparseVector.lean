import Mathlib.Data.List.Nodup
import Mathlib.Data.List.Count
import Mathlib.Data.List.Pairwise
import Mathlib.Logic.Function.Basic

/-!
# Vectors with holes

Erasing an element leaves a hole, and the next element that is pushed goes into the hole made
last. Invalid elements are `none`.
-/
namespace LensorOS.Storage
open List Function
theorem lt_of_getElem? {α : Type} {l : List α} {i : Nat} {x : α} (h : l[i]? = some x) :
    i < l.length := (List.getElem?_eq_some_iff.mp h).1

/-- The elements with the stack of free indices, which are the holes. -/
structure SparseVector (α : Type) where
  els : List (Option α)
  idxs : List Nat
  nodup : idxs.Nodup
  holes : ∀ i, i ∈ idxs ↔ els[i]? = some none

namespace SparseVector
variable {α : Type} (v : SparseVector α) {i free : Nat} {a : α} {rest : List Nat}
def empty : SparseVector α := ⟨[],[],nodup_nil,by simp⟩

/-- An index past the end and a hole both read as invalid. -/
def get (i : Nat) : Option α := v.els[i]?.join

def allocatedSize : Nat := v.els.length

theorem holes_append (el : α) (h : v.idxs = []) (i : Nat) :
    i ∈ ([] : List Nat) ↔ (v.els ++ [some el])[i]? = some none := by
  have hf := v.holes i
  rw [h] at hf
  rw [hf,getElem?_append]
  split
  · rfl
  · next hl =>
    rw [getElem?_eq_none (by omega),getElem?_singleton]
    split <;> simp

theorem holes_reuse (el : α) (h : v.idxs = free :: rest) (i : Nat) :
    i ∈ rest ↔ (v.els.set free (some el))[i]? = some none := by
  have hn := v.nodup
  have hf := v.holes i
  rw [h] at hn hf
  rw [getElem?_set]
  split
  · next he =>
    subst he
    simp only [(nodup_cons.mp hn).1,false_iff]
    split <;> simp
  · next hne => rw [← hf,mem_cons,or_iff_right (Ne.symm hne)]

def insert (el : α) : Nat × SparseVector α := match h : v.idxs with
  | [] => (v.els.length, ⟨v.els ++ [some el],[],nodup_nil,v.holes_append el h⟩)
  | free :: rest =>
    (free, ⟨v.els.set free (some el),rest,(nodup_cons.mp (h ▸ v.nodup)).2,v.holes_reuse el h⟩)

/-- Insert an element, and return its index. An invalid element is not inserted, and the index
returned is 0. -/
def pushBack : Option α → Nat × SparseVector α
  | none => (0,v)
  | some el => v.insert el

/-- Place a valid element at an index; a hole there is no longer free. -/
def replace (i : Nat) (el : α) : SparseVector α := if i < v.els.length then
    ⟨v.els.set i (some el),v.idxs.filter (· ≠ i),v.nodup.filter _,by
      intro j
      rw [mem_filter,v.holes,getElem?_set]
      by_cases he : i = j
      · subst he
        simp
      · simp [he,Ne.symm he]⟩
  else v

theorem not_free (h : v.els[i]? = some (some a)) : i ∉ v.idxs := by
  rw [v.holes,h]
  simp

/-- Make a hole. Where there is one already, or no element, nothing happens. -/
def erase (i : Nat) : SparseVector α := match h : v.els[i]? with
  | some (some _) =>
    ⟨v.els.set i none,i :: v.idxs,nodup_cons.mpr ⟨v.not_free h,v.nodup⟩,by
      intro j
      rw [mem_cons,v.holes,getElem?_set]
      by_cases he : i = j
      · subst he
        simp [lt_of_getElem? h]
      · simp [he,Ne.symm he]⟩
  | _ => v

def pairs : List (Nat × α) := v.els.zipIdx.filterMap fun entry => entry.1.map fun a => (entry.2,a)
def count [DecidableEq α] (a : α) : Nat := v.els.count (some a)

theorem get_eq_some : v.get i = some a ↔ v.els[i]? = some (some a) := by rw [get,Option.join_eq_some_iff]

theorem get_lt (h : v.get i = some a) : i < v.allocatedSize := lt_of_getElem? (v.get_eq_some.mp h)

theorem get_eq_none_of_free (h : i ∈ v.idxs) : v.get i = none := by
  rw [get,(v.holes i).mp h]
  rfl

@[simp] theorem get_empty : (empty : SparseVector α).get i = none := rfl

section
variable (a : α)
theorem insert_of_full (h : v.idxs = []) : (v.insert a).1 = v.allocatedSize ∧
    (v.insert a).2.els = v.els ++ [some a] ∧ (v.insert a).2.idxs = [] := by
  unfold insert
  split
  · exact ⟨rfl,rfl,rfl⟩
  · next hi => simp [h] at hi

theorem insert_of_hole (h : v.idxs = free :: rest) :
    (v.insert a).1 = free ∧ (v.insert a).2.els = v.els.set free (some a) := by
  unfold insert
  split
  · next hi => simp [h] at hi
  next hi =>
  rw [h] at hi
  cases hi
  exact ⟨rfl,rfl⟩

theorem get_insert_fresh : v.get (v.insert a).1 = none := by
  match hi : v.idxs with
  | [] =>
    rw [(v.insert_of_full a hi).1,get,allocatedSize,getElem?_eq_none (by omega)]
    rfl
  | free :: rest =>
    rw [(v.insert_of_hole a hi).1]
    exact v.get_eq_none_of_free (hi ▸ mem_cons_self)

theorem get_insert : (v.insert a).2.get = update v.get (v.insert a).1 (some a) := by
  funext i
  match hid : v.idxs with
  | [] =>
    obtain ⟨hi,hel,-⟩ := v.insert_of_full a hid
    rw [Function.update_apply,hi,get,get,hel,getElem?_append,allocatedSize]
    split
    · next hl => rw [if_neg (by omega)]
    next hl =>
    rw [getElem?_singleton,getElem?_eq_none (by omega)]
    by_cases he : i = v.els.length
    · simp [he]
    · rw [if_neg (by omega),if_neg he]
  | free :: rest =>
    obtain ⟨hi,hel⟩ := v.insert_of_hole a hid
    have hf := (v.holes free).mp (hid ▸ mem_cons_self)
    have hl := lt_of_getElem? hf
    rw [update_apply,hi,get,get,hel,getElem?_set]
    by_cases he : i = free
    · simp [he,hl]
    · simp [he,Ne.symm he]
end

theorem get_erase (i : Nat) : (v.erase i).get = update v.get i none := by
  funext j
  unfold erase
  split
  · rw [update_apply,get,get,getElem?_set]
    by_cases he : j = i
    · subst he
      rw [if_pos rfl,if_pos rfl]
      split <;> rfl
    · simp [he,Ne.symm he]
  · next hi =>
    rw [update_apply]
    split
    · next he =>
      subst he
      cases hg : v.get j with
      | none => rfl
      | some a => exact absurd (v.get_eq_some.mp hg) (hi a)
    · rfl

theorem get_replace (h : i < v.allocatedSize) (a : α) : (v.replace i a).get = update v.get i (some a) := by
  funext j
  have h : i < v.els.length := h
  unfold replace
  rw [if_pos h,update_apply,get,get,getElem?_set]
  by_cases he : j = i
  · subst he
    simp [h]
  · simp [he,Ne.symm he]

theorem mem_pairs : (i,a) ∈ v.pairs ↔ v.get i = some a := by
  rw [pairs,mem_filterMap,get_eq_some]
  constructor
  · rintro ⟨⟨el,j⟩,hm,he⟩
    obtain ⟨b,rfl,hp⟩ := Option.map_eq_some_iff.mp he
    cases hp
    exact mk_mem_zipIdx_iff_getElem?.mp hm
  · intro hg
    exact ⟨(some a,i),mk_mem_zipIdx_iff_getElem?.mpr hg,rfl⟩

theorem pairs_increasing : v.pairs.Pairwise fun x y => x.1 < y.1 := by
  have hi : v.els.zipIdx.Pairwise fun x y => x.2 < y.2 := by
    have hr : (v.els.zipIdx.map Prod.snd).Pairwise (· < ·) := by
      rw [zipIdx_map_snd]
      exact pairwise_lt_range'
    exact pairwise_map.mp hr
  refine hi.filterMap _ ?_
  intro x y hl x' hx y' hy
  obtain ⟨a,-,rfl⟩ := Option.map_eq_some_iff.mp hx
  obtain ⟨b,-,rfl⟩ := Option.map_eq_some_iff.mp hy
  exact hl

section
variable [DecidableEq α] (a b : α)
theorem count_insert : (v.insert a).2.count b = v.count b+if a = b then 1 else 0 := by
  match hi : v.idxs with
  | [] =>
    obtain ⟨-,he,-⟩ := v.insert_of_full a hi
    simp [count,he,count_append,count_singleton]
  | free :: rest =>
    obtain ⟨-,he⟩ := v.insert_of_hole a hi
    have hf := (v.holes free).mp (hi ▸ mem_cons_self)
    obtain ⟨hl,hn⟩ := List.getElem?_eq_some_iff.mp hf
    simp [count,he,count_set,hl,hn]

variable {a}
theorem count_erase (h : v.get i = some a) : (v.erase i).count b+(if a = b then 1 else 0) = v.count b := by
  have hel := v.get_eq_some.mp h
  obtain ⟨hl,hs⟩ := List.getElem?_eq_some_iff.mp hel
  have hels : (v.erase i).els = v.els.set i none := by
    unfold erase
    split
    · rfl
    · next hi => exact absurd hel (hi a)
  have hp : a = b → 0 < v.els.count (some b) := by
    rintro rfl
    exact count_pos_iff.mpr (mem_of_getElem? hel)
  simp only [count,hels,count_set,hl,hs]
  by_cases he : a = b
  · have := hp he
    simp [he]
    omega
  · simp [he]

theorem count_replace (h : v.get i = some a) (c : α) :
    (v.replace i c).count b+(if a = b then 1 else 0) = v.count b+if c = b then 1 else 0 := by
  have hel := v.get_eq_some.mp h
  obtain ⟨hl,hs⟩ := List.getElem?_eq_some_iff.mp hel
  have hp : a = b → 0 < v.els.count (some b) := by
    rintro rfl
    exact count_pos_iff.mpr (mem_of_getElem? hel)
  unfold replace
  rw [if_pos hl]
  simp only [count,count_set,hl,hs]
  by_cases he : a = b
  · have := hp he
    simp [he]
    omega
  · simp [he]

theorem count_pos : 0 < v.count a ↔ ∃ i, v.get i = some a := by
  rw [count,count_pos_iff,mem_iff_getElem?]
  simp only [get_eq_some]
end
end SparseVector
end LensorOS.Storage
