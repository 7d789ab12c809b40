import Mathlib.Data.List.Basic

/-!
# Counted resources

Holders share numbered resources, and each resource counts its holders. A holder that drops a
resource leaves an empty place.
-/
namespace LensorOS.Framework
open List
theorem getElem?_snoc {α : Type} (xs : List α) (x : α) (i : Nat) :
    (xs ++ [x])[i]? = if i = xs.length then some x else xs[i]? := by
  rcases Nat.lt_trichotomy i xs.length with hl | rfl | hg
  · rw [getElem?_append_left hl,if_neg (by omega)]
  · rw [getElem?_concat_length,if_pos rfl]
  · rw [if_neg (by omega),getElem?_eq_none (by simp; omega),getElem?_eq_none (by omega)]

/-- Each count is the number of holders, and no holder has a resource that is not there. -/
structure Shared (holders : List (Option Nat)) (counts : List Nat) : Prop where
  within : ∀ r, some r ∈ holders → r < counts.length
  counted : ∀ (r : Nat) (n : Nat), counts[r]? = some n → n = holders.count (some r)

namespace Shared
variable {holders : List (Option Nat)} {counts : List Nat} {i j r : Nat}
theorem nil : Shared [] [] where
  within := by simp
  counted := by simp

theorem sole (ho : holders.count (some r) = 1) (hi : holders[i]? = some (some r))
    (hj : holders[j]? = some (some r)) : i = j := by
  by_contra hn
  obtain ⟨hl,hg⟩ := List.getElem?_eq_some_iff.mp hi
  have hd : (holders.set i none).count (some r) = 0 := by
    rw [List.count_set hl,hg,ho]
    simp
  have hs : (holders.set i none)[j]? = some (some r) := by rw [getElem?_set_ne hn,hj]
  exact count_eq_zero.mp hd (mem_of_getElem? hs)

theorem count_set {old : Option Nat} (hi : holders[i]? = some old) (new : Option Nat) (r : Nat) :
    (holders.set i new).count (some r)+(if old = some r then 1 else 0) =
      holders.count (some r)+if new = some r then 1 else 0 := by
  obtain ⟨hl,hg⟩ := List.getElem?_eq_some_iff.mp hi
  have hp : old = some r → 0 < holders.count (some r) := by
    intro h
    exact count_pos_iff.mpr (h ▸ mem_of_getElem? hi)
  rw [List.count_set hl,hg]
  split <;> split <;> simp_all

theorem count_drop_other (hi : holders[i]? = some (some r)) {q : Nat} (hn : q ≠ r) :
    (holders.set i none).count (some q) = holders.count (some q) := by
  have hs := count_set hi none q
  rw [if_neg fun h => hn (Option.some.inj h).symm,if_neg nofun] at hs
  exact hs

variable (h : Shared holders counts)
include h
theorem lt_of_count_pos (hr : 0 < holders.count (some r)) : r < counts.length := h.within r (count_pos_iff.mp hr)

section
variable {holders' : List (Option Nat)}
theorem gain (hr : r < counts.length)
    (hmo : ∀ q, holders'.count (some q) = holders.count (some q)+if r = q then 1 else 0) :
    Shared holders' (counts.modify r (· + 1)) where
  within := by
    intro q hq
    rw [← count_pos_iff,hmo] at hq
    rw [length_modify]
    by_cases he : r = q
    · exact he ▸ hr
    · rw [if_neg he] at hq
      exact h.lt_of_count_pos hq
  counted := by
    intro q n hn
    rw [getElem?_modify] at hn
    obtain ⟨m,hm,rfl⟩ := Option.map_eq_some_iff.mp hn
    rw [hmo,h.counted q m hm]
    split <;> rfl

theorem lose
    (hl : ∀ q, holders'.count (some q)+(if r = q then 1 else 0) = holders.count (some q)) :
    Shared holders' (counts.modify r (· - 1)) where
  within := by
    intro q hq
    rw [← count_pos_iff] at hq
    rw [length_modify]
    exact h.lt_of_count_pos (by rw [← hl]; omega)
  counted := by
    intro q n hn
    rw [getElem?_modify] at hn
    obtain ⟨m,hm,rfl⟩ := Option.map_eq_some_iff.mp hn
    rw [h.counted q m hm,← hl]
    split
    · omega
    · rfl

theorem fresh (hm : ∀ q, holders'.count (some q) =
      holders.count (some q)+if counts.length = q then 1 else 0) :
    Shared holders' (counts ++ [1]) where
  within := by
    intro q hq
    rw [← count_pos_iff,hm] at hq
    rw [length_append,length_singleton]
    by_cases he : counts.length = q
    · omega
    · rw [if_neg he] at hq
      exact Nat.lt_succ_of_lt (h.lt_of_count_pos hq)
  counted := by
    intro q n hn
    rw [hm]
    rw [getElem?_snoc] at hn
    split at hn
    · next hl =>
      have hno : holders.count (some q) = 0 := by
        by_contra hp
        exact Nat.ne_of_lt (h.lt_of_count_pos (Nat.pos_of_ne_zero hp)) hl
      rw [hno,if_pos hl.symm,← Option.some.inj hn]
    · next hne => rw [h.counted q n hn,if_neg (Ne.symm hne),Nat.add_zero]
end

theorem create : Shared (holders ++ [some counts.length]) (counts ++ [1]) := h.fresh fun q => by simp [count_singleton]

theorem share (hr : some r ∈ holders) : Shared (holders ++ [some r]) (counts.modify r (· + 1)) :=
  h.gain (h.within r hr) fun q => by simp [count_singleton]

theorem drop (hi : holders[i]? = some (some r)) : Shared (holders.set i none) (counts.modify r (· - 1)) := by
  refine h.lose fun q => ?_
  have hs := count_set hi none q
  simpa using hs
end Shared
end LensorOS.Framework
