import Mathlib.Logic.Function.Basic
import Mathlib.Data.List.Basic

/-!
# Blocks with one owner

Blocks of a memory, and holders that have the address of at most one block. A holder releases its
block, takes a fresh one, or passes its block on.
-/
namespace LensorOS.Framework
open Function
def Separate (x y : Nat × Nat) : Prop := x.1+x.2 ≤ y.1 ∨ y.1+y.2 ≤ x.1

variable {ι : Type*}
/-- Every block has exactly one holder, and every holder a block. -/
structure Exclusive (own : ι → Option Nat) (blocks : List (Nat × Nat)) : Prop where
  held : ∀ i a, own i = some a → ∃ n, (a,n) ∈ blocks
  unique : ∀ i j a, own i = some a → own j = some a → i = j
  owned : ∀ x ∈ blocks, ∃ i, own i = some x.1
  apart : ∀ x ∈ blocks, ∀ y ∈ blocks, x = y ∨ Separate x y
  positive : ∀ x ∈ blocks, 0 < x.2

namespace Exclusive
variable {own : ι → Option Nat} {blocks : List (Nat × Nat)} {i j : ι} {a b n k : Nat}
theorem length_unique (h : Exclusive own blocks) (hn : (a,n) ∈ blocks) (hk : (a,k) ∈ blocks) : n = k := by
  rcases h.apart _ hn _ hk with he | hs
  · exact (Prod.mk.inj he).2
  have hp : 0 < n := h.positive _ hn
  have hp' : 0 < k := h.positive _ hk
  have hl : a+n ≤ a ∨ a+k ≤ a := hs
  omega

theorem separate (h : Exclusive own blocks) (hne : i ≠ j) (hi : own i = some a)
    (hj : own j = some b) (hn : (a,n) ∈ blocks) (hk : (b,k) ∈ blocks) :
    Separate (a,n) (b,k) := by
  refine (h.apart _ hn _ hk).resolve_left fun he => hne ?_
  have ha : a = b := (Prod.mk.inj he).1
  exact h.unique i j a hi (ha ▸ hj)

variable [DecidableEq ι]
theorem release (h : Exclusive own blocks) (hi : own i = some a) :
    Exclusive (update own i none) (blocks.filter fun x => x.1 ≠ a) := by
  have ho : ∀ j b, update own i none j = some b → own j = some b ∧ b ≠ a := by
    intro j b hj
    by_cases hji : j = i
    · rw [hji,update_self] at hj
      cases hj
    rw [update_of_ne hji] at hj
    refine ⟨hj,?_⟩
    rintro rfl
    exact hji (h.unique j i b hj hi)
  have hs : ∀ x ∈ blocks.filter fun x => x.1 ≠ a, x ∈ blocks ∧ x.1 ≠ a := fun x hx => by simpa using hx
  refine ⟨?_,?_,?_,?_,?_⟩
  · intro j b hj
    obtain ⟨hj,hb⟩ := ho j b hj
    obtain ⟨n,hn⟩ := h.held j b hj
    exact ⟨n,by simpa using ⟨hn,hb⟩⟩
  · exact fun j j' b hj hj' => h.unique j j' b (ho j b hj).1 (ho j' b hj').1
  · intro x hx
    obtain ⟨hx,hne⟩ := hs x hx
    obtain ⟨j,hj⟩ := h.owned x hx
    refine ⟨j,?_⟩
    have hji : j ≠ i := by
      rintro rfl
      exact hne (Option.some.inj (hj.symm.trans hi))
    rw [update_of_ne hji,hj]
  · exact fun x hx y hy => h.apart x (hs x hx).1 y (hs y hy).1
  · exact fun x hx => h.positive x (hs x hx).1

theorem take (h : Exclusive own blocks) (hi : own i = none)
    (hf : ∀ x ∈ blocks, Separate (a,n) x) (hn : 0 < n) :
    Exclusive (update own i (some a)) ((a,n) :: blocks) := by
  have hne : ∀ k, (a,k) ∉ blocks := by
    intro k hk
    have hp : 0 < k := h.positive _ hk
    have hs : a+n ≤ a ∨ a+k ≤ a := hf _ hk
    omega
  have ho : ∀ j b, update own i (some a) j = some b → j = i ∧ b = a ∨ j ≠ i ∧ own j = some b ∧ b ≠ a := by
    intro j b hj
    by_cases hji : j = i
    · rw [hji,update_self] at hj
      exact .inl ⟨hji,(Option.some.inj hj).symm⟩
    rw [update_of_ne hji] at hj
    refine .inr ⟨hji,hj,?_⟩
    rintro rfl
    obtain ⟨k,hk⟩ := h.held j b hj
    exact hne k hk
  refine ⟨?_,?_,?_,?_,?_⟩
  · intro j b hj
    rcases ho j b hj with ⟨-,rfl⟩ | ⟨-,hj,-⟩
    · exact ⟨n,List.mem_cons_self⟩
    · obtain ⟨k,hk⟩ := h.held j b hj
      exact ⟨k,List.mem_cons_of_mem _ hk⟩
  · intro j j' b hj hj'
    rcases ho j b hj with ⟨rfl,rfl⟩ | ⟨-,hj,hb⟩
    · rcases ho j' b hj' with ⟨rfl,-⟩ | ⟨-,-,hb⟩
      · rfl
      · exact absurd rfl hb
    rcases ho j' b hj' with ⟨-,rfl⟩ | ⟨-,hj',-⟩
    · exact absurd rfl hb
    · exact h.unique j j' b hj hj'
  · intro x hx
    rcases List.mem_cons.mp hx with rfl | hx
    · exact ⟨i,update_self ..⟩
    obtain ⟨j,hj⟩ := h.owned x hx
    have hji : j ≠ i := by
      rintro rfl
      rw [hi] at hj
      cases hj
    exact ⟨j,by rw [update_of_ne hji,hj]⟩
  · intro x hx y hy
    rcases List.mem_cons.mp hx with rfl | hx
    · rcases List.mem_cons.mp hy with rfl | hy
      · exact .inl rfl
      · exact .inr (hf y hy)
    rcases List.mem_cons.mp hy with rfl | hy
    · exact .inr (Or.symm (hf x hx))
    · exact h.apart x hx y hy
  · intro x hx
    rcases List.mem_cons.mp hx with rfl | hx
    · exact hn
    · exact h.positive x hx

theorem pass (h : Exclusive own blocks) (hi : own i = none) (hn : i ≠ j) :
    Exclusive (update (update own i (own j)) j none) blocks := by
  have ho : ∀ k b, update (update own i (own j)) j none k = some b →
      k = i ∧ own j = some b ∨ k ≠ i ∧ k ≠ j ∧ own k = some b := by
    intro k b hk
    by_cases hkj : k = j
    · rw [hkj,update_self] at hk
      cases hk
    rw [update_of_ne hkj] at hk
    by_cases hki : k = i
    · rw [hki,update_self] at hk
      exact .inl ⟨hki,hk⟩
    · rw [update_of_ne hki] at hk
      exact .inr ⟨hki,hkj,hk⟩
  refine ⟨?_,?_,?_,h.apart,h.positive⟩
  · intro k b hk
    rcases ho k b hk with ⟨-,hb⟩ | ⟨-,-,hb⟩
    · exact h.held j b hb
    · exact h.held k b hb
  · intro k k' b hk hk'
    rcases ho k b hk with ⟨rfl,hb⟩ | ⟨-,hkj,hb⟩
    · rcases ho k' b hk' with ⟨rfl,-⟩ | ⟨-,hkj',hb'⟩
      · rfl
      · exact absurd (h.unique k' j b hb' hb) hkj'
    rcases ho k' b hk' with ⟨rfl,hb'⟩ | ⟨-,-,hb'⟩
    · exact absurd (h.unique k j b hb hb') hkj
    · exact h.unique k k' b hb hb'
  intro x hx
  obtain ⟨k,hk⟩ := h.owned x hx
  by_cases hkj : k = j
  · refine ⟨i,?_⟩
    rw [update_of_ne hn,update_self,← hkj,hk]
  have hki : k ≠ i := by
    rintro rfl
    rw [hi] at hk
    cases hk
  exact ⟨k,by rw [update_of_ne hkj,update_of_ne hki,hk]⟩
end Exclusive
end LensorOS.Framework
