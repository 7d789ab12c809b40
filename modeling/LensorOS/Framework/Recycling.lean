import Mathlib.Data.List.Basic

/-!
# Recycled buffers

Buffers are taken from a list of free ones, or made, and put back when nobody uses them.
-/
namespace LensorOS.Framework
open List
variable {α : Type} {P : α → Prop} {slots : List α} {free users users' : List Nat} {i : Nat}
def takeFree (fresh : α) (slots : List α) : List Nat → Nat × List α × List Nat
  | [] => (slots.length,slots ++ [fresh],[])
  | i :: rest => (i,slots,rest)

theorem takeFree_other (fresh : α) (slots : List α) (free : List Nat)
    (hn : i ≠ (takeFree fresh slots free).1) : (takeFree fresh slots free).2.1[i]? = slots[i]? ∧
      (i ∈ (takeFree fresh slots free).2.2 ↔ i ∈ free) := by
  cases free with
  | nil => grind [takeFree]
  | cons j rest => exact ⟨rfl,by simp [takeFree,show i ≠ j from hn]⟩

/-- Free buffers are listed once, are not used, and are in the state they are put back in. -/
structure Pool (P : α → Prop) (slots : List α) (free users : List Nat) : Prop where
  nodup : free.Nodup
  idle : ∀ i ∈ free, i ∉ users ∧ ∃ b, slots[i]? = some b ∧ P b
  inside : ∀ i ∈ users, i < slots.length

namespace Pool
variable (h : Pool P slots free users)
include h
theorem set (hi : i ∈ users) (b : α) : Pool P (slots.set i b) free users := by
  refine ⟨h.nodup,fun j hj => ?_,by simpa using h.inside⟩
  obtain ⟨hu,b',hb',hP⟩ := h.idle j hj
  have hn : i ≠ j := fun he => hu (he ▸ hi)
  exact ⟨hu,b',by rw [getElem?_set_ne hn,hb'],hP⟩

theorem shrink (hs : users' ⊆ users) : Pool P slots free users' :=
  ⟨h.nodup,fun j hj => ⟨fun hj' => (h.idle j hj).1 (hs hj'),(h.idle j hj).2⟩,
    fun j hj => h.inside j (hs hj)⟩

theorem give (hi : i ∈ users) (hu : i ∉ users') (hs : users' ⊆ users) {b : α}
    (hb : slots[i]? = some b) (hP : P b) : Pool P slots (i :: free) users' where
  nodup := nodup_cons.mpr ⟨fun hf => (h.idle i hf).1 hi,h.nodup⟩
  idle := forall_mem_cons.mpr ⟨⟨hu,b,hb,hP⟩,(h.shrink hs).idle⟩
  inside := (h.shrink hs).inside

theorem take (fresh : α) (hf : P fresh) : ((takeFree fresh slots free).1 ∉ users ∧
      ∃ b, (takeFree fresh slots free).2.1[(takeFree fresh slots free).1]? = some b ∧ P b) ∧
    Pool P (takeFree fresh slots free).2.1 (takeFree fresh slots free).2.2
      ((takeFree fresh slots free).1 :: users) := by
  cases free with
  | nil =>
    have hn : slots.length ∉ users := fun hi => absurd (h.inside _ hi) (by omega)
    refine ⟨⟨hn,fresh,by simp [takeFree],hf⟩,nodup_nil,by simp [takeFree],?_⟩
    intro j hj
    rw [takeFree,length_append]
    rcases mem_cons.mp hj with rfl | hj
    · exact Nat.lt_succ_self _
    · exact Nat.lt_succ_of_lt (h.inside j hj)
  | cons i rest =>
    obtain ⟨hfr,hr⟩ := nodup_cons.mp h.nodup
    obtain ⟨hi,b,hb,hP⟩ := h.idle i mem_cons_self
    refine ⟨⟨hi,b,hb,hP⟩,hr,fun j hj => ?_,forall_mem_cons.mpr
      ⟨(List.getElem?_eq_some_iff.mp hb).1,h.inside⟩⟩
    obtain ⟨hu,hs⟩ := h.idle j (mem_cons_of_mem i hj)
    have hne : j ≠ i := fun he => hfr (he ▸ hj)
    exact ⟨by simp [takeFree,hne,hu],hs⟩
end Pool
end LensorOS.Framework
