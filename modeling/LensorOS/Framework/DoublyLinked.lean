import Mathlib.Data.List.Nodup
import Mathlib.Data.List.Basic

/-!
# Doubly linked lists

Nodes with a link forward and a link back, both `null` at the ends. `Chain` says which nodes a list
visits in which order.
-/
namespace LensorOS.Framework
open List
variable {α : Type*} (null : α)
def firstOf (nodes : List α) : α := nodes.headD null

def Chain (next prev : α → α) (before : α) : List α → Prop
  | [] => True
  | a :: rest => next a = firstOf null rest ∧ prev a = before ∧ Chain next prev a rest

/-- Follow the links forward to the first node that is wanted, or to the end. `none` when neither
is reached within the number of steps. -/
def search [DecidableEq α] (next : α → α) (wanted : α → Bool) : (steps : Nat) → α → Option α
  | 0, _ => none
  | steps+1, a =>
    if a = null then some null
    else if wanted a then some a
    else search next wanted steps (next a)

variable {null} {next next' prev prev' : α → α} {before b : α} {xs ys : List α}
@[simp] theorem firstOf_nil : firstOf null [] = null := rfl
@[simp] theorem firstOf_cons {a : α} : firstOf null (a :: xs) = a := rfl

namespace Chain
theorem congr (h : Chain null next prev before xs) (hn : ∀ a ∈ xs, next' a = next a)
    (hp : ∀ a ∈ xs, prev' a = prev a) : Chain null next' prev' before xs := by
  induction xs generalizing before with
  | nil => trivial
  | cons a rest ih =>
    obtain ⟨ha,ha',hr⟩ := h
    refine ⟨(hn a mem_cons_self).trans ha,(hp a mem_cons_self).trans ha',?_⟩
    exact ih hr (fun x hx => hn x (mem_cons_of_mem a hx))
      fun x hx => hp x (mem_cons_of_mem a hx)

theorem at_node (h : Chain null next prev before (xs ++ b :: ys)) :
    next b = firstOf null ys ∧ prev b = xs.getLastD before := by
  induction xs generalizing before with
  | nil => exact ⟨h.1,h.2.1⟩
  | cons a rest ih =>
    obtain ⟨hn,hp⟩ := ih h.2.2
    refine ⟨hn,?_⟩
    rw [hp,getLastD_cons]

theorem firstOf_mem_or (null : α) (xs : List α) : firstOf null xs = null ∨ firstOf null xs ∈ xs := by
  cases xs with
  | nil => exact .inl rfl
  | cons a rest => exact .inr mem_cons_self

/-- Take a node out: the node before it is linked to the one behind it, and back. -/
theorem unlink [DecidableEq α] (h : Chain null next prev before (xs ++ b :: ys))
    (hn : (before :: (xs ++ b :: ys)).Nodup) (hnu : null ∉ xs ++ ys)
    (hnex : ∀ a ∈ xs ++ ys, next' a = if a = prev b then next b else next a)
    (hp : ∀ a ∈ xs ++ ys, prev' a = if a = next b then prev b else prev a) :
    Chain null next' prev' before (xs ++ ys) := by
  induction xs generalizing before with
  | nil =>
    obtain ⟨hb,hb',hr⟩ := h
    obtain ⟨hbe,hn⟩ := nodup_cons.mp hn
    have ho : ∀ a ∈ ys, a ≠ prev b := by
      rintro a ha rfl
      exact hbe (hb' ▸ mem_cons_of_mem b ha)
    cases ys with
    | nil => trivial
    | cons y zs =>
      obtain ⟨hy,-,hz⟩ := hr
      rw [firstOf_cons] at hb
      have hyz : y ∉ zs := (nodup_cons.mp (nodup_cons.mp hn).2).1
      refine ⟨?_,?_,hz.congr ?_ ?_⟩
      · rw [hnex y mem_cons_self,if_neg (ho y mem_cons_self),hy]
      · rw [hp y mem_cons_self,if_pos hb.symm,hb']
      · intro a ha
        have hm := mem_cons_of_mem y ha
        rw [hnex a hm,if_neg (ho a hm)]
      intro a ha
      have hne : a ≠ next b := by
        rintro rfl
        rw [hb] at ha
        exact hyz ha
      rw [hp a (mem_cons_of_mem y ha),if_neg hne]
  | cons a rest ih =>
    obtain ⟨ha,ha',hr⟩ := h
    obtain ⟨hb,hb'⟩ := hr.at_node
    have hn' := (nodup_cons.mp hn).2
    have hf := (nodup_cons.mp hn').1
    have hm : a ∈ a :: rest ++ ys := mem_cons_self
    refine ⟨?_,?_,ih hr hn' (fun h => hnu (mem_cons_of_mem a h))
      (fun x hx => hnex x (mem_cons_of_mem a hx))
      fun x hx => hp x (mem_cons_of_mem a hx)⟩
    · rw [hnex a hm,hb']
      cases rest with
      | nil => simp [hb]
      | cons c rest' =>
        have hne : a ≠ (c :: rest').getLastD a := by
          intro he
          apply hf
          rw [getLastD_cons] at he
          rw [he]
          exact mem_append_left _ getLastD_mem_cons
        rw [if_neg hne,ha]
        rfl
    · have hne : a ≠ next b := by
        rw [hb]
        intro he
        rcases firstOf_mem_or null ys with hen | hi
        · exact hnu (hen ▸ he ▸ hm)
        · exact hf (mem_append_right _ (mem_cons_of_mem b (he ▸ hi)))
      rw [hp a hm,if_neg hne,ha']

theorem push [DecidableEq α] (h : Chain null next prev null xs) (hn : xs.Nodup)
    (hf : next' b = firstOf null xs) (hf' : prev' b = null)
    (hnex : ∀ a ∈ xs, next' a = next a)
    (hp : ∀ a ∈ xs, prev' a = if a = firstOf null xs then b else prev a) :
    Chain null next' prev' null (b :: xs) := by
  refine ⟨hf,hf',?_⟩
  cases xs with
  | nil => trivial
  | cons y zs =>
    obtain ⟨hy,-,hz⟩ := h
    have hyz : y ∉ zs := (nodup_cons.mp hn).1
    refine ⟨(hnex y mem_cons_self).trans hy,?_,hz.congr ?_ ?_⟩
    · rw [hp y mem_cons_self,firstOf_cons,if_pos rfl]
    · exact fun a ha => hnex a (mem_cons_of_mem y ha)
    intro a ha
    have hne : a ≠ y := fun he => hyz (he ▸ ha)
    rw [hp a (mem_cons_of_mem y ha),firstOf_cons,if_neg hne]

theorem search_eq [DecidableEq α] {wanted : α → Bool} {steps : Nat}
    (h : Chain null next prev before xs) (hn : null ∉ xs) (hs : xs.length < steps) :
    search null next wanted steps (firstOf null xs) = some ((xs.find? wanted).getD null) := by
  induction xs generalizing before steps with
  | nil =>
    cases steps with
    | zero => cases hs
    | succ steps => simp [search]
  | cons a rest ih =>
    cases steps with
    | zero => cases hs
    | succ steps =>
      obtain ⟨ha,-,hr⟩ := h
      have hne : a ≠ null := fun he => hn (he ▸ mem_cons_self)
      rw [firstOf_cons,search,if_neg hne,find?_cons]
      cases hw : wanted a with
      | true => simp
      | false =>
        rw [ha]
        exact ih hr (fun hm => hn (mem_cons_of_mem a hm))
          (Nat.lt_of_succ_lt_succ hs)
end Chain
end LensorOS.Framework
