import Mathlib.Logic.Function.Basic

/-!
# Objects behind references

References name the objects of a store, each object is named by exactly one reference, and no
reference dangles.
-/
namespace LensorOS.Framework
open Function
variable {κ ι μ : Type*}
structure OneToOne (lookup : κ → Option ι) (store : ι → Option μ) : Prop where
  live : ∀ k i, lookup k = some i → (store i).isSome
  distinct : ∀ k k' i, lookup k = some i → lookup k' = some i → k = k'
  named : ∀ i, (store i).isSome → ∃ k, lookup k = some i

namespace OneToOne
variable [DecidableEq ι] {lookup : κ → Option ι} {store : ι → Option μ} {i : ι} {k : κ}
theorem replace (h : OneToOne lookup store) (hi : (store i).isSome) (x : μ) :
    OneToOne lookup (update store i (some x)) := by
  have hli : ∀ j, (update store i (some x) j).isSome ↔ (store j).isSome := by
    intro j
    by_cases he : j = i
    · subst he
      simp [hi]
    · simp [he]
  constructor
  · intro k j hl
    exact (hli j).mpr (h.live k j hl)
  · exact h.distinct
  · intro j hj
    exact h.named j ((hli j).mp hj)

theorem replace_other (h : OneToOne lookup store) {k' : κ} (hk : lookup k = some i)
    (hn : k' ≠ k) (x : Option μ) :
    (lookup k').bind (update store i x) = (lookup k').bind store := by
  cases hl : lookup k' with
  | none => rfl
  | some i' =>
    have ho : i' ≠ i := by
      rintro rfl
      exact hn (h.distinct k' k i' hl hk)
    simp [ho]

variable [DecidableEq κ]
theorem add (h : OneToOne lookup store) (hk : lookup k = none) (hi : store i = none) (x : μ) :
    OneToOne (update lookup k (some i)) (update store i (some x)) := by
  have ho : ∀ k' i', lookup k' = some i' → k' ≠ k ∧ i' ≠ i := by
    intro k' i' hl
    constructor
    · rintro rfl
      simp [hk] at hl
    · rintro rfl
      simpa [hi] using h.live k' i' hl
  have hc : ∀ k' i', update lookup k (some i) k' = some i' → k' = k ∧ i' = i ∨ lookup k' = some i' := by
    intro k' i' hl
    by_cases he : k' = k
    · subst he
      exact .inl ⟨rfl,by simpa using hl.symm⟩
    · exact .inr (by simpa [he] using hl)
  constructor
  · intro k' i' hl
    rcases hc k' i' hl with ⟨rfl,rfl⟩ | hl
    · simp
    · simpa [(ho k' i' hl).2] using h.live k' i' hl
  · intro k1 k2 i' h1 h2
    rcases hc k1 i' h1 with ⟨hk1,hi1⟩ | ho1
    · rcases hc k2 i' h2 with ⟨hk2,-⟩ | ho2
      · exact hk1.trans hk2.symm
      · exact absurd hi1 (ho k2 i' ho2).2
    rcases hc k2 i' h2 with ⟨-,hi2⟩ | ho2
    · exact absurd hi2 (ho k1 i' ho1).2
    · exact h.distinct k1 k2 i' ho1 ho2
  · intro i' hli
    by_cases he : i' = i
    · subst he
      exact ⟨k,by simp⟩
    · obtain ⟨k',hl⟩ := h.named i' (by simpa [he] using hli)
      exact ⟨k',by simpa [(ho k' i' hl).1] using hl⟩

theorem remove_other (h : OneToOne lookup store) {k' : κ} (hk : lookup k = some i)
    (hn : k' ≠ k) : (update lookup k none k').bind (update store i none) =
      (lookup k').bind store := by
  rw [update_of_ne hn]
  exact h.replace_other hk hn none

theorem remove (h : OneToOne lookup store) (hk : lookup k = some i) :
    OneToOne (update lookup k none) (update store i none) := by
  have hc : ∀ k' i', update lookup k none k' = some i' → k' ≠ k ∧ lookup k' = some i' := by
    intro k' i' hl
    by_cases he : k' = k
    · simp [he] at hl
    · exact ⟨he,by simpa [he] using hl⟩
  constructor
  · intro k' i' hl
    obtain ⟨hn,hol⟩ := hc k' i' hl
    have ho := h.remove_other hk hn
    rw [hl,hol,Option.bind_some,Option.bind_some] at ho
    rw [ho]
    exact h.live k' i' hol
  · intro k1 k2 i' h1 h2
    exact h.distinct k1 k2 i' (hc k1 i' h1).2 (hc k2 i' h2).2
  intro i' hli
  by_cases he : i' = i
  · simp [he] at hli
  obtain ⟨k',hl⟩ := h.named i' (by simpa [he] using hli)
  have hn : k' ≠ k := by
    rintro rfl
    exact he (Option.some.inj (hl.symm.trans hk))
  exact ⟨k',by simpa [hn] using hl⟩
end OneToOne
end LensorOS.Framework
