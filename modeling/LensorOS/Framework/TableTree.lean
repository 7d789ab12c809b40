import Mathlib.Data.List.Induction

/-!
# Trees of tables

Tables are named by numbers and have numbered entries, some of which link to another table. A path
of indices from a root names at most one table.
-/
namespace LensorOS.Framework
open List Option
/-- The table reached from `root` along a path of indices. -/
def follow (child : Nat → Nat → Option Nat) (root : Nat) (path : List Nat) : Option Nat := path.foldlM child root

/-- Paths of at most `depth` indices, each below `width`. -/
def Path (width depth : Nat) (path : List Nat) : Prop := path.length ≤ depth ∧ ∀ i ∈ path, i < width

section
variable {child child' : Nat → Nat → Option Nat} {root i : Nat} {width depth : Nat} {path : List Nat}
@[simp] theorem follow_nil : follow child root [] = some root := rfl

theorem follow_cons (i : Nat) (path : List Nat) :
    follow child root (i :: path) = (child root i).bind fun t => follow child t path := by
  simp [follow,foldlM_cons]

theorem follow_cons_eq_some {t : Nat} : follow child root (i :: path) = some t ↔
    ∃ c, child root i = some c ∧ follow child c path = some t := by rw [follow_cons,bind_eq_some_iff]

theorem follow_append (path rest : List Nat) : follow child root (path ++ rest) =
      (follow child root path).bind fun t => follow child t rest := by
  simp [follow,foldlM_append]

theorem follow_snoc (path : List Nat) (i : Nat) :
    follow child root (path ++ [i]) = (follow child root path).bind fun t => child t i := by
  rw [follow_append]
  cases follow child root path with
  | none => rfl
  | some t =>
    rw [bind_some,bind_some,follow_cons]
    cases child t i <;> rfl

theorem Path.nil : Path width depth [] := ⟨Nat.zero_le _,fun _ h => by cases h⟩

theorem path_snoc : Path width (depth+1) (path ++ [i]) ↔ Path width depth path ∧ i < width := by
  simp only [Path,length_append,length_singleton,mem_append,mem_singleton]
  constructor
  · rintro ⟨hl,ha⟩
    exact ⟨⟨by omega,fun j hj => ha j (.inl hj)⟩,ha i (.inr rfl)⟩
  rintro ⟨⟨hl,ha⟩,hi⟩
  refine ⟨by omega,fun j hj => ?_⟩
  rcases hj with hj | rfl
  · exact ha j hj
  · exact hi

theorem path_cons : Path width (depth+1) (i :: path) ↔ i < width ∧ Path width depth path := by
  simp only [Path,length_cons,mem_cons]
  constructor
  · rintro ⟨hl,ha⟩
    exact ⟨ha i (.inl rfl),by omega,fun j hj => ha j (.inr hj)⟩
  rintro ⟨hi,hl,ha⟩
  refine ⟨by omega,fun j hj => ?_⟩
  rcases hj with rfl | hj
  · exact hi
  · exact ha j hj

theorem Path.mono {depth' : Nat} (h : Path width depth path)
    (hl : depth ≤ depth') : Path width depth' path := ⟨Nat.le_trans h.1 hl,h.2⟩

theorem Path.of_append {rest : List Nat} (h : Path width depth (path ++ rest)) : Path width depth path := by
  refine ⟨?_,fun i hi => h.2 i (mem_append_left _ hi)⟩
  have hl := h.1
  rw [length_append] at hl
  omega

/-- Paths depend only on the entries of the tables they go through. -/
theorem follow_congr (hp : Path width depth path)
    (h : ∀ before t i, Path width depth (before ++ [i]) → before ++ [i] <+: path →
      follow child root before = some t → child' t i = child t i) :
    follow child' root path = follow child root path := by
  induction path using reverseRecOn with
  | nil => rfl
  | append_singleton before i ih =>
    have hs := ih hp.of_append fun ρ t j hρ hpr hf =>
      h ρ t j hρ (hpr.trans (prefix_append _ _)) hf
    rw [follow_snoc,follow_snoc,hs]
    cases hr : follow child root before with
    | none => rfl
    | some t => exact h before t i hp prefix_rfl hr

/-- A change to one entry of a table leaves the paths that do not go through it. -/
theorem follow_away {before : List Nat} {t : Nat} (hp : Path width depth path)
    (hon : ∀ ρ, Path width depth ρ → follow child root ρ = some t → ρ = before)
    (ho : ∀ ρ u j, Path width depth (ρ ++ [j]) → follow child root ρ = some u →
      ¬ (u = t ∧ j = i) → child' u j = child u j) (hpr : ¬ before ++ [i] <+: path) :
    follow child' root path = follow child root path := by
  refine follow_congr hp fun ν u j hν hνρ hu => ho ν u j hν hu ?_
  rintro ⟨rfl,rfl⟩
  rw [hon ν hν.of_append hu] at hνρ
  exact hpr hνρ

theorem follow_link {before : List Nat} {t new : Nat} (hp : Path width depth path)
    (hr : follow child root before = some t)
    (hon : ∀ ρ, Path width depth ρ → follow child root ρ = some t → ρ = before)
    (hol : child t i = none) (hn : child' t i = some new)
    (he : ∀ j < width, child' new j = none)
    (ho : ∀ ρ u j, Path width depth (ρ ++ [j]) → follow child root ρ = some u →
      ¬ (u = t ∧ j = i) → child' u j = child u j) : follow child' root path =
      if path = before ++ [i] then some new else follow child root path := by
  by_cases hpr : before ++ [i] <+: path
  · obtain ⟨rest,rfl⟩ := hpr
    have hno : ¬ before ++ [i] <+: before := by
      intro hpr
      have := hpr.length_le
      simp only [length_append,length_singleton] at this
      omega
    have hs : follow child' root (before ++ [i]) = some new := by
      rw [follow_snoc,follow_away hp.of_append.of_append hon ho hno,hr,bind_some,hn]
    have hg : follow child root (before ++ [i]) = none := by rw [follow_snoc,hr,bind_some,hol]
    cases rest with
    | nil => rw [append_nil,if_pos rfl,hs]
    | cons j rest =>
      have hj := hp.2 j (by simp)
      rw [if_neg (by simp),follow_append (before ++ [i]),follow_append (before ++ [i]),hs,hg,bind_some,
        bind_none,follow_cons,he j hj,bind_none]
  · rw [follow_away hp hon ho hpr,if_neg]
    rintro rfl
    exact hpr prefix_rfl
end
end LensorOS.Framework
