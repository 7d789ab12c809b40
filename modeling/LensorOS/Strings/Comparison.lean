import LensorOS.Strings.BasicString

/-!
# Comparisons of strings

The order of strings with the `memcmp` of the kernel and with that of a program.
-/
namespace LensorOS.Strings
inductive Space | kernel | user

namespace Space
variable (c : Space)
/-- What `memcmp` returns at the first bytes that differ. -/
def differ (a b : BitVec 8) : Int := match c with
  | kernel => 1
  | user => if a < b then -1 else 1

theorem differ_ne_zero (a b : BitVec 8) : c.differ a b ≠ 0 := by
  unfold differ
  grind

def memcmp : List (BitVec 8) → List (BitVec 8) → Int
  | a :: s, b :: t => if a = b then memcmp s t else c.differ a b
  | _, _ => 0

variable (a b : List (BitVec 8))
def compare : Int :=
  let n := if a.length < b.length then a.length else b.length
  let cmp := c.memcmp (a.take n) (b.take n)
  if cmp = 0 then if a.length < b.length then -1 else if b.length < a.length then 1 else cmp
  else cmp

/-- The comparison of two strings is that of their views, the other way round. -/
def stringCompare : Int := c.compare b a

def eq : Bool := if a.length ≠ b.length then false else c.memcmp a b = 0
def ne : Bool := !c.eq a b
def lt : Bool := c.compare a b < 0
def gt : Bool := c.compare a b > 0
def le : Bool := c.compare a b ≤ 0
def ge : Bool := c.compare a b ≥ 0

variable {c a b}
theorem compare_cons (x y : BitVec 8) : c.compare (x :: a) (y :: b) =
    if x = y then c.compare a b else c.differ x y := by
  have hd := c.differ_ne_zero x y
  simp only [compare,List.length_cons,Nat.add_lt_add_iff_right,← apply_ite (·+1),List.take_succ_cons,
    memcmp]
  split_ifs <;> simp_all

/-- The order is right as long as no difference is left to the kernel's `memcmp`. -/
theorem compare_spec (h : c = user ∨ a <+: b ∨ b <+: a) :
    (c.compare a b < 0 ↔ a < b) ∧ (c.compare a b = 0 ↔ a = b) ∧ (c.compare a b > 0 ↔ b < a) := by
  induction a generalizing b with
  | nil => cases b <;> simp [compare,memcmp]
  | cons x a ih =>
    cases b with
    | nil => simp [compare,memcmp]
    | cons y b =>
      rw [compare_cons,List.cons_lt_cons_iff,List.cons_lt_cons_iff,List.cons.injEq]
      split_ifs with hx
      · have := ih (b := b) (by grind)
        grind
      obtain rfl : c = user := by grind
      unfold differ
      grind

theorem eq_iff : c.eq a b ↔ a = b := by
  induction a generalizing b with
  | nil => cases b <;> simp [eq,memcmp]
  | cons x a ih =>
    cases b with
    | nil => simp [eq]
    | cons y b =>
      have hd := differ_ne_zero c x y
      simp only [eq,memcmp,List.length_cons,List.cons.injEq,← ih] at *
      grind

/-- At a difference the kernel's `memcmp` says that the first string is greater. -/
theorem compare_kernel (ha : ¬ a <+: b) (hb : ¬ b <+: a) : kernel.compare a b = 1 := by
  induction a generalizing b with
  | nil => exact absurd List.nil_prefix ha
  | cons x a ih =>
    cases b with
    | nil => exact absurd List.nil_prefix hb
    | cons y b =>
      rw [List.cons_prefix_cons] at ha hb
      rw [compare_cons]
      split_ifs with hx
      · exact ih (fun h => ha ⟨hx,h⟩) fun h => hb ⟨hx.symm,h⟩
      · rfl

variable (c a b) in
def Agrees : Prop :=
  ((c.lt a b ↔ a < b) ∧ (c.eq a b ↔ a = b) ∧ (c.gt a b ↔ b < a) ∧ (c.ne a b ↔ a ≠ b) ∧
    (c.le a b ↔ a < b ∨ a = b) ∧ (c.ge a b ↔ b < a ∨ a = b)) ∧
  (c.lt a b).toNat+(c.eq a b).toNat+(c.gt a b).toNat = 1 ∧
  (c.stringCompare a b < 0 ↔ a < b) ∧ (c.stringCompare a b = 0 ↔ a = b) ∧
    (c.stringCompare a b > 0 ↔ b < a)

/-- All comparisons are right for equal strings, and in the kernel if the first string is greater
at a difference. -/
theorem order_agrees_iff : c.Agrees a b ↔ a = b ∨ c = kernel ∧ b < a ∧ ¬ b <+: a := by
  have heq : c.eq a b = decide (a = b) := Bool.eq_iff_iff.mpr (by simp [eq_iff])
  by_cases h : c = user ∨ a <+: b ∨ b <+: a
  · have ha := compare_spec h
    have hb := compare_spec (h.imp_right Or.symm)
    have hk : ¬ (c = kernel ∧ b < a ∧ ¬ b <+: a) := by
      rintro ⟨rfl,hlt,hp⟩
      have hab : a <+: b := by simpa [hp] using h
      exact List.not_lt.mpr (List.IsPrefix.le hab) hlt
    rw [or_iff_left hk]
    simp only [Agrees,lt,gt,ne,le,ge,stringCompare,heq,← ha.2.1,Bool.toNat,decide_eq_true_eq]
    grind
  · obtain ⟨hu,hab,hba⟩ : c ≠ user ∧ ¬ a <+: b ∧ ¬ b <+: a := by simpa [not_or] using h
    obtain rfl : c = kernel := by cases c <;> simp_all
    have hne : a ≠ b := fun he => hab (he ▸ List.prefix_rfl)
    have hlt : a < b ↔ ¬ b < a := by
      obtain ⟨hl,he,hg⟩ := compare_spec (c := user) (a := a) (b := b) (.inl rfl)
      have hn := he.not.mpr hne
      rw [← hl,← hg]
      omega
    simp [Agrees,lt,gt,ne,le,ge,stringCompare,heq,compare_kernel hab hba,compare_kernel hba hab,hne,
      hlt,hba]

theorem order_agrees_descending : kernel.Agrees [98] [97] :=
  order_agrees_iff.mpr (.inr ⟨rfl,by decide,by decide⟩)

theorem order_differs : ([97] : List (BitVec 8)) < [98] ∧ user.stringCompare [97] [98] = 1 ∧
    kernel.lt [97] [98] = false ∧ kernel.gt [97] [98] = true := by
  decide
end Space
end LensorOS.Strings
