import Mathlib.Data.List.Basic

/-!
# Blocks tiling an address range

A range of addresses is cut into consecutive blocks, each behind a header of `gap` addresses; the
headers form a doubly linked list.
-/
namespace LensorOS.Framework
open List
/-- A block: the size behind its header and whether it is available. -/
structure Tile where
  length : Nat
  free : Bool
deriving DecidableEq

/-- The contents of a header: its neighbours in the list and the block it describes. -/
structure TileHeader where
  last : Nat
  next : Nat
  length : Nat
  free : Bool
deriving DecidableEq

namespace Tile
section
variable (gap : Nat)
def span : List Tile → Nat
  | [] => 0
  | t :: ts => gap+t.length+span ts

def locate (a : Nat) : List Tile → List (Nat × Tile)
  | [] => []
  | t :: ts => (a,t) :: locate (a+(gap+t.length)) ts

def final (prev a : Nat) : List Tile → Nat
  | [] => prev
  | t :: ts => final a (a+(gap+t.length)) ts

def front (after a : Nat) : List Tile → Nat
  | [] => after
  | _ :: _ => a

def Linked (view : Nat → TileHeader) (after prev a : Nat) : List Tile → Prop
  | [] => True
  | t :: ts =>
    view a = ⟨prev,front after (a+(gap+t.length)) ts,t.length,t.free⟩ ∧
      Linked view after a (a+(gap+t.length)) ts
end

variable {gap : Nat} {view view' : Nat → TileHeader} {after prev a : Nat} {xs ys : List Tile}
  {t : Tile} {x : Nat × Tile}
@[simp] theorem span_append (xs ys : List Tile) :
    span gap (xs ++ ys) = span gap xs+span gap ys := by
  induction xs with
  | nil => simp [span]
  | cons x xs ih =>
    simp only [cons_append,span,ih]
    omega

theorem locate_append (a : Nat) (xs ys : List Tile) :
    locate gap a (xs ++ ys) = locate gap a xs ++ locate gap (a+span gap xs) ys := by
  induction xs generalizing a with
  | nil => rfl
  | cons x xs ih =>
    simp only [cons_append,locate,span,ih]
    rw [Nat.add_assoc a]

theorem final_append (prev a : Nat) (xs ys : List Tile) :
    final gap prev a (xs ++ ys) = final gap (final gap prev a xs) (a+span gap xs) ys := by
  induction xs generalizing prev a with
  | nil => rfl
  | cons x xs ih =>
    simp only [cons_append,final,span,ih]
    rw [Nat.add_assoc a]

theorem locate_bounds (h : x ∈ locate gap a xs) : a ≤ x.1 ∧ x.1+(gap+x.2.length) ≤ a+span gap xs := by
  induction xs generalizing a with
  | nil => cases h
  | cons t ts ih =>
    simp only [locate,mem_cons] at h
    simp only [span]
    rcases h with rfl | h
    · exact ⟨Nat.le_refl _,by dsimp only; omega⟩
    · have hr := ih h
      omega

theorem locate_apart {y : Nat × Tile} (hx : x ∈ locate gap a xs) (hy : y ∈ locate gap a xs) :
    x = y ∨ x.1+(gap+x.2.length) ≤ y.1 ∨ y.1+(gap+y.2.length) ≤ x.1 := by
  induction xs generalizing a with
  | nil => cases hx
  | cons t ts ih =>
    simp only [locate,mem_cons] at hx hy
    rcases hx with rfl | hx
    · rcases hy with rfl | hy
      · exact .inl rfl
      · exact .inr (.inl (locate_bounds hy).1)
    rcases hy with rfl | hy
    · exact .inr (.inr (locate_bounds hx).1)
    · exact ih hx hy

theorem mem_locate_split {b : Nat} (h : (b,t) ∈ locate gap a xs) : ∃ ys zs, xs = ys ++ t :: zs ∧ b = a+span gap ys := by
  induction xs generalizing a with
  | nil => cases h
  | cons x xs ih =>
    simp only [locate,mem_cons,Prod.mk.injEq] at h
    rcases h with ⟨rfl,rfl⟩ | h
    · exact ⟨[],xs,rfl,rfl⟩
    · obtain ⟨ys,zs,rfl,rfl⟩ := ih h
      exact ⟨x :: ys,zs,rfl,by simp [span]; omega⟩

theorem mem_locate_middle (a : Nat) (xs : List Tile) (t : Tile) (ys : List Tile) :
    (a+span gap xs,t) ∈ locate gap a (xs ++ t :: ys) := by
  rw [locate_append]
  exact mem_append_right _ mem_cons_self

theorem final_mem_locate (gap prev a : Nat) (hx : xs ≠ []) : ∃ t, (final gap prev a xs,t) ∈ locate gap a xs := by
  induction xs generalizing prev a with
  | nil => exact absurd rfl hx
  | cons t ts ih =>
    cases ts with
    | nil => exact ⟨t,mem_cons_self⟩
    | cons u us =>
      obtain ⟨v,hv⟩ := ih a (a+(gap+t.length)) (cons_ne_nil _ _)
      exact ⟨v,mem_cons_of_mem _ hv⟩

private theorem front_append (gap after a : Nat) (xs ys : List Tile) :
    front after a (xs ++ ys) = front (front after (a+span gap xs) ys) a xs := by
  cases xs with
  | nil => rfl
  | cons x xs => rfl

theorem linked_append : Linked gap view after prev a (xs ++ ys) ↔
      Linked gap view (front after (a+span gap xs) ys) prev a xs ∧
        Linked gap view after (final gap prev a xs) (a+span gap xs) ys := by
  induction xs generalizing prev a with
  | nil => simp [Linked,final,span]
  | cons x xs ih =>
    simp only [cons_append,Linked,final,span]
    rw [ih,front_append gap,Nat.add_assoc a,and_assoc]

theorem Linked.congr (h : Linked gap view after prev a xs)
    (hv : ∀ x ∈ locate gap a xs, view' x.1 = view x.1) : Linked gap view' after prev a xs := by
  induction xs generalizing prev a with
  | nil => trivial
  | cons t ts ih =>
    refine ⟨?_,ih h.2 fun x hx => hv x (mem_cons_of_mem _ hx)⟩
    rw [hv (a,t) mem_cons_self]
    exact h.1

theorem Linked.relast {ts : List Tile} (h : Linked gap view after prev a (t :: ts))
    (b : Nat) (ha : view' a = { view a with last := b })
    (hv : ∀ x ∈ locate gap (a+(gap+t.length)) ts, view' x.1 = view x.1) :
    Linked gap view' after b a (t :: ts) := by
  refine ⟨?_,h.2.congr hv⟩
  rw [ha,h.1]

theorem Linked.renext (b : Nat) (h : Linked gap view after prev a (xs ++ [t]))
    (hl : view' (a+span gap xs) = { view (a+span gap xs) with next := b })
    (hv : ∀ x ∈ locate gap a xs, view' x.1 = view x.1) : Linked gap view' b prev a (xs ++ [t]) := by
  rw [linked_append] at h ⊢
  refine ⟨h.1.congr hv,?_,trivial⟩
  rw [hl,h.2.1]
  rfl

theorem Linked.view_eq (h : Linked gap view after prev a (xs ++ t :: ys)) :
    view (a+span gap xs) = ⟨final gap prev a xs,
      front after (a+span gap xs+(gap+t.length)) ys,t.length,t.free⟩ := (linked_append.mp h).2.1

theorem Linked.view_located (h : Linked gap view after prev a xs)
    (hx : x ∈ locate gap a xs) : (view x.1).length = x.2.length ∧ (view x.1).free = x.2.free := by
  obtain ⟨ys,zs,rfl,hb⟩ := mem_locate_split hx
  rw [hb,h.view_eq]
  exact ⟨rfl,rfl⟩

theorem Linked.mark (h : Linked gap view after prev a (xs ++ t :: ys)) (b : Bool)
    (ht : view' (a+span gap xs) = { view (a+span gap xs) with free := b })
    (hx : ∀ x ∈ locate gap a xs, view' x.1 = view x.1)
    (hy : ∀ x ∈ locate gap (a+span gap xs+(gap+t.length)) ys, view' x.1 = view x.1) :
    Linked gap view' after prev a (xs ++ { t with free := b } :: ys) := by
  have hv := h.view_eq
  rw [linked_append] at h ⊢
  refine ⟨h.1.congr hx,?_,h.2.2.congr hy⟩
  rw [ht,hv]

theorem Linked.merge {s : Tile} {p q : Nat} (h : Linked gap view after prev a (xs ++ s :: t :: ys))
    (hp : p = a+span gap xs) (hq : q = p+(gap+s.length)) (hv : view' p =
      { view p with next := (view q).next, length := s.length+t.length+gap })
    (hx : ∀ x ∈ locate gap a xs, view' x.1 = view x.1)
    (hy : Linked gap view' after p (q+(gap+t.length)) ys) :
    Linked gap view' after prev a (xs ++ ⟨s.length+t.length+gap,s.free⟩ :: ys) := by
  subst hp hq
  rw [linked_append] at h ⊢
  obtain ⟨hl,hs,ht,-⟩ := h
  have he : a+span gap xs+(gap+s.length)+(gap+t.length) = a+span gap xs+(gap+(s.length+t.length+gap)) := by omega
  refine ⟨hl.congr hx,?_,?_⟩
  · rw [hv,hs,ht,he]
  · rw [← he]
    exact hy

theorem Linked.cut {s : Tile} {n rest p q : Nat} (h : Linked gap view after prev a (xs ++ s :: ys))
    (hp : p = a+span gap xs) (hq : q = p+(gap+n)) (hle : s.length = n+gap+rest)
    (hv : view' p = { view p with next := q, length := n })
    (hn : view' q = ⟨p,(view p).next,rest,s.free⟩)
    (hx : ∀ x ∈ locate gap a xs, view' x.1 = view x.1)
    (hy : Linked gap view' after q (p+(gap+s.length)) ys) :
    Linked gap view' after prev a (xs ++ ⟨n,s.free⟩ :: ⟨rest,s.free⟩ :: ys) := by
  subst hp hq
  rw [linked_append] at h ⊢
  obtain ⟨hl,hs,-⟩ := h
  have he : a+span gap xs+(gap+n)+(gap+rest) = a+span gap xs+(gap+s.length) := by omega
  refine ⟨hl.congr hx,?_,?_,?_⟩
  · rw [hv,hs]
    rfl
  · rw [hn,hs,he]
  · rw [he]
    exact hy
end Tile
end LensorOS.Framework
