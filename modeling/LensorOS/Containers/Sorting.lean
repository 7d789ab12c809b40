import Mathlib.Logic.Equiv.Basic

/-!
# Sorting

The predicate of a partition may read the memory that is permuted: `sort` compares with the last
element of its range, which stays there until the partition is over.
-/
namespace LensorOS.Containers.Sorting
variable {α : Type}
def iterSwap (m : Nat → α) (a b i : Nat) : α := if i = a then m b else if i = b then m a else m i

section
variable (p : (Nat → α) → α → Bool)
/-- The range has `n` elements from `first` on. -/
def findIfNot (m : Nat → α) : Nat → Nat → Nat
  | 0, first => first
  | n+1, first => if p m (m first) then findIfNot m n (first+1) else first

def partitionLoop : Nat → Nat → Nat → (Nat → α) → Nat × (Nat → α)
  | 0, _, first, m => (first,m)
  | n+1, it, first, m =>
    if p m (m it) then partitionLoop n (it+1) (first+1) (iterSwap m it first)
    else partitionLoop n (it+1) first m

def partition (first last : Nat) (m : Nat → α) : Nat × (Nat → α) :=
  let first := findIfNot p m (last-first) first
  if first = last then (first,m) else partitionLoop p (last-(first+1)) (first+1) first m
end

/-- Nested calls go at most as deep as the fuel allows. -/
def sort (lt : α → α → Bool) : Nat → Nat → Nat → (Nat → α) → Option (Nat → α)
  | fuel, first, last, m =>
    if first ≥ last then some m
    else
      let back := last-1
      let (pivot,m) := partition (fun m i => lt i (m back)) first last m
      let m := iterSwap m pivot back
      match fuel with
      | 0 => none
      | fuel+1 => do sort lt fuel (pivot+1) last (← sort lt fuel first pivot m)

/-- The elements of the range are permuted, and the others stay. -/
def Rearranged (first last : Nat) (m m' : Nat → α) : Prop :=
  ∃ σ : Equiv.Perm Nat, m' = m ∘ σ ∧ ∀ i, ¬ (first ≤ i ∧ i < last) → σ i = i

section
variable {first last a b i : Nat} {m m' m'' : Nat → α}
theorem rearranged_refl : Rearranged first last m m := ⟨.refl _,rfl,fun _ _ => rfl⟩

theorem Rearranged.trans (h : Rearranged first last m m') (h' : Rearranged first last m' m'') :
    Rearranged first last m m'' := by
  obtain ⟨σ,rfl,hσ⟩ := h
  obtain ⟨τ,rfl,hτ⟩ := h'
  exact ⟨τ.trans σ,rfl,fun i hi => by simp [hτ i hi,hσ i hi]⟩

theorem Rearranged.mono (h : Rearranged a b m m') (ha : first ≤ a) (hb : b ≤ last) :
    Rearranged first last m m' := by
  obtain ⟨σ,hm,hσ⟩ := h
  exact ⟨σ,hm,fun i hi => hσ i (by omega)⟩

theorem rearranged_swap (ha : first ≤ a ∧ a < last) (hb : first ≤ b ∧ b < last) :
    Rearranged first last m (iterSwap m a b) := by
  refine ⟨Equiv.swap a b,funext fun i => ?_,fun i hi => ?_⟩
  · rw [iterSwap,Function.comp,Equiv.swap_apply_def]
    grind
  · exact Equiv.swap_apply_of_ne_of_ne (by grind) (by grind)

theorem Rearranged.outside (h : Rearranged first last m m') (hi : ¬ (first ≤ i ∧ i < last)) :
    m' i = m i := by
  obtain ⟨σ,rfl,hσ⟩ := h
  exact congrArg m (hσ i hi)

theorem Rearranged.inside (h : Rearranged first last m m') (hi : first ≤ i ∧ i < last) :
    ∃ j, (first ≤ j ∧ j < last) ∧ m' i = m j := by
  obtain ⟨σ,rfl,hσ⟩ := h
  refine ⟨σ i,?_,rfl⟩
  by_contra hn
  rw [σ.injective (hσ _ hn)] at hn
  exact hn hi
end

/-- What holds of a partition whose predicate is `q` as long as memory is safe. -/
structure Parted (q : α → Bool) (safe : (Nat → α) → Prop) (first last : Nat) (m : Nat → α)
    (r : Nat × (Nat → α)) : Prop where
  low : first ≤ r.1
  high : r.1 ≤ last
  safe : safe r.2
  rearranged : Rearranged first last m r.2
  before (i : Nat) (hf : first ≤ i) (hi : i < r.1) : q (r.2 i) = true
  after (i : Nat) (hi : r.1 ≤ i) (hl : i < last) : q (r.2 i) = false

section
variable {p : (Nat → α) → α → Bool} {q : α → Bool} {safe : (Nat → α) → Prop} {m : Nat → α}
  {lo first last it n : Nat} (hs : ∀ m, safe m → p m = q)
  (hk : ∀ m it first, safe m → q (m it) = true → first < it → it < last → safe (iterSwap m it first))
theorem findIfNot_spec (hp : p m = q) (hf : lo ≤ first)
    (hb : ∀ i, lo ≤ i → i < first → q (m i) = true) : let f := findIfNot p m n first
    lo ≤ f ∧ f ≤ first+n ∧ (∀ i, lo ≤ i → i < f → q (m i) = true) ∧
      (f < first+n → q (m f) = false) := by
  induction n generalizing first with
  | zero => exact ⟨hf,Nat.le_refl _,hb,by simp [findIfNot]⟩
  | succ n ih =>
    have ih := @ih (first+1) (by omega)
    rw [findIfNot,hp]
    cases hq : q (m first) <;> grind

include hs hk
theorem partitionLoop_parted (hm : safe m) (hf : lo ≤ first) (hlt : first < it) (hl : last = it+n)
    (hb : ∀ i, lo ≤ i → i < first → q (m i) = true)
    (ha : ∀ i, first ≤ i → i < it → q (m i) = false) :
    Parted q safe lo last m (partitionLoop p n it first m) := by
  induction n generalizing it first m with
  | zero =>
    exact ⟨hf,show first ≤ last by omega,hm,rearranged_refl,hb,fun i hi hl => ha i hi (by omega)⟩
  | succ n ih =>
    rw [partitionLoop,hs m hm]
    cases hq : q (m it) with
    | false => exact ih hm hf (by omega) (by omega) hb (by grind)
    | true =>
      have hp := @ih _ (first+1) (it+1) (hk m it first hm hq hlt (by omega)) (by omega) (by omega)
        (by omega) (fun i => by rw [iterSwap]; grind) (fun i => by rw [iterSwap]; grind)
      exact { hp with rearranged := (rearranged_swap (by omega) (by omega)).trans hp.rearranged }

theorem partition_parted (hm : safe m) (hl : first ≤ last) :
    Parted q safe first last m (partition p first last m) := by
  obtain ⟨hlo,hhi,hb,ha⟩ := findIfNot_spec (n := last-first) (hs m hm) (Nat.le_refl _) (by grind)
  rw [partition]
  split
  · next he => exact ⟨hlo,by omega,hm,rearranged_refl,hb,by grind⟩
  · exact partitionLoop_parted hs hk hm hlo (by omega) (by omega) hb (by grind)
end

def Sorted (lt : α → α → Bool) (first last : Nat) (m : Nat → α) : Prop :=
  ∀ i j, first ≤ i → i < j → j < last → lt (m j) (m i) = false

section
variable {lt : α → α → Bool} {fuel first last back : Nat} {m : Nat → α} (hi : ∀ x, lt x x = false)
  (ht : ∀ x y z, lt x y = true → lt y z = true → lt x z = true)
include hi
/-- The element that `sort` compares with is not moved by the partition. -/
theorem partition_back (hl : first ≤ back) :
    Parted (fun i => lt i (m back)) (fun m' => m' back = m back) first (back+1) m
      (partition (fun m i => lt i (m back)) first (back+1) m) := by
  apply partition_parted
  · intro m' hm
    simp [hm]
  · intro m' it first hm hq hf hlt
    have hne : it ≠ back := by grind
    rw [iterSwap,if_neg (by omega),if_neg (by omega),hm]
  · rfl
  · omega

include ht
theorem sort_sorted (hf : last-first ≤ fuel) : ∃ m', sort lt fuel first last m = some m' ∧
    Rearranged first last m m' ∧ Sorted lt first last m' := by
  induction fuel generalizing first last m with
  | zero => exact ⟨m,by rw [sort,if_pos (by omega)],rearranged_refl,fun i j => by omega⟩
  | succ fuel ih =>
    by_cases hl : first ≥ last
    · exact ⟨m,by rw [sort,if_pos hl],rearranged_refl,fun i j => by omega⟩
    obtain ⟨back,rfl⟩ : ∃ back, last = back+1 := ⟨last-1,by omega⟩
    rw [sort,if_neg hl,Nat.add_sub_cancel]
    have hp := partition_back (m := m) hi (show first ≤ back by omega)
    obtain ⟨r,hre⟩ : ∃ r, partition (fun m i => lt i (m back)) first (back+1) m = r := ⟨_,rfl⟩
    rw [hre] at hp
    obtain ⟨hlo,hhi,hsafe,hr,hb,ha⟩ := hp
    have hpb : r.1 ≤ back := by
      by_contra hn
      grind
    obtain ⟨m2,h2,hr2,hs2⟩ := @ih first r.1 (iterSwap r.2 r.1 back) (by omega)
    obtain ⟨m3,h3,hr3,hs3⟩ := @ih (r.1+1) (back+1) m2 (by omega)
    have hsw := @rearranged_swap _ first (back+1) r.1 back r.2 (by omega) (by omega)
    have hr' := (@Rearranged.mono _ first (back+1) _ _ _ _ hr2 (by omega) (by omega)).trans
      (hr3.mono (by omega) (by omega))
    refine ⟨m3,by simp [hre,h2,h3],hr.trans (hsw.trans hr'),fun i j hi hij hj => ?_⟩
    have hlow (k : Nat) (hk : first ≤ k ∧ k < r.1) : lt (m3 k) (m back) = true := by
      obtain ⟨k',hk',he⟩ := hr2.inside hk
      rw [hr3.outside (by omega),he,iterSwap]
      grind
    have hpiv : m3 r.1 = m back := by
      rw [hr3.outside (by omega),hr2.outside (by omega),iterSwap,if_pos rfl,hsafe]
    have hup (k : Nat) (hk : r.1+1 ≤ k ∧ k < back+1) : lt (m3 k) (m back) = false := by
      obtain ⟨k',hk',he⟩ := hr3.inside hk
      rw [he,hr2.outside (by omega),iterSwap]
      grind
    have hle (k : Nat) (hk : k < r.1) : m3 k = m2 k := hr3.outside (by omega)
    grind [Sorted]

theorem sorts_and_partitions : (∀ fuel ≥ last-first, ∃ m', sort lt fuel first last m = some m' ∧
      Rearranged first last m m' ∧ Sorted lt first last m') ∧ (first ≤ last → ∀ q : α → Bool,
        Parted q (fun _ => True) first last m (partition (fun _ => q) first last m)) :=
  ⟨fun _ hf => sort_sorted hi ht hf,fun hl q => partition_parted (by simp) (by simp) trivial hl⟩
end

theorem sorts_three : ∃ m', sort (fun x y : Nat => decide (x < y)) 3 0 3 (3-·) = some m' ∧
    Rearranged 0 3 (3-·) m' ∧ Sorted (fun x y => decide (x < y)) 0 3 m' :=
  (sorts_and_partitions (by simp) (by simp; omega)).1 3 (by decide)
end LensorOS.Containers.Sorting
