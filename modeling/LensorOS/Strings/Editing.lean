import LensorOS.Strings.StringRuns
import Mathlib.Data.List.DropRight

/-!
# Editing of strings

What is erased from a string, with the terminator behind the characters that are left.
-/
namespace LensorOS.Strings
open Framework List Function Bytes
/-- There is a NUL behind the characters; in a full small string it is the byte with the free
characters. -/
def Repr.Terminated (m : Bytes) : Repr → Prop
  | small data remCap => smallBytes data remCap (maxCharsSmall-remCap) = 0
  | large data sz _ => m (data+sz) = 0

theorem Repr.terminated_small {m data : Bytes} {remCap : Nat}
    (h : data (maxCharsSmall-remCap) = 0) : (small data remCap).Terminated m := by
  by_cases hf : maxCharsSmall-remCap = maxCharsSmall
  · obtain rfl : remCap = 0 := by
      unfold maxCharsSmall at hf
      omega
    rfl
  · exact (write8_outside _ _ hf).trans h

theorem Repr.terminated_large {m : Bytes} {data sz cap : Nat} (h : m (data+sz) = 0) :
    (large data sz cap).Terminated m := h

namespace Store
def Terminated (s : Store) (i : Nat) : Prop := ∀ r, s.objects i = some r → r.Terminated s.memory

def substr (s : Store) (i j pos len p : Nat) : Option Store := (s.objects j).bind fun r =>
  if pos > r.size then s.construct i
  else
    let len := if len > r.size-pos then r.size-pos else len
    s.constructView i (((r.value s.memory).drop pos).take len) p

def kept (chars : List (BitVec 8)) : List (BitVec 8) → Nat
  | [] => 0
  | c :: rest => if c ∈ chars then kept chars rest else rest.length+1

def removeTrailing (s : Store) (i : Nat) (chars : List (BitVec 8)) : Option Store :=
  (s.objects i).bind fun r =>
    if r.size = 0 ∨ chars.length = 0 then some s
    else
      let n := kept chars (r.value s.memory).reverse
      s.erase i n (r.size-n)

variable {s s' : Store} {i j p pos n : Nat} {r : Repr} {m : Bytes} {chars : List (BitVec 8)}
theorem terminated_put (h : r.Terminated s.memory) : (s.put i r).Terminated i := by
  intro r' hr
  simp only [put,update_self,Option.some.injEq] at hr
  exact hr ▸ h

theorem store_load_at (m source : Bytes) (a b : Nat) {k n : Nat} (h : k < n) :
    m.store a (source.load b n) (a+k) = source (b+k) :=
  (store_inside _ (by simpa using h)).trans (by simp [load])

theorem erase_terminated (h : s.Terminated i) (pos n : Nat) :
    ∀ s' ∈ s.erase i pos n, s'.Terminated i := by
  unfold erase
  cases hr : s.objects i with
  | none => nofun
  | some r =>
    have ht := h r hr
    dsimp only
    by_cases hp : pos ≥ r.size
    · rw [if_pos hp]
      rintro _ ⟨⟩
      exact h
    rw [if_neg hp]
    generalize hk : (if n ≥ r.size ∨ pos+n ≥ r.size then r.size-pos else n) = k
    have hl : pos+k ≤ r.size := by
      rw [← hk]
      split <;> omega
    cases r with
    | small data remCap =>
      dsimp only
      split
      next he =>
        dsimp only [Repr.size] at he
        rintro _ ⟨⟩
        refine terminated_put (Repr.terminated_small ?_)
        rw [show maxCharsSmall-(remCap+k) = pos by omega,write8_same]
      next =>
        dsimp only [Repr.size] at hl ⊢
        rintro _ ⟨⟩
        refine terminated_put (Repr.terminated_small ?_)
        rw [show maxCharsSmall-(remCap+k) = pos+(maxCharsSmall-remCap-pos-k) by omega]
        refine (store_load_at _ _ _ _ (by omega)).trans ?_
        rwa [show pos+k+(maxCharsSmall-remCap-pos-k) = maxCharsSmall-remCap by omega]
    | large data sz cap =>
      dsimp only
      split
      next he =>
        rintro _ ⟨⟩
        exact terminated_put (write8_same ..)
      next =>
        dsimp only [Repr.size] at hl ⊢
        rintro _ ⟨⟩
        refine terminated_put (Repr.terminated_large ?_)
        rw [show data+(sz-k) = data+pos+(sz-pos-k) by omega]
        refine (store_load_at _ _ _ _ (by omega)).trans ?_
        rwa [show data+pos+k+(sz-pos-k) = data+sz by omega]

theorem clear_terminated : ∀ s' ∈ s.clear i, s'.Terminated i := by
  unfold clear
  rcases s.objects i with _ | ⟨data,remCap⟩ | ⟨data,sz,cap⟩
  · nofun
  · rintro _ ⟨⟩
    exact terminated_put (Repr.terminated_small (write8_same ..))
  · rintro _ ⟨⟩
    exact terminated_put (write8_same ..)

theorem constructView_terminated (s : Store) (i p : Nat) (chars : List (BitVec 8)) :
    ∀ s' ∈ s.constructView i chars p, s'.Terminated i := by
  unfold constructView
  split
  next hl =>
    intro s' hs
    obtain ⟨s1,-,rfl⟩ := Option.map_eq_some_iff.mp hs
    refine terminated_put ((store_inside _ (by simp)).trans (by simp))
  next hsm =>
    rintro _ ⟨⟩
    refine terminated_put (Repr.terminated_small ?_)
    rw [show maxCharsSmall-(maxCharsSmall-chars.length) = chars.length by omega,write8_same]

theorem kept_eq (chars text : List (BitVec 8)) :
    text.take (kept chars text.reverse) = text.rdropWhile (· ∈ chars) := by
  have hl (l : List (BitVec 8)) : kept chars l = (l.dropWhile (· ∈ chars)).length := by
    induction l with
    | nil => rfl
    | cons c l ih =>
      rw [kept,dropWhile_cons,ih]
      split <;> simp_all
  have hp := prefix_iff_eq_take.mp ( rdropWhile_prefix (· ∈ chars) (l := text))
  rw [hl,hp]
  simp [rdropWhile]

/-- The result has the given contents, and its string ends with a NUL. -/
def Edits (result : Option Store) (i : Nat) (v : Nat → Option (List (BitVec 8))) : Prop :=
  Yields result v ∧ ∀ s' ∈ result, s'.Terminated i

theorem removeTrailing_edits (h : s.Owned) (hi : s.objects i = some r) (ht : s.Terminated i)
    (chars : List (BitVec 8)) : Edits (s.removeTrailing i chars) i
      (update s.contents i (some ((r.value s.memory).rdropWhile (· ∈ chars)))) := by
  have hl := length_value r s.memory
  rw [removeTrailing,hi,Option.bind_some]
  split
  next hn =>
    have hs : (r.value s.memory).rdropWhile (· ∈ chars) = r.value s.memory := by
      rcases hn with hsi | hc
      · rw [length_eq_zero_iff.mp (hl.trans hsi),rdropWhile_nil]
      · rw [length_eq_zero_iff.mp hc]
        simp [rdropWhile_eq_self_iff]
    rw [hs,update_contents_self hi]
    exact ⟨⟨s,rfl,h,rfl⟩,by rintro _ ⟨⟩; exact ht⟩
  next =>
    have hy := h.erase_yields hi (kept chars (r.value s.memory).reverse)
      (r.size-kept chars (r.value s.memory).reverse)
    rw [contents_of_objects hi,Option.map_some,erased,drop_of_length_le (by omega),append_nil,
      kept_eq] at hy
    exact ⟨hy,erase_terminated ht _ _⟩

theorem substr_edits (h : s.Owned) (hi : s.objects i = none) (hj : s.objects j = some r)
    (hf : ∀ n ≤ r.size, s.Fresh p (n+1)) (pos n : Nat) : Edits (s.substr i j pos n p) i
      (update s.contents i (some (((r.value s.memory).drop pos).take n))) := by
  have hl := length_value r s.memory
  rw [substr,hj,Option.bind_some]
  split
  next ho =>
    rw [drop_of_length_le (by omega),take_nil]
    refine ⟨h.construct_yields hi,?_⟩
    rintro _ ⟨⟩
    exact terminated_put (Repr.terminated_small rfl)
  next =>
    have hc : ((r.value s.memory).drop pos).take (if n > r.size-pos then r.size-pos else n) =
        ((r.value s.memory).drop pos).take n := by
      split
      · rw [take_of_length_le (by simp; omega),take_of_length_le (by simp; omega)]
      · rfl
    dsimp only
    rw [hc]
    refine ⟨h.constructView_yields hi fun _ => hf _ ?_,constructView_terminated _ _ _ _⟩
    simp only [length_take,length_drop]
    omega

theorem string_edits (h : s.Owned) (hi : s.objects i = some r) (ht : s.Terminated i)
    (pos n : Nat) (chars : List (BitVec 8)) : let v := r.value s.memory
    Edits (s.erase i pos n) i (update s.contents i (some (v.take pos ++ v.drop (pos+n)))) ∧
    Edits (s.clear i) i (update s.contents i (some [])) ∧
    Edits (s.removeTrailing i chars) i
      (update s.contents i (some (v.rdropWhile (· ∈ chars)))) ∧
    ∀ j p, s.objects j = none → (∀ n ≤ r.size, s.Fresh p (n+1)) →
      Edits (s.substr j i pos n p) j (update s.contents j (some ((v.drop pos).take n))) := by
  have hy := h.erase_yields hi pos n
  rw [contents_of_objects hi] at hy
  exact ⟨⟨hy,erase_terminated ht pos n⟩,⟨h.clear_yields hi,clear_terminated⟩,
    removeTrailing_edits h hi ht chars,fun j p hj hf => substr_edits h hj hi hf pos n⟩

/-- A small string without free characters, whose length byte is its terminator. -/
theorem string_edits_full : ∃ s : Store, s.contents 0 = some (replicate 23 65) ∧
    Edits (s.erase 0 22 1) 0 (update s.contents 0 (some (replicate 22 65))) := by
  have hst : Started ⟨fun _ => 0,fun _ => none,[]⟩ := ⟨rfl,rfl⟩
  have hy : Yields (constructView ⟨fun _ => 0,fun _ => none,[]⟩ 0 (replicate 23 65) 0) _ :=
    hst.owned.constructView_yields rfl (by decide)
  obtain ⟨s,hs,ho,hc⟩ := hy
  have hc0 : s.contents 0 = some (replicate 23 65) := by rw [hc,update_self]
  obtain ⟨r,hr,hv⟩ := Option.map_eq_some_iff.mp hc0
  have he := (string_edits ho hr (constructView_terminated _ _ _ _ s hs) 22 1 []).1
  rw [hv] at he
  exact ⟨s,hc0,he⟩
end Store
end LensorOS.Strings
