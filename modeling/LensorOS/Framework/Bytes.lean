import Mathlib.Data.BitVec
import Mathlib.Tactic.IntervalCases

/-!
# Byte memory

A memory assigns a byte to every address. Words of 64 bits are stored low byte first.
-/
namespace LensorOS.Framework
/-- A mask of `w` bits from bit `k` on. -/
theorem and_mask (x k w : Nat) : x &&& 2^k * (2^w-1) = x / 2^k % 2^w * 2^k := by
  apply Nat.eq_of_testBit_eq
  intro i
  rw [Nat.testBit_and,Nat.testBit_two_pow_mul,Nat.testBit_two_pow_sub_one,
    Nat.testBit_mul_two_pow,Nat.testBit_mod_two_pow,Nat.testBit_div_two_pow]
  by_cases h : k ≤ i
  · rw [Nat.sub_add_cancel h]
    simp only [h,decide_true,Bool.true_and]
    rw [Bool.and_comm]
  · simp [h]

open List
def Bytes := Nat → BitVec 8

namespace Bytes
def write8 (m : Bytes) (a : Nat) (v : BitVec 8) : Bytes := fun x => if x = a then v else m x

def read64 (m : Bytes) (a : Nat) : BitVec 64 :=
  m (a+7) ++ m (a+6) ++ m (a+5) ++ m (a+4) ++ m (a+3) ++ m (a+2) ++ m (a+1) ++ m a

def write64 (m : Bytes) (a : Nat) (v : BitVec 64) : Bytes :=
  fun x => if a ≤ x ∧ x < a+8 then v.extractLsb' (8 * (x-a)) 8 else m x

def fill (m : Bytes) (a n : Nat) (v : BitVec 8) : Bytes := fun x => if a ≤ x ∧ x < a+n then v else m x

def store (m : Bytes) (a : Nat) (bytes : List (BitVec 8)) : Bytes :=
  fun x => if a ≤ x then (bytes[x-a]?).getD (m x) else m x

def load (m : Bytes) (a n : Nat) : List (BitVec 8) := (range n).map fun i => m (a+i)

def copy (m : Bytes) (dst src n : Nat) : Bytes := fun x => if dst ≤ x ∧ x < dst+n then m (src+(x-dst)) else m x

def overwrite (m : Bytes) (a n : Nat) (source : Bytes) : Bytes := fun x => if a ≤ x ∧ x < a+n then source (x-a) else m x

variable {bytes : List (BitVec 8)} {a : Nat}
section
variable (m : Bytes)
@[simp] theorem write8_same (a : Nat) (v : BitVec 8) : m.write8 a v a = v := by simp [write8]

theorem write8_outside {x : Nat} (v : BitVec 8) (h : x ≠ a) : m.write8 a v x = m x := by simp [write8,h]

theorem write64_inside (a : Nat) (v : BitVec 64) {k : Nat} (hk : k < 8) :
    m.write64 a v (a+k) = v.extractLsb' (8*k) 8 := by
  have h : a ≤ a+k ∧ a+k < a+8 := by omega
  simp [write64,h]

theorem write64_outside {x : Nat} (v : BitVec 64) (h : x < a ∨ a+8 ≤ x) : m.write64 a v x = m x := by
  have hn : ¬ (a ≤ x ∧ x < a+8) := by omega
  simp [write64,hn]

theorem fill_outside {n x : Nat} (v : BitVec 8) (h : x < a ∨ a+n ≤ x) : m.fill a n v x = m x := by
  have hn : ¬ (a ≤ x ∧ x < a+n) := by omega
  simp [fill,hn]

theorem fill_inside {n x : Nat} (v : BitVec 8) (h : a ≤ x) (h' : x < a+n) : m.fill a n v x = v := by
  simp [fill,h,h']

theorem store_outside {x : Nat} (h : x < a ∨ a+bytes.length ≤ x) : m.store a bytes x = m x := by
  unfold store
  by_cases hl : a ≤ x
  · rw [if_pos hl,getElem?_eq_none (by omega),Option.getD_none]
  · rw [if_neg hl]

theorem store_inside {i : Nat} (h : i < bytes.length) : m.store a bytes (a+i) = bytes[i] := by
  rw [store,if_pos (by omega),Nat.add_sub_cancel_left,getElem?_eq_getElem h, Option.getD_some]

@[simp] theorem store_nil (a : Nat) : m.store a [] = m := by
  funext x
  simp [store]

theorem store_singleton (a : Nat) (v : BitVec 8) : m.store a [v] = m.write8 a v := by
  funext x
  by_cases hx : x = a
  · subst hx
    simp [store,write8]
  · rw [write8_outside m v hx,store_outside m (by rw [length_singleton]; omega)]

theorem store_append (a : Nat) (xs ys : List (BitVec 8)) :
    m.store a (xs ++ ys) = (m.store a xs).store (a+xs.length) ys := by
  funext x
  have hl : (xs ++ ys).length = xs.length+ys.length := length_append
  by_cases ho : x < a ∨ a+(xs ++ ys).length ≤ x
  · rw [store_outside m ho,store_outside _ (by omega),store_outside m (by omega)]
  obtain ⟨i,rfl⟩ : ∃ i, x = a+i := ⟨x-a,by omega⟩
  have hi : i < (xs ++ ys).length := by omega
  rw [store_inside m hi]
  by_cases hf : i < xs.length
  · rw [getElem_append_left hf,store_outside _ (.inl (by omega)),store_inside m hf]
  obtain ⟨j,rfl⟩ : ∃ j, i = xs.length+j := ⟨i-xs.length,by omega⟩
  have hj : j < ys.length := by omega
  rw [getElem_append_right (by omega),← add_assoc,store_inside _ hj]
  simp

@[simp] theorem load_zero (a : Nat) : m.load a 0 = [] := rfl

@[simp] theorem length_load (a n : Nat) : (m.load a n).length = n := by simp [load]
end

theorem load_congr {m m' : Bytes} {n : Nat} (h : ∀ x, a ≤ x → x < a+n → m' x = m x) : m'.load a n = m.load a n := by
  refine map_congr_left fun i hi => ?_
  have hl := mem_range.mp hi
  exact h (a+i) (by omega) (by omega)

section
variable (m : Bytes)
theorem load_add (a n k : Nat) : m.load a (n+k) = m.load a n ++ m.load (a+n) k := by
  simp only [load,range_add,map_append,map_map,Function.comp_def,add_assoc]

theorem take_load {n k : Nat} (h : k ≤ n) : (m.load a n).take k = m.load a k := by
  obtain ⟨j,rfl⟩ := Nat.exists_eq_add_of_le h
  rw [load_add,take_left' (length_load m a k)]

theorem drop_load {n k : Nat} (h : k ≤ n) : (m.load a n).drop k = m.load (a+k) (n-k) := by
  obtain ⟨j,rfl⟩ := Nat.exists_eq_add_of_le h
  rw [load_add,drop_left' (length_load m a k),Nat.add_sub_cancel_left]

theorem load_store (a : Nat) (bytes : List (BitVec 8)) : (m.store a bytes).load a bytes.length = bytes := by
  refine ext_getElem (by simp) fun i hi hi' => ?_
  simp [load,store_inside m hi']

theorem load_store_outside {b n : Nat} (h : a+n ≤ b ∨ b+bytes.length ≤ a) : (m.store b bytes).load a n = m.load a n :=
  load_congr fun x hx hx' => store_outside m (by omega)

theorem load_write8_outside {b n : Nat} (v : BitVec 8) (h : a+n ≤ b ∨ b < a) :
    (m.write8 b v).load a n = m.load a n := load_congr fun x hx hx' => write8_outside m v (by omega)

theorem copy_inside {dst src n i : Nat} (h : i < n) : m.copy dst src n (dst+i) = m (src+i) := by
  have hi : dst ≤ dst+i ∧ dst+i < dst+n := by omega
  simp [copy,hi]

theorem copy_outside {dst src n x : Nat} (h : x < dst ∨ dst+n ≤ x) : m.copy dst src n x = m x := by
  have hn : ¬ (dst ≤ x ∧ x < dst+n) := by omega
  simp [copy,hn]

theorem overwrite_inside {n i : Nat} (source : Bytes) (h : i < n) : m.overwrite a n source (a+i) = source i := by
  simp [overwrite,h]

theorem overwrite_outside {n x : Nat} (source : Bytes) (h : x < a ∨ a+n ≤ x) : m.overwrite a n source x = m x := by
  have hn : ¬ (a ≤ x ∧ x < a+n) := by omega
  simp [overwrite,hn]
end

theorem read64_congr {m m' : Bytes} (h : ∀ x, a ≤ x → x < a+8 → m' x = m x) : m'.read64 a = m.read64 a := by
  have h0 : m' a = m a := h a (by omega) (by omega)
  have hk (k : Nat) (hk : k < 8) : m' (a+k) = m (a+k) := h (a+k) (by omega) (by omega)
  simp only [read64,h0,hk 1 (by omega),hk 2 (by omega),hk 3 (by omega),hk 4 (by omega),
    hk 5 (by omega),hk 6 (by omega),hk 7 (by omega)]

variable (m : Bytes)
@[simp] theorem read64_write64_same (a : Nat) (v : BitVec 64) : (m.write64 a v).read64 a = v := by
  have h0 := write64_inside m a v (k := 0) (by omega)
  have hk (k : Nat) (hk : k < 8) := write64_inside m a v hk
  rw [add_zero] at h0
  rw [read64,hk 7 (by omega),hk 6 (by omega),hk 5 (by omega),hk 4 (by omega),
    hk 3 (by omega),hk 2 (by omega),hk 1 (by omega),h0]
  -- Each byte is the continuation of the bytes below it.
  iterate 7 rw [BitVec.extractLsb'_append_extractLsb'_eq_extractLsb' (by rfl)]
  exact BitVec.extractLsb'_eq_self

theorem read64_byte (a : Nat) {k : Nat} (hk : k < 8) : (m.read64 a).extractLsb' (8 * k) 8 = m (a+k) := by
  refine BitVec.eq_of_getLsbD_eq fun i hi => ?_
  simp only [BitVec.getLsbD_extractLsb',read64,BitVec.getLsbD_append,hi,decide_true,Bool.true_and]
  interval_cases k <;> grind

theorem write64_read64 (a : Nat) : m.write64 a (m.read64 a) = m := by
  funext x
  unfold write64
  split_ifs with h
  · obtain ⟨k,rfl⟩ := Nat.exists_eq_add_of_le h.1
    rw [Nat.add_sub_cancel_left,read64_byte m a (by omega)]
  · rfl

theorem read64_write64_ne {b : Nat} (v : BitVec 64)
    (h : b+8 ≤ a ∨ a+8 ≤ b) : (m.write64 a v).read64 b = m.read64 b :=
  read64_congr fun x h1 h2 => write64_outside m v (by omega)

theorem read64_write8_ne {b : Nat} (v : BitVec 8) (h : b+8 ≤ a ∨ a < b) : (m.write8 a v).read64 b = m.read64 b :=
  read64_congr fun x h1 h2 => write8_outside m v (by omega)

theorem read64_fill_disjoint {n b : Nat} (v : BitVec 8)
    (h : b+8 ≤ a ∨ a+n ≤ b) : (m.fill a n v).read64 b = m.read64 b :=
  read64_congr fun x h1 h2 => fill_outside m v (by omega)

theorem read64_fill_zero {n b : Nat} (h : a ≤ b) (h' : b+8 ≤ a+n) : (m.fill a n 0).read64 b = 0 := by
  have hk (k : Nat) (hk : k < 8) : m.fill a n 0 (b+k) = 0 := fill_inside m 0 (by omega) (by omega)
  have h0 : m.fill a n 0 b = 0 := fill_inside m 0 h (by omega)
  rw [read64,hk 7 (by omega),hk 6 (by omega),hk 5 (by omega),hk 4 (by omega),
    hk 3 (by omega),hk 2 (by omega),hk 1 (by omega),h0]
  rfl
end Bytes
end LensorOS.Framework
