import Mathlib.Data.BitVec
import Mathlib.Logic.Function.Basic
import Mathlib.Tactic.IntervalCases

/-!
# The page bitmap

Bits are numbered from the high end of each byte. An index past the last byte reads as clear and
cannot be set. `length` is the number of bytes.
-/
namespace LensorOS.Memory
structure Bitmap where
  size : Nat
  buffer : Nat → BitVec 8

namespace Bitmap
def bitIndexer (index : Nat) : BitVec 8 := 0b10000000#8 >>> (index % 8)
variable (b : Bitmap)
def length : Nat := b.size

def get (index : Nat) : Bool := if b.size ≤ index / 8 then false
  else decide (b.buffer (index / 8) &&& bitIndexer index > 0)

/-- `false` when the index lies outside the buffer; the buffer is then unchanged. -/
def set (index : Nat) (value : Bool) : Bool × Bitmap :=
  if b.size ≤ index / 8 then (false,b)
  else
    let cleared := b.buffer (index / 8) &&& ~~~ bitIndexer index
    let byte := if value then cleared ||| bitIndexer index else cleared
    (true, { b with buffer := Function.update b.buffer (index / 8) byte })

private theorem bitIndexer_eq (index : Nat) : bitIndexer index = BitVec.twoPow 8 (7-index % 8) := by
  have h : index % 8 < 8 := by omega
  unfold bitIndexer
  generalize index % 8 = k at h
  interval_cases k <;> rfl

private theorem masked_pos (byte : BitVec 8) (index : Nat) :
    decide (byte &&& bitIndexer index > 0) = byte.getLsbD (7-index % 8) := by
  have h : index % 8 < 8 := by omega
  rw [bitIndexer_eq,BitVec.and_twoPow]
  generalize index % 8 = k at h
  cases byte.getLsbD (7-k)
  · simp
  · interval_cases k <;> rfl

theorem get_eq (index : Nat) : b.get index = (decide (index / 8 < b.size) &&
      (b.buffer (index / 8)).getLsbD (7-index % 8)) := by
  unfold get
  by_cases h : b.size ≤ index / 8
  · simp [h,not_lt.mpr h]
  · simp only [h,if_false,masked_pos,not_le.mp h,decide_true,Bool.true_and]

theorem get_lt {index : Nat} (h : b.get index = true) : index / 8 < b.size := by
  rw [get_eq] at h
  simp only [Bool.and_eq_true,decide_eq_true_eq] at h
  exact h.1

@[simp] theorem set_size (index : Nat) (value : Bool) :
    (b.set index value).2.size = b.size := by
  unfold set
  split <;> rfl

theorem set_fst (index : Nat) (value : Bool) : (b.set index value).1 = decide (index / 8 < b.size) := by
  unfold set
  by_cases h : b.size ≤ index / 8
  · simp [h]
  · simp [h,not_le.mp h]

private theorem updatedByte_bit (byte : BitVec 8) (index other : Nat) (value : Bool) :
    (if value then byte &&& ~~~ bitIndexer index ||| bitIndexer index
      else byte &&& ~~~ bitIndexer index).getLsbD (7-other % 8) =
    if other % 8 = index % 8 then value else byte.getLsbD (7-other % 8) := by
  rw [bitIndexer_eq]
  have hm : (BitVec.twoPow 8 (7-index % 8)).getLsbD (7-other % 8) =
      decide (other % 8 = index % 8) := by
    rw [BitVec.getLsbD_twoPow]
    have h7 : 7-index % 8 < 8 := by omega
    have he : 7-index % 8 = 7-other % 8 ↔ other % 8 = index % 8 := by omega
    simp [h7,he]
  have hl : 7-other % 8 < 8 := by omega
  cases value
  · simp only [Bool.false_eq_true,if_false,BitVec.getLsbD_and,BitVec.getLsbD_not,hm,hl,
      decide_true,Bool.true_and]
    by_cases he : other % 8 = index % 8 <;> simp [he]
  simp only [if_true,BitVec.getLsbD_or,BitVec.getLsbD_and,BitVec.getLsbD_not,hm,hl,
    decide_true,Bool.true_and]
  by_cases he : other % 8 = index % 8 <;> simp [he]

theorem get_set (index other : Nat) (value : Bool) : (b.set index value).2.get other =
      if other = index ∧ index / 8 < b.size then value else b.get other := by
  by_cases hs : b.size ≤ index / 8
  · simp [set,hs,not_lt.mpr hs]
  have hl := not_le.mp hs
  rw [get_eq,get_eq,set_size]
  simp only [set,hs,if_false]
  by_cases hb : other / 8 = index / 8
  · rw [hb,Function.update_self,updatedByte_bit]
    by_cases he : other % 8 = index % 8
    · have : other = index := by omega
      simp [this,hl]
    · have : other ≠ index := fun h => he (by rw [h])
      simp [this,he]
  · rw [Function.update_of_ne hb]
    have : other ≠ index := fun h => hb (by rw [h])
    simp [this]
end Bitmap
end LensorOS.Memory
