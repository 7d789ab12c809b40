import LensorOS.Framework.Bytes

/-!
# Copying memory

`memcpy` copies blocks of 2048, 128, 32 and 8 bytes and then single bytes, from the front.
`memmove` uses it when the destination lies below the source, and else copies single bytes
from the back.
-/
namespace LensorOS.Storage
open Framework
/-- Copy blocks of one width from position `i` on, as long as a whole block is left. -/
def copyBlocks (width dest src numBytes : Nat) (m : Bytes) (i : Nat) : Bytes × Nat :=
  if width ≠ 0 ∧ i+width ≤ numBytes then
    copyBlocks width dest src numBytes (m.copy (dest+i) (src+i) width) (i+width)
  else (m,i)
termination_by numBytes-i

/-- The count is compared as a signed number, and nothing is copied if that is negative. -/
def memcpy (m : Bytes) (dest src numBytes : Nat) : Bytes := if src = dest ∨ 2^63 ≤ numBytes then m
  else
    let (m,i) := copyBlocks 2048 dest src numBytes m 0
    let (m,i) := copyBlocks 128 dest src numBytes m i
    let (m,i) := copyBlocks 32 dest src numBytes m i
    let (m,i) := copyBlocks 8 dest src numBytes m i
    (copyBlocks 1 dest src numBytes m i).1

def copyBack (m : Bytes) (dst src : Nat) : Nat → Bytes
  | 0 => m
  | i+1 => copyBack (m.write8 (dst+i) (m (src+i))) dst src i

def memmove (m : Bytes) (dst src num : Nat) : Bytes := if num = 0 ∨ src = dst then m
  else if src > dst then memcpy m dst src num
  else copyBack m dst src num

section
variable {m : Bytes} {dest src numBytes : Nat}
theorem copy_zero : m.copy dest src 0 = m := by
  funext x
  simp [Bytes.copy]

section
variable (h : dest < src ∨ src+numBytes ≤ dest)
include h
theorem copy_copy {i width : Nat} (hi : i+width ≤ numBytes) :
    (m.copy dest src i).copy (dest+i) (src+i) width = m.copy dest src (i+width) := by
  funext x
  unfold Bytes.copy
  by_cases hb : dest+i ≤ x ∧ x < dest+i+width
  · have hw : dest ≤ x ∧ x < dest+(i+width) := by omega
    have hs : ¬ (dest ≤ src+i+(x-(dest+i)) ∧ src+i+(x-(dest+i)) < dest+i) := by omega
    have ha : src+i+(x-(dest+i)) = src+(x-dest) := by omega
    rw [if_pos hb,if_pos hw,if_neg hs,ha]
  rw [if_neg hb]
  by_cases hf : dest ≤ x ∧ x < dest+i
  · have hw : dest ≤ x ∧ x < dest+(i+width) := by omega
    rw [if_pos hf,if_pos hw]
  · have hw : ¬ (dest ≤ x ∧ x < dest+(i+width)) := by omega
    rw [if_neg hf,if_neg hw]

theorem copyBlocks_copy (width : Nat) (hw : width ≠ 0) {i : Nat} (hi : i ≤ numBytes) :
    ∃ j, i ≤ j ∧ j ≤ numBytes ∧ numBytes < j+width ∧
      copyBlocks width dest src numBytes (m.copy dest src i) i = (m.copy dest src j,j) := by
  induction hn : numBytes-i using Nat.strong_induction_on generalizing i with
  | _ n ih =>
    rw [copyBlocks]
    by_cases hm : i+width ≤ numBytes
    · rw [if_pos ⟨hw,hm⟩,copy_copy h hm]
      obtain ⟨j,-,hr⟩ := ih (numBytes-(i+width)) (by omega) hm rfl
      exact ⟨j,by omega,hr⟩
    · rw [if_neg fun hc => hm hc.2]
      exact ⟨i,le_rfl,hi,by omega,rfl⟩

theorem memcpy_eq_copy (hc : numBytes < 2^63) : memcpy m dest src numBytes = m.copy dest src numBytes := by
  by_cases hs : src = dest
  · have hz : numBytes = 0 := by omega
    rw [memcpy,if_pos (.inl hs),hz,copy_zero]
  have hn : ¬ (src = dest ∨ 2^63 ≤ numBytes) := by omega
  rw [memcpy,if_neg hn]
  obtain ⟨i1,-,hi1,-,h1⟩ := copyBlocks_copy (m := m) h 2048 (by decide) (Nat.zero_le numBytes)
  obtain ⟨i2,-,hi2,-,h2⟩ := copyBlocks_copy (m := m) h 128 (by decide) hi1
  obtain ⟨i3,-,hi3,-,h3⟩ := copyBlocks_copy (m := m) h 32 (by decide) hi2
  obtain ⟨i4,-,hi4,-,h4⟩ := copyBlocks_copy (m := m) h 8 (by decide) hi3
  obtain ⟨i5,-,hi5,hl,h5⟩ := copyBlocks_copy (m := m) h 1 (by decide) hi4
  have ha : i5 = numBytes := by omega
  rw [copy_zero] at h1
  simp [h1,h2,h3,h4,h5,ha]
end

theorem copyBack_apply {dst : Nat} (h : src ≤ dst) (num x : Nat) :
    copyBack m dst src num x = if dst ≤ x ∧ x < dst+num then m (src+(x-dst)) else m x := by
  induction num generalizing m with
  | zero => simp [copyBack]
  | succ i ih =>
    rw [copyBack,ih]
    by_cases hlo : dst ≤ x ∧ x < dst+i
    · have hw : dst ≤ x ∧ x < dst+(i+1) := by omega
      have hn : src+(x-dst) ≠ dst+i := by omega
      rw [if_pos hlo,if_pos hw,Bytes.write8_outside m _ hn]
    rw [if_neg hlo]
    by_cases hl : x = dst+i
    · have hw : dst ≤ x ∧ x < dst+(i+1) := by omega
      rw [if_pos hw,hl,Bytes.write8_same,Nat.add_sub_cancel_left]
    · have hw : ¬ (dst ≤ x ∧ x < dst+(i+1)) := by omega
      rw [if_neg hw,Bytes.write8_outside m _ hl]

theorem memmove_eq_copy {dst num : Nat} (hc : num < 2^63) : memmove m dst src num = m.copy dst src num := by
  unfold memmove
  by_cases hn : num = 0 ∨ src = dst
  · rw [if_pos hn]
    funext x
    rcases hn with rfl | rfl
    · rw [copy_zero]
    unfold Bytes.copy
    split
    · next hi => rw [Nat.add_sub_cancel' hi.1]
    · rfl
  · rw [if_neg hn]
    by_cases hg : src > dst
    · rw [if_pos hg]
      exact memcpy_eq_copy (.inl hg) hc
    rw [if_neg hg]
    funext x
    exact copyBack_apply (by omega) num x
end

/-- Store whole words from position `i` on. -/
def setWords (start numBytes : Nat) (qWordValue : BitVec 64) (m : Bytes) (i : Nat) : Bytes :=
  if i+8 ≤ numBytes then
    setWords start numBytes qWordValue (m.write64 (start+i) qWordValue) (i+8)
  else m
termination_by numBytes-i

/-- The words that are stored first are stored again as single bytes. -/
def memset (m : Bytes) (start : Nat) (value : BitVec 8) (numBytes : Nat) : Bytes :=
  let qWordValue := (List.range 8).foldl (fun w k => w ||| value.setWidth 64 <<< (8*k)) 0
  let m := if numBytes ≥ 256 then setWords start numBytes qWordValue m 0 else m
  (List.range numBytes).foldl (fun m i => m.write8 (start+i) value) m

section
variable {m : Bytes} {start numBytes : Nat} {value : BitVec 8} {x : Nat}
theorem setWords_outside (word : BitVec 64) (i : Nat) (h : x < start ∨ start+numBytes ≤ x) :
    setWords start numBytes word m i x = m x := by
  induction m, i using setWords.induct start numBytes word with
  | case1 m i hi ih =>
    rw [setWords,if_pos hi,ih]
    exact m.write64_outside word (by omega)
  | case2 m i hi => rw [setWords,if_neg hi]

theorem setBytes_eq : (List.range numBytes).foldl (fun m i => m.write8 (start+i) value) m =
    m.fill start numBytes value := by
  induction numBytes with
  | zero =>
    funext x
    exact (m.fill_outside value (by omega)).symm
  | succ n ih =>
    rw [List.range_succ,List.foldl_append,ih]
    funext x
    simp only [List.foldl_cons,List.foldl_nil,Bytes.write8,Bytes.fill]
    grind

theorem memset_eq_fill : memset m start value numBytes = m.fill start numBytes value := by
  rw [memset,setBytes_eq]
  funext x
  by_cases hx : start ≤ x ∧ x < start+numBytes
  · simp [Bytes.fill,hx]
  rw [Bytes.fill_outside _ _ (by omega),Bytes.fill_outside _ _ (by omega)]
  split
  · exact setWords_outside _ 0 (by omega)
  · rfl
end

/-- Moves, copies of disjoint ranges and fills have the effect that they have byte by byte. -/
theorem moves_bytewise {num : Nat} (h : num < 2^63) (m : Bytes) (dst src : Nat) (value : BitVec 8) :
    memmove m dst src num = m.copy dst src num ∧
      (dst+num ≤ src ∨ src+num ≤ dst → memcpy m dst src num = m.copy dst src num) ∧
        memset m dst value num = m.fill dst num value :=
  ⟨memmove_eq_copy h,fun hd => memcpy_eq_copy (by omega) h,memset_eq_fill⟩

theorem moves_bytewise_overlap : 300 < 2^63 ∧
    memmove (fun x => .ofNat 8 x) 1 0 300 = Bytes.copy (fun x => .ofNat 8 x) 1 0 300 :=
  ⟨by decide,(moves_bytewise (by decide) (fun x => .ofNat 8 x) 1 0 0).1⟩
end LensorOS.Storage
