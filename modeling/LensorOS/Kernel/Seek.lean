import LensorOS.Kernel.References

/-!
# Seeking

The position that a seek denotes, as a number without bounds, against the offset that the call
sets in 64 bits.
-/
namespace LensorOS.Kernel
variable (file : FileMetadata)
/-- The position that a request denotes, if `whence` is valid. -/
def FileMetadata.seekPosition (offset : Int) : Nat → Option Int
  | 0 => some (file.offset+offset)
  | 1 => some (file.fileSize+offset)
  | 2 => some offset
  | _ => none

/-- The position, if it lies within the file. -/
def FileMetadata.seekWithin (offset : Int) (whence : Nat) : Option Nat :=
  (file.seekPosition offset whence).bind fun position =>
    if 0 ≤ position ∧ position ≤ file.fileSize then some position.toNat else none

/-- The requests that the call misjudges: one that overflows, one in front of the file, and one to
its end. -/
def FileMetadata.Misjudged (offset : Int) (whence : Nat) : Prop :=
  whence = 0 ∧ 2^64 ≤ file.offset+offset ∨ whence = 1 ∧ file.fileSize+offset < 0 ∨
    whence = 2 ∧ offset = file.fileSize

theorem FileMetadata.seekWithin_eq {file : FileMetadata} {offset position : Int} {whence : Nat}
    (h : file.seekPosition offset whence = some position) : file.seekWithin offset whence =
      if 0 ≤ position ∧ position ≤ file.fileSize then some position.toNat else none := by
  rw [seekWithin,h,Option.bind_some]

namespace VFS
variable {v : VFS} {file : FileMetadata} {pid procfd f whence : Nat} {offset : Int}
/-- A call that returns 0 with the file at the target, or 1 with the file as it was. -/
def Seeks (file : FileMetadata) (f : Nat) (target : Option Nat) (outcome : Result × VFS) : Prop :=
  outcome.1 = .returned (if target.isSome then 0 else 1) ∧
    outcome.2.metadata f = some { file with offset := target.getD file.offset }

theorem metadata_release (v : VFS) (f g : Nat) : (v.release f).metadata g = v.metadata g := by
  unfold release
  cases hf : v.heap[f]? with
  | none => rfl
  | some shared =>
    have hs : (v.heap.set f { shared with refCount := shared.refCount-1 })[g]?.map
        SharedFile.file = v.heap[g]?.map SharedFile.file := by
      by_cases he : f = g
      · subst he
        obtain ⟨hl,hg⟩ := List.getElem?_eq_some_iff.mp hf
        simp [hl,hg]
      · simp [he]
    dsimp only
    split <;> exact hs

theorem metadata_setMetadata (h : v.metadata f = some file) (file' : FileMetadata) :
    (v.setMetadata f file').metadata f = some file' := by
  obtain ⟨shared,hs,-⟩ := Option.map_eq_some_iff.mp h
  simp [metadata,setMetadata,hs]

theorem sys14Seek_seeks (hf : v.file pid procfd = some f) (hfi : v.metadata f = some file)
    (offset : Int) (whence : Nat) :
    Seeks file f (seekOffset file offset whence) (v.sys14Seek pid procfd offset whence) := by
  have hh := (metadata_acquire v f f).trans hfi
  unfold sys14Seek
  rw [hf]
  dsimp only
  rw [hh]
  dsimp only
  cases seekOffset file offset whence with
  | none => exact ⟨rfl,(metadata_release _ f f).trans hh⟩
  | some target => exact ⟨rfl,(metadata_release _ f f).trans (metadata_setMetadata hh _)⟩

theorem Seeks.target_eq {target target' : Option Nat} {outcome : Result × VFS}
    (h : Seeks file f target outcome) (h' : Seeks file f target' outcome) : target = target' := by
  have hv := h.1.symm.trans h'.1
  have ho := Option.some.inj (h.2.symm.trans h'.2)
  cases target with
  | none =>
    cases target' with
    | none => rfl
    | some t => cases hv
  | some t =>
    cases target' with
    | none => cases hv
    | some t' => exact congrArg (fun file : FileMetadata => some file.offset) ho

section
variable (hle : file.offset ≤ file.fileSize) (hsize : file.fileSize < 2^64)
include hle hsize
theorem seek_current (hh : offset < 2^63) :
    seekOffset file offset 0 = file.seekWithin offset 0 ↔ ¬ 2^64 ≤ file.offset+offset := by
  rw [seekOffset,FileMetadata.seekWithin_eq rfl]
  by_cases hz : offset = 0
  · subst hz
    rw [if_pos rfl,Int.add_zero,if_pos (by omega)]
    simp only [Int.toNat_natCast,true_iff]
    omega
  rw [if_neg hz]
  by_cases hb : offset < 0 ∧ (-offset).toNat > file.offset
  · rw [if_pos hb,if_neg (by omega)]
    simp only [true_iff]
    omega
  rw [if_neg hb]
  by_cases hw : 2^64 ≤ file.offset+offset
  · -- The sum starts again at zero, which is in front of the end.
    rw [if_neg (by omega),if_neg (by omega)]
    simpa using hw
  rw [Int.emod_eq_of_lt (by omega) (by omega)]
  simp only [hw,not_false_eq_true,iff_true]
  by_cases hp : (file.offset+offset).toNat > file.fileSize
  · rw [if_pos hp,if_neg (by omega)]
  · rw [if_neg hp,if_pos (by omega)]

omit hle in
theorem seek_end : seekOffset file offset 1 = file.seekWithin offset 1 ↔ ¬ file.fileSize+offset < 0 := by
  rw [seekOffset,FileMetadata.seekWithin_eq rfl]
  by_cases hp : offset > 0
  · rw [if_pos hp,if_neg (by omega)]
    simp only [true_iff]
    omega
  rw [if_neg hp]
  by_cases hb : file.fileSize+offset < 0
  · rw [if_neg (by omega)]
    simp [hb]
  · rw [if_pos (by omega),Int.emod_eq_of_lt (by omega) (by omega)]
    simp [hb]

omit hle hsize in
theorem seek_start : seekOffset file offset 2 = file.seekWithin offset 2 ↔ ¬ offset = file.fileSize := by
  rw [seekOffset,FileMetadata.seekWithin_eq rfl]
  by_cases hr : offset < 0 ∨ offset.toNat ≥ file.fileSize
  · rw [if_pos hr]
    by_cases hw : 0 ≤ offset ∧ offset ≤ file.fileSize
    · rw [if_pos hw]
      simp only [reduceCtorEq,false_iff]
      omega
    rw [if_neg hw]
    simp only [true_iff]
    omega
  · rw [if_neg hr,if_pos (by omega)]
    simp only [true_iff]
    omega

theorem seek_eq_iff (hh : offset < 2^63) :
    seekOffset file offset whence = file.seekWithin offset whence ↔
      ¬ file.Misjudged offset whence := by
  unfold FileMetadata.Misjudged
  match whence with
  | 0 => simpa using seek_current hle hsize hh
  | 1 => simpa using seek_end hsize
  | 2 => simpa using seek_start
  | n+3 => simp [seekOffset,FileMetadata.seekWithin,FileMetadata.seekPosition]
end

/-- A seek goes to the position that it denotes, or is refused where that is not in the file, except
for the requests that it misjudges. -/
theorem seek_contract_iff (hf : v.file pid procfd = some f) (hfile : v.metadata f = some file)
    (hle : file.offset ≤ file.fileSize) (hsize : file.fileSize < 2^64)
    (hoffset : -2^63 ≤ offset ∧ offset < 2^63) (whence : Nat) :
    Seeks file f (file.seekWithin offset whence) (v.sys14Seek pid procfd offset whence) ↔
      ¬ file.Misjudged offset whence := by
  have hs := sys14Seek_seeks hf hfile offset whence
  rw [← seek_eq_iff hle hsize hoffset.2]
  refine ⟨hs.target_eq,fun heq => ?_⟩
  rw [← heq]
  exact hs

def oneOpen : VFS := ((VFS.initial State.oneFile).open 0 ['/','a']).2
def openedFile : FileMetadata := ⟨0,4096,.fileAllocationTable 0⟩
theorem oneOpen_file : oneOpen.file 0 0 = some 0 ∧ oneOpen.metadata 0 = some openedFile := ⟨rfl,rfl⟩

theorem seek_contract_before_end : openedFile.seekWithin (-10) 1 = some 4086 ∧
    Seeks openedFile 0 (some 4086) (oneOpen.sys14Seek 0 0 (-10) 1) := by
  have hj : ¬ openedFile.Misjudged (-10) 1 := by simp [FileMetadata.Misjudged,openedFile]
  have hi := seek_contract_iff oneOpen_file.1 oneOpen_file.2 (by decide) (by decide)
    (by decide : -2^63 ≤ (-10 : Int) ∧ (-10 : Int) < 2^63) 1
  exact ⟨rfl,hi.mpr hj⟩

/-- The end of the file is refused, and one byte in front of its begin is not. -/
theorem seek_misjudged : (oneOpen.sys14Seek 0 0 4096 2).1 = .returned 1 ∧
    openedFile.seekWithin 4096 2 = some 4096 ∧ (oneOpen.sys14Seek 0 0 (-4097) 1).1 = .returned 0 ∧
    openedFile.seekWithin (-4097) 1 = none ∧ (oneOpen.sys14Seek 0 0 (-4097) 1).2.metadata 0 =
      some { openedFile with offset := 2^64-1 } := by
  refine ⟨?_,?_,?_,?_,?_⟩ <;> rfl
end VFS
end LensorOS.Kernel
