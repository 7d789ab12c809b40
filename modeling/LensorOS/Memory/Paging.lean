import LensorOS.Framework.Bytes
import LensorOS.Memory.PhysicalMemoryManager

/-!
# Page directory entries

An entry of a page table holds a frame address in bits 12 to 51 and flags around it. Tables
have 512 entries; a virtual address is cut into four indices of nine bits above its offset.
-/
namespace LensorOS.Memory
open Framework BitVec
inductive PageTableFlag
  | present
  | readWrite
  | userSuper
  | writeThrough
  | cacheDisabled
  | accessed
  | dirty
  | largerPages
  | global
  | lensorCopyOnWrite
  | nx
deriving DecidableEq

namespace PageTableFlag
def bit : PageTableFlag → Nat
  | present => 0
  | readWrite => 1
  | userSuper => 2
  | writeThrough => 3
  | cacheDisabled => 4
  | accessed => 5
  | dirty => 6
  | largerPages => 7
  | global => 8
  | lensorCopyOnWrite => 9
  | nx => 63

def mask (f : PageTableFlag) : BitVec 64 := 1#64 <<< f.bit

def passedOn : List PageTableFlag :=
  [present,readWrite,userSuper,writeThrough,cacheDisabled,accessed,dirty,largerPages,global]
end PageTableFlag

def flagSet (flags : List PageTableFlag) : BitVec 64 := flags.foldl (fun v f => v ||| f.mask) 0

namespace PageDirectoryEntry
def addressMask : BitVec 64 := 0x000ffffffffff000#64
def flagsMask : BitVec 64 := 0xfff0000000000fff#64
variable (e : BitVec 64)
def address : Nat := (e &&& addressMask).toNat

def setAddress (addr : Nat) : BitVec 64 := (e &&& flagsMask) ||| (BitVec.ofNat 64 addr &&& addressMask)

def flag (f : PageTableFlag) : Bool := e &&& f.mask != 0

def setFlag (f : PageTableFlag) (enabled : Bool) : BitVec 64 :=
  if enabled then (e &&& ~~~ f.mask) ||| f.mask else e &&& ~~~ f.mask

def orFlagIf (f : PageTableFlag) (enabled : Bool) : BitVec 64 :=
  if enabled then e ||| f.mask else e

def orFlags (e flags : BitVec 64) : BitVec 64 := PageTableFlag.passedOn.foldl (fun e f => orFlagIf e f (flag flags f)) e

def setFlags (e flags : BitVec 64) : BitVec 64 := PageTableFlag.passedOn.foldl (fun e f => setFlag e f (flag flags f)) e

private theorem bit_lt (f : PageTableFlag) : f.bit < 64 := by cases f <;> decide

variable {f : PageTableFlag}
private theorem bit_injective {g : PageTableFlag} (h : f.bit = g.bit) : f = g := by
  cases f <;> cases g <;> first | rfl | cases h

private theorem mask_getLsbD (f : PageTableFlag) (i : Nat) : f.mask.getLsbD i = decide (i = f.bit) := by
  rw [PageTableFlag.mask,← twoPow_eq,getLsbD_twoPow]
  have hb := bit_lt f
  by_cases h : i = f.bit
  · simp [h,hb]
  · simp [h,Ne.symm h]

private theorem addressMask_bit (f : PageTableFlag) : addressMask.getLsbD f.bit = false := by
  cases f <;> decide

theorem flag_eq_getLsbD (f : PageTableFlag) : flag e f = e.getLsbD f.bit := by
  have hb := bit_lt f
  unfold flag
  rw [PageTableFlag.mask,← twoPow_eq,and_twoPow]
  cases h : e.getLsbD f.bit with
  | false => rfl
  | true =>
    have hn : twoPow 64 f.bit ≠ 0#64 := by
      intro hz
      have hs := congrArg (fun v => v.getLsbD f.bit) hz
      simp [hb] at hs
    simpa using hn

@[simp] theorem flag_zero (f : PageTableFlag) : flag 0 f = false := by
  rw [flag_eq_getLsbD]
  exact getLsbD_zero

theorem flag_setFlag (f g : PageTableFlag) (b : Bool) :
    flag (setFlag e f b) g = if g = f then b else flag e g := by
  simp only [flag_eq_getLsbD,setFlag]
  by_cases h : g = f
  · subst h
    cases b <;> simp [mask_getLsbD,bit_lt]
  have hbi : g.bit ≠ f.bit := fun hb => h (bit_injective hb)
  cases b <;> simp only [Bool.false_eq_true,if_true,if_false,getLsbD_and,
    getLsbD_or,getLsbD_not,mask_getLsbD,bit_lt,h,hbi,decide_false,
    decide_true,Bool.not_false,Bool.and_true,Bool.or_false]

theorem setFlag_self {e : BitVec 64} (h : flag e f = false) : setFlag e f false = e := by
  rw [flag_eq_getLsbD] at h
  refine eq_of_getLsbD_eq fun i hi => ?_
  rw [setFlag,if_neg Bool.false_ne_true,getLsbD_and,getLsbD_not,mask_getLsbD]
  by_cases hb : i = f.bit
  · simp [hb,h]
  · simp [hb,hi]

theorem flag_orFlagIf (f g : PageTableFlag) (b : Bool) :
    flag (orFlagIf e f b) g = (flag e g || (decide (g = f) && b)) := by
  simp only [flag_eq_getLsbD,orFlagIf]
  by_cases h : g = f
  · subst h
    cases b <;> simp [mask_getLsbD]
  · have hbi : g.bit ≠ f.bit := fun hb => h (bit_injective hb)
    cases b <;> simp [mask_getLsbD,h,hbi]

theorem address_setFlag (f : PageTableFlag) (b : Bool) : address (setFlag e f b) = address e := by
  unfold address
  congr 1
  apply eq_of_getLsbD_eq
  intro i hi
  by_cases h : i = f.bit
  · subst h
    simp [addressMask_bit]
  · cases b <;> simp only [setFlag,Bool.false_eq_true,if_true,if_false,getLsbD_and,
      getLsbD_or,getLsbD_not,mask_getLsbD,h,hi,decide_false,decide_true,
      Bool.not_false,Bool.and_true,Bool.or_false]

theorem address_orFlagIf (f : PageTableFlag) (b : Bool) : address (orFlagIf e f b) = address e := by
  unfold address
  congr 1
  apply eq_of_getLsbD_eq
  intro i hi
  by_cases h : i = f.bit
  · subst h
    simp [addressMask_bit]
  · cases b <;> simp [orFlagIf,mask_getLsbD,h]

section
variable (e flags : BitVec 64)
@[simp] theorem address_orFlags : address (orFlags e flags) = address e := by
  simp [orFlags,PageTableFlag.passedOn,address_orFlagIf]

@[simp] theorem address_setFlags : address (setFlags e flags) = address e := by
  simp [setFlags,PageTableFlag.passedOn,address_setFlag]

@[simp] theorem present_orFlags :
    flag (orFlags e flags) .present = (flag e .present || flag flags .present) := by
  simp [orFlags,PageTableFlag.passedOn,flag_orFlagIf]

@[simp] theorem userSuper_orFlags :
    flag (orFlags e flags) .userSuper = (flag e .userSuper || flag flags .userSuper) := by
  simp [orFlags,PageTableFlag.passedOn,flag_orFlagIf]

@[simp] theorem present_setFlags : flag (setFlags e flags) .present = flag flags .present := by
  simp [setFlags,PageTableFlag.passedOn,flag_setFlag]

@[simp] theorem userSuper_setFlags : flag (setFlags e flags) .userSuper = flag flags .userSuper := by
  simp [setFlags,PageTableFlag.passedOn,flag_setFlag]

@[simp] theorem readWrite_setFlags : flag (setFlags e flags) .readWrite = flag flags .readWrite := by
  simp [setFlags,PageTableFlag.passedOn,flag_setFlag]

theorem flag_setFlags (hf : f ∈ PageTableFlag.passedOn) : flag (setFlags e flags) f = flag flags f := by
  cases f with
  | lensorCopyOnWrite | nx => exact absurd hf (by decide)
  | _ => simp [setFlags,PageTableFlag.passedOn,flag_setFlag]

@[simp] theorem largerPages_orFlags :
    flag (orFlags e flags) .largerPages = (flag e .largerPages || flag flags .largerPages) := by
  simp [orFlags,PageTableFlag.passedOn,flag_orFlagIf]
end

theorem address_eq : address e = e.toNat / 2^12 % 2^40 * 2^12 := by
  have hm : addressMask.toNat = 2^12 * (2^40-1) := by decide
  unfold address
  rw [toNat_and,hm,and_mask]

theorem address_setAddress {a : Nat} (ha : a % pageSize = 0) (hl : a < 2^52) :
    address (setAddress e a) = a := by
  have hf : setAddress e a &&& addressMask = BitVec.ofNat 64 a &&& addressMask := by
    have hc : flagsMask &&& addressMask = 0#64 := by decide
    rw [setAddress,BitVec.and_or_distrib_right,BitVec.and_assoc,hc,BitVec.and_assoc,
      BitVec.and_self,BitVec.and_zero,BitVec.zero_or]
  have hs : address (setAddress e a) = address (BitVec.ofNat 64 a) := by
    unfold address
    rw [hf]
  rw [hs,address_eq,toNat_ofNat]
  unfold pageSize at ha
  omega

@[simp] theorem flag_setAddress (a : Nat) (f : PageTableFlag) :
    flag (setAddress e a) f = flag e f := by
  have hm : flagsMask.getLsbD f.bit = true := by cases f <;> decide
  simp [flag_eq_getLsbD,setAddress,addressMask_bit,hm]
end PageDirectoryEntry
end LensorOS.Memory
