import LensorOS.Memory.Paging

/-!
# Programs and their arguments

What the loader reads from an executable, and the bytes it pushes on a new stack. Nothing checks
that they fit the stack.
-/
namespace LensorOS.Memory
open Framework
inductive SegmentType
  | load
  | gnuStack
  | other
deriving DecidableEq

/-- A program header, with the bytes the file system delivers for the file part of the
segment; `none` is a failed read. -/
structure ProgramHeader where
  type : SegmentType
  flags : BitVec 32
  vaddr : BitVec 64
  filesz : BitVec 64
  memsz : BitVec 64
  data : Option (List (BitVec 8))

structure Program where
  headers : List ProgramHeader
  args : List (List (BitVec 8))

namespace ProgramHeader
def executable (h : ProgramHeader) : Bool := h.flags &&& 0x1#32 != 0
def writable (h : ProgramHeader) : Bool := h.flags &&& 0x2#32 != 0
def offset (h : ProgramHeader) : Nat := h.vaddr.toNat % pageSize
def sizeToLoad (h : ProgramHeader) : Nat := (h.memsz.toNat+h.offset) % 2^64
def pages (h : ProgramHeader) : Nat := (h.sizeToLoad+(pageSize-1)) % 2^64 / pageSize

def mappingFlags (h : ProgramHeader) : BitVec 64 :=
  flagSet ([.present,.userSuper] ++ (if h.writable then [.readWrite] else []) ++
    if h.executable then [] else [.nx])
end ProgramHeader

def stackFlags (headers : List ProgramHeader) : BitVec 64 :=
  flagSet ([.present,.readWrite,.userSuper] ++
    if headers.any fun h => h.type == .gnuStack && !h.executable then [.nx] else [])

structure ArgumentStack where
  memory : Bytes
  top : Nat

namespace ArgumentStack
def lower (top n : Nat) : Nat := (top+(2^64-n % 2^64)) % 2^64

def pushWord (st : ArgumentStack) (w : BitVec 64) : ArgumentStack :=
  ⟨st.memory.write64 (lower st.top 8) w,lower st.top 8⟩

/-- The room a string takes: its bytes and terminator, and up to the next multiple of 16. -/
def stringSize (str : List (BitVec 8)) : Nat := str.length+1+(16-(str.length+1) % 16)

def pushString (st : ArgumentStack) (str : List (BitVec 8)) : ArgumentStack :=
  ⟨st.memory.store (lower st.top (stringSize str)) (str ++ [0]),lower st.top (stringSize str)⟩

def pushStrings (st : ArgumentStack) : List (List (BitVec 8)) → ArgumentStack × List Nat
  | [] => (st,[])
  | str :: rest =>
    let pushed := st.pushString str
    let tail := pushed.pushStrings rest
    (tail.1, pushed.top :: tail.2)

/-- A filler word goes below the strings when the number of words to come is odd. -/
def pushFiller (st : ArgumentStack) (envc argc : Nat) : ArgumentStack :=
  if (envc+1+argc+1+1) % 2 ≠ 0 then st.pushWord 0 else st

def pushAddresses (st : ArgumentStack) (addresses : List Nat) : ArgumentStack :=
  addresses.reverse.foldl (fun st a => st.pushWord (BitVec.ofNat 64 a)) st

def pushProgram (st : ArgumentStack) (args env : List (List (BitVec 8))) : ArgumentStack :=
  let environment := st.pushStrings env
  let arguments := environment.1.pushStrings args
  let filled := arguments.1.pushFiller env.length args.length
  let envp := (filled.pushWord 0).pushAddresses environment.2
  let argv := (envp.pushWord 0).pushAddresses arguments.2
  argv.pushWord (BitVec.ofNat 64 args.length)

def footprint (args env : List (List (BitVec 8))) : Nat :=
  (env.map stringSize).sum+(args.map stringSize).sum +
    (if (env.length+1+args.length+1+1) % 2 ≠ 0 then 8 else 0) + 8 * (1+env.length+1+args.length+1)

/-- `n` bytes were pushed, and memory elsewhere is as before. -/
structure Pushed (st : ArgumentStack) (n : Nat) (st' : ArgumentStack) : Prop where
  top : st'.top+n = st.top
  frame : ∀ x, x < st'.top ∨ st.top ≤ x → st'.memory x = st.memory x

variable {st st' st'' : ArgumentStack} {n k : Nat}
theorem Pushed.refl (st : ArgumentStack) : Pushed st 0 st := ⟨rfl,fun _ _ => rfl⟩

theorem Pushed.trans (h : Pushed st n st') (h' : Pushed st' k st'') : Pushed st (n+k) st'' := by
  have ht := h.top
  have ht' := h'.top
  refine ⟨by omega,fun x hx => ?_⟩
  rw [h'.frame x (by omega),h.frame x (by omega)]

theorem lower_eq {top n : Nat} (hn : n ≤ top) (ht : top < 2^64) : lower top n = top-n := by
  unfold lower
  omega

variable (st : ArgumentStack)
@[simp] theorem pushWord_top (w : BitVec 64) : (st.pushWord w).top = lower st.top 8 := rfl

theorem push_memory (w : BitVec 64) :
    (st.pushWord w).memory = st.memory.write64 (lower st.top 8) w := by rw [pushWord]

theorem pushString_memory (str : List (BitVec 8)) : (st.pushString str).memory =
      st.memory.store (lower st.top (stringSize str)) (str ++ [0]) := by rw [pushString]

@[simp] theorem pushString_top (str : List (BitVec 8)) :
    (st.pushString str).top = lower st.top (stringSize str) := rfl

theorem push_pushed (w : BitVec 64) (hn : 8 ≤ st.top) (ht : st.top < 2^64) : Pushed st 8 (st.pushWord w) := by
  have hl := lower_eq hn ht
  refine ⟨?_,fun x hx => ?_⟩
  · rw [pushWord_top]
    omega
  · rw [pushWord_top] at hx
    rw [push_memory,Bytes.write64_outside _ _ (by omega)]

theorem pushString_pushed (str : List (BitVec 8))
    (hn : stringSize str ≤ st.top) (ht : st.top < 2^64) :
    Pushed st (stringSize str) (st.pushString str) := by
  have hl := lower_eq hn ht
  have hr : (str ++ [0]).length ≤ stringSize str := by
    rw [List.length_append,List.length_singleton]
    unfold stringSize
    omega
  refine ⟨?_,fun x hx => ?_⟩
  · rw [pushString_top]
    omega
  · rw [pushString_top] at hx
    rw [pushString_memory,Bytes.store_outside _ (by omega)]

theorem pushStrings_pushed (args : List (List (BitVec 8)))
    (hn : (args.map stringSize).sum ≤ st.top) (ht : st.top < 2^64) :
    Pushed st (args.map stringSize).sum (st.pushStrings args).1 ∧
      (st.pushStrings args).2.length = args.length := by
  induction args generalizing st with
  | nil => exact ⟨Pushed.refl st,rfl⟩
  | cons str rest ih =>
    rw [List.map_cons,List.sum_cons] at hn ⊢
    have hf := pushString_pushed st str (by omega) ht
    have hd := hf.top
    obtain ⟨hr,hl⟩ := ih (st.pushString str) (by omega) (by omega)
    exact ⟨hf.trans hr,congrArg (· + 1) hl⟩

private theorem pushWords_pushed (words : List Nat)
    (hn : 8 * words.length ≤ st.top) (ht : st.top < 2^64) :
    Pushed st (8 * words.length) (words.foldl (fun st a => st.pushWord (BitVec.ofNat 64 a)) st) := by
  induction words generalizing st with
  | nil => exact Pushed.refl st
  | cons a rest ih =>
    have hl : 8 * (a :: rest).length = 8+8 * rest.length := by
      rw [List.length_cons]
      omega
    rw [hl] at hn ⊢
    rw [List.foldl_cons]
    have hf := push_pushed st (BitVec.ofNat 64 a) (by omega) ht
    have hd := hf.top
    exact hf.trans (ih (st.pushWord (BitVec.ofNat 64 a)) (by omega) (by omega))

theorem pushAddresses_pushed (addresses : List Nat)
    (hn : 8 * addresses.length ≤ st.top) (ht : st.top < 2^64) :
    Pushed st (8 * addresses.length) (st.pushAddresses addresses) := by
  rw [← List.length_reverse] at hn ⊢
  exact pushWords_pushed st addresses.reverse hn ht

theorem pushFiller_pushed (envc argc : Nat) (hn : 8 ≤ st.top) (ht : st.top < 2^64) :
    Pushed st (if (envc+1+argc+1+1) % 2 ≠ 0 then 8 else 0) (st.pushFiller envc argc) := by
  unfold pushFiller
  split_ifs
  · exact push_pushed st 0 hn ht
  · exact Pushed.refl st

/-- The two terminated lists of addresses and the number of arguments. -/
theorem pushLists_pushed (argv envp : List Nat) (n : Nat)
    (hn : 8 * (1+envp.length+1+argv.length+1) ≤ st.top) (ht : st.top < 2^64) :
    Pushed st (8 * (1+envp.length+1+argv.length+1))
      (((((st.pushWord 0).pushAddresses envp).pushWord 0).pushAddresses argv).pushWord
        (BitVec.ofNat 64 n)) := by
  have h1 := push_pushed st 0 (by omega) ht
  have ht1 := h1.top
  have h2 := pushAddresses_pushed (st.pushWord 0) envp (by omega) (by omega)
  have ht2 := h2.top
  have h3 := push_pushed ((st.pushWord 0).pushAddresses envp) 0 (by omega) (by omega)
  have ht3 := h3.top
  have h4 := pushAddresses_pushed (((st.pushWord 0).pushAddresses envp).pushWord 0) argv
    (by omega) (by omega)
  have ht4 := h4.top
  have h5 := push_pushed ((((st.pushWord 0).pushAddresses envp).pushWord 0).pushAddresses argv)
    (BitVec.ofNat 64 n) (by omega) (by omega)
  have hs : 8+8 * envp.length+8+8 * argv.length+8 = 8 * (1+envp.length+1+argv.length+1) := by omega
  exact hs ▸ (((h1.trans h2).trans h3).trans h4).trans h5

theorem pushProgram_pushed (args env : List (List (BitVec 8)))
    (hn : footprint args env ≤ st.top) (ht : st.top < 2^64) :
    Pushed st (footprint args env) (st.pushProgram args env) := by
  unfold footprint at hn ⊢
  obtain ⟨he,hen⟩ := pushStrings_pushed st env (by omega) ht
  have ht1 := he.top
  obtain ⟨ha,han⟩ := pushStrings_pushed (st.pushStrings env).1 args (by omega) (by omega)
  have ht2 := ha.top
  have hf := pushFiller_pushed ((st.pushStrings env).1.pushStrings args).1 env.length args.length
    (by omega) (by omega)
  have ht3 := hf.top
  have hl := pushLists_pushed (((st.pushStrings env).1.pushStrings args).1.pushFiller env.length args.length)
    ((st.pushStrings env).1.pushStrings args).2 (st.pushStrings env).2 args.length (by omega) (by omega)
  rw [hen,han] at hl
  exact ((he.trans ha).trans hf).trans hl
end ArgumentStack
end LensorOS.Memory
