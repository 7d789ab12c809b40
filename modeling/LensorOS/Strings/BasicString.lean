import LensorOS.Framework.Bytes
import Mathlib.Logic.Function.Basic

/-!
# Strings of the standard library

A string is small, with its characters in the object, or large, with a pointer to a buffer. The
address of a new buffer is an argument; `delete[]` of anything else does not return.
-/
namespace LensorOS.Strings
open Framework
def maxCharsSmall : Nat := 23

inductive Repr
  | small (data : Bytes) (remCap : Nat)
  | large (data sz cap : Nat)

namespace Repr
def size : Repr → Nat
  | small _ remCap => maxCharsSmall-remCap
  | large _ sz _ => sz

def capacity : Repr → Nat
  | small _ _ => maxCharsSmall
  | large _ _ cap => cap

def empty : Repr := small (fun _ => 0) maxCharsSmall

def value (m : Bytes) : Repr → List (BitVec 8)
  | small data remCap => data.load 0 (maxCharsSmall-remCap)
  | large data sz _ => m.load data sz

/-- The bytes of a small string. The last one has the free characters, and is the terminator when
there are none. -/
def smallBytes (data : Bytes) (remCap : Nat) : Bytes := data.write8 maxCharsSmall (.ofNat 8 remCap)
end Repr

def clz (m : Nat) : Nat := 63-Nat.log2 m

/-- The capacity for a number of characters. The shift of an `int` uses the low five bits of its
distance, which is negative, and the result is extended with its sign. -/
def newSize (m : Nat) : Nat := let shift := (8+2^64-clz m) % 2^64 % 32
  if shift = 31 then 2^64-2^31 else 2^shift

structure Store where
  memory : Bytes
  objects : Nat → Option Repr
  blocks : List (Nat × Nat)

namespace Store
variable (s : Store)
def Fresh (p n : Nat) : Prop := ∀ x ∈ s.blocks, p+n ≤ x.1 ∨ x.1+x.2 ≤ p

instance (p n : Nat) : Decidable (s.Fresh p n) :=
  inferInstanceAs (Decidable (∀ x ∈ s.blocks, p+n ≤ x.1 ∨ x.1+x.2 ≤ p))

def alloc (p n : Nat) : Option Store :=
  if s.Fresh p n then some { s with blocks := (p,n) :: s.blocks } else none

def delete (p : Nat) : Option Store :=
  if p ∈ s.blocks.map Prod.fst then some { s with blocks := s.blocks.filter fun x => x.1 ≠ p }
  else none

variable (i : Nat)
def put (r : Repr) : Store := { s with objects := Function.update s.objects i (some r) }
def write (m : Bytes) : Store := { s with memory := m }

def release : Option Store := match s.objects i with
  | some (.large data _ _) => s.delete data
  | _ => some s

def construct : Option Store := some (s.put i .empty)

def constructChar (c : BitVec 8) : Option Store :=
  some (s.put i (.small (Bytes.write8 (Bytes.write8 (fun _ => 0) 0 c) 1 0) (maxCharsSmall-1)))

def constructView (chars : List (BitVec 8)) (p : Nat) : Option Store :=
  if chars.length > maxCharsSmall then
    (s.alloc p (chars.length+1)).map fun s =>
      (s.write (s.memory.store p (chars ++ [0]))).put i (.large p chars.length chars.length)
  else
    some (s.put i (.small ((Bytes.store (fun _ => 0) 0 chars).write8 chars.length 0)
      (maxCharsSmall-chars.length)))

/-- The buffer of a copy has room for the characters, but its capacity is that of the original. -/
def copy (i j p : Nat) : Option Store := match s.objects j with
  | none => none
  | some (.large data sz cap) =>
    (s.alloc p (sz+1)).map fun s =>
      (s.write (s.memory.store p (s.memory.load data (sz+1)))).put i (.large p sz cap)
  | some r => some (s.put i r)

def move (i j : Nat) : Option Store := (s.objects j).map fun r => (s.put i r).put j .empty

/-- The representation is copied also if it has a buffer. -/
def copyAssign (i j : Nat) : Option Store := (s.release i).bind fun s => (s.objects j).map fun r => s.put i r

def moveAssign (i j : Nat) : Option Store :=
  (s.release i).bind fun s => (s.objects j).map fun r => (s.put i r).put j .empty

def destroy : Option Store :=
  (s.release i).map fun s => { s with objects := Function.update s.objects i none }

def append (chars : List (BitVec 8)) (p : Nat) : Option Store := match s.objects i with
  | none => none
  | some (.small data remCap) =>
    let size := maxCharsSmall-remCap
    if chars.length ≤ remCap then
      let data := data.store size chars
      let data := if size+chars.length < maxCharsSmall then data.write8 (size+chars.length) 0
        else data
      some (s.put i (.small data (remCap-chars.length)))
    else
      let newCap := newSize (size+chars.length)
      (s.alloc p newCap).map fun s =>
        let m := (s.memory.store p (data.load 0 maxCharsSmall)).store (p+size) chars
        (s.write (m.write8 (p+size+chars.length) 0)).put i
          (.large p (size+chars.length) (newCap % 2^63))
  | some (.large data sz cap) =>
    if sz+chars.length < cap then
      some ((s.write ((s.memory.store (data+sz) chars).write8 (data+sz+chars.length) 0)).put i
        (.large data (sz+chars.length) cap))
    else
      let newCap := newSize (sz+chars.length)
      (s.alloc p newCap).bind fun s =>
        let m := (s.memory.store p (s.memory.load data sz)).store (p+sz) chars
        ((s.write (m.write8 (p+sz+chars.length) 0)).delete data).map fun s =>
          s.put i (.large p (sz+chars.length) (newCap % 2^63))

def reserve (i n p : Nat) : Option Store := match s.objects i with
  | none => none
  | some r =>
    if n ≤ r.capacity then some s
    else
      let newCap := newSize (r.size+n)
      (s.alloc p newCap).bind fun s =>
        match r with
        | .small data remCap =>
          some ((s.write (s.memory.store p
            ((Repr.smallBytes data remCap).load 0 (maxCharsSmall+1)))).put i
              (.large p r.size (newCap % 2^63)))
        | .large data sz _ =>
          ((s.write (s.memory.store p (s.memory.load data (sz+1)))).delete data).map fun s =>
            s.put i (.large p sz (newCap % 2^63))

def shrinkToFit (i p : Nat) : Option Store := match s.objects i with
  | none => none
  | some (.small _ _) => some s
  | some (.large data sz cap) =>
    if sz+1 = cap then some s
    else
      (s.alloc p (sz+1)).bind fun s =>
        ((s.write (s.memory.store p (s.memory.load data (sz+1)))).delete data).map fun s =>
          s.put i (.large p sz (sz+1))

def clear : Option Store := match s.objects i with
  | none => none
  | some (.small data _) => some (s.put i (.small (data.write8 0 0) maxCharsSmall))
  | some (.large data _ cap) =>
    some ((s.write (s.memory.write8 data 0)).put i (.large data 0 cap))

def erase (i pos n : Nat) : Option Store := match s.objects i with
  | none => none
  | some r =>
    let size := r.size
    if pos ≥ size then some s
    else
      let n := if n ≥ size ∨ pos+n ≥ size then size-pos else n
      match r with
      | .small data remCap =>
        if pos+n = size then some (s.put i (.small (data.write8 pos 0) (remCap+n)))
        else
          some (s.put i (.small (data.store pos
            ((Repr.smallBytes data remCap).load (pos+n) (size-pos-n+1))) (remCap+n)))
      | .large data sz cap =>
        if pos+n = size then
          some ((s.write (s.memory.write8 (data+pos) 0)).put i (.large data pos cap))
        else
          some ((s.write (s.memory.store (data+pos)
            (s.memory.load (data+pos+n) (size-pos-n+1)))).put i
              (.large data (sz-n) cap))
end Store

structure Paths where
  executablePath : Nat
  workingDirectory : Nat

/-- What a fork does to the strings of the new process. -/
def Store.copyUserspaceProcess (s : Store) (newProcess original : Paths) : Option Store :=
  (s.copyAssign newProcess.executablePath original.executablePath).bind fun s =>
    s.copyAssign newProcess.workingDirectory original.workingDirectory
end LensorOS.Strings
