import LensorOS.Framework.Run
import LensorOS.Framework.SharedResources
import Mathlib.Algebra.GroupWithZero.Nat

/-!
# Shared and weak pointers

Handles and control blocks have numbers in the order they are made. One that is destroyed leaves an
empty place, and what needs it then does not return. A handle may be a member of a managed object.
-/
namespace LensorOS.Pointers
inductive HandleKind
  | shared
  | weak
deriving DecidableEq

/-- A `shared_ptr` or a `weak_ptr`, with the control block whose object it is a member of. -/
structure Handle where
  kind : HandleKind
  ptr : Nat
  ctrl : Option Nat
  owner : Option Nat
deriving DecidableEq

def Handle.strong (h : Handle) : Option Nat := if h.kind = .shared then h.ctrl else none

structure ControlBlock where
  obj : Nat
  refCount : Nat
  weakCount : Nat
  jointlyAllocated : Bool
deriving DecidableEq

/-- What happens to the memory of a control block: its object is destroyed, and deleted if it has
memory of its own, and the control block is deleted, with the object or alone. -/
inductive Event
  | destroy (block : Nat) (deleted : Bool)
  | free (block : Nat) (joint : Bool)
deriving DecidableEq

def Event.block : Event → Nat
  | destroy block _ => block
  | free block _ => block

structure State where
  handles : List (Option Handle)
  blocks : List (Option ControlBlock)
  events : List Event
deriving DecidableEq

def fetchSub (count : Nat) : Nat := if count = 0 then 2 ^ 64-1 else count-1

/-- What is left to do of the destructors that run: to destroy a handle, to release what a handle
that is destroyed or assigned to had, and to release the weak reference after the object is
destroyed. -/
inductive Job
  | destroyHandle (i : Nat)
  | release (h : Handle)
  | releaseWeak (b : Nat)
deriving DecidableEq

namespace State
variable (s : State)
def initial : State := ⟨[],[],[]⟩
def handle? (i : Nat) : Option Handle := s.handles[i]?.join
def block? (b : Nat) : Option ControlBlock := s.blocks[b]?.join
def setHandle (i : Nat) (h : Option Handle) : State := { s with handles := s.handles.set i h }
def addHandle (h : Handle) : State := { s with handles := s.handles ++ [some h] }
def addBlock (block : ControlBlock) : State := { s with blocks := s.blocks ++ [some block] }

def setBlock (b : Nat) (block : Option ControlBlock) : State := { s with blocks := s.blocks.set b block }

def addWeak (b : Nat) : Option State := (s.block? b).map fun block =>
    s.setBlock b (some { block with weakCount := block.weakCount+1 })

def addShared (b : Nat) : Option State := (s.block? b).bind fun block =>
    (s.setBlock b (some { block with refCount := block.refCount+1 })).addWeak b

def releaseWeak (b : Nat) : Option State := (s.block? b).map fun block =>
    if block.weakCount = 1 then
      { s.setBlock b none with events := s.events ++ [.free b block.jointlyAllocated] }
    else s.setBlock b (some { block with weakCount := fetchSub block.weakCount })

def members (b : Nat) : List Nat := ((List.range s.handles.length).filter fun i =>
    (s.handle? i).any fun h => h.owner = some b).reverse

/-- Drop a reference to the object. The last one runs the deleter, and so the destructors of the
members of the object, before the weak reference is released. -/
def releaseShared (b : Nat) : Option (List Job × State) := (s.block? b).map fun block =>
    let t := s.setBlock b (some { block with refCount := fetchSub block.refCount })
    if block.refCount = 1 then
      ((s.members b).map .destroyHandle ++ [.releaseWeak b],
        { t with events := s.events ++ [.destroy b (!block.jointlyAllocated)] })
    else ([.releaseWeak b],t)

def runJob : Job → Option (List Job × State)
  | .destroyHandle i => (s.handle? i).map fun h => ([.release h],s.setHandle i none)
  | .release h =>
    match h.ctrl with
    | none => some ([],s)
    | some b =>
      match h.kind with
      | .shared => s.releaseShared b
      | .weak => some ([.releaseWeak b],s)
  | .releaseWeak b => (s.releaseWeak b).map fun s => ([],s)

def unwind : Nat → List Job → State → Option State
  | _, [], s => some s
  | 0, _ :: _, _ => none
  | fuel+1, job :: work, s => (s.runJob job).bind fun (jobs,s) => unwind fuel (jobs ++ work) s

def delete (h : Handle) : Option State := unwind (3 * s.handles.length+2) [.release h] s
def destroy (i : Nat) : Option State := unwind (3 * s.handles.length) [.destroyHandle i] s

section
variable (kind : HandleKind)
def acquire : Option Nat → Option State
  | none => some s
  | some b =>
    match kind with
    | .shared => s.addShared b
    | .weak => s.addWeak b

/-- The constructors that copy a handle. The aliasing ones are given another pointer. -/
def constructCopy (j : Nat) (ptr : Option Nat) (owner : Option Nat) :
    Option State := (s.handle? j).bind fun other =>
    (s.addHandle ⟨kind,ptr.getD other.ptr,other.ctrl,owner⟩).acquire kind other.ctrl

def constructMove (j : Nat) (ptr : Option Nat) (owner : Option Nat) :
    Option State := (s.handle? j).map fun other =>
    (s.addHandle ⟨kind,ptr.getD other.ptr,other.ctrl,owner⟩).setHandle j
      (some { other with ptr := 0, ctrl := none })

def constructOwner (obj : Nat) (joint : Bool) (owner : Option Nat) : State :=
  (s.addBlock ⟨obj,1,1,joint⟩).addHandle ⟨.shared,obj,some s.blocks.length,owner⟩

def assignCopy (i j : Nat) : Option State :=
  (s.handle? i).bind fun target => (s.delete target).bind fun s =>
    (s.handle? i).bind fun target => (s.handle? j).bind fun other =>
      (s.setHandle i (some { target with ptr := other.ptr, ctrl := other.ctrl })).acquire
        target.kind other.ctrl

def assignMove (i j : Nat) : Option State :=
  (s.handle? i).bind fun target => (s.delete target).bind fun s =>
    (s.handle? i).bind fun target => (s.handle? j).map fun other =>
      (s.setHandle i (some { target with ptr := other.ptr, ctrl := other.ctrl })).setHandle j
        (some { other with ptr := 0, ctrl := none })

def assignNull (i : Nat) : Option State :=
  (s.handle? i).bind fun target => (s.delete target).bind fun s =>
    (s.handle? i).map fun target => s.setHandle i (some { target with ptr := 0, ctrl := none })

/-- The assignment from a `weak_ptr` of a different type, which does not add a weak reference. -/
def assignConvert (i j : Nat) : Option State :=
  (s.handle? i).bind fun target => (s.delete target).bind fun s =>
    (s.handle? i).bind fun target => (s.handle? j).map fun other =>
      s.setHandle i (some { target with ptr := other.ptr, ctrl := other.ctrl })

/-- Convert a `weak_ptr` to a `shared_ptr`, which is null if the object has been destroyed. -/
def lock (j : Nat) (owner : Option Nat) : Option State := (s.handle? j).bind fun weak =>
    match weak.ctrl with
    | none => some (s.addHandle ⟨.shared,0,none,owner⟩)
    | some b => (s.block? b).bind fun block =>
      if block.refCount = 0 then some (s.addHandle ⟨.shared,0,none,owner⟩)
      else
        ((s.setBlock b (some { block with refCount := block.refCount+1 })).addWeak b).map fun s =>
          s.addHandle ⟨.shared,weak.ptr,some b,owner⟩
end
end State

/-- The special members of the two classes. Those that make a handle are given the object that the
handle is a member of. -/
inductive Call
  | sharedNull (owner : Option Nat)
  | sharedRaw (ptr : Nat) (owner : Option Nat)
  | makeShared (obj : Nat) (owner : Option Nat)
  | sharedCopy (j : Nat) (owner : Option Nat)
  | sharedMove (j : Nat) (owner : Option Nat)
  | sharedAlias (j ptr : Nat) (owner : Option Nat)
  | sharedAliasMove (j ptr : Nat) (owner : Option Nat)
  | sharedAssign (i j : Nat)
  | sharedAssignMove (i j : Nat)
  | sharedAssignNull (i : Nat)
  | weakNull (owner : Option Nat)
  | weakCopy (j : Nat) (owner : Option Nat)
  | weakCopyConvert (j : Nat) (owner : Option Nat)
  | weakFromShared (j : Nat) (owner : Option Nat)
  | weakMove (j : Nat) (owner : Option Nat)
  | weakMoveConvert (j : Nat) (owner : Option Nat)
  | weakAssign (i j : Nat)
  | weakAssignMove (i j : Nat)
  | weakAssignShared (i j : Nat)
  | weakAssignConvert (i j : Nat)
  | weakAssignMoveConvert (i j : Nat)
  | weakReset (i : Nat)
  | weakLock (j : Nat) (owner : Option Nat)
  | destroy (i : Nat)
deriving DecidableEq

namespace State
variable (s : State)
def step : Call → Option State
  | .sharedNull owner => some (s.addHandle ⟨.shared,0,none,owner⟩)
  | .sharedRaw ptr owner => some (s.constructOwner ptr false owner)
  | .makeShared obj owner => some (s.constructOwner obj true owner)
  | .sharedCopy j owner => s.constructCopy .shared j none owner
  | .sharedMove j owner => s.constructMove .shared j none owner
  | .sharedAlias j ptr owner => s.constructCopy .shared j (some ptr) owner
  | .sharedAliasMove j ptr owner => s.constructMove .shared j (some ptr) owner
  | .sharedAssign i j => if i = j then some s else s.assignCopy i j
  | .sharedAssignMove i j => if i = j then some s else s.assignMove i j
  | .sharedAssignNull i => s.assignNull i
  | .weakNull owner => some (s.addHandle ⟨.weak,0,none,owner⟩)
  | .weakCopy j owner => s.constructCopy .weak j none owner
  | .weakCopyConvert j owner => s.constructCopy .weak j none owner
  | .weakFromShared j owner => s.constructCopy .weak j none owner
  | .weakMove j owner => s.constructMove .weak j none owner
  | .weakMoveConvert j owner => s.constructMove .weak j none owner
  | .weakAssign i j => if i = j then some s else s.assignCopy i j
  | .weakAssignMove i j => if i = j then some s else s.assignMove i j
  | .weakAssignShared i j => s.assignCopy i j
  | .weakAssignConvert i j => s.assignConvert i j
  | .weakAssignMoveConvert i j => s.assignMove i j
  | .weakReset i => s.assignNull i
  | .weakLock j owner => s.lock j owner
  | .destroy i => s.destroy i

def has (kind : HandleKind) (i : Nat) : Bool := (s.handle? i).any fun h => h.kind = kind

/-- The object that a new handle is a member of has not been destroyed. -/
def alive (owner : Option Nat) : Bool := owner.all fun b => (s.block? b).any fun block => block.refCount ≠ 0

/-- The call is one that the types and the lifetimes of the handles and objects allow. Handles of
different types are different. -/
def legal : Call → Bool
  | .sharedNull owner => s.alive owner
  | .sharedRaw _ owner => s.alive owner
  | .makeShared _ owner => s.alive owner
  | .sharedCopy j owner => s.has .shared j && s.alive owner
  | .sharedMove j owner => s.has .shared j && s.alive owner
  | .sharedAlias j _ owner => s.has .shared j && s.alive owner
  | .sharedAliasMove j _ owner => s.has .shared j && s.alive owner
  | .sharedAssign i j => s.has .shared i && s.has .shared j
  | .sharedAssignMove i j => s.has .shared i && s.has .shared j
  | .sharedAssignNull i => s.has .shared i
  | .weakNull owner => s.alive owner
  | .weakCopy j owner => s.has .weak j && s.alive owner
  | .weakCopyConvert j owner => s.has .weak j && s.alive owner
  | .weakFromShared j owner => s.has .shared j && s.alive owner
  | .weakMove j owner => s.has .weak j && s.alive owner
  | .weakMoveConvert j owner => s.has .weak j && s.alive owner
  | .weakAssign i j => s.has .weak i && s.has .weak j
  | .weakAssignMove i j => s.has .weak i && s.has .weak j
  | .weakAssignShared i j => s.has .weak i && s.has .shared j
  | .weakAssignConvert i j => s.has .weak i && s.has .weak j && i ≠ j
  | .weakAssignMoveConvert i j => s.has .weak i && s.has .weak j && i ≠ j
  | .weakReset i => s.has .weak i
  | .weakLock j owner => s.has .weak j && s.alive owner
  | .destroy i => (s.handle? i).isSome
end State
end LensorOS.Pointers
