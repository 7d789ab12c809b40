import LensorOS.Kernel.VirtualFilesystem
import LensorOS.Scheduler.Actions

/-!
# Processes and their files

The scheduler with the virtual filesystem. A system call runs to its end, or until its caller
goes to sleep, before the next one starts.
-/
namespace LensorOS.Kernel
open Framework Scheduler Option
/-- The kernel's state; `booted` is set once the first program was started. -/
structure State where
  scheduler : Scheduler.State
  vfs : VFS
  booted : Bool

namespace State
variable (s : State)
def initial (mounts : List MountPoint) : State := ⟨.initialized,.initial mounts,false⟩

def settle : State where
  scheduler := s.vfs.wakes.foldl (fun scheduler wake =>
    scheduler.unblock wake.cause wake.returnValue wake.pid) s.scheduler
  vfs := { s.vfs with wakes := [] }
  booted := s.booted

def caller : Option Process := s.scheduler.caller.filter fun p => p.processID ≠ 0

def withScheduler (scheduler : Option Scheduler.State) : Option State :=
  scheduler.map fun scheduler => { s with scheduler := scheduler }

def fileCall (p : Process) (request : VFS.Call) : Option State :=
  let (result,vfs) := s.vfs.call p.processID request
  let s := settle { s with
    scheduler := s.scheduler.readCurrent
    vfs := vfs }
  match result with
  | .returned _ => some s
  | .blocked object rax => s.withScheduler (s.scheduler.block p object rax)

/-- Replace the program of a process. `loaded` tells whether the file could be loaded; if not,
the process sleeps for good with the file open. -/
def exec (p : Process) (path : List Char) (loaded : Bool) : Option State :=
  let (procfd,vfs) := s.vfs.open p.processID path
  let s := { s with vfs := vfs }
  match procfd with
  | none => some s
  | some procfd =>
    if loaded then
      let s := settle { s with vfs := s.vfs.close p.processID procfd }
      s.withScheduler s.scheduler.readCurrent.switchProcessImpl
    else s.withScheduler (s.scheduler.block p .replacement p.rax)

def fork (p : Process) (cloned : Bool) : State := let child := s.scheduler.thePid+1
  { s with
    scheduler := s.scheduler.fork p cloned
    vfs := if cloned then (s.vfs.addTable child).copyDescriptors p.processID child else s.vfs }

/-- The process is removed, with wake-ups by its exit and then by the files it closes, before the
next one is chosen. -/
def exit (p : Process) (status : BitVec 32) (next : Option Nat) : Option State :=
  let s := settle { s with
    scheduler := s.scheduler.readCurrent.removeProcess p.processID status
    vfs := s.vfs.destroy p.processID }
  s.withScheduler (s.scheduler.switchFromFreed next)

def create (path : List Char) (loaded : Bool) : State := let (procfd,vfs) := s.vfs.open 0 path
  let s := { s with
    vfs := vfs
    booted := true }
  match procfd with
  | none => s
  | some procfd =>
    let child := s.scheduler.thePid+1
    let vfs := if loaded then s.vfs.openStandard child else s.vfs
    settle { s with
      scheduler := s.scheduler.create loaded
      vfs := vfs.close 0 procfd }

inductive Call
  | create (path : List Char) (loaded : Bool)
  | file (request : VFS.Call)
  | exec (path : List Char) (loaded : Bool)
  | fork (cloned : Bool)
  | exit (status : BitVec 32) (next : Option Nat)
  | waitpid (pid : Nat)
  | timer (rax : BitVec 64)

def step : Call → Option State
  | .create path loaded =>
    if s.scheduler.currentProcess = 0 ∧ s.booted = false then some (s.create path loaded) else none
  | .file request => s.caller.bind fun p => s.fileCall p request
  | .exec path loaded => s.caller.bind fun p => s.exec p path loaded
  | .fork cloned => s.caller.map fun p => s.fork p cloned
  | .exit status next => s.caller.bind fun p => s.exit p status next
  | .waitpid pid => s.caller.bind fun p => s.withScheduler (s.scheduler.waitpid p pid)
  | .timer rax => s.withScheduler (s.scheduler.switchProcess rax)

def Started (s : State) : Prop := ∃ mounts, s = initial mounts

/-- What a step leaves of the files, and whether the first program was started after it. -/
inductive FilesAfter (s : State) : Call → VFS → Bool → Prop
  | opened {path loaded} (hboot : s.booted = false) :
    FilesAfter s (.create path loaded) (s.vfs.open 0 path).2 true
  | created {path loaded} (procfd : Nat) (hboot : s.booted = false) :
    FilesAfter s (.create path loaded)
      { (if loaded then (s.vfs.open 0 path).2.openStandard (s.scheduler.thePid+1)
        else (s.vfs.open 0 path).2).close 0 procfd with wakes := [] } true
  | file {request p} (hp : s.caller = some p) :
    FilesAfter s (.file request) { (s.vfs.call p.processID request).2 with wakes := [] } s.booted
  | stuck {path loaded p} (hp : s.caller = some p) :
    FilesAfter s (.exec path loaded) (s.vfs.open p.processID path).2 s.booted
  | replaced {path loaded p procfd} (hp : s.caller = some p)
      (hopen : (s.vfs.open p.processID path).1 = some procfd) : FilesAfter s (.exec path loaded)
      { (s.vfs.open p.processID path).2.close p.processID procfd with wakes := [] } s.booted
  | forked {p} (hp : s.caller = some p) :
    FilesAfter s (.fork true) ((s.vfs.addTable (s.scheduler.thePid+1)).copyDescriptors
      p.processID (s.scheduler.thePid+1)) s.booted
  | exited {status next p} (hp : s.caller = some p) :
    FilesAfter s (.exit status next) { s.vfs.destroy p.processID with wakes := [] } s.booted
  | kept {call} (hcall : ∀ request, call ≠ .file request) : FilesAfter s call s.vfs s.booted

variable {s} in
theorem step_files {s' : State} {call : Call} (hs : s.step call = some s') : FilesAfter s call s'.vfs s'.booted := by
  cases call with
  | create path loaded =>
    obtain ⟨⟨-,hb⟩,hs⟩ := ite_none_right_eq_some.mp hs
    cases hs
    unfold create
    dsimp only
    split
    · exact .opened hb
    · next procfd _ => exact .created procfd hb
  | file request =>
    obtain ⟨p,hp,hs⟩ := bind_eq_some_iff.mp hs
    unfold fileCall at hs
    dsimp only at hs
    split at hs
    · cases hs
      exact .file hp
    · obtain ⟨scheduler,-,rfl⟩ := map_eq_some_iff.mp hs
      exact .file hp
  | exec path loaded =>
    obtain ⟨p,hp,hs⟩ := bind_eq_some_iff.mp hs
    unfold exec at hs
    dsimp only at hs
    split at hs
    · cases hs
      exact .stuck hp
    next procfd hpr =>
    split at hs
    · obtain ⟨scheduler,-,rfl⟩ := map_eq_some_iff.mp hs
      exact .replaced hp hpr
    · obtain ⟨scheduler,-,rfl⟩ := map_eq_some_iff.mp hs
      exact .stuck hp
  | fork cloned =>
    obtain ⟨p,hp,rfl⟩ := map_eq_some_iff.mp hs
    cases cloned with
    | false => exact .kept nofun
    | true => exact .forked hp
  | exit status next =>
    obtain ⟨p,hp,hs⟩ := bind_eq_some_iff.mp hs
    obtain ⟨scheduler,-,rfl⟩ := map_eq_some_iff.mp hs
    exact .exited hp
  | waitpid pid =>
    obtain ⟨p,-,hs⟩ := bind_eq_some_iff.mp hs
    obtain ⟨scheduler,-,rfl⟩ := map_eq_some_iff.mp hs
    exact .kept nofun
  | timer rax =>
    obtain ⟨scheduler,-,rfl⟩ := map_eq_some_iff.mp hs
    exact .kept nofun
end State

section
open Scheduler.State
variable {a b : Scheduler.State}
structure SameIds (a b : Scheduler.State) : Prop where
  ids : b.ids = a.ids
  thePid : b.thePid = a.thePid

theorem SameIds.trans {c : Scheduler.State} (h : SameIds a b) (h' : SameIds b c) : SameIds a c :=
  ⟨h'.ids.trans h.ids,h'.thePid.trans h.thePid⟩

theorem SameIds.wellformed (h : SameIds a b) (ha : a.Wellformed) : b.Wellformed := ha.of_same h.ids h.thePid

theorem sameIds_current (a : Scheduler.State) : SameIds a a.readCurrent := ⟨rfl,rfl⟩

theorem sameIds_update (a : Scheduler.State) (pid : Nat) (change : Process → Process)
    (hc : ∀ p, (change p).processID = p.processID) : SameIds a (a.update pid change) :=
  ⟨a.ids_update change hc pid,rfl⟩

theorem sameIds_resume (a : Scheduler.State) (p : Process) : SameIds a (a.resume p) :=
  ⟨(a.resume_fields p).1,(a.resume_fields p).2.1⟩

section
variable (huniq : a.ids.Nodup) {rax : BitVec 64} {p : Process}
include huniq
theorem sameIds_switch (h : a.switchProcessImpl = some b) : SameIds a b := by
  obtain ⟨p,-,rfl,-⟩ := switch_spec huniq h
  exact (sameIds_current a).trans (sameIds_resume _ p)

theorem sameIds_fromFreed {next : Option Nat} (h : a.switchFromFreed next = some b) : SameIds a b := by
  obtain ⟨p,-,rfl,-⟩ := fromFreed_spec huniq h
  exact (sameIds_current a).trans (sameIds_resume _ p)

theorem sameIds_change (pid : Nat) (change : Process → Process)
    (hc : ∀ p, (change p).processID = p.processID)
    (h : (a.readCurrent.update pid change).switchProcessImpl = some b) : SameIds a b := by
  have hu := sameIds_update a.readCurrent pid change hc
  have hi := hu.ids ▸ huniq
  exact ((sameIds_current a).trans hu).trans (sameIds_switch hi h)

theorem sameIds_block {object : WaitObject} (h : a.block p object rax = some b) : SameIds a b :=
  sameIds_change huniq p.processID (fun p =>
    { p with
      rax := rax
      state := .sleeping
      asleepOn := some object }) (fun _ => rfl) h

theorem sameIds_switchProcess (h : a.switchProcess rax = some b) : SameIds a b :=
  sameIds_change huniq a.currentProcess (fun p => { p with rax := rax }) (fun _ => rfl) h

theorem sameIds_waitpid {pid : Nat} (h : a.waitpid p pid = some b) : SameIds a b := by
  unfold waitpid at h
  dsimp only at h
  split at h
  · cases h
    exact ((sameIds_current a).trans (sameIds_update _ _ (reaped pid) fun _ => rfl)).trans
      ⟨rfl,rfl⟩
  split at h
  · cases h
    exact ⟨rfl,rfl⟩
  have ha : SameIds a (a.readCurrent.asleepIn p.processID pid) := ⟨ids_asleepIn a.readCurrent p.processID pid,rfl⟩
  have hi := ha.ids ▸ huniq
  exact ha.trans (sameIds_switch hi h)
end

theorem sameIds_wakes (a : Scheduler.State) (wakes : List WakeUp) :
    SameIds a (wakes.foldl (fun scheduler wake =>
      scheduler.unblock wake.cause wake.returnValue wake.pid) a) := by
  induction wakes generalizing a with
  | nil => exact ⟨rfl,rfl⟩
  | cons wake wakes ih =>
    obtain ⟨hi,-,hp,-⟩ := a.unblock_fields wake.cause wake.returnValue wake.pid
    exact SameIds.trans ⟨hi,hp⟩ (ih _)

theorem sameIds_settle (s : State) : SameIds s.scheduler s.settle.scheduler := sameIds_wakes s.scheduler s.vfs.wakes

theorem ids_added (hw : a.Wellformed) (parent : Nat) :
    (a.addProcess parent).ids = a.ids ++ [a.thePid+1] ∧
      ((a.addProcess parent).removeProcess (a.thePid+1) (-1)).ids = a.ids ∧
      ((a.addProcess parent).removeProcess (a.thePid+1) (-1)).thePid = a.thePid+1 := by
  have hi : (a.addProcess parent).ids = a.ids ++ [a.thePid+1] := by simp [ids,addProcess]
  obtain ⟨hr,-,hp,-⟩ := (a.addProcess parent).remove_fields (process_added hw parent) (-1)
  refine ⟨hi,?_,hp⟩
  rw [hr,hi,List.erase_append_right _ hw.fresh,List.erase_cons_head,List.append_nil]
end
end LensorOS.Kernel
