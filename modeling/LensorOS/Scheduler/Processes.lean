import Mathlib.Algebra.Group.Nat.Defs
import LensorOS.Framework.Run
import LensorOS.Scheduler.RoundRobin

/-!
# Processes and the scheduler

The process queue with the calls that create, fork, end and wait for processes, and the switches
between them. Nothing reads the logs of reads of the current process, of wake-ups and of events.
-/
namespace LensorOS.Scheduler
open List Option
inductive ProcessState
  | running
  | sleeping
deriving DecidableEq

inductive WaitObject
  | exitOf (pid : Nat)
  | pipeToRead (buffer : Nat)
  | pipeToWrite (buffer : Nat)
  | fifoToRead (buffer : Nat)
  | fifoToWrite (buffer : Nat)
  | input (buffer : Nat)
  | connection (socket : Nat)
  | replacement
deriving DecidableEq

structure ZombieState where
  pid : Nat
  returnStatus : BitVec 32
deriving DecidableEq

/-- A process, as far as scheduling goes. `asleepOn` and `waitpidOn` record why it sleeps and
which `waitpid` call it has not returned from. -/
structure Process where
  processID : Nat
  state : ProcessState
  parentProcess : Nat
  waitingList : List Nat
  zombies : List ZombieState
  rax : BitVec 64
  asleepOn : Option WaitObject
  waitpidOn : Option Nat

structure Read where
  inQueue : Bool
  deleted : Bool

structure Wake where
  pid : Nat
  cause : WaitObject
  state : ProcessState
  asleepOn : Option WaitObject

inductive Event
  | forked (parent child : Nat)
  | exited (pid : Nat) (status : BitVec 32)
  | returned (caller pid : Nat) (value : BitVec 32)
deriving DecidableEq

/-- The process chosen after an exit, and the one that was next in the queue's order. -/
structure Choice where
  chosen : Nat
  successor : Option Nat

structure State where
  processQueue : List Process
  currentProcess : Nat
  thePid : Nat
  deleted : List Nat
  reads : List Read
  wakes : List Wake
  choices : List Choice
  history : List Event

def isRunning (p : Process) : Bool := p.state = .running

def Process.unblock (p : Process) (returnValue : BitVec 64) : Process := { p with
    rax := returnValue
    state := .running
    asleepOn := none }

namespace State
def process (s : State) (pid : Nat) : Option Process := s.processQueue.find? fun p => p.processID == pid

variable (s : State)
def node (pid : Nat) : List Process := s.processQueue.dropWhile fun p => p.processID != pid

def update (pid : Nat) (change : Process → Process) : State := { s with
    processQueue := s.processQueue.map fun p => if p.processID = pid then change p else p }

def readCurrent : State := { s with
    reads := s.reads ++
      [⟨(s.process s.currentProcess).isSome,decide (s.currentProcess ∈ s.deleted)⟩] }

def record (event : Event) : State := { s with history := s.history ++ [event] }

def unblock (cause : WaitObject) (returnValue : BitVec 64) (pid : Nat) : State :=
  match s.process pid with
  | none => s
  | some p =>
    { s.update pid fun p => p.unblock returnValue with
      wakes := s.wakes ++ [⟨pid,cause,p.state,p.asleepOn⟩] }

def unblockAll (cause : WaitObject) (returnValue : BitVec 64) (pids : List Nat) :
    State := pids.foldl (fun s pid => s.unblock cause returnValue pid) s

def addProcess (parent : Nat) : State := { s with
    thePid := s.thePid+1
    processQueue := s.processQueue ++ [⟨s.thePid+1,.sleeping,parent,[],[],0,none,none⟩] }

/-- Take a process out of the queue and delete it. Its status goes to its parent as a zombie
record, and to the processes on its waiting list as the result of their call. -/
def removeProcess (pid : Nat) (status : BitVec 32) : State := match s.process pid with
  | none => s
  | some process =>
    let s := { s with processQueue := s.processQueue.eraseP fun p => p.processID == pid }
    let s := s.update process.parentProcess fun p =>
      { p with zombies := p.zombies ++ [⟨pid,status⟩] }
    let s := s.unblockAll (.exitOf pid) (status.signExtend 64) process.waitingList
    { s.record (.exited pid status) with deleted := pid :: s.deleted }

/-- Make a process current. A process that slept in `waitpid` returns from it with the value
in its saved register. -/
def resume (p : Process) : State :=
  let s := { s with currentProcess := p.processID }.readCurrent
  match p.waitpidOn with
  | none => s
  | some pid =>
    (s.update p.processID fun p => { p with waitpidOn := none }).record
      (.returned p.processID pid (p.rax.truncate 32))

def switchProcessImpl : Option State := let s := s.readCurrent
  (Scheduler.switchProcessImpl isRunning s.processQueue (s.node s.currentProcess)).bind fun node =>
    node.head?.map s.resume

/-- The switch after the current process was removed. Its node is freed, and `next` stands for
what the freed memory holds in the place of the pointer to the following node. -/
def switchFromFreed (next : Option Nat) : Option State := let s := s.readCurrent
  let start := match next with
    | some pid => s.node pid
    | none => s.processQueue
  (nextViableProcess isRunning s.processQueue start .yes).bind fun node =>
    node.head?.map s.resume

def followers (pid : Nat) : List Nat :=
  ((s.node pid).tail ++ s.processQueue.takeWhile fun p => p.processID != pid).map
    Process.processID

def firstRunning (pids : List Nat) : Option Nat := pids.find? fun pid => (s.process pid).any isRunning

def caller : Option Process := (s.process s.currentProcess).filter isRunning

def create (loaded : Bool) : State := let s := s.readCurrent.addProcess (2^64-1)
  if loaded then s.update s.thePid fun p => { p with state := .running }
  else s.removeProcess s.thePid (-1)

def fork (p : Process) (cloned : Bool) : State :=
  let s := s.readCurrent.addProcess p.processID
  if cloned then
    (s.update s.thePid fun p => { p with state := .running }).record (.forked p.processID s.thePid)
  else s.removeProcess s.thePid (-1)

def exit (p : Process) (status : BitVec 32) (next : Option Nat) : Option State :=
  let followers := s.followers p.processID
  let s := s.readCurrent.removeProcess p.processID status
  let successor := s.firstRunning followers
  (s.switchFromFreed next).map fun s =>
    { s with choices := s.choices ++ [⟨s.currentProcess,successor⟩] }

abbrev reaped (pid : Nat) (p : Process) : Process :=
  { p with zombies := p.zombies.eraseP fun zombie => zombie.pid == pid }

def waitpid (p : Process) (pid : Nat) : Option State := let s := s.readCurrent
  match p.zombies.find? fun zombie => zombie.pid == pid with
  | some zombie =>
    some ((s.update p.processID fun p =>
        { p with zombies := p.zombies.eraseP fun zombie => zombie.pid == pid }).record
      (.returned p.processID pid zombie.returnStatus))
  | none =>
    match s.process pid with
    | none => some (s.record (.returned p.processID pid (-1)))
    | some _ =>
      let s := s.update pid fun q => { q with waitingList := q.waitingList ++ [p.processID] }
      let s := s.update p.processID fun p =>
        { p with
          rax := 9
          state := .sleeping
          asleepOn := some (.exitOf pid)
          waitpidOn := some pid }
      s.switchProcessImpl

/-- The timer interrupt; `rax` is the register of the interrupted process. -/
def switchProcess (rax : BitVec 64) : Option State :=
  (s.readCurrent.update s.currentProcess fun p => { p with rax := rax }).switchProcessImpl

def block (s : State) (p : Process) (object : WaitObject) (rax : BitVec 64) : Option State :=
  (s.readCurrent.update p.processID fun p =>
    { p with
      rax := rax
      state := .sleeping
      asleepOn := some object }).switchProcessImpl

inductive Call
  | create (loaded : Bool)
  | fork (cloned : Bool)
  | exit (status : BitVec 32) (next : Option Nat)
  | waitpid (pid : Nat)
  | timer (rax : BitVec 64)
  | block (object : WaitObject) (rax : BitVec 64)
  | wake (cause : WaitObject) (returnValue : BitVec 64) (pid : Nat)

/-- Processes are created by the startup process, and the other calls are made by user
processes. -/
def step : Call → Option State
  | .create loaded => if s.currentProcess = 0 then some (s.create loaded) else none
  | .fork cloned => s.caller.bind fun p => if p.processID = 0 then none else some (s.fork p cloned)
  | .exit status next => s.caller.bind fun p =>
      if p.processID = 0 then none else s.exit p status next
  | .waitpid pid => s.caller.bind fun p => if p.processID = 0 then none else s.waitpid p pid
  | .timer rax => s.switchProcess rax
  | .block object rax => s.caller.bind fun p =>
      if p.processID = 0 then none else s.block p object rax
  | .wake cause returnValue pid => some (s.readCurrent.unblock cause returnValue pid)

def initialized : State where
  processQueue := [⟨0,.running,2^64-1,[],[],0,none,none⟩]
  currentProcess := 0
  thePid := 0
  deleted := []
  reads := []
  wakes := []
  choices := []
  history := []

def ids : List Nat := s.processQueue.map Process.processID

variable {process : Process}
section
variable (s : State) {pid : Nat}
@[simp] theorem ids_record (event : Event) : (s.record event).ids = s.ids := rfl

theorem ids_update (change : Process → Process)
    (hc : ∀ p, (change p).processID = p.processID) (pid : Nat) :
    (s.update pid change).ids = s.ids := by
  unfold ids update
  rw [List.map_map]
  refine map_congr_left fun p _ => ?_
  rw [Function.comp_apply]
  split
  · exact hc p
  · rfl

theorem mem_ids : pid ∈ s.ids ↔ ∃ p ∈ s.processQueue, p.processID = pid := by rw [ids,List.mem_map]

theorem process_isSome : (s.process pid).isSome ↔ pid ∈ s.ids := by
  rw [process,find?_isSome,mem_ids]
  simp [beq_iff_eq]

theorem mem_of_process {p : Process} (h : s.process pid = some p) :
    p ∈ s.processQueue ∧ p.processID = pid := ⟨mem_of_find?_eq_some h,by simpa using find?_some h⟩

theorem process_eq_none : s.process pid = none ↔ pid ∉ s.ids := by
  rw [← process_isSome,not_isSome_iff_eq_none]

structure SameFields (s' : State) : Prop where
  ids : s'.ids = s.ids
  currentProcess : s'.currentProcess = s.currentProcess
  thePid : s'.thePid = s.thePid
  deleted : s'.deleted = s.deleted
  reads : s'.reads = s.reads
  choices : s'.choices = s.choices
  history : s'.history = s.history

theorem unblock_fields (cause : WaitObject) (value : BitVec 64) (pid : Nat) :
    s.SameFields (s.unblock cause value pid) := by
  unfold unblock
  split
  · exact ⟨rfl,rfl,rfl,rfl,rfl,rfl,rfl⟩
  · refine ⟨?_,rfl,rfl,rfl,rfl,rfl,rfl⟩
    exact s.ids_update (fun p => p.unblock value) (fun _ => rfl) pid

theorem unblockAll_fields (cause : WaitObject) (value : BitVec 64) (pids : List Nat) :
    s.SameFields (s.unblockAll cause value pids) := by
  induction pids generalizing s with
  | nil => exact ⟨rfl,rfl,rfl,rfl,rfl,rfl,rfl⟩
  | cons pid rest ih =>
    obtain ⟨h1,h2,h3,h4,h5,h6,h7⟩ := s.unblock_fields cause value pid
    obtain ⟨k1,k2,k3,k4,k5,k6,k7⟩ := ih (s.unblock cause value pid)
    exact ⟨k1.trans h1,k2.trans h2,k3.trans h3,k4.trans h4,k5.trans h5,k6.trans h6,k7.trans h7⟩

theorem remove_fields (h : s.process pid = some process)
    (status : BitVec 32) : (s.removeProcess pid status).ids = s.ids.erase pid ∧
      (s.removeProcess pid status).currentProcess = s.currentProcess ∧
      (s.removeProcess pid status).thePid = s.thePid ∧
      (s.removeProcess pid status).deleted = pid :: s.deleted ∧
      (s.removeProcess pid status).reads = s.reads ∧
      (s.removeProcess pid status).choices = s.choices ∧
      (s.removeProcess pid status).history = s.history ++ [.exited pid status] := by
  unfold removeProcess
  rw [h]
  dsimp only
  generalize hs1 : ({ s with processQueue := s.processQueue.eraseP fun p => p.processID == pid }
    : State).update process.parentProcess (fun p =>
      { p with zombies := p.zombies ++ [⟨pid,status⟩] }) = s1
  have hi : s1.ids = s.ids.erase pid := by
    rw [← hs1,ids_update _ (fun p => { p with zombies := p.zombies ++ [⟨pid,status⟩] })
      (fun _ => rfl),ids,ids,erase_eq_eraseP',eraseP_map]
    rfl
  obtain ⟨k1,k2,k3,k4,k5,k6,k7⟩ := s1.unblockAll_fields (.exitOf pid) (status.signExtend 64) process.waitingList
  refine ⟨k1.trans hi,k2.trans ?_,k3.trans ?_,congrArg _ (k4.trans ?_),k5.trans ?_,k6.trans ?_,
    congrArg (· ++ [Event.exited pid status]) (k7.trans ?_)⟩
  all_goals rw [← hs1]; rfl
end

section
variable {s : State} {pid x : Nat}
theorem process_update (s : State) (pid : Nat) (change : Process → Process)
    (hc : ∀ p, (change p).processID = p.processID) (x : Nat) :
    (s.update pid change).process x =
      if x = pid then (s.process x).map change else s.process x := by
  have hs : ∀ p, (if p.processID = pid then change p else p).processID = p.processID := by
    intro p
    split
    · exact hc p
    · rfl
  unfold process update
  rw [find?_map]
  simp only [Function.comp_def,hs]
  cases hf : s.processQueue.find? fun p => p.processID == x with
  | none => simp
  | some p =>
    have hi : p.processID = x := by simpa using find?_some hf
    rw [map_some,map_some,hi]
    split <;> rfl

theorem process_unblock (s : State) (cause : WaitObject) (value : BitVec 64) (pid x : Nat) :
    (s.unblock cause value pid).process x =
      if x = pid then (s.process x).map (·.unblock value) else s.process x := by
  unfold unblock
  split
  · next hn =>
    split
    · next he => rw [he,hn,map_none]
    · rfl
  · exact process_update s pid (·.unblock value) (fun _ => rfl) x

theorem process_unblockAll (s : State) (cause : WaitObject) (value : BitVec 64) (pids : List Nat)
    (x : Nat) : (s.unblockAll cause value pids).process x =
      if x ∈ pids then (s.process x).map (·.unblock value) else s.process x := by
  induction pids generalizing s with
  | nil => simp [unblockAll]
  | cons pid rest ih =>
    have hc : s.unblockAll cause value (pid :: rest) = (s.unblock cause value pid).unblockAll cause value rest := rfl
    rw [hc,ih,process_unblock]
    by_cases hx : x = pid
    · by_cases hr : x ∈ rest
      · rw [if_pos hr,if_pos hx,if_pos (List.mem_cons_of_mem _ hr),Option.map_map]
        rfl
      · rw [if_neg hr,if_pos hx,if_pos (hx ▸ mem_cons_self)]
    · simp [hx]

theorem ids_add (s : State) (parent : Nat) :
    (s.addProcess parent).ids = s.ids ++ [s.thePid+1] := by simp [ids,addProcess]

theorem add_known (parent : Nat) (hu : s.ids.Nodup)
    (hk : ∀ pid ∈ s.ids, pid ≤ s.thePid) : (s.addProcess parent).ids.Nodup ∧
      ∀ pid ∈ (s.addProcess parent).ids, pid ≤ s.thePid+1 := by
  rw [ids_add]
  constructor
  · refine nodup_append.mpr ⟨hu,nodup_singleton _,?_⟩
    intro pid hp pid' hp' he
    have hl := hk pid hp
    rw [he,mem_singleton.mp hp'] at hl
    exact absurd hl (by omega)
  · intro pid hp
    rcases mem_append.mp hp with hp | hp
    · exact (hk pid hp).trans (by omega)
    · exact (mem_singleton.mp hp).le

theorem process_add (parent : Nat) (hn : s.thePid+1 ∉ s.ids) :
    (s.addProcess parent).process x =
      if x = s.thePid+1 then some ⟨s.thePid+1,.sleeping,parent,[],[],0,none,none⟩
      else s.process x := by
  have ha : (s.addProcess parent).process x = (s.process x).or
      (if x = s.thePid+1 then some ⟨s.thePid+1,.sleeping,parent,[],[],0,none,none⟩
        else none) := by
    unfold process addProcess
    rw [find?_append,find?_singleton]
    by_cases hx : x = s.thePid+1
    · simp [hx]
    · simp [hx,Ne.symm hx]
  rw [ha]
  by_cases hx : x = s.thePid+1
  · rw [if_pos hx,if_pos hx,hx,(s.process_eq_none).mpr hn,none_or]
  · rw [if_neg hx,if_neg hx,or_none]

theorem process_erase (hu : s.ids.Nodup) (pid x : Nat) : ({ s with
      processQueue := s.processQueue.eraseP fun p => p.processID == pid } : State).process x =
        if x = pid then none else s.process x := by
  unfold ids at hu
  unfold State.process
  generalize s.processQueue = queue at hu
  induction queue with
  | nil => simp
  | cons p rest ih =>
    rw [map_cons,nodup_cons] at hu
    by_cases hp : p.processID = pid
    · rw [eraseP_cons_of_pos (by simpa using hp),find?_cons]
      by_cases hx : x = pid
      · rw [if_pos hx,find?_eq_none]
        intro q hq hqx
        refine hu.1 (mem_map.mpr ⟨q,hq,?_⟩)
        rw [hp,← hx]
        simpa using hqx
      · have hn : (p.processID == x) = false := by simpa using fun he => hx (he.symm.trans hp)
        rw [if_neg hx,hn]
    · rw [eraseP_cons_of_neg (by simpa using hp),find?_cons,find?_cons,ih hu.2]
      by_cases hx : x = pid
      · have hn : (p.processID == x) = false := by simpa [hx] using hp
        rw [if_pos hx,if_pos hx,hn]
      · rw [if_neg hx,if_neg hx]

theorem process_remove (hu : s.ids.Nodup)
    (h : s.process pid = some process) (status : BitVec 32) (x : Nat) :
    (s.removeProcess pid status).process x = if x = pid then none else
        ((s.process x).map fun p => if x = process.parentProcess then
            { p with zombies := p.zombies ++ [⟨pid,status⟩] } else p).map fun p =>
          if x ∈ process.waitingList then p.unblock (status.signExtend 64) else p := by
  unfold removeProcess
  rw [h]
  change ((State.update _ _ _).unblockAll _ _ _).process x = _
  rw [process_unblockAll,
    process_update _ _ (fun p => { p with zombies := p.zombies ++ [⟨pid,status⟩] }) fun _ => rfl,
    process_erase hu]
  by_cases hx : x = pid
  · simp [hx]
  rw [if_neg hx,if_neg hx]
  by_cases hw : x ∈ process.waitingList
  · by_cases hp : x = process.parentProcess
    · simp [hw,if_pos hp]
    · simp [hw,if_neg hp]
  by_cases hp : x = process.parentProcess
  · simp only [hw,if_false,if_pos hp,Option.map_id']
  · simp [hw,if_neg hp]
end

section
variable {s s' : State}
theorem process_resume (s : State) (p : Process) (hp : s.process p.processID = some p) (x : Nat) :
    (s.resume p).process x =
      if x = p.processID then some { p with waitpidOn := none } else s.process x := by
  unfold resume
  split
  · next hn =>
    change s.process x = _
    split
    · next hx =>
      rw [hx,hp]
      cases p
      cases hn
      rfl
    · rfl
  · change (State.update _ _ _).process x = _
    rw [process_update _ _ (fun p => { p with waitpidOn := none }) fun _ => rfl]
    split
    · next hx =>
      change Option.map _ (s.process x) = _
      rw [hx,hp,map_some]
    · rfl

theorem resume_currentProcess (s : State) (p : Process) : (s.resume p).currentProcess = p.processID := by
  unfold resume
  split <;> rfl

theorem resume_fields (s : State) (p : Process) :
    (s.resume p).ids = s.ids ∧ (s.resume p).thePid = s.thePid ∧
      (s.resume p).deleted = s.deleted ∧ (s.resume p).wakes = s.wakes ∧
      (s.resume p).history = s.history ++
        (p.waitpidOn.map fun pid => Event.returned p.processID pid (p.rax.truncate 32)).toList := by
  unfold resume
  split
  · next hn =>
    refine ⟨rfl,rfl,rfl,rfl,?_⟩
    rw [hn]
    simp [readCurrent]
  · next pid hs =>
    refine ⟨?_,rfl,rfl,rfl,?_⟩
    · exact ids_update _ (fun p => { p with waitpidOn := none }) (fun _ => rfl) _
    · rw [hs]
      rfl

theorem process_of_mem (hu : s.ids.Nodup) {p : Process} (hp : p ∈ s.processQueue) :
    s.process p.processID = some p := by
  unfold ids at hu
  unfold process
  generalize s.processQueue = queue at hp hu
  induction queue with
  | nil => cases hp
  | cons q rest ih =>
    rw [map_cons,nodup_cons] at hu
    rw [find?_cons]
    rcases mem_cons.mp hp with rfl | hp
    · simp
    have hn : (q.processID == p.processID) = false := by
      refine beq_eq_false_iff_ne.mpr fun he => hu.1 ?_
      rw [he]
      exact mem_map_of_mem hp
    rw [hn]
    exact ih hp hu.2

theorem switch_spec (hu : s.ids.Nodup) (h : s.switchProcessImpl = some s') :
    ∃ p, s.process p.processID = some p ∧ s' = s.readCurrent.resume p ∧
      (p.state = .running ∨ s.process s.currentProcess = some p ∧ s.processQueue.length ≤ 1) := by
  obtain ⟨node,hn,hr⟩ := bind_eq_some_iff.mp h
  obtain ⟨p,hp,rfl⟩ := map_eq_some_iff.mp hr
  have hs := switch_suffix isRunning (dropWhile_suffix _) hn
  have hm := hs.subset (mem_of_mem_head? hp)
  refine ⟨p,process_of_mem hu hm,rfl,?_⟩
  rcases switch_viable isRunning hn with ⟨q,rest,rfl,hq⟩ | ⟨rfl,ho⟩
  · obtain rfl : q = p := by simpa using hp
    exact .inl (by simpa [isRunning] using hq)
  refine .inr ⟨?_,ho⟩
  have hh := head?_dropWhile_not (fun q : Process => q.processID != s.currentProcess)
    s.processQueue
  change (s.processQueue.dropWhile fun q => q.processID != s.currentProcess).head? = some p at hp
  rw [hp] at hh
  have hi : p.processID = s.currentProcess := by simpa using hh
  rw [← hi]
  exact process_of_mem hu hm

theorem fromFreed_spec (hu : s.ids.Nodup) {next : Option Nat}
    (h : s.switchFromFreed next = some s') :
    ∃ p, s.process p.processID = some p ∧ s' = s.readCurrent.resume p ∧ p.state = .running := by
  obtain ⟨node,hn,hr⟩ := bind_eq_some_iff.mp h
  obtain ⟨p,hp,rfl⟩ := map_eq_some_iff.mp hr
  have hst : (match next with
      | some pid => s.readCurrent.node pid
      | none => s.readCurrent.processQueue) <:+ s.processQueue := by
    cases next with
    | none => exact suffix_rfl
    | some pid => exact dropWhile_suffix _
  have hs := nextViable_suffix isRunning hst hn
  refine ⟨p,process_of_mem hu (hs.subset (mem_of_mem_head? hp)),rfl,?_⟩
  obtain ⟨q,rest,rfl,hq⟩ := nextViable_viable isRunning hn
  obtain rfl : q = p := by simpa using hp
  simpa [isRunning] using hq
end
end State
end LensorOS.Scheduler
