import LensorOS.Framework.Bytes
import LensorOS.Scheduler.Processes

/-!
# Context switches

The timer interrupt saves the registers of the current process and loads those of the next. The FPU
state is saved at the first byte of `CPUExtra`, and restored from the first multiple of 512 in or
behind it.
-/
namespace LensorOS.Scheduler.Context
open Framework List Option State
structure InterruptFrame where
  ip : BitVec 64
  cs : BitVec 64
  flags : BitVec 64
  sp : BitVec 64
  ss : BitVec 64
deriving DecidableEq

structure CPUState where
  rsp : BitVec 64
  rbx : BitVec 64
  rcx : BitVec 64
  rdx : BitVec 64
  rsi : BitVec 64
  rdi : BitVec 64
  rbp : BitVec 64
  r8 : BitVec 64
  r9 : BitVec 64
  r10 : BitVec 64
  r11 : BitVec 64
  r12 : BitVec 64
  r13 : BitVec 64
  r14 : BitVec 64
  r15 : BitVec 64
  fs : BitVec 64
  gs : BitVec 64
  rax : BitVec 64
  frame : InterruptFrame
deriving DecidableEq

def CPUState.cleared : CPUState := ⟨0,0,0,0,0,0,0,0,0,0,0,0,0,0,0,0,0,0,⟨0,0,0,0,0⟩⟩

/-- The image of the FPU and SSE registers; the last 48 bytes of the area are not part of it. -/
def FPUState := Fin 464 → BitVec 8

def fxsave64 (memory : Bytes) (addr : Nat) (fpu : FPUState) : Bytes := fun x =>
  if h : addr ≤ x ∧ x < addr+464 then fpu ⟨x-addr,by omega⟩ else memory x

def fxrstor64 (memory : Bytes) (addr : Nat) : FPUState := fun k => memory (addr+k)

/-- The index into `CPUExtra` that the state is restored from. -/
def restoreIndex (cpuExtra : Nat) : Nat := (512-cpuExtra % 512) % 512

structure Process where
  processID : Nat
  state : ProcessState
  cpu : CPUState
  cpuExtra : Nat
  cpuExtraSet : Bool

structure Saved where
  cpu : CPUState
  fpu : FPUState

structure Resume where
  pid : Nat
  saved : Option Saved
  cpu : CPUState
  fpu : FPUState

structure State where
  fxsrEnabled : Bool
  processQueue : List Process
  currentProcess : Nat
  memory : Bytes
  cpu : CPUState
  fpu : FPUState
  saved : Nat → Option Saved
  resumes : List Resume

def isRunning (p : Process) : Bool := p.state = .running

namespace State
variable (s : State)
def update (pid : Nat) (change : Process → Process) : State := { s with
    processQueue := s.processQueue.map fun p => if p.processID = pid then change p else p }

def process (pid : Nat) : Option Process := s.processQueue.find? fun p => p.processID == pid

def node (pid : Nat) : List Process := s.processQueue.dropWhile fun p => p.processID != pid

def resume : State := { s with
    resumes := s.resumes ++ [⟨s.currentProcess,s.saved s.currentProcess,s.cpu,s.fpu⟩] }

def restore (p : Process) : State := { s with
    currentProcess := p.processID
    cpu := { p.cpu with
      fs := p.cpu.frame.ss
      gs := p.cpu.frame.ss }
    fpu := if s.fxsrEnabled && p.cpuExtraSet then
        fxrstor64 s.memory (p.cpuExtra+restoreIndex p.cpuExtra)
      else s.fpu }

def switchProcessImpl : Option State := let node := s.node s.currentProcess
  if node.tail.isEmpty && node.length = s.processQueue.length then some s.resume
  else (Scheduler.switchProcessImpl isRunning s.processQueue node).bind fun node =>
    node.head?.map fun p => (s.restore p).resume

def save : State := let s := s.update s.currentProcess fun p =>
    { p with
      cpu := s.cpu
      cpuExtraSet := s.fxsrEnabled || p.cpuExtraSet }
  { s with
    memory := match s.process s.currentProcess with
      | some p => if s.fxsrEnabled then fxsave64 s.memory p.cpuExtra s.fpu else s.memory
      | none => s.memory
    saved := fun pid =>
      if pid = s.currentProcess then some ⟨s.cpu,s.fpu⟩ else s.saved pid }

def switchProcess : Option State := s.save.switchProcessImpl

def unblock (pid : Nat) (value : BitVec 64) : State := { s.update pid fun p =>
      { p with
        state := .running
        cpu := { p.cpu with rax := value } } with
    saved := fun x => if x = pid then
        (s.saved x).map fun saved => { saved with cpu := { saved.cpu with rax := value } }
      else s.saved x }

inductive Step
  | execute (cpu : CPUState) (fpu : FPUState)
  | timer
  | wake (pid : Nat) (value : BitVec 64)

def step : Step → Option State
  | .execute cpu fpu => some { s with cpu := cpu, fpu := fpu }
  | .timer => s.switchProcess
  | .wake pid value => some (s.unblock pid value)

structure Started (s : State) : Prop where
  enabled : s.fxsrEnabled = true
  unique : (s.processQueue.map Process.processID).Nodup
  aligned : ∀ p ∈ s.processQueue, p.cpuExtra % 16 = 0
  apart : ∀ p ∈ s.processQueue, ∀ q ∈ s.processQueue, p.processID ≠ q.processID →
    p.cpuExtra+512 ≤ q.cpuExtra ∨ q.cpuExtra+512 ≤ p.cpuExtra
  saved : ∀ pid, s.saved pid = none
  resumes : s.resumes = []
end State

def SameRegisters (c d : CPUState) : Prop := { c with fs := d.fs, gs := d.gs } = d

/-- Each process resumes with what it was switched out with. -/
def Transparent (s : State) : Prop := ∀ r ∈ s.resumes, ∀ saved, r.saved = some saved →
    SameRegisters r.cpu saved.cpu ∧ r.fpu = saved.fpu

section
variable {cpuExtra : Nat}
theorem fxrstor64_fxsave64 (memory : Bytes) (addr : Nat) (fpu : FPUState) :
    fxrstor64 (fxsave64 memory addr fpu) addr = fpu := by
  funext k
  have hk : addr ≤ addr+k ∧ addr+k < addr+464 := by omega
  simp [fxrstor64,fxsave64,hk]

theorem fxrstor64_fxsave64_apart (memory : Bytes) {addr other : Nat} (fpu : FPUState)
    (h : addr+512 ≤ other ∨ other+512 ≤ addr) :
    fxrstor64 (fxsave64 memory addr fpu) other = fxrstor64 memory other := by
  funext k
  have hk : ¬ (addr ≤ other+k ∧ other+k < addr+464) := by omega
  simp [fxrstor64,fxsave64,hk]

theorem restoreIndex_eq_zero : restoreIndex cpuExtra = 0 ↔ cpuExtra % 512 = 0 := by
  unfold restoreIndex
  omega
end

namespace State
/-- The save areas are multiples of 512 and hold what the processes were switched out with. -/
structure Holds (s : State) : Prop where
  enabled : s.fxsrEnabled = true
  unique : (s.processQueue.map Process.processID).Nodup
  aligned : ∀ p ∈ s.processQueue, p.cpuExtra % 512 = 0
  apart : ∀ p ∈ s.processQueue, ∀ q ∈ s.processQueue, p.processID ≠ q.processID →
    p.cpuExtra+512 ≤ q.cpuExtra ∨ q.cpuExtra+512 ≤ p.cpuExtra
  held : ∀ p ∈ s.processQueue, ∀ saved, s.saved p.processID = some saved →
    p.cpu = saved.cpu ∧ p.cpuExtraSet = true ∧ fxrstor64 s.memory p.cpuExtra = saved.fpu
  transparent : Transparent s

section
variable {s s' : State}
section
variable (h : Holds s)
include h
theorem Holds.update (pid : Nat) (change : Process → Process)
    (hid : ∀ p, (change p).processID = p.processID) (ha : ∀ p, (change p).cpuExtra = p.cpuExtra)
    (hqu : s'.processQueue = (s.update pid change).processQueue)
    (hen : s'.fxsrEnabled = s.fxsrEnabled) (hre : s'.resumes = s.resumes)
    (hh : ∀ p ∈ s.processQueue, ∀ saved, s'.saved p.processID = some saved →
      let p' := if p.processID = pid then change p else p
      p'.cpu = saved.cpu ∧ p'.cpuExtraSet = true ∧
        fxrstor64 s'.memory p.cpuExtra = saved.fpu) : Holds s' := by
  have hsa : ∀ p, (if p.processID = pid then change p else p).processID = p.processID ∧
      (if p.processID = pid then change p else p).cpuExtra = p.cpuExtra := by
    intro p
    split
    · exact ⟨hid p,ha p⟩
    · exact ⟨rfl,rfl⟩
  have hf : ∀ p' ∈ s'.processQueue, ∃ p ∈ s.processQueue, p' = if p.processID = pid then change p else p := by
    intro p' hp'
    rw [hqu] at hp'
    obtain ⟨p,hp,he⟩ := mem_map.mp hp'
    exact ⟨p,hp,he.symm⟩
  have hi : s'.processQueue.map Process.processID = s.processQueue.map Process.processID := by
    rw [hqu,State.update,List.map_map]
    apply map_congr_left
    intro p _
    exact (hsa p).1
  refine ⟨hen ▸ h.enabled,hi ▸ h.unique,?_,?_,?_,?_⟩
  · intro p' hp'
    obtain ⟨p,hp,rfl⟩ := hf p' hp'
    rw [(hsa p).2]
    exact h.aligned p hp
  · intro p' hp' q' hq' hn
    obtain ⟨p,hp,rfl⟩ := hf p' hp'
    obtain ⟨q,hq,rfl⟩ := hf q' hq'
    rw [(hsa p).1,(hsa q).1] at hn
    rw [(hsa p).2,(hsa q).2]
    exact h.apart p hp q hq hn
  · intro p' hp' saved hs
    obtain ⟨p,hp,rfl⟩ := hf p' hp'
    rw [(hsa p).1] at hs
    rw [(hsa p).2]
    exact hh p hp saved hs
  · intro r hr
    rw [hre] at hr
    exact h.transparent r hr

theorem save_memory : s.save.memory = s.memory ∧ s.process s.currentProcess = none ∨
    ∃ p ∈ s.processQueue, p.processID = s.currentProcess ∧
      s.save.memory = fxsave64 s.memory p.cpuExtra s.fpu := by
  have hl : (s.update s.currentProcess fun p =>
      { p with
        cpu := s.cpu
        cpuExtraSet := s.fxsrEnabled || p.cpuExtraSet }).process s.currentProcess =
      (s.process s.currentProcess).map fun p =>
        { p with
          cpu := s.cpu
          cpuExtraSet := s.fxsrEnabled || p.cpuExtraSet } := by
    unfold process update
    induction s.processQueue with
    | nil => rfl
    | cons p rest ih =>
      by_cases hp : p.processID = s.currentProcess
      · simp [hp]
      · simp [hp,ih]
  cases hpr : s.process s.currentProcess with
  | none =>
    left
    rw [hpr,map_none] at hl
    refine ⟨?_,rfl⟩
    unfold save
    dsimp only
    rw [show (update s s.currentProcess _).currentProcess = s.currentProcess from rfl,hl]
    rfl
  | some p =>
    right
    rw [hpr,map_some] at hl
    refine ⟨p,mem_of_find?_eq_some hpr,by simpa using find?_some hpr,?_⟩
    unfold save
    dsimp only
    rw [show (update s s.currentProcess _).currentProcess = s.currentProcess from rfl,hl]
    exact if_pos h.enabled

theorem Holds.save : Holds s.save := by
  refine h.update s.currentProcess (fun p => { p with
    cpu := s.cpu
    cpuExtraSet := s.fxsrEnabled || p.cpuExtraSet }) (fun _ => rfl) (fun _ => rfl) rfl rfl rfl ?_
  intro p hp saved hs
  have hs : (if p.processID = s.currentProcess then some ⟨s.cpu,s.fpu⟩
    else s.saved p.processID) = some saved := hs
  by_cases hc : p.processID = s.currentProcess
  · rw [if_pos hc,some.injEq] at hs
    rw [if_pos hc,← hs]
    refine ⟨rfl,by simp [h.enabled],?_⟩
    rcases save_memory h with ⟨-,hn⟩ | ⟨q,hq,hqi,hm⟩
    · have hno := find?_eq_none.mp hn p hp
      simp [hc] at hno
    have hpq := inj_on_of_nodup_map h.unique hp hq (hc.trans hqi.symm)
    rw [hm,hpq]
    exact fxrstor64_fxsave64 s.memory q.cpuExtra s.fpu
  · rw [if_neg hc] at hs
    rw [if_neg hc]
    obtain ⟨hcp,hse,hf⟩ := h.held p hp saved hs
    refine ⟨hcp,hse,?_⟩
    rcases save_memory h with ⟨hm,-⟩ | ⟨q,hq,hqi,hm⟩
    · rw [hm,hf]
    · have hne : q.processID ≠ p.processID := fun he => hc (he.symm.trans hqi)
      rw [hm,fxrstor64_fxsave64_apart s.memory s.fpu (h.apart q hq p hp hne),hf]

theorem Holds.unblock (pid : Nat) (value : BitVec 64) : Holds (s.unblock pid value) := by
  refine h.update pid (fun p => { p with
    state := .running
    cpu := { p.cpu with rax := value } }) (fun _ => rfl) (fun _ => rfl) rfl rfl rfl ?_
  intro p hp saved hs
  have hs : (if p.processID = pid then (s.saved p.processID).map fun saved =>
    { saved with cpu := { saved.cpu with rax := value } } else s.saved p.processID) =
      some saved := hs
  by_cases hpi : p.processID = pid
  · rw [if_pos hpi] at hs
    obtain ⟨before,hb,rfl⟩ := map_eq_some_iff.mp hs
    obtain ⟨hc,hse,hf⟩ := h.held p hp before hb
    rw [if_pos hpi]
    exact ⟨by rw [hc],hse,hf⟩
  · rw [if_neg hpi] at hs
    rw [if_neg hpi]
    exact h.held p hp saved hs

theorem Holds.resume (hl : ∀ saved, s.saved s.currentProcess = some saved →
      SameRegisters s.cpu saved.cpu ∧ s.fpu = saved.fpu) : Holds s.resume := by
  refine ⟨h.enabled,h.unique,h.aligned,h.apart,h.held,?_⟩
  intro r hr
  rcases mem_append.mp hr with hr | hr
  · exact h.transparent r hr
  · rw [mem_singleton.mp hr]
    exact hl

theorem Holds.restore {p : Process} (hp : p ∈ s.processQueue) : Holds (s.restore p).resume := by
  have hr : Holds (s.restore p) := ⟨h.enabled,h.unique,h.aligned,h.apart,h.held,h.transparent⟩
  apply hr.resume
  intro saved hs
  obtain ⟨hc,hse,hf⟩ := h.held p hp saved hs
  constructor
  · change SameRegisters { p.cpu with fs := _, gs := _ } saved.cpu
    rw [hc]
    rfl
  · change (if s.fxsrEnabled && p.cpuExtraSet then _ else _) = _
    simp [h.enabled,hse,restoreIndex_eq_zero.mpr (h.aligned p hp),hf]

theorem Holds.switchProcess (hs : s.switchProcess = some s') : Holds s' := by
  unfold State.switchProcess State.switchProcessImpl at hs
  dsimp only at hs
  split at hs
  · cases hs
    apply h.save.resume
    intro saved hsa
    have hsa : (if s.currentProcess = s.currentProcess then some ⟨s.cpu,s.fpu⟩
      else s.saved s.currentProcess) = some saved := hsa
    rw [if_pos rfl,some.injEq] at hsa
    rw [← hsa]
    exact ⟨rfl,rfl⟩
  · obtain ⟨node,hn,hh⟩ := bind_eq_some_iff.mp hs
    obtain ⟨p,hp,rfl⟩ := map_eq_some_iff.mp hh
    have hsu := switch_suffix isRunning (dropWhile_suffix _) hn
    exact h.save.restore (hsu.subset (mem_of_mem_head? hp))

theorem Holds.step {i : Step} (hs : s.step i = some s') : Holds s' := by
  cases i with
  | execute cpu fpu =>
    cases hs
    exact ⟨h.enabled,h.unique,h.aligned,h.apart,h.held,h.transparent⟩
  | timer => exact h.switchProcess hs
  | wake pid value =>
    cases hs
    exact h.unblock pid value
end

theorem Started.holds (h : Started s) (ha : ∀ p ∈ s.processQueue, p.cpuExtra % 512 = 0) : Holds s := by
  refine ⟨h.enabled,h.unique,ha,h.apart,?_,?_⟩
  · intro p _ saved hs
    rw [h.saved] at hs
    cases hs
  intro r hr
  rw [h.resumes] at hr
  cases hr

/-- With every save area at a multiple of 512, each process resumes with the registers it was
switched out with, over any sequence of switches and wake-ups. -/
theorem switches_transparent
    (h : Reachable (fun s => Started s ∧ ∀ p ∈ s.processQueue, p.cpuExtra % 512 = 0)
      step anyStep s) : Transparent s := by
  have hh : Holds s := h.invariant (fun _ hs => hs.1.holds hs.2)
    (fun _ _ _ hs hst _ => hs.step hst)
  exact hh.transparent
end

def pair (first second : Nat) : State where
  fxsrEnabled := true
  processQueue := [⟨0,.running,registers,first,false⟩,⟨1,.running,registers,second,false⟩]
  currentProcess := 0
  memory := fun _ => 0
  cpu := registers
  fpu := fun _ => 1
  saved := fun _ => none
  resumes := []
where
  registers : CPUState := ⟨0,0,0,0,0,0,0,0,0,0,0,0,0,0,0,0,0,0,⟨0,0,0,0,0⟩⟩

theorem started_pair {first second : Nat} (hf : first % 16 = 0) (hs : second % 16 = 0)
    (ha : first+512 ≤ second) : Started (pair first second) where
  enabled := rfl
  unique := by simp [pair]
  aligned := by simp [pair,hf,hs]
  apart := by simp [pair,ha]
  saved := fun _ => rfl
  resumes := rfl

theorem switches_transparent_pair :
    ∃ s, Reachable (fun s => Started s ∧ ∀ p ∈ s.processQueue, p.cpuExtra % 512 = 0)
      step anyStep s ∧ (s.resumes.any fun r => r.saved.isSome) = true ∧ Transparent s := by
  obtain ⟨s,hs,hsa⟩ : ∃ s,
      Reachable (fun s => Started s ∧ ∀ p ∈ s.processQueue, p.cpuExtra % 512 = 0)
        step anyStep s ∧ (s.resumes.any fun r => r.saved.isSome) = true := by
    refine Reachable.exists_run (s := pair 512 1024) ⟨started_pair rfl rfl (by decide),?_⟩ [.timer,.timer] (by decide)
    simp [pair]
  exact ⟨s,hs,hsa,switches_transparent hs⟩

/-- With a save area at address 16 a process resumes with bytes from behind its area. -/
theorem switches_not_transparent : ∃ s, Reachable Started step anyStep s ∧ ¬ Transparent s := by
  obtain ⟨s,hs,hb⟩ : ∃ s, Reachable Started step anyStep s ∧ (s.resumes.any fun r =>
      r.saved.any fun saved => r.fpu 0 != saved.fpu 0) = true :=
    Reachable.exists_run (s := pair 16 1024) (started_pair rfl rfl (by decide)) [.timer,.timer]
      (by decide)
  refine ⟨s,hs,fun ht => ?_⟩
  obtain ⟨r,hr,ha⟩ := any_eq_true.mp hb
  cases hsa : r.saved with
  | none =>
    rw [hsa] at ha
    cases ha
  | some saved =>
    rw [hsa] at ha
    have hn : r.fpu 0 ≠ saved.fpu 0 := by simpa using ha
    exact hn (congrFun (ht r hr saved hsa).2 0)
end State
end LensorOS.Scheduler.Context
