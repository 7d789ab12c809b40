import LensorOS.Kernel.OpenFiles
import LensorOS.Memory.ProgramFiles
import LensorOS.Scheduler.Context
import LensorOS.Scheduler.Sleepers

/-!
# Replacing the program of a process

The call opens the executable with a descriptor of the caller, reads its header, and only then drops
the old program.
-/
namespace LensorOS.Kernel
open Framework Scheduler Memory Option State
structure Computer where
  kernel : State
  machine : Machine
  cpu : Nat → Context.CPUState

/-- What a process asks for, with what the file system delivers for the file. `stack` holds the
bytes on the kernel stack where the header is read to, and the program headers are read to `data`
in the kernel heap. -/
structure ExecRequest where
  path : Option (List Char)
  args : List (List (BitVec 8))
  file : ExecutableFile
  stack : Bytes
  heap : Bytes
  data : Nat

def read16 (m : Bytes) (a : Nat) : BitVec 16 := m (a+1) ++ m a
def elf64EhdrSize : BitVec 64 := 64

def elf64Ehdr (m : Bytes) : Elf64Ehdr where
  ident := fun i => m i
  type := read16 m 16
  machine := read16 m 18
  version := read32 m 20
  phoff := m.read64 32
  phentsize := read16 m 54
  phnum := read16 m 56

namespace ExecRequest
variable (r : ExecRequest)
def blankHeader : Bytes := fun i => if i < 16 then r.stack i else 0

/-- Only the answer 0 counts as a failed read. -/
def readHeader : Option Bytes :=
  match r.file.read elf64EhdrSize 0 with
  | none => some r.blankHeader
  | some [] => none
  | some bytes => some (r.blankHeader.store 0 bytes)

def acceptedHeader : Option Bytes :=
  r.readHeader.filter fun header => (elf64Ehdr header).verifyElf64Header

/-- The first argument of the new program is its path. -/
def program (path : List Char) (header : Bytes) : Program :=
  let e := elf64Ehdr header
  { headers := programHeaders (readProgramHeaders r.heap r.data e r.file) r.data e r.file
    args := path.map (fun ch => BitVec.ofNat 8 ch.toNat) :: r.args }
end ExecRequest

def newStackTop (s : Machine) (process : Memory.Process) (program : Program) : Nat :=
  let s := (Machine.loadSegments process program.headers s).2
  let request := s.requestRegion Machine.userProcessStackSizePages
  let stack : ArgumentStack := ⟨request.2.frames.memory,
    request.1+Machine.userProcessStackSizePages * pageSize⟩
  (stack.pushProgram program.args []).top

def newRegisters (cpu : Context.CPUState) (top : Nat) (entry : BitVec 64) : Context.CPUState :=
  { cpu with
    rbp := BitVec.ofNat 64 top
    rsp := BitVec.ofNat 64 top
    frame :=
      { ip := entry
        cs := 0x1b
        flags := 0x282
        sp := BitVec.ofNat 64 top
        ss := 0x23 } }

namespace Computer
/-- The memory of the old program is released once the header was accepted. -/
def replaceUserspaceElf64Process (c : Computer) (process : Memory.Process) (r : ExecRequest)
    (path : List Char) : Bool × Computer :=
  match r.acceptedHeader with
  | none => (false,c)
  | some header =>
    let program := r.program path header
    let machine := Machine.dropRegions process.cr3 process.memories c.machine
    let machine := machine.update process.processID fun p => { p with memories := [] }
    let top := newStackTop machine process program
    let (loaded,machine) := machine.loadUserspaceElf64Process process program
    (loaded, { c with
      machine := machine
      cpu := if loaded then Function.update c.cpu process.processID
          (newRegisters (c.cpu process.processID) top (header.read64 24))
        else c.cpu })

/-- System call 11 of a process; `none` when there is no process to go on with. -/
def sys11Exec (c : Computer) (p : Scheduler.Process) (r : ExecRequest) : Option Computer :=
  match r.path with
  | none => some c
  | some path =>
    match (c.kernel.vfs.open p.processID path).1, c.machine.process p.processID with
    | none, _ => some c
    | some _, none => none
    | some _, some process =>
      let (loaded,c) := c.replaceUserspaceElf64Process process r path
      (c.kernel.exec p path loaded).map fun kernel => { c with kernel := kernel }

structure Intact (pid : Nat) (c c' : Computer) : Prop where
  running : (c'.kernel.scheduler.process pid).map Process.state = some .running
  memories : c'.machine = c.machine
  registers : c'.cpu pid = c.cpu pid
  descriptors : c'.kernel.vfs.fileDescriptors pid = c.kernel.vfs.fileDescriptors pid
end Computer

def VFS.Opens (v : VFS) (path : List Char) : Prop :=
  1 < path.length ∧ path.head? = some '/' ∧
    ∃ mount ∈ v.mounts, mount.path <+: path ∧
      (mount.traversePath (path.drop mount.path.length)).isSome

/-- A call that starts no new program, as there is no file or its header is not accepted. -/
def ExecRequest.Refused (r : ExecRequest) (v : VFS) : Prop :=
  (∀ path, r.path = some path → ¬v.Opens path) ∨ r.acceptedHeader = none

theorem VFS.open_isSome_iff (v : VFS) (pid : Nat) (path : List Char) : (v.open pid path).1.isSome ↔ v.Opens path := by
  have hf : (v.mounts.findSome? fun mount =>
      if mount.path.isPrefixOf path then mount.traversePath (path.drop mount.path.length)
      else none).isSome ↔ ∃ mount ∈ v.mounts, mount.path <+: path ∧
        (mount.traversePath (path.drop mount.path.length)).isSome := by
    rw [List.findSome?_isSome_iff]
    refine exists_congr fun mount => and_congr_right fun _ => ?_
    by_cases hp : mount.path.isPrefixOf path
    · rw [if_pos hp]
      exact (and_iff_right (List.isPrefixOf_iff_prefix.mp hp)).symm
    rw [if_neg hp]
    have hno : ¬mount.path <+: path := fun h => hp (List.isPrefixOf_iff_prefix.mpr h)
    simp [hno]
  unfold VFS.open VFS.Opens
  by_cases hl : path.length ≤ 1
  · simp [hl,not_lt.mpr hl]
  by_cases hh : path.head? = some '/'
  · rw [if_neg hl,if_neg (by simpa using hh),← hf,
      and_iff_right (not_le.mp hl),and_iff_right hh]
    dsimp only
    split
    · next hn =>
      rw [hn]
      simp
    · next hs =>
      rw [hs]
      simp
  · simp [hl,hh]

namespace Computer
variable {c c' : Computer} {p : Scheduler.Process} {r : ExecRequest}
theorem exec_rejected (hre : Reachable Started step anyStep c.kernel)
    (hp : c.kernel.caller = some p) {path : List Char} (hpa : r.path = some path)
    (ho : c.kernel.vfs.Opens path) (hr : r.acceptedHeader = none)
    (h : c.sys11Exec p r = some c') :
    c'.kernel.scheduler.asleepOn p.processID = some .replacement ∧
      c'.kernel.vfs = (c.kernel.vfs.open p.processID path).2 := by
  obtain ⟨procfd,hpr⟩ := isSome_iff_exists.mp ((c.kernel.vfs.open_isSome_iff p.processID path).mpr ho)
  unfold sys11Exec at h
  rw [hpa] at h
  dsimp only at h
  rw [hpr] at h
  cases hpro : c.machine.process p.processID with
  | none => simp [hpro] at h
  | some process =>
    simp only [hpro,replaceUserspaceElf64Process,hr] at h
    obtain ⟨kernel,hk,rfl⟩ := map_eq_some_iff.mp h
    simp only [exec,hpr,Bool.false_eq_true,if_false] at hk
    obtain ⟨scheduler,hs,rfl⟩ := map_eq_some_iff.mp hk
    have hu := (sound_of_run hre).wellformed.unique
    obtain ⟨ha,-,-⟩ := Scheduler.State.block_sleeps hu (caller_spec hp).1 hs
    exact ⟨by rw [ha,Function.update_self],rfl⟩

/-- A call that is refused leaves its caller as it was exactly when there is no file to open. -/
theorem refused_exec_intact_iff (hreach : Reachable Started step anyStep c.kernel)
    (hp : c.kernel.caller = some p) (hrefused : r.Refused c.kernel.vfs) :
    (∃ c', c.sys11Exec p r = some c' ∧ Intact p.processID c c') ↔
      ∀ path, r.path = some path → ¬c.kernel.vfs.Opens path := by
  constructor
  · rintro ⟨c',he,hi⟩ path hpa ho
    have hre := hrefused.resolve_left fun hn => hn path hpa ho
    obtain ⟨ha,-⟩ := exec_rejected hreach hp hpa ho hre he
    obtain ⟨q,hq,hs⟩ := bind_eq_some_iff.mp ha
    have hr := hi.running
    rw [hq,map_some,some_inj] at hr
    simp [hr] at hs
  intro hn
  have hr : (c.kernel.scheduler.process p.processID).map Process.state = some .running := by
    rw [(caller_spec hp).1,map_some,(caller_spec hp).2.2.1]
  refine ⟨c,?_,hr,rfl,rfl,rfl⟩
  unfold sys11Exec
  cases hpa : r.path with
  | none => rfl
  | some path =>
    have hc : (c.kernel.vfs.open p.processID path).1 = none := by
      rw [← not_isSome_iff_eq_none,VFS.open_isSome_iff]
      exact hn path hpa
    simp [hc]

def zeroFile : ExecutableFile where
  read := fun byteCount _ => some (List.replicate byteCount.toNat 0)
  bounded := by
    intro byteCount byteOffset bytes hbytes
    cases hbytes
    exact (List.length_replicate).le

def zeroRequest (path : List Char) : ExecRequest := ⟨some path,[],zeroFile,fun _ => 0,fun _ => 0,0⟩

def oneRegion : Machine where
  frames := ⟨fun _ => 0,⟨⟨0,fun _ => 0⟩,0,0,0,0,0⟩⟩
  kernelMap := 0
  processes := [⟨1,0x1000,[⟨0x400000,0x2000,4096,0⟩],0xf8000000⟩]
  pageMapsToFree := []
  thePid := 1
  log := []

/-- A process runs the first program, and asks for a file that is not at an absolute path. -/
theorem refused_exec_intact_one : ∃ (c : Computer) (p : Scheduler.Process) (c' : Computer),
    Reachable Started step anyStep c.kernel ∧ c.kernel.caller = some p ∧
      c.sys11Exec p (zeroRequest ['a']) = some c' ∧ Intact p.processID c c' := by
  obtain ⟨s,hr,hf⟩ : ∃ s, Reachable Started step anyStep s ∧ s.caller.isSome = true :=
    Reachable.exists_run ⟨oneFile,rfl⟩ [.create ['/','a'] true,.timer 0]
      (by decide +kernel)
  obtain ⟨p,hp⟩ := isSome_iff_exists.mp hf
  have hn : ∀ path, (zeroRequest ['a']).path = some path → ¬s.vfs.Opens path := by
    rintro path hpa ⟨hl,-,-⟩
    cases hpa
    exact absurd hl (by decide)
  obtain ⟨c',he,hi⟩ : ∃ c', sys11Exec ⟨s,oneRegion,fun _ => .cleared⟩ p
      (zeroRequest ['a']) = some c' ∧ Intact p.processID _ c' :=
    (refused_exec_intact_iff hr hp (.inl hn)).mpr hn
  exact ⟨_,p,c',hr,hp,he,hi⟩

/-- The file at `/a` is not executable. The process that asks for it goes to sleep, and has a
descriptor that it did not have. -/
theorem rejected_exec_sleeps : ∃ (c : Computer) (p : Scheduler.Process) (c' : Computer),
    Reachable Started step anyStep c.kernel ∧ c.kernel.caller = some p ∧
      (zeroRequest ['/','a']).Refused c.kernel.vfs ∧
      c.sys11Exec p (zeroRequest ['/','a']) = some c' ∧
      (c'.kernel.scheduler.process p.processID).map Process.state = some .sleeping ∧
      c.kernel.vfs.procfdToFd p.processID 3 = none ∧
      (c'.kernel.vfs.procfdToFd p.processID 3).isSome := by
  obtain ⟨s,hre,hf⟩ : ∃ s, Reachable Started step anyStep s ∧
      (s.caller.any fun p => s.vfs.procfdToFd p.processID 3 = none ∧
        (sys11Exec ⟨s,oneRegion,fun _ => .cleared⟩ p (zeroRequest ['/','a'])).any fun c' =>
          (c'.kernel.scheduler.process p.processID).map Process.state = some .sleeping ∧
            (c'.kernel.vfs.procfdToFd p.processID 3).isSome) = true :=
    Reachable.exists_run ⟨oneFile,rfl⟩ [.create ['/','a'] true,.timer 0]
      (by decide +kernel)
  obtain ⟨p,hp,hf⟩ := (any_eq_true _ _).mp hf
  obtain ⟨hfr,he⟩ := of_decide_eq_true hf
  obtain ⟨c',hc',ha⟩ := (any_eq_true _ _).mp he
  obtain ⟨hs,ho⟩ := of_decide_eq_true ha
  have hr : (zeroRequest ['/','a']).acceptedHeader = none := by decide +kernel
  exact ⟨⟨s,oneRegion,fun _ => .cleared⟩,p,c',hre,hp,.inr hr,hc',hs,
    hfr,ho⟩
end Computer
end LensorOS.Kernel
