import LensorOS.Kernel.CallEffects
import LensorOS.Scheduler.Context
import LensorOS.Syscalls.UserPointers

/-!
# Checks of descriptors

Every call looks its descriptor up by itself. A read does not check that there is a file, and the
calls on sockets do not check that the file is a socket.
-/
namespace LensorOS.Kernel
open Framework Scheduler Syscalls State
/-- The address that a process gives with a call on a socket: refused by the check of its first
byte, not mapped as a whole, or the address that is there. -/
inductive AddressArgument
  | invalid
  | unmapped
  | given (address : SocketAddress)
deriving DecidableEq

inductive SystemCall
  | read (procfd : Nat) (validBuffer : Bool) (byteCount : Nat) (device : Option Nat)
  | write (procfd : Nat) (buffer : Option Bytes) (byteCount : Nat) (device : Option Nat)
  | close (procfd : Nat)
  | seek (procfd : Nat) (offset : Int) (whence : Nat)
  | dup (procfd : Nat)
  | bind (procfd : Nat) (address : AddressArgument)
  | listen (procfd : Nat)
  | connect (procfd : Nat) (address : AddressArgument) (addressLength : BitVec 64)
  | accept (procfd : Nat) (validPointers : Bool)

structure Registered where
  kernel : State
  cpu : Nat → Context.CPUState

/-- What a call runs into: the registers of its caller, the offset and size of a file as read
through a null pointer, and the socket that the data of a file reads as when it is none. `none`
is an exception. -/
structure Surroundings where
  registers : Context.CPUState
  nullFile : Option (Nat × Nat)
  castData : DriverData → Option SocketData

/-- How a call ends. It may raise an exception, write past the end of a variable on the kernel
stack, or go on with a socket that is none. -/
inductive Outcome
  | done (result : Result) (c : Registered)
  | faults
  | overruns
  | astray

def DriverData.isSocket : DriverData → Bool
  | .socket _ => true
  | _ => false

def DriverData.isNull : DriverData → Bool
  | .dbgOut => true
  | .fileAllocationTable byteOffset => byteOffset = 0
  | _ => false

/-- The part of a call that looks at the socket. The data of other files is taken for one. -/
def Surroundings.onCastData (env : Surroundings) (data : DriverData) (request : SocketData → Outcome) : Outcome :=
  match env.castData data with
  | none => .faults
  | some socket => request socket

namespace Registered
variable (c : Registered) (env : Surroundings) (pid : Nat)
def vfs : VFS := c.kernel.vfs
def returns (value : Int) : Outcome := .done (.returned value) c

def perform (request : VFS.Call) : Outcome :=
  let (result,vfs) := c.vfs.call pid request
  .done result { c with kernel := { c.kernel with vfs := vfs } }

def saveRegisters : Registered := { c with cpu := Function.update c.cpu pid env.registers }
variable (procfd : Nat)
def dataOf : Option DriverData := (c.vfs.file pid procfd).bind c.vfs.driverData

def onFile (request : DriverData → Outcome) : Outcome :=
  match c.dataOf pid procfd with
  | none => c.returns (-1)
  | some data => request data

/-- The metadata is read before anything is checked. The filesystem finds out that there is no
file only if the file that was read there is not at its end. -/
def sys2Read (validBuffer : Bool) (byteCount : Nat) (device : Option Nat) : Outcome :=
  if !validBuffer then c.returns 0
  else
    match c.vfs.file pid procfd with
    | some _ => c.perform pid (.read procfd byteCount device)
    | none =>
      match env.nullFile with
      | none => .faults
      | some (offset,fileSize) => if offset ≥ fileSize then c.returns 0 else c.returns (-1)

/-- The registers are saved in case the call goes to sleep. -/
def sys3Write (buffer : Option Bytes) (byteCount : Nat) (device : Option Nat) : Outcome :=
  match buffer with
  | none => c.returns 0
  | some buffer => (c.saveRegisters env pid).perform pid (.write procfd buffer byteCount device)

def sys19Bind (address : AddressArgument) : Outcome :=
  if address = .invalid then c.returns (-1)
  else
    c.onFile pid procfd fun data =>
      match address with
      | .invalid => c.returns (-1)
      | .unmapped => .faults
      | .given address =>
        if data.isSocket then c.perform pid (.bind procfd address)
        else if (c.vfs.drivers.getBoundSocket address).isSome then c.returns (-1)
        else .astray

def sys20Listen : Outcome :=
  c.onFile pid procfd fun data =>
    if data.isSocket then c.perform pid (.listen procfd)
    else
      env.onCastData data fun socket =>
        if socket.address = .unbound then c.returns (-1) else .astray

/-- A socket is bound to the address, and the process that made it is there. -/
def served (address : SocketAddress) : Bool :=
  (c.vfs.drivers.getBoundSocket address).any fun server =>
    c.vfs.drivers.sockets[server]?.any fun data => (c.vfs.fileDescriptors data.pid).isSome

/-- The address is copied to the stack before the descriptor is looked up. -/
def sys21Connect (address : AddressArgument) (addressLength : BitVec 64) : Outcome :=
  match address with
  | .invalid => c.returns (-1)
  | .unmapped => .faults
  | .given address =>
    if socketAddressSize < memcpyCount addressLength then .overruns
    else
      c.onFile pid procfd fun data =>
        if data.isSocket then c.perform pid (.connect procfd address)
        else
          env.onCastData data fun socket =>
            if socket.clientServer ≠ .client then c.returns (-1)
            else if c.served address then .astray
            else c.returns (-1)

/-- A connection is taken from the queue that is found, or the caller goes to sleep. -/
def sys22Accept (validPointers : Bool) : Outcome :=
  if !validPointers then c.returns (-1)
  else
    c.onFile pid procfd fun data =>
      if data.isSocket then c.perform pid (.accept procfd)
      else if data.isNull then c.returns (-1)
      else .astray

def enter : SystemCall → Outcome
  | .read procfd validBuffer byteCount device =>
    c.sys2Read env pid procfd validBuffer byteCount device
  | .write procfd buffer byteCount device => c.sys3Write env pid procfd buffer byteCount device
  | .close procfd => c.perform pid (.close procfd)
  | .seek procfd offset whence => c.perform pid (.seek procfd offset whence)
  | .dup procfd => c.perform pid (.dup procfd)
  | .bind procfd address => c.sys19Bind pid procfd address
  | .listen procfd => c.sys20Listen env pid procfd
  | .connect procfd address addressLength =>
    c.sys21Connect env pid procfd address addressLength
  | .accept procfd validPointers => c.sys22Accept pid procfd validPointers
end Registered

namespace SystemCall
def descriptor : SystemCall → Nat
  | .read procfd _ _ _ | .write procfd _ _ _ | .close procfd | .seek procfd _ _ | .dup procfd
  | .bind procfd _ | .listen procfd | .connect procfd _ _ | .accept procfd _ => procfd

def forSockets : SystemCall → Bool
  | .bind _ _ | .listen _ | .connect _ _ _ | .accept _ _ => true
  | _ => false

/-- What a call answers when it refuses its arguments. An invalid buffer is answered by 0, and
closing a file has no answer. -/
def refusal : SystemCall → Int
  | .read _ validBuffer _ _ => if validBuffer then -1 else 0
  | .write _ buffer _ _ => if buffer.isSome then -1 else 0
  | .close _ => 0
  | .seek _ _ _ => 1
  | _ => -1

def Fits : AddressArgument → BitVec 64 → Prop
  | .invalid, _ => True
  | .unmapped, _ => False
  | .given _, addressLength => memcpyCount addressLength ≤ socketAddressSize
end SystemCall

namespace Registered
variable (c : Registered) (env : Surroundings) (pid : Nat)
/-- What has to hold for a call to be refused, where its descriptor is not open. -/
def RefusesClosed : SystemCall → Prop
  | .read _ validBuffer _ _ =>
    validBuffer = true → ∃ offset fileSize, env.nullFile = some (offset,fileSize) ∧ offset < fileSize
  | .write _ buffer _ _ => buffer.isSome → c.cpu pid = env.registers
  | .connect _ address addressLength => SystemCall.Fits address addressLength
  | _ => True

/-- What has to hold for a call to be refused, where its file is not a socket. -/
def RefusesOther (data : DriverData) : SystemCall → Prop
  | .bind _ address => address = .invalid ∨
      ∃ a, address = .given a ∧ (c.vfs.drivers.getBoundSocket a).isSome
  | .listen _ => ∃ socket, env.castData data = some socket ∧ socket.address = .unbound
  | .connect _ address addressLength => address = .invalid ∨
      ∃ a, address = .given a ∧ memcpyCount addressLength ≤ socketAddressSize ∧
        ∃ socket, env.castData data = some socket ∧
          (socket.clientServer = .client → c.served a = false)
  | .accept _ validPointers => validPointers = true → data.isNull = true
  | _ => False

section
variable {c env pid} {procfd : Nat} {data : DriverData} {f : DriverData → Outcome}
theorem onFile_open (h : c.dataOf pid procfd = some data) : c.onFile pid procfd f = f data := by rw [onFile,h]

theorem onFile_closed (h : c.vfs.file pid procfd = none) : c.onFile pid procfd f = c.returns (-1) := by
  rw [onFile,dataOf,h]
  rfl

theorem returns_inj {c' : Registered} {value value' : Int} :
    c.returns value = c'.returns value' ↔ value = value' ∧ c = c' := by simp [returns]

theorem close_closed {v : VFS} (h : v.file pid procfd = none) : v.close pid procfd = v := by
  unfold VFS.close
  cases hfd : v.procfdToFd pid procfd with
  | none => rfl
  | some fd =>
    have hf : v.files.get fd = none := by
      rw [VFS.file,hfd] at h
      exact h
    simp [hf]
end

section
variable {c env pid} {call : SystemCall} {data : DriverData}
theorem refused_closed_iff (h : c.vfs.file pid call.descriptor = none) :
    c.enter env pid call = c.returns call.refusal ↔ c.RefusesClosed env pid call := by
  cases call with
  | read procfd validBuffer byteCount device =>
    change c.vfs.file pid procfd = none at h
    cases validBuffer with
    | false => simp [enter,sys2Read,SystemCall.refusal,RefusesClosed]
    | true =>
      cases hn : env.nullFile with
      | none => simp [enter,sys2Read,h,RefusesClosed,hn,returns]
      | some place =>
        obtain ⟨offset,fileSize⟩ := place
        by_cases he : offset ≥ fileSize
        · simp [enter,sys2Read,h,RefusesClosed,hn,he,SystemCall.refusal,returns_inj]
        · simp [enter,sys2Read,h,RefusesClosed,hn,he,SystemCall.refusal, Nat.lt_of_not_le he]
  | write procfd buffer byteCount device =>
    change c.vfs.file pid procfd = none at h
    cases buffer with
    | none => simp [enter,sys3Write,SystemCall.refusal,RefusesClosed]
    | some bytes =>
      have hca : c.enter env pid (.write procfd (some bytes) byteCount device) =
          (c.saveRegisters env pid).returns (-1) := by
        have hw : (c.saveRegisters env pid).vfs.sys3Write pid procfd bytes byteCount device =
            (.returned (-1), c.vfs) := by
          rw [show (c.saveRegisters env pid).vfs = c.vfs from rfl,VFS.sys3Write,h]
        simp only [enter,sys3Write,perform,VFS.call,hw]
        rfl
      rw [hca,returns_inj]
      constructor
      · rintro ⟨-,hs⟩ -
        rw [← congrFun (congrArg cpu hs) pid]
        exact Function.update_self pid env.registers c.cpu
      intro hs
      refine ⟨rfl,?_⟩
      rw [saveRegisters,← hs rfl,Function.update_eq_self]
  | close procfd =>
    change c.vfs.file pid procfd = none at h
    have hc : c.vfs.call pid (.close procfd) = (.returned 0,c.vfs) := by rw [VFS.call,close_closed h]
    simp only [enter,perform,hc]
    exact iff_of_true rfl trivial
  | seek procfd offset whence =>
    change c.vfs.file pid procfd = none at h
    simp only [enter,perform,VFS.call,VFS.sys14Seek,h]
    exact iff_of_true rfl trivial
  | dup procfd =>
    change c.vfs.file pid procfd = none at h
    simp only [enter,perform,VFS.call,VFS.dup,h]
    exact iff_of_true rfl trivial
  | bind procfd address =>
    change c.vfs.file pid procfd = none at h
    refine iff_of_true ?_ trivial
    rw [enter,sys19Bind,onFile_closed h]
    exact ite_self _
  | listen procfd =>
    change c.vfs.file pid procfd = none at h
    refine iff_of_true ?_ trivial
    rw [enter,sys20Listen,onFile_closed h]
    rfl
  | connect procfd address addressLength =>
    change c.vfs.file pid procfd = none at h
    cases address with
    | invalid => exact iff_of_true rfl trivial
    | unmapped => simp [enter,sys21Connect,RefusesClosed,SystemCall.Fits,returns]
    | given address =>
      rw [enter,sys21Connect,onFile_closed h]
      by_cases hi : memcpyCount addressLength ≤ socketAddressSize
      · rw [if_neg (not_lt.mpr hi)]
        exact iff_of_true rfl hi
      · rw [if_pos (by omega)]
        exact iff_of_false (by simp [returns]) hi
  | accept procfd validPointers =>
    change c.vfs.file pid procfd = none at h
    refine iff_of_true ?_ trivial
    rw [enter,sys22Accept,onFile_closed h]
    exact ite_self _

theorem refused_other_iff (hd : c.dataOf pid call.descriptor = some data)
    (hcal : call.forSockets = true) (ho : data.isSocket = false) :
    c.enter env pid call = c.returns call.refusal ↔ c.RefusesOther env data call := by
  have hno : ¬data.isSocket = true := by simp [ho]
  cases call with
  | bind procfd address =>
    change c.dataOf pid procfd = some data at hd
    rw [enter,sys19Bind,onFile_open hd]
    cases address with
    | invalid => simp [SystemCall.refusal,RefusesOther]
    | unmapped => simp [RefusesOther,returns]
    | given address =>
      by_cases hb : (c.vfs.drivers.getBoundSocket address).isSome = true
      · simp [hno,hb,SystemCall.refusal,RefusesOther]
      · simp [hno,hb,RefusesOther,returns]
  | listen procfd =>
    change c.dataOf pid procfd = some data at hd
    rw [enter,sys20Listen,onFile_open hd,if_neg hno,Surroundings.onCastData]
    cases hca : env.castData data with
    | none => simp [RefusesOther,hca,returns]
    | some socket =>
      by_cases hu : socket.address = .unbound
      · simp [RefusesOther,hca,hu,SystemCall.refusal]
      · simp [RefusesOther,hca,hu,returns]
  | connect procfd address addressLength =>
    change c.dataOf pid procfd = some data at hd
    cases address with
    | invalid => exact iff_of_true rfl (.inl rfl)
    | unmapped => simp [enter,sys21Connect,RefusesOther,returns]
    | given address =>
      rw [enter,sys21Connect,onFile_open hd,if_neg hno,Surroundings.onCastData]
      by_cases hf : memcpyCount addressLength ≤ socketAddressSize
      · rw [if_neg (not_lt.mpr hf)]
        cases hca : env.castData data with
        | none => simp [RefusesOther,hca,returns]
        | some socket =>
          by_cases hc : socket.clientServer = .client
          · by_cases hs : c.served address = true
            · simp [RefusesOther,hca,hc,hs,returns]
            · simp [RefusesOther,hca,hc,hs,hf,SystemCall.refusal]
          · simp [RefusesOther,hca,hc,hf,SystemCall.refusal]
      · rw [if_pos (by omega)]
        simp [RefusesOther,hf,returns]
  | accept procfd validPointers =>
    change c.dataOf pid procfd = some data at hd
    rw [enter,sys22Accept,onFile_open hd,if_neg hno]
    cases validPointers with
    | false => simp [RefusesOther,SystemCall.refusal]
    | true =>
      by_cases hn : data.isNull = true
      · simp [RefusesOther,hn,SystemCall.refusal]
      · simp [RefusesOther,hn,returns]
  | _ => cases hcal

/-- A call on a descriptor that is not open, or not that of a socket where the call is for
sockets, returns its error and changes nothing, exactly under the conditions that depend on the
call. -/
theorem bad_descriptor_refused_iff (call : SystemCall) :
    (c.vfs.file pid call.descriptor = none →
      (c.enter env pid call = c.returns call.refusal ↔ c.RefusesClosed env pid call)) ∧
    ∀ data, c.dataOf pid call.descriptor = some data → call.forSockets = true →
      data.isSocket = false →
        (c.enter env pid call = c.returns call.refusal ↔ c.RefusesOther env data call) :=
  ⟨refused_closed_iff,fun _ => refused_other_iff⟩
end

def cleared : Surroundings where
  registers := .cleared
  nullFile := some (0,0)
  castData := fun _ => some ⟨0,.unbound,false,[],.client,none⟩

/-- The first process listens on a descriptor that it does not have, and accepts connections on
its output. -/
theorem bad_descriptor_refused_two : ∃ s cpu, Reachable Started step anyStep s ∧
    enter ⟨s,cpu⟩ cleared 1 (.listen 7) = returns ⟨s,cpu⟩ (-1) ∧
    enter ⟨s,cpu⟩ cleared 1 (.accept 1 true) = returns ⟨s,cpu⟩ (-1) := by
  obtain ⟨s,hr,hc,hop⟩ : ∃ s, Reachable Started step anyStep s ∧
      s.vfs.file 1 7 = none ∧ (s.vfs.file 1 1).bind s.vfs.driverData = some .dbgOut :=
    Reachable.exists_run ⟨oneFile,rfl⟩ [.create ['/','a'] true,.timer 0]
      (by decide +kernel)
  have hl : (vfs ⟨s,fun _ => .cleared⟩).file 1 7 = none := hc
  have ho : dataOf ⟨s,fun _ => .cleared⟩ 1 1 = some .dbgOut := hop
  refine ⟨s,fun _ => .cleared,hr,?_,?_⟩
  · exact ((bad_descriptor_refused_iff (.listen 7)).1 hl).mpr trivial
  · exact ((bad_descriptor_refused_iff (.accept 1 true)).2 .dbgOut ho rfl rfl).mpr fun _ => rfl

/-- The first process has no descriptor 7, and descriptor 3 of a pipe. A read of the first is
answered like one at the end of a file. Binding the second to a free address goes on with the
memory of the pipe. -/
theorem bad_descriptors_accepted : ∃ s cpu, Reachable Started step anyStep s ∧
    s.vfs.file 1 7 = none ∧
    enter ⟨s,cpu⟩ cleared 1 (.read 7 true 8 none) = returns ⟨s,cpu⟩ 0 ∧
    (dataOf ⟨s,cpu⟩ 1 3).map DriverData.isSocket = some false ∧
    enter ⟨s,cpu⟩ cleared 1 (.bind 3 (.given (.lensor16 (.replicate 16 1)))) = .astray := by
  obtain ⟨s,hr,hc,hp,hf⟩ : ∃ s, Reachable Started step anyStep s ∧
      s.vfs.file 1 7 = none ∧
        ((s.vfs.file 1 3).bind s.vfs.driverData).map DriverData.isSocket = some false ∧
        s.vfs.drivers.getBoundSocket (.lensor16 (.replicate 16 1)) = none :=
    Reachable.exists_run ⟨oneFile,rfl⟩ [.create ['/','a'] true,.timer 0,.file .pipe]
      (by decide +kernel)
  generalize SocketAddress.lensor16 _ = address at hf ⊢
  refine ⟨s,fun _ => .cleared,hr,hc,?_,hp,?_⟩
  · have hfi : vfs ⟨s,fun _ => .cleared⟩ = s.vfs := rfl
    simp [enter,sys2Read,hfi,hc,cleared]
  obtain ⟨data,hd,ho⟩ := Option.map_eq_some_iff.mp hp
  have hop : dataOf ⟨s,fun _ => .cleared⟩ 1 3 = some data := hd
  have hu : (vfs ⟨s,fun _ => .cleared⟩).drivers.getBoundSocket address = none := hf
  simp [enter,sys19Bind,onFile_open hop,ho,hu]
end Registered
end LensorOS.Kernel
