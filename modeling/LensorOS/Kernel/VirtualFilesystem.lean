import LensorOS.Kernel.Drivers
import LensorOS.Storage.SparseVector

/-!
# The virtual filesystem

Each process has a table from its descriptors to indices of the table of open files. A pointer is the
number of its file in the order they were made. A file whose count drops to zero is closed.
-/
namespace LensorOS.Kernel
open Framework Storage Scheduler Syscalls
structure FileMetadata where
  offset : Nat
  fileSize : Nat
  driverData : DriverData

structure SharedFile where
  file : FileMetadata
  refCount : Nat

/-- A mounted file system with the size and place of the files on it. -/
structure MountPoint where
  path : List Char
  traversePath : List Char → Option (Nat × Nat)

/-- The filesystem with the descriptors of all processes. `closed` records the files that their
driver closed, and `wakes` the processes to wake up. -/
structure VFS where
  mounts : List MountPoint
  files : SparseVector Nat
  fileDescriptors : Nat → Option (SparseVector Nat)
  heap : List SharedFile
  closed : List Nat
  stdin : Option Nat
  drivers : Drivers
  wakes : List WakeUp

inductive Result
  | returned (value : Int)
  | blocked (object : WaitObject) (rax : BitVec 64)
deriving DecidableEq

namespace VFS
variable (v : VFS)
def initial (mounts : List MountPoint) : VFS where
  mounts := mounts
  files := .empty
  fileDescriptors := fun pid => if pid = 0 then some .empty else none
  heap := []
  closed := []
  stdin := none
  drivers := .initial
  wakes := []

variable (f : Nat)
def acquire : VFS :=
  { v with heap := v.heap.modify f fun shared => { shared with refCount := shared.refCount+1 } }

def release : VFS := match v.heap[f]? with
  | none => v
  | some shared =>
    let heap := v.heap.set f { shared with refCount := shared.refCount-1 }
    if shared.refCount = 1 then
      let (drivers,wakes) := v.drivers.close shared.file.driverData
      { v with
        heap := heap
        closed := v.closed ++ [f]
        drivers := drivers
        wakes := v.wakes ++ wakes }
    else { v with heap := heap }

def make (fileSize : Nat) (driverData : DriverData) : Nat × VFS :=
  (v.heap.length, { v with heap := v.heap ++ [⟨⟨0,fileSize,driverData⟩,1⟩] })

def lock : Option Nat × VFS := match v.heap[f]? with
  | none => (none,v)
  | some shared => if shared.refCount = 0 then (none,v) else (some f,v.acquire f)

variable (pid procfd : Nat)
def procfdToFd : Option Nat := (v.fileDescriptors pid).bind (·.get procfd)
def file : Option Nat := (v.procfdToFd pid procfd).bind v.files.get
def metadata : Option FileMetadata := v.heap[f]?.map SharedFile.file

def setTable (pid : Nat) (table : SparseVector Nat) : VFS :=
  { v with fileDescriptors := Function.update v.fileDescriptors pid (some table) }

/-- Move a pointer, which may be null, to the table of open files, and give a process a
descriptor for it. A null pointer is not put into the table, and the descriptor then stands for
index 0. -/
def addFile (f : Option Nat) (pid : Nat) : Nat × VFS := let (fd,files) := v.files.pushBack f
  match v.fileDescriptors pid with
  | none => (0, { v with files := files })
  | some table =>
    let (procfd,table) := table.pushBack (some fd)
    (procfd, { v with files := files }.setTable pid table)

def eraseDescriptor : VFS := match v.fileDescriptors pid with
  | none => v
  | some table => v.setTable pid (table.erase procfd)

def eraseFile (fd : Nat) : VFS := match v.files.get fd with
  | none => v
  | some f => { v with files := v.files.erase fd }.release f

def freeFd (pid fd procfd : Nat) : VFS := (v.eraseDescriptor pid procfd).eraseFile fd

def «open» (pid : Nat) (path : List Char) : Option Nat × VFS := if path.length ≤ 1 then (none,v)
  else if path.head? ≠ some '/' then (none,v)
  else
    let found := v.mounts.findSome? fun mount =>
      if mount.path.isPrefixOf path then mount.traversePath (path.drop mount.path.length) else none
    match found with
    | none => (none,v)
    | some (fileSize,byteOffset) =>
      let (f,v) := v.make fileSize (.fileAllocationTable byteOffset)
      let (procfd,v) := v.addFile (some f) pid
      (some procfd,v)

def close : VFS := match v.procfdToFd pid procfd with
  | none => v
  | some fd =>
    match v.files.get fd with
    | none => v
    | some f => ((v.acquire f).freeFd pid fd procfd).release f

def dup : Option Nat × VFS := match v.file pid procfd with
  | none => (none,v)
  | some f =>
    let (procfd,v) := (v.acquire f).addFile (some f) pid
    (some procfd,v)

def replaceFile (fd f : Nat) : VFS := let old := v.files.get fd
  let v := { v with files := v.files.replace fd f }
  match old with
  | none => v
  | some old => v.release old

def dup2 (pid procfd replaced : Nat) : Bool × VFS :=
  match v.procfdToFd pid procfd, v.procfdToFd pid replaced with
  | some sysfd, some replacedSysfd =>
    if procfd = replaced then (true,v)
    else
      match v.files.get sysfd with
      | none => (false,v)
      | some f => (true, (v.acquire f).replaceFile replacedSysfd f)
  | _, _ => (false,v)

theorem dup2_cases (pid procfd replaced : Nat) : v.dup2 pid procfd replaced = (false,v) ∨
    (procfd = replaced ∧ (v.procfdToFd pid replaced).isSome ∧
      v.dup2 pid procfd replaced = (true,v)) ∨
    ∃ fd f, v.procfdToFd pid replaced = some fd ∧ v.file pid procfd = some f ∧
      v.dup2 pid procfd replaced = (true, (v.acquire f).replaceFile fd f) := by
  unfold dup2
  split
  · next sysfd fd hs hfd =>
    split
    · next he => exact .inr (.inl ⟨he,by simp [hfd],rfl⟩)
    split
    · exact .inl rfl
    · next f hf => exact .inr (.inr ⟨fd,f,hfd,by simp [file,hs,hf],rfl⟩)
  · exact .inl rfl

def setMetadata (file : FileMetadata) : VFS :=
  { v with heap := v.heap.modify f fun shared => { shared with file := file } }

def advance (f count : Nat) : VFS := { v with heap := v.heap.modify f fun shared =>
      { shared with file.offset := (shared.file.offset+count) % 2^64 } }

def apply (effect : Effect) : VFS := { v with
    drivers := effect.drivers
    wakes := v.wakes ++ effect.wakes }

/-- The call holds a pointer to the file, which is left behind when the caller goes to sleep.
Without a file the metadata is read through a null pointer, and nothing is changed. -/
def sys2Read (pid procfd byteCount : Nat) (device : Option Nat) : Result × VFS :=
  match v.file pid procfd with
  | none => (.returned (-1), v)
  | some f =>
    let v := v.acquire f
    match v.metadata f with
    | none => (.returned (-1), v.release f)
    | some file =>
      if file.offset ≥ file.fileSize then (.returned 0,v.release f)
      else
        let byteCount := if (file.offset+byteCount) % 2^64 > file.fileSize then
          file.fileSize-file.offset else byteCount
        let effect := v.drivers.read file.driverData pid byteCount device
        let v := v.apply effect
        match effect.reply with
        | .blocks object => (.blocked object 2,v)
        | .error => (.returned (-1), v.release f)
        | .done count => (.returned count, (v.advance f count).release f)

/-- The pointer is held in scopes that end before the caller goes to sleep. -/
def sys3Write (buffer : Bytes) (byteCount : Nat) (device : Option Nat) :
    Result × VFS := match v.file pid procfd with
  | none => (.returned (-1), v)
  | some f =>
    let v := (v.acquire f).release f
    match v.metadata f with
    | none => (.returned (-1), v)
    | some file =>
      let effect := v.drivers.write file.driverData pid buffer byteCount device
      let v := v.apply effect
      match effect.reply with
      | .blocks object => (.blocked object 3,v)
      | .error => (.returned (-1), v)
      | .done count =>
        if 0 < count then (.returned count, ((v.acquire f).advance f count).release f)
        else (.returned 0,v)

def sys13Pipe (pid : Nat) : Result × VFS := let (pipe,drivers) := v.drivers.layPipe
  let v := { v with drivers := drivers }
  let (readEnd,v) := v.make pipeBufSize (.pipe pipe .read)
  let (writeEnd,v) := v.make pipeBufSize (.pipe pipe .write)
  let (_,v) := v.addFile (some readEnd) pid
  let (_,v) := v.addFile (some writeEnd) pid
  (.returned 0,v)

def seekOffset (file : FileMetadata) (offset : Int) : Nat → Option Nat
  | 0 =>
    if offset = 0 then some file.offset
    else if offset < 0 ∧ (-offset).toNat > file.offset then none
    else
      let target := (((file.offset : Int)+offset) % 2^64).toNat
      if target > file.fileSize then none else some target
  | 1 => if offset > 0 then none else some (((file.fileSize : Int)+offset) % 2^64).toNat
  | 2 => if offset < 0 ∨ offset.toNat ≥ file.fileSize then none else some offset.toNat
  | _ => none

def sys14Seek (offset : Int) (whence : Nat) : Result × VFS :=
  match v.file pid procfd with
  | none => (.returned 1,v)
  | some f =>
    let v := v.acquire f
    match v.metadata f with
    | none => (.returned 1,v.release f)
    | some file =>
      match seekOffset file offset whence with
      | none => (.returned 1,v.release f)
      | some target => (.returned 0, (v.setMetadata f { file with offset := target }).release f)

def sys18Socket (pid domain : Nat) : Result × VFS := if domain ≠ 0 then (.returned (-1), v)
  else
    let (socket,drivers) := v.drivers.socket pid
    let (f,v) := { v with drivers := drivers }.make socketRxBufferSize (.socket socket)
    let (procfd,v) := (v.acquire f).addFile (some f) pid
    (.returned procfd,v.release f)

/-- The socket of a file. The calls on sockets cast the driver data without a check, and are
modelled for sockets only. -/
def socketOf : Option (Nat × SocketData) := match v.metadata f with
  | some ⟨_,_,.socket socket⟩ => v.drivers.sockets[socket]?.map fun data => (socket,data)
  | _ => none

/-- A call that holds a pointer to a file from its begin to its end. -/
def onSocket (request : VFS → Nat → SocketData → Int × VFS) : Result × VFS :=
  match v.file pid procfd with
  | none => (.returned (-1), v)
  | some f =>
    let v := v.acquire f
    match v.socketOf f with
    | none => (.returned (-1), v.release f)
    | some (socket,data) =>
      let (value,v) := request v socket data
      (.returned value,v.release f)

def sys19Bind (address : SocketAddress) : Result × VFS :=
  v.onSocket pid procfd fun v socket data =>
    match v.drivers.bind socket data address with
    | none => (-1,v)
    | some drivers => (0, { v with drivers := drivers })

def sys20Listen : Result × VFS := v.onSocket pid procfd fun v socket data =>
    if data.address = .unbound then (-1,v)
    else
      (0, { v with drivers := v.drivers.setSocket socket { data with clientServer := .server } })

/-- The request is queued, and the process that made the server's socket is woken up if some
process waited for a connection. A process is there as long as it has descriptors. -/
def sys21Connect (address : SocketAddress) : Result × VFS :=
  v.onSocket pid procfd fun v socket data =>
    if data.clientServer ≠ .client then (-1,v)
    else
      match v.drivers.getBoundSocket address with
      | none => (-1,v)
      | some server =>
        match v.drivers.sockets[server]? with
        | none => (-1,v)
        | some serverData =>
          if (v.fileDescriptors serverData.pid).isNone then (-1,v)
          else
            let drivers := v.drivers.setSocket server
              { serverData with connectionQueue := serverData.connectionQueue ++ [socket] }
            let wakes := if serverData.waitingOnConnection then
              wakeUps (.connection server) (-2) [serverData.pid] else []
            (0, { v with
              drivers := drivers
              wakes := v.wakes ++ wakes })

/-- Take a connection from the queue, or wait for one. The pointer to the file is destroyed
before that. -/
def sys22Accept : Result × VFS := match v.file pid procfd with
  | none => (.returned (-1), v)
  | some f =>
    let v := (v.acquire f).release f
    match v.socketOf f with
    | none => (.returned (-1), v)
    | some (socket,data) =>
      match data.connectionQueue with
      | [] =>
        let drivers := v.drivers.setSocket socket { data with waitingOnConnection := true }
        (.blocked (.connection socket) (-1), { v with drivers := drivers })
      | client :: rest =>
        let drivers := v.drivers.setSocket socket { data with connectionQueue := rest }
        let v := { v with drivers := drivers }
        match v.drivers.sockets[client]? with
        | none => (.returned (-1), v)
        | some clientData =>
          if (v.fileDescriptors clientData.pid).isNone then (.returned (-1), v)
          else
            let (accepted,drivers) := v.drivers.acceptSocket clientData
            let (f,v) := { v with drivers := drivers }.make socketRxBufferSize (.socket accepted)
            let (procfd,v) := (v.acquire f).addFile (some f) pid
            (.returned procfd,v.release f)

inductive Call
  | «open» (path : List Char)
  | close (procfd : Nat)
  | read (procfd byteCount : Nat) (device : Option Nat)
  | write (procfd : Nat) (buffer : Bytes) (byteCount : Nat) (device : Option Nat)
  | repfd (procfd replaced : Nat)
  | pipe
  | seek (procfd : Nat) (offset : Int) (whence : Nat)
  | dup (procfd : Nat)
  | socket (domain : Nat)
  | bind (procfd : Nat) (address : SocketAddress)
  | listen (procfd : Nat)
  | connect (procfd : Nat) (address : SocketAddress)
  | accept (procfd : Nat)

def descriptor : Option Nat → Int
  | none => -1
  | some procfd => procfd

def call (pid : Nat) : Call → Result × VFS
  | .open path =>
    let (procfd,v) := v.open pid path
    (.returned (descriptor procfd), v)
  | .close procfd => (.returned 0,v.close pid procfd)
  | .read procfd byteCount device => v.sys2Read pid procfd byteCount device
  | .write procfd buffer byteCount device => v.sys3Write pid procfd buffer byteCount device
  | .repfd procfd replaced => (.returned 0, (v.dup2 pid procfd replaced).2)
  | .pipe => v.sys13Pipe pid
  | .seek procfd offset whence => v.sys14Seek pid procfd offset whence
  | .dup procfd =>
    let (procfd,v) := v.dup pid procfd
    (.returned (descriptor procfd), v)
  | .socket domain => v.sys18Socket pid domain
  | .bind procfd address => v.sys19Bind pid procfd address
  | .listen procfd => v.sys20Listen pid procfd
  | .connect procfd address => v.sys21Connect pid procfd address
  | .accept procfd => v.sys22Accept pid procfd

def addTable (pid : Nat) : VFS := v.setTable pid .empty

/-- Push garbage until a table has the size asked for, and return where it went. The loop runs
out of steps only after that. -/
def pushGarbage (size sysfd : Nat) : Nat → SparseVector Nat → SparseVector Nat × List Nat
  | 0, table => (table,[])
  | steps+1, table =>
    if table.allocatedSize < size then
      let (fd,table) := table.pushBack (some sysfd)
      let (table,garbage) := pushGarbage size sysfd steps table
      (table, fd :: garbage)
    else (table,[])

def fill (pid size sysfd : Nat) : VFS × List Nat := match v.fileDescriptors pid with
  | none => (v,[])
  | some table =>
    let (table,garbage) := pushGarbage size sysfd (size+table.idxs.length) table
    (v.setTable pid table,garbage)

/-- Give a process a descriptor for the file of an index, with the number of the original. -/
def copyDescriptor (child procfd sysfd : Nat) : VFS × List Nat :=
  let (v,garbage) := v.fill child procfd sysfd
  match v.files.get sysfd with
  | none => ((v.addFile none child).2, garbage)
  | some f => (((v.acquire f).addFile (some f) child).2, garbage)

def copyNext (child : Nat) (loop : VFS × List Nat) (pair : Nat × Nat) : VFS × List Nat :=
  let (v,pushed) := loop.1.copyDescriptor child pair.1 pair.2
  (v,loop.2 ++ pushed)

def eraseDescriptors (pid : Nat) (procfds : List Nat) : VFS :=
  procfds.foldl (fun v procfd => v.eraseDescriptor pid procfd) v

/-- The descriptors of a process in a forked one. Garbage stands where the original has holes,
and is erased at the end. -/
def copyDescriptors (parent child : Nat) : VFS := match v.fileDescriptors parent with
  | none => v
  | some table =>
    let (v,garbage) := table.pairs.foldl (copyNext child) (v,[])
    v.eraseDescriptors child garbage

def tableSize (pid : Nat) : Nat := match v.fileDescriptors pid with
  | none => 0
  | some table => table.allocatedSize

def closeBelow (pid n : Nat) : VFS := (List.range n).foldl (fun v procfd => v.close pid procfd) v

def dropTable (pid : Nat) : VFS := { v with fileDescriptors := Function.update v.fileDescriptors pid none }

def destroy (pid : Nat) : VFS := (v.closeBelow pid (v.tableSize pid)).dropTable pid

/-- The input driver returns the file it made for a name before, if it is not closed. -/
def openStdin : Option Nat × VFS := match v.stdin with
  | some f => v.lock f
  | none =>
    let (input,drivers) := v.drivers.openInput
    let (f,v) := { v with drivers := drivers }.make inputBufSize (.input input)
    (some f, { v with stdin := some f })

def openStandard (pid : Nat) : VFS := let (stdin,v) := (v.addTable pid).openStdin
  let (_,v) := v.addFile stdin pid
  let (outmeta,v) := v.make 0 .dbgOut
  let (_,v) := (v.acquire outmeta).addFile (some outmeta) pid
  (v.addFile (some outmeta) pid).2

theorem closeBelow_succ (pid n : Nat) : v.closeBelow pid (n+1) = (v.closeBelow pid n).close pid n := by
  simp [closeBelow,List.range_succ]

variable {v} in
theorem copyDescriptors_keeps {P : VFS → Prop} (h : P v) (parent : Nat) {child : Nat}
    (hc : ∀ w procfd sysfd, P w → P (w.copyDescriptor child procfd sysfd).1)
    (he : ∀ w procfd, P w → P (w.eraseDescriptor child procfd)) :
    P (v.copyDescriptors parent child) := by
  unfold copyDescriptors
  split
  · exact h
  refine List.foldlRecOn _ _ ?_ fun w hw procfd _ => he w procfd hw
  exact List.foldlRecOn (motive := fun loop : VFS × List Nat => P loop.1) _ _ h
    fun loop hl pair _ => hc loop.1 pair.1 pair.2 hl
end VFS
end LensorOS.Kernel
