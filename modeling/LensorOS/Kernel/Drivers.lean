import LensorOS.Scheduler.Processes
import LensorOS.Syscalls.Read

/-!
# File system drivers

The buffers of pipes, sockets and inputs with the calls of their drivers. A call returns what it
does to waiting processes. The memory of a deleted object stays as it was.
-/
namespace LensorOS.Kernel
open Framework Storage Scheduler Syscalls
inductive SocketAddress
  | unbound
  | lensor16 (data : Vector (BitVec 8) 16)
deriving DecidableEq

/-- The type of an address, in four bytes, and its data. -/
def socketAddressSize : Nat := 20

/-- A socket. `connectionQueue` holds the sockets that want to connect, and `data` is the pair
of buffers. -/
structure SocketData where
  pid : Nat
  address : SocketAddress
  waitingOnConnection : Bool
  connectionQueue : List Nat
  clientServer : SocketRole
  data : Option Nat

structure SocketBuffers where
  txBuffer : Nat
  rxBuffer : Nat
  refCount : Nat

/-- The driver of a file with its data there. -/
inductive DriverData
  | dbgOut
  | fileAllocationTable (byteOffset : Nat)
  | input (buffer : Nat)
  | pipe (buffer : Nat) (pipeEnd : PipeEnd)
  | socket (data : Nat)
deriving DecidableEq

structure Drivers where
  pipes : List PipeBuffer
  freePipeBuffers : List Nat
  inputs : List InputBuffer
  freeInputBuffers : List Nat
  fifos : List FIFOBuffer
  socketBuffers : List SocketBuffers
  sockets : List SocketData
  bindings : List (SocketAddress × Nat)

structure WakeUp where
  pid : Nat
  cause : WaitObject
  returnValue : BitVec 64

def wakeUps (cause : WaitObject) (returnValue : BitVec 64) (pids : List Nat) : List WakeUp :=
  pids.map fun pid => ⟨pid,cause,returnValue⟩

/-- What a driver returns: -1, -2 with what the caller has to wait for, or the number of bytes. -/
inductive Reply
  | error
  | blocks (object : WaitObject)
  | done (count : Nat)
deriving DecidableEq

def Reply.of (object : WaitObject) : Transfer → Reply
  | .error => .error
  | .blocks => .blocks object
  | .done bytes => .done bytes.length

structure Effect where
  reply : Reply
  drivers : Drivers
  wakes : List WakeUp

def socketTxBufferSize : Nat := 2048
def socketRxBufferSize : Nat := 2040

namespace Drivers
variable (d : Drivers)
def initial : Drivers := ⟨[],[],[],[],[],[],[],[]⟩

def readFifo (fifo pid byteCount : Nat) : Effect := match d.fifos[fifo]? with
  | none => ⟨.error,d,[]⟩
  | some b =>
    let outcome := b.read pid byteCount
    ⟨.of (.fifoToRead fifo) outcome.result,{ d with fifos := d.fifos.set fifo outcome.buffer },
      wakeUps (.fifoToWrite fifo) (-2) outcome.woken⟩

def writeFifo (fifo pid : Nat) (buffer : Bytes) (byteCount : Nat) : Effect :=
  match d.fifos[fifo]? with
  | none => ⟨.error,d,[]⟩
  | some b =>
    let outcome := b.write pid buffer byteCount
    ⟨.of (.fifoToWrite fifo) outcome.result,{ d with fifos := d.fifos.set fifo outcome.buffer },
      wakeUps (.fifoToRead fifo) (-2) outcome.woken⟩

def readPipe (pipe pid byteCount : Nat) : Effect := match d.pipes[pipe]? with
  | none => ⟨.error,d,[]⟩
  | some b =>
    let outcome := b.read pid byteCount
    ⟨.of (.pipeToRead pipe) outcome.result,{ d with pipes := d.pipes.set pipe outcome.buffer },
      wakeUps (.pipeToWrite pipe) (-2) outcome.woken⟩

def writePipe (pipe pid : Nat) (buffer : Bytes) (byteCount : Nat) : Effect :=
  match d.pipes[pipe]? with
  | none => ⟨.error,d,[]⟩
  | some b =>
    let outcome := b.write pid buffer byteCount
    ⟨.of (.pipeToWrite pipe) outcome.result,{ d with pipes := d.pipes.set pipe outcome.buffer },
      wakeUps (.pipeToRead pipe) (-2) outcome.woken⟩

def readInput (input pid byteCount : Nat) : Effect := match d.inputs[input]? with
  | none => ⟨.error,d,[]⟩
  | some b =>
    let outcome := b.read pid byteCount
    ⟨.of (.input input) outcome.result,{ d with inputs := d.inputs.set input outcome.buffer },
      wakeUps (.input input) (-2) outcome.woken⟩

def writeInput (input : Nat) (buffer : Bytes) (byteCount : Nat) : Effect :=
  match d.inputs[input]? with
  | none => ⟨.error,d,[]⟩
  | some b =>
    let outcome := b.write buffer byteCount
    ⟨.of (.input input) outcome.result,{ d with inputs := d.inputs.set input outcome.buffer },
      wakeUps (.input input) (-2) outcome.woken⟩

def buffersOf (socket : Nat) : Option (SocketRole × SocketBuffers) :=
  d.sockets[socket]?.bind fun data =>
    data.data.bind fun buffers => d.socketBuffers[buffers]?.map fun b => (data.clientServer,b)

def readSocket (socket pid byteCount : Nat) : Effect := match d.buffersOf socket with
  | none => ⟨.error,d,[]⟩
  | some (.client,b) => d.readFifo b.txBuffer pid byteCount
  | some (.server,b) => d.readFifo b.rxBuffer pid byteCount

def writeSocket (socket pid : Nat) (buffer : Bytes) (byteCount : Nat) : Effect :=
  match d.buffersOf socket with
  | none => ⟨.error,d,[]⟩
  | some (.client,b) => d.writeFifo b.rxBuffer pid buffer byteCount
  | some (.server,b) => d.writeFifo b.txBuffer pid buffer byteCount

/-- `device` is what the storage device returns, where the file is on one. -/
def deviceReply : Option Nat → Reply
  | none => .error
  | some count => .done count

def read (data : DriverData) (pid byteCount : Nat) (device : Option Nat) : Effect := match data with
  | .dbgOut => ⟨.error,d,[]⟩
  | .fileAllocationTable _ => ⟨deviceReply device,d,[]⟩
  | .input input => d.readInput input pid byteCount
  | .pipe pipe _ => d.readPipe pipe pid byteCount
  | .socket socket => d.readSocket socket pid byteCount

def write (data : DriverData) (pid : Nat) (buffer : Bytes) (byteCount : Nat)
    (device : Option Nat) : Effect := match data with
  | .dbgOut => ⟨.done byteCount,d,[]⟩
  | .fileAllocationTable _ => ⟨deviceReply device,d,[]⟩
  | .input input => d.writeInput input buffer byteCount
  | .pipe pipe _ => d.writePipe pipe pid buffer byteCount
  | .socket socket => d.writeSocket socket pid buffer byteCount

def waitingOn (pipe : Nat) : PipeEnd → WaitObject
  | .read => .pipeToWrite pipe
  | .write => .pipeToRead pipe

def closePipe (pipe : Nat) (pipeEnd : PipeEnd) : Drivers × List WakeUp := match d.pipes[pipe]? with
  | none => (d,[])
  | some b =>
    let (b,woken,freed) := b.close pipeEnd
    ({ d with
        pipes := d.pipes.set pipe b
        freePipeBuffers := if freed then pipe :: d.freePipeBuffers else d.freePipeBuffers },
      wakeUps (waitingOn pipe pipeEnd) (-1) woken)

def unbind (address : SocketAddress) : Drivers :=
  { d with bindings := d.bindings.filter fun binding => binding.1 ≠ address }

/-- The socket drops its buffers. The last one that does so gives its address up. -/
def closeSocket (socket : Nat) : Drivers := match d.sockets[socket]? with
  | none => d
  | some data =>
    match data.data with
    | none => d
    | some buffers =>
      match d.socketBuffers[buffers]? with
      | none => d
      | some b =>
        let refCount := b.refCount-1
        let d := { d with
          sockets := d.sockets.set socket { data with data := none }
          socketBuffers := d.socketBuffers.set buffers { b with refCount := refCount } }
        if refCount = 0 ∧ data.address ≠ .unbound then d.unbind data.address else d

def close : DriverData → Drivers × List WakeUp
  | .dbgOut => (d,[])
  | .fileAllocationTable _ => (d,[])
  | .input input => ({ d with freeInputBuffers := input :: d.freeInputBuffers }, [])
  | .pipe pipe pipeEnd => d.closePipe pipe pipeEnd
  | .socket socket => (d.closeSocket socket,[])

def layPipe : Nat × Drivers := match d.freePipeBuffers with
  | [] => (d.pipes.length, { d with pipes := d.pipes ++ [⟨⟨fun _ => 0,0⟩,false,false,[],[]⟩] })
  | pipe :: rest => (pipe, { d with freePipeBuffers := rest })

def openInput : Nat × Drivers := match d.freeInputBuffers with
  | [] => (d.inputs.length, { d with inputs := d.inputs ++ [⟨⟨fun _ => 0,0⟩,[]⟩] })
  | input :: rest => (input, { d with freeInputBuffers := rest })

def socket (pid : Nat) : Nat × Drivers := (d.sockets.length, { d with
      fifos := d.fifos ++ [⟨socketTxBufferSize,⟨fun _ => 0,0⟩,[],[]⟩,
        ⟨socketRxBufferSize,⟨fun _ => 0,0⟩,[],[]⟩]
      socketBuffers := d.socketBuffers ++ [⟨d.fifos.length,d.fifos.length+1,1⟩]
      sockets := d.sockets ++ [⟨pid,.unbound,false,[],.client,some d.socketBuffers.length⟩] })

/-- The server's socket for a connection: a copy of the client's, which shares its buffers. -/
def acceptSocket (client : SocketData) : Nat × Drivers := (d.sockets.length, { d with
      sockets := d.sockets ++ [{ client with clientServer := .server }]
      socketBuffers := match client.data with
        | none => d.socketBuffers
        | some buffers =>
          d.socketBuffers.modify buffers fun b => { b with refCount := b.refCount+1 } })

def setSocket (socket : Nat) (data : SocketData) : Drivers := { d with sockets := d.sockets.set socket data }

/-- Refused where the address is bound already. -/
def bind (socket : Nat) (data : SocketData) (address : SocketAddress) : Option Drivers :=
  if d.bindings.any fun binding => binding.1 = address then none
  else some { d.setSocket socket { data with address := address } with
    bindings := d.bindings ++ [(address,socket)] }

def getBoundSocket (address : SocketAddress) : Option Nat :=
  (d.bindings.find? fun binding => binding.1 = address).map Prod.snd
end Drivers
end LensorOS.Kernel
