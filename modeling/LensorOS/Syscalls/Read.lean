import LensorOS.Storage.Buffers

/-!
# Reading from a stream

The read system call compares the cursor of a file description with its file size, which for a stream
is the size of a buffer.
-/
namespace LensorOS.Syscalls
open Framework Storage
inductive SocketRole
  | client
  | server
deriving DecidableEq

inductive StreamDriver
  | pipe (buffer : PipeBuffer)
  | socket (tx rx : FIFOBuffer) (role : SocketRole)
  | input (buffer : InputBuffer)

namespace StreamDriver
def readable : StreamDriver → Stream
  | pipe buffer => buffer.stream
  | socket tx _ .client => tx.stream
  | socket _ rx .server => rx.stream
  | input buffer => buffer.stream

def read (driver : StreamDriver) (pid byteCount : Nat) : Transfer × StreamDriver :=
  match driver with
  | pipe buffer =>
    let outcome := buffer.read pid byteCount
    (outcome.result,pipe outcome.buffer)
  | socket tx rx .client =>
    let outcome := tx.read pid byteCount
    (outcome.result,socket outcome.buffer rx .client)
  | socket tx rx .server =>
    let outcome := rx.read pid byteCount
    (outcome.result,socket tx outcome.buffer .server)
  | input buffer =>
    let outcome := buffer.read pid byteCount
    (outcome.result,input outcome.buffer)

def write (driver : StreamDriver) (pid : Nat) (bytes : Bytes) (byteCount : Nat) :
    Transfer × StreamDriver := match driver with
  | pipe buffer =>
    let outcome := buffer.write pid bytes byteCount
    (outcome.result,pipe outcome.buffer)
  | socket tx rx .client =>
    let outcome := rx.write pid bytes byteCount
    (outcome.result,socket tx outcome.buffer .client)
  | socket tx rx .server =>
    let outcome := tx.write pid bytes byteCount
    (outcome.result,socket outcome.buffer rx .server)
  | input buffer =>
    let outcome := buffer.write bytes byteCount
    (outcome.result,input outcome.buffer)
end StreamDriver

structure Description where
  offset : Nat
  fileSize : Nat
  driver : StreamDriver

namespace Description
variable (d : Description)
/-- Move the cursor by what was moved, and return it; nothing is returned to a caller that
sleeps. -/
def finish (result : Transfer × StreamDriver) : Option Int × Description :=
  match result.1 with
  | .error => (some (-1), { d with driver := result.2 })
  | .blocks => (none, { d with driver := result.2 })
  | .done bytes =>
    (some bytes.length, { d with
        offset := (d.offset+bytes.length) % 2^64
        driver := result.2 })

def sys2Read (valid : Bool) (pid byteCount : Nat) : Option Int × Description :=
  if !valid then (some 0,d)
  else if d.offset ≥ d.fileSize then (some 0,d)
  else
    let byteCount := if (d.offset+byteCount) % 2^64 > d.fileSize then
      d.fileSize-d.offset else byteCount
    d.finish (d.driver.read pid byteCount)

def sys3Write (valid : Bool) (pid : Nat) (bytes : Bytes) (byteCount : Nat) :
    Option Int × Description :=
  if !valid then (some 0,d) else d.finish (d.driver.write pid bytes byteCount)

inductive Call
  | read (pid byteCount : Nat)
  | write (pid : Nat) (bytes : Bytes) (byteCount : Nat)
  | otherRead (pid byteCount : Nat)
  | otherWrite (pid : Nat) (bytes : Bytes) (byteCount : Nat)

def step : Call → Option Description
  | .read pid byteCount => some (d.sys2Read true pid byteCount).2
  | .write pid bytes byteCount => some (d.sys3Write true pid bytes byteCount).2
  | .otherRead pid byteCount => some { d with driver := (d.driver.read pid byteCount).2 }
  | .otherWrite pid bytes byteCount =>
    some { d with driver := (d.driver.write pid bytes byteCount).2 }

def pipeReadEnd : Description where
  offset := 0
  fileSize := pipeBufSize
  driver := .pipe ⟨⟨fun _ => 0,0⟩,false,false,[],[]⟩
end Description

theorem StreamDriver.read_result {driver : StreamDriver} (h : driver.readable.offset ≠ 0)
    (pid byteCount : Nat) : (driver.read pid byteCount).1 =
      .done (Stream.bytes driver.readable.data (min byteCount driver.readable.offset)) := by
  cases driver with
  | pipe buffer => exact PipeBuffer.read_result h
  | socket tx rx role =>
    cases role with
    | client | server => exact FIFOBuffer.read_result h
  | input buffer => exact InputBuffer.read_result h

namespace Description
variable {d : Description}
theorem sys2Read_result {pid byteCount : Nat} (hd : d.driver.readable.offset ≠ 0)
    (hc : d.offset < d.fileSize) :
    (d.sys2Read true pid byteCount).1 = some ((min (if (d.offset+byteCount) % 2^64 > d.fileSize
      then d.fileSize-d.offset else byteCount) d.driver.readable.offset : Nat) : Int) := by
  have hn := not_le.mpr hc
  simp only [sys2Read,Bool.not_true,Bool.false_eq_true,if_false,hn,finish,
    StreamDriver.read_result hd,Stream.bytes_length]

/-- With a byte in the buffer, a read of at least one byte returns a positive count exactly when
the cursor is below the file size. -/
theorem sys2Read_positive_iff {pid byteCount : Nat} (hcount : 0 < byteCount)
    (hdata : d.driver.readable.offset ≠ 0) :
    (∃ n : Int, 0 < n ∧ (d.sys2Read true pid byteCount).1 = some n) ↔ d.offset < d.fileSize := by
  constructor
  · rintro ⟨n,hn,hr⟩
    by_contra he
    have he := Nat.le_of_not_lt he
    simp only [sys2Read,Bool.not_true,Bool.false_eq_true,if_false,he,if_true, Option.some.injEq] at hr
    omega
  intro hc
  refine ⟨_,?_,sys2Read_result hdata hc⟩
  have ho := pos_of_ne_zero hdata
  have ha : 0 < (if (d.offset+byteCount) % 2^64 > d.fileSize then
      d.fileSize-d.offset else byteCount) := by
    split <;> omega
  exact_mod_cast Nat.lt_min.mpr ⟨ha,ho⟩

theorem sys2Read_positive_pipe :
    let d := { pipeReadEnd with driver := .pipe ⟨⟨fun _ => 7,1⟩,false,false,[],[]⟩ }
    ∃ n : Int, 0 < n ∧ (d.sys2Read true 1 16).1 = some n :=
  (sys2Read_positive_iff (by decide) (by decide)).mpr (by decide)

/-- After 512 bytes went through a pipe, a byte in its buffer can not be read. -/
theorem sys2Read_exhausted : ∃ d, Reachable (· = pipeReadEnd) step anyStep d ∧
    d.driver.readable.offset ≠ 0 ∧ (d.sys2Read true 1 16).1 = some 0 := Reachable.exists_run rfl
    [.otherWrite 2 (fun _ => 7) 512,.read 1 512,.otherWrite 2 (fun _ => 7) 1] (by decide +kernel)
end Description
end LensorOS.Syscalls
