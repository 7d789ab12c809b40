import LensorOS.Kernel.Events
import LensorOS.Kernel.VirtualFilesystem
import LensorOS.Storage.PortController

/-!
# Pointers from user space

The ranges of user memory that the system calls read or write, for each way through the call. Every
call checks the first address of what it is given and nothing else.
-/
namespace LensorOS.Syscalls
open List Option BitVec Storage
open Kernel (EventQueues eventQueueSize socketAddressSize socketTxBufferSize socketRxBufferSize)
structure Region where
  vaddr : BitVec 64
  length : BitVec 64
deriving DecidableEq

variable (memories : List Region)
def validAddress (vaddr : BitVec 64) : Bool :=
  vaddr != 0 && memories.any fun region =>
    decide (region.vaddr ≤ vaddr) && decide (vaddr < region.vaddr+region.length)

structure Range where
  address : BitVec 64
  length : Nat
deriving DecidableEq

/-- The bytes that `memcpy` copies. It compares with the count as a signed number, so that counts
from 2^63 on copy nothing. -/
def memcpyCount (numBytes : BitVec 64) : Nat := if numBytes.toInt < 0 then 0 else numBytes.toNat

/-- The end of what the loop of the serial output reads, from byte `i` on with `n` bytes to go. In
a colour code it looks for the final `m` before it asks whether a byte is left. -/
def uartLoop (text : Nat → BitVec 8) : (colour : Bool) → (i n : Nat) → Nat
  | false, i, 0 => i
  | true, i, 0 => i+1
  | false, i, n+1 => uartLoop text (text i == 0x1b) (i+1) n
  | true, i, n+1 => uartLoop text (text i != 0x6d) (i+1) n

/-- The bytes that the serial output goes through. It takes no more than 10^12 bytes. -/
def uartOut (initialized : Bool) (text : Nat → BitVec 8) (numberOfBytes : BitVec 64) : Nat :=
  if !initialized then 0
  else if numberOfBytes > 1000000000000 then 0 else uartLoop text false 0 numberOfBytes.toNat

/-- A file on a disk behind an AHCI port: its first byte on the port, and whether the commands of
the port succeed. -/
structure DiskFile where
  type : PortType
  byteOffset : BitVec 64
  readLowLevel : Bool
deriving DecidableEq

/-- The number of bytes copied to the buffer of the caller. -/
def DiskFile.readRaw (file : DiskFile) (byteOffset byteCount buffer : BitVec 64) : Nat :=
  if file.type ≠ .sata then 0
  else if buffer = 0 then 0
  else if maxReadBytes < byteCount.toNat then 0
  else if portBufferBytes < PortController.sectorsFor byteOffset byteCount * bytesPerSector then 0
  else if file.readLowLevel then memcpyCount byteCount else 0

/-- The number of bytes copied from the buffer of the caller. Whole sectors are written from the
buffer of the port, which the data is not copied to. -/
def DiskFile.writeRaw (file : DiskFile) (byteOffset byteCount buffer : BitVec 64) : Nat :=
  if file.type ≠ .sata then 0
  else if buffer = 0 then 0
  else if maxReadBytes < byteCount.toNat then 0
  else if portBufferBytes < PortController.sectorsFor byteOffset byteCount * bytesPerSector then 0
  else if byteOffset.toNat % bytesPerSector ≠ 0 ∨ byteCount.toNat % bytesPerSector ≠ 0 then
    if file.readLowLevel then memcpyCount byteCount else 0
  else 0

/-- The driver of an open file, with the write offsets of its buffers or whether the serial output
is initialised. -/
inductive FilesystemDriver
  | dbgOut (initialized : Bool)
  | input (offset : BitVec 64)
  | pipe (offset : BitVec 64)
  | socket (txRx : Option (BitVec 64 × BitVec 64)) (clientServer : SocketRole)
  | fileAllocationTable (file : DiskFile)
deriving DecidableEq

/-- A read from a buffer blocks when it is empty and is truncated to what is in it. -/
def bufferRead (offset byteCount : BitVec 64) : Nat := if offset = 0 then 0
  else memcpyCount (if byteCount > offset then offset else byteCount)

def fifoWrite (size : Nat) (offset byteCount : BitVec 64) : Nat :=
  if size < (offset+byteCount).toNat then 0 else memcpyCount byteCount

def inputWrite (offset bytes : BitVec 64) : Nat :=
  memcpyCount (if inputBufSize < (offset+bytes).toNat then .ofNat 64 inputBufSize-offset else bytes)

def pipeWrite (offset byteCount : BitVec 64) : Nat := if byteCount = 0 then 0
  else fifoWrite pipeBufSize offset (if pipeBufSize < byteCount.toNat then .ofNat 64 pipeBufSize else byteCount)

namespace FilesystemDriver
def read (driver : FilesystemDriver) (offset byteCount buffer : BitVec 64) : Nat :=
  match driver with
  | dbgOut _ => 0
  | input inputOffset => bufferRead inputOffset byteCount
  | pipe pipeOffset => bufferRead pipeOffset byteCount
  | socket none _ => 0
  | socket (some (tx,_)) .client => bufferRead tx byteCount
  | socket (some (_,rx)) .server => bufferRead rx byteCount
  | fileAllocationTable file => file.readRaw (file.byteOffset+offset) byteCount buffer

def write (driver : FilesystemDriver) (text : Nat → BitVec 8) (offset byteCount buffer : BitVec 64) : Nat :=
  match driver with
  | dbgOut initialized => uartOut initialized text byteCount
  | input inputOffset => inputWrite inputOffset byteCount
  | pipe pipeOffset => pipeWrite pipeOffset byteCount
  | socket none _ => 0
  | socket (some (_,rx)) .client => fifoWrite socketRxBufferSize rx byteCount
  | socket (some (tx,_)) .server => fifoWrite socketTxBufferSize tx byteCount
  | fileAllocationTable file => file.writeRaw (file.byteOffset+offset) byteCount buffer
end FilesystemDriver

/-- An open file with the state of its driver. -/
structure OpenFile extends Kernel.FileMetadata where
  driver : FilesystemDriver

structure MountPoint where
  path : List Char
  directory : List Char → Option (List Nat)

def sizeofTm : Nat := 36
def sizeofEvent : Nat := 144
def sizeofDirectoryEntry : Nat := 252
def sizeofName : Nat := 248

section
variable (memories : List Region)
/-- The bytes a read call writes to its buffer once the pointer is accepted. -/
def readCount (file : OpenFile) (buffer byteCount : BitVec 64) : Nat :=
  if file.offset ≥ file.fileSize then 0
  else
    let byteCount := if (file.offset+byteCount.toNat) % 2^64 > file.fileSize then
      .ofNat 64 (file.fileSize-file.offset) else byteCount
    file.driver.read (.ofNat 64 file.offset) byteCount buffer

/-- The bytes a write call reads from its buffer, where `text` stands. -/
def writeCount (file : OpenFile) (text : Nat → BitVec 8) (buffer byteCount : BitVec 64) : Nat :=
  file.driver.write text (.ofNat 64 file.offset) byteCount buffer

variable (file : Option OpenFile)
def sys2Read (buffer byteCount : BitVec 64) : List Range :=
  if !validAddress memories buffer then []
  else match file with
    | none => []
    | some file => [⟨buffer,readCount file buffer byteCount⟩]

def sys3Write (text : Nat → BitVec 8) (buffer byteCount : BitVec 64) : List Range :=
  if !validAddress memories buffer then []
  else match file with
    | none => []
    | some file => [⟨buffer,writeCount file text buffer byteCount⟩]

/-- The nine fields in the order in which they are set. -/
def fillTm (time : BitVec 64) : List Range := [0,1,2,6,3,4,7,5,8].map fun field => ⟨time+BitVec.ofNat 64 (4 * field),4⟩

def sys8Time (time : BitVec 64) : List Range := if time = 0 then []
  else if !validAddress memories time then [] else fillTm time

def sys13Pipe (fds : BitVec 64) : List Range :=
  if !validAddress memories fds then [] else [⟨fds,8⟩,⟨fds+8,8⟩]

def sys17Uart (initialized : Bool) (text : Nat → BitVec 8) (buffer size : BitVec 64) : List Range :=
  if validAddress memories buffer then [⟨buffer,uartOut initialized text size⟩] else []

def sys19Bind (address : BitVec 64) : List Range :=
  if !validAddress memories address then []
  else match file with
    | none => []
    | some _ => [⟨address,socketAddressSize⟩]

def sys21Connect (givenAddress addressLength : BitVec 64) : List Range :=
  if !validAddress memories givenAddress then [] else
    [⟨givenAddress,memcpyCount addressLength⟩]

/-- Both pointers are checked and neither is followed. -/
def sys22Accept (_address _addressLength : BitVec 64) : List Range := []

/-- The number of events of the queue a handle leads to: with no such handle what lies behind the
queues, or null for an empty vector. -/
def findQueue (queues : EventQueues) (handle : Int) : Option Nat := if queues.count = 0 then none
  else some ((queues.data (queues.find handle)).events.size eventQueueSize)

def changes (changelist : BitVec 64) (numChanges : Int) : List Range :=
  (List.range numChanges.toNat).flatMap fun i =>
    [⟨changelist+BitVec.ofNat 64 (sizeofEvent * i),4⟩,
      ⟨changelist+BitVec.ofNat 64 (sizeofEvent * i)+8,8⟩]

def sys24Kevent (queues : EventQueues) (handle : Int) (changelist : BitVec 64)
    (numChanges : Int) (eventlist : BitVec 64) (maxEvents : Int) : List Range :=
  if handle = -1 then []
  else if numChanges ≠ 0 ∧ !validAddress memories changelist then []
  else if maxEvents ≠ 0 ∧ !validAddress memories eventlist then []
  else match findQueue queues handle with
    | none => []
    | some events => changes changelist numChanges ++
      (List.range (min maxEvents.toNat events)).map fun i =>
        ⟨eventlist+BitVec.ofNat 64 (sizeofEvent * i),sizeofEvent⟩

def directoryEntry (dirp : BitVec 64) (i nameSize : Nat) : List Range :=
  [⟨dirp+BitVec.ofNat 64 (sizeofDirectoryEntry * i)+4,nameSize⟩,
    ⟨dirp+BitVec.ofNat 64 (sizeofDirectoryEntry * i),4⟩]

/-- The sizes of the names that are written: all mounts for the root, whatever the count, and up
to the count in a file system. -/
def listedNames (mounts : List MountPoint) (path : List Char) (count : BitVec 64) : List Nat :=
  if path.isEmpty ∨ path = ['/'] then mounts.map fun mount => mount.path.length
  else if path.head? ≠ some '/' then []
  else match mounts.find? fun mount => mount.path.isPrefixOf path with
    | none => []
    | some mount =>
      match mount.directory (path.drop mount.path.length) with
      | none => []
      | some names => (names.take count.toNat).map fun size => min size sizeofName

/-- The string is what stands at `path` up to a null byte. -/
def sys25DirectoryData (mounts : List MountPoint) (path : BitVec 64) (string : List Char)
    (dirp count : BitVec 64) : List Range := if count = 0 then []
  else if !validAddress memories path then []
  else if !validAddress memories dirp then []
  else ⟨path,string.length+1⟩ ::
    (listedNames mounts string count).zipIdx.flatMap fun (size,i) => directoryEntry dirp i size
end

inductive Call
  | read (file : Option OpenFile) (buffer byteCount : BitVec 64)
  | write (file : Option OpenFile) (text : Nat → BitVec 8) (buffer byteCount : BitVec 64)
  | time (time : BitVec 64)
  | pipe (fds : BitVec 64)
  | uart (initialized : Bool) (text : Nat → BitVec 8) (buffer size : BitVec 64)
  | bind (file : Option OpenFile) (address : BitVec 64)
  | connect (givenAddress addressLength : BitVec 64)
  | accept (address addressLength : BitVec 64)
  | kevent (queues : EventQueues) (handle : Int) (changelist : BitVec 64)
      (numChanges : Int) (eventlist : BitVec 64) (maxEvents : Int)
  | directoryData (mounts : List MountPoint) (path : BitVec 64) (string : List Char)
      (dirp count : BitVec 64)

def Call.accesses : Call → List Range
  | read file buffer byteCount => sys2Read memories file buffer byteCount
  | write file text buffer byteCount => sys3Write memories file text buffer byteCount
  | time address => sys8Time memories address
  | pipe fds => sys13Pipe memories fds
  | uart initialized text buffer size => sys17Uart memories initialized text buffer size
  | bind file address => sys19Bind memories file address
  | connect givenAddress addressLength => sys21Connect memories givenAddress addressLength
  | accept address addressLength => sys22Accept address addressLength
  | kevent queues handle changelist numChanges eventlist maxEvents =>
    sys24Kevent memories queues handle changelist numChanges eventlist maxEvents
  | directoryData mounts path string dirp count =>
    sys25DirectoryData memories mounts path string dirp count

def Region.Contains (region : Region) (address : BitVec 64) : Prop := (address-region.vaddr).toNat < region.length.toNat

def Inside (address : BitVec 64) : Prop := ∃ region ∈ memories, region.Contains address

def Range.Confined (range : Range) : Prop :=
  ∀ k < range.length, Inside memories (range.address+BitVec.ofNat 64 k)

def NoGap (range : Range) : Prop :=
  ∀ region ∈ memories, ∀ k, 0 < k → k < range.length →
    region.vaddr+region.length = range.address+BitVec.ofNat 64 k →
    Inside memories (range.address+BitVec.ofNat 64 k)

variable {address : BitVec 64}
section
variable {memories : List Region}
theorem inside_of_valid (h : validAddress memories address = true) : Inside memories address := by
  simp only [validAddress,Bool.and_eq_true,List.any_eq_true,decide_eq_true_eq] at h
  obtain ⟨-,region,hr,hl,hh⟩ := h
  refine ⟨region,hr,?_⟩
  rw [le_def] at hl
  rw [lt_def,toNat_add] at hh
  rw [Region.Contains,toNat_sub]
  omega

theorem contains_succ {region : Region} (h : region.Contains address) :
    region.Contains (address+1) ∨ region.vaddr+region.length = address+1 := by
  rw [Region.Contains] at h ⊢
  have hs : address+1-region.vaddr = address-region.vaddr+1 := by
    rw [BitVec.sub_eq_add_neg,BitVec.sub_eq_add_neg,BitVec.add_assoc,BitVec.add_assoc, BitVec.add_comm 1]
  rw [hs]
  by_cases hen : address-region.vaddr+1 = region.length
  · right
    rw [← hen,← hs]
    rw [BitVec.add_comm,BitVec.sub_add_cancel]
  left
  have hn : (address-region.vaddr+1).toNat ≠ region.length.toNat := fun he => hen (BitVec.eq_of_toNat_eq he)
  rw [toNat_add] at hn ⊢
  have ho : (1 : BitVec 64).toNat = 1 := rfl
  rw [ho] at hn ⊢
  omega

theorem offset_succ (address : BitVec 64) (k : Nat) : address+BitVec.ofNat 64 (k+1) = address+BitVec.ofNat 64 k+1 := by
  rw [BitVec.ofNat_add,BitVec.add_assoc]
  rfl

theorem confined_iff_noGap {range : Range} (hf : Inside memories range.address) :
    range.Confined memories ↔ NoGap memories range := by
  constructor
  · intro hc region _ k _ hk _
    exact hc k hk
  intro hg k hk
  induction k with
  | zero => simpa using hf
  | succ k ih =>
    obtain ⟨region,hr,hco⟩ := ih (by omega)
    rw [offset_succ]
    rcases contains_succ hco with hn | he
    · exact ⟨region,hr,hn⟩
    · rw [← offset_succ] at he ⊢
      exact hg region hr (k+1) (by omega) hk he

theorem confined_append {n m : Nat} :
    Range.Confined memories ⟨address,n+m⟩ ↔ Range.Confined memories ⟨address,n⟩ ∧
      Range.Confined memories ⟨address+BitVec.ofNat 64 n,m⟩ := by
  constructor
  · intro h
    refine ⟨fun k hk => h k (Nat.lt_add_right m hk),fun k hk => ?_⟩
    have hs := h (n+k) (Nat.add_lt_add_left hk n)
    rw [BitVec.ofNat_add,← BitVec.add_assoc] at hs
    exact hs
  rintro ⟨hl,hh⟩ k hk
  by_cases hkn : k < n
  · exact hl k hkn
  have hs := hh (k-n) (by dsimp only at hk ⊢; omega)
  rw [BitVec.add_assoc,← BitVec.ofNat_add,Nat.add_sub_cancel' (by omega)] at hs
  exact hs

theorem confined_blocks {size : Nat} (count : Nat) :
    Range.Confined memories ⟨address,size * count⟩ ↔ ∀ i < count,
      Range.Confined memories ⟨address+BitVec.ofNat 64 (size * i),size⟩ := by
  induction count with
  | zero => simp [Range.Confined]
  | succ count ih =>
    rw [Nat.mul_succ,confined_append,ih]
    constructor
    · rintro ⟨hb,hl⟩ i hi
      rcases Nat.lt_succ_iff_lt_or_eq.mp hi with hlt | rfl
      · exact hb i hlt
      · exact hl
    · intro ha
      exact ⟨fun i hi => ha i (by omega),ha count (by omega)⟩
end

def Covered (range : Range) : Prop := Inside memories range.address ∧ NoGap memories range

/-- What a call has to be given besides pointers that pass the checks, for each range that it
goes through from a checked pointer on. -/
def Call.Fits : Call → Prop
  | read file buffer byteCount => validAddress memories buffer → ∀ f ∈ file,
      NoGap memories ⟨buffer,readCount f buffer byteCount⟩
  | write file text buffer byteCount => validAddress memories buffer → ∀ f ∈ file,
      NoGap memories ⟨buffer,writeCount f text buffer byteCount⟩
  | time address => validAddress memories address → NoGap memories ⟨address,sizeofTm⟩
  | pipe fds => validAddress memories fds → NoGap memories ⟨fds,16⟩
  | uart initialized text buffer size => validAddress memories buffer →
      NoGap memories ⟨buffer,uartOut initialized text size⟩
  | bind file address => validAddress memories address → file.isSome →
      NoGap memories ⟨address,socketAddressSize⟩
  | connect givenAddress addressLength => validAddress memories givenAddress →
      NoGap memories ⟨givenAddress,memcpyCount addressLength⟩
  | accept _ _ => True
  | kevent queues handle changelist numChanges eventlist maxEvents =>
      handle ≠ -1 → (numChanges ≠ 0 → validAddress memories changelist) →
      (maxEvents ≠ 0 → validAddress memories eventlist) → ∀ events ∈ findQueue queues handle,
        (∀ i < numChanges.toNat, Covered memories ⟨changelist+BitVec.ofNat 64 (sizeofEvent * i),4⟩ ∧
          Covered memories ⟨changelist+BitVec.ofNat 64 (sizeofEvent * i)+8,8⟩) ∧
        NoGap memories ⟨eventlist,sizeofEvent * min maxEvents.toNat events⟩
  | directoryData mounts path string dirp count =>
      count ≠ 0 → validAddress memories path → validAddress memories dirp →
      NoGap memories ⟨path,string.length+1⟩ ∧ ∀ entry ∈ (listedNames mounts string count).zipIdx,
          Covered memories
            ⟨dirp+BitVec.ofNat 64 (sizeofDirectoryEntry * entry.2),4+entry.1⟩

section
variable {memories : List Region}
theorem confined_iff_covered {range : Range} (h : range.length ≠ 0) :
    range.Confined memories ↔ Covered memories range := by
  constructor
  · intro hc
    have hf : Inside memories range.address := by simpa using hc 0 (by omega)
    exact ⟨hf,(confined_iff_noGap hf).mp hc⟩
  · intro hco
    exact (confined_iff_noGap hco.1).mpr hco.2

theorem checked_iff {pointer : BitVec 64} {length : Nat} {ranges : List Range}
    (hr : (∀ range ∈ ranges, range.Confined memories) ↔
      Range.Confined memories ⟨pointer,length⟩) :
    (∀ range ∈ (if !validAddress memories pointer then [] else ranges), range.Confined memories) ↔
      (validAddress memories pointer → NoGap memories ⟨pointer,length⟩) := by
  by_cases hv : validAddress memories pointer = true
  · simp only [hv,Bool.not_true,Bool.false_eq_true,if_false,forall_const]
    rw [hr,confined_iff_noGap (inside_of_valid hv)]
  · simp [hv]

theorem fillTm_confined : (∀ range ∈ fillTm address, range.Confined memories) ↔
      Range.Confined memories ⟨address,sizeofTm⟩ := by
  have hf : ∀ i, i ∈ [0,1,2,6,3,4,7,5,8] ↔ i < 9 := by
    intro i
    simp only [mem_cons,not_mem_nil,or_false]
    omega
  rw [show sizeofTm = 4 * 9 from rfl,confined_blocks]
  simp only [fillTm,List.forall_mem_map,hf]

variable (file : Option OpenFile)
theorem read_confined (buffer byteCount : BitVec 64) :
    (∀ range ∈ sys2Read memories file buffer byteCount, range.Confined memories) ↔
      (Call.read file buffer byteCount).Fits memories := by
  cases file with
  | none => simp [sys2Read,Call.Fits]
  | some file =>
    simp only [Call.Fits,mem_def,some.injEq,forall_eq']
    exact checked_iff (by simp)

theorem write_confined (text : Nat → BitVec 8) (buffer byteCount : BitVec 64) :
    (∀ range ∈ sys3Write memories file text buffer byteCount, range.Confined memories) ↔
      (Call.write file text buffer byteCount).Fits memories := by
  cases file with
  | none => simp [sys3Write,Call.Fits]
  | some file =>
    simp only [Call.Fits,mem_def,some.injEq,forall_eq']
    exact checked_iff (by simp)

theorem sys8Time_confined (address : BitVec 64) :
    (∀ range ∈ sys8Time memories address, range.Confined memories) ↔
      (Call.time address).Fits memories := by
  by_cases hz : address = 0
  · simp [sys8Time,Call.Fits,hz,validAddress]
  · rw [sys8Time,if_neg hz]
    exact checked_iff fillTm_confined

theorem sys13Pipe_confined (fds : BitVec 64) :
    (∀ range ∈ sys13Pipe memories fds, range.Confined memories) ↔
      (Call.pipe fds).Fits memories := by
  apply checked_iff
  rw [show 16 = 8+8 from rfl,confined_append]
  simp

theorem sys17Uart_confined (initialized : Bool) (text : Nat → BitVec 8) (buffer size : BitVec 64) :
    (∀ range ∈ sys17Uart memories initialized text buffer size, range.Confined memories) ↔
      (Call.uart initialized text buffer size).Fits memories := by
  by_cases hv : validAddress memories buffer = true
  · have hf := inside_of_valid hv
    simp only [sys17Uart,Call.Fits,hv,if_true,mem_singleton,forall_eq,forall_const]
    exact confined_iff_noGap hf
  · simp [sys17Uart,Call.Fits,hv]

theorem bind_confined (address : BitVec 64) :
    (∀ range ∈ sys19Bind memories file address, range.Confined memories) ↔
      (Call.bind file address).Fits memories := by
  cases file with
  | none => simp [sys19Bind,Call.Fits]
  | some file =>
    simp only [Call.Fits,isSome_some,forall_const]
    exact checked_iff (by simp)

theorem connect_confined (givenAddress addressLength : BitVec 64) :
    (∀ range ∈ sys21Connect memories givenAddress addressLength, range.Confined memories) ↔
      (Call.connect givenAddress addressLength).Fits memories := checked_iff (by simp)

theorem changes_confined (changelist : BitVec 64) (numChanges : Int) :
    (∀ range ∈ changes changelist numChanges, range.Confined memories) ↔ ∀ i < numChanges.toNat,
        Covered memories ⟨changelist+BitVec.ofNat 64 (sizeofEvent * i),4⟩ ∧
        Covered memories ⟨changelist+BitVec.ofNat 64 (sizeofEvent * i)+8,8⟩ := by
  simp only [changes,mem_flatMap,mem_range]
  constructor
  · intro h i hi
    rw [← confined_iff_covered (by simp),← confined_iff_covered (by simp)]
    exact ⟨h _ ⟨i,hi,by simp⟩,h _ ⟨i,hi,by simp⟩⟩
  rintro h range ⟨i,hi,hr⟩
  obtain ⟨ht,hf⟩ := h i hi
  rw [← confined_iff_covered (by simp)] at ht hf
  simp only [mem_cons,not_mem_nil,or_false] at hr
  rcases hr with rfl | rfl
  · exact ht
  · exact hf

theorem sys24Kevent_confined (queues : EventQueues) (handle : Int)
    (changelist : BitVec 64) (numChanges : Int) (eventlist : BitVec 64) (maxEvents : Int) :
    (∀ range ∈ sys24Kevent memories queues handle changelist numChanges eventlist maxEvents,
      range.Confined memories) ↔
      (Call.kevent queues handle changelist numChanges eventlist maxEvents).Fits
        memories := by
  have he : ∀ events, (maxEvents ≠ 0 → validAddress memories eventlist) →
      ((∀ range ∈ (List.range (min maxEvents.toNat events)).map fun i =>
        (⟨eventlist+BitVec.ofNat 64 (sizeofEvent * i),sizeofEvent⟩ : Range),
        range.Confined memories) ↔
      NoGap memories ⟨eventlist,sizeofEvent * min maxEvents.toNat events⟩) := by
    intro events hv
    simp only [List.forall_mem_map,mem_range]
    rw [← confined_blocks]
    by_cases hm : maxEvents = 0
    · simp [hm,Range.Confined,NoGap]
    · exact confined_iff_noGap (inside_of_valid (hv hm))
  unfold sys24Kevent Call.Fits
  split
  · next hh => simp [hh]
  next hh =>
  split
  · next hc =>
    have hb : ¬ (numChanges ≠ 0 → validAddress memories changelist = true) := by simpa using hc
    simp [hb]
  · next hc =>
    have hc : numChanges ≠ 0 → validAddress memories changelist = true := by simpa using hc
    split
    · next hm =>
      have hb : ¬ (maxEvents ≠ 0 → validAddress memories eventlist = true) := by simpa using hm
      simp [hb]
    · next hm =>
      have hm : maxEvents ≠ 0 → validAddress memories eventlist = true := by simpa using hm
      cases hq : findQueue queues handle with
      | none => simp [hq]
      | some events =>
        simp only [forall_mem_append,changes_confined,he events hm,hq, mem_def,some.injEq,forall_eq']
        exact ⟨fun h _ _ _ => h,fun h => h hh hc hm⟩

theorem directoryEntry_confined (dirp : BitVec 64) (i nameSize : Nat) :
    (∀ range ∈ directoryEntry dirp i nameSize, range.Confined memories) ↔
      Covered memories ⟨dirp+BitVec.ofNat 64 (sizeofDirectoryEntry * i),4+nameSize⟩ := by
  rw [← confined_iff_covered (by dsimp only; omega),confined_append]
  simp only [directoryEntry,mem_cons,not_mem_nil,or_false,forall_eq_or_imp,forall_eq]
  exact and_comm

theorem sys25DirectoryData_confined (mounts : List MountPoint) (path : BitVec 64)
    (string : List Char) (dirp count : BitVec 64) :
    (∀ range ∈ sys25DirectoryData memories mounts path string dirp count, range.Confined memories) ↔
      (Call.directoryData mounts path string dirp count).Fits memories := by
  by_cases hc : count = 0
  · simp [sys25DirectoryData,Call.Fits,hc]
  by_cases hp : validAddress memories path = true
  · by_cases hd : validAddress memories dirp = true
    · have he : (∀ range ∈ (listedNames mounts string count).zipIdx.flatMap
          (fun entry => directoryEntry dirp entry.2 entry.1), range.Confined memories) ↔
          ∀ entry ∈ (listedNames mounts string count).zipIdx, Covered memories
            ⟨dirp+BitVec.ofNat 64 (sizeofDirectoryEntry * entry.2),4+entry.1⟩ := by
        simp only [forall_mem_flatMap,directoryEntry_confined]
      have hs : Range.Confined memories ⟨path,string.length+1⟩ ↔
          NoGap memories ⟨path,string.length+1⟩ := confined_iff_noGap (inside_of_valid hp)
      simp only [sys25DirectoryData,Call.Fits,hc,hp,hd,Bool.not_true,
        Bool.false_eq_true,if_false,forall_mem_cons,ne_eq,not_false_eq_true,forall_const]
      rw [hs]
      exact and_congr_right fun _ => he
    · simp [sys25DirectoryData,Call.Fits,hp,hd]
  · simp [sys25DirectoryData,Call.Fits,hp]

/-- The calls touch only the memory regions of the caller exactly when every range they work on
from a checked pointer has no gap, and each part of an array starts in a region. -/
theorem accesses_confined_iff (memories : List Region) (call : Call) :
    (∀ range ∈ call.accesses memories, range.Confined memories) ↔ call.Fits memories := by
  cases call with
  | read file buffer byteCount => exact read_confined file buffer byteCount
  | write file text buffer byteCount => exact write_confined file text buffer byteCount
  | time address => exact sys8Time_confined address
  | pipe fds => exact sys13Pipe_confined fds
  | uart initialized text buffer size => exact sys17Uart_confined initialized text buffer size
  | bind file address => exact bind_confined file address
  | connect givenAddress addressLength => exact connect_confined givenAddress addressLength
  | accept address addressLength => simp [Call.accesses,sys22Accept,Call.Fits]
  | kevent queues handle changelist numChanges eventlist maxEvents =>
    exact sys24Kevent_confined queues handle changelist numChanges eventlist maxEvents
  | directoryData mounts path string dirp count =>
    exact sys25DirectoryData_confined mounts path string dirp count

/-- The time is written over the end of the only region of the caller. -/
theorem accesses_not_confined : ¬ ∀ range ∈ (Call.time 0x1fff).accesses [⟨0x1000,0x1000⟩],
      range.Confined [⟨0x1000,0x1000⟩] := by
  intro h
  have hf := h ⟨0x1fff,4⟩ (by decide)
  obtain ⟨region,hr,hc⟩ := hf 1 (by decide)
  cases mem_singleton.mp hr
  revert hc
  unfold Region.Contains
  decide
end
end LensorOS.Syscalls
