import LensorOS.Framework.Bytes

/-!
# The AHCI port

A request for bytes of the disk is rounded to sectors, which the device moves between the disk and
the buffer of the port.
-/
namespace LensorOS.Storage
open Framework Bytes
def maxReadBytes : Nat := 0x100 * 4096
def bytesPerSector : Nat := 512
def portBufferPages : Nat := 0x100
def portBufferBytes : Nat := portBufferPages * 0x1000
def ataCmdWriteDmaExt : BitVec 8 := 0x35
def ataCmdReadDmaExt : BitVec 8 := 0x25

inductive PortType
  | none | sata | semb | pm | satapi
  deriving DecidableEq, Repr

structure FisRegH2D where
  type : BitVec 8 := 0
  commandControl : Bool := false
  command : BitVec 8 := 0
  lba0 : BitVec 8 := 0
  lba1 : BitVec 8 := 0
  lba2 : BitVec 8 := 0
  deviceRegister : BitVec 8 := 0
  lba3 : BitVec 8 := 0
  lba4 : BitVec 8 := 0
  lba5 : BitVec 8 := 0
  countLow : BitVec 8 := 0
  countHigh : BitVec 8 := 0
  deriving DecidableEq, Repr

namespace FisRegH2D
variable (fis : FisRegH2D)
def setLogicalBlockAddresses (sector : BitVec 64) : FisRegH2D :=
  let sectorLow := sector.setWidth 32
  let sectorHigh := (sector >>> 32).setWidth 32
  { fis with
    lba0 := sectorLow.setWidth 8
    lba1 := (sectorLow >>> 8).setWidth 8
    lba2 := (sectorLow >>> 16).setWidth 8
    lba3 := sectorHigh.setWidth 8
    lba4 := (sectorHigh >>> 8).setWidth 8
    lba5 := (sectorHigh >>> 16).setWidth 8 }

def setCount (newCount : BitVec 16) : FisRegH2D :=
  { fis with countLow := newCount.setWidth 8, countHigh := (newCount >>> 8).setWidth 8 }

/-- The sector that the device takes from the six address bytes, lowest byte first. -/
def address : Nat :=
  fis.lba0.toNat+fis.lba1.toNat * 2^8+fis.lba2.toNat * 2^16+fis.lba3.toNat * 2^24 +
    fis.lba4.toNat * 2^32+fis.lba5.toNat * 2^40

/-- The number of sectors that the device takes from the count bytes; zero stands for 65536. -/
def sectorCount : Nat :=
  let count := fis.countLow.toNat+fis.countHigh.toNat * 2^8
  if count = 0 then 2^16 else count
end FisRegH2D

structure HbaCommand where
  write : Bool
  byteCount : BitVec 22
  commandFis : FisRegH2D
  deriving DecidableEq, Repr

def buildCommand (write : Bool) (sector sectors : BitVec 64) : HbaCommand where
  write := write
  byteCount := ((sectors <<< 9)-1).setWidth 22
  commandFis :=
    let commandFis : FisRegH2D :=
      { type := 0x27, commandControl := true,
        command := if write then ataCmdWriteDmaExt else ataCmdReadDmaExt }
    let commandFis := commandFis.setLogicalBlockAddresses sector
    let commandFis := { commandFis with deviceRegister := 1 <<< 6 }
    commandFis.setCount (sectors.setWidth 16)

/-- The sector that the device is told for a sector of the disk: bits 24 to 31 are left out,
and the bits above them take their place. -/
def addressed (sector : Nat) : Nat := sector % 2^24+2^24 * (sector / 2^32 % 2^24)

theorem command_addressed (write : Bool) (sector sectors : BitVec 64) :
    (buildCommand write sector sectors).commandFis.address = addressed sector.toNat := by
  simp only [buildCommand,FisRegH2D.setCount,FisRegH2D.setLogicalBlockAddresses,
    FisRegH2D.address,BitVec.toNat_setWidth,BitVec.toNat_ushiftRight,
    Nat.shiftRight_eq_div_pow,addressed]
  omega

variable {sector : Nat}
theorem addressed_low (h : sector < 2^24) : addressed sector = sector := by
  simp only [addressed]
  omega

theorem addressed_high (h : 2^24 ≤ sector) : addressed sector < sector := by
  simp only [addressed]
  omega

/-- A command names the sector it is built for only below the sector 2^24. -/
theorem buildCommand_address_eq_iff (write : Bool) (sector sectors : BitVec 64) :
    (buildCommand write sector sectors).commandFis.address = sector.toNat ↔
      sector.toNat < 2^24 := by
  rw [command_addressed]
  constructor
  · intro h
    by_contra hh
    exact (addressed_high (not_lt.mp hh)).ne h
  · exact addressed_low

/-- The sectors 0 and 2^24 get the same address. -/
theorem buildCommand_address_aliased :
    (buildCommand false (2^24) 1).commandFis.address = 0 ∧
      (buildCommand true (2^24) 1).commandFis.address = 0 ∧
      (buildCommand true 0 1).commandFis.address = 0 := by decide

section
variable (write : Bool) (sector : BitVec 64) {sectors : Nat} (hpos : 0 < sectors) (h : sectors ≤ 2048)
include hpos h
theorem command_sectorCount :
    (buildCommand write sector (BitVec.ofNat 64 sectors)).commandFis.sectorCount = sectors := by
  simp only [buildCommand,FisRegH2D.setCount,FisRegH2D.setLogicalBlockAddresses,
    FisRegH2D.sectorCount,BitVec.toNat_setWidth,BitVec.toNat_ushiftRight,
    Nat.shiftRight_eq_div_pow,BitVec.toNat_ofNat]
  have hc : sectors % 2^64 % 2^16 % 2^8+sectors % 2^64 % 2^16 / 2^8 % 2^8 * 2^8 = sectors := by omega
  rw [hc,if_neg (by omega)]

theorem command_byteCount :
    (buildCommand write sector (BitVec.ofNat 64 sectors)).byteCount.toNat+1 =
      sectors * bytesPerSector := by
  have ho : (1 : BitVec 64).toNat = 1 := rfl
  simp only [buildCommand,BitVec.toNat_setWidth,BitVec.toNat_sub,BitVec.toNat_shiftLeft,
    BitVec.toNat_ofNat,Nat.shiftLeft_eq,ho,bytesPerSector]
  omega
end

/-- A port with the disk behind it. The device is busy for the first `busy` looks at its task
file, and refuses a command that leaves its `capacity`, counted in sectors. -/
structure PortController where
  type : PortType
  buffer : Bytes
  disk : Bytes
  capacity : Nat
  busy : Nat

namespace PortController
def maxSpin : Nat := 1000000

variable (port : PortController)
def execute (command : HbaCommand) : Option PortController :=
  let first := command.commandFis.address
  let sectors := command.commandFis.sectorCount
  let bytes := min (sectors * bytesPerSector) (command.byteCount.toNat+1)
  if port.capacity < first+sectors then none
  else if command.write then
    some { port with disk := port.disk.overwrite (first * bytesPerSector) bytes port.buffer }
  else
    some { port with
      buffer := port.buffer.overwrite 0 bytes fun i => port.disk (first * bytesPerSector+i) }

/-- Wait for the device, build a command and issue it. -/
def lowLevel (write : Bool) (port : PortController) (sector sectors : Nat) : Bool × PortController :=
  if maxSpin ≤ port.busy then (false,port)
  else
    match port.execute (buildCommand write (BitVec.ofNat 64 sector) (BitVec.ofNat 64 sectors)) with
    | none => (false,port)
    | some port => (true,port)

def readLowLevel (sector sectors : Nat) : Bool × PortController :=
  lowLevel false port sector sectors

def writeLowLevel (sector sectors : Nat) : Bool × PortController :=
  lowLevel true port sector sectors

def sectorsFor (byteOffset byteCount : BitVec 64) : Nat :=
  let byteOffsetWithinSector := byteOffset.toNat % bytesPerSector
  if byteOffsetWithinSector+byteCount.toNat ≤ bytesPerSector then 1
  else (byteOffsetWithinSector+byteCount.toNat+bytesPerSector-1) / bytesPerSector

/-- A read into `buffer`. A read that fails in the device is reported as complete. -/
def readRaw (byteOffset byteCount : BitVec 64) (buffer : Option Bytes) :
    Int × Option Bytes × PortController :=
  if port.type ≠ .sata then (-1,buffer,port)
  else
    match buffer with
    | none => (-1,none,port)
    | some buffer =>
      if maxReadBytes < byteCount.toNat then (-1,some buffer,port)
      else
        let sector := byteOffset.toNat / bytesPerSector
        let byteOffsetWithinSector := byteOffset.toNat % bytesPerSector
        let sectors := sectorsFor byteOffset byteCount
        if portBufferBytes < sectors * bytesPerSector then (-1,some buffer,port)
        else
          match port.readLowLevel sector sectors with
          | (true,port) =>
            (byteCount.toNat, some (buffer.overwrite 0 byteCount.toNat fun i =>
              port.buffer (byteOffsetWithinSector+i)), port)
          | (false,port) => (byteCount.toNat,some buffer,port)

/-- A write from `buffer`. A request that is aligned at both ends goes to the device without
the bytes of `buffer` being copied to the buffer of the port. -/
def writeRaw (byteOffset byteCount : BitVec 64)
    (buffer : Option Bytes) : Int × PortController :=
  if port.type ≠ .sata then (-1,port)
  else
    match buffer with
    | none => (-1,port)
    | some buffer =>
      if maxReadBytes < byteCount.toNat then (-1,port)
      else
        let sector := byteOffset.toNat / bytesPerSector
        let byteOffsetWithinSector := byteOffset.toNat % bytesPerSector
        let sectors := sectorsFor byteOffset byteCount
        if portBufferBytes < sectors * bytesPerSector then (-1,port)
        else if byteOffsetWithinSector ≠ 0 ∨ byteCount.toNat % bytesPerSector ≠ 0 then
          match port.readLowLevel sector sectors with
          | (false,port) => (-1,port)
          | (true,port) =>
            let port := { port with
              buffer := port.buffer.overwrite byteOffsetWithinSector byteCount.toNat buffer }
            match port.writeLowLevel sector sectors with
            | (false,port) => (-1,port)
            | (true,port) => (byteCount.toNat,port)
        else
          match port.writeLowLevel sector sectors with
          | (false,port) => (-1,port)
          | (true,port) => (byteCount.toNat,port)

section
variable {port port' : PortController} {byteOffset byteCount : BitVec 64} {data : Bytes} {i sectors : Nat}
def Accepted (byteOffset byteCount : BitVec 64) : Prop :=
  byteCount.toNat ≤ maxReadBytes ∧
    sectorsFor byteOffset byteCount * bytesPerSector ≤ portBufferBytes

instance (byteOffset byteCount : BitVec 64) : Decidable (Accepted byteOffset byteCount) :=
  inferInstanceAs (Decidable (_ ∧ _))

def Aligned (byteOffset byteCount : BitVec 64) : Prop :=
  byteOffset.toNat % bytesPerSector = 0 ∧ byteCount.toNat % bytesPerSector = 0

instance (byteOffset byteCount : BitVec 64) : Decidable (Aligned byteOffset byteCount) :=
  inferInstanceAs (Decidable (_ ∧ _))

/-- The device is ready and holds all the sectors that it is told. -/
def Reaches (port : PortController) (sector sectors : Nat) : Prop :=
  port.busy < maxSpin ∧ addressed sector+sectors ≤ port.capacity

instance (port : PortController) (sector sectors : Nat) :
    Decidable (port.Reaches sector sectors) :=
  inferInstanceAs (Decidable (_ ∧ _))

theorem sectors_pos (byteOffset byteCount : BitVec 64) : 0 < sectorsFor byteOffset byteCount := by
  dsimp [sectorsFor]
  split
  · exact one_pos
  · simp only [bytesPerSector] at *
    omega

theorem le_sectors (byteOffset byteCount : BitVec 64) :
    byteOffset.toNat % bytesPerSector+byteCount.toNat ≤
      sectorsFor byteOffset byteCount * bytesPerSector := by
  dsimp [sectorsFor]
  split <;> simp only [bytesPerSector] at * <;> omega

theorem Accepted.sectors_le (h : Accepted byteOffset byteCount) : sectorsFor byteOffset byteCount ≤ 2048 := by
  have hf := h.2
  exact Nat.le_of_mul_le_mul_right hf (by decide)

def fetched (port : PortController) (sector sectors : Nat) : PortController :=
  { port with
    buffer := port.buffer.overwrite 0 (sectors * bytesPerSector) fun i =>
      port.disk (addressed sector * bytesPerSector+i) }

def stored (port : PortController) (sector sectors : Nat) : PortController :=
  { port with
    disk := port.disk.overwrite (addressed sector * bytesPerSector) (sectors * bytesPerSector)
      port.buffer }

section
variable {sector sectors : Nat}
theorem execute_reaches (write : Bool) (hse : sector < 2^64) (hpos : 0 < sectors)
    (hs : sectors ≤ 2048) :
    port.execute (buildCommand write (BitVec.ofNat 64 sector) (BitVec.ofNat 64 sectors)) =
      if port.capacity < addressed sector+sectors then none
      else if write then some (port.stored sector sectors)
      else some (port.fetched sector sectors) := by
  have ha := command_addressed write (BitVec.ofNat 64 sector) (BitVec.ofNat 64 sectors)
  rw [BitVec.toNat_ofNat,Nat.mod_eq_of_lt hse] at ha
  have hc := command_sectorCount write (BitVec.ofNat 64 sector) hpos hs
  have hb := command_byteCount write (BitVec.ofNat 64 sector) hpos hs
  have hw : (buildCommand write (BitVec.ofNat 64 sector) (BitVec.ofNat 64 sectors)).write = write := rfl
  simp [execute,ha,hc,hb,hw,stored,fetched]

theorem lowLevel_eq (write : Bool) (hse : sector < 2^64) (hpos : 0 < sectors)
    (hs : sectors ≤ 2048) :
    lowLevel write port sector sectors =
      if port.Reaches sector sectors then
        (true,if write then port.stored sector sectors else port.fetched sector sectors)
      else (false,port) := by
  unfold lowLevel
  by_cases hb : maxSpin ≤ port.busy
  · rw [if_pos hb,if_neg fun h => not_lt.mpr hb h.1]
  rw [if_neg hb,execute_reaches write hse hpos hs]
  by_cases hc : port.capacity < addressed sector+sectors
  · rw [if_pos hc,if_neg fun h => not_lt.mpr h.2 hc]
  have hr : port.Reaches sector sectors := ⟨not_le.mp hb,not_lt.mp hc⟩
  rw [if_neg hc,if_pos hr]
  cases write <;> rfl

theorem readLowLevel_eq (hse : sector < 2^64) (hpos : 0 < sectors)
    (hs : sectors ≤ 2048) :
    port.readLowLevel sector sectors =
      if port.Reaches sector sectors then (true,port.fetched sector sectors) else (false,port) :=
  lowLevel_eq false hse hpos hs

theorem writeLowLevel_eq (hse : sector < 2^64) (hpos : 0 < sectors)
    (hs : sectors ≤ 2048) :
    port.writeLowLevel sector sectors =
      if port.Reaches sector sectors then (true,port.stored sector sectors) else (false,port) :=
  lowLevel_eq true hse hpos hs
end

theorem sector_lt (byteOffset : BitVec 64) : byteOffset.toNat / bytesPerSector < 2^64 :=
  (Nat.div_le_self _ _).trans_lt byteOffset.isLt

/-- Where the bytes that come before a request in its first sector are. -/
abbrev origin (byteOffset : BitVec 64) : Nat :=
  addressed (byteOffset.toNat / bytesPerSector) * bytesPerSector

abbrev Ready (port : PortController) (byteOffset byteCount : BitVec 64) : Prop :=
  port.Reaches (byteOffset.toNat / bytesPerSector) (sectorsFor byteOffset byteCount)

abbrev put (port : PortController) (byteOffset byteCount : BitVec 64) : PortController :=
  port.stored (byteOffset.toNat / bytesPerSector) (sectorsFor byteOffset byteCount)

def staged (port : PortController) (byteOffset byteCount : BitVec 64) (data : Bytes) :
    PortController := if Aligned byteOffset byteCount then port
  else
    let port := port.fetched (byteOffset.toNat / bytesPerSector) (sectorsFor byteOffset byteCount)
    { port with buffer := port.buffer.overwrite (byteOffset.toNat % bytesPerSector) byteCount.toNat
                            data }

theorem readRaw_eq (port : PortController) (dest : Bytes) (ht : port.type = .sata) (h : Accepted byteOffset byteCount)
    (hr : port.Ready byteOffset byteCount) : port.readRaw byteOffset byteCount (some dest) =
      ((byteCount.toNat : Int), some (dest.overwrite 0 byteCount.toNat fun i =>
        port.disk (origin byteOffset + (byteOffset.toNat % bytesPerSector+i))),
        port.fetched (byteOffset.toNat / bytesPerSector) (sectorsFor byteOffset byteCount)) := by
  have hi := le_sectors byteOffset byteCount
  unfold readRaw
  rw [if_neg (not_not.mpr ht)]
  dsimp only
  rw [if_neg (not_lt.mpr h.1),if_neg (not_lt.mpr h.2),
    readLowLevel_eq (sector_lt byteOffset) (sectors_pos byteOffset byteCount) h.sectors_le,
    if_pos hr]
  simp only [Prod.mk.injEq,Option.some.injEq,true_and,and_true]
  funext x
  simp only [overwrite,fetched]
  by_cases hx : x < byteCount.toNat
  · rw [if_pos (by omega),if_pos (by omega),if_pos (by omega),Nat.sub_zero,Nat.sub_zero]
  · rw [if_neg (by omega),if_neg (by omega)]

theorem Reaches.buffer (h : port.Reaches sector sectors) (buffer : Bytes) :
    Reaches { port with buffer := buffer } sector sectors := h

theorem writeRaw_eq (ht : port.type = .sata) (h : Accepted byteOffset byteCount) :
    port.writeRaw byteOffset byteCount (some data) = if port.Ready byteOffset byteCount then
        ((byteCount.toNat : Int), (port.staged byteOffset byteCount data).put byteOffset byteCount)
      else (-1,port) := by
  have hs := sector_lt byteOffset
  have hpos := sectors_pos byteOffset byteCount
  unfold writeRaw
  rw [if_neg (not_not.mpr ht)]
  dsimp only
  rw [if_neg (not_lt.mpr h.1),if_neg (not_lt.mpr h.2)]
  rw [readLowLevel_eq hs hpos h.sectors_le]
  by_cases ha : Aligned byteOffset byteCount
  · rw [if_neg (not_or.mpr ⟨not_not.mpr ha.1,not_not.mpr ha.2⟩),staged,
      if_pos ha,writeLowLevel_eq hs hpos h.sectors_le]
    by_cases hr : port.Ready byteOffset byteCount
    · simp [hr]
    · simp [hr]
  rw [if_pos (Decidable.not_and_iff_not_or_not.mp ha),staged,if_neg ha]
  by_cases hr : port.Ready byteOffset byteCount
  · rw [if_pos hr]
    dsimp only
    have hf : (port.fetched (byteOffset.toNat / bytesPerSector)
        (sectorsFor byteOffset byteCount)).Ready byteOffset byteCount := hr
    rw [writeLowLevel_eq hs hpos h.sectors_le,if_pos hr,if_pos (hf.buffer _)]
  · simp [hr]

theorem write_refused (h : ¬ (port.type = .sata ∧ Accepted byteOffset byteCount)) :
    port.writeRaw byteOffset byteCount (some data) = (-1,port) := by
  unfold writeRaw
  split
  · rfl
  · next ht =>
    dsimp only
    split
    · rfl
    · next hc =>
      split
      · rfl
      · next hf =>
        exact absurd ⟨not_not.mp ht,not_lt.mp hc,not_lt.mp hf⟩ h

theorem write_success
    (hs : (port.writeRaw byteOffset byteCount (some data)).1 = byteCount.toNat) :
    port.type = .sata ∧ Accepted byteOffset byteCount ∧ port.Ready byteOffset byteCount := by
  have hf : ((-1 : Int)) ≠ byteCount.toNat := by omega
  have ha : port.type = .sata ∧ Accepted byteOffset byteCount := by
    by_contra hr
    rw [write_refused hr] at hs
    exact hf hs
  refine ⟨ha.1,ha.2,?_⟩
  by_contra hre
  rw [writeRaw_eq ha.1 ha.2,if_neg hre] at hs
  exact hf hs

theorem staged_inside (ha : ¬ Aligned byteOffset byteCount)
    (hi : i < byteCount.toNat) :
    (port.staged byteOffset byteCount data).buffer (byteOffset.toNat % bytesPerSector+i) =
      data i := by
  rw [staged,if_neg ha]
  exact overwrite_inside _ _ hi

theorem staged_outside (ha : ¬ Aligned byteOffset byteCount)
    (hi : i < sectorsFor byteOffset byteCount * bytesPerSector)
    (ho : i < byteOffset.toNat % bytesPerSector ∨
      byteOffset.toNat % bytesPerSector+byteCount.toNat ≤ i) :
    (port.staged byteOffset byteCount data).buffer i = port.disk (origin byteOffset+i) := by
  rw [staged,if_neg ha]
  dsimp only
  rw [overwrite_outside _ _ ho,fetched]
  have hr := overwrite_inside port.buffer (a := 0) (fun i => port.disk
    (origin byteOffset+i)) hi
  rwa [zero_add] at hr

theorem staged_disk : (port.staged byteOffset byteCount data).disk = port.disk := by
  unfold staged
  split <;> rfl

theorem stored_inside (hi : i < sectors * bytesPerSector) :
    (port.stored sector sectors).disk (addressed sector * bytesPerSector+i) = port.buffer i :=
  overwrite_inside _ _ hi

theorem stored_outside {x : Nat} (h : x < addressed sector * bytesPerSector ∨
      addressed sector * bytesPerSector+sectors * bytesPerSector ≤ x) :
    (port.stored sector sectors).disk x = port.disk x := overwrite_outside _ _ h

/-- The bytes of the disk that a write gives other contents. An empty request that starts a
sector is aligned at both ends and stores the whole sector. -/
def Touched (byteOffset byteCount : BitVec 64) (x : Nat) : Prop :=
  let start := origin byteOffset+byteOffset.toNat % bytesPerSector
  start ≤ x ∧ x < start +
    if Aligned byteOffset byteCount then sectorsFor byteOffset byteCount * bytesPerSector
    else byteCount.toNat

theorem write_untouched {x : Nat} (hx : ¬ Touched byteOffset byteCount x) :
    (port.writeRaw byteOffset byteCount (some data)).2.disk x = port.disk x := by
  by_cases ha : port.type = .sata ∧ Accepted byteOffset byteCount
  · rw [writeRaw_eq ha.1 ha.2]
    split
    · by_cases hin : origin byteOffset ≤ x ∧
          x < origin byteOffset+sectorsFor byteOffset byteCount * bytesPerSector
      · obtain ⟨i,rfl⟩ := Nat.exists_eq_add_of_le hin.1
        have hi : i < sectorsFor byteOffset byteCount * bytesPerSector := by omega
        have hal : ¬ Aligned byteOffset byteCount := by
          intro hal
          apply hx
          rw [Touched,if_pos hal,hal.1]
          omega
        rw [Touched,if_neg hal] at hx
        rw [stored_inside hi]
        exact staged_outside hal hi (by omega)
      · unfold origin at hin
        rw [stored_outside (by omega),staged_disk]
    · rfl
  · rw [write_refused ha]

/-- A successful write of `byteCount` bytes is read back, and no other byte of the disk
changes. -/
structure RoundTrip (port : PortController) (byteOffset byteCount : BitVec 64) (data : Bytes) :
    Prop where
  readBack : ∀ dest, ∃ read, ((port.writeRaw byteOffset byteCount (some data)).2.readRaw
    byteOffset byteCount (some dest)).2.1 = some read ∧ ∀ i < byteCount.toNat, read i = data i
  outside : ∀ x, x < byteOffset.toNat ∨ byteOffset.toNat+byteCount.toNat ≤ x →
    (port.writeRaw byteOffset byteCount (some data)).2.disk x = port.disk x

theorem readRaw_stored (port : PortController) (dest : Bytes) (ht : port.type = .sata)
    (h : Accepted byteOffset byteCount) (hr : port.Ready byteOffset byteCount) :
    ∃ read, ((port.put byteOffset byteCount).readRaw byteOffset byteCount (some dest)).2.1 =
          some read ∧
      ∀ i < byteCount.toNat, read i = port.buffer (byteOffset.toNat % bytesPerSector+i) := by
  have hin := le_sectors byteOffset byteCount
  rw [readRaw_eq (port.put byteOffset byteCount) dest ht h hr]
  refine ⟨_,rfl,fun i hi => ?_⟩
  have hre := overwrite_inside dest (a := 0) (fun i =>
    (port.put byteOffset byteCount).disk
      (origin byteOffset + (byteOffset.toNat % bytesPerSector+i))) hi
  rw [zero_add] at hre
  rw [hre]
  exact stored_inside (by omega)

theorem roundTrip_unaligned (hal : ¬ Aligned byteOffset byteCount)
    (had : byteCount.toNat = 0 ∨ byteOffset.toNat / bytesPerSector < 2^24)
    (hs : (port.writeRaw byteOffset byteCount (some data)).1 = byteCount.toNat) :
    RoundTrip port byteOffset byteCount data := by
  obtain ⟨hty,ha,hr⟩ := write_success hs
  have ho := Nat.div_add_mod' byteOffset.toNat bytesPerSector
  have hw : (port.writeRaw byteOffset byteCount (some data)).2 =
      (port.staged byteOffset byteCount data).put byteOffset byteCount := by
    rw [writeRaw_eq hty ha,if_pos hr]
  have ht' : (port.staged byteOffset byteCount data).type = .sata := by
    rw [staged,if_neg hal]
    exact hty
  have hr' : (port.staged byteOffset byteCount data).Ready byteOffset byteCount := by
    rw [staged,if_neg hal]
    exact hr
  constructor
  · intro dest
    rw [hw]
    obtain ⟨read,hre,hb⟩ := readRaw_stored _ dest ht' ha hr'
    exact ⟨read,hre,fun i hi => (hb i hi).trans (staged_inside hal hi)⟩
  intro x hx
  refine write_untouched fun ht => ?_
  rw [Touched,if_neg hal] at ht
  rcases had with hz | hl
  · omega
  · rw [origin,addressed_low hl] at ht
    omega

def constant (v : BitVec 8) : Bytes := fun _ => v

def blankPort (byteOffset byteCount : BitVec 64) : PortController where
  type := .sata
  buffer := constant 1
  disk := constant 0
  capacity := addressed (byteOffset.toNat / bytesPerSector)+sectorsFor byteOffset byteCount
  busy := 0

theorem one_ne_zero_byte : (1 : BitVec 8) ≠ 0 := by decide

theorem blank_reaches : (blankPort byteOffset byteCount).Ready byteOffset byteCount := ⟨Nat.zero_lt_succ _,le_rfl⟩

theorem write_blank (data : Bytes) (h : Accepted byteOffset byteCount) :
    (blankPort byteOffset byteCount).writeRaw byteOffset byteCount (some data) =
      ((byteCount.toNat : Int), ((blankPort byteOffset byteCount).staged byteOffset byteCount
        data).put byteOffset byteCount) := by rw [writeRaw_eq rfl h,if_pos blank_reaches]

theorem not_roundTrip_aligned (h : Accepted byteOffset byteCount)
    (ha : Aligned byteOffset byteCount) :
    ¬ RoundTrip (blankPort byteOffset byteCount) byteOffset byteCount (constant 0) := by
  intro hr
  have hw := write_blank (constant 0) h
  have hs : (blankPort byteOffset byteCount).staged byteOffset byteCount (constant 0) =
      blankPort byteOffset byteCount := if_pos ha
  rw [hs] at hw
  by_cases hz : byteCount.toNat = 0
  · have ho := hr.outside
      (origin byteOffset+0) (by omega)
    have hpos := sectors_pos byteOffset byteCount
    rw [hw,stored_inside (mul_pos hpos (by decide))] at ho
    exact one_ne_zero_byte ho
  obtain ⟨read,hre,hd⟩ := hr.readBack (constant 0)
  rw [hw] at hre
  obtain ⟨read',hr',hb⟩ := readRaw_stored (blankPort byteOffset byteCount) (constant 0) rfl h blank_reaches
  obtain rfl := Option.some.inj (hre.symm.trans hr')
  have hf := (hd 0 (by omega)).symm.trans (hb 0 (by omega))
  exact one_ne_zero_byte hf.symm

theorem not_roundTrip_high (h : Accepted byteOffset byteCount)
    (ha : ¬ Aligned byteOffset byteCount) (hpos : 0 < byteCount.toNat)
    (hh : 2^24 ≤ byteOffset.toNat / bytesPerSector) :
    ¬ RoundTrip (blankPort byteOffset byteCount) byteOffset byteCount (constant 1) := by
  intro hr
  have hi := le_sectors byteOffset byteCount
  have hof := Nat.div_add_mod' byteOffset.toNat bytesPerSector
  have hb : origin byteOffset < byteOffset.toNat / bytesPerSector * bytesPerSector :=
    Nat.mul_lt_mul_of_pos_right (addressed_high hh) (by decide)
  have ho := hr.outside (origin byteOffset + (byteOffset.toNat % bytesPerSector+0)) (by omega)
  rw [write_blank _ h,stored_inside (by omega),staged_inside ha hpos] at ho
  exact one_ne_zero_byte ho

/-- Every successful write of a request is read back and leaves the other bytes of the disk
alone, for all contents, exactly if the request is not aligned at both ends and, when it has
any bytes, starts below the sector 2^24. -/
theorem roundTrip_iff (h : Accepted byteOffset byteCount) :
    (∀ (port : PortController) (data : Bytes),
      (port.writeRaw byteOffset byteCount (some data)).1 = byteCount.toNat →
        RoundTrip port byteOffset byteCount data) ↔ ¬ Aligned byteOffset byteCount ∧
        (byteCount.toNat = 0 ∨ byteOffset.toNat / bytesPerSector < 2^24) := by
  constructor
  · intro hr
    have hs (data : Bytes) : ((blankPort byteOffset byteCount).writeRaw byteOffset byteCount
        (some data)).1 = byteCount.toNat := by rw [write_blank _ h]
    have ha : ¬ Aligned byteOffset byteCount := fun ha =>
      not_roundTrip_aligned h ha (hr _ _ (hs _))
    refine ⟨ha,?_⟩
    by_contra hn
    rw [not_or,not_lt] at hn
    exact not_roundTrip_high h ha (pos_of_ne_zero hn.1) hn.2 (hr _ _ (hs _))
  · intro hre port data hs
    exact roundTrip_unaligned hre.1 hre.2 hs

theorem roundTrip_iff_five : Accepted 513 5 ∧ RoundTrip (blankPort 513 5) 513 5 (constant 7) := by
  have ha : Accepted 513 5 := by decide
  have hs := congrArg Prod.fst (write_blank (constant 7) ha)
  exact ⟨ha,(roundTrip_iff ha).mpr (by decide) _ _ hs⟩

/-- A whole sector of zeros, written from a port whose buffer is full of ones. -/
theorem roundTrip_lost_sector : Accepted 0 512 ∧
    ((blankPort 0 512).writeRaw 0 512 (some (constant 0))).1 = (512 : BitVec 64).toNat ∧
    ¬ RoundTrip (blankPort 0 512) 0 512 (constant 0) := by
  have ha : Accepted 0 512 := by decide
  have hs := congrArg Prod.fst (write_blank (constant 0) ha)
  exact ⟨ha,hs,not_roundTrip_aligned ha (by decide)⟩
end
end PortController
end LensorOS.Storage
