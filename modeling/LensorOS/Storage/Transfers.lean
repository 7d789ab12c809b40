import LensorOS.Storage.FileReads

/-!
# Transfers of files

What a write of a file changes on the disk, through the file system, the partition and the port,
and what the callers of a read take for the contents of the disk.
-/
namespace LensorOS.Storage
open Framework
namespace PortController
variable {port : PortController} {byteOffset byteCount : BitVec 64}
theorem write_touched {x : Nat} (h : Accepted byteOffset byteCount)
    (hx : Touched byteOffset byteCount x) :
    ((blankPort byteOffset byteCount).writeRaw byteOffset byteCount
      (some (constant 1))).2.disk x = 1 := by
  have hi := le_sectors byteOffset byteCount
  obtain ⟨i,rfl⟩ := Nat.exists_eq_add_of_le hx.1
  rw [write_blank _ h,add_assoc]
  by_cases ha : Aligned byteOffset byteCount
  · have hz := ha.1
    rw [Touched,if_pos ha] at hx
    rw [stored_inside (by omega),staged,if_pos ha]
    rfl
  · rw [Touched,if_neg ha] at hx
    rw [stored_inside (by omega),staged_inside ha (by omega)]
    rfl

/-- The callers of a read: the boot record, the iteration of a directory and the loader. -/
inductive ReadCaller
  | tryCreate | readNextCluster | replaceUserspaceElf64Process

/-- The test of the result. The iteration has none, and the loader converts it to `bool`. -/
def ReadCaller.accepts : ReadCaller → Int → Bool
  | .tryCreate, n => n == 512
  | .readNextCluster, _ => true
  | .replaceUserspaceElf64Process, n => n != 0

def taken (port : PortController) (byteOffset byteCount : BitVec 64) (caller : ReadCaller)
    (dest : Bytes) : Option Bytes :=
  let read := port.readRaw byteOffset byteCount (some dest)
  if caller.accepts read.1 then read.2.1 else none

/-- A failed command is reported, and what a caller takes is what the disk holds. -/
structure Visible (port : PortController) (byteOffset byteCount : BitVec 64) : Prop where
  reported : (port.readLowLevel (byteOffset.toNat / bytesPerSector)
      (sectorsFor byteOffset byteCount)).1 = false →
    ∀ dest, (port.readRaw byteOffset byteCount (some dest)).1 < 0
  contents : ∀ caller dest read, port.taken byteOffset byteCount caller dest = some read →
    ∀ i < byteCount.toNat,
      read i = port.disk (origin byteOffset+(byteOffset.toNat % bytesPerSector+i))

theorem readRaw_failed (ht : port.type = .sata) (h : Accepted byteOffset byteCount)
    (hr : ¬ port.Ready byteOffset byteCount) (dest : Bytes) :
    (port.readLowLevel (byteOffset.toNat / bytesPerSector)
      (sectorsFor byteOffset byteCount)).1 = false ∧
    port.readRaw byteOffset byteCount (some dest) = ((byteCount.toNat : Int), some dest, port) := by
  have hl : port.readLowLevel (byteOffset.toNat / bytesPerSector)
      (sectorsFor byteOffset byteCount) = (false,port) := by
    rw [readLowLevel_eq (sector_lt byteOffset) (sectors_pos byteOffset byteCount) h.sectors_le]
    exact if_neg hr
  refine ⟨by rw [hl],?_⟩
  unfold readRaw
  rw [if_neg (not_not.mpr ht)]
  dsimp only
  rw [if_neg (not_lt.mpr h.1),if_neg (not_lt.mpr h.2),hl]

/-- A read that is issued to the device is visible to its callers exactly if it succeeds. -/
theorem visible_iff (htype : port.type = .sata) (h : Accepted byteOffset byteCount) :
    port.Visible byteOffset byteCount ↔ port.Ready byteOffset byteCount := by
  constructor
  · intro hv
    by_contra hr
    obtain ⟨hl,hre⟩ := readRaw_failed htype h hr (constant 0)
    have hn := hv.reported hl (constant 0)
    rw [hre] at hn
    exact absurd hn (by omega)
  intro hr
  constructor
  · rw [readLowLevel_eq (sector_lt byteOffset) (sectors_pos byteOffset byteCount)
      h.sectors_le,if_pos hr]
    exact fun hf => nomatch hf
  intro caller dest read ht i hi
  rw [taken,readRaw_eq port dest htype h hr] at ht
  obtain rfl := Option.some.inj (Option.ite_none_right_eq_some.mp ht).2
  have hre := Bytes.overwrite_inside dest (a := 0) (fun i =>
    port.disk (origin byteOffset+(byteOffset.toNat % bytesPerSector+i))) hi
  rwa [zero_add] at hre

theorem visible_blank : (blankPort 0 512).type = .sata ∧ (blankPort 0 512).Visible 0 512 :=
  ⟨rfl,(visible_iff rfl (by decide)).mpr blank_reaches⟩

/-- A busy device: the read is reported as complete, and every caller uses the old contents of
its buffer. -/
theorem taken_busy :
    ({ blankPort 0 512 with busy := maxSpin }.readLowLevel 0 1).1 = false ∧
      ∀ caller, taken { blankPort 0 512 with busy := maxSpin } 0 512 caller (constant 7) =
        some (constant 7) := by
  have hr : ¬ { blankPort 0 512 with busy := maxSpin }.Ready 0 512 := by decide
  obtain ⟨hl,hre⟩ := readRaw_failed rfl (by decide) hr (constant 7)
  refine ⟨hl,fun caller => ?_⟩
  rw [taken,hre]
  cases caller <;> rfl
end PortController

structure GPTPartitionDriver where
  driver : PortController
  offset : BitVec 64

def GPTPartitionDriver.write (device : GPTPartitionDriver) (offs byteCount : BitVec 64)
    (buffer : Option Bytes) : Int × GPTPartitionDriver :=
  let written := device.driver.writeRaw (offs+device.offset) byteCount buffer
  (written.1, { device with driver := written.2 })

namespace FileAllocationTableDriver
open PortController
def write (device : GPTPartitionDriver) (file : FileMetadata) (offset size : BitVec 64)
    (buffer : Option Bytes) : Int × GPTPartitionDriver :=
  device.write (file.driverData+offset) size buffer

/-- The system call on an open file: the result, the cursor and the device. -/
def sysWrite (device : GPTPartitionDriver) (file : FileMetadata) (cursor byteCount : BitVec 64)
    (buffer : Bytes) : Int × BitVec 64 × GPTPartitionDriver :=
  let (rc,device) := write device file (cursor+0) byteCount (some buffer)
  (rc,if 0 < rc then cursor+BitVec.ofInt 64 rc else cursor,device)

def Extent (d : FileAllocationTableDriver) (file : FileMetadata) (chain : List (BitVec 32)) (x : Nat) :
    Prop := ∃ i < file.fileSize.toNat, x = d.offset.toNat+d.home chain i

/-- A request at a cursor of a file that starts at the byte `start` of the disk ends in the file. An
empty request that starts a sector counts as the whole sector. -/
def Within (start : Nat) (cursor byteCount : BitVec 64) (size : Nat) : Prop :=
  if byteCount = 0 then (start+cursor.toNat) % bytesPerSector = 0 → cursor.toNat+bytesPerSector ≤ size
  else cursor.toNat+byteCount.toNat ≤ size

instance (start : Nat) (cursor byteCount : BitVec 64) (size : Nat) :
    Decidable (Within start cursor byteCount size) := inferInstanceAs (Decidable (ite _ _ _))

theorem touched_within {start size : Nat} {cursor byteCount address : BitVec 64}
    (ha : address.toNat = start+cursor.toNat) (hl : address.toNat < 2^24 * bytesPerSector) :
    (∀ x, Touched address byteCount x → start ≤ x ∧ x < start+size) ↔
      Within start cursor byteCount size := by
  have hb : bytesPerSector = 512 := rfl
  have hs : origin address+address.toNat % bytesPerSector = start+cursor.toNat := by
    rw [origin,addressed_low ((Nat.div_lt_iff_lt_mul (by decide)).mpr hl),Nat.div_add_mod',ha]
  simp only [Touched,hs]
  by_cases hz : byteCount = 0
  · subst hz
    have h0 : (0 : BitVec 64).toNat = 0 := rfl
    have hse : sectorsFor address 0 = 1 := by
      have hm := Nat.mod_lt address.toNat (show 0 < bytesPerSector by decide)
      rw [sectorsFor,h0,if_pos (by omega)]
    rw [Within,if_pos rfl,← ha]
    by_cases hal : address.toNat % bytesPerSector = 0
    · rw [if_pos ⟨hal,rfl⟩,hse]
      refine ⟨fun h _ => ?_,fun h x hx => ?_⟩
      · have hla := h (start+cursor.toNat+511) (by omega)
        omega
      · have hle := h hal
        omega
    · rw [if_neg fun h => hal h.1,h0]
      exact ⟨fun _ h => absurd h hal,fun _ x hx => by omega⟩
  · have hp : 0 < byteCount.toNat := Nat.pos_of_ne_zero fun h => hz (BitVec.eq_of_toNat_eq h)
    have hle : (if Aligned address byteCount then sectorsFor address byteCount * bytesPerSector
        else byteCount.toNat) = byteCount.toNat := by
      split
      · next hal =>
        obtain ⟨h1,h2⟩ := hal
        dsimp only [sectorsFor]
        rw [hb] at *
        split <;> omega
      · rfl
    rw [hle,Within,if_neg hz]
    refine ⟨fun h => ?_,fun h x hx => by omega⟩
    have hla := h (start+cursor.toNat+(byteCount.toNat-1)) (by omega)
    omega

theorem whole_chain : wholeVolume.ClusterChain [3,4] :=
  chain_of_small (by decide) (by decide) (by decide) (by decide) (by decide) (by decide)

end FileAllocationTableDriver
end LensorOS.Storage
