import LensorOS.Storage.PortController
import Mathlib.Data.List.DropRight

/-!
# The file allocation table driver

The boot record and the quantities derived from it, and the iterator over a directory, which holds
the entries of one cluster. Where the code leaves one of its vectors, an iteration has no result.
-/
namespace LensorOS.Storage
open Framework BitVec
def u16At (m : Bytes) (a : Nat) : BitVec 16 := m (a+1) ++ m a
def u32At (m : Bytes) (a : Nat) : BitVec 32 := u16At m (a+2) ++ u16At m a
def fatDirectorySizeBytes : Nat := 32

structure BiosParameterBlock where
  numBytesPerSector : BitVec 16
  numSectorsPerCluster : BitVec 8
  numReservedSectors : BitVec 16
  numFatsPresent : BitVec 8
  numEntriesInRoot : BitVec 16
  totalSectors16 : BitVec 16
  numSectorsPerFat : BitVec 16
  totalSectors32 : BitVec 32
  deriving DecidableEq, Repr

namespace BiosParameterBlock
variable (bpb : BiosParameterBlock)
def firstFatSector : BitVec 64 := bpb.numReservedSectors.setWidth 64

def clusterSize : BitVec 64 := bpb.numSectorsPerCluster.setWidth 64 * bpb.numBytesPerSector.setWidth 64

def rootDirectorySectors : BitVec 64 :=
  (bpb.numEntriesInRoot.setWidth 64 * BitVec.ofNat 64 fatDirectorySizeBytes +
    (bpb.numBytesPerSector.setWidth 64-1)) / bpb.numBytesPerSector.setWidth 64

def totalSectors : BitVec 32 :=
  if bpb.totalSectors16 = 0 then bpb.totalSectors32 else bpb.totalSectors16.setWidth 32
end BiosParameterBlock

/-- The boot record; of its extension only the size of the table is used. -/
structure BootRecord where
  bpb : BiosParameterBlock
  extendedNumSectorsPerFat : BitVec 32
  magic : BitVec 16
  deriving DecidableEq, Repr

inductive FatType
  | invalid | fat12 | fat16 | fat32 | exFat
  deriving DecidableEq, Repr

namespace BootRecord
def ofBytes (m : Bytes) : BootRecord where
  bpb :=
    { numBytesPerSector := u16At m 11
      numSectorsPerCluster := m 13
      numReservedSectors := u16At m 14
      numFatsPresent := m 16
      numEntriesInRoot := u16At m 17
      totalSectors16 := u16At m 19
      numSectorsPerFat := u16At m 22
      totalSectors32 := u32At m 32 }
  extendedNumSectorsPerFat := u32At m 36
  magic := u16At m 510

variable (br : BootRecord)
def fatSectors : BitVec 64 :=
  if br.bpb.numSectorsPerFat = 0 then br.extendedNumSectorsPerFat.setWidth 64
  else br.bpb.numSectorsPerFat.setWidth 64

def firstDataSector : BitVec 64 :=
  br.bpb.numReservedSectors.setWidth 64+br.bpb.numFatsPresent.setWidth 64 * br.fatSectors +
    br.bpb.rootDirectorySectors

def dataSectors : BitVec 64 := br.bpb.totalSectors.setWidth 64-br.firstDataSector
def totalClusters : BitVec 64 := br.dataSectors / br.bpb.numSectorsPerCluster.setWidth 64
def firstRootDirectorySector : BitVec 64 := br.firstDataSector-br.bpb.rootDirectorySectors

def clusterToSector (cluster : BitVec 64) : BitVec 64 :=
  (cluster-2) * br.bpb.numSectorsPerCluster.setWidth 64+br.firstDataSector

def sectorToCluster (sector : BitVec 64) : BitVec 64 :=
  (sector-br.firstDataSector) / br.bpb.numSectorsPerCluster.setWidth 64+2

def fatType : FatType :=
  if br.totalClusters = 0 then .exFat
  else if br.totalClusters.toNat < 4085 then .fat12
  else if br.totalClusters.toNat < 65525 then .fat16
  else .fat32

def valid : Bool :=
  br.magic == 0xaa55 && br.bpb.totalSectors != 0 && decide (512 ≤ br.bpb.numBytesPerSector.toNat) &&
    decide (br.bpb.numBytesPerSector.toNat ≤ 4096) &&
    br.bpb.numBytesPerSector &&& (br.bpb.numBytesPerSector-1) == 0 &&
    br.bpb.numSectorsPerCluster &&& (br.bpb.numSectorsPerCluster-1) == 0 &&
    decide (0 < br.bpb.numFatsPresent.toNat)

def clusterSectors : Nat := br.bpb.numSectorsPerCluster.toNat

/-- No division by zero and no wrap-around in the derived quantities, and the conversions
between clusters and sectors are inverse to each other. -/
structure WellDefined : Prop where
  divisor : br.clusterSectors ≠ 0
  clusterSize : br.bpb.clusterSize.toNat = br.clusterSectors * br.bpb.numBytesPerSector.toNat
  rootDirectory : br.bpb.rootDirectorySectors.toNat =
    (br.bpb.numEntriesInRoot.toNat * fatDirectorySizeBytes+(br.bpb.numBytesPerSector.toNat-1)) /
      br.bpb.numBytesPerSector.toNat
  firstData : br.firstDataSector.toNat = br.bpb.numReservedSectors.toNat +
    br.bpb.numFatsPresent.toNat * br.fatSectors.toNat+br.bpb.rootDirectorySectors.toNat
  firstRoot : br.firstRootDirectorySector.toNat+br.bpb.rootDirectorySectors.toNat =
    br.firstDataSector.toNat
  data : br.firstDataSector.toNat+br.dataSectors.toNat = br.bpb.totalSectors.toNat
  clusters : br.totalClusters.toNat = br.dataSectors.toNat / br.clusterSectors
  toSector : ∀ c, 2 ≤ c.toNat → c.toNat < br.totalClusters.toNat+2 → (br.clusterToSector c).toNat =
      (c.toNat-2) * br.clusterSectors+br.firstDataSector.toNat ∧
    br.sectorToCluster (br.clusterToSector c) = c
  toCluster : ∀ s, br.firstDataSector.toNat ≤ s.toNat → s.toNat < br.bpb.totalSectors.toNat →
    br.clusterSectors ∣ s.toNat-br.firstDataSector.toNat → (br.sectorToCluster s).toNat =
      (s.toNat-br.firstDataSector.toNat) / br.clusterSectors+2 ∧
    br.clusterToSector (br.sectorToCluster s) = s

section
variable {br} (h : br.valid = true)
theorem clusterSectors_eq : (br.bpb.numSectorsPerCluster.setWidth 64).toNat = br.clusterSectors :=
  toNat_setWidth_of_le (by decide)

theorem clusterToSector_toNat {c : BitVec 64} {k : Nat} (hk : c.toNat = k+2)
    (hl : k * br.clusterSectors+br.firstDataSector.toNat < 2^64) :
    (br.clusterToSector c).toNat = k * br.clusterSectors+br.firstDataSector.toNat := by
  have hle : (2 : BitVec 64) ≤ c := by
    rw [le_def,hk]
    exact Nat.le_add_left 2 k
  rw [clusterToSector,toNat_add,toNat_mul,toNat_sub_of_le hle,hk, clusterSectors_eq,Nat.mod_add_mod]
  exact Nat.mod_eq_of_lt hl

theorem sectorToCluster_toNat {s : BitVec 64} (hl : br.firstDataSector.toNat ≤ s.toNat)
    (hlt : s.toNat < 2^32) : (br.sectorToCluster s).toNat =
      (s.toNat-br.firstDataSector.toNat) / br.clusterSectors+2 := by
  have hq := Nat.div_le_self (s.toNat-br.firstDataSector.toNat) br.clusterSectors
  rw [sectorToCluster,toNat_add,toNat_udiv,clusterSectors_eq, toNat_sub_of_le (le_def.mpr hl)]
  exact Nat.mod_eq_of_lt (by simp; omega)

include h
theorem sectorSize_of_valid : 512 ≤ br.bpb.numBytesPerSector.toNat := by
  simp only [valid,Bool.and_eq_true,decide_eq_true_eq] at h
  exact h.1.1.1.1.2

theorem rootSectors_toNat : br.bpb.rootDirectorySectors.toNat =
    (br.bpb.numEntriesInRoot.toNat * fatDirectorySizeBytes+(br.bpb.numBytesPerSector.toNat-1)) /
      br.bpb.numBytesPerSector.toNat := by
  have hs := sectorSize_of_valid h
  have ho : (1 : BitVec 64).toNat = 1 := rfl
  simp only [BiosParameterBlock.rootDirectorySectors,toNat_udiv,toNat_add,
    toNat_mul,toNat_sub,toNat_setWidth,toNat_ofNat,
    fatDirectorySizeBytes,ho]
  congr 1 <;> omega

theorem rootSectors_le : br.bpb.rootDirectorySectors.toNat ≤ 4096 := by
  have hs := sectorSize_of_valid h
  rw [rootSectors_toNat h,fatDirectorySizeBytes]
  exact Nat.lt_succ_iff.mp (Nat.div_lt_of_lt_mul (by omega))

theorem firstDataSector_toNat : br.firstDataSector.toNat =
    br.bpb.numReservedSectors.toNat+br.bpb.numFatsPresent.toNat * br.fatSectors.toNat +
      br.bpb.rootDirectorySectors.toNat := by
  have hr := rootSectors_le h
  have hf : br.bpb.numFatsPresent.toNat * br.fatSectors.toNat < 2^8 * 2^32 := by
    refine Nat.mul_lt_mul'' br.bpb.numFatsPresent.isLt ?_
    rw [fatSectors]
    split <;> rw [toNat_setWidth_of_le (by decide)] <;> omega
  simp only [firstDataSector,toNat_add,toNat_mul,
    toNat_setWidth_of_le (show 8 ≤ 64 by decide),
    toNat_setWidth_of_le (show 16 ≤ 64 by decide)]
  omega

theorem wellDefined_of_data (hp : br.clusterSectors ≠ 0)
    (hle : br.firstDataSector.toNat ≤ br.bpb.totalSectors.toNat) : br.WellDefined := by
  have hf := firstDataSector_toNat h
  have hw : (br.bpb.totalSectors.setWidth 64).toNat = br.bpb.totalSectors.toNat := toNat_setWidth_of_le (by decide)
  have hd : br.dataSectors.toNat = br.bpb.totalSectors.toNat-br.firstDataSector.toNat := by
    rw [dataSectors,toNat_sub_of_le (by rwa [le_def,hw]),hw]
  have hcl : br.totalClusters.toNat = br.dataSectors.toNat / br.clusterSectors := by
    rw [totalClusters,toNat_udiv,clusterSectors_eq]
  refine ⟨hp,?_,rootSectors_toNat h,hf,?_,by omega,hcl,?_,?_⟩
  · have hl : br.clusterSectors * br.bpb.numBytesPerSector.toNat < 2^8 * 2^16 :=
      Nat.mul_lt_mul'' (isLt _) (isLt _)
    rw [BiosParameterBlock.clusterSize,toNat_mul,clusterSectors_eq, toNat_setWidth_of_le (by decide)]
    omega
  · rw [firstRootDirectorySector,toNat_sub_of_le (le_def.mpr (by omega))]
    omega
  · intro c hc hl
    have hm : (c.toNat-2) * br.clusterSectors ≤ br.dataSectors.toNat := Nat.mul_le_of_le_div _ _ _ (by omega)
    have ht : (br.clusterToSector c).toNat = _ := clusterToSector_toNat (Nat.sub_add_cancel hc).symm (by omega)
    refine ⟨ht,eq_of_toNat_eq ?_⟩
    rw [sectorToCluster_toNat (by omega) (by omega),ht,Nat.add_sub_cancel,
      Nat.mul_div_cancel _ (pos_of_ne_zero hp),Nat.sub_add_cancel hc]
  intro s hs hl hdv
  have ht := sectorToCluster_toNat hs (by omega)
  have hm := Nat.div_mul_cancel hdv
  refine ⟨ht,eq_of_toNat_eq ?_⟩
  rw [clusterToSector_toNat ht (by omega)]
  omega

/-- An accepted boot record has a well defined geometry exactly if a cluster has sectors and
the data area does not start behind the end of the volume. -/
theorem wellDefined_iff : br.WellDefined ↔ br.bpb.numSectorsPerCluster.toNat ≠ 0 ∧
    br.firstDataSector.toNat ≤ br.bpb.totalSectors.toNat := by
  constructor
  · intro hd
    exact ⟨hd.divisor,hd.data ▸ Nat.le_add_right _ _⟩
  · rintro ⟨hp,hl⟩
    exact wellDefined_of_data h hp hl

omit h
theorem wellDefined_floppy : valid ⟨⟨512,1,1,2,224,2880,9,0⟩,0,0xaa55⟩ = true ∧
    WellDefined ⟨⟨512,1,1,2,224,2880,9,0⟩,0,0xaa55⟩ :=
  ⟨by decide,(wellDefined_iff (by decide)).mpr (by decide)⟩

/-- A cluster of no sectors passes the test for a power of two, and the tables may reach behind
the end. -/
theorem wellDefined_unchecked : (valid ⟨⟨512,0,1,2,224,2880,9,0⟩,0,0xaa55⟩ = true ∧
      ¬ WellDefined ⟨⟨512,0,1,2,224,2880,9,0⟩,0,0xaa55⟩) ∧
    valid ⟨⟨512,1,1,2,224,20,9,0⟩,0,0xaa55⟩ = true ∧
      ¬ WellDefined ⟨⟨512,1,1,2,224,20,9,0⟩,0,0xaa55⟩ := by
  refine ⟨⟨by decide,fun h => h.divisor rfl⟩,by decide,fun h => ?_⟩
  have hd := h.data
  revert hd
  decide
end
end BootRecord

/-- The 32 bytes of a directory entry, short or long. -/
def ClusterEntry := Fin 32 → BitVec 8

namespace ClusterEntry
variable (e : ClusterEntry)
instance : DecidableEq ClusterEntry := inferInstanceAs (DecidableEq (Fin 32 → BitVec 8))

def zero : ClusterEntry := fun _ => 0

def slice (start n : Nat) : List (BitVec 8) := (List.range n).map fun k => e (Fin.ofNat 32 (start+k))

def fileName : List (BitVec 8) := e.slice 0 11
def attributes : BitVec 8 := e 11
def getClusterNumber : BitVec 32 := (e 21 ++ e 20) ++ (e 27 ++ e 26)
def fileSizeInBytes : BitVec 32 := (e 31 ++ e 30) ++ (e 29 ++ e 28)

def longFileName : Bool :=
  e.attributes.getLsbD 0 && e.attributes.getLsbD 1 && e.attributes.getLsbD 2 &&
    e.attributes.getLsbD 3

def volumeId : Bool := e.attributes.getLsbD 3
def directory : Bool := e.attributes.getLsbD 4

/-- The first byte of the name: zero ends the directory, 0xe5 marks a deleted entry. -/
def mark : BitVec 8 := e 0

/-- The three runs of characters of a long file name entry. -/
def characters : List (BitVec 8) := e.slice 1 10 ++ e.slice 14 12 ++ e.slice 28 4
end ClusterEntry

/-- A driver for the partition that starts at a byte offset of the disk. -/
structure FileAllocationTableDriver where
  disk : Bytes
  offset : BitVec 64
  br : BootRecord

namespace FileAllocationTableDriver
variable (d : FileAllocationTableDriver)
/-- The contents of the partition. -/
def device : Bytes := fun x => d.disk (d.offset.toNat+x)

/-- What the port returns to a request at an offset of the partition. -/
def returned (offs : BitVec 64) : Bytes := fun i =>
  d.disk (PortController.origin (offs+d.offset)+((offs+d.offset).toNat % bytesPerSector+i))

def type : FatType := d.br.fatType
def byteOffset (sector : BitVec 64) : BitVec 64 := sector * d.br.bpb.numBytesPerSector.setWidth 64

def entriesAt (offset : BitVec 64) : List ClusterEntry :=
  (List.range (d.br.bpb.clusterSize.toNat / fatDirectorySizeBytes)).map fun i k =>
    d.returned offset (fatDirectorySizeBytes * i+k)

def clusterEntries (cluster : BitVec 32) : List ClusterEntry :=
  d.entriesAt (d.byteOffset (d.br.clusterToSector (cluster.setWidth 64)))

/-- The state of an iteration. `ce` is the index of the current entry in the cluster. -/
structure Iterator where
  clusterIndex : BitVec 32
  clusterContents : List ClusterEntry := []
  lastFatSector : BitVec 64 := 0
  moreClusters : Bool := true
  clearLfn : Bool := false
  ce : Nat := 0
  byteOffset : BitVec 64 := 0
  fileName : List (BitVec 8) := []
  longFileName : List (BitVec 8) := []

variable (it : Iterator)
def Iterator.entry : ClusterEntry := it.clusterContents.getD it.ce .zero

/-- What the body of a loop over a directory sees. -/
structure Found where
  ce : ClusterEntry
  byteOffset : BitVec 64
  fileName : List (BitVec 8)
  longFileName : List (BitVec 8)

def Iterator.current : Found := ⟨it.entry,it.byteOffset,it.fileName,it.longFileName⟩

def readNextCluster : Iterator :=
  { it with
    clusterContents := d.clusterEntries it.clusterIndex
    ce := 0
    longFileName := []
    clearLfn := false }

def fatOffset (clusterNumber : BitVec 64) : BitVec 64 :=
  match d.type with
  | .fat12 => clusterNumber+clusterNumber / 2
  | .fat16 => clusterNumber * 2
  | _ => clusterNumber * 4

def entryWidth : Nat := match d.type with
  | .fat12 => 2
  | .fat16 => 2
  | _ => 4

/-- The size of the whole table, which every read of the table asks for. -/
def tableBytes : Nat := (d.byteOffset d.br.fatSectors).toNat

/-- The part of the table from a sector on. A request that is too long leaves the vector zero. -/
def readTable (fatSector : BitVec 64) : Bytes := fun i =>
  if d.tableBytes ≤ maxReadBytes ∧ i < d.tableBytes then d.returned (d.byteOffset fatSector) i else 0

/-- The value at an offset of the table, and if it names another cluster. -/
def tableValue (fat : Bytes) (clusterNumber : BitVec 64) (entryOffset : Nat) : BitVec 32 × Bool :=
  match d.type with
  | .fat12 =>
    let value := (u16At fat entryOffset).setWidth 32
    let value := if clusterNumber.getLsbD 0 then value >>> 4 else value &&& 0x0fff
    (value, decide (value.toNat < 0x0ff8))
  | .fat16 =>
    let value := (u16At fat entryOffset).setWidth 32
    (value, decide (value.toNat < 0xfff8))
  | .fat32 =>
    let value := u32At fat entryOffset &&& 0xfffffff
    (value, decide (value.toNat < 0x0ffffff8))
  | .exFat => (u32At fat entryOffset,true)
  | .invalid => (0,true)

def entryOffset (clusterNumber : BitVec 32) : Nat :=
  (d.fatOffset (clusterNumber.setWidth 64) % d.br.bpb.numBytesPerSector.setWidth 64).toNat

/-- The sector of the table that is looked at for a cluster, the value there, and if it names
another cluster. The first two bytes of a sector, and the sector that was looked at last, count
as the end of the chain. -/
def lookUp (lastFatSector : BitVec 64) (clusterNumber : BitVec 32) : Option (BitVec 64 × BitVec 32 × Bool) :=
  let fatOffset := d.fatOffset (clusterNumber.setWidth 64)
  let entryOffset := d.entryOffset clusterNumber
  let fatSector := d.br.bpb.firstFatSector+fatOffset / d.br.bpb.numBytesPerSector.setWidth 64
  if entryOffset ≤ 1 ∨ fatSector = lastFatSector then none
  else some (fatSector, d.tableValue (d.readTable fatSector) (clusterNumber.setWidth 64) entryOffset)

/-- The vector for a look at the table has one sector: a longer table is read over its end, and the
last entry of a sector may reach behind it. -/
def Overruns (lastFatSector : BitVec 64) (clusterNumber : BitVec 32) : Prop :=
  (d.lookUp lastFatSector clusterNumber).isSome = true ∧
    (d.br.bpb.numBytesPerSector.toNat < d.tableBytes ∧ d.tableBytes ≤ maxReadBytes ∨
      d.br.bpb.numBytesPerSector.toNat < d.entryOffset clusterNumber+d.entryWidth)

instance (lastFatSector : BitVec 64) (clusterNumber : BitVec 32) :
    Decidable (d.Overruns lastFatSector clusterNumber) := inferInstanceAs (Decidable (_ ∧ _))

/-- The next look of the iterator is behind the last entry of the cluster, or leads behind the
vector of the table. -/
def Strays : Prop := it.clusterContents.length ≤ it.ce ∨
  it.entry.mark = 0 ∧ d.Overruns it.lastFatSector it.entry.getClusterNumber

instance : Decidable (d.Strays it) := inferInstanceAs (Decidable (_ ∨ _))

/-- Read the next cluster if there is one. The number looked up in the table is taken from the
entry that ended the cluster. -/
def tryReadNextCluster : Iterator :=
  match d.lookUp it.lastFatSector it.entry.getClusterNumber with
  | none => { it with moreClusters := false }
  | some (fatSector,value,more) =>
    let it := { it with lastFatSector := fatSector, moreClusters := more, clusterIndex := value }
    if more then d.readNextCluster it else it

/-- Take the padding and the last character off a long file name. -/
def trimLongFileName (longFileName : List (BitVec 8)) : List (BitVec 8) :=
  let name := longFileName.rdropWhile (· == 0xff)
  if 2 < name.length then name.take (name.length-2) else name

def settle : Iterator :=
  { it with
    clearLfn := true
    fileName := it.entry.fileName
    longFileName := trimLongFileName it.longFileName
    byteOffset := d.byteOffset (d.br.clusterToSector (it.entry.getClusterNumber.setWidth 64)) }

def Iterator.clear : Iterator :=
  if it.clearLfn then { it with longFileName := [], clearLfn := false } else it

def Iterator.skip : Iterator := { it with ce := it.ce+1 }

def Iterator.extend : Iterator :=
  { it with longFileName := it.longFileName ++ it.entry.characters, ce := it.ce+1 }

/-- The two loops of `operator++`. A deleted entry is not stepped over. -/
def search : (fuel : Nat) → Iterator → Option Iterator
  | 0, _ => none
  | fuel+1, it =>
    if it.moreClusters = false then some it
    else if d.Strays it then none
    else if it.entry.mark = 0 then search fuel (d.tryReadNextCluster it)
    else if it.entry.mark = 0xe5 then search fuel it
    else if it.entry.longFileName then search fuel it.clear.extend
    else some (d.settle it.clear)

/-- `operator++` moves on from the current entry before it looks. -/
def increment (fuel : Nat) (it : Iterator) : Option Iterator := d.search fuel it.skip

def iterator (fuel : Nat) (directoryCluster : BitVec 32) : Option Iterator :=
  d.increment fuel (d.readNextCluster { clusterIndex := directoryCluster })

def visits (fuel : Nat) : (turns : Nat) → Iterator → Option (List Found)
  | 0, _ => none
  | turns+1, it =>
    if it.moreClusters then do
      let next ← d.increment fuel it
      let rest ← visits fuel turns next
      some (it.current :: rest)
    else some []

def forEachDirEntryIn (fuel : Nat) (directoryCluster : BitVec 32) : Option (List Found) :=
  (d.iterator fuel directoryCluster).bind (d.visits fuel fuel)
end FileAllocationTableDriver
end LensorOS.Storage
