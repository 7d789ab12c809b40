import LensorOS.Storage.DirectoryListing
import Mathlib.Data.List.Chain

/-!
# Opening and reading files

A path is resolved from the root directory on. The file that is found keeps the byte offset of its
first cluster, and a read goes to that offset plus the offset in the file.
-/
namespace LensorOS.Storage
open Framework List Option BootRecord
namespace FilePath
def slash : BitVec 8 := 0x2f
def period : BitVec 8 := 0x2e
def space : BitVec 8 := 0x20

def stripSlash (path : List (BitVec 8)) : List (BitVec 8) :=
  if path.head? = some slash then path.drop 1 else path

def popFilenameFromFrontOfPath (rawPath : List (BitVec 8)) : List (BitVec 8) × List (BitVec 8) :=
  let path := stripSlash rawPath
  if path = [] then (rawPath,rawPath)
  else
    match path.findIdx? (· == slash) with
    | none => (path,path)
    | some firstSep =>
      let out := path.take firstSep
      let rest := path.drop firstSep
      -- A trailing separator counts as the end of the path.
      (out,if rest = [slash] then out else rest)

def toUpper (c : BitVec 8) : BitVec 8 := if 97 ≤ c.toNat ∧ c.toNat ≤ 122 then c-32 else c

def codepointBytes (codepoint : BitVec 16) : List (BitVec 8) := [codepoint.setWidth 8,(codepoint >>> 8).setWidth 8]

def piece (c : BitVec 8) (mask : BitVec 32) (shift : Nat) : BitVec 32 := (c.setWidth 32 &&& mask) <<< shift

def toUtf16 : List (BitVec 8) → List (BitVec 8)
  | [] => []
  | c :: rest =>
    if c &&& 0x80 = 0 then c :: 0 :: toUtf16 rest
    else if c &&& 0xf8 = 0xf0 then
      match rest with
      | c1 :: c2 :: c3 :: rest =>
        let codepoint := piece c 7 18 ||| piece c1 0x3f 12 ||| piece c2 0x3f 6 ||| piece c3 0x3f 0
        let adjusted := codepoint-0x10000
        let leading := (0xd800+(adjusted &&& (0x3ff <<< 10))).setWidth 16
        let trailing := (0xdc00+(adjusted &&& 0x3ff)).setWidth 16
        codepointBytes leading ++ codepointBytes trailing ++ toUtf16 rest
      | _ => []
    else if c &&& 0xf0 = 0xe0 then
      match rest with
      | c1 :: c2 :: rest =>
        codepointBytes ((piece c 0xf 12 ||| piece c1 0x3f 6 ||| piece c2 0x3f 0).setWidth 16) ++
          toUtf16 rest
      | _ => []
    else if c &&& 0xe0 = 0xc0 then
      match rest with
      | c1 :: rest =>
        codepointBytes ((piece c 0x1f 6 ||| piece c1 0x3f 0).setWidth 16) ++ toUtf16 rest
      | _ => []
    else toUtf16 rest

def translateFilename (rawFilename : List (BitVec 8)) : List (BitVec 8) :=
  let path := rawFilename.map toUpper
  if path.length = 12 ∧ path[8]? = some period then path.eraseIdx 8
  else if path.length ≤ 12 then
    match path.reverse.findIdx? (· == period) with
    | some fromEnd =>
      let lastDot := path.length-1-fromEnd
      if 8 < lastDot then rawFilename
      else
        let extension := (path.drop (lastDot+1) ++ [space,space,space]).take 3
        let name := path.take lastDot
        name ++ replicate (8-name.length) space ++ extension
    | none =>
      if 8 < path.length then toUtf16 rawFilename
      else path ++ replicate (11-path.length) space
  else path
end FilePath

inductive FileType
  | regular | directory
  deriving DecidableEq, Repr

structure FileMetadata where
  type : FileType
  name : List (BitVec 8)
  fileSize : BitVec 64
  driverData : BitVec 64
  deriving DecidableEq, Repr

namespace FileAllocationTableDriver
open FilePath
variable (d : FileAllocationTableDriver)
def dataOffset (e : ClusterEntry) : BitVec 64 := d.byteOffset (d.br.clusterToSector (e.getClusterNumber.setWidth 64))

def findEntry (fuel : Nat) (filename : List (BitVec 8)) : (turns : Nat) → Iterator →
    Option (Option Found)
  | 0, _ => none
  | turns+1, it =>
    if it.moreClusters then
      if it.fileName = filename ∨ it.longFileName = filename then some (some it.current)
      else (d.increment fuel it).bind (findEntry fuel filename turns)
    else some none

def makeMetadata (filename : List (BitVec 8)) (found : Found) : FileMetadata where
  type := if found.ce.directory then .directory else .regular
  name := filename
  fileSize := found.ce.fileSizeInBytes.setWidth 64
  driverData := found.byteOffset

/-- Resolve a path. There is no result if the fuel runs out. -/
def traversePath (fuel : Nat) : (depth : Nat) → List (BitVec 8) → BitVec 32 →
    Option (Option FileMetadata)
  | 0, _, _ => none
  | depth+1, rawPath, directoryCluster =>
    let directoryCluster := if directoryCluster = -1 then
        (d.br.sectorToCluster d.br.firstRootDirectorySector).setWidth 32
      else directoryCluster
    let rawPath := stripSlash rawPath
    if rawPath = [] then some none
    else
      let (rawFilename,path) := popFilenameFromFrontOfPath rawPath
      let filename := translateFilename rawFilename
      match (d.iterator fuel directoryCluster).bind (d.findEntry fuel filename fuel) with
      | none => none
      | some none => some none
      | some (some found) =>
        if path = rawFilename then some (some (makeMetadata filename found))
        else if found.ce.directory then traversePath fuel depth path found.ce.getClusterNumber
        else some none

def openFile (fuel : Nat) (rawPath : List (BitVec 8)) : Option (Option FileMetadata) :=
  d.traversePath fuel fuel rawPath (-1)

/-- The cluster of the directory that a path leads to, or -1. -/
def traversePathForCluster (fuel : Nat) : (depth : Nat) → List (BitVec 8) → BitVec 32 →
    Option (BitVec 32)
  | 0, _, _ => none
  | depth+1, rawPath, directoryCluster =>
    let (rawFilename,path) := popFilenameFromFrontOfPath rawPath
    let filename := translateFilename rawFilename
    match (d.iterator fuel directoryCluster).bind (d.findEntry fuel filename fuel) with
    | none => none
    | some none => some (-1)
    | some (some found) =>
      if !found.ce.directory then some (-1)
      else if path = rawFilename then some found.ce.getClusterNumber
      else traversePathForCluster fuel depth path found.ce.getClusterNumber

section
variable {α : Type} (fuel : Nat) (entry : Found → α)
/-- The loop of `directory_data` with room for some more entries: volume labels are skipped, and
the loop ends with the entry that fills the room. -/
def writeEntries : (turns room : Nat) → Iterator → Option (List α)
  | 0, _, _ => none
  | turns+1, room, it =>
    if it.moreClusters then
      if it.entry.volumeId then (d.increment fuel it).bind (writeEntries turns room)
      else if room ≤ 1 then some [entry it.current]
      else (d.increment fuel it).bind fun next =>
        (writeEntries turns (room-1) next).map (entry it.current :: ·)
    else some []

def directoryData (path : List (BitVec 8)) (maxEntryCount : Nat) : Option (Int × List α) :=
  if maxEntryCount = 0 then some (0,[])
  else
    let root := (d.br.sectorToCluster d.br.firstRootDirectorySector).setWidth 32
    let cluster := if path = [] ∨ path = [slash] then some root
      else d.traversePathForCluster fuel fuel path root
    cluster.bind fun cluster =>
      if ¬(path = [] ∨ path = [slash]) ∧ cluster = -1 then some (-1,[])
      else ((d.iterator fuel cluster).bind (d.writeEntries fuel entry fuel maxEntryCount)).map
        fun entries => (entries.length,entries)

variable {d fuel entry} {entries : List α}
theorem writeEntries_length {turns room : Nat} {it : Iterator} (hr : 0 < room)
    (h : d.writeEntries fuel entry turns room it = some entries) : entries.length ≤ room := by
  induction turns generalizing room it entries with
  | zero => cases h
  | succ turns ih =>
    rw [writeEntries] at h
    split at h
    · split at h
      · obtain ⟨next,-,h⟩ := bind_eq_some_iff.mp h
        exact ih hr h
      split at h
      · cases h
        exact hr
      obtain ⟨next,-,h⟩ := bind_eq_some_iff.mp h
      obtain ⟨rest,hre,rfl⟩ := map_eq_some_iff.mp h
      have hl := ih (by omega) hre
      rw [length_cons]
      omega
    · cases h
      exact Nat.zero_le room

theorem directoryData_length {path : List (BitVec 8)} {n : Nat} {value : Int}
    (h : d.directoryData fuel entry path n = some (value,entries)) :
    entries.length ≤ n ∧ (value = entries.length ∨ value = -1) := by
  unfold directoryData at h
  split at h
  · cases h
    exact ⟨Nat.zero_le n,.inl rfl⟩
  next hn =>
  obtain ⟨cluster,-,h⟩ := bind_eq_some_iff.mp h
  split at h
  · cases h
    exact ⟨Nat.zero_le n,.inr rfl⟩
  obtain ⟨written,hw,he⟩ := map_eq_some_iff.mp h
  cases he
  obtain ⟨it,-,hw⟩ := bind_eq_some_iff.mp hw
  exact ⟨writeEntries_length (pos_of_ne_zero hn) hw,.inl rfl⟩
end

def readRaw (offs bytes : BitVec 64) : Option (List (BitVec 8)) :=
  if PortController.Accepted (offs+d.offset) bytes then some ((range bytes.toNat).map (d.returned offs))
  else none

def read (file : FileMetadata) (offs size : BitVec 64) : Option (List (BitVec 8)) :=
  d.readRaw (file.driverData+offs) size

def clusterBytes : Nat := d.br.bpb.numSectorsPerCluster.toNat * d.br.bpb.numBytesPerSector.toNat

def clusterStart (cluster : Nat) : Nat :=
  (d.br.firstDataSector.toNat+(cluster-2) * d.br.bpb.numSectorsPerCluster.toNat) *
    d.br.bpb.numBytesPerSector.toNat

/-- A volume whose data area lies in the volume and behind the table. -/
structure Volume : Prop where
  valid : d.br.valid = true
  sectors : 0 < d.br.bpb.numSectorsPerCluster.toNat
  data : d.br.firstDataSector.toNat ≤ d.br.bpb.totalSectors.toNat
  table : ∀ c : BitVec 32, c.toNat < d.br.totalClusters.toNat+2 →
    (d.byteOffset d.br.bpb.firstFatSector).toNat+(d.fatOffset (c.setWidth 64)).toNat +
      d.entryWidth ≤ d.br.firstDataSector.toNat * d.br.bpb.numBytesPerSector.toNat

/-- Where the partition has a byte of the file. -/
def home (chain : List (BitVec 32)) (x : Nat) : Nat :=
  d.clusterStart (chain.getD (x / d.clusterBytes) 0).toNat+x % d.clusterBytes

def chainByte (chain : List (BitVec 32)) (x : Nat) : BitVec 8 := d.device (d.home chain x)

/-- The bytes that reading a file returns are those along its chain. -/
def FollowsChain (file : FileMetadata) (chain : List (BitVec 32)) : Prop :=
  ∀ offs size bytes, offs.toNat+size.toNat ≤ file.fileSize.toNat →
    d.read file offs size = some bytes →
      bytes = (range size.toNat).map fun i => d.chainByte chain (offs.toNat+i)

section
variable {d} {chain : List (BitVec 32)} {c : BitVec 32}
theorem Volume.sectorSize (h : d.Volume) : 0 < d.br.bpb.numBytesPerSector.toNat :=
  lt_of_lt_of_le (by decide) (sectorSize_of_valid h.valid)

theorem Volume.clusterBytes_pos (h : d.Volume) : 0 < d.clusterBytes := mul_pos h.sectors h.sectorSize

theorem Volume.defined (h : d.Volume) : d.br.WellDefined := wellDefined_of_data h.valid h.sectors.ne' h.data

theorem Volume.cluster_le (h : d.Volume) (hc : c.toNat < d.br.totalClusters.toNat+2) :
    d.br.firstDataSector.toNat+(c.toNat-2) * d.br.clusterSectors < 2^32 := by
  have hcl := h.defined.clusters
  have hd := h.defined.data
  have hm : (c.toNat-2) * d.br.clusterSectors ≤ d.br.dataSectors.toNat := Nat.mul_le_of_le_div _ _ _ (by omega)
  omega

theorem Volume.byteOffset_cluster (h : d.Volume) (hl : 2 ≤ c.toNat)
    (hc : c.toNat < d.br.totalClusters.toNat+2) :
    (d.byteOffset (d.br.clusterToSector (c.setWidth 64))).toNat = d.clusterStart c.toNat := by
  have hw : (c.setWidth 64).toNat = c.toNat := BitVec.toNat_setWidth_of_le (by decide)
  obtain ⟨hs,-⟩ := h.defined.toSector (c.setWidth 64) (hw.symm ▸ hl) (hw.symm ▸ hc)
  rw [hw,add_comm] at hs
  have hb : d.clusterStart c.toNat < 2^32 * 2^16 := Nat.mul_lt_mul'' (h.cluster_le hc) (BitVec.isLt _)
  rw [byteOffset,BitVec.toNat_mul,hs,BitVec.toNat_setWidth_of_le (by decide)]
  exact Nat.mod_eq_of_lt (hb.trans (by decide))

/-- The sector at which paths and listings of the root start. -/
def startSector (d : FileAllocationTableDriver) : BitVec 64 := d.br.clusterToSector
  (((d.br.sectorToCluster d.br.firstRootDirectorySector).setWidth 32).setWidth 64)

def rootCluster (d : FileAllocationTableDriver) : BitVec 32 := u32At d.device 44

/-- The sector of the root directory as the format has it. -/
def rootSector (d : FileAllocationTableDriver) : BitVec 64 := match d.type with
  | .fat32 => d.br.clusterToSector (d.rootCluster.setWidth 64)
  | _ => d.br.firstRootDirectorySector

theorem Volume.startSector_iff (h : d.Volume) : d.startSector = d.br.firstRootDirectorySector ↔
    d.br.clusterSectors ∣ d.br.bpb.rootDirectorySectors.toNat ∧
      d.br.bpb.rootDirectorySectors.toNat ≤ 2 * d.br.clusterSectors := by
  have hp : ∀ n : BitVec 8, n &&& (n-1) = 0 → n.toNat ≠ 0 → n.toNat ∈ [1,2,4,8,16,32,64,128] := by decide
  have hv := h.valid
  simp only [BootRecord.valid,Bool.and_eq_true,beq_iff_eq] at hv
  have hs : d.br.clusterSectors ∈ [1,2,4,8,16,32,64,128] := hp _ hv.1.2 h.sectors.ne'
  have hr := BootRecord.rootSectors_le h.valid
  have hfirst := h.defined.firstRoot
  have hd := h.defined.data
  have ht : (2 : BitVec 64).toNat = 2 := rfl
  have hsp : (d.br.bpb.numSectorsPerCluster.setWidth 64).toNat = d.br.clusterSectors := clusterSectors_eq
  rw [← BitVec.toNat_inj]
  simp only [startSector,clusterToSector,sectorToCluster,
    BitVec.toNat_add,BitVec.toNat_mul,BitVec.toNat_sub,BitVec.toNat_udiv,hsp,
    BitVec.toNat_setWidth,ht]
  generalize d.br.clusterSectors = spc at *
  simp only [mem_cons,not_mem_nil,or_false] at hs
  rcases hs with rfl | rfl | rfl | rfl | rfl | rfl | rfl | rfl <;> omega

/-- The search of the root starts at the root directory exactly if the root cluster of FAT32 is 2,
or the root directory of FAT12 and FAT16 is no, one or two whole clusters. -/
theorem rootSector_iff (h : d.Volume)
    (hroot : d.type = .fat32 → d.br.bpb.numEntriesInRoot = 0 ∧ 2 ≤ d.rootCluster.toNat ∧
      d.rootCluster.toNat < d.br.totalClusters.toNat+2) : d.startSector = d.rootSector ↔
    if d.type = .fat32 then d.rootCluster.toNat = 2
    else d.br.clusterSectors ∣ d.br.bpb.rootDirectorySectors.toNat ∧
      d.br.bpb.rootDirectorySectors.toNat ≤ 2 * d.br.clusterSectors := by
  split
  · next ht =>
    obtain ⟨he,hl,hlt⟩ := hroot ht
    have hz : d.br.bpb.rootDirectorySectors.toNat = 0 := by
      rw [h.defined.rootDirectory,he]
      exact Nat.div_eq_of_lt (by simpa using h.sectorSize)
    have hstart := h.startSector_iff.mpr (by simp [hz])
    have hfirst := h.defined.firstRoot
    have hw : (d.rootCluster.setWidth 64).toNat = d.rootCluster.toNat := BitVec.toNat_setWidth_of_le (by decide)
    obtain ⟨hs,-⟩ := h.defined.toSector (d.rootCluster.setWidth 64) (hw.symm ▸ hl) (hw.symm ▸ hlt)
    rw [← BitVec.toNat_inj,hstart,rootSector,ht]
    rw [hs,hw]
    constructor
    · intro heq
      have hm : (d.rootCluster.toNat-2) * d.br.clusterSectors = 0 := by omega
      have hsu := (Nat.mul_eq_zero.mp hm).resolve_right h.defined.divisor
      omega
    · intro heq
      rw [heq,Nat.sub_self,Nat.zero_mul]
      omega
  · next ht =>
    have hroot : d.rootSector = d.br.firstRootDirectorySector := by
      rw [rootSector]
      split <;> trivial
    rw [hroot]
    exact h.startSector_iff

theorem start_add (d : FileAllocationTableDriver) {cluster : Nat} (hl : 2 ≤ cluster)
    (i : Nat) : d.clusterStart (cluster+i) = d.clusterStart cluster+i * d.clusterBytes := by
  have hs : cluster+i-2 = cluster-2+i := by omega
  rw [clusterStart,clusterStart,clusterBytes,hs,add_mul (cluster-2),← add_assoc, add_mul,mul_assoc i]

theorem Volume.start_injective (h : d.Volume) {a b : Nat} (ha : 2 ≤ a) (hb : 2 ≤ b)
    (heq : d.clusterStart a = d.clusterStart b) : a = b := by
  have hp := h.clusterBytes_pos
  obtain ⟨i,rfl⟩ := Nat.exists_eq_add_of_le ha
  obtain ⟨j,rfl⟩ := Nat.exists_eq_add_of_le hb
  rw [start_add d le_rfl,start_add d le_rfl] at heq
  have hm : i * d.clusterBytes = j * d.clusterBytes := by omega
  rw [Nat.eq_of_mul_eq_mul_right hp hm]

def withDisk (d : FileAllocationTableDriver) (disk : Bytes) : FileAllocationTableDriver :=
  { d with disk := disk }

theorem device_write8 (d : FileAllocationTableDriver) (a : Nat) (v : BitVec 8) :
    (d.withDisk (d.disk.write8 (d.offset.toNat+a) v)).device = d.device.write8 a v := by
  funext x
  simp [device,withDisk,Bytes.write8]

theorem tableValue_congr {fat fat' : Bytes} {clusterNumber : BitVec 64} {entryOffset : Nat}
    (h : ∀ k < d.entryWidth, fat' (entryOffset+k) = fat (entryOffset+k)) :
    d.tableValue fat' clusterNumber entryOffset = d.tableValue fat clusterNumber entryOffset := by
  have h16 (hw : 2 ≤ d.entryWidth) : u16At fat' entryOffset = u16At fat entryOffset := by
    have h0 := h 0 (by omega)
    have h1 := h 1 (by omega)
    rw [add_zero] at h0
    rw [u16At,u16At,h0,h1]
  have h32 (hw : 4 ≤ d.entryWidth) : u32At fat' entryOffset = u32At fat entryOffset := by
    have h2 := h 2 (by omega)
    have h3 := h 3 (by omega)
    have hh : u16At fat' (entryOffset+2) = u16At fat (entryOffset+2) := by rw [u16At,u16At,add_assoc,h2,h3]
    rw [u32At,u32At,h16 (by omega),hh]
  unfold tableValue
  cases ht : d.type with
  | fat12 | fat16 => rw [h16 (by simp [entryWidth,ht])]
  | fat32 | exFat => rw [h32 (by simp [entryWidth,ht])]
  | invalid => rfl

theorem ClusterChain.write8 (hvolume : d.Volume) (h : d.ClusterChain chain) {a : Nat}
    (ha : d.br.firstDataSector.toNat * d.br.bpb.numBytesPerSector.toNat ≤ a) (v : BitVec 8) :
    (d.withDisk (d.disk.write8 (d.offset.toNat+a) v)).ClusterChain chain := by
  have he (c : BitVec 32) (hc : c ∈ chain) :
      (d.withDisk (d.disk.write8 (d.offset.toNat+a) v)).fatEntry c = d.fatEntry c := by
    have ht := hvolume.table c (h.inside c hc).2
    have hby (k : Nat) (hk : k < d.entryWidth) :
        d.device.write8 a v ((d.byteOffset d.br.bpb.firstFatSector).toNat +
          ((d.fatOffset (c.setWidth 64)).toNat+k)) =
        d.device ((d.byteOffset d.br.bpb.firstFatSector).toNat +
          ((d.fatOffset (c.setWidth 64)).toNat+k)) := Bytes.write8_outside _ _ (by omega)
    rw [← device_write8] at hby
    exact tableValue_congr (d := d) hby
  refine ⟨h.nonempty,h.nodup,h.inside,?_,?_⟩
  · apply h.linked.imp_of_mem_imp
    intro b c hb _ hl
    rw [he b hb,hl]
  intro c hc
  rw [he c (mem_of_getLast? hc)]
  exact h.ends c hc

variable {first : BitVec 32} {rest : List (BitVec 32)} {file : FileMetadata} {e : ClusterEntry}
theorem read_eq {offs size : BitVec 64} {bytes : List (BitVec 8)}
    (h : d.read file offs size = some bytes) :
    bytes = (range size.toNat).map (d.returned (file.driverData+offs)) := by
  rw [read,readRaw] at h
  split at h
  · exact (some.inj h).symm
  · cases h

theorem accepted_one (offs : BitVec 64) : PortController.Accepted offs 1 := by
  have ho : (1 : BitVec 64).toNat = 1 := rfl
  have hm : offs.toNat % bytesPerSector < bytesPerSector := Nat.mod_lt _ (by decide)
  refine ⟨by decide,?_⟩
  rw [PortController.sectorsFor,ho,if_pos (by omega)]
  decide

theorem data_le_home (d : FileAllocationTableDriver) (chain : List (BitVec 32)) (x : Nat) :
    d.br.firstDataSector.toNat * d.br.bpb.numBytesPerSector.toNat ≤ d.home chain x :=
  (Nat.mul_le_mul_right _ (Nat.le_add_right _ _)).trans (Nat.le_add_right _ _)

/-- The clusters that hold bytes of the file follow each other on the disk. -/
def Contiguous (d : FileAllocationTableDriver) (chain : List (BitVec 32)) (size : Nat) : Prop :=
  ∀ i c, chain[i]? = some c → i * d.clusterBytes < size → c.toNat = (chain.headD 0).toNat+i

section
variable (hvolume : d.Volume) (hchain : d.ClusterChain (first :: rest))
include hvolume hchain
theorem home_of_contiguous {size : Nat} (hs : size ≤ (rest.length+1) * d.clusterBytes)
    (hco : d.Contiguous (first :: rest) size) {x : Nat} (hx : x < size) :
    d.home (first :: rest) x = d.clusterStart first.toNat+x := by
  have hp := hvolume.clusterBytes_pos
  have hd := Nat.div_add_mod' x d.clusterBytes
  have hind : x / d.clusterBytes < (first :: rest).length :=
    (Nat.div_lt_iff_lt_mul hp).mpr (by rw [length_cons]; omega)
  have hc := hco _ _ (getElem?_eq_getElem hind) (by omega)
  obtain ⟨hl,-⟩ := hchain.inside first mem_cons_self
  rw [home,getD_eq_getElem?_getD,getElem?_eq_getElem hind,getD_some,hc,headD_cons,start_add d hl]
  omega

variable (hoffset : d.offset.toNat < 2^63)
  (hstart : file.driverData = d.dataOffset e) (hfirst : e.getClusterNumber = first)
include hoffset hstart hfirst
theorem Volume.data_add (offs : BitVec 64) (ho : offs.toNat < 2^62) :
    (file.driverData+offs+d.offset).toNat = d.offset.toNat+(d.clusterStart first.toNat+offs.toNat) := by
  obtain ⟨hl,hh⟩ := hchain.inside first mem_cons_self
  have hc := hvolume.byteOffset_cluster hl hh
  have hs := d.br.bpb.numBytesPerSector.isLt
  have hb : d.clusterStart first.toNat < 2^32 * 2^16 := Nat.mul_lt_mul'' (hvolume.cluster_le hh) hs
  rw [hstart,dataOffset,hfirst,BitVec.toNat_add,BitVec.toNat_add,hc,Nat.mod_add_mod,Nat.mod_eq_of_lt (by omega)]
  omega

/-- Below the sector 2^24 a request gets the bytes behind its offset. -/
theorem Volume.returned_low (offs : BitVec 64) (ho : offs.toNat < 2^62)
    (hlow : d.offset.toNat+(d.clusterStart first.toNat+offs.toNat) < 2^24 * bytesPerSector) (i : Nat) :
    d.returned (file.driverData+offs) i = d.device (d.clusterStart first.toNat+offs.toNat+i) := by
  have ha := hvolume.data_add hchain hoffset hstart hfirst offs ho
  have hsec : (file.driverData+offs+d.offset).toNat / bytesPerSector < 2^24 :=
    (Nat.div_lt_iff_lt_mul (by decide)).mpr (by rwa [ha])
  have hd := Nat.div_add_mod' (file.driverData+offs+d.offset).toNat bytesPerSector
  rw [returned,PortController.origin,addressed_low hsec,device,← add_assoc,hd,ha]
  congr 1
  omega

theorem followsChain_of_contiguous (hle : file.fileSize.toNat < 2^32)
    (hs : file.fileSize.toNat ≤ (rest.length+1) * d.clusterBytes)
    (hco : d.Contiguous (first :: rest) file.fileSize.toNat)
    (hlow : d.offset.toNat+(d.clusterStart first.toNat+file.fileSize.toNat) ≤ 2^24 * bytesPerSector) :
    d.FollowsChain file (first :: rest) := by
  intro offs size bytes hin hr
  rw [read_eq hr]
  apply map_congr_left
  intro i hi
  rw [mem_range] at hi
  have hh := home_of_contiguous hvolume hchain hs hco (x := offs.toNat+i) (by omega)
  rw [hvolume.returned_low hchain hoffset hstart hfirst offs (by omega) (by omega),chainByte]
  rw [hh,add_assoc]

omit hoffset hstart hfirst in
/-- A byte that is read from a wrong place is misread, for some contents of the data area. -/
theorem not_followsChain_of_misplaced {x : BitVec 64} (hx : x.toNat < file.fileSize.toNat)
    (hne : PortController.origin (file.driverData+x+d.offset) +
      (file.driverData+x+d.offset).toNat % bytesPerSector ≠ d.offset.toNat+d.home (first :: rest) x.toNat) :
    ∃ disk, (d.withDisk disk).ClusterChain (first :: rest) ∧
      ¬ (d.withDisk disk).FollowsChain file (first :: rest) := by
  generalize hw : PortController.origin (file.driverData+x+d.offset) +
      (file.driverData+x+d.offset).toNat % bytesPerSector = wrong at hne
  have hd := d.data_le_home (first :: rest) x.toNat
  let disk := d.disk.write8 (d.offset.toNat+d.home (first :: rest) x.toNat) (d.disk wrong+1)
  refine ⟨disk,hchain.write8 hvolume hd _,fun hf => ?_⟩
  have hr : (d.withDisk disk).read file x 1 = some [d.disk wrong] := by
    have hb : (d.withDisk disk).returned (file.driverData+x) 0 = d.disk wrong := by
      rw [returned,add_zero]
      exact (congrArg disk hw).trans (Bytes.write8_outside _ _ hne)
    rw [read,readRaw,if_pos (accepted_one _)]
    exact congrArg (fun b => some [b]) hb
  have hb := hf _ 1 _ hx hr
  have hch : (d.withDisk disk).chainByte (first :: rest) x.toNat = d.disk wrong+1 :=
    Bytes.write8_same _ _ _
  have hby : d.disk wrong = (d.withDisk disk).chainByte (first :: rest) x.toNat := (cons.inj hb).1
  rw [hch] at hby
  bv_omega
end

/-- Where a byte of a file is read that starts in the cluster `first`. -/
def placed (d : FileAllocationTableDriver) (first : BitVec 32) (x : Nat) : Nat :=
  let a := d.offset.toNat+(d.clusterStart first.toNat+x)
  addressed (a / bytesPerSector) * bytesPerSector+a % bytesPerSector

theorem placed_low {x : Nat}
    (h : d.offset.toNat+(d.clusterStart first.toNat+x) < 2^24 * bytesPerSector) :
    d.placed first x = d.offset.toNat+(d.clusterStart first.toNat+x) := by
  have hs := (Nat.div_lt_iff_lt_mul (by decide)).mpr h
  rw [placed,addressed_low hs,Nat.div_add_mod']

/-- The first byte at or above the sector 2^24 is read from below it. -/
theorem low_of_placed (hvolume : d.Volume) (hchain : d.ClusterChain (first :: rest)) {size : Nat}
    (h : ∀ x < size, d.placed first x = d.offset.toNat+d.home (first :: rest) x) : size = 0 ∨
      d.offset.toNat+(d.clusterStart first.toNat+size) ≤ 2^24 * bytesPerSector := by
  have hb : bytesPerSector = 512 := rfl
  refine or_iff_not_imp_left.mpr fun hz => le_of_not_gt fun hgt => ?_
  by_cases hs : d.offset.toNat+(d.clusterStart first.toNat+0) < 2^24 * bytesPerSector
  · -- that byte is in the data area, and the disk returns its first sector
    have heq := h (2^24 * bytesPerSector-(d.offset.toNat+d.clusterStart first.toNat)) (by omega)
    have ht := hvolume.table first (hchain.inside first mem_cons_self).2
    have hw : 0 < d.entryWidth := by
      unfold entryWidth
      split <;> decide
    have hd := d.data_le_home (first :: rest)
      (2^24 * bytesPerSector-(d.offset.toNat+d.clusterStart first.toNat))
    rw [placed,show d.offset.toNat+(d.clusterStart first.toNat +
      (2^24 * bytesPerSector-(d.offset.toNat+d.clusterStart first.toNat))) = 2^24 * bytesPerSector by omega] at heq
    have hzero : addressed (2^24 * bytesPerSector / bytesPerSector) * bytesPerSector +
        2^24 * bytesPerSector % bytesPerSector = 0 := by decide
    omega
  · have heq := h 0 (Nat.pos_of_ne_zero hz)
    have hsec := addressed_high ((Nat.le_div_iff_mul_le (by decide)).mpr (not_lt.mp hs))
    have hd := Nat.div_add_mod' (d.offset.toNat+(d.clusterStart first.toNat+0)) bytesPerSector
    rw [placed,home,Nat.zero_div,Nat.zero_mod,getD_cons_zero] at heq
    rw [hb] at *
    omega

/-- Reading a file returns the bytes along its chain, for all contents of the disk that have this
chain, exactly if the clusters that hold the file follow each other on the disk, below the sector
2^24. -/
theorem reads_follow_chain_iff (hvolume : d.Volume) (hoffset : d.offset.toNat < 2^63)
    (hchain : d.ClusterChain (first :: rest)) (hstart : file.driverData = d.dataOffset e)
    (hlen : file.fileSize = e.fileSizeInBytes.setWidth 64) (hfirst : e.getClusterNumber = first)
    (hsize : file.fileSize.toNat ≤ (rest.length+1) * d.clusterBytes) :
    (∀ disk, (d.withDisk disk).ClusterChain (first :: rest) →
      (d.withDisk disk).FollowsChain file (first :: rest)) ↔
      d.Contiguous (first :: rest) file.fileSize.toNat ∧ (file.fileSize.toNat = 0 ∨
        d.offset.toNat+(d.clusterStart first.toNat+file.fileSize.toNat) ≤ 2^24 * bytesPerSector) := by
  have hl : file.fileSize.toNat < 2^32 := by
    rw [hlen,BitVec.toNat_setWidth_of_le (by decide)]
    exact e.fileSizeInBytes.isLt
  constructor
  · intro hf
    have hpl : ∀ x < file.fileSize.toNat, d.placed first x = d.offset.toNat+d.home (first :: rest) x := by
      intro x hx
      have hw : (BitVec.ofNat 64 x).toNat = x := by
        rw [BitVec.toNat_ofNat]
        omega
      by_contra hne
      obtain ⟨disk,hd,hn⟩ := not_followsChain_of_misplaced hvolume hchain (x := .ofNat 64 x) (hw.symm ▸ hx)
        (by rwa [PortController.origin,hvolume.data_add hchain hoffset hstart hfirst _ (by omega),hw])
      exact hn (hf disk hd)
    have hlow := low_of_placed hvolume hchain hpl
    refine ⟨fun i c hc hi => ?_,hlow⟩
    obtain ⟨hcl,-⟩ := hchain.inside c (mem_of_getElem? hc)
    obtain ⟨hfl,-⟩ := hchain.inside first mem_cons_self
    have hpos := hvolume.clusterBytes_pos
    have heq := hpl _ hi
    rw [placed_low (by omega),home,Nat.mul_div_cancel _ hpos,Nat.mul_mod_left,getD_eq_getElem?_getD,hc,
      getD_some,← start_add d hfl] at heq
    rw [headD_cons]
    exact hvolume.start_injective hcl (by omega) (Nat.add_left_cancel heq).symm
  · rintro ⟨hco,hlow⟩ disk hd
    have hv' : (d.withDisk disk).Volume := ⟨hvolume.valid,hvolume.sectors,hvolume.data,hvolume.table⟩
    rcases hlow with hz | hlow
    · intro offs size bytes hin hr
      rw [read_eq hr,show size.toNat = 0 by omega]
      rfl
    · exact followsChain_of_contiguous hv' hd hoffset hstart hfirst hl hsize hco hlow
end

def rootWithFile : List (Nat × BitVec 8) :=
  [(1024,0x56),(1035,0x08),(1056,0x41),(1057,0x20),(1058,0x20),(1059,0x20),
    (1060,0x20),(1061,0x20),(1062,0x20),(1063,0x20),(1064,0x20),(1065,0x20),
    (1066,0x20),(1067,0x20),(1082,0x03),(1084,0x01),(1085,0x02)]

def wholeVolume : FileAllocationTableDriver :=
  smallVolume ([(515,0xff),(516,0x4f),(518,0xff),(519,0x0f)] ++ rootWithFile)

def fragmentedVolume : FileAllocationTableDriver :=
  smallVolume ([(515,0xff),(516,0x5f),(519,0xf0),(520,0xff),(2560,0x42)] ++ rootWithFile)

theorem volume_of_fat12 {d : FileAllocationTableDriver}
    (h : d.br.valid = true ∧ 0 < d.br.bpb.numSectorsPerCluster.toNat ∧
      d.br.firstDataSector.toNat ≤ d.br.bpb.totalSectors.toNat ∧ d.type = .fat12 ∧
      (d.byteOffset d.br.bpb.firstFatSector).toNat = 512 ∧ d.br.totalClusters.toNat ≤ 98 ∧
      1024 ≤ d.br.firstDataSector.toNat * d.br.bpb.numBytesPerSector.toNat) : d.Volume := by
  obtain ⟨hv,hs,hl,hty,ht,hcl,hd⟩ := h
  refine ⟨hv,hs,hl,fun c hc => ?_⟩
  have hw : (c.setWidth 64).toNat = c.toNat := BitVec.toNat_setWidth_of_le (by decide)
  have htw : (2 : BitVec 64).toNat = 2 := rfl
  rw [ht,entryWidth,fatOffset,hty]
  dsimp only
  rw [BitVec.toNat_add,BitVec.toNat_udiv,hw,htw,Nat.mod_eq_of_lt (by omega)]
  omega

theorem chain_of_small {d : FileAllocationTableDriver} (h : d.br = (smallVolume []).br)
    {a b : BitVec 32} (hn : a ≠ b) (ha : 2 ≤ a.toNat ∧ a.toNat < 100)
    (hb : 2 ≤ b.toNat ∧ b.toNat < 100) (hl : d.fatEntry a = (b,true))
    (hla : (d.fatEntry b).2 = false) : d.ClusterChain [a,b] where
  nonempty := cons_ne_nil _ _
  nodup := by simpa using hn
  inside := by
    have hcl : d.br.totalClusters.toNat+2 = 100 := by
      rw [h]
      decide
    rw [hcl]
    simpa using ⟨ha,hb⟩
  linked := by simpa using hl
  ends := by
    intro c hc
    obtain rfl : b = c := by simpa using hc
    exact hla

theorem pair_contiguous {d : FileAllocationTableDriver} {a b : BitVec 32} (h : b.toNat = a.toNat+1)
    (size : Nat) : d.Contiguous [a,b] size := by
  intro i c hc _
  match i with
  | 0 =>
    cases hc
    rfl
  | 1 =>
    cases hc
    exact h
  | i+2 => cases hc

def entryA (d : FileAllocationTableDriver) : ClusterEntry := (d.clusterEntries 2).getD 1 .zero

def metadataA : FileMetadata := ⟨.regular,[0x41,0x20,0x20,0x20,0x20,0x20,0x20,0x20,0x20,0x20,0x20],513,1536⟩

/-- A file in two clusters that follow each other, opened and read. -/
theorem reads_follow_chain_whole : wholeVolume.openFile 5 [0x41] = some (some metadataA) ∧
    wholeVolume.FollowsChain metadataA [3,4] := by
  have hbr : wholeVolume.br = (smallVolume []).br := by decide
  have hchain : wholeVolume.ClusterChain [3,4] :=
    chain_of_small hbr (by decide) (by decide) (by decide) (by decide) (by decide)
  have hstart : metadataA.driverData = wholeVolume.dataOffset (entryA wholeVolume) := by decide
  have hl : metadataA.fileSize = (entryA wholeVolume).fileSizeInBytes.setWidth 64 := by decide
  have hfirst : (entryA wholeVolume).getClusterNumber = 3 := by decide
  have hb : wholeVolume.clusterBytes = 512 := by decide
  have hf := (reads_follow_chain_iff (volume_of_fat12 (by decide)) (by decide) hchain hstart hl hfirst
    (by rw [hb]; decide)).mpr ⟨pair_contiguous (by decide) _,.inr (by decide)⟩
  exact ⟨by decide,hf wholeVolume.disk hchain⟩

/-- Byte 512 of a file in the clusters 3 and 5 is read from the cluster 4. -/
theorem reads_leave_chain : fragmentedVolume.Volume ∧ fragmentedVolume.ClusterChain [3,5] ∧
    fragmentedVolume.openFile 5 [0x41] = some (some metadataA) ∧
    fragmentedVolume.read metadataA 512 1 = some [0] ∧
    fragmentedVolume.chainByte [3,5] 512 = 0x42 := by
  have hb : fragmentedVolume.br = (smallVolume []).br := by decide
  have hchain : fragmentedVolume.ClusterChain [3,5] :=
    chain_of_small hb (by decide) (by decide) (by decide) (by decide) (by decide)
  exact ⟨volume_of_fat12 (by decide),hchain,by decide,by decide,by decide⟩

/-- A root directory of one sector, and one of 14 as on a floppy disk, in clusters of one sector. -/
theorem rootSector_one : (smallVolume [(17,16)]).Volume ∧
    (smallVolume [(17,16)]).startSector = (smallVolume [(17,16)]).rootSector := by
  have hvolume : (smallVolume [(17,16)]).Volume := volume_of_fat12 (by decide)
  exact ⟨hvolume,(rootSector_iff hvolume (by decide)).mpr (by decide)⟩

theorem rootSector_missed : (smallVolume [(17,224)]).Volume ∧
    (smallVolume [(17,224)]).type = .fat12 ∧ (smallVolume [(17,224)]).rootSector = 2 ∧
    (smallVolume [(17,224)]).startSector = 0x100000002 :=
  ⟨volume_of_fat12 (by decide),by decide,by decide,by decide⟩
end FileAllocationTableDriver
end LensorOS.Storage
