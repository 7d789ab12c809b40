import LensorOS.Framework.Indirection
import LensorOS.Kernel.State

/-!
# Descriptor tables

A descriptor of a process names an index of the table of open files. In every run the descriptors of
all processes together name the open files one to one.
-/
namespace LensorOS.Kernel
open Framework Storage Scheduler List Option Function SparseVector
namespace VFS
variable {v v' : VFS} {pid procfd fd f i : Nat} {table : SparseVector Nat}
@[simp] theorem files_acquire : (v.acquire f).files = v.files := rfl
@[simp] theorem fileDescriptors_acquire : (v.acquire f).fileDescriptors = v.fileDescriptors := rfl

@[simp] theorem files_release : (v.release f).files = v.files := by
  unfold release
  split
  · rfl
  · split <;> rfl

@[simp] theorem descriptors_release : (v.release f).fileDescriptors = v.fileDescriptors := by
  unfold release
  split
  · rfl
  · split <;> rfl

def lookup (v : VFS) (k : Nat × Nat) : Option Nat := v.procfdToFd k.1 k.2

/-- Descriptors name the open files one to one. -/
def Consistent (v : VFS) : Prop := OneToOne v.lookup v.files.get

/-- A change after which the tables are consistent, for the same processes. -/
structure Steady (v v' : VFS) : Prop where
  consistent : v'.Consistent
  tables : ∀ pid, (v'.fileDescriptors pid).isSome = (v.fileDescriptors pid).isSome

theorem lookup_congr (h : v'.fileDescriptors = v.fileDescriptors) : v'.lookup = v.lookup := by
  funext k
  rw [lookup,lookup,procfdToFd,procfdToFd,h]

theorem Consistent.same (h : v.Consistent) (hf : v'.files = v.files)
    (ht : v'.fileDescriptors = v.fileDescriptors) : Steady v v' := by
  constructor
  · rw [Consistent,hf,lookup_congr ht]
    exact h
  · intro q
    rw [ht]

theorem Steady.trans {v'' : VFS} (h : Steady v v') (h' : Steady v' v'') : Steady v v'' :=
  ⟨h'.consistent,fun q => (h'.tables q).trans (h.tables q)⟩

theorem lookup_setTable {table' : SparseVector Nat} (h : v.fileDescriptors pid = some table)
    {x : Option Nat} (hg : table'.get = update table.get procfd x) :
    (v.setTable pid table').lookup = update v.lookup (pid,procfd) x := by
  funext k
  obtain ⟨q,i⟩ := k
  by_cases hq : q = pid
  · subst hq
    by_cases hi : i = procfd
    · simp [lookup,procfdToFd,setTable,hg,hi]
    · simp [lookup,procfdToFd,setTable,hg,hi,h]
  · simp [lookup,procfdToFd,setTable,hq]

theorem setTable_isSome (h : (v.fileDescriptors pid).isSome) (q : Nat) :
    ((v.setTable pid table).fileDescriptors q).isSome = (v.fileDescriptors q).isSome := by
  by_cases hq : q = pid
  · subst hq
    simp [setTable,h]
  · simp [setTable,hq]

structure Adds (v : VFS) (f pid procfd fd : Nat) (v' : VFS) : Prop where
  newFile : v.files.get fd = none
  newDescriptor : v.lookup (pid,procfd) = none
  files : v'.files.get = update v.files.get fd (some f)
  lookup : v'.lookup = update v.lookup (pid,procfd) (some fd)
  tables : ∀ q, (v'.fileDescriptors q).isSome = (v.fileDescriptors q).isSome

theorem addFile_adds (h : v.fileDescriptors pid = some table) (f : Nat) :
    Adds v f pid (table.insert (v.files.insert f).1).1 (v.files.insert f).1
      (v.addFile (some f) pid).2 := by
  have ha : (v.addFile (some f) pid).2 = { v with files := (v.files.insert f).2 }.setTable pid
      (table.insert (v.files.insert f).1).2 := by
    rw [addFile]
    simp [pushBack,h]
  constructor
  · exact v.files.get_insert_fresh f
  · simp [VFS.lookup,procfdToFd,h,table.get_insert_fresh]
  · rw [ha]
    exact v.files.get_insert f
  · rw [ha]
    exact lookup_setTable (v := { v with files := (v.files.insert f).2 }) h (table.get_insert _)
  · intro q
    rw [ha,setTable_isSome (by rw [h]; rfl)]

theorem Adds.steady (h : Adds v f pid procfd fd v') (hv : v.Consistent) : Steady v v' := by
  refine ⟨?_,h.tables⟩
  rw [Consistent,h.files,h.lookup]
  exact OneToOne.add hv h.newDescriptor h.newFile f

theorem Consistent.addFile (h : v.Consistent) (hpid : (v.fileDescriptors pid).isSome) (f : Nat) :
    Steady v (v.addFile (some f) pid).2 := by
  obtain ⟨table,ht⟩ := isSome_iff_exists.mp hpid
  exact (addFile_adds ht f).steady h

theorem lookup_erase (v : VFS) (pid procfd : Nat) :
    (v.eraseDescriptor pid procfd).lookup = update v.lookup (pid,procfd) none := by
  unfold eraseDescriptor
  split
  · next hn =>
    funext k
    by_cases hk : k = (pid,procfd)
    · simp [hk,lookup,procfdToFd,hn]
    · simp [hk]
  · next table ht => exact lookup_setTable ht (table.get_erase procfd)

theorem erase_isSome (v : VFS) (pid procfd q : Nat) :
    ((v.eraseDescriptor pid procfd).fileDescriptors q).isSome = (v.fileDescriptors q).isSome := by
  unfold eraseDescriptor
  split
  · rfl
  · next ht => exact setTable_isSome (by rw [ht]; rfl) q

@[simp] theorem files_erase : (v.eraseDescriptor pid procfd).files = v.files := by
  unfold eraseDescriptor
  split <;> rfl

theorem get_eraseFile (v : VFS) (fd : Nat) : (v.eraseFile fd).files.get = update v.files.get fd none := by
  unfold eraseFile
  split
  · next hn =>
    funext i
    by_cases hi : i = fd
    · simp [hi,hn]
    · simp [hi]
  · rw [files_release]
    exact v.files.get_erase fd

@[simp] theorem descriptors_eraseFile :
    (v.eraseFile fd).fileDescriptors = v.fileDescriptors := by
  unfold eraseFile
  split
  · rfl
  · exact descriptors_release

structure Drops (v : VFS) (pid procfd fd : Nat) (v' : VFS) : Prop where
  files : v'.files.get = update v.files.get fd none
  lookup : v'.lookup = update v.lookup (pid,procfd) none
  tables : ∀ q, (v'.fileDescriptors q).isSome = (v.fileDescriptors q).isSome

theorem close_drops (hfd : v.lookup (pid,procfd) = some fd) (hli : (v.files.get fd).isSome) :
    Drops v pid procfd fd (v.close pid procfd) := by
  obtain ⟨f,hf⟩ := isSome_iff_exists.mp hli
  have hc : v.close pid procfd = ((v.acquire f).freeFd pid fd procfd).release f := by
    rw [close,show v.procfdToFd pid procfd = some fd from hfd]
    simp [hf]
  have hl := lookup_erase (v.acquire f) pid procfd
  constructor
  · simp [hc,freeFd,get_eraseFile]
  · rw [hc,lookup_congr descriptors_release,freeFd,
      lookup_congr descriptors_eraseFile,hl]
    rfl
  · intro q
    rw [hc,descriptors_release,freeFd,descriptors_eraseFile, erase_isSome,fileDescriptors_acquire]

theorem close_of_none (h : v.lookup (pid,procfd) = none) : v.close pid procfd = v := by
  rw [close,show v.procfdToFd pid procfd = none from h]

theorem Drops.steady (h : Drops v pid procfd fd v') (hv : v.Consistent)
    (hf : v.lookup (pid,procfd) = some fd) : Steady v v' := by
  refine ⟨?_,h.tables⟩
  rw [Consistent,h.files,h.lookup]
  exact OneToOne.remove hv hf

theorem Consistent.close (h : v.Consistent) (pid procfd : Nat) : Steady v (v.close pid procfd) := by
  cases hf : v.lookup (pid,procfd) with
  | none =>
    rw [close_of_none hf]
    exact h.same rfl rfl
  | some fd => exact (close_drops hf (h.live _ _ hf)).steady h hf

theorem Consistent.lookup_close (h : v.Consistent) (pid procfd : Nat) :
    (v.close pid procfd).lookup = update v.lookup (pid,procfd) none := by
  cases hf : v.lookup (pid,procfd) with
  | none =>
    rw [close_of_none hf]
    exact (update_eq_self_iff.mpr hf.symm).symm
  | some fd => exact (close_drops hf (h.live _ _ hf)).lookup

theorem file_eq (v : VFS) (pid procfd : Nat) : v.file pid procfd = (v.lookup (pid,procfd)).bind v.files.get := rfl

theorem Consistent.close_other (h : v.Consistent) {q : Nat} (hn : (q,i) ≠ (pid,procfd)) :
    (v.close pid procfd).lookup (q,i) = v.lookup (q,i) ∧
      (v.close pid procfd).file q i = v.file q i := by
  constructor
  · rw [h.lookup_close,update_of_ne hn]
  cases hf : v.lookup (pid,procfd) with
  | none => rw [close_of_none hf]
  | some fd =>
    have hd := close_drops hf (h.live _ _ hf)
    rw [file_eq,file_eq,hd.lookup,hd.files]
    exact OneToOne.remove_other h hf hn

theorem Consistent.closeBelow (h : v.Consistent) (pid n : Nat) : Steady v (v.closeBelow pid n) ∧
      (v.closeBelow pid n).lookup = fun k => if k.1 = pid ∧ k.2 < n then none else v.lookup k := by
  induction n with
  | zero => exact ⟨h.same rfl rfl,by simp [VFS.closeBelow]⟩
  | succ n ih =>
    rw [closeBelow_succ]
    refine ⟨ih.1.trans (ih.1.consistent.close pid n),?_⟩
    rw [ih.1.consistent.lookup_close,ih.2]
    funext k
    obtain ⟨q,i⟩ := k
    by_cases hk : (q,i) = (pid,n)
    · cases hk
      simp
    rw [update_of_ne hk]
    have hif : q = pid ∧ i < n ↔ q = pid ∧ i < n+1 := by
      constructor
      · rintro ⟨hq,hi⟩
        exact ⟨hq,by omega⟩
      rintro ⟨hq,hi⟩
      refine ⟨hq,lt_of_le_of_ne (by omega) ?_⟩
      rintro rfl
      exact hk (by rw [hq])
    simp [hif]

theorem lookup_past (h : v.tableSize pid ≤ i) : v.lookup (pid,i) = none := by
  unfold tableSize at h
  split at h
  · next hn => simp [lookup,procfdToFd,hn]
  · next table ht =>
    have he : table.els[i]? = none := getElem?_eq_none h
    simp [lookup,procfdToFd,ht,SparseVector.get,he]

theorem Consistent.destroy (h : v.Consistent) (pid : Nat) : (v.destroy pid).Consistent ∧
    ∀ q, ((v.destroy pid).fileDescriptors q).isSome =
      (decide (q ≠ pid) && (v.fileDescriptors q).isSome) := by
  obtain ⟨hs,hl⟩ := h.closeBelow pid (v.tableSize pid)
  have hd : (v.destroy pid).lookup = (v.closeBelow pid (v.tableSize pid)).lookup := by
    funext k
    obtain ⟨q,i⟩ := k
    by_cases hq : q = pid
    · have hn : (v.destroy pid).lookup (q,i) = none := by simp [hq,VFS.destroy,dropTable,lookup,procfdToFd]
      rw [hn,hl]
      by_cases hi : i < v.tableSize pid
      · simp [hq,hi]
      · simp [hq,hi,lookup_past (Nat.le_of_not_lt hi)]
    · simp [VFS.destroy,dropTable,lookup,procfdToFd,hq]
  constructor
  · rw [Consistent,hd]
    exact hs.consistent
  intro q
  by_cases hq : q = pid
  · simp [VFS.destroy,dropTable,hq]
  · simp [VFS.destroy,dropTable,hq,hs.tables]

structure SameTables (v v' : VFS) : Prop where
  files : v'.files = v.files
  fileDescriptors : v'.fileDescriptors = v.fileDescriptors

theorem SameTables.steady (h : SameTables v v') (hv : v.Consistent) : Steady v v' := hv.same h.files h.fileDescriptors

section
theorem read_tables (v : VFS) (pid procfd byteCount : Nat) (device : Option Nat) :
    SameTables v (v.sys2Read pid procfd byteCount device).2 := by
  unfold sys2Read
  split
  · exact ⟨rfl,rfl⟩
  dsimp only
  split
  · exact ⟨files_release,descriptors_release⟩
  split
  · exact ⟨files_release,descriptors_release⟩
  split
  · exact ⟨rfl,rfl⟩
  all_goals exact ⟨files_release,descriptors_release⟩

theorem write_tables (v : VFS) (pid procfd : Nat) (buffer : Bytes) (byteCount : Nat)
    (device : Option Nat) : SameTables v (v.sys3Write pid procfd buffer byteCount device).2 := by
  unfold sys3Write
  split
  · exact ⟨rfl,rfl⟩
  next f hf =>
  have hb : SameTables v ((v.acquire f).release f) := ⟨files_release,descriptors_release⟩
  dsimp only
  split
  · exact hb
  split
  · exact ⟨hb.files,hb.fileDescriptors⟩
  · exact ⟨hb.files,hb.fileDescriptors⟩
  split
  · exact ⟨files_release.trans hb.files, descriptors_release.trans hb.fileDescriptors⟩
  · exact ⟨hb.files,hb.fileDescriptors⟩

theorem sys14Seek_tables (v : VFS) (pid procfd : Nat) (offset : Int) (whence : Nat) :
    SameTables v (v.sys14Seek pid procfd offset whence).2 := by
  unfold sys14Seek
  split
  · exact ⟨rfl,rfl⟩
  dsimp only
  split
  · exact ⟨files_release,descriptors_release⟩
  · split
    all_goals exact ⟨files_release,descriptors_release⟩

theorem onSocket_tables {request : VFS → Nat → SocketData → Int × VFS}
    (hr : ∀ v socket data, SameTables v (request v socket data).2) (v : VFS)
    (pid procfd : Nat) : SameTables v (v.onSocket pid procfd request).2 := by
  unfold onSocket
  split
  · exact ⟨rfl,rfl⟩
  next f hf =>
  dsimp only
  split
  · exact ⟨files_release,descriptors_release⟩
  next socket data hs =>
  have hsa := hr (v.acquire f) socket data
  exact ⟨files_release.trans hsa.files,descriptors_release.trans hsa.fileDescriptors⟩

theorem bind_tables (v : VFS) (pid procfd : Nat) (address : SocketAddress) :
    SameTables v (v.sys19Bind pid procfd address).2 := by
  apply onSocket_tables
  intro v socket data
  split
  · exact ⟨rfl,rfl⟩
  · exact ⟨rfl,rfl⟩

theorem listen_tables (v : VFS) (pid procfd : Nat) : SameTables v (v.sys20Listen pid procfd).2 := by
  apply onSocket_tables
  intro v socket data
  split
  · exact ⟨rfl,rfl⟩
  · exact ⟨rfl,rfl⟩

theorem connect_tables (v : VFS) (pid procfd : Nat) (address : SocketAddress) :
    SameTables v (v.sys21Connect pid procfd address).2 := by
  apply onSocket_tables
  intro v socket data
  repeat' split
  all_goals exact ⟨rfl,rfl⟩

theorem replace_tables (v : VFS) (fd f : Nat) :
    SameTables { v with files := v.files.replace fd f } (v.replaceFile fd f) := by
  unfold replaceFile
  dsimp only
  split
  · exact ⟨rfl,rfl⟩
  · exact ⟨files_release,descriptors_release⟩

theorem Consistent.dup2 (h : v.Consistent) (pid procfd replaced : Nat) : Steady v (v.dup2 pid procfd replaced).2 := by
  rcases v.dup2_cases pid procfd replaced with he | ⟨-,-,he⟩ | ⟨fd,f,hfd,-,he⟩
  · exact he ▸ h.same rfl rfl
  · exact he ▸ h.same rfl rfl
  have hl := h.live (pid,replaced) fd hfd
  obtain ⟨hf,ht⟩ := (v.acquire f).replace_tables fd f
  rw [he]
  constructor
  · rw [Consistent,hf,lookup_congr ht]
    dsimp [files_acquire]
    rw [v.files.get_replace (v.files.get_lt (get_mem hl))]
    exact OneToOne.replace h hl f
  · intro q
    rw [ht]
    rfl

variable (h : v.Consistent) (hpid : (v.fileDescriptors pid).isSome)
include h hpid
theorem Consistent.open (path : List Char) : Steady v (v.open pid path).2 := by
  unfold VFS.open
  split
  · exact h.same rfl rfl
  split
  · exact h.same rfl rfl
  dsimp only
  split
  · exact h.same rfl rfl
  next fileSize byteOffset hf =>
  have hm : Steady v (v.make fileSize (.fileAllocationTable byteOffset)).2 := h.same rfl rfl
  exact hm.trans (hm.consistent.addFile hpid _)

theorem Consistent.dup (procfd : Nat) : Steady v (v.dup pid procfd).2 := by
  unfold VFS.dup
  split
  · exact h.same rfl rfl
  · next f hf =>
    have ha : Steady v (v.acquire f) := h.same rfl rfl
    exact ha.trans (ha.consistent.addFile hpid f)

theorem Consistent.sys13Pipe : Steady v (v.sys13Pipe pid).2 := by
  generalize hp : v.drivers.layPipe.1 = pipe
  have hl : Steady v ((({ v with drivers := v.drivers.layPipe.2 } : VFS).make pipeBufSize
      (.pipe pipe .read)).2.make pipeBufSize (.pipe pipe .write)).2 := h.same rfl rfl
  have hr := hl.trans (hl.consistent.addFile hpid v.heap.length)
  have hw := hr.consistent.addFile ((hr.tables pid).trans hpid) (v.heap.length+1)
  have hs : (v.sys13Pipe pid).2 = (((((({ v with drivers := v.drivers.layPipe.2 } : VFS).make
      pipeBufSize (.pipe pipe .read)).2.make pipeBufSize (.pipe pipe .write)).2.addFile
        (some v.heap.length) pid).2).addFile (some (v.heap.length+1)) pid).2 := by
    rw [← hp]
    simp [VFS.sys13Pipe,VFS.make]
  rw [hs]
  exact hr.trans hw

theorem Consistent.addMade (hs : SameTables v v') (fileSize : Nat) (data : DriverData) :
    Steady v ((((v'.make fileSize data).2.acquire (v'.make fileSize data).1).addFile
      (some (v'.make fileSize data).1) pid).2.release (v'.make fileSize data).1) := by
  have hm : Steady v ((v'.make fileSize data).2.acquire (v'.make fileSize data).1) :=
    h.same hs.files hs.fileDescriptors
  have ha := hm.consistent.addFile ((hm.tables pid).trans hpid) (v'.make fileSize data).1
  have hr := ha.consistent.same (files_release (f := (v'.make fileSize data).1)) descriptors_release
  exact (hm.trans ha).trans hr

theorem Consistent.sys18Socket (domain : Nat) : Steady v (v.sys18Socket pid domain).2 := by
  unfold VFS.sys18Socket
  split
  · exact h.same rfl rfl
  · have hs : SameTables v { v with drivers := (v.drivers.socket pid).2 } := ⟨rfl,rfl⟩
    exact h.addMade hpid hs _ _

theorem Consistent.sys22Accept (procfd : Nat) : Steady v (v.sys22Accept pid procfd).2 := by
  unfold VFS.sys22Accept
  split
  · exact h.same rfl rfl
  next f hf =>
  have hb : SameTables v ((v.acquire f).release f) := ⟨files_release,descriptors_release⟩
  have hs : ∀ drivers, SameTables v { (v.acquire f).release f with drivers := drivers } :=
    fun _ => ⟨hb.files,hb.fileDescriptors⟩
  dsimp only
  split
  · exact hb.steady h
  split
  · exact (hs _).steady h
  split
  · exact (hs _).steady h
  split
  · exact (hs _).steady h
  · exact h.addMade hpid (hs _) _ _

theorem Consistent.call (request : Call) : Steady v (v.call pid request).2 := by
  cases request with
  | «open» path => exact h.open hpid path
  | close procfd => exact h.close pid procfd
  | read procfd byteCount device => exact (read_tables v pid procfd byteCount device).steady h
  | write procfd buffer byteCount device =>
    exact (write_tables v pid procfd buffer byteCount device).steady h
  | repfd procfd replaced => exact h.dup2 pid procfd replaced
  | pipe => exact h.sys13Pipe hpid
  | seek procfd offset whence => exact (sys14Seek_tables v pid procfd offset whence).steady h
  | dup procfd => exact h.dup hpid procfd
  | socket domain => exact h.sys18Socket hpid domain
  | bind procfd address => exact (bind_tables v pid procfd address).steady h
  | listen procfd => exact (listen_tables v pid procfd).steady h
  | connect procfd address => exact (connect_tables v pid procfd address).steady h
  | accept procfd => exact h.sys22Accept hpid procfd
end

theorem Consistent.addTable (h : v.Consistent) (hpid : v.fileDescriptors pid = none) :
    (v.addTable pid).Consistent ∧ (v.addTable pid).fileDescriptors pid = some .empty ∧
      (∀ q, q ≠ pid → (v.addTable pid).fileDescriptors q = v.fileDescriptors q) ∧
      (v.addTable pid).lookup = v.lookup := by
  have hl : (v.addTable pid).lookup = v.lookup := by
    funext k
    obtain ⟨q,i⟩ := k
    by_cases hq : q = pid
    · subst hq
      simp [VFS.addTable,setTable,lookup,procfdToFd,hpid]
    · simp [VFS.addTable,setTable,lookup,procfdToFd,hq]
  refine ⟨?_,by simp [VFS.addTable,setTable],?_,hl⟩
  · rw [Consistent,hl]
    exact h
  · intro q hq
    simp [VFS.addTable,setTable,hq]

theorem Consistent.openStandard (h : v.Consistent) (hpid : v.fileDescriptors pid = none)
    (hstd : v.stdin = none) : (v.openStandard pid).Consistent ∧
      ∀ q, ((v.openStandard pid).fileDescriptors q).isSome =
        (decide (q = pid) || (v.fileDescriptors q).isSome) := by
  obtain ⟨hc,he,ho,-⟩ := h.addTable hpid
  have ht : ∀ q, ((v.addTable pid).fileDescriptors q).isSome =
      (decide (q = pid) || (v.fileDescriptors q).isSome) := by
    intro q
    by_cases hq : q = pid
    · simp [hq,he]
    · simp [hq,ho q hq]
  have hop : (v.addTable pid).openStdin.1 = some v.heap.length := by
    simp [openStdin,VFS.addTable,setTable,hstd,make]
  have hs : Steady (v.addTable pid) (v.addTable pid).openStdin.2 := by
    unfold openStdin
    rw [show (v.addTable pid).stdin = none from hstd]
    exact hc.same rfl rfl
  have hst : v.openStandard pid = ((((((v.addTable pid).openStdin.2.addFile
      (v.addTable pid).openStdin.1 pid).2.make 0 .dbgOut).2.acquire
        ((v.addTable pid).openStdin.2.addFile (v.addTable pid).openStdin.1 pid).2.heap.length).addFile
      (some ((v.addTable pid).openStdin.2.addFile
        (v.addTable pid).openStdin.1 pid).2.heap.length) pid).2.addFile
      (some ((v.addTable pid).openStdin.2.addFile
        (v.addTable pid).openStdin.1 pid).2.heap.length) pid).2 := rfl
  rw [hst,hop]
  have hp' : ((v.addTable pid).fileDescriptors pid).isSome := by rw [he]; rfl
  have hi := hs.trans (hs.consistent.addFile ((hs.tables pid).trans hp') v.heap.length)
  generalize ((v.addTable pid).openStdin.2.addFile (some v.heap.length) pid).2 = w at *
  have hm : Steady w ((w.make 0 .dbgOut).2.acquire w.heap.length) := hi.consistent.same rfl rfl
  have hou := hi.trans hm
  have hf := hou.trans (hou.consistent.addFile ((hou.tables pid).trans hp') w.heap.length)
  have hb := hf.trans (hf.consistent.addFile ((hf.tables pid).trans hp') w.heap.length)
  exact ⟨hb.consistent,fun q => (hb.tables q).trans (ht q)⟩

section
variable {sysfd child : Nat} {c : SparseVector Nat} {garbage : List Nat} {done : List (Nat × Nat)} {w : VFS}
theorem pushGarbage_full (hf : c.idxs = []) (size sysfd steps : Nat)
    (hs : size-c.allocatedSize ≤ steps) : (pushGarbage size sysfd steps c).1.els =
        c.els ++ replicate (size-c.allocatedSize) (some sysfd) ∧
      (pushGarbage size sysfd steps c).1.idxs = [] ∧ (pushGarbage size sysfd steps c).2 =
        List.range' c.allocatedSize (size-c.allocatedSize) := by
  induction steps generalizing c with
  | zero =>
    have hn := Nat.le_zero.mp hs
    simp [pushGarbage,hn,hf]
  | succ steps ih =>
    unfold pushGarbage
    split
    · next hlt =>
      obtain ⟨hi,he,hid⟩ := c.insert_of_full sysfd hf
      have hsi : (c.insert sysfd).2.allocatedSize = c.allocatedSize+1 := by simp [allocatedSize,he]
      have hl : size-c.allocatedSize = (size-(c.allocatedSize+1))+1 := by omega
      obtain ⟨he',hi',hg⟩ := ih hid (by rw [hsi]; omega)
      rw [hsi,he] at he'
      rw [hsi] at hg
      refine ⟨?_,hi',?_⟩
      · rw [hl,replicate_succ,← singleton_append,← append_assoc]
        exact he'
      · rw [hl,range'_succ,← hg,← hi]
        rfl
    · next hge =>
      have hn : size-c.allocatedSize = 0 := by omega
      simp [hn,hf]

/-- The descriptors besides some garbage of one process. -/
def outside (v : VFS) (child : Nat) (garbage : List Nat) (k : Nat × Nat) : Option Nat :=
  if k.1 = child ∧ k.2 ∈ garbage then none else v.lookup k

/-- The loop of a fork, with the descriptors it has copied. -/
structure Copying (v : VFS) (child : Nat) (done : List (Nat × Nat)) (w : VFS)
    (c : SparseVector Nat) (garbage : List Nat) : Prop where
  table : w.fileDescriptors child = some c
  full : c.idxs = []
  inside : ∀ i ∈ garbage, i < c.allocatedSize
  reached : ∀ i < c.allocatedSize, ∃ pair ∈ done, i ≤ pair.1
  others : ∀ q ≠ child, w.fileDescriptors q = v.fileDescriptors q
  consistent : OneToOne (w.outside child garbage) w.files.get
  kept : ∀ fd f, v.files.get fd = some f → w.files.get fd = some f
  copied : ∀ pair ∈ done, (w.outside child garbage (child,pair.1)).isSome ∧
    (w.outside child garbage (child,pair.1)).bind w.files.get = v.files.get pair.2
  rest : ∀ i, (∀ pair ∈ done, pair.1 ≠ i) → w.outside child garbage (child,i) = none

theorem get_append_replicate {c c' : SparseVector Nat} {n x : Nat}
    (h : c'.els = c.els ++ replicate n (some x))
    (hi : i < c.allocatedSize ∨ c.allocatedSize+n ≤ i) : c'.get i = c.get i := by
  have hs : c.allocatedSize = c.els.length := rfl
  rw [SparseVector.get,SparseVector.get,h]
  rcases hi with hi | hi
  · rw [getElem?_append_left hi]
  · rw [getElem?_eq_none (by simp; omega),getElem?_eq_none (by omega)]

theorem get_past (h : c.allocatedSize ≤ i) : c.get i = none := by
  rw [SparseVector.get,getElem?_eq_none h]
  rfl

theorem outside_fill {c' : SparseVector Nat}
    (ht : w.fileDescriptors child = some c) (hl : c.allocatedSize ≤ procfd)
    (he : c'.els = c.els ++ replicate (procfd-c.allocatedSize) (some sysfd)) :
    (w.setTable child c').outside child
        (garbage ++ List.range' c.allocatedSize (procfd-c.allocatedSize)) =
      w.outside child garbage := by
  funext k
  obtain ⟨q,i⟩ := k
  by_cases hq : q = child
  · subst hq
    have hf : i ∈ List.range' c.allocatedSize (procfd-c.allocatedSize) ↔ c.allocatedSize ≤ i ∧ i < procfd := by
      rw [mem_range'_1]
      omega
    by_cases hg : i ∈ garbage
    · simp [outside,hg]
    by_cases hi : c.allocatedSize ≤ i ∧ i < procfd
    · simp [outside,hg,hf,hi,lookup,procfdToFd,ht,get_past hi.1]
    · have hs : c'.get i = c.get i := get_append_replicate he (by omega)
      simp [outside,hg,hf,hi,lookup,procfdToFd,ht,setTable,hs]
  · simp [outside,hq,lookup,procfdToFd,setTable]

theorem fileDescriptors_addFile (h : v.fileDescriptors pid = some c) (f : Nat) :
    (v.addFile (some f) pid).2.fileDescriptors = update v.fileDescriptors pid
      (some (c.insert (v.files.insert f).1).2) := by
  rw [addFile]
  simp only [pushBack,h]
  rfl

theorem Copying.next (h : Copying v child done w c garbage) (hn : ∀ pair ∈ done, pair.1 < procfd)
    (hf : v.files.get sysfd = some f) :
    ∃ c', Copying v child (done ++ [(procfd,sysfd)]) (w.copyDescriptor child procfd sysfd).1 c'
      (garbage ++ (w.copyDescriptor child procfd sysfd).2) := by
  have hle : c.allocatedSize ≤ procfd := by
    by_contra hg
    obtain ⟨pair,hpa,hr⟩ := h.reached procfd (by omega)
    exact absurd (hn pair hpa) (by omega)
  obtain ⟨hel,hid,hp⟩ := pushGarbage_full h.full procfd sysfd (procfd+c.idxs.length) (by omega)
  generalize hfil : pushGarbage procfd sysfd (procfd+c.idxs.length) c = filled at *
  obtain ⟨c1,pushed⟩ := filled
  dsimp only at hel hid hp
  have hs : c1.allocatedSize = procfd := by
    simp only [allocatedSize,hel,length_append,length_replicate]
    exact Nat.add_sub_cancel' hle
  -- the file is found where it was, and goes to the end of the table
  have ht : ((w.setTable child c1).acquire f).fileDescriptors child = some c1 := by simp [setTable]
  have hc : w.copyDescriptor child procfd sysfd =
      ((((w.setTable child c1).acquire f).addFile (some f) child).2, pushed) := by
    have hfile : (w.setTable child c1).files.get sysfd = some f := h.kept sysfd f hf
    simp [copyDescriptor,fill,h.table,hfil,hfile]
  have ha := addFile_adds ht f
  have hd := fileDescriptors_addFile ht f
  obtain ⟨hind,he2,hi2⟩ := c1.insert_of_full (((w.setTable child c1).acquire f).files.insert f).1 hid
  generalize hfd : (((w.setTable child c1).acquire f).files.insert f).1 = fd at *
  generalize hc2 : (c1.insert fd).2 = c2 at *
  rw [hind,hs] at ha
  rw [hc]
  generalize (((w.setTable child c1).acquire f).addFile (some f) child).2 = w2 at *
  have ho1 : ((w.setTable child c1).acquire f).outside child (garbage ++ pushed) = w.outside child garbage := by
    rw [hp]
    exact outside_fill h.table hle hel
  have hu : procfd ∉ garbage ++ pushed := by
    rw [hp,mem_append,mem_range'_1]
    rintro (hin | hin)
    · exact absurd (h.inside procfd hin) (by omega)
    · omega
  have ho : w2.outside child (garbage ++ pushed) = update (w.outside child garbage) (child,procfd) (some fd) := by
    rw [← ho1]
    funext k
    by_cases hk : k = (child,procfd)
    · subst hk
      simp [outside,hu,ha.lookup]
    · simp [outside,ha.lookup,hk]
  have hfi : w2.files.get = update w.files.get fd (some f) := ha.files
  have hfr : w.files.get fd = none := ha.newFile
  have hno : w.outside child garbage (child,procfd) = none :=
    h.rest procfd fun pair hpa => ne_of_lt (hn pair hpa)
  have hs2 : c2.allocatedSize = procfd+1 := by
    rw [allocatedSize,he2,length_append]
    exact congrArg (· + 1) hs
  refine ⟨c2,⟨?_,hi2,?_,?_,?_,?_,?_,?_,?_⟩⟩
  · simp [hd]
  · intro i hi
    rw [hs2]
    rw [hp,mem_append,mem_range'_1] at hi
    rcases hi with hi | hi
    · have := h.inside i hi
      omega
    · omega
  · intro i hi
    refine ⟨(procfd,sysfd),by simp,?_⟩
    rw [hs2] at hi
    omega
  · intro q hq
    rw [hd,update_of_ne hq]
    simp [setTable,hq,h.others q hq]
  · rw [ho,hfi]
    exact h.consistent.add hno hfr f
  · intro fd' f' hf'
    have hol := h.kept fd' f' hf'
    have hne : fd' ≠ fd := by
      rintro rfl
      simp [hfr] at hol
    rw [hfi,update_of_ne hne]
    exact hol
  · intro pair hpa
    rcases mem_append.mp hpa with hpa | hpa
    · have hne : (child,pair.1) ≠ (child,procfd) := by
        intro he
        exact absurd (hn pair hpa) (by simp [(Prod.mk.inj he).2])
      obtain ⟨hso,hsa⟩ := h.copied pair hpa
      rw [ho,update_of_ne hne,hfi]
      refine ⟨hso,?_⟩
      obtain ⟨fd',hfd'⟩ := isSome_iff_exists.mp hso
      have hl := h.consistent.live _ _ hfd'
      have hot : fd' ≠ fd := by
        rintro rfl
        simp [hfr] at hl
      rw [hfd',bind_some] at hsa ⊢
      rw [update_of_ne hot]
      exact hsa
    · cases mem_singleton.mp hpa
      simp [ho,hfi,hf]
  · intro i hi
    have hne : (child,i) ≠ (child,procfd) := by
      intro he
      exact hi (procfd,sysfd) (by simp) (Prod.mk.inj he).2.symm
    rw [ho,update_of_ne hne]
    exact h.rest i fun pair hpa => hi pair (mem_append_left _ hpa)

theorem Copying.start (h : v.Consistent) (hc : v.fileDescriptors child = some .empty) :
    Copying v child [] v .empty [] where
  table := hc
  full := rfl
  inside := by simp
  reached := by simp [allocatedSize,empty]
  others := fun _ _ => rfl
  consistent := by
    have hl : v.outside child [] = v.lookup := by
      funext k
      simp [outside]
    rw [hl]
    exact h
  kept := fun _ _ hf => hf
  copied := by simp
  rest := by
    intro i _
    simp [outside,lookup,procfdToFd,hc]

theorem Copying.all (h : Copying v child done w c garbage) (pairs : List (Nat × Nat))
    (hi : (done ++ pairs).Pairwise fun x y => x.1 < y.1)
    (hl : ∀ pair ∈ pairs, (v.files.get pair.2).isSome) :
    ∃ c', Copying v child (done ++ pairs) (pairs.foldl (copyNext child) (w,garbage)).1 c'
      (pairs.foldl (copyNext child) (w,garbage)).2 := by
  induction pairs generalizing w c done garbage with
  | nil => exact ⟨c,by simpa using h⟩
  | cons pair pairs ih =>
    obtain ⟨procfd,sysfd⟩ := pair
    obtain ⟨f,hf⟩ := isSome_iff_exists.mp (hl (procfd,sysfd) mem_cons_self)
    have hb : ∀ x ∈ done, x.1 < procfd := fun x hx =>
      (pairwise_append.mp hi).2.2 x hx (procfd,sysfd) mem_cons_self
    obtain ⟨c1,hn⟩ := h.next hb hf
    rw [append_cons] at hi ⊢
    exact ih hn hi fun x hx => hl x (mem_cons_of_mem _ hx)

theorem eraseDescriptors_spec (w : VFS) (child : Nat) (garbage : List Nat) :
    (w.eraseDescriptors child garbage).lookup = w.outside child garbage ∧
      (w.eraseDescriptors child garbage).files = w.files ∧
      ∀ q, ((w.eraseDescriptors child garbage).fileDescriptors q).isSome =
        (w.fileDescriptors q).isSome := by
  induction garbage generalizing w with
  | nil =>
    refine ⟨?_,rfl,fun _ => rfl⟩
    funext k
    simp [outside,eraseDescriptors]
  | cons procfd garbage ih =>
    obtain ⟨hl,hf,ht⟩ := ih (w.eraseDescriptor child procfd)
    have hc : w.eraseDescriptors child (procfd :: garbage) =
        (w.eraseDescriptor child procfd).eraseDescriptors child garbage := rfl
    rw [hc]
    refine ⟨?_,hf.trans files_erase,fun q => ?_⟩
    · rw [hl]
      funext k
      obtain ⟨q,i⟩ := k
      by_cases hk : (q,i) = (child,procfd)
      · cases hk
        simp [outside,lookup_erase]
      have hif : q = child ∧ (i = procfd ∨ i ∈ garbage) ↔ q = child ∧ i ∈ garbage := by
        constructor
        · rintro ⟨hq,hi | hi⟩
          · exact absurd (by rw [hq,hi]) hk
          · exact ⟨hq,hi⟩
        · rintro ⟨hq,hi⟩
          exact ⟨hq,.inr hi⟩
      simp [outside,lookup_erase,update_of_ne hk,hif]
    · rw [ht,erase_isSome]

structure Copies (v : VFS) (parent child : Nat) (v' : VFS) : Prop where
  steady : Steady v v'
  others : ∀ q i, q ≠ child → v'.lookup (q,i) = v.lookup (q,i) ∧ v'.file q i = v.file q i
  copied : ∀ i, (v'.lookup (child,i)).isSome = (v.lookup (parent,i)).isSome ∧
    v'.file child i = v.file parent i

theorem Consistent.copyDescriptors (h : v.Consistent) {parent : Nat}
    (hp : v.fileDescriptors parent = some c) (hc : v.fileDescriptors child = some .empty) :
    Copies v parent child (v.copyDescriptors parent child) := by
  have hl : ∀ i, v.lookup (parent,i) = c.get i := fun i => by simp [lookup,procfdToFd,hp]
  have hli : ∀ pair ∈ c.pairs, (v.files.get pair.2).isSome := fun pair hpa =>
    h.live (parent,pair.1) pair.2 ((hl pair.1).trans (c.mem_pairs.mp hpa))
  obtain ⟨c',ha⟩ := (Copying.start h hc).all c.pairs c.pairs_increasing hli
  rw [nil_append] at ha
  have hco : v.copyDescriptors parent child =
      (c.pairs.foldl (copyNext child) (v,[])).1.eraseDescriptors child
        (c.pairs.foldl (copyNext child) (v,[])).2 := by simp [VFS.copyDescriptors,hp]
  rw [hco]
  generalize (c.pairs.foldl (copyNext child) (v,[])).1 = w at *
  generalize (c.pairs.foldl (copyNext child) (v,[])).2 = garbage at *
  obtain ⟨hl',hfi,ht⟩ := eraseDescriptors_spec w child garbage
  generalize w.eraseDescriptors child garbage = v' at *
  constructor
  · constructor
    · rw [Consistent,hl',hfi]
      exact ha.consistent
    intro q
    rw [ht]
    by_cases hq : q = child
    · rw [hq,hc,ha.table]
      rfl
    · rw [ha.others q hq]
  · intro q i hq
    have hs : v'.lookup (q,i) = v.lookup (q,i) := by
      have ho := ha.others q hq
      rw [hl']
      simp [outside,hq,lookup,procfdToFd,ho]
    refine ⟨hs,?_⟩
    rw [file_eq,file_eq,hs,hfi]
    cases hfd : v.lookup (q,i) with
    | none => rfl
    | some fd =>
      obtain ⟨f,hf⟩ := isSome_iff_exists.mp (h.live _ _ hfd)
      rw [bind_some,bind_some,hf,ha.kept fd f hf]
  intro i
  rw [file_eq,file_eq,hl',hl,hfi]
  cases hfd : c.get i with
  | none =>
    have hr : w.outside child garbage (child,i) = none := by
      refine ha.rest i fun pair hpa he => ?_
      have hpa := c.mem_pairs.mp hpa
      rw [he,hfd] at hpa
      cases hpa
    simp [hr]
  | some fd =>
    obtain ⟨hso,hs⟩ := ha.copied (i,fd) (c.mem_pairs.mpr hfd)
    exact ⟨hso,hs⟩
end
end VFS
end LensorOS.Kernel
