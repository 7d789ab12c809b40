import LensorOS.Framework.SharedResources
import LensorOS.Kernel.CallEvents
import LensorOS.Kernel.OpenFiles

/-!
# References to files

The reference count of a file against the pointers to it. A call takes pointers of its own and has to
give them back; a read whose caller goes to sleep does not.
-/
namespace LensorOS.Kernel
open Framework Storage Scheduler Syscalls List Option Drivers
namespace VFS
variable {v v' : VFS} {f pid procfd fd : Nat} {held : List Nat}
/-- The references are the pointers in the table of open files and those that a call holds. A file
is closed, once, when there are none. -/
structure Balanced (v : VFS) (held : List Nat) : Prop where
  counted : ∀ f, v.refCount f = v.files.count f+held.count f
  closed : ∀ f, f ∈ v.closed ↔ f < v.heap.length ∧ v.refCount f = 0
  once : v.closed.Nodup

theorem refCount_of_length_le (h : v.heap.length ≤ f) : v.refCount f = 0 := by
  simp [refCount,getElem?_eq_none h]

theorem refCount_acquire (h : f < v.heap.length) (g : Nat) :
    (v.acquire f).refCount g = v.refCount g+if f = g then 1 else 0 := by
  by_cases he : f = g
  · subst he
    simp [refCount,acquire,h]
  · simp [refCount,acquire,he]

theorem Balanced.congr (h : Balanced v held) (hf : v'.files = v.files)
    (hc : ∀ f, v'.refCount f = v.refCount f) (hl : v'.heap.length = v.heap.length)
    (hcl : v'.closed = v.closed) : Balanced v' held where
  counted := by
    intro f
    rw [hc,hf]
    exact h.counted f
  closed := by
    intro f
    rw [hcl,hl,hc]
    exact h.closed f
  once := hcl ▸ h.once

theorem Balanced.same (h : Balanced v held) (hf : v'.files = v.files)
    (hh : v'.heap = v.heap) (hc : v'.closed = v.closed) : Balanced v' held := by
  apply h.congr hf _ (by rw [hh]) hc
  intro f
  rw [refCount,refCount,hh]

theorem Balanced.perm {he' : List Nat} (h : Balanced v held) (hp : held.Perm he') : Balanced v he' := by
  refine ⟨?_,h.closed,h.once⟩
  intro f
  rw [h.counted,hp.count_eq]

theorem lt_length_of_refCount (h : 0 < v.refCount f) : f < v.heap.length := by
  by_contra hg
  rw [refCount_of_length_le (by omega)] at h
  exact absurd h (lt_irrefl 0)

theorem Balanced.acquire (h : Balanced v held) (hf : 0 < v.refCount f) : Balanced (v.acquire f) (f :: held) := by
  have hlt := lt_length_of_refCount hf
  refine ⟨?_,?_,h.once⟩
  · intro g
    rw [refCount_acquire hlt,h.counted,files_acquire,count_cons,add_assoc]
    simp
  intro g
  have hl : (v.acquire f).heap.length = v.heap.length := by simp [VFS.acquire]
  rw [refCount_acquire hlt,hl]
  refine (h.closed g).trans ?_
  by_cases he : f = g
  · subst he
    simp [ne_of_gt hf]
  · simp [he]

theorem Balanced.held_pos (h : Balanced v (f :: held)) : 0 < v.refCount f := by
  rw [h.counted,count_cons_self]
  omega

theorem Balanced.release (h : Balanced v (f :: held)) : Balanced (v.release f) held := by
  have hlt := lt_length_of_refCount h.held_pos
  obtain ⟨shared,hs⟩ : ∃ shared, v.heap[f]? = some shared := ⟨_,getElem?_eq_getElem hlt⟩
  have hco : v.refCount f = shared.refCount := by simp [refCount,hs]
  have hse : ∀ g, ((v.heap.set f { shared with refCount := shared.refCount-1 })[g]?.map
      SharedFile.refCount).getD 0 = v.refCount g-if f = g then 1 else 0 := by
    intro g
    by_cases he : f = g
    · subst he
      simp [hlt,hco]
    · simp [he,refCount]
  have hc : ∀ g, v.refCount g-(if f = g then 1 else 0) = v.files.count g+held.count g := by
    intro g
    rw [h.counted,count_cons]
    by_cases he : f = g
    · simp [he]
    · simp [he]
  unfold VFS.release
  rw [hs]
  dsimp only
  split
  · next ho =>
    have hl : f ∉ v.closed := by
      rw [h.closed]
      omega
    refine ⟨fun g => (hse g).trans (hc g),?_,?_⟩
    · intro g
      change g ∈ v.closed ++ [f] ↔ g < (v.heap.set f _).length ∧
        ((v.heap.set f { shared with refCount := shared.refCount-1 })[g]?.map _).getD 0 = 0
      rw [hse,length_set,mem_append,mem_singleton,h.closed]
      by_cases he : f = g
      · subst he
        simp [hlt,hco,ho]
      · simp [he,Ne.symm he]
    · exact nodup_append.mpr ⟨h.once,nodup_singleton _,by
        intro a ha b hb he
        rw [mem_singleton.mp hb] at he
        exact hl (he ▸ ha)⟩
  · next hm =>
    refine ⟨fun g => (hse g).trans (hc g),?_,h.once⟩
    intro g
    change g ∈ v.closed ↔ g < (v.heap.set f _).length ∧
      ((v.heap.set f { shared with refCount := shared.refCount-1 })[g]?.map _).getD 0 = 0
    rw [hse,length_set,h.closed]
    by_cases he : f = g
    · subst he
      simp only [hlt,hco,if_true,true_and]
      omega
    · simp [he]

theorem Balanced.make (h : Balanced v held) (fileSize : Nat) (data : DriverData) :
    Balanced (v.make fileSize data).2 (v.heap.length :: held) := by
  have hc : ∀ f, (v.make fileSize data).2.refCount f = v.refCount f+if v.heap.length = f then 1 else 0 := by
    intro f
    simp only [refCount,VFS.make,getElem?_snoc]
    by_cases he : f = v.heap.length
    · simp [he]
    · simp [he,Ne.symm he]
  refine ⟨?_,?_,h.once⟩
  · intro f
    rw [hc,h.counted,count_cons]
    simp [VFS.make,add_assoc]
  intro f
  have hl : (v.make fileSize data).2.heap.length = v.heap.length+1 := by simp [VFS.make]
  rw [hc,hl]
  refine (h.closed f).trans ?_
  by_cases he : v.heap.length = f
  · simp [he]
  simp only [he,if_false,add_zero]
  constructor
  all_goals
    rintro ⟨hlt,hc⟩
    exact ⟨by omega,hc⟩

theorem heap_addFile (v : VFS) (f : Option Nat) (pid : Nat) : (v.addFile f pid).2.heap = v.heap ∧
    (v.addFile f pid).2.closed = v.closed ∧ (v.addFile f pid).2.files = (v.files.pushBack f).2 := by
  unfold VFS.addFile
  dsimp only
  split <;> exact ⟨rfl,rfl,rfl⟩

theorem Balanced.addFile (h : Balanced v (f :: held)) (pid : Nat) : Balanced (v.addFile (some f) pid).2 held := by
  obtain ⟨hh,hc,hf⟩ := heap_addFile v (some f) pid
  refine ⟨?_,?_,hc ▸ h.once⟩
  · intro g
    have hco := h.counted g
    rw [count_cons] at hco
    rw [refCount,hh,hf]
    change v.refCount g = (v.files.insert f).2.count g+held.count g
    rw [hco,SparseVector.count_insert]
    simp only [beq_iff_eq]
    omega
  · intro g
    rw [hc,refCount,hh]
    exact h.closed g

theorem Balanced.refCount_pos (h : Balanced v held) (hf : v.files.get fd = some f) : 0 < v.refCount f := by
  have hp := v.files.count_pos.mpr ⟨fd,hf⟩
  rw [h.counted]
  omega

theorem Balanced.erase (h : Balanced v held) (hf : v.files.get fd = some f) :
    Balanced { v with files := v.files.erase fd } (f :: held) := by
  refine ⟨?_,h.closed,h.once⟩
  intro g
  have hc := v.files.count_erase g hf
  have ho := h.counted g
  rw [count_cons]
  simp only [beq_iff_eq]
  change v.refCount g = _
  rw [ho,← hc]
  omega

theorem Balanced.replace {old : Nat} (h : Balanced v (f :: held)) (ho : v.files.get fd = some old) :
    Balanced { v with files := v.files.replace fd f } (old :: held) := by
  refine ⟨?_,h.closed,h.once⟩
  intro g
  have hco := v.files.count_replace g ho f
  have hc := h.counted g
  rw [count_cons] at hc ⊢
  simp only [beq_iff_eq] at hc ⊢
  change v.refCount g = _
  rw [hc]
  omega

theorem Balanced.modify (h : Balanced v held) (change : SharedFile → SharedFile)
    (hc : ∀ shared, (change shared).refCount = shared.refCount) :
    Balanced { v with heap := v.heap.modify f change } held := by
  refine Balanced.congr h rfl ?_ (length_modify _ _ _) rfl
  intro g
  simp only [refCount,getElem?_modify]
  by_cases he : f = g
  · cases hs : v.heap[g]? with
    | none => simp
    | some shared => simp [he,hc]
  · simp [he]

theorem balanced_erases : Erases fun a b => Balanced a.1 a.2 → Balanced b.1 b.2 where
  trans := fun h h' ha => h' (h ha)
  tables := fun _ _ hh hc hfi hp ha => (ha.same hfi hh hc).perm hp
  add := fun _ _ _ pid ha => ha.addFile pid
  acquire := by
    intro v f held hf ha
    apply ha.acquire
    rcases hf with hhe | ⟨fd,hfd⟩
    · rw [ha.counted]
      exact Nat.add_pos_right _ (count_pos_iff.mpr hhe)
    · exact ha.refCount_pos hfd
  release := fun _ _ _ ha => ha.release
  modify := fun _ _ change _ _ hco ha => ha.modify change hco
  make := fun _ fileSize data _ _ ha => ha.make fileSize data
  layPipe := fun _ _ ha => ha.same rfl rfl rfl
  openInput := fun _ _ ha => ha.same rfl rfl rfl
  erase := fun _ hf ha => ha.erase hf
  replace := fun _ _ ho ha => ha.replace ho

def Replies (v : VFS) (pid procfd : Nat) (device : Option Nat) : Prop :=
  ∀ f file, v.file pid procfd = some f → v.metadata f = some file → file.offset < file.fileSize →
    ∀ n object, (v.drivers.read file.driverData pid n device).reply ≠ .blocks object

theorem Balanced.call (h : Balanced v held) (hv : v.Consistent) (pid : Nat) (request : Call) :
    ∃ left, Balanced (v.call pid request).2 (left ++ held) ∧
      ((∀ procfd byteCount device, request = .read procfd byteCount device →
        v.Replies pid procfd device) → left = []) := by
  obtain ⟨w,left,-,hfo⟩ := balanced_erases.call (fun _ _ => h.refCount_pos) hv held pid request
  generalize v.call pid request = result at hfo ⊢
  obtain ⟨result,v'⟩ := result
  cases hfo with
  | returns hwa hma hR =>
    refine ⟨[],hR ?_,fun _ => rfl⟩
    cases hma with
    | none hh hc hfi hwa => exact h.same hfi hh hc
    | @socket drivers socket hw =>
      have hd := h.same rfl rfl rfl
      subst hw
      exact (hd.make socketRxBufferSize (.socket socket)).same rfl rfl rfl
  | writes hm hre hw => exact ⟨[],h.same rfl rfl rfl,fun _ => rfl⟩
  | @reads effect object rax f hm hre hw hf hrea =>
    obtain ⟨procfd,hf⟩ := hf
    obtain ⟨fd,-,hfd⟩ := bind_eq_some_iff.mp hf
    have ha : Balanced (v.apply effect) held := h.same rfl rfl rfl
    refine ⟨[f],ha.acquire (ha.refCount_pos hfd),?_⟩
    obtain ⟨procfd,byteCount,device,rfl⟩ := hrea
    intro hr
    obtain ⟨g,hg,hm⟩ := bind_eq_some_iff.mp hm
    obtain ⟨file,hfil,hm⟩ := bind_eq_some_iff.mp hm
    obtain ⟨hcu,he⟩ := ite_none_left_eq_some.mp hm
    cases he
    exact absurd hre (hr procfd byteCount device rfl g file hg hfil (by omega) _ object)
  | accepts hw => exact ⟨[],hw ▸ h.same rfl rfl rfl,fun _ => rfl⟩
end VFS

/-- A read of the file has nothing to return, and waits. -/
def Drivers.starved (d : Drivers) : DriverData → Bool
  | .dbgOut => false
  | .fileAllocationTable _ => false
  | .input input => d.inputs[input]?.any fun b => b.stream.offset = 0
  | .pipe pipe _ => d.pipes[pipe]?.any fun b => b.stream.offset = 0 ∧ b.writeClosed = false
  | .socket socket =>
    match d.buffersOf socket with
    | none => false
    | some (.client,b) => d.fifos[b.txBuffer]?.any fun b => b.stream.offset = 0
    | some (.server,b) => d.fifos[b.rxBuffer]?.any fun b => b.stream.offset = 0

theorem Drivers.readFifo_replies {d : Drivers} {fifo pid n : Nat}
    (h : (d.fifos[fifo]?.any fun b => decide (b.stream.offset = 0)) = false)
    (object : WaitObject) : (d.readFifo fifo pid n).reply ≠ .blocks object := by
  unfold readFifo
  split
  · simp
  · next b hb =>
    have ho : b.stream.offset ≠ 0 := by simpa [hb] using h
    simp [FIFOBuffer.read_result ho,Reply.of]

theorem Drivers.read_replies {d : Drivers} {data : DriverData} (h : d.starved data = false)
    (pid n : Nat) (device : Option Nat) (object : WaitObject) :
    (d.read data pid n device).reply ≠ .blocks object := by
  cases data with
  | dbgOut => simp [read]
  | fileAllocationTable byteOffset =>
    cases device with
    | none | some count => simp [read,deviceReply]
  | input input =>
    unfold read readInput
    dsimp only
    split
    · simp
    · next b hb =>
      have ho : b.stream.offset ≠ 0 := by simpa [starved,hb] using h
      simp [InputBuffer.read_result ho,Reply.of]
  | pipe pipe pipeEnd =>
    unfold read readPipe
    dsimp only
    split
    · simp
    next b hb =>
    by_cases ho : b.stream.offset = 0
    · have hc : b.writeClosed = true := by simpa [starved,hb,ho] using h
      simp [PipeBuffer.read,ho,hc,Reply.of]
    · simp [PipeBuffer.read_result ho,Reply.of]
  | socket socket =>
    unfold read readSocket
    dsimp only
    split
    · simp
    all_goals
      next b hb =>
      simp only [starved,hb] at h
      exact readFifo_replies h object

namespace State
variable {s s' : State} {p : Process}
/-- No read is made of a file that has bytes left to its size and nothing to return. -/
def NoStarvedRead (s : State) (call : Call) (_ : State) : Prop :=
  ∀ procfd byteCount device p f file, call = .file (.read procfd byteCount device) →
    s.caller = some p → s.vfs.file p.processID procfd = some f → s.vfs.metadata f = some file →
      file.offset < file.fileSize → s.vfs.drivers.starved file.driverData = false

theorem balanced_step (hso : Sound s) {held : List Nat} (h : s.vfs.Balanced held) {call : Call}
    (hste : s.step call = some s') : ∃ left, s'.vfs.Balanced (left ++ held) ∧
      (NoStarvedRead s call s' → left = []) := by
  have hop := VFS.balanced_erases
  have hfi := step_files hste
  generalize s'.vfs = v, s'.booted = booted at hfi ⊢
  have hg : v.Balanced held → ∃ left, v.Balanced (left ++ held) ∧
      (NoStarvedRead s call s' → left = []) := fun hv => ⟨[],hv,fun _ => rfl⟩
  cases hfi with
  | opened hb => exact hg (hop.open s.vfs held 0 _ h)
  | @created path loaded procfd hb =>
    apply hg
    have ho := hop.open s.vfs held 0 path h
    cases loaded with
    | false => exact (hop.close _ held 0 procfd ho).same rfl rfl rfl
    | true =>
      have hst : (s.vfs.open 0 path).2.stdin = none := by rw [VFS.stdin_open,(hso.booting hb).1]
      have hs := hop.openStandard held hst (s.scheduler.thePid+1) ho
      exact (hop.close _ held 0 procfd hs).same rfl rfl rfl
  | @file request p hp =>
    obtain ⟨left,hca,hl⟩ := h.call hso.consistent p.processID request
    refine ⟨left,hca.same rfl rfl rfl,fun hr => hl ?_⟩
    rintro procfd byteCount device rfl f file hf hfil hc n object
    exact read_replies (hr procfd byteCount device p f file rfl hp hf hfil hc) _ n device object
  | @stuck path loaded p hp => exact hg (hop.open s.vfs held p.processID path h)
  | @replaced path loaded p procfd hp ho =>
    have ho := hop.open s.vfs held p.processID path h
    exact hg ((hop.close _ held p.processID procfd ho).same rfl rfl rfl)
  | @forked p hp =>
    have ht : (s.vfs.addTable (s.scheduler.thePid+1)).Balanced held := h.same rfl rfl rfl
    exact hg (hop.copyDescriptors _ held p.processID _ ht)
  | @exited status next p hp => exact hg ((hop.destroy s.vfs held p.processID h).same rfl rfl rfl)
  | kept hca => exact hg h

theorem balanced_initial (mounts : List MountPoint) : (initial mounts).vfs.Balanced [] where
  counted := by
    intro f
    rfl
  closed := by
    intro f
    simp [initial,VFS.initial]
  once := nodup_nil

section
variable {guard : State → Call → State → Prop} (h : Reachable Started step guard s)
include h
theorem balanced_of_run : ∃ held, s.vfs.Balanced held := by
  induction h with
  | start h =>
    obtain ⟨mounts,rfl⟩ := h
    exact ⟨[],balanced_initial mounts⟩
  | next hr hs hg ih =>
    obtain ⟨held,hh⟩ := ih
    obtain ⟨left,hl,-⟩ := balanced_step (sound_of_run hr) hh hs
    exact ⟨left ++ held,hl⟩

theorem live_of_run (fd f : Nat) (hf : s.vfs.files.get fd = some f) : 0 < s.vfs.refCount f := by
  obtain ⟨held,hb⟩ := balanced_of_run h
  exact hb.refCount_pos hf
end

/-- While no read has to wait, the references of each file are its entries in the table of open
files, and its driver has closed it, once, exactly when there is none left. -/
theorem references_counted (h : Reachable Started step NoStarvedRead s) :
    (∀ f, s.vfs.refCount f = s.vfs.files.count f) ∧
      (∀ f, f ∈ s.vfs.closed ↔ f < s.vfs.heap.length ∧ s.vfs.files.count f = 0) ∧
      s.vfs.closed.Nodup := by
  have hb : s.vfs.Balanced [] := by
    induction h with
    | start h =>
      obtain ⟨mounts,rfl⟩ := h
      exact balanced_initial mounts
    | next hr hs hre ih =>
      obtain ⟨left,hl,hn⟩ := balanced_step (sound_of_run hr) ih hs
      rw [hn hre] at hl
      exact hl
  have hc : ∀ f, s.vfs.refCount f = s.vfs.files.count f := fun f => hb.counted f
  refine ⟨hc,?_,hb.once⟩
  intro f
  rw [hb.closed,hc]

/-- A pipe whose read end is closed with its only descriptor. -/
theorem references_counted_pipe : ∃ s, Reachable Started step NoStarvedRead s ∧
    3 ∈ s.vfs.closed ∧ s.vfs.files.count 3 = 0 ∧ s.vfs.refCount 4 = s.vfs.files.count 4 := by
  obtain ⟨s,hr,hc⟩ : ∃ s, Reachable Started step NoStarvedRead s ∧ 3 ∈ s.vfs.closed := by
    refine Reachable.exists_checked ⟨oneFile,rfl⟩
      (fun _ call =>
        match call with
        | .file (.read _ _ _) => false
        | _ => true) ?_
      [.create ['/','a'] true,.timer 0,.file .pipe,.file (.close 3)] (by decide +kernel)
    rintro s call s' ht procfd byteCount device p f file rfl
    cases ht
  obtain ⟨hco,hi,-⟩ := references_counted hr
  exact ⟨s,hr,hc,((hi 3).mp hc).2,hco 4⟩

/-- A process reads from its own empty pipe. The file has two references, and one entry in the
table of open files. -/
theorem references_leaked : ∃ s, Reachable Started step anyStep s ∧
    s.vfs.refCount 3 = 2 ∧ s.vfs.files.count 3 = 1 := Reachable.exists_run ⟨oneFile,rfl⟩
    [.create ['/','a'] true,.timer 0,.file .pipe,.file (.read 3 1 none)] (by decide +kernel)

/-- In every run `dup2` lets one descriptor denote the file of another, drops the reference it had,
and affects no other descriptor, of any process; a call that fails changes nothing. -/
theorem dup2_redirects (h : Reachable Started step anyStep s) (pid procfd replaced : Nat) :
    ((s.vfs.dup2 pid procfd replaced).1 = true → ∃ f old,
      s.vfs.file pid procfd = some f ∧ s.vfs.file pid replaced = some old ∧
      (s.vfs.dup2 pid procfd replaced).2.file pid procfd = some f ∧
      (s.vfs.dup2 pid procfd replaced).2.file pid replaced = some f ∧
      (∀ k, (s.vfs.dup2 pid procfd replaced).2.lookup k = s.vfs.lookup k ∧ (k ≠ (pid,replaced) →
          (s.vfs.dup2 pid procfd replaced).2.file k.1 k.2 = s.vfs.file k.1 k.2)) ∧
      ∀ g, (s.vfs.dup2 pid procfd replaced).2.refCount g+(if old = g then 1 else 0) =
        s.vfs.refCount g+if f = g then 1 else 0) ∧ ((s.vfs.dup2 pid procfd replaced).1 = false →
      (s.vfs.dup2 pid procfd replaced).2 = s.vfs) := by
  have hv := (sound_of_run h).consistent
  obtain ⟨held,hh⟩ := balanced_of_run h
  have hb := VFS.balanced_erases.dup2 held hv pid procfd replaced hh
  rcases s.vfs.dup2_cases pid procfd replaced with he | ⟨rfl,hso,he⟩ | ⟨fd,f,hfd,hf,he⟩
  · simp [he]
  · obtain ⟨fd,hfd⟩ := isSome_iff_exists.mp hso
    obtain ⟨f,hg⟩ := isSome_iff_exists.mp (hv.live (pid,procfd) fd hfd)
    have hf : s.vfs.file pid procfd = some f := by simp [VFS.file,hfd,hg]
    simp [he,hf]
  obtain ⟨old,hol⟩ := isSome_iff_exists.mp (hv.live (pid,replaced) fd hfd)
  obtain ⟨hfi,ht⟩ := (s.vfs.acquire f).replace_tables fd f
  have hl := VFS.lookup_congr ht
  have hg := s.vfs.files.get_replace (s.vfs.files.get_lt hol) f
  rw [he] at hb ⊢
  -- what a descriptor denotes is looked up in the table with one entry replaced
  have hfil : ∀ k, ((s.vfs.acquire f).replaceFile fd f).file k.1 k.2 =
      (s.vfs.lookup k).bind (Function.update s.vfs.files.get fd (some f)) := by
    intro k
    rw [VFS.file_eq,hl,hfi,← hg]
    rfl
  have hk : s.vfs.lookup (pid,replaced) = some fd := hfd
  have hn : ((s.vfs.acquire f).replaceFile fd f).file pid replaced = some f := by
    rw [hfil (pid,replaced),hk]
    simp
  have ho : ∀ k, k ≠ (pid,replaced) →
      ((s.vfs.acquire f).replaceFile fd f).file k.1 k.2 = s.vfs.file k.1 k.2 := by
    intro k hne
    rw [hfil,hv.replace_other hk hne]
    rfl
  refine ⟨fun _ => ⟨f,old,hf,?_,?_,?_,?_,?_⟩,by simp⟩
  · simp [VFS.file,hfd,hol]
  · by_cases hs : procfd = replaced
    · rw [hs,hn]
    · rw [ho (pid,procfd) (by simp [hs]),hf]
  · exact hn
  · exact fun k => ⟨congrFun hl k,ho k⟩
  intro g
  have hc := s.vfs.files.count_replace g hol f
  have ha := hb.counted g
  rw [hfi] at ha
  rw [ha,hh.counted g]
  dsimp [VFS.files_acquire]
  omega

/-- The write end of a pipe is replaced by its read end, and closed with its only descriptor. -/
theorem dup2_redirects_pipe : ∃ s, Reachable Started step anyStep s ∧
    s.vfs.file 1 4 = some 4 ∧ (s.vfs.dup2 1 3 4).2.file 1 4 = some 3 ∧
      (s.vfs.dup2 1 3 4).2.refCount 3 = 2 ∧ (s.vfs.dup2 1 3 4).2.refCount 4 = 0 := by
  obtain ⟨s,hr,hd2,hre,hw,hc⟩ : ∃ s, Reachable Started step anyStep s ∧
      (s.vfs.dup2 1 3 4).1 = true ∧ s.vfs.file 1 3 = some 3 ∧ s.vfs.file 1 4 = some 4 ∧
        s.vfs.refCount 3 = 1 ∧ s.vfs.refCount 4 = 1 := Reachable.exists_run ⟨oneFile,rfl⟩
      [.create ['/','a'] true,.timer 0,.file .pipe] (by decide +kernel)
  obtain ⟨f,old,hf,ho,-,hn,-,hco⟩ := (dup2_redirects hr 1 3 4).1 hd2
  cases hf.symm.trans hre
  cases ho.symm.trans hw
  exact ⟨s,hr,hw,hn,by simpa [hc] using hco 3,by simpa [hc] using hco 4⟩
end State

namespace VFS
variable {v : VFS} {pid : Nat}
/-- If no entry was added to the table of open files, both descriptors that are returned are invalid
and the descriptors of all processes are the same. -/
def AddReported (v : VFS) (f : Option Nat) (pid : Nat) : Prop :=
  (v.addFile f pid).2.files = v.files →
    ((v.addFile f pid).1 : Int) = -1 ∧ ((v.files.pushBack f).1 : Int) = -1 ∧
      (v.addFile f pid).2.fileDescriptors = v.fileDescriptors

theorem openStdin_steady (hv : v.Consistent) (ho : ∀ f, v.stdin = some f → 0 < v.refCount f) :
    ∃ f, v.openStdin.1 = some f ∧ Steady v v.openStdin.2 := by
  unfold openStdin
  cases hst : v.stdin with
  | none => exact ⟨v.heap.length,rfl,hv.same rfl rfl⟩
  | some f =>
    have hp := ho f hst
    cases hs : v.heap[f]? with
    | none => simp [refCount,hs] at hp
    | some shared =>
      have hl : v.lock f = (some f,v.acquire f) := by
        simp [lock,hs,Nat.pos_iff_ne_zero.mp (by simpa [refCount,hs] using hp)]
      dsimp only
      rw [hl]
      exact ⟨f,rfl,hv.same rfl rfl⟩

/-- The registration of a file is reported exactly if there is one. A null pointer comes from the
input driver where its file was closed; with an open file the descriptor has a file of its own. -/
theorem add_reported_iff (hv : v.Consistent) (hpid : (v.fileDescriptors pid).isSome) :
    (∀ f, v.AddReported f pid ↔ f.isSome) ∧ ((∀ f, v.stdin = some f → 0 < v.refCount f) →
        (v.openStdin.2.addFile v.openStdin.1 pid).2.Consistent) := by
  constructor
  · intro f
    obtain ⟨table,ht⟩ := isSome_iff_exists.mp hpid
    cases f with
    | none =>
      refine iff_of_false (fun h => ?_) (by simp)
      have hfi : (v.addFile none pid).2.files = v.files := by
        simp only [addFile,ht]
        rfl
      exact absurd (h hfi).1 (by omega)
    | some f =>
      refine iff_of_true (fun hsa => ?_) rfl
      have ha := addFile_adds ht f
      have hn := ha.newFile
      rw [← congrArg SparseVector.get hsa,ha.files,Function.update_self] at hn
      cases hn
  · intro ho
    obtain ⟨f,hf,hs⟩ := openStdin_steady hv ho
    rw [hf]
    exact (hs.consistent.addFile ((hs.tables pid).trans hpid) f).consistent

theorem add_reported_initial : ¬ (initial []).AddReported none 0 ∧ (initial []).AddReported (some 0) 0 ∧
    ((initial []).openStdin.2.addFile (initial []).openStdin.1 0).2.Consistent := by
  have hv : (initial []).Consistent := (State.sound_initial []).consistent
  have hp : ((initial []).fileDescriptors 0).isSome := rfl
  obtain ⟨hr,hs⟩ := add_reported_iff hv hp
  exact ⟨by simp [hr],by simp [hr],hs nofun⟩

/-- Process 1 closes its input and lays a pipe. The descriptor for the input of process 2 stands for
the read end of that pipe. -/
theorem input_aliases_pipe : let v := ((((initial []).openStandard 1).close 1 0).sys13Pipe 1).2
    (v.stdin.bind fun f => v.heap[f]?).map SharedFile.refCount = some 0 ∧
      (v.metadata 2).map FileMetadata.driverData = some (.pipe 0 .read) ∧ v.file 1 0 = some 2 ∧
      (v.openStandard 2).file 2 0 = some 2 := by decide
end VFS
end LensorOS.Kernel
