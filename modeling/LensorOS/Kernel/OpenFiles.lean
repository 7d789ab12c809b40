import LensorOS.Kernel.Descriptors

/-!
# Open files of all processes

Runs of the kernel keep the descriptors of all processes and the table of open files in step.
-/
namespace LensorOS.Kernel
open Framework Storage Scheduler Option
theorem VFS.stdin_open (v : VFS) (pid : Nat) (path : List Char) : (v.open pid path).2.stdin = v.stdin := by
  unfold VFS.open
  split
  · rfl
  split
  · rfl
  dsimp only
  split
  · rfl
  unfold VFS.addFile
  dsimp only
  split <;> rfl

namespace State
variable {s s' : State} {p : Process}
/-- The processes are those with a table, and the tables are consistent. Before the first program
is started, there is no user process. -/
structure Sound (s : State) : Prop where
  wellformed : s.scheduler.Wellformed
  tables : ∀ pid, (s.vfs.fileDescriptors pid).isSome ↔ pid ∈ s.scheduler.ids
  consistent : s.vfs.Consistent
  booting : s.booted = false → s.vfs.stdin = none ∧ ∀ pid ∈ s.scheduler.ids, pid = 0

theorem caller_spec (h : s.caller = some p) :
    s.scheduler.process p.processID = some p ∧ p.processID = s.scheduler.currentProcess ∧
      p.state = .running ∧ p.processID ≠ 0 := by
  obtain ⟨hc,hn⟩ := filter_eq_some_iff.mp h
  obtain ⟨hpr,hcu,hr⟩ := Scheduler.State.caller_eq_some hc
  exact ⟨hpr,hcu,hr,by simpa using hn⟩

theorem caller_mem (h : s.caller = some p) : p.processID ∈ s.scheduler.ids := by
  rw [← Scheduler.State.process_isSome,(caller_spec h).1]
  rfl

theorem wellformed_init : Scheduler.State.initialized.Wellformed := ⟨by decide,by decide,by decide⟩

theorem ids_init : ∀ pid ∈ Scheduler.State.initialized.ids, pid = 0 := by decide

theorem sound_initial (mounts : List MountPoint) : Sound (initial mounts) where
  wellformed := wellformed_init
  tables := by
    intro pid
    by_cases hpi : pid = 0
    all_goals simp [initial,VFS.initial,hpi,Scheduler.State.ids,Scheduler.State.initialized]
  consistent := by
    have hl : ∀ k, (initial mounts).vfs.lookup k = none := by
      intro k
      by_cases hk : k.1 = 0
      all_goals simp [VFS.lookup,VFS.procfdToFd,initial,VFS.initial,hk]
    have hf : ∀ fd, (initial mounts).vfs.files.get fd = none := fun _ => rfl
    constructor
    · intro k fd hfd
      simp [hl] at hfd
    · intro k k' fd hfd
      simp [hl] at hfd
    · intro fd hfd
      simp [hf] at hfd
  booting := fun _ => ⟨rfl,ids_init⟩

namespace Sound
variable (h : Sound s)
include h
theorem booted (hp : s.caller = some p) : s.booted = true := by
  by_contra hn
  have hz := (h.booting (by simpa using hn)).2 p.processID (caller_mem hp)
  exact (caller_spec hp).2.2.2 hz

theorem hasTable (hp : s.caller = some p) : (s.vfs.fileDescriptors p.processID).isSome :=
  (h.tables p.processID).mpr (caller_mem hp)

theorem steady (hp : s.caller = some p) (hi : SameIds s.scheduler s'.scheduler)
    (hv : VFS.Steady s.vfs s'.vfs) (hb : s'.booted = s.booted) : Sound s' where
  wellformed := hi.wellformed h.wellformed
  tables := by
    intro pid
    rw [hv.tables,h.tables,hi.ids]
  consistent := hv.consistent
  booting := by
    intro hn
    rw [hb,h.booted hp] at hn
    cases hn

theorem scheduled (hi : SameIds s.scheduler s'.scheduler) (hv : s'.vfs = s.vfs)
    (hb : s'.booted = s.booted) : Sound s' where
  wellformed := hi.wellformed h.wellformed
  tables := by
    intro pid
    rw [hv,h.tables,hi.ids]
  consistent := hv ▸ h.consistent
  booting := by
    intro hn
    rw [hv,hi.ids]
    exact h.booting (hb ▸ hn)

theorem fileCall (hp : s.caller = some p) {request : VFS.Call} (hst : s.fileCall p request = some s') : Sound s' := by
  have hv := h.consistent.call (h.hasTable hp) request
  have hi := (sameIds_current s.scheduler).trans (sameIds_settle { s with
    scheduler := s.scheduler.readCurrent
    vfs := (s.vfs.call p.processID request).2 })
  have hs : VFS.Steady s.vfs (settle { s with
      scheduler := s.scheduler.readCurrent
      vfs := (s.vfs.call p.processID request).2 }).vfs := hv.trans (hv.consistent.same rfl rfl)
  unfold State.fileCall at hst
  dsimp only at hst
  split at hst
  · cases hst
    exact h.steady hp hi hs rfl
  obtain ⟨scheduler,hb,rfl⟩ := map_eq_some_iff.mp hst
  have hu := (hi.wellformed h.wellformed).unique
  exact h.steady hp (hi.trans (sameIds_block hu hb)) hs rfl

theorem exec (hp : s.caller = some p) {path : List Char} {loaded : Bool}
    (hst : s.exec p path loaded = some s') : Sound s' := by
  have ho := h.consistent.open (h.hasTable hp) path
  unfold State.exec at hst
  dsimp only at hst
  split at hst
  · cases hst
    exact h.steady hp ⟨rfl,rfl⟩ ho rfl
  next procfd hpr =>
  split at hst
  · obtain ⟨scheduler,hsw,rfl⟩ := map_eq_some_iff.mp hst
    have hc := ho.trans (ho.consistent.close p.processID procfd)
    have hi := (sameIds_settle { s with
      vfs := (s.vfs.open p.processID path).2.close p.processID procfd }).trans
        (sameIds_current _)
    have hs := sameIds_switch (hi.wellformed h.wellformed).unique hsw
    exact h.steady hp (hi.trans hs) (hc.trans (hc.consistent.same rfl rfl)) rfl
  · obtain ⟨scheduler,hb,rfl⟩ := map_eq_some_iff.mp hst
    exact h.steady hp (sameIds_block h.wellformed.unique hb) ho rfl

theorem newTable : s.vfs.fileDescriptors (s.scheduler.thePid+1) = none := by
  rw [← not_isSome_iff_eq_none,h.tables]
  exact h.wellformed.fresh

section
variable (hp : s.caller = some p)
include hp
theorem newPid_ne : p.processID ≠ s.scheduler.thePid+1 := by
  have hk := h.wellformed.known p.processID (caller_mem hp)
  omega

theorem copies :
    VFS.Copies (s.vfs.addTable (s.scheduler.thePid+1)) p.processID (s.scheduler.thePid+1)
      ((s.vfs.addTable (s.scheduler.thePid+1)).copyDescriptors p.processID
        (s.scheduler.thePid+1)) := by
  obtain ⟨hc,he,ho,-⟩ := h.consistent.addTable h.newTable
  obtain ⟨table,ht⟩ := isSome_iff_exists.mp (h.hasTable hp)
  have hpa := (ho p.processID (h.newPid_ne hp)).trans ht
  exact hc.copyDescriptors hpa he

theorem fork (cloned : Bool) : Sound (s.fork p cloned) := by
  have hw := (sameIds_current s.scheduler).wellformed h.wellformed
  obtain ⟨hi,hg,-⟩ := ids_added hw p.processID
  have ha := hw.addProcess p.processID
  cases cloned with
  | false =>
    refine ⟨?_,?_,h.consistent,?_⟩
    · exact ha.removeProcess (Scheduler.State.process_added hw p.processID) (by omega) (-1)
    · intro pid
      exact (h.tables pid).trans (iff_of_eq (congrArg (pid ∈ ·) hg.symm))
    intro hn
    rw [show (s.fork p false).booted = s.booted from rfl,h.booted hp] at hn
    cases hn
  | true =>
    have hc := h.copies hp
    obtain ⟨-,he,ho,-⟩ := h.consistent.addTable h.newTable
    have hs : SameIds (s.scheduler.readCurrent.addProcess p.processID)
        (s.fork p true).scheduler :=
      ⟨Scheduler.State.ids_update _ (fun p => { p with state := .running }) (fun _ => rfl) _,rfl⟩
    refine ⟨hs.wellformed ha,?_,hc.steady.consistent,?_⟩
    · intro pid
      rw [hs.ids,hi]
      change (((s.vfs.addTable _).copyDescriptors _ _).fileDescriptors pid).isSome ↔ _
      rw [hc.steady.tables]
      by_cases hne : pid = s.scheduler.thePid+1
      · rw [hne,he]
        simp [Scheduler.State.readCurrent]
      · rw [ho pid hne,h.tables]
        simp [Scheduler.State.readCurrent,hne,Scheduler.State.ids]
    · intro hn
      rw [show (s.fork p true).booted = s.booted from rfl,h.booted hp] at hn
      cases hn

theorem exit {status : BitVec 32} {next : Option Nat} (hst : s.exit p status next = some s') : Sound s' := by
  obtain ⟨hpr,-,-,hne⟩ := caller_spec hp
  obtain ⟨hc,ht⟩ := h.consistent.destroy p.processID
  have hw := (sameIds_current s.scheduler).wellformed h.wellformed
  have hp' := hpr
  have hr := hw.removeProcess hp' hne status
  obtain ⟨hi,-⟩ := s.scheduler.readCurrent.remove_fields hp' status
  obtain ⟨scheduler,hswi,rfl⟩ := map_eq_some_iff.mp hst
  have hs := sameIds_settle { s with
    scheduler := s.scheduler.readCurrent.removeProcess p.processID status
    vfs := s.vfs.destroy p.processID }
  have hsw := sameIds_fromFreed (hs.wellformed hr).unique hswi
  have hsa := hs.trans hsw
  refine ⟨hsa.wellformed hr,?_,(hc.same rfl rfl).consistent,?_⟩
  · intro pid
    refine (iff_of_eq (congrArg (· = true) (ht pid))).trans ?_
    rw [hsa.ids,hi,hw.unique.mem_erase_iff,Bool.and_eq_true,h.tables]
    simp [Scheduler.State.ids,Scheduler.State.readCurrent]
  intro hn
  have hn := hn
  rw [h.booted hp] at hn
  cases hn
end

theorem create (hno : s.booted = false) (path : List Char) (loaded : Bool) : Sound (s.create path loaded) := by
  have hz := (h.tables 0).mpr h.wellformed.startup
  have ho := h.consistent.open hz path
  have hstd := (VFS.stdin_open s.vfs 0 path).trans (h.booting hno).1
  unfold State.create
  dsimp only
  split
  · refine ⟨h.wellformed,?_,ho.consistent,fun hb => by cases hb⟩
    intro pid
    rw [ho.tables]
    exact h.tables pid
  · next procfd hpr =>
    have hw := (sameIds_current s.scheduler).wellformed h.wellformed
    obtain ⟨hi,hg,-⟩ := ids_added hw (2^64-1)
    have ha := hw.addProcess (2^64-1)
    cases loaded with
    | false =>
      have hc := ho.trans (ho.consistent.close 0 procfd)
      have hs := sameIds_settle ⟨s.scheduler.create false,(s.vfs.open 0 path).2.close 0 procfd,true⟩
      have hr : (s.scheduler.create false).Wellformed :=
        ha.removeProcess (Scheduler.State.process_added hw (2^64-1))
          (by omega) (-1)
      refine ⟨hs.wellformed hr,?_,(hc.consistent.same rfl rfl).consistent,
        fun hb => by cases hb⟩
      intro pid
      refine (iff_of_eq (congrArg (· = true) (hc.tables pid))).trans ((h.tables pid).trans ?_)
      refine iff_of_eq (congrArg (pid ∈ ·) ?_)
      exact hg.symm.trans hs.ids.symm
    | true =>
      have hne := h.newTable
      have hn : (s.vfs.open 0 path).2.fileDescriptors (s.scheduler.thePid+1) = none := by
        rw [← not_isSome_iff_eq_none,ho.tables,hne]
        simp
      obtain ⟨hst,ht⟩ := ho.consistent.openStandard hn hstd
      have hc := hst.close 0 procfd
      have hs := sameIds_settle ⟨s.scheduler.create true,
        ((s.vfs.open 0 path).2.openStandard (s.scheduler.thePid+1)).close 0 procfd,true⟩
      have hsa : SameIds (s.scheduler.readCurrent.addProcess (2^64-1))
          (s.scheduler.create true) :=
        ⟨Scheduler.State.ids_update _ (fun p => { p with state := .running }) (fun _ => rfl) _,rfl⟩
      refine ⟨(hsa.trans hs).wellformed ha,?_,
        (hc.consistent.same rfl rfl).consistent,fun hb => by cases hb⟩
      intro pid
      refine (iff_of_eq (congrArg (· = true) (hc.tables pid))).trans ?_
      rw [ht,ho.tables]
      refine Iff.trans ?_ (iff_of_eq (congrArg (pid ∈ ·) ((hsa.trans hs).ids.trans hi).symm))
      simp only [Bool.or_eq_true,decide_eq_true_eq,h.tables,List.mem_append,List.mem_singleton]
      exact or_comm

theorem step {call : Call} (hst : s.step call = some s') : Sound s' := by
  cases call with
  | create path loaded =>
    obtain ⟨⟨-,hn⟩,hst⟩ := ite_none_right_eq_some.mp hst
    cases hst
    exact h.create hn path loaded
  | file request =>
    obtain ⟨p,hp,hst⟩ := bind_eq_some_iff.mp hst
    exact h.fileCall hp hst
  | exec path loaded =>
    obtain ⟨p,hp,hst⟩ := bind_eq_some_iff.mp hst
    exact h.exec hp hst
  | fork cloned =>
    obtain ⟨p,hp,rfl⟩ := map_eq_some_iff.mp hst
    exact h.fork hp cloned
  | exit status next =>
    obtain ⟨p,hp,hst⟩ := bind_eq_some_iff.mp hst
    exact h.exit hp hst
  | waitpid pid =>
    obtain ⟨p,-,hst⟩ := bind_eq_some_iff.mp hst
    obtain ⟨scheduler,hw,rfl⟩ := map_eq_some_iff.mp hst
    exact h.scheduled (sameIds_waitpid h.wellformed.unique hw) rfl rfl
  | timer rax =>
    obtain ⟨scheduler,hs,rfl⟩ := map_eq_some_iff.mp hst
    exact h.scheduled (sameIds_switchProcess h.wellformed.unique hs) rfl rfl
end Sound

theorem sound_of_run {guard : State → Call → State → Prop} (h : Reachable Started step guard s) : Sound s := by
  induction h with
  | start h =>
    obtain ⟨mounts,rfl⟩ := h
    exact sound_initial mounts
  | next _ hs _ ih => exact ih.step hs

theorem step_close {procfd : Nat} (hp : s.caller = some p)
    (hs : s.step (.file (.close procfd)) = some s') :
    s'.vfs = { s.vfs.close p.processID procfd with wakes := [] } := by
  obtain ⟨q,hq,hs⟩ := bind_eq_some_iff.mp hs
  cases hq.symm.trans hp
  cases hs
  rfl

/-- In every run each open descriptor of a process names an open file, no two name the same one,
and each open file is named. Closing a descriptor affects no other, of any process. -/
theorem descriptors_one_to_one (h : Reachable Started step anyStep s) :
    (∀ pid procfd fd, s.vfs.procfdToFd pid procfd = some fd → (s.vfs.files.get fd).isSome) ∧
      (∀ pid procfd pid' procfd' fd, s.vfs.procfdToFd pid procfd = some fd →
        s.vfs.procfdToFd pid' procfd' = some fd → pid = pid' ∧ procfd = procfd') ∧
      (∀ fd, (s.vfs.files.get fd).isSome → ∃ pid procfd, s.vfs.procfdToFd pid procfd = some fd) ∧
      ∀ p procfd s', s.caller = some p → s.step (.file (.close procfd)) = some s' →
        ∀ pid' procfd', (pid',procfd') ≠ (p.processID,procfd) →
          s'.vfs.procfdToFd pid' procfd' = s.vfs.procfdToFd pid' procfd' ∧
            s'.vfs.file pid' procfd' = s.vfs.file pid' procfd' := by
  have hs := sound_of_run h
  refine ⟨?_,?_,?_,?_⟩
  · intro pid procfd fd hfd
    exact hs.consistent.live (pid,procfd) fd hfd
  · intro pid procfd pid' procfd' fd hfd hf'
    exact Prod.mk.inj (hs.consistent.distinct (pid,procfd) (pid',procfd') fd hfd hf')
  · intro fd hfd
    obtain ⟨⟨pid,procfd⟩,hk⟩ := hs.consistent.named fd hfd
    exact ⟨pid,procfd,hk⟩
  intro p procfd s' hp hst pid' procfd' hn
  obtain ⟨hl,hf⟩ := hs.consistent.close_other hn
  rw [step_close hp hst]
  exact ⟨hl,hf⟩

def oneFile : List MountPoint := [⟨['/'],fun _ => some (4096,0)⟩]

/-- The first process with a pipe, of which one standard descriptor is closed. -/
theorem descriptors_one_to_one_pipe : ∃ s, Reachable Started step anyStep s ∧
    s.vfs.procfdToFd 1 1 = none ∧ s.vfs.procfdToFd 1 3 = some 0 ∧ (s.vfs.files.get 0).isSome := by
  obtain ⟨s,hr,hc,ho⟩ : ∃ s, Reachable Started step anyStep s ∧
      s.vfs.procfdToFd 1 1 = none ∧ s.vfs.procfdToFd 1 3 = some 0 :=
    Reachable.exists_run ⟨oneFile,rfl⟩
      [.create ['/','a'] true,.timer 0,.file .pipe,.file (.close 1)] (by decide +kernel)
  exact ⟨s,hr,hc,ho,(descriptors_one_to_one hr).1 1 3 0 ho⟩

/-- In every run a fork gives the child the descriptors of its parent, for the same files, and
leaves the descriptors of all other processes alone. -/
theorem fork_copies_descriptors (h : Reachable Started step anyStep s) (hp : s.caller = some p)
    (hfork : s.step (.fork true) = some s') :
    (∀ procfd, (s'.vfs.procfdToFd (s.scheduler.thePid+1) procfd).isSome =
        (s.vfs.procfdToFd p.processID procfd).isSome ∧
      s'.vfs.file (s.scheduler.thePid+1) procfd = s.vfs.file p.processID procfd) ∧
      ∀ pid procfd, pid ≠ s.scheduler.thePid+1 →
        s'.vfs.procfdToFd pid procfd = s.vfs.procfdToFd pid procfd ∧
          s'.vfs.file pid procfd = s.vfs.file pid procfd := by
  have hs := sound_of_run h
  have hc := hs.copies hp
  obtain ⟨-,-,-,hl⟩ := hs.consistent.addTable hs.newTable
  have hf : ∀ pid procfd, (s.vfs.addTable (s.scheduler.thePid+1)).file pid procfd = s.vfs.file pid procfd := by
    intro pid procfd
    rw [VFS.file_eq,VFS.file_eq,hl]
    rfl
  obtain ⟨q,hq,rfl⟩ := map_eq_some_iff.mp hfork
  cases hq.symm.trans hp
  constructor
  · intro procfd
    have hco := hc.copied procfd
    rw [hl,hf] at hco
    exact hco
  intro pid procfd hn
  have ho := hc.others pid procfd hn
  rw [hl,hf] at ho
  exact ho

theorem fork_copies_descriptors_hole : ∃ s s', Reachable Started step anyStep s ∧
    s.step (.fork true) = some s' ∧ s.vfs.file 1 1 = none ∧ s'.vfs.file 2 1 = none ∧
      s'.vfs.file 2 3 = s.vfs.file 1 3 := by
  obtain ⟨s,hr,hpi,hc,hh⟩ : ∃ s, Reachable Started step anyStep s ∧
      s.scheduler.thePid = 1 ∧ (s.caller.any fun p => p.processID = 1) ∧ s.vfs.file 1 1 = none :=
    Reachable.exists_run ⟨oneFile,rfl⟩
      [.create ['/','a'] true,.timer 0,.file .pipe,.file (.close 1)] (by decide +kernel)
  obtain ⟨p,hp,ho⟩ := (any_eq_true _ _).mp hc
  have ho := of_decide_eq_true ho
  have hf : s.step (.fork true) = some (s.fork p true) := by
    rw [State.step,hp]
    rfl
  obtain ⟨hco,-⟩ := fork_copies_descriptors hr hp hf
  rw [hpi,ho] at hco
  exact ⟨s,s.fork p true,hr,hf,hh,(hco 1).2.trans hh,(hco 3).2⟩
end State
end LensorOS.Kernel
