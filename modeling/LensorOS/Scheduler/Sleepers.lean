import LensorOS.Framework.WaitLists
import LensorOS.Scheduler.Actions

/-!
# Sleeping processes

What each process sleeps on, and who waits for its exit. Wake-ups change the first, and are found
in the log with what the process slept on.
-/
namespace LensorOS.Scheduler
open Framework Option Function
namespace State
variable {s s' s'' : State} {pid : Nat} {p q' : Process} {object : WaitObject} {rax : BitVec 64}
def asleepOn (s : State) (pid : Nat) : Option WaitObject :=
  (s.process pid).bind fun p => if p.state = .sleeping then p.asleepOn else none

def waiters (s : State) (pid : Nat) : List Nat := ((s.process pid).map Process.waitingList).getD []

/-- Every wake-up found its process asleep on the object that it was woken up for. -/
def WokenRightly (s : State) : Prop := ∀ wake ∈ s.wakes, wake.state = .sleeping ∧ wake.asleepOn = some wake.cause

structure SameWaits (s s' : State) : Prop where
  asleepOn : s'.asleepOn = s.asleepOn
  waiters : s'.waiters = s.waiters
  wakes : s'.wakes = s.wakes

/-- The processes are the same up to their registers, zombie records and calls in progress. -/
structure SameSleep (s s' : State) : Prop where
  process : ∀ x, (s'.process x).map (fun p => (p.state,p.asleepOn,p.waitingList)) =
    (s.process x).map fun p => (p.state,p.asleepOn,p.waitingList)
  wakes : s'.wakes = s.wakes

theorem asleepOn_eq_some (h : s.asleepOn pid = some object) :
    ∃ p, s.process pid = some p ∧ p.state = .sleeping ∧ p.asleepOn = some object := by
  obtain ⟨p,hp,ha⟩ := bind_eq_some_iff.mp h
  obtain ⟨hs,ho⟩ := ite_none_right_eq_some.mp ha
  exact ⟨p,hp,hs,ho⟩

theorem asleepOn_of_running (hp : s.process pid = some p) (hr : p.state = .running) : s.asleepOn pid = none := by
  simp [asleepOn,hp,hr]

theorem SameWaits.trans (h : SameWaits s s') (h' : SameWaits s' s'') : SameWaits s s'' :=
  ⟨h'.asleepOn.trans h.asleepOn,h'.waiters.trans h.waiters,h'.wakes.trans h.wakes⟩

theorem SameWaits.wokenRightly (h : SameWaits s s') (hs : WokenRightly s) : WokenRightly s' := by
  intro wake hw
  exact hs wake (h.wakes ▸ hw)

theorem SameSleep.refl (s : State) : SameSleep s s := ⟨fun _ => rfl,rfl⟩

theorem SameSleep.trans (h : SameSleep s s') (h' : SameSleep s' s'') : SameSleep s s'' :=
  ⟨fun x => (h'.process x).trans (h.process x),h'.wakes.trans h.wakes⟩

theorem SameSleep.state (h : SameSleep s s') (hq' : s'.process pid = some q') :
    ∃ q, s.process pid = some q ∧ q'.state = q.state := by
  have hs := h.process pid
  rw [hq',map_some] at hs
  obtain ⟨q,hq,hf⟩ := map_eq_some_iff.mp hs.symm
  exact ⟨q,hq,(congrArg Prod.fst hf).symm⟩

theorem SameSleep.sameWaits (h : SameSleep s s') : SameWaits s s' := by
  refine ⟨?_,?_,h.wakes⟩
  · have hr : ∀ t : State, t.asleepOn = fun x =>
        ((t.process x).map fun p => (p.state,p.asleepOn,p.waitingList)).bind fun fields =>
          if fields.1 = .sleeping then fields.2.1 else none := by
      intro t
      funext x
      rw [asleepOn,bind_map]
      rfl
    rw [hr,hr]
    simp [h.process]
  have hr : ∀ t : State, t.waiters = fun x =>
      (((t.process x).map fun p => (p.state,p.asleepOn,p.waitingList)).map
        fun fields => fields.2.2).getD [] := by
    intro t
    funext x
    rw [waiters,map_map]
    rfl
  rw [hr,hr]
  simp [h.process]

theorem sameSleep_queue (hq : s'.processQueue = s.processQueue) (hw : s'.wakes = s.wakes) : SameSleep s s' := by
  refine ⟨?_,hw⟩
  intro x
  rw [process,process,hq]

theorem sameSleep_current (s : State) : SameSleep s s.readCurrent := sameSleep_queue rfl rfl

theorem sameSleep_record (s : State) (event : Event) : SameSleep s (s.record event) := sameSleep_queue rfl rfl

theorem sameSleep_update (s : State) (pid : Nat) (change : Process → Process)
    (hi : ∀ p, (change p).processID = p.processID)
    (hc : ∀ p, ((change p).state, (change p).asleepOn, (change p).waitingList) =
      (p.state,p.asleepOn,p.waitingList)) : SameSleep s (s.update pid change) := by
  refine ⟨?_,rfl⟩
  intro x
  rw [process_update s pid change hi]
  split
  · rw [map_map]
    exact congrArg (fun f => Option.map f (s.process x)) (funext hc)
  · rfl

theorem sameSleep_resume (hp : s.process p.processID = some p) : SameSleep s (s.resume p) := by
  refine ⟨?_,(s.resume_fields p).2.2.2.1⟩
  intro x
  rw [process_resume s p hp]
  split
  · next hx =>
    rw [hx,hp]
    rfl
  · rfl

theorem sameSleep_switch (hu : s.ids.Nodup) (h : s.switchProcessImpl = some s') : SameSleep s s' := by
  obtain ⟨p,hp,rfl,-⟩ := switch_spec hu h
  have hp' := hp
  exact (sameSleep_current s).trans (sameSleep_resume hp')

theorem sameSleep_fromFreed (hu : s.ids.Nodup) {next : Option Nat}
    (h : s.switchFromFreed next = some s') : SameSleep s s' := by
  obtain ⟨p,hp,rfl,-⟩ := fromFreed_spec hu h
  have hp' := hp
  exact (sameSleep_current s).trans (sameSleep_resume hp')

theorem sameSleep_switchProcess (hun : s.ids.Nodup) (h : s.switchProcess rax = some s') : SameSleep s s' := by
  have hu := sameSleep_update s.readCurrent s.currentProcess (fun p => { p with rax := rax })
    (fun _ => rfl) (fun _ => rfl)
  have hi : (s.readCurrent.update s.currentProcess fun p => { p with rax := rax }).ids.Nodup := by
    rw [ids_update s.readCurrent (fun p => { p with rax := rax }) fun _ => rfl]
    exact hun
  exact ((sameSleep_current s).trans hu).trans (sameSleep_switch hi h)

theorem sameWaits_add (hne : s.thePid+1 ∉ s.ids) (parent : Nat) : SameWaits s (s.addProcess parent) := by
  have hn := s.process_eq_none.mpr hne
  refine ⟨?_,?_,rfl⟩
  · funext x
    rw [asleepOn,asleepOn,process_add parent hne]
    split
    · next hx => simp [hx,hn]
    · rfl
  funext x
  rw [waiters,waiters,process_add parent hne]
  split
  · next hx => simp [hx,hn]
  · rfl

theorem sameWaits_start (ha : s.asleepOn pid = none) :
    SameWaits s (s.update pid fun p => { p with state := .running }) := by
  refine ⟨?_,?_,rfl⟩
  · funext x
    rw [asleepOn,process_update s pid (fun p => { p with state := .running }) fun _ => rfl]
    split
    · next hx =>
      subst hx
      rw [ha]
      cases s.process x with
      | none => rfl
      | some p => simp
    · rfl
  · funext x
    rw [waiters,process_update s pid (fun p => { p with state := .running }) fun _ => rfl]
    split
    · rw [map_map]
      rfl
    · rfl

inductive Wakens : List (Nat × WaitObject) → State → State → Prop
  | nil (s : State) : Wakens [] s s
  | cons {pid : Nat} {cause : WaitObject} {wakes : List (Nat × WaitObject)} {s s' : State}
      (value : BitVec 64) (rest : Wakens wakes (s.unblock cause value pid) s') :
      Wakens ((pid,cause) :: wakes) s s'

section
variable {wakes : List (Nat × WaitObject)}
section
variable (s : State) (cause : WaitObject) (value : BitVec 64)
theorem wakens_unblockAll (pids : List Nat) :
    Wakens (pids.map fun pid => (pid,cause)) s (s.unblockAll cause value pids) := by
  induction pids generalizing s with
  | nil => exact .nil s
  | cons pid pids ih => exact .cons value (ih _)

theorem asleepOn_unblock (pid : Nat) : (s.unblock cause value pid).asleepOn = awakened [(pid,cause)] s.asleepOn := by
  funext x
  rw [asleepOn,process_unblock,awakened]
  by_cases hx : x = pid
  · rw [if_pos hx,if_pos (by simp [hx])]
    cases s.process x with
    | none => rfl
    | some p => simp [Process.unblock]
  · rw [if_neg hx,if_neg (by simpa using hx)]
    rfl

theorem waiters_unblock (pid : Nat) : (s.unblock cause value pid).waiters = s.waiters := by
  funext x
  rw [waiters,process_unblock]
  split
  · rw [map_map]
    rfl
  · rfl
end

theorem WokenRightly.unblock (h : WokenRightly s) {cause : WaitObject}
    (ha : s.asleepOn pid = some cause) (value : BitVec 64) :
    WokenRightly (s.unblock cause value pid) := by
  obtain ⟨p,hp,hs,ho⟩ := asleepOn_eq_some ha
  unfold State.unblock
  rw [hp]
  intro wake hw
  rcases List.mem_append.mp hw with hw | hw
  · exact h wake hw
  · cases List.mem_singleton.mp hw
    exact ⟨hs,ho⟩

variable (h : Wakens wakes s s')
include h
theorem Wakens.asleepOn : s'.asleepOn = awakened wakes s.asleepOn := by
  induction h with
  | nil s => rfl
  | cons value rest ih => rw [ih,asleepOn_unblock,← awakened_append,List.singleton_append]

theorem Wakens.waiters : s'.waiters = s.waiters := by
  induction h with
  | nil s => rfl
  | cons value rest ih => rw [ih,waiters_unblock]

theorem Wakens.stays (hq' : s'.process pid = some q')
    (hr : ∀ q, s.process pid = some q → q.state = .running) : q'.state = .running := by
  induction h with
  | nil s => exact hr q' hq'
  | @cons woken cause wakes s s' value rest ih =>
    refine ih hq' ?_
    intro q hq
    rw [process_unblock] at hq
    split at hq
    · obtain ⟨q0,-,rfl⟩ := map_eq_some_iff.mp hq
      rfl
    · exact hr q hq

theorem Wakens.running (hq' : s'.process pid = some q') (hw : pid ∈ wakes.map Prod.fst) : q'.state = .running := by
  induction h with
  | nil s => cases hw
  | @cons woken cause wakes s s' value rest ih =>
    rcases List.mem_cons.mp hw with hp | hl
    · refine rest.stays hq' ?_
      intro q hq
      rw [process_unblock,if_pos hp] at hq
      obtain ⟨q0,-,rfl⟩ := map_eq_some_iff.mp hq
      rfl
    · exact ih hq' hl

theorem Wakens.wokenRightly (hs : WokenRightly s)
    (ha : ∀ before pid cause after, wakes = before ++ (pid,cause) :: after →
      awakened before s.asleepOn pid = some cause) : WokenRightly s' := by
  induction h with
  | nil s => exact hs
  | @cons pid cause wakes s s' value rest ih =>
    have hh : s.asleepOn pid = some cause := by
      have hf := ha [] pid cause wakes rfl
      rwa [awakened_nil] at hf
    apply ih (hs.unblock hh value)
    intro before later laterCause after hsp
    rw [asleepOn_unblock,← awakened_append]
    exact ha _ later laterCause after (by rw [hsp]; rfl)
end

theorem block_sleeps (hu : s.ids.Nodup) (hp : s.process p.processID = some p)
    (h : s.block p object rax = some s') :
    s'.asleepOn = Function.update s.asleepOn p.processID (some object) ∧
      s'.waiters = s.waiters ∧ s'.wakes = s.wakes := by
  have hi : (s.readCurrent.update p.processID fun p =>
      { p with
        rax := rax
        state := .sleeping
        asleepOn := some object }).ids.Nodup := by
    rw [ids_update s.readCurrent (fun p =>
      { p with
        rax := rax
        state := .sleeping
        asleepOn := some object }) fun _ => rfl]
    exact hu
  have hs := (sameSleep_switch hi h).sameWaits
  have hpr := process_update s.readCurrent p.processID (fun p =>
      { p with
        rax := rax
        state := .sleeping
        asleepOn := some object }) fun _ => rfl
  refine ⟨?_,?_,hs.wakes⟩
  · rw [hs.asleepOn]
    funext x
    rw [asleepOn,hpr]
    by_cases hx : x = p.processID
    · rw [if_pos hx,hx,update_self,show s.readCurrent.process p.processID = some p from hp]
      rfl
    · rw [if_neg hx,update_of_ne hx]
      rfl
  · rw [hs.waiters]
    funext x
    rw [waiters,hpr]
    split
    · rw [map_map]
      rfl
    · rfl

theorem asleep_sleeps {q : Process} (hp : s.process p.processID = some p)
    (hq : s.process pid = some q) : (s.asleepIn p.processID pid).asleepOn =
        Function.update s.asleepOn p.processID (some (.exitOf pid)) ∧
      (s.asleepIn p.processID pid).waiters =
        Function.update s.waiters pid (s.waiters pid ++ [p.processID]) := by
  constructor
  · funext x
    rw [asleepOn,process_asleep]
    by_cases hx : x = p.processID
    · subst hx
      rw [update_self,hp]
      simp
    rw [update_of_ne hx]
    simp only [if_neg hx,map_id']
    rw [bind_map]
    rw [asleepOn]
    congr 1
    funext r
    split <;> rfl
  · funext x
    rw [waiters,process_asleep]
    by_cases hx : x = pid
    · subst hx
      rw [update_self,waiters,hq]
      simp only [map_some,getD_some,if_true]
      split <;> rfl
    rw [update_of_ne hx,waiters]
    simp only [if_neg hx,map_id',map_map]
    congr 2
    funext r
    split <;> rfl

theorem remove_wakens (hu : s.ids.Nodup)
    (hp : s.process pid = some p) (haw : s.asleepOn pid = none) (status : BitVec 32) :
    ∃ s1 s2, s1.asleepOn = s.asleepOn ∧ s1.waiters = Function.update s.waiters pid [] ∧
      s1.wakes = s.wakes ∧ Wakens ((s.waiters pid).map fun i => (i,.exitOf pid)) s1 s2 ∧
      SameSleep s2 (s.removeProcess pid status) := by
  generalize he : ({ s with
      processQueue := s.processQueue.eraseP fun p => p.processID == pid } : State) = erased
  have hpr : ∀ x, erased.process x = if x = pid then none else s.process x := by
    rw [← he]
    exact process_erase hu pid
  have ha : erased.asleepOn = s.asleepOn := by
    funext x
    rw [asleepOn,hpr]
    split
    · next hx => rw [hx,haw,bind_none]
    · rfl
  have hw : erased.waiters = Function.update s.waiters pid [] := by
    funext x
    rw [waiters,hpr]
    by_cases hx : x = pid
    · rw [if_pos hx,hx,update_self]
      rfl
    · rw [if_neg hx,update_of_ne hx]
      rfl
  have hz := sameSleep_update erased p.parentProcess (fun q =>
    { q with zombies := q.zombies ++ [⟨pid,status⟩] }) (fun _ => rfl) (fun _ => rfl)
  have hl : s.waiters pid = p.waitingList := by
    rw [waiters,hp]
    rfl
  have hwa : erased.wakes = s.wakes := by rw [← he]
  rw [hl]
  refine ⟨_,_,hz.sameWaits.asleepOn.trans ha,hz.sameWaits.waiters.trans hw,
    hz.wakes.trans hwa,
    wakens_unblockAll _ (.exitOf pid) (status.signExtend 64) p.waitingList,?_⟩
  unfold removeProcess
  rw [hp]
  rw [he]
  exact sameSleep_queue rfl rfl

theorem sameWaits_added (hwf : Wellformed s) (parent : Nat) :
    SameWaits s ((s.addProcess parent).update (s.thePid+1) fun p =>
        { p with state := .running }) ∧
      SameWaits s ((s.addProcess parent).removeProcess (s.thePid+1) (-1)) := by
  have had := sameWaits_add hwf.fresh parent
  have hn := s.process_eq_none.mpr hwf.fresh
  have haw : (s.addProcess parent).asleepOn (s.thePid+1) = none := by
    rw [had.asleepOn,asleepOn,hn]
    rfl
  have hw : (s.addProcess parent).waiters (s.thePid+1) = [] := by
    rw [had.waiters,waiters,hn]
    rfl
  refine ⟨had.trans (sameWaits_start haw),had.trans ?_⟩
  obtain ⟨s1,s2,ha,ho,hwak,hwa,hr⟩ :=
    remove_wakens (hwf.addProcess parent).unique (process_added hwf parent) haw (-1)
  rw [hw,List.map_nil] at hwa
  cases hwa
  refine SameWaits.trans ⟨ha,ho.trans ?_,hwak⟩ hr.sameWaits
  exact Function.update_eq_self_iff.mpr hw.symm

theorem sameWaits_create (hw : Wellformed s) (loaded : Bool) : SameWaits s (s.create loaded) := by
  have hr := (sameSleep_current s).sameWaits
  have hw' : Wellformed s.readCurrent := hw.of_same rfl rfl
  cases loaded with
  | false => exact hr.trans (sameWaits_added hw' (2^64-1)).2
  | true => exact hr.trans (sameWaits_added hw' (2^64-1)).1

theorem sameWaits_fork (hw : Wellformed s) (p : Process) (cloned : Bool) : SameWaits s (s.fork p cloned) := by
  have hr := (sameSleep_current s).sameWaits
  have hw' : Wellformed s.readCurrent := hw.of_same rfl rfl
  cases cloned with
  | false => exact hr.trans (sameWaits_added hw' p.processID).2
  | true =>
    exact (hr.trans (sameWaits_added hw' p.processID).1).trans (sameSleep_record _ _).sameWaits
end State
end LensorOS.Scheduler
