import LensorOS.Scheduler.Processes

/-!
# The parts of the scheduler's calls

Every call is a chain of a few actions on the process queue, and what holds over all runs is
shown for each action once.
-/
namespace LensorOS.Scheduler
open List Option
theorem mem_of_snoc {α : Type} {a b : α} {l : List α} (h : a ∈ l ++ [b]) (hn : a ≠ b) : a ∈ l :=
  (mem_append.mp h).resolve_right fun hi => hn (mem_singleton.mp hi)

namespace State
/-- Identifiers are used once, and the startup process stays in the queue. -/
structure Wellformed (s : State) : Prop where
  unique : s.ids.Nodup
  known : ∀ pid ∈ s.ids, pid ≤ s.thePid
  startup : 0 ∈ s.ids

variable {p : Process} {touched : Option Nat} {pid : Nat}
section
variable {s s' : State} (h : Wellformed s)
include h
theorem Wellformed.of_same (hi : s'.ids = s.ids) (hp : s'.thePid = s.thePid) : Wellformed s' := by
  refine ⟨hi ▸ h.unique,?_,hi ▸ h.startup⟩
  rw [hi,hp]
  exact h.known

theorem Wellformed.fresh : s.thePid+1 ∉ s.ids := fun hi =>
  absurd (h.known _ hi) (Nat.not_succ_le_self _)

theorem Wellformed.addProcess (parent : Nat) : Wellformed (s.addProcess parent) := by
  obtain ⟨hu,hk⟩ := add_known parent h.unique h.known
  refine ⟨hu,hk,?_⟩
  rw [ids_add]
  exact mem_append_left _ h.startup

theorem Wellformed.removeProcess
    (hp : s.process pid = some p) (hn : pid ≠ 0) (status : BitVec 32) :
    Wellformed (s.removeProcess pid status) := by
  obtain ⟨hi,-,ht,-⟩ := s.remove_fields hp status
  refine ⟨hi ▸ h.unique.erase pid,?_,?_⟩
  · intro q hq
    rw [hi] at hq
    rw [ht]
    exact h.known q (mem_of_mem_erase hq)
  · rw [hi]
    exact h.unique.mem_erase_iff.mpr ⟨hn.symm,h.startup⟩

theorem Wellformed.two_le (hp : pid ∈ s.ids) (hn : pid ≠ 0) : 2 ≤ s.processQueue.length := by
  have hs := h.startup
  unfold ids at hp hs
  match hq : s.processQueue with
  | [] => simp [hq] at hp
  | [p] =>
    rw [hq,map_singleton,mem_singleton] at hp hs
    exact absurd (hp.trans hs.symm) hn
  | _ :: _ :: _ => simp
end

/-- The touched process keeps what `waitpid` relies on, and the others are the same. -/
structure Kept (touched : Option Nat) (s s' : State) : Prop where
  ids : s'.ids = s.ids
  thePid : s'.thePid = s.thePid
  history : s'.history = s.history
  process : ∀ x q', s'.process x = some q' → ∃ q, s.process x = some q ∧
    q'.parentProcess = q.parentProcess ∧ q'.waitingList = q.waitingList ∧
    q'.zombies = q.zombies ∧ q'.waitpidOn = q.waitpidOn
  others : ∀ x, touched ≠ some x → s'.process x = s.process x

variable (s : State)
def asleepIn (p pid : Nat) : State :=
  (s.update pid fun q => { q with waitingList := q.waitingList ++ [p] }).update p fun p =>
    { p with
      rax := 9
      state := .sleeping
      asleepOn := some (.exitOf pid)
      waitpidOn := some pid }

theorem ids_asleepIn (p pid : Nat) : (s.asleepIn p pid).ids = s.ids := by
  rw [asleepIn,ids_update _ (fun p =>
    { p with
      rax := 9
      state := .sleeping
      asleepOn := some (.exitOf pid)
      waitpidOn := some pid }) fun _ => rfl,
    ids_update _ (fun q => { q with waitingList := q.waitingList ++ [p] }) fun _ => rfl]

theorem process_asleep (p pid x : Nat) : (s.asleepIn p pid).process x =
      ((s.process x).map fun q => if x = pid then
          { q with waitingList := q.waitingList ++ [p] } else q).map fun q => if x = p then { q with
          rax := 9
          state := .sleeping
          asleepOn := some (.exitOf pid)
          waitpidOn := some pid } else q := by
  rw [asleepIn,process_update _ _ (fun p =>
    { p with
      rax := 9
      state := .sleeping
      asleepOn := some (.exitOf pid)
      waitpidOn := some pid }) fun _ => rfl,
    process_update _ _ (fun q => { q with waitingList := q.waitingList ++ [p] }) fun _ => rfl]
  by_cases hp : x = p
  · by_cases hx : x = pid
    · simp [if_pos hp,if_pos hx]
    · simp [if_pos hp,if_neg hx]
  by_cases hx : x = pid
  · simp only [if_neg hp,if_pos hx,Option.map_id']
  · simp [if_neg hp,if_neg hx]

theorem asleep_cases {s : State} {p x : Nat} {q' : Process}
    (h : (s.asleepIn p pid).process x = some q') : ∃ q, s.process x = some q ∧
      q'.parentProcess = q.parentProcess ∧ q'.zombies = q.zombies ∧
      q'.waitingList = q.waitingList ++ (if x = pid then [p] else []) ∧
      (x = p → q'.waitpidOn = some pid ∧ q'.state = .sleeping) ∧
      (x ≠ p → q'.waitpidOn = q.waitpidOn ∧ q'.state = q.state ∧ q'.rax = q.rax) := by
  rw [process_asleep,Option.map_map,Option.map_eq_some_iff] at h
  obtain ⟨q,hq,rfl⟩ := h
  refine ⟨q,hq,?_⟩
  rw [Function.comp_apply]
  split <;> split <;> simp_all

theorem asleep_listed {s : State} (p pid : Nat) {x : Nat} {q : Process}
    (h : s.process x = some q) : ∃ q', (s.asleepIn p pid).process x = some q' ∧
      q'.waitingList = q.waitingList ++ (if x = pid then [p] else []) := by
  have hs : ((s.asleepIn p pid).process x).isSome := by
    rw [process_isSome,ids_asleepIn,← process_isSome,h]
    rfl
  obtain ⟨q',hq'⟩ := isSome_iff_exists.mp hs
  obtain ⟨q0,hq0,-,-,hl,-⟩ := asleep_cases hq'
  cases hq0.symm.trans h
  exact ⟨q',hq',hl⟩

/-- What an action does that the runs of interest may exclude. -/
inductive Label
  | change (touched : Option Nat)
  | remove (pid : Nat)
  | other

inductive Action (s : State) : Label → State → Prop
  | change {touched : Option Nat} {s' : State} (h : Kept touched s s') :
      Action s (.change touched) s'
  | add (parent : Nat) : Action s .other (s.addProcess parent)
  | fork {p : Process} (hp : s.process p.processID = some p) (hne : p.processID ≠ 0) :
      Action s .other ((s.addProcess p.processID).record (.forked p.processID (s.thePid+1)))
  | remove {pid : Nat} {p : Process} (hp : s.process pid = some p) (hne : pid ≠ 0)
      (status : BitVec 32) : Action s (.remove pid) (s.removeProcess pid status)
  | told {p : Process} (hp : s.process p.processID = some p) {pid : Nat} {zombie : ZombieState}
      (hzombie : p.zombies.find? (fun zombie => zombie.pid == pid) = some zombie) :
      Action s .other ((s.update p.processID fun p =>
          { p with zombies := p.zombies.eraseP fun zombie => zombie.pid == pid }).record
        (.returned p.processID pid zombie.returnStatus))
  | refused {p : Process} (hp : s.process p.processID = some p) {pid : Nat}
      (hzombie : p.zombies.find? (fun zombie => zombie.pid == pid) = none)
      (hpid : s.process pid = none) : Action s .other (s.record (.returned p.processID pid (-1)))
  | sleep {p : Process} (hp : s.process p.processID = some p) (hawake : p.waitpidOn = none)
      {pid : Nat} (hpid : (s.process pid).isSome) : Action s .other (s.asleepIn p.processID pid)
  | resume {p : Process} (hp : s.process p.processID = some p)
      (hstate : p.state = .running ∨ p.waitpidOn = none) : Action s .other (s.resume p)

inductive Actions (allowed : State → Label → Prop) : State → State → Prop
  | refl (s : State) : Actions allowed s s
  | next {s s1 s' : State} {label : Label} (hallowed : allowed s label) (h : Action s label s1)
      (rest : Actions allowed s1 s') : Actions allowed s s'

def Awake : Prop := ∀ p, s.process s.currentProcess = some p → p.waitpidOn = none

section
variable {s s' : State}
theorem Kept.of_queue (hq : s'.processQueue = s.processQueue)
    (hpi : s'.thePid = s.thePid) (hh : s'.history = s.history) : Kept touched s s' := by
  have hp : ∀ x, s'.process x = s.process x := fun x => by rw [State.process,State.process,hq]
  refine ⟨by rw [State.ids,State.ids,hq],hpi,hh,?_,fun x _ => hp x⟩
  intro x q' hq'
  exact ⟨q',(hp x).symm.trans hq',rfl,rfl,rfl,rfl⟩

theorem Kept.readCurrent (s : State) : Kept none s s.readCurrent := Kept.of_queue rfl rfl rfl

theorem Kept.update (s : State) (pid : Nat) (change : Process → Process)
    (hi : ∀ p, (change p).processID = p.processID)
    (hc : ∀ p, (change p).parentProcess = p.parentProcess ∧
      (change p).waitingList = p.waitingList ∧ (change p).zombies = p.zombies ∧
      (change p).waitpidOn = p.waitpidOn) : Kept (some pid) s (s.update pid change) where
  ids := s.ids_update change hi pid
  thePid := rfl
  history := rfl
  process := by
    intro x q' hq'
    rw [process_update s pid change hi] at hq'
    split at hq'
    · obtain ⟨q,hq,rfl⟩ := map_eq_some_iff.mp hq'
      exact ⟨q,hq,hc q⟩
    · exact ⟨q',hq',rfl,rfl,rfl,rfl⟩
  others := by
    intro x hx
    rw [process_update s pid change hi,if_neg]
    rintro rfl
    exact hx rfl

theorem Kept.unblock (s : State) (cause : WaitObject) (value : BitVec 64) (pid : Nat) :
    Kept (some pid) s (s.unblock cause value pid) := by
  have h := Kept.update s pid (·.unblock value) (fun _ => rfl) fun _ => ⟨rfl,rfl,rfl,rfl⟩
  obtain ⟨hi,-,hpi,-,-,-,hh⟩ := s.unblock_fields cause value pid
  have hp : ∀ x, (s.unblock cause value pid).process x =
      (s.update pid (·.unblock value)).process x := fun x => by
    rw [process_unblock,process_update s pid (·.unblock value) fun _ => rfl]
  refine ⟨hi,hpi,hh,?_,?_⟩
  · intro x q' hq'
    exact h.process x q' ((hp x).symm.trans hq')
  · intro x hx
    exact (hp x).trans (h.others x hx)

theorem Kept.listed (hk : Kept touched s s') {x : Nat} {q : Process}
    (hq : s.process x = some q) :
    ∃ q', s'.process x = some q' ∧ q'.waitingList = q.waitingList := by
  have hs : (s'.process x).isSome := by
    rw [process_isSome,hk.ids,← process_isSome,hq]
    rfl
  obtain ⟨q',hq'⟩ := isSome_iff_exists.mp hs
  obtain ⟨q0,hq0,-,hl,-⟩ := hk.process x q' hq'
  cases hq0.symm.trans hq
  exact ⟨q',hq',hl⟩
end

section
variable {allowed : State → Label → Prop} {s s1 s' : State}
theorem Actions.one {label : Label} (ha : allowed s label) (h : Action s label s') :
    Actions allowed s s' := .next ha h (.refl s')

theorem Actions.readCurrent (hs : ∀ s, allowed s (.change none))
    (h : Actions allowed s.readCurrent s') : Actions allowed s s' :=
  .next (hs s) (.change (Kept.readCurrent s)) h
end

section
variable {s s' : State}
theorem Awake.of_process (h : Awake s) (hc : s'.currentProcess = s.currentProcess)
    (hpr : ∀ x p', s'.process x = some p' → p'.waitpidOn = none ∨
      ∃ p, s.process x = some p ∧ p'.waitpidOn = p.waitpidOn) : Awake s' := by
  intro p' hp'
  rw [hc] at hp'
  rcases hpr _ p' hp' with hn | ⟨p,hp,he⟩
  · exact hn
  · exact he.trans (h p hp)

theorem Awake.kept (h : Awake s) (hk : Kept touched s s')
    (hc : s'.currentProcess = s.currentProcess) : Awake s' := by
  refine h.of_process hc fun x p' hp' => ?_
  obtain ⟨p,hp,-,-,-,he⟩ := hk.process x p' hp'
  exact .inr ⟨p,hp,he⟩

theorem Awake.readCurrent (h : Awake s) : Awake s.readCurrent := h

theorem awake_resume (hp : s.process p.processID = some p) : Awake (s.resume p) := by
  intro p' hp'
  rw [resume_currentProcess,process_resume s p hp,if_pos rfl,some.injEq] at hp'
  rw [← hp']

theorem Awake.addProcess (h : Awake s) (hwf : Wellformed s) (parent : Nat) : Awake (s.addProcess parent) := by
  refine h.of_process rfl fun x p' hp' => ?_
  rw [process_add parent hwf.fresh] at hp'
  split at hp'
  · rw [some.injEq] at hp'
    exact .inl (hp' ▸ rfl)
  · exact .inr ⟨p',hp',rfl⟩

theorem Awake.removeProcess (h : Awake s) (hwf : Wellformed s)
    (hp : s.process pid = some p) (status : BitVec 32) : Awake (s.removeProcess pid status) := by
  refine h.of_process (s.remove_fields hp status).2.1 fun x p' hp' => ?_
  rw [process_remove hwf.unique hp] at hp'
  split at hp'
  · cases hp'
  rw [Option.map_map,Option.map_eq_some_iff] at hp'
  obtain ⟨q,hq,rfl⟩ := hp'
  refine .inr ⟨q,hq,?_⟩
  rw [Function.comp_apply]
  split <;> split <;> rfl

theorem awake_init : Awake initialized := by
  intro p hp
  obtain ⟨hm,-⟩ := mem_of_process _ hp
  cases mem_singleton.mp hm
  rfl
end

/-- What is allowed in every run: all but touching a process in `waitpid` and removing one that
is waited for. -/
structure Allows (allowed : State → Label → Prop) : Prop where
  silent : ∀ s, allowed s (.change none)
  awake : ∀ s pid, (∀ p, s.process pid = some p → p.waitpidOn = none) →
    allowed s (.change (some pid))
  unwaited : ∀ s pid p, s.process pid = some p → p.waitingList = [] → allowed s (.remove pid)
  other : ∀ s, allowed s .other

section
variable {allowed : State → Label → Prop} {s s' : State}
theorem process_added (hwf : Wellformed s) (parent : Nat) :
    (s.addProcess parent).process (s.thePid+1) =
      some ⟨s.thePid+1,.sleeping,parent,[],[],0,none,none⟩ := by
  rw [process_add parent hwf.fresh,if_pos rfl]

theorem caller_eq_some (h : s.caller = some p) :
    s.process p.processID = some p ∧ p.processID = s.currentProcess ∧ p.state = .running := by
  obtain ⟨hp,hr⟩ := filter_eq_some_iff.mp h
  have hi := (s.mem_of_process hp).2
  exact ⟨hi ▸ hp,hi,by simpa [isRunning] using hr⟩

theorem switch_actions (hallows : Allows allowed) (hu : s.ids.Nodup)
    (hst : 2 ≤ s.processQueue.length ∨ Awake s) (h : s.switchProcessImpl = some s') :
    Actions allowed s s' ∧ Awake s' := by
  obtain ⟨p,hp,rfl,hs⟩ := switch_spec hu h
  have hp' := hp
  refine ⟨.readCurrent hallows.silent (.one (hallows.other _) (.resume hp' ?_)),awake_resume hp'⟩
  rcases hs with hr | ⟨hc,ho⟩
  · exact .inl hr
  rcases hst with ht | ha
  · omega
  · exact .inr (ha p hc)

theorem removeNew_actions (hallows : Allows allowed) (hwf : Wellformed s) (ha : Awake s)
    (parent : Nat) : Actions allowed s ((s.addProcess parent).removeProcess (s.thePid+1) (-1)) ∧
      Awake ((s.addProcess parent).removeProcess (s.thePid+1) (-1)) := by
  have hn := process_added hwf parent
  constructor
  · refine .next (hallows.other _) (.add parent) (.one ?_ (.remove hn (by omega) _))
    exact hallows.unwaited _ _ _ hn rfl
  · exact (ha.addProcess hwf parent).removeProcess (hwf.addProcess parent) hn _

theorem startNew_kept (s : State) : Kept (some s.thePid) s (s.update s.thePid fun p => { p with state := .running }) :=
  Kept.update s s.thePid (fun p => { p with state := .running }) (fun _ => rfl)
    fun _ => ⟨rfl,rfl,rfl,rfl⟩

variable (hallows : Allows allowed) (hwf : Wellformed s)
include hallows hwf
theorem create_actions (haw : Awake s)
    (loaded : Bool) : Actions allowed s (s.create loaded) ∧ Awake (s.create loaded) := by
  have hw' : Wellformed s.readCurrent := hwf.of_same rfl rfl
  have ha' : Awake s.readCurrent := haw.readCurrent
  cases loaded with
  | false =>
    obtain ⟨ha,haf⟩ := removeNew_actions hallows hw' ha' (2^64-1)
    exact ⟨.readCurrent hallows.silent ha,haf⟩
  | true =>
    have hk := startNew_kept (s.readCurrent.addProcess (2^64-1))
    refine ⟨.readCurrent hallows.silent (.next (hallows.other _) (.add _) (.one ?_ (.change hk))),
      (ha'.addProcess hw' _).kept hk rfl⟩
    refine hallows.awake _ _ fun p hp => ?_
    cases (process_added hw' (2^64-1)).symm.trans hp
    rfl

theorem fork_actions (haw : Awake s)
    (hp : s.process p.processID = some p) (hn : p.processID ≠ 0) (cloned : Bool) :
    Actions allowed s (s.fork p cloned) ∧ Awake (s.fork p cloned) := by
  have hw' : Wellformed s.readCurrent := hwf.of_same rfl rfl
  have ha' : Awake s.readCurrent := haw.readCurrent
  cases cloned with
  | false =>
    obtain ⟨ha,haf⟩ := removeNew_actions hallows hw' ha' p.processID
    exact ⟨.readCurrent hallows.silent ha,haf⟩
  | true =>
    have hk := startNew_kept ((s.readCurrent.addProcess p.processID).record (.forked p.processID (s.thePid+1)))
    have had : Awake (s.readCurrent.addProcess p.processID) := ha'.addProcess hw' _
    have hf : Awake ((s.readCurrent.addProcess p.processID).record (.forked p.processID (s.thePid+1))) := had
    refine ⟨.readCurrent hallows.silent
      (.next (hallows.other _) (.fork hp hn) (.one ?_ (.change hk))),hf.kept hk rfl⟩
    refine hallows.awake _ _ fun q hq => ?_
    cases (process_added hw' p.processID).symm.trans hq
    rfl

theorem exit_actions
    (hp : s.process p.processID = some p) (hn : p.processID ≠ 0) {status : BitVec 32}
    {next : Option Nat} (ha : allowed s.readCurrent (.remove p.processID))
    (h : s.exit p status next = some s') : Actions allowed s s' ∧ Awake s' := by
  obtain ⟨s1,hs1,rfl⟩ := map_eq_some_iff.mp h
  have hw' : Wellformed s.readCurrent := hwf.of_same rfl rfl
  have hp' : s.readCurrent.process p.processID = some p := hp
  obtain ⟨q,hq,rfl,hr⟩ := fromFreed_spec (hw'.removeProcess hp' hn status).unique hs1
  have hq' := hq
  constructor
  · refine .readCurrent hallows.silent (.next ha (.remove hp' hn status) ?_)
    refine .readCurrent hallows.silent (.next (hallows.other _) (.resume hq' (.inl hr)) ?_)
    exact .one (hallows.silent _) (.change (Kept.of_queue rfl rfl rfl))
  · exact awake_resume hq'

theorem waitpid_actions (haw : Awake s)
    (hp : s.process p.processID = some p) (hc : p.processID = s.currentProcess)
    (hn : p.processID ≠ 0) (h : s.waitpid p pid = some s') : Actions allowed s s' ∧ Awake s' := by
  have hp' : s.readCurrent.process p.processID = some p := hp
  have ha' : Awake s.readCurrent := haw.readCurrent
  unfold waitpid at h
  dsimp only at h
  split at h
  · next zombie hz =>
    cases h
    refine ⟨.readCurrent hallows.silent (.one (hallows.other _) (.told hp' hz)),?_⟩
    refine ha'.of_process rfl fun x q' hq' => .inr ?_
    have hq' : (s.readCurrent.update p.processID (reaped pid)).process x = some q' := hq'
    rw [process_update _ _ (reaped pid) fun _ => rfl] at hq'
    split at hq'
    · obtain ⟨q,hq,rfl⟩ := map_eq_some_iff.mp hq'
      exact ⟨q,hq,rfl⟩
    · exact ⟨q',hq',rfl⟩
  · next hz =>
    split at h
    · next hpi =>
      cases h
      exact ⟨.readCurrent hallows.silent (.one (hallows.other _) (.refused hp' hz hpi)), ha'⟩
    · next q hq =>
      have hs : Action s.readCurrent .other (s.readCurrent.asleepIn p.processID pid) := by
        refine .sleep hp' (haw p (hc ▸ hp)) ?_
        rw [hq]
        rfl
      have hi : (s.readCurrent.asleepIn p.processID pid).ids = s.ids := ids_asleepIn s.readCurrent p.processID pid
      have hw' : Wellformed (s.readCurrent.asleepIn p.processID pid) := hwf.of_same hi rfl
      have hm : p.processID ∈ (s.readCurrent.asleepIn p.processID pid).ids := by
        rw [hi,← process_isSome,hp]
        rfl
      obtain ⟨ha,haf⟩ := switch_actions hallows hw'.unique (.inl (hw'.two_le hm hn)) h
      exact ⟨.readCurrent hallows.silent (.next (hallows.other _) hs ha),haf⟩

theorem change_actions (haw : Awake s) (change : Process → Process)
    (hi : ∀ p, (change p).processID = p.processID)
    (hc : ∀ p, (change p).parentProcess = p.parentProcess ∧
      (change p).waitingList = p.waitingList ∧ (change p).zombies = p.zombies ∧
      (change p).waitpidOn = p.waitpidOn)
    (h : (s.readCurrent.update s.currentProcess change).switchProcessImpl = some s') :
    Actions allowed s s' ∧ Awake s' := by
  have hk := Kept.update s.readCurrent s.currentProcess change hi hc
  have ha' := haw.readCurrent.kept hk rfl
  have hu : (s.readCurrent.update s.currentProcess change).ids.Nodup := by
    rw [hk.ids]
    exact hwf.unique
  obtain ⟨ha,haf⟩ := switch_actions hallows hu (.inr ha') h
  refine ⟨.readCurrent hallows.silent (.next ?_ (.change hk) ha),haf⟩
  exact hallows.awake _ _ haw

/-- Every call is a chain of actions. Only wake-ups and exits take part in what a run may have
to exclude. -/
theorem step_actions (ha : Awake s) {call : Call}
    (hw : ∀ cause value pid, call = .wake cause value pid →
      allowed s.readCurrent (.change (some pid)))
    (he : ∀ status next p, call = .exit status next → s.caller = some p →
      allowed s.readCurrent (.remove p.processID))
    (h : s.step call = some s') : Actions allowed s s' ∧ Awake s' := by
  cases call with
  | create loaded =>
    obtain ⟨-,h⟩ := ite_none_right_eq_some.mp h
    cases h
    exact create_actions hallows hwf ha loaded
  | fork cloned =>
    obtain ⟨p,hp,h⟩ := bind_eq_some_iff.mp h
    obtain ⟨hn,h⟩ := ite_none_left_eq_some.mp h
    cases h
    exact fork_actions hallows hwf ha (caller_eq_some hp).1 hn cloned
  | exit status next =>
    obtain ⟨p,hp,h⟩ := bind_eq_some_iff.mp h
    obtain ⟨hn,h⟩ := ite_none_left_eq_some.mp h
    exact exit_actions hallows hwf (caller_eq_some hp).1 hn (he status next p rfl hp) h
  | waitpid pid =>
    obtain ⟨p,hp,h⟩ := bind_eq_some_iff.mp h
    obtain ⟨hn,h⟩ := ite_none_left_eq_some.mp h
    obtain ⟨hpr,hc,-⟩ := caller_eq_some hp
    exact waitpid_actions hallows hwf ha hpr hc hn h
  | timer rax =>
    exact change_actions hallows hwf ha (fun p => { p with rax := rax })
      (fun _ => rfl) (fun _ => ⟨rfl,rfl,rfl,rfl⟩) h
  | block object rax =>
    obtain ⟨p,hp,h⟩ := bind_eq_some_iff.mp h
    obtain ⟨-,h⟩ := ite_none_left_eq_some.mp h
    rw [block,(caller_eq_some hp).2.1] at h
    refine change_actions hallows hwf ha (fun p =>
      { p with
        rax := rax
        state := .sleeping
        asleepOn := some object }) (fun _ => rfl) (fun _ => ⟨rfl,rfl,rfl,rfl⟩) h
  | wake cause value pid =>
    cases h
    have hk := Kept.unblock s.readCurrent cause value pid
    have ha' := ha.readCurrent
    exact ⟨.readCurrent hallows.silent (.one (hw cause value pid rfl) (.change hk)),
      ha'.kept hk (s.readCurrent.unblock_fields cause value pid).currentProcess⟩
end
end State
end LensorOS.Scheduler
