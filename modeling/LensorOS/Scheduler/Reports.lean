import LensorOS.Scheduler.Kinship

/-!
# Exit statuses reported once

A child that exits while its parent sleeps in `waitpid` on it leaves a zombie record besides the
return value.
-/
namespace LensorOS.Scheduler
open Framework List Option
/-- A parent was told the exit status of a child, and `later` is what happened since. -/
def Reported (history : List Event) (parent child : Nat) (later : List Event) : Prop :=
  ∃ earlier value, history = earlier ++ .returned parent child value :: later ∧
    .forked parent child ∈ earlier ∧ .exited child value ∈ earlier

section
variable {history later : List Event} {parent child : Nat}
theorem Reported.forked (h : Reported history parent child later) : .forked parent child ∈ history := by
  obtain ⟨earlier,value,rfl,hf,-⟩ := h
  exact mem_append_left _ hf

theorem Reported.exited (h : Reported history parent child later) : ∃ value, .exited child value ∈ history := by
  obtain ⟨earlier,value,rfl,-,he⟩ := h
  exact ⟨value,mem_append_left _ he⟩

theorem Reported.of_snoc {event : Event} (h : Reported (history ++ [event]) parent child later) :
    (∃ later', later = later' ++ [event] ∧ Reported history parent child later') ∨
      later = [] ∧ ∃ value, event = .returned parent child value ∧
        .forked parent child ∈ history ∧ .exited child value ∈ history := by
  obtain ⟨earlier,value,hs,hf,hexi⟩ := h
  rcases eq_nil_or_concat later with rfl | ⟨later',last,rfl⟩
  · right
    obtain ⟨rfl,he⟩ := append_inj' hs rfl
    cases he
    exact ⟨rfl,value,rfl,hf,hexi⟩
  left
  rw [concat_eq_append,← cons_append,← append_assoc] at hs
  obtain ⟨hh,he⟩ := append_inj' hs rfl
  cases he
  exact ⟨later',concat_eq_append,earlier,value,hh,hf,hexi⟩
end

namespace State
/-- A parent in `waitpid` is listed by a living child, and one that was told a status has no
record of it left. -/
structure Reports (s : State) : Prop where
  waiting : ∀ {x p pid}, s.process x = some p → p.waitpidOn = some pid →
    pid ≤ s.thePid ∧ (.forked x pid ∈ s.history → ∃ q, s.process pid = some q ∧ x ∈ q.waitingList)
  later : ∀ {parent child later value}, Reported s.history parent child later →
    .returned parent child value ∈ later → value = -1
  zombies : ∀ {parent child later p}, Reported s.history parent child later →
    s.process parent = some p → ∀ zombie ∈ p.zombies, zombie.pid ≠ child

section
variable {s s' : State} {pid : Nat} {p : Process} {zombie : ZombieState}
theorem Kin.reported_gone (hk : Kin s) {parent child : Nat} {later : List Event}
    (h : Reported s.history parent child later) : s.process child = none := by
  obtain ⟨value,he⟩ := h.exited
  exact (s.process_eq_none).mpr (hk.exited he).1

theorem Reports.change (h : Reports s) {touched : Option Nat} (hk : Kept touched s s') : Reports s' := by
  refine ⟨?_,?_,?_⟩
  · intro x p' pid hp' hwa
    obtain ⟨p,hp,-,-,-,hw⟩ := hk.process x p' hp'
    rw [hw] at hwa
    rw [hk.thePid,hk.history]
    obtain ⟨hle,hl⟩ := h.waiting hp hwa
    refine ⟨hle,fun hf => ?_⟩
    obtain ⟨q,hq,hi⟩ := hl hf
    obtain ⟨q',hq',hli⟩ := hk.listed hq
    exact ⟨q',hq',hli ▸ hi⟩
  · intro parent child later value hr
    rw [hk.history] at hr
    exact h.later hr
  · intro parent child later p' hr hp'
    rw [hk.history] at hr
    obtain ⟨p,hp,-,-,hz,-⟩ := hk.process parent p' hp'
    rw [hz]
    exact h.zombies hr hp

theorem Reports.addProcess (h : Reports s) (hk : Kin s) (parent : Nat) : Reports (s.addProcess parent) := by
  have hn := hk.wellformed.fresh
  refine ⟨?_,h.later,?_⟩
  · intro x p pid hp hw
    rw [process_add parent hn] at hp
    split at hp
    · cases hp
      cases hw
    obtain ⟨hle,hl⟩ := h.waiting hp hw
    refine ⟨hle.trans (Nat.le_succ _),fun hf => ?_⟩
    obtain ⟨q,hq,hi⟩ := hl hf
    have hne : pid ≠ s.thePid+1 := by omega
    refine ⟨q,?_,hi⟩
    rw [process_add parent hn,if_neg hne]
    exact hq
  · intro x child later p hr hp
    rw [process_add parent hn] at hp
    split at hp
    · cases hp
      intro zombie hz
      cases hz
    · exact h.zombies hr hp

theorem Reports.fork (h : Reports s) (hk : Kin s) (p : Nat) :
    Reports ((s.addProcess p).record (.forked p (s.thePid+1))) := by
  have ha := h.addProcess hk p
  have hre : ∀ {parent child later},
      Reported (s.history ++ [.forked p (s.thePid+1)]) parent child later →
      ∃ later', later = later' ++ [.forked p (s.thePid+1)] ∧
        Reported s.history parent child later' := by
    intro parent child later hr
    rcases hr.of_snoc with hr | ⟨-,value,he,-⟩
    · exact hr
    · cases he
  refine ⟨?_,?_,?_⟩
  · intro x q pid hq hw
    obtain ⟨hle,hl⟩ := ha.waiting hq hw
    refine ⟨hle,fun hfo => ?_⟩
    rcases mem_append.mp hfo with hf | hf
    · exact hl hf
    cases mem_singleton.mp hf
    -- a new process is waited for by nobody yet
    have hq : (s.addProcess p).process p = some q := hq
    rw [process_add p hk.wellformed.fresh] at hq
    split at hq
    · cases hq
      cases hw
    · exact absurd (h.waiting hq hw).1 (by omega)
  · intro parent child later value hr hi
    obtain ⟨later',rfl,hb⟩ := hre hr
    exact h.later hb (mem_of_snoc hi (by simp))
  · intro parent child later q hr hq
    obtain ⟨later',-,hr⟩ := hre hr
    exact ha.zombies hr hq

theorem Reports.removeProcess (h : Reports s) (hk : Kin s)
    (hp : s.process pid = some p) (hu : p.parentProcess ∉ p.waitingList)
    (status : BitVec 32) : Reports (s.removeProcess pid status) := by
  have hun := hk.wellformed.unique
  obtain ⟨-,-,hpi,-,-,-,hh⟩ := s.remove_fields hp status
  have hre : ∀ {parent child later},
      Reported (s.removeProcess pid status).history parent child later →
      ∃ later', later = later' ++ [.exited pid status] ∧
        Reported s.history parent child later' := by
    intro parent child later hr
    rw [hh] at hr
    rcases hr.of_snoc with hr | ⟨-,value,he,-⟩
    · exact hr
    · cases he
  refine ⟨?_,?_,?_⟩
  · intro x q' y hq' hwa
    obtain ⟨-,q,hq,-,-,hw,-⟩ := process_removed hun hp hq'
    rw [hw] at hwa
    obtain ⟨hle,hl⟩ := h.waiting hq hwa
    refine ⟨hpi ▸ hle,fun hf => ?_⟩
    have hb : .forked x y ∈ s.history := by
      rw [hh] at hf
      exact mem_of_snoc hf (by simp)
    obtain ⟨r,hr,hi⟩ := hl hb
    have hn : y ≠ pid := by
      rintro rfl
      cases hr.symm.trans hp
      rw [← hk.parent hb hp] at hi
      exact hu hi
    obtain ⟨r',hr'⟩ := isSome_iff_exists.mp (removed_isSome hun hp status hn (by rw [hr]; rfl))
    obtain ⟨-,r0,hr0,-,hli,-⟩ := process_removed hun hp hr'
    cases hr0.symm.trans hr
    exact ⟨r',hr',hli ▸ hi⟩
  · intro parent child later value hr hi
    obtain ⟨later',rfl,hb⟩ := hre hr
    exact h.later hb (mem_of_snoc hi (by simp))
  · intro parent child later q' hr hq' zombie hz
    obtain ⟨later',-,hr⟩ := hre hr
    obtain ⟨-,q,hq,-,-,-,hzo,-⟩ := process_removed hun hp hq'
    rw [hzo] at hz
    rcases mem_append.mp hz with hz | hz
    · exact h.zombies hr hq zombie hz
    split at hz
    · cases mem_singleton.mp hz
      rintro rfl
      cases hp.symm.trans (hk.reported_gone hr)
    · cases hz

theorem Reports.returned (h : Reports s) {p' : Process} {value : BitVec 32}
    (hr : Returns s p p' pid value s') (hwa : p'.waitpidOn = p.waitpidOn ∨ p'.waitpidOn = none)
    (ha : ∀ {later}, Reported s.history p.processID pid later → value = -1)
    (hf : .forked p.processID pid ∈ s.history → .exited pid value ∈ s.history →
      ∀ zombie ∈ p'.zombies, zombie.pid ≠ pid) : Reports s' := by
  have hn : ∀ {x q'}, s'.process x = some q' → ∃ q, s.process x = some q ∧
      (q'.waitpidOn = q.waitpidOn ∨ q'.waitpidOn = none) ∧ q'.zombies.Sublist q.zombies := by
    intro x q' hq'
    rcases hr.cases hq' with ⟨rfl,rfl⟩ | hq
    · exact ⟨p,hr.caller,hwa,hr.zombies⟩
    · exact ⟨q',hq,.inl rfl,List.Sublist.refl _⟩
  refine ⟨?_,?_,?_⟩
  · intro x q' y hq' hwa
    obtain ⟨q,hq,hw | hw,-⟩ := hn hq'
    · rw [hw] at hwa
      obtain ⟨hle,hl⟩ := h.waiting hq hwa
      refine ⟨hr.thePid ▸ hle,fun hfo => ?_⟩
      rw [hr.history] at hfo
      obtain ⟨r,ho,hi⟩ := hl (mem_of_snoc hfo (by simp))
      obtain ⟨r',hr',hli⟩ := hr.listed ho
      exact ⟨r',hr',hli ▸ hi⟩
    · rw [hw] at hwa
      cases hwa
  · intro parent child later v hre hi
    rw [hr.history] at hre
    rcases hre.of_snoc with ⟨later',rfl,hb⟩ | ⟨rfl,-⟩
    · rcases mem_append.mp hi with hi | hi
      · exact h.later hb hi
      · cases mem_singleton.mp hi
        exact ha hb
    · cases hi
  · intro parent child later q' hre hq' zombie hz
    rw [hr.history] at hre
    rcases hre.of_snoc with ⟨later',rfl,hb⟩ | ⟨rfl,v,he,hfo,hexi⟩
    · obtain ⟨q,hq,-,hs⟩ := hn hq'
      exact h.zombies hb hq zombie (hs.subset hz)
    cases he
    rw [hr.process,if_pos rfl] at hq'
    cases hq'
    exact hf hfo hexi zombie hz

theorem not_mem_eraseP {zombies : List ZombieState}
    (hd : (zombies.map ZombieState.pid).Nodup)
    (hi : zombie ∈ zombies.eraseP fun zombie => zombie.pid == pid) : zombie.pid ≠ pid := by
  induction zombies with
  | nil => cases hi
  | cons head rest ih =>
    rw [map_cons,nodup_cons] at hd
    by_cases hh : head.pid = pid
    · rw [eraseP_cons_of_pos (by simpa using hh)] at hi
      intro hz
      apply hd.1
      rw [hh,← hz]
      exact mem_map_of_mem hi
    · rw [eraseP_cons_of_neg (by simpa using hh)] at hi
      rcases mem_cons.mp hi with rfl | hi
      · exact hh
      · exact ih hd.2 hi

theorem Reports.told (h : Reports s) (hk : Kin s) (hp : s.process p.processID = some p)
    (hzo : p.zombies.find? (fun zombie => zombie.pid == pid) = some zombie) :
    Reports ((s.update p.processID (reaped pid)).record
      (.returned p.processID pid zombie.returnStatus)) := by
  have hz : zombie.pid = pid := by simpa using find?_some hzo
  refine h.returned (returns_told hp pid _) (.inl rfl) (fun hr => ?_) fun _ _ z hi => ?_
  · exact absurd hz (h.zombies hr hp zombie (mem_of_find?_eq_some hzo))
  · exact not_mem_eraseP (hk.distinct hp) hi

theorem Reports.refused (h : Reports s) (hp : s.process p.processID = some p)
    (hz : p.zombies.find? (fun zombie => zombie.pid == pid) = none) :
    Reports (s.record (.returned p.processID pid (-1))) := by
  refine h.returned (returns_refused hp pid _) (.inl rfl) (fun _ => rfl) fun _ _ zombie hi => ?_
  simpa using find?_eq_none.mp hz zombie hi

theorem Reports.asleepIn (h : Reports s) (hk : Kin s) {p : Nat}
    (hp : (s.process pid).isSome) : Reports (s.asleepIn p pid) := by
  refine ⟨?_,h.later,?_⟩
  · intro x q' y hq' hw
    obtain ⟨q,hq,-,-,-,hs,hsa⟩ := asleep_cases hq'
    by_cases hx : x = p
    · cases (hs hx).1.symm.trans hw
      refine ⟨hk.wellformed.known _ ((s.process_isSome).mp hp),fun _ => ?_⟩
      obtain ⟨r,hr⟩ := isSome_iff_exists.mp hp
      obtain ⟨r',hr',hli⟩ := asleep_listed p pid hr
      refine ⟨r',hr',?_⟩
      rw [hli,if_pos rfl,hx]
      exact mem_append_right _ (mem_singleton_self _)
    · obtain ⟨hle,hl⟩ := h.waiting hq ((hsa hx).1 ▸ hw)
      refine ⟨hle,fun hf => ?_⟩
      obtain ⟨r,hr,hi⟩ := hl hf
      obtain ⟨r',hr',hli⟩ := asleep_listed p pid hr
      exact ⟨r',hr',hli ▸ mem_append_left _ hi⟩
  · intro parent child later q' hr hq'
    obtain ⟨q,hq,-,hz,-⟩ := asleep_cases hq'
    rw [hz]
    exact h.zombies hr hq

theorem Reports.resume (h : Reports s) (hki : Kin s) (hp : s.process p.processID = some p) : Reports (s.resume p) := by
  rcases resume_cases hp with hk | ⟨pid,hw,hr⟩
  · exact h.change hk
  -- the process is listed by the child it waits for, which then has not exited
  have ha : .forked p.processID pid ∈ s.history → ∃ q, s.process pid = some q := by
    intro hf
    obtain ⟨q,hq,-⟩ := (h.waiting hp hw).2 hf
    exact ⟨q,hq⟩
  refine h.returned hr (.inr rfl) (fun hre => ?_) fun hf he => ?_
  · obtain ⟨q,hq⟩ := ha hre.forked
    cases hq.symm.trans (hki.reported_gone hre)
  obtain ⟨q,hq⟩ := ha hf
  refine absurd ((s.process_isSome).mp ?_) (hki.exited he).1
  rw [hq]
  rfl

def unwatched (s : State) (label : Label) : Prop :=
  ∀ pid p, label = .remove pid → s.process pid = some p → p.parentProcess ∉ p.waitingList

theorem allows_unwatched : Allows unwatched where
  silent := by
    intro s pid p hl
    cases hl
  awake := by
    intro s pid _ x p hl
    cases hl
  unwaited := by
    intro s pid p hp hli x q hl hq
    cases hl
    cases hp.symm.trans hq
    simp [hli]
  other := by
    intro s pid p hl
    cases hl

theorem Reports.action (h : Reports s) (hki : Kin s) {label : Label}
    (hu : unwatched s label) (ha : Action s label s') : Reports s' := by
  cases ha with
  | change hk => exact h.change hk
  | add p => exact h.addProcess hki p
  | @fork p hp hn => exact h.fork hki p.processID
  | remove hp hn status => exact h.removeProcess hki hp (hu _ _ rfl hp) status
  | told hp hz => exact h.told hki hp hz
  | refused hp hz hpi => exact h.refused hp hz
  | sleep hp haw hpi => exact h.asleepIn hki hpi
  | resume hp hs => exact h.resume hki hp

theorem Reports.actions (h : Reports s) (hk : Kin s) (hac : Actions unwatched s s') : Reports s' ∧ Kin s' := by
  induction hac with
  | refl => exact ⟨h,hk⟩
  | next hal ha _ ih => exact ih (h.action hk hal ha) (hk.action ha)

theorem reports_init : Reports initialized := by
  refine ⟨?_,?_,?_⟩
  · intro x p pid hp hw
    obtain ⟨hm,-⟩ := mem_of_process _ hp
    cases mem_singleton.mp hm
    cases hw
  all_goals
    intro _ _ _ _ hr
    cases hr.forked

def Unwatched (s : State) (call : Call) (_ : State) : Prop :=
  ∀ status next p, call = .exit status next → s.caller = some p → p.parentProcess ∉ p.waitingList

theorem reports_of_run (h : Reachable (· = initialized) step Unwatched s) : Reports s ∧ Kin s ∧ Awake s := by
  induction h with
  | start h =>
    cases h
    exact ⟨reports_init,kin_init,awake_init⟩
  | next _ hs hu ih =>
    obtain ⟨hr,hk,haw⟩ := ih
    obtain ⟨ha,ha'⟩ := step_actions allows_unwatched hk.wellformed haw
      (fun _ _ _ _ _ _ hl => by cases hl)
      (fun status next p hca hc x q hl hq => by
        cases hl
        cases (caller_eq_some hc).1.symm.trans hq
        exact hu status next p hca hc) hs
    obtain ⟨hr',hk'⟩ := hr.actions hk ha
    exact ⟨hr',hk',ha'⟩

/-- Once a parent was told the exit status of a child, it has no record of the child, each return
of a later call is -1, and no later call sleeps. -/
theorem status_reported_once (h : Reachable (· = initialized) step Unwatched s)
    {parent child : Nat} {later : List Event} (hreport : Reported s.history parent child later) :
    (∀ value, .returned parent child value ∈ later → value = -1) ∧ ∀ p, s.process parent = some p →
        p.waitpidOn ≠ some child ∧ ∀ zombie ∈ p.zombies, zombie.pid ≠ child := by
  obtain ⟨hr,hk,-⟩ := reports_of_run h
  refine ⟨fun value => hr.later hreport,fun p hp => ⟨fun hw => ?_,?_⟩⟩
  · obtain ⟨q,hq,-⟩ := (hr.waiting hp hw).2 hreport.forked
    cases hq.symm.trans (hk.reported_gone hreport)
  · exact hr.zombies hreport hp
end

/-- The parent waits after its child has exited with status 5, and once more. -/
theorem status_reported_once_exited : ∃ s : State, Reported s.history 1 2 [.returned 1 2 (-1)] ∧
      ∀ p, s.process 1 = some p → p.waitpidOn ≠ some 2 ∧ ∀ zombie ∈ p.zombies, zombie.pid ≠ 2 := by
  obtain ⟨s,hre,hh⟩ : ∃ s, Reachable (· = initialized) step Unwatched s ∧
      s.history = [.forked 1 2,.exited 2 5,.returned 1 2 5,.returned 1 2 (-1)] := by
    refine Reachable.exists_checked rfl
      (fun s call => match call with
        | .exit _ _ => s.caller.all fun p => p.parentProcess ∉ p.waitingList
        | _ => true) (fun s call s' ht status next p hca hc => ?_)
      [.create true,.timer 0,.fork true,.timer 0,.exit 5 none,.timer 0,.waitpid 2,
        .waitpid 2] (by decide)
    rw [hca] at ht
    simpa [hc] using ht
  have hr : Reported s.history 1 2 [.returned 1 2 (-1)] := ⟨[.forked 1 2,.exited 2 5],5,hh,by decide,by decide⟩
  exact ⟨s,hr,(status_reported_once hre hr).2⟩

/-- A parent that slept until its child exited is told the status again by its next call. -/
theorem status_reported_twice :
    ¬ ∀ s, Reachable (· = initialized) step anyStep s → ∀ parent child later,
      Reported s.history parent child later →
        ∀ value, .returned parent child value ∈ later → value = -1 := by
  intro ha
  obtain ⟨s,hre,hh⟩ : ∃ s, Reachable (· = initialized) step anyStep s ∧
      s.history = [.forked 1 2,.exited 2 5,.returned 1 2 5,.returned 1 2 5] :=
    Reachable.exists_run rfl
      [.create true,.timer 0,.fork true,.waitpid 2,.exit 5 none,.timer 0,.waitpid 2]
      (by decide)
  have hr : Reported s.history 1 2 [.returned 1 2 5] := ⟨[.forked 1 2,.exited 2 5],5,hh,by decide,by decide⟩
  have hv := ha s hre 1 2 _ hr 5 (mem_singleton_self _)
  revert hv
  decide
end State
end LensorOS.Scheduler
