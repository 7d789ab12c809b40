import LensorOS.Scheduler.Actions

/-!
# Parents, children and zombie records

How the processes in the queue and the zombie records they hold go with the forks and exits
that happened.
-/
namespace LensorOS.Scheduler
open List Option
namespace State
structure Kin (s : State) : Prop where
  wellformed : Wellformed s
  exited : ∀ {child status}, .exited child status ∈ s.history → child ∉ s.ids ∧ child ≤ s.thePid
  status : ∀ {child status status'}, .exited child status ∈ s.history →
    .exited child status' ∈ s.history → status = status'
  forked : ∀ {parent child}, .forked parent child ∈ s.history →
    parent ≠ 0 ∧ parent ≤ s.thePid ∧ child ≤ s.thePid ∧
      (child ∈ s.ids ∨ ∃ status, .exited child status ∈ s.history)
  parent : ∀ {parent child q}, .forked parent child ∈ s.history → s.process child = some q →
    q.parentProcess = parent
  zombies : ∀ {x p}, s.process x = some p → ∀ zombie ∈ p.zombies,
    .exited zombie.pid zombie.returnStatus ∈ s.history
  distinct : ∀ {x p}, s.process x = some p → (p.zombies.map ZombieState.pid).Nodup

section
variable {s s' : State} {p q' : Process} {pid x : Nat}
theorem Kin.of_returned (h : Kin s) (hi : s'.ids = s.ids) (hpi : s'.thePid = s.thePid)
    (events : List Event) (hh : s'.history = s.history ++ events)
    (hev : ∀ e ∈ events, ∃ caller pid value, e = .returned caller pid value)
    (hpr : ∀ x q', s'.process x = some q' → ∃ q, s.process x = some q ∧
      q'.parentProcess = q.parentProcess ∧ q'.zombies.Sublist q.zombies) : Kin s' := by
  have ho : ∀ e, e ∈ s.history → e ∈ s'.history := fun e he => by
    rw [hh]
    exact mem_append_left _ he
  have hexi : ∀ child status, .exited child status ∈ s'.history → .exited child status ∈ s.history := by
    intro child status he
    rw [hh] at he
    refine (mem_append.mp he).resolve_right fun he => ?_
    obtain ⟨_,_,_,hn⟩ := hev _ he
    cases hn
  have hf : ∀ parent child, .forked parent child ∈ s'.history → .forked parent child ∈ s.history := by
    intro parent child he
    rw [hh] at he
    refine (mem_append.mp he).resolve_right fun he => ?_
    obtain ⟨_,_,_,hn⟩ := hev _ he
    cases hn
  refine ⟨h.wellformed.of_same hi hpi,?_,?_,?_,?_,?_,?_⟩
  · intro child status he
    rw [hi,hpi]
    exact h.exited (hexi _ _ he)
  · intro child status status' he he'
    exact h.status (hexi _ _ he) (hexi _ _ he')
  · intro parent child he
    obtain ⟨hn,hpa,hc,ha⟩ := h.forked (hf _ _ he)
    rw [hi,hpi]
    exact ⟨hn,hpa,hc,ha.imp_right fun ⟨status,hs⟩ => ⟨status,ho _ hs⟩⟩
  · intro parent child q' he hq'
    obtain ⟨q,hq,hsa,-⟩ := hpr _ _ hq'
    exact hsa.trans (h.parent (hf _ _ he) hq)
  · intro x p' hp' zombie hz
    obtain ⟨p,hp,-,hsu⟩ := hpr _ _ hp'
    exact ho _ (h.zombies hp zombie (hsu.subset hz))
  · intro x p' hp'
    obtain ⟨p,hp,-,hsu⟩ := hpr _ _ hp'
    exact (hsu.map _).nodup (h.distinct hp)

theorem Kin.kept (h : Kin s) {touched : Option Nat} (hk : Kept touched s s') : Kin s' := by
  refine h.of_returned hk.ids hk.thePid [] ?_ (fun _ he => by cases he) ?_
  · rw [hk.history,append_nil]
  intro x q' hq'
  obtain ⟨q,hq,hpa,-,hz,-⟩ := hk.process x q' hq'
  exact ⟨q,hq,hpa,hz ▸ List.Sublist.refl _⟩

theorem Kin.addProcess (h : Kin s) (parent : Nat) : Kin (s.addProcess parent) := by
  have hn := h.wellformed.fresh
  have hi := s.ids_add parent
  refine ⟨h.wellformed.addProcess parent,?_,h.status,?_,?_,?_,?_⟩
  · intro child status he
    obtain ⟨hg,hl⟩ := h.exited he
    refine ⟨?_,hl.trans (Nat.le_succ _)⟩
    rw [hi,mem_append,mem_singleton]
    rintro (hin | rfl)
    · exact hg hin
    · exact absurd hl (by omega)
  · intro p child he
    obtain ⟨hne,hpa,hch,ha⟩ := h.forked he
    refine ⟨hne,hpa.trans (Nat.le_succ _),hch.trans (Nat.le_succ _),?_⟩
    rw [hi]
    exact ha.imp_left (mem_append_left _)
  · intro p child q he hq
    have ho : child ≠ s.thePid+1 := fun hc =>
      absurd (hc ▸ (h.forked he).2.2.1) (by omega)
    rw [process_add parent hn,if_neg ho] at hq
    exact h.parent he hq
  · intro x p hp
    rw [process_add parent hn] at hp
    split at hp
    · cases hp
      intro zombie hz
      cases hz
    · exact h.zombies hp
  · intro x p hp
    rw [process_add parent hn] at hp
    split at hp
    · cases hp
      exact nodup_nil
    · exact h.distinct hp

theorem Kin.fork (h : Kin s) (hp : s.process p.processID = some p) (hne : p.processID ≠ 0) :
    Kin ((s.addProcess p.processID).record (.forked p.processID (s.thePid+1))) := by
  have had := h.addProcess p.processID
  have hn := process_added h.wellformed p.processID
  have hm : p.processID ∈ s.ids := by
    rw [← process_isSome,hp]
    rfl
  have hexi : ∀ {child status}, .exited child status ∈
      ((s.addProcess p.processID).record (.forked p.processID (s.thePid+1))).history →
      .exited child status ∈ (s.addProcess p.processID).history :=
    fun he => mem_of_snoc he (by simp)
  refine ⟨had.wellformed.of_same rfl rfl,fun he => had.exited (hexi he),
    fun he he' => had.status (hexi he) (hexi he'),?_,?_,?_,had.distinct⟩
  · intro parent child he
    rcases mem_append.mp he with he | he
    · obtain ⟨hne,hpa,hc,ha⟩ := had.forked he
      exact ⟨hne,hpa,hc,ha.imp_right fun ⟨status,hs⟩ => ⟨status,mem_append_left _ hs⟩⟩
    cases mem_singleton.mp he
    refine ⟨hne,(h.wellformed.known _ hm).trans (Nat.le_succ _),le_rfl,.inl ?_⟩
    rw [ids_record,← process_isSome,hn]
    rfl
  · intro parent child q he hq
    rcases mem_append.mp he with he | he
    · exact had.parent he hq
    · cases mem_singleton.mp he
      cases hn.symm.trans hq
      rfl
  · intro x q hq zombie hz
    exact mem_append_left _ (had.zombies hq zombie hz)

theorem process_removed (hu : s.ids.Nodup) (hp : s.process pid = some p) {status : BitVec 32}
    (hq' : (s.removeProcess pid status).process x = some q') :
    x ≠ pid ∧ ∃ q, s.process x = some q ∧ q'.parentProcess = q.parentProcess ∧
      q'.waitingList = q.waitingList ∧ q'.waitpidOn = q.waitpidOn ∧
      q'.zombies = q.zombies ++ (if x = p.parentProcess then [⟨pid,status⟩] else []) ∧
      (x ∈ p.waitingList → q'.state = .running ∧ q'.rax = status.signExtend 64) ∧
      (x ∉ p.waitingList → q'.state = q.state ∧ q'.rax = q.rax) := by
  rw [process_remove hu hp] at hq'
  split at hq'
  · cases hq'
  next hne =>
  rw [Option.map_map,Option.map_eq_some_iff] at hq'
  obtain ⟨q,hq,rfl⟩ := hq'
  refine ⟨hne,q,hq,?_⟩
  rw [Function.comp_apply]
  by_cases hpa : x = p.parentProcess
  · by_cases hw : x ∈ p.waitingList
    · rw [if_pos hw,if_pos hpa,if_pos hpa]
      exact ⟨rfl,rfl,rfl,rfl,fun _ => ⟨rfl,rfl⟩,fun hn => absurd hw hn⟩
    · rw [if_neg hw,if_pos hpa,if_pos hpa]
      exact ⟨rfl,rfl,rfl,rfl,fun hi => absurd hi hw,fun _ => ⟨rfl,rfl⟩⟩
  by_cases hw : x ∈ p.waitingList
  · rw [if_pos hw,if_neg hpa,if_neg hpa,append_nil]
    exact ⟨rfl,rfl,rfl,rfl,fun _ => ⟨rfl,rfl⟩,fun hn => absurd hw hn⟩
  · rw [if_neg hw,if_neg hpa,if_neg hpa,append_nil]
    exact ⟨rfl,rfl,rfl,rfl,fun hi => absurd hi hw,fun _ => ⟨rfl,rfl⟩⟩

theorem removed_isSome (hu : s.ids.Nodup)
    (hp : s.process pid = some p) (status : BitVec 32) (hn : x ≠ pid)
    (hx : (s.process x).isSome) : ((s.removeProcess pid status).process x).isSome := by
  rw [process_isSome,(s.remove_fields hp status).1,hu.mem_erase_iff]
  exact ⟨hn,(s.process_isSome).mp hx⟩

theorem Kin.removeProcess (h : Kin s) (hp : s.process pid = some p)
    (hne : pid ≠ 0) (status : BitVec 32) : Kin (s.removeProcess pid status) := by
  have hu := h.wellformed.unique
  have hm : pid ∈ s.ids := by
    rw [← process_isSome,hp]
    rfl
  obtain ⟨hi,-,hpi,-,-,-,hh⟩ := s.remove_fields hp status
  have ho : ∀ {e}, e ∈ s.history → e ∈ (s.removeProcess pid status).history := fun he => by
    rw [hh]
    exact mem_append_left _ he
  have hexi : ∀ {child status'}, .exited child status' ∈ (s.removeProcess pid status).history →
      .exited child status' ∈ s.history ∨ child = pid ∧ status' = status := by
    intro child status' he
    rw [hh] at he
    rcases mem_append.mp he with he | he
    · exact .inl he
    · cases mem_singleton.mp he
      exact .inr ⟨rfl,rfl⟩
  have hf : ∀ {parent child}, .forked parent child ∈ (s.removeProcess pid status).history →
      .forked parent child ∈ s.history := by
    intro parent child he
    rw [hh] at he
    exact mem_of_snoc he (by simp)
  have hn : ∀ {status'}, .exited pid status' ∉ s.history := fun he => (h.exited he).1 hm
  refine ⟨h.wellformed.removeProcess hp hne status,?_,?_,?_,?_,?_,?_⟩
  · intro child status' he
    rw [hi,hpi,hu.mem_erase_iff]
    rcases hexi he with he | ⟨rfl,rfl⟩
    · exact ⟨fun hin => (h.exited he).1 hin.2,(h.exited he).2⟩
    · exact ⟨fun hin => hin.1 rfl,h.wellformed.known _ hm⟩
  · intro child st st' he he'
    rcases hexi he with hs | ⟨hc,hs⟩
    · rcases hexi he' with hs' | ⟨hc,-⟩
      · exact h.status hs hs'
      · exact absurd (hc ▸ hs) hn
    rcases hexi he' with hs' | ⟨-,hs'⟩
    · exact absurd (hc ▸ hs') hn
    · exact hs.trans hs'.symm
  · intro parent child he
    obtain ⟨hze,hpa,hch,hal⟩ := h.forked (hf he)
    rw [hpi]
    refine ⟨hze,hpa,hch,?_⟩
    rcases hal with hal | ⟨status',he⟩
    · by_cases hc : child = pid
      · right
        refine ⟨status,?_⟩
        rw [hh,hc]
        exact mem_append_right _ (mem_singleton_self _)
      · left
        rw [hi,hu.mem_erase_iff]
        exact ⟨hc,hal⟩
    · exact .inr ⟨status',ho he⟩
  · intro parent child q' he hq'
    obtain ⟨-,q,hq,hsa,-⟩ := process_removed hu hp hq'
    exact hsa.trans (h.parent (hf he) hq)
  · intro x q' hq' zombie hz
    obtain ⟨-,q,hq,-,-,-,hzo,-⟩ := process_removed hu hp hq'
    rw [hzo] at hz
    rcases mem_append.mp hz with hz | hz
    · exact ho (h.zombies hq zombie hz)
    split at hz
    · cases mem_singleton.mp hz
      rw [hh]
      exact mem_append_right _ (mem_singleton_self _)
    · cases hz
  · intro x q' hq'
    obtain ⟨-,q,hq,-,-,-,hzo,-⟩ := process_removed hu hp hq'
    rw [hzo]
    split
    · rw [map_append,nodup_append]
      refine ⟨h.distinct hq,nodup_singleton _,?_⟩
      intro a ha b hb hab
      obtain ⟨zombie,hz,rfl⟩ := mem_map.mp ha
      rw [map_singleton,mem_singleton] at hb
      have hpi := hab.trans hb
      exact hn (hpi ▸ h.zombies hq zombie hz)
    · rw [append_nil]
      exact h.distinct hq

theorem process_told (p : Process) (hp : s.process p.processID = some p) (pid : Nat) (e : Event)
    (x : Nat) : ((s.update p.processID (reaped pid)).record e).process x = if x = p.processID then
        some (reaped pid p) else s.process x := by
  change (State.update _ _ _).process x = _
  rw [process_update _ _ (reaped pid) fun _ => rfl]
  split
  · next hx => rw [hx,hp,map_some]
  · rfl

/-- A return of `waitpid`. The caller may lose zombie records and leave the call. -/
structure Returns (s : State) (p p' : Process) (pid : Nat) (value : BitVec 32) (s' : State) :
    Prop where
  ids : s'.ids = s.ids
  thePid : s'.thePid = s.thePid
  history : s'.history = s.history ++ [.returned p.processID pid value]
  caller : s.process p.processID = some p
  process : ∀ x, s'.process x = if x = p.processID then some p' else s.process x
  same : p'.parentProcess = p.parentProcess ∧ p'.waitingList = p.waitingList ∧
    p'.state = p.state ∧ p'.rax = p.rax
  zombies : p'.zombies.Sublist p.zombies

section
variable {p p' : Process} {pid x : Nat} {value : BitVec 32}
theorem Returns.cases (h : Returns s p p' pid value s')
    (hq' : s'.process x = some q') : x = p.processID ∧ q' = p' ∨ s.process x = some q' := by
  rw [h.process] at hq'
  split at hq'
  · next hx => exact .inl ⟨hx,(some.inj hq').symm⟩
  · exact .inr hq'

theorem Returns.listed (h : Returns s p p' pid value s') {q : Process}
    (hq : s.process x = some q) : ∃ q', s'.process x = some q' ∧ q'.waitingList = q.waitingList := by
  rw [h.process]
  split
  · next hx =>
    rw [hx] at hq
    cases hq.symm.trans h.caller
    exact ⟨p',rfl,h.same.2.1⟩
  · exact ⟨q,hq,rfl⟩

variable (hp : s.process p.processID = some p)
include hp
theorem returns_told (pid : Nat) (value : BitVec 32) : Returns s p (reaped pid p) pid value
      ((s.update p.processID (reaped pid)).record (.returned p.processID pid value)) :=
  ⟨ids_update _ (reaped pid)
    (fun _ => rfl) _,rfl,rfl,hp,process_told p hp pid _,⟨rfl,rfl,rfl,rfl⟩,eraseP_sublist⟩

theorem returns_refused (pid : Nat) (value : BitVec 32) :
    Returns s p p pid value (s.record (.returned p.processID pid value)) := by
  refine ⟨rfl,rfl,rfl,hp,fun x => ?_,⟨rfl,rfl,rfl,rfl⟩,List.Sublist.refl _⟩
  split
  · next hx => exact hx ▸ hp
  · rfl

theorem resume_cases : Kept none s (s.resume p) ∨ ∃ pid, p.waitpidOn = some pid ∧
    Returns s p { p with waitpidOn := none } pid (p.rax.truncate 32) (s.resume p) := by
  obtain ⟨hi,hpi,-,-,hh⟩ := s.resume_fields p
  cases hw : p.waitpidOn with
  | none =>
    have hq : (s.resume p).processQueue = s.processQueue := by
      rw [State.resume,hw]
      rfl
    rw [hw,map_none,toList_none,append_nil] at hh
    exact .inl (Kept.of_queue hq hpi hh)
  | some pid =>
    rw [hw,map_some,toList_some] at hh
    exact .inr ⟨pid,rfl,hi,hpi,hh,hp,process_resume s p hp,⟨rfl,rfl,rfl,rfl⟩, List.Sublist.refl _⟩
end

theorem Kin.returned (h : Kin s) {p' : Process} {value : BitVec 32} (hr : Returns s p p' pid value s') : Kin s' := by
  refine h.of_returned hr.ids hr.thePid _ hr.history ?_ ?_
  · intro e he
    exact ⟨_,_,_,mem_singleton.mp he⟩
  intro x q' hq'
  rcases hr.cases hq' with ⟨rfl,rfl⟩ | hq
  · exact ⟨p,hr.caller,hr.same.1,hr.zombies⟩
  · exact ⟨q',hq,rfl,List.Sublist.refl _⟩

theorem Kin.action (h : Kin s) {label : Label} (ha : Action s label s') : Kin s' := by
  cases ha with
  | change hk => exact h.kept hk
  | add parent => exact h.addProcess parent
  | fork hp hn => exact h.fork hp hn
  | remove hp hn status => exact h.removeProcess hp hn status
  | told hp => exact h.returned (returns_told hp _ _)
  | refused hp => exact h.returned (returns_refused hp _ _)
  | sleep =>
    refine h.of_returned (ids_asleepIn _ _ _) rfl [] (append_nil _).symm (fun _ he => by cases he) fun x q' hq' => ?_
    obtain ⟨q,hq,hpa,hz,-⟩ := asleep_cases hq'
    exact ⟨q,hq,hpa,hz ▸ List.Sublist.refl _⟩
  | resume hp =>
    rcases resume_cases hp with hk | ⟨pid,-,hr⟩
    · exact h.kept hk
    · exact h.returned hr

theorem kin_init : Kin initialized := by
  refine ⟨⟨by decide,by decide,by decide⟩,?_,?_,?_,?_,?_,?_⟩
  · intro _ _ he
    cases he
  · intro _ _ _ he
    cases he
  · intro _ _ he
    cases he
  · intro _ _ _ he
    cases he
  · intro x p hp zombie hz
    obtain ⟨hi,-⟩ := mem_of_process _ hp
    cases mem_singleton.mp hi
    cases hz
  intro x p hp
  obtain ⟨hi,-⟩ := mem_of_process _ hp
  cases mem_singleton.mp hi
  exact nodup_nil
end
end State
end LensorOS.Scheduler
