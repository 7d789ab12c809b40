import Mathlib.Data.List.TakeWhile
import LensorOS.Scheduler.Kinship

/-!
# Waiting for a child

An exit status reaches the parent as a zombie record that a later `waitpid` finds, or as the return
value of a parent that already sleeps in `waitpid`.
-/
namespace LensorOS.Scheduler
open Framework List Option
/-- The values returned to a parent by calls of `waitpid` on a child, since its fork. -/
def returnsOf (history : List Event) (parent child : Nat) : List (BitVec 32) :=
  (history.dropWhile fun e => e != .forked parent child).filterMap fun e =>
    match e with
    | .returned caller pid value => if caller = parent ∧ pid = child then some value else none
    | _ => none

section
variable {history : List Event} {parent child : Nat}
theorem returns_of_not_forked (h : .forked parent child ∉ history) : returnsOf history parent child = [] := by
  have hn : (history.dropWhile fun e => e != .forked parent child) = [] := by
    refine dropWhile_eq_nil_iff.mpr fun e he => bne_iff_ne.mpr fun hf => h (hf ▸ he)
  rw [returnsOf,hn,filterMap_nil]

theorem returns_append (h : .forked parent child ∈ history) (events : List Event) :
    returnsOf (history ++ events) parent child = returnsOf history parent child ++
      events.filterMap fun e =>
        match e with
        | .returned caller pid value => if caller = parent ∧ pid = child then some value else none
        | _ => none := by
  have hs : ¬ (history.dropWhile fun e => e != .forked parent child).isEmpty = true := by
    rw [List.isEmpty_iff,List.dropWhile_eq_nil_iff]
    intro ha
    simpa using ha _ h
  rw [returnsOf,dropWhile_append,if_neg hs,filterMap_append]
  rfl

theorem returns_snoc_other {event : Event}
    (ho : ∀ value, event ≠ .returned parent child value) :
    returnsOf (history ++ [event]) parent child = returnsOf history parent child := by
  by_cases h : .forked parent child ∈ history
  · rw [returns_append h]
    cases event with
    | returned caller pid value =>
      have hn : ¬ (caller = parent ∧ pid = child) := by
        rintro ⟨rfl,rfl⟩
        exact ho value rfl
      simp [hn]
    | forked => simp
    | exited => simp
  rw [returns_of_not_forked h]
  by_cases hf : event = .forked parent child
  · rw [returnsOf,dropWhile_append,if_pos]
    · rw [hf]
      simp
    · rw [List.isEmpty_iff,List.dropWhile_eq_nil_iff]
      exact fun e he => bne_iff_ne.mpr fun hn => h (hn ▸ he)
  · refine returns_of_not_forked fun hi => ?_
    rcases mem_append.mp hi with hi | hi
    · exact h hi
    · exact hf (mem_singleton.mp hi).symm

theorem returns_snoc_returned (h : .forked parent child ∈ history) (value : BitVec 32) :
    returnsOf (history ++ [.returned parent child value]) parent child =
      returnsOf history parent child ++ [value] := by
  rw [returns_append h]
  simp
end

namespace State
/-- Where a parent is with the exits of its children: asleep and listed by the child, or running
with the child's status as its return value, or with a zombie record for a later call. -/
structure Waits (parent : Nat) (s : State) : Prop where
  listed : ∀ {pid q}, s.process pid = some q → parent ∈ q.waitingList →
    parent ≤ s.thePid ∧ ∀ p, s.process parent = some p →
      p.waitpidOn = some pid ∧ p.state = .sleeping
  waiting : ∀ {p pid}, s.process parent = some p → p.waitpidOn = some pid →
    (p.state = .sleeping ∧ ∃ q, s.process pid = some q ∧ parent ∈ q.waitingList) ∨
      (p.state = .running ∧ ∃ status, .exited pid status ∈ s.history ∧ p.rax = status.signExtend 64)
  kept : ∀ {child status p}, .forked parent child ∈ s.history →
    .exited child status ∈ s.history → returnsOf s.history parent child = [] →
    s.process parent = some p → ∃ zombie ∈ p.zombies, zombie.pid = child
  first : ∀ {child value}, (returnsOf s.history parent child).head? = some value →
    .exited child value ∈ s.history

section
variable {parent : Nat} {s s' : State} {p : Process}
section
variable (h : Waits parent s) {pid : Nat}
include h
theorem Waits.awake_not_listed (hp : s.process parent = some p)
    (ha : p.waitpidOn = none) {q : Process} (hq : s.process pid = some q) :
    parent ∉ q.waitingList := by
  intro hi
  have hw := ((h.listed hq hi).2 p hp).1
  rw [ha] at hw
  cases hw

theorem Waits.not_listed_elsewhere {r : Process}
    (hr : s.process parent = some r) {x : Nat} (hx : r.waitpidOn = some x)
    (hp : s.process pid = some p) (hn : x ≠ pid) : parent ∉ p.waitingList := by
  intro hi
  have hpi := ((h.listed hp hi).2 r hr).1
  rw [hx,some.injEq] at hpi
  exact hn hpi

theorem Waits.change {touched : Option Nat} (hk : Kept touched s s')
    (hal : touched = some parent → ∀ p, s.process parent = some p → p.waitpidOn = none) :
    Waits parent s' := by
  have hsa : ∀ p', s'.process parent = some p' → p'.waitpidOn ≠ none → s.process parent = some p' := by
    intro p' hp' hwa
    by_cases ht : touched = some parent
    · obtain ⟨p,hp,-,-,-,hw⟩ := hk.process parent p' hp'
      exact absurd (hw.trans (hal ht p hp)) hwa
    · rw [← hk.others parent ht]
      exact hp'
  refine ⟨?_,?_,?_,?_⟩
  · intro pid q' hq' hi
    obtain ⟨q,hq,-,hl,-⟩ := hk.process pid q' hq'
    rw [hl] at hi
    obtain ⟨hle,ha⟩ := h.listed hq hi
    refine ⟨hk.thePid ▸ hle,fun p' hp' => ?_⟩
    obtain ⟨p,hp,-,-,-,hw⟩ := hk.process parent p' hp'
    have hwa := (ha p hp).1
    refine ha p' (hsa p' hp' ?_)
    rw [hw,hwa]
    simp
  · intro p' pid hp' hwa
    rw [hk.history]
    rcases h.waiting (hsa p' hp' (by simp [hwa])) hwa with ⟨hs,q,hq,hi⟩ | hra
    · obtain ⟨q',hq',hl⟩ := hk.listed hq
      exact .inl ⟨hs,q',hq',hl ▸ hi⟩
    · exact .inr hra
  · intro child status p' hfo he hr hp'
    rw [hk.history] at hfo he hr
    obtain ⟨p,hp,-,-,hz,-⟩ := hk.process parent p' hp'
    rw [hz]
    exact h.kept hfo he hr hp
  · intro child value hf
    rw [hk.history] at hf ⊢
    exact h.first hf

theorem Waits.addProcess (hkin : Kin s) (p : Nat) : Waits parent (s.addProcess p) := by
  have hn := hkin.wellformed.fresh
  refine ⟨?_,?_,?_,h.first⟩
  · intro pid q hq hi
    rw [process_add p hn] at hq
    split at hq
    · cases hq
      cases hi
    obtain ⟨hl,ha⟩ := h.listed hq hi
    refine ⟨hl.trans (Nat.le_succ _),fun q' hq' => ?_⟩
    have hne : parent ≠ s.thePid+1 := by omega
    rw [process_add p hn,if_neg hne] at hq'
    exact ha q' hq'
  · intro q pid hq hw
    rw [process_add p hn] at hq
    split at hq
    · cases hq
      cases hw
    rcases h.waiting hq hw with ⟨hs,q',hq',hi⟩ | hra
    · refine .inl ⟨hs,q',?_,hi⟩
      have hne : pid ≠ s.thePid+1 := by
        rintro rfl
        refine hn ((s.process_isSome).mp ?_)
        rw [hq']
        rfl
      rw [process_add p hn,if_neg hne]
      exact hq'
    · exact .inr hra
  · intro child status q hf he hr hq
    have hl := (hkin.forked hf).2.1
    have hne : parent ≠ s.thePid+1 := by omega
    rw [process_add p hn,if_neg hne] at hq
    exact h.kept hf he hr hq

theorem Waits.record {event : Event} (hexi : ∀ child status, event ≠ .exited child status)
    (hre : ∀ child value, event ≠ .returned parent child value)
    (hfo : ∀ child status, event = .forked parent child → .exited child status ∉ s.history) :
    Waits parent (s.record event) := by
  have ho : ∀ {child status}, .exited child status ∈ s.history ++ [event] → .exited child status ∈ s.history := by
    exact fun he => mem_of_snoc he (Ne.symm (hexi _ _))
  refine ⟨h.listed,?_,?_,?_⟩
  · intro p pid hp hw
    rcases h.waiting hp hw with ha | ⟨hs,status,he,hra⟩
    · exact .inl ha
    · exact .inr ⟨hs,status,mem_append_left _ he,hra⟩
  · intro child status p hf he hr hp
    have hr : returnsOf (s.history ++ [event]) parent child = [] := hr
    rw [returns_snoc_other (hre child)] at hr
    rcases mem_append.mp hf with hf | hf
    · exact h.kept hf (ho he) hr hp
    · exact absurd (ho he) (hfo child status (mem_singleton.mp hf).symm)
  · intro child value hfi
    have hfi : (returnsOf (s.history ++ [event]) parent child).head? = some value := hfi
    rw [returns_snoc_other (hre child)] at hfi
    exact mem_append_left _ (h.first hfi)

theorem Waits.removeProcess (hkin : Kin s) (hp : s.process pid = some p) (status : BitVec 32) :
    Waits parent (s.removeProcess pid status) := by
  have hu := hkin.wellformed.unique
  have hm : pid ∈ s.ids := by
    rw [← process_isSome,hp]
    rfl
  obtain ⟨-,-,hpi,-,-,-,hh⟩ := s.remove_fields hp status
  have hre : ∀ child, returnsOf (s.removeProcess pid status).history parent child =
      returnsOf s.history parent child := fun child => by
    rw [hh]
    exact returns_snoc_other fun _ => by simp
  refine ⟨?_,?_,?_,?_⟩
  · intro x q' hq' hi
    obtain ⟨hne,q,hq,-,hl,-⟩ := process_removed hu hp hq'
    rw [hl] at hi
    obtain ⟨hle,ha⟩ := h.listed hq hi
    refine ⟨hpi ▸ hle,fun r' hr' => ?_⟩
    obtain ⟨-,r,hr,-,-,hw,-,-,hst⟩ := process_removed hu hp hr'
    obtain ⟨hx,hs⟩ := ha r hr
    have hno := h.not_listed_elsewhere hr hx hp hne
    exact ⟨hw.trans hx,(hst hno).1.trans hs⟩
  · intro r' x hr' hx
    obtain ⟨-,r,hr,-,-,hw,-,hwo,hsa⟩ := process_removed hu hp hr'
    rw [hw] at hx
    rw [hh]
    rcases h.waiting hr hx with ⟨hst,q,hq,hi⟩ | ⟨hst,st,he,hra⟩
    · by_cases hxp : x = pid
      · rw [hxp] at hq ⊢
        cases hq.symm.trans hp
        obtain ⟨hru,hra⟩ := hwo hi
        exact .inr ⟨hru,status,mem_append_right _ (mem_singleton_self _),hra⟩
      have hno := h.not_listed_elsewhere hr hx hp hxp
      obtain ⟨q',hq'⟩ := isSome_iff_exists.mp (removed_isSome hu hp status hxp (by rw [hq]; rfl))
      obtain ⟨-,q0,hq0,-,hl,-⟩ := process_removed hu hp hq'
      cases hq0.symm.trans hq
      exact .inl ⟨(hsa hno).1.trans hst,q',hq',hl ▸ hi⟩
    · have hxp : x ≠ pid := fun hxp => (hkin.exited he).1 (hxp ▸ hm)
      obtain ⟨hs',hra'⟩ := hsa (h.not_listed_elsewhere hr hx hp hxp)
      exact .inr ⟨hs'.trans hst,st,mem_append_left _ he,hra'.trans hra⟩
  · intro child st r' hfo hexi hn hr'
    obtain ⟨-,r,hr,-,-,-,hz,-⟩ := process_removed hu hp hr'
    rw [hre] at hn
    rw [hh] at hfo hexi
    have hfo : .forked parent child ∈ s.history := mem_of_snoc hfo (by simp)
    rw [hz]
    rcases mem_append.mp hexi with he | he
    · obtain ⟨zombie,hzo,hpi⟩ := h.kept hfo he hn hr
      exact ⟨zombie,mem_append_left _ hzo,hpi⟩
    cases mem_singleton.mp he
    have hpa := hkin.parent hfo hp
    refine ⟨⟨pid,status⟩,mem_append_right _ ?_,rfl⟩
    rw [if_pos hpa.symm]
    exact mem_singleton_self _
  · intro child value hf
    rw [hre] at hf
    rw [hh]
    exact mem_append_left _ (h.first hf)

/-- A return from `waitpid`. Zombie records may go only with a return to the parent, and a parent
leaves a call only if it does not sleep. -/
theorem Waits.returned {p0 p1 : Process} {value : BitVec 32} (hr : Returns s p0 p1 pid value s')
    (hl : p1.waitpidOn = p0.waitpidOn ∨ p1.waitpidOn = none ∧ p0.state ≠ .sleeping)
    (hzo : ∀ zombie ∈ p0.zombies, zombie ∈ p1.zombies ∨ zombie.pid = pid)
    (hva : p0.processID = parent → .forked parent pid ∈ s.history →
      returnsOf s.history parent pid = [] → .exited pid value ∈ s.history) : Waits parent s' := by
  have hexi : ∀ {child status}, .exited child status ∈ s'.history →
      .exited child status ∈ s.history := fun he => mem_of_snoc (hr.history ▸ he) (by simp)
  have hfo : ∀ {child}, .forked parent child ∈ s'.history →
      .forked parent child ∈ s.history := fun he => mem_of_snoc (hr.history ▸ he) (by simp)
  have hm : ∀ {e}, e ∈ s.history → e ∈ s'.history := fun he => by
    rw [hr.history]
    exact mem_append_left _ he
  have ho : ∀ {child}, ¬ (p0.processID = parent ∧ pid = child) →
      returnsOf s'.history parent child = returnsOf s.history parent child := by
    intro child hne
    rw [hr.history]
    refine returns_snoc_other fun v hv => hne ?_
    rw [Event.returned.injEq] at hv
    exact ⟨hv.1,hv.2.1⟩
  have hnew : ∀ {x q'}, s'.process x = some q' → ∃ q, s.process x = some q ∧
      q'.waitingList = q.waitingList ∧ q'.state = q.state ∧ q'.rax = q.rax ∧
      (q'.waitpidOn = q.waitpidOn ∨ q'.waitpidOn = none ∧ q.state ≠ .sleeping) ∧
      ∀ zombie ∈ q.zombies, zombie ∈ q'.zombies ∨ p0.processID = x ∧ zombie.pid = pid := by
    intro x q' hq'
    rcases hr.cases hq' with ⟨rfl,rfl⟩ | hq
    · exact ⟨p0,hr.caller,hr.same.2.1,hr.same.2.2.1,hr.same.2.2.2,hl,
        fun z hz => (hzo z hz).imp_right fun he => ⟨rfl,he⟩⟩
    · exact ⟨q',hq,rfl,rfl,rfl,.inl rfl,fun z hz => .inl hz⟩
  refine ⟨?_,?_,?_,?_⟩
  · intro x q' hq' hi
    obtain ⟨q,hq,hli,-⟩ := hnew hq'
    obtain ⟨hle,ha⟩ := h.listed hq (hli ▸ hi)
    refine ⟨hr.thePid ▸ hle,fun p' hp' => ?_⟩
    obtain ⟨p,hp,-,hsta,-,hw,-⟩ := hnew hp'
    obtain ⟨hx,hs⟩ := ha p hp
    rcases hw with hw | ⟨-,hno⟩
    · exact ⟨hw.trans hx,hsta.trans hs⟩
    · exact absurd hs hno
  · intro p' x hp' hx
    obtain ⟨p,hp,-,hsta,hra,hw,-⟩ := hnew hp'
    rcases hw with hw | ⟨hn,-⟩
    · rw [hw] at hx
      rcases h.waiting hp hx with ⟨hs,q,hq,hi⟩ | ⟨hru,status,he,hst⟩
      · obtain ⟨q',hq',hli⟩ := hr.listed hq
        exact .inl ⟨hsta.trans hs,q',hq',hli ▸ hi⟩
      · exact .inr ⟨hsta.trans hru,status,hm he,hra.trans hst⟩
    · rw [hn] at hx
      cases hx
  · intro child status p' hf he hn hp'
    obtain ⟨p,hp,-,-,-,-,hzo⟩ := hnew hp'
    by_cases hc : p0.processID = parent ∧ pid = child
    · obtain ⟨rfl,rfl⟩ := hc
      rw [hr.history,returns_snoc_returned (hfo hf)] at hn
      simp at hn
    rw [ho hc] at hn
    obtain ⟨zombie,hzom,hz⟩ := h.kept (hfo hf) (hexi he) hn hp
    rcases hzo zombie hzom with hi | ⟨hca,hzp⟩
    · exact ⟨zombie,hi,hz⟩
    · exact absurd ⟨hca,hzp.symm.trans hz⟩ hc
  intro child v hfi
  by_cases hc : p0.processID = parent ∧ pid = child
  · obtain ⟨rfl,rfl⟩ := hc
    by_cases hf : .forked p0.processID pid ∈ s.history
    · rw [hr.history,returns_snoc_returned hf] at hfi
      cases hre : returnsOf s.history p0.processID pid with
      | nil =>
        rw [hre] at hfi
        cases hfi
        exact hm (hva rfl hf hre)
      | cons first rest =>
        rw [hre] at hfi
        cases hfi
        refine hm (h.first ?_)
        rw [hre]
        rfl
    · rw [returns_of_not_forked fun he => hf (hfo he)] at hfi
      cases hfi
  · rw [ho hc] at hfi
    exact hm (h.first hfi)

section
variable (hkin : Kin s) {p : Process} (hp : s.process p.processID = some p) {pid : Nat}
include hkin hp
theorem Waits.told {zombie : ZombieState}
    (hzo : p.zombies.find? (fun zombie => zombie.pid == pid) = some zombie) :
    Waits parent ((s.update p.processID (reaped pid)).record
      (.returned p.processID pid zombie.returnStatus)) := by
  have hz : zombie.pid = pid := by simpa using find?_some hzo
  refine h.returned (returns_told hp pid _) (.inl rfl) (fun z hi => ?_) fun _ _ _ => ?_
  · by_cases hzp : z.pid = pid
    · exact .inr hzp
    · exact .inl ((mem_eraseP_of_neg (by simpa using hzp)).mpr hi)
  · rw [← hz]
    exact hkin.zombies hp zombie (mem_of_find?_eq_some hzo)

theorem Waits.refused (hzo : p.zombies.find? (fun zombie => zombie.pid == pid) = none)
    (hpi : s.process pid = none) : Waits parent (s.record (.returned p.processID pid (-1))) := by
  refine h.returned (returns_refused hp pid _) (.inl rfl) (fun _ => .inl) ?_
  rintro rfl hf hn
  -- a child that is gone has exited, and its record is still there
  rcases (hkin.forked hf).2.2.2 with ha | ⟨status,he⟩
  · exact absurd ha ((s.process_eq_none).mp hpi)
  obtain ⟨zombie,hi,hz⟩ := h.kept hf he hn hp
  have hno := find?_eq_none.mp hzo zombie hi
  exact absurd (beq_iff_eq.mpr hz) hno
end

theorem Waits.asleepIn (hp : s.process p.processID = some p) (hk : p.processID ≤ s.thePid)
    (haw : p.waitpidOn = none) (hpi : (s.process pid).isSome) :
    Waits parent (s.asleepIn p.processID pid) := by
  refine ⟨?_,?_,?_,h.first⟩
  · intro x q' hq' hi
    obtain ⟨q,hq,-,-,hl,-⟩ := asleep_cases hq'
    rw [hl] at hi
    rcases mem_append.mp hi with hi | hi
    · have hne : parent ≠ p.processID := by
        rintro rfl
        exact h.awake_not_listed hp haw hq hi
      obtain ⟨hle,ha⟩ := h.listed hq hi
      refine ⟨hle,fun r' hr' => ?_⟩
      obtain ⟨r,hr,-,-,-,-,hsa⟩ := asleep_cases hr'
      obtain ⟨hw,hsta,-⟩ := hsa hne
      exact ⟨hw.trans (ha r hr).1,hsta.trans (ha r hr).2⟩
    · split at hi
      · next hx =>
        obtain rfl := mem_singleton.mp hi
        refine ⟨hk,fun r' hr' => ?_⟩
        obtain ⟨-,-,-,-,-,hs,-⟩ := asleep_cases hr'
        exact hx ▸ hs rfl
      · cases hi
  · intro r' x hr' hx
    obtain ⟨r,hr,-,-,-,hs,hsa⟩ := asleep_cases hr'
    by_cases hpa : parent = p.processID
    · obtain ⟨hw,hsta⟩ := hs hpa
      cases hw.symm.trans hx
      obtain ⟨q,hq⟩ := isSome_iff_exists.mp hpi
      obtain ⟨q',hq',hl⟩ := asleep_listed p.processID pid hq
      refine .inl ⟨hsta,q',hq',?_⟩
      rw [hl,if_pos rfl,hpa]
      exact mem_append_right _ (mem_singleton_self _)
    · obtain ⟨hw,hsta,hra⟩ := hsa hpa
      rcases h.waiting hr (hw ▸ hx) with ⟨hsl,q,hq,hi⟩ | ⟨hru,status,he,hst⟩
      · obtain ⟨q',hq',hl⟩ := asleep_listed p.processID pid hq
        exact .inl ⟨hsta.trans hsl,q',hq',hl ▸ mem_append_left _ hi⟩
      · exact .inr ⟨hsta.trans hru,status,he,hra.trans hst⟩
  · intro child status r' hf he hn hr'
    obtain ⟨r,hr,-,hz,-⟩ := asleep_cases hr'
    rw [hz]
    exact h.kept hf he hn hr
end

theorem truncate_signExtend (status : BitVec 32) : (status.signExtend 64).truncate 32 = status := by
  ext i hi
  rw [BitVec.truncate_eq_setWidth,BitVec.getElem_setWidth,BitVec.getLsbD_signExtend]
  simp [hi]
  omega

theorem Waits.resume (h : Waits parent s) (hp : s.process p.processID = some p)
    (hst : p.state = .running ∨ p.waitpidOn = none) : Waits parent (s.resume p) := by
  rcases resume_cases hp with hk | ⟨pid,hw,hr⟩
  · exact h.change hk fun hn => by cases hn
  have hru : p.state = .running := by
    rcases hst with hru | hno
    · exact hru
    · rw [hw] at hno
      cases hno
  refine h.returned hr (.inr ⟨rfl,by simp [hru]⟩) (fun _ => .inl) ?_
  rintro rfl _ _
  rcases h.waiting hp hw with ⟨hs,-⟩ | ⟨-,status,he,hra⟩
  · rw [hru] at hs
    cases hs
  · rw [hra,truncate_signExtend]
    exact he

def spares (parent : Nat) (s : State) (label : Label) : Prop :=
  label = .change (some parent) → ∀ p, s.process parent = some p → p.waitpidOn = none

theorem allows_spares (parent : Nat) : Allows (spares parent) where
  silent := by
    intro s hl
    cases hl
  awake := by
    intro s pid ha hl
    cases hl
    exact ha
  unwaited := by
    intro s pid p _ _ hl
    cases hl
  other := by
    intro s hl
    cases hl

theorem Waits.action (h : Waits parent s) (hkin : Kin s) {label : Label}
    (hs : spares parent s label) (ha : Action s label s') : Waits parent s' := by
  cases ha with
  | change hk => exact h.change hk fun ht => hs (by rw [ht])
  | add p => exact h.addProcess hkin p
  | @fork p hp hn =>
    refine (h.addProcess hkin p.processID).record (by simp) (by simp) ?_
    intro child status he hexi
    cases he
    exact absurd (hkin.exited hexi).2 (by omega)
  | remove hp hn status => exact h.removeProcess hkin hp status
  | told hp hz => exact h.told hkin hp hz
  | refused hp hz hpi => exact h.refused hkin hp hz hpi
  | @sleep p hp haw pid hpi =>
    refine h.asleepIn hp (hkin.wellformed.known _ ?_) haw hpi
    rw [← process_isSome,hp]
    rfl
  | resume hp hst => exact h.resume hp hst

theorem Waits.actions (h : Waits parent s) (hkin : Kin s)
    (hac : Actions (spares parent) s s') : Waits parent s' ∧ Kin s' := by
  induction hac with
  | refl => exact ⟨h,hkin⟩
  | next hal ha _ ih => exact ih (h.action hkin hal ha) (hkin.action ha)

theorem waits_init (parent : Nat) : Waits parent initialized := by
  refine ⟨?_,?_,?_,?_⟩
  · intro pid q hq hi
    obtain ⟨hm,-⟩ := mem_of_process _ hq
    cases mem_singleton.mp hm
    cases hi
  · intro p pid hp hw
    obtain ⟨hm,-⟩ := mem_of_process _ hp
    cases mem_singleton.mp hm
    cases hw
  · intro _ _ _ hfo
    cases hfo
  · intro child value hf
    cases hf

/-- No wake-up other than the exit it waits for reaches the parent while it is in `waitpid`. -/
def Undisturbed (parent : Nat) (s : State) (call : Call) (_ : State) : Prop :=
  ∀ cause value, call = .wake cause value parent →
    ∀ p, s.process parent = some p → p.waitpidOn = none

theorem waits_of_run (h : Reachable (· = initialized) step (Undisturbed parent) s) :
    Waits parent s ∧ Kin s ∧ Awake s := by
  induction h with
  | start h =>
    cases h
    exact ⟨waits_init parent,kin_init,awake_init⟩
  | next _ hs hu ih =>
    obtain ⟨hw,hkin,haw⟩ := ih
    obtain ⟨ha,ha'⟩ := step_actions (allows_spares parent) hkin.wellformed haw
      (fun cause value pid hc hl => by
        cases hl
        exact hu cause value hc)
      (fun _ _ _ _ _ hl => by cases hl) hs
    obtain ⟨hw',hk'⟩ := hw.actions hkin ha
    exact ⟨hw',hk',ha'⟩

/-- The first `waitpid` of a parent on a child returns the status the child exits with. A parent
that is in the call when the child has exited runs and has the status as its return value, and a
parent that calls after the exit returns at once. -/
theorem waitpid_returns_status (h : Reachable (· = initialized) step (Undisturbed parent) s)
    (child : Nat) : (∀ value, (returnsOf s.history parent child).head? = some value →
      .exited child value ∈ s.history) ∧ ∀ status, .exited child status ∈ s.history →
      (∀ value, .exited child value ∈ s.history → value = status) ∧
      (∀ p, s.process parent = some p → p.waitpidOn = some child →
        p.state = .running ∧ p.rax = status.signExtend 64) ∧
      ∀ p, .forked parent child ∈ s.history → returnsOf s.history parent child = [] →
        s.caller = some p → p.processID = parent → ∃ s', s.step (.waitpid child) = some s' ∧
          returnsOf s'.history parent child = [status] := by
  obtain ⟨hw,hkin,-⟩ := waits_of_run h
  refine ⟨fun value => hw.first,fun status he => ⟨?_,?_,?_⟩⟩
  · intro value hv
    exact hkin.status hv he
  · intro p hp hpi
    rcases hw.waiting hp hpi with ⟨-,q,hq,-⟩ | ⟨hr,st,hst,hra⟩
    · refine absurd ?_ (hkin.exited he).1
      rw [← process_isSome,hq]
      rfl
    · rw [hkin.status he hst]
      exact ⟨hr,hra⟩
  rintro p hfor hn hc rfl
  obtain ⟨hp,-,-⟩ := caller_eq_some hc
  obtain ⟨zombie,hi,hpi⟩ := hw.kept hfor he hn hp
  have hso : (p.zombies.find? fun zombie => zombie.pid == child).isSome := by
    rw [find?_isSome]
    exact ⟨zombie,hi,beq_iff_eq.mpr hpi⟩
  obtain ⟨found,hfo⟩ := isSome_iff_exists.mp hso
  have hf : found.pid = child := by simpa using find?_some hfo
  have hs : found.returnStatus = status := by
    refine hkin.status ?_ he
    rw [← hf]
    exact hkin.zombies hp found (mem_of_find?_eq_some hfo)
  have ht : s.waitpid p child = some ((s.readCurrent.update p.processID (reaped child)).record
        (.returned p.processID child found.returnStatus)) := by
    unfold waitpid
    rw [hfo]
  have hste : s.step (.waitpid child) = s.waitpid p child := by
    rw [step,hc,bind_some,if_neg (hkin.forked hfor).1]
  refine ⟨_,hste.trans ht,?_⟩
  change returnsOf (s.history ++ [.returned p.processID child found.returnStatus]) _ _ = _
  rw [returns_snoc_returned hfor,hn,hs]
  rfl
end

/-- A parent sleeps in `waitpid` until its child exits with status 5. -/
theorem waitpid_returns_status_asleep :
    ∃ s : State, (returnsOf s.history 1 2).head? = some 5 ∧ .exited 2 5 ∈ s.history := by
  obtain ⟨s,hr,hf⟩ : ∃ s, Reachable (· = initialized) step (Undisturbed 1) s ∧
      (returnsOf s.history 1 2).head? = some 5 := by
    refine Reachable.exists_checked rfl (fun _ call => call matches
        .create _ | .timer _ | .fork _ | .waitpid _ | .exit _ _)
      (fun s call s' ht cause value hc => ?_)
      [.create true,.timer 0,.fork true,.waitpid 2,.exit 5 none,.timer 0] (by decide)
    rw [hc] at ht
    cases ht
  exact ⟨s,hf,(waitpid_returns_status hr 2).1 5 hf⟩
end State
end LensorOS.Scheduler
