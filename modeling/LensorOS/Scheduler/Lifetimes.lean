import LensorOS.Scheduler.Processes

/-!
# The current process and the queue

An exit deletes the current process, and the switch that follows starts from the pointer to it.
-/
namespace LensorOS.Scheduler
open Framework List Option
namespace State
/-- What the current process pointer may denote, and where a switch after an exit may go. -/
structure CurrentValid (s : State) : Prop where
  reads : ∀ r ∈ s.reads, r.inQueue = true ∧ r.deleted = false
  choices : ∀ c ∈ s.choices, some c.chosen = c.successor

/-- The bookkeeping behind it: identifiers are used once, deleted ones have left the queue,
and the current process is in the queue. -/
structure Lives (s : State) : Prop where
  unique : s.ids.Nodup
  known : ∀ pid ∈ s.ids, pid ≤ s.thePid
  gone : ∀ pid ∈ s.deleted, pid ∉ s.ids ∧ pid ≤ s.thePid
  current : s.currentProcess ∈ s.ids
  reads : ∀ r ∈ s.reads, r.inQueue = true ∧ r.deleted = false
  choices : s.choices = []

section
variable {s s' : State}
section
variable (h : Lives s)
include h
theorem Lives.readCurrent : Lives s.readCurrent := by
  refine ⟨h.unique,h.known,h.gone,h.current,?_,h.choices⟩
  intro r hr
  rcases mem_append.mp hr with hr | hr
  · exact h.reads r hr
  rw [mem_singleton.mp hr]
  refine ⟨s.process_isSome.mpr h.current,decide_eq_false fun hg => ?_⟩
  exact (h.gone _ hg).1 h.current

theorem Lives.of_same (hi : s'.ids = s.ids) (hp : s'.thePid = s.thePid)
    (hd : s'.deleted = s.deleted) (hcu : s'.currentProcess = s.currentProcess)
    (hr : s'.reads = s.reads) (hc : s'.choices = s.choices) : Lives s' := by
  refine ⟨?_,?_,?_,?_,?_,?_⟩
  · rw [hi]
    exact h.unique
  · rw [hi,hp]
    exact h.known
  · rw [hi,hp,hd]
    exact h.gone
  · rw [hi,hcu]
    exact h.current
  · rw [hr]
    exact h.reads
  · rw [hc]
    exact h.choices

theorem Lives.update (pid : Nat) (change : Process → Process)
    (hc : ∀ p, (change p).processID = p.processID) : Lives (s.update pid change) :=
  h.of_same (s.ids_update change hc pid) rfl rfl rfl rfl rfl

theorem Lives.record (event : Event) : Lives (s.record event) := h.of_same rfl rfl rfl rfl rfl rfl

theorem Lives.unblock (cause : WaitObject) (value : BitVec 64) (pid : Nat) : Lives (s.unblock cause value pid) := by
  obtain ⟨hi,hcu,hp,hd,hr,hc,-⟩ := s.unblock_fields cause value pid
  exact h.of_same hi hp hd hcu hr hc

theorem Lives.addProcess (parent : Nat) : Lives (s.addProcess parent) ∧ s.currentProcess ≠ s.thePid+1 := by
  obtain ⟨hu,hk⟩ := add_known parent h.unique h.known
  refine ⟨⟨hu,hk,?_,?_,h.reads,h.choices⟩,?_⟩
  · intro pid hg
    obtain ⟨ho,hl⟩ := h.gone pid hg
    refine ⟨?_,hl.trans (Nat.le_succ _)⟩
    rw [ids_add]
    intro hi
    rcases mem_append.mp hi with hi | hi
    · exact ho hi
    · rw [mem_singleton.mp hi] at hl
      exact absurd hl (by omega)
  · rw [ids_add]
    exact mem_append_left _ h.current
  · intro he
    have hl := h.known _ h.current
    omega

theorem Lives.removeProcess {pid : Nat} (hn : s.currentProcess ≠ pid)
    (status : BitVec 32) : Lives (s.removeProcess pid status) := by
  cases hp : s.process pid with
  | none =>
    unfold State.removeProcess
    rw [hp]
    exact h
  | some process =>
    obtain ⟨hi,hcu,ht,hd,hr,hc,-⟩ := s.remove_fields hp status
    have hk := h.known pid (s.process_isSome.mp (isSome_iff_exists.mpr ⟨process,hp⟩))
    refine ⟨hi ▸ h.unique.erase pid,?_,?_,?_,?_,?_⟩
    · intro q hq
      rw [hi] at hq
      rw [ht]
      exact h.known q (mem_of_mem_erase hq)
    · intro q hq
      rw [hi,ht]
      rw [hd] at hq
      rcases mem_cons.mp hq with rfl | hq
      · exact ⟨fun hin => (h.unique.mem_erase_iff.mp hin).1 rfl,hk⟩
      · exact ⟨fun hin => (h.gone q hq).1 (mem_of_mem_erase hin),(h.gone q hq).2⟩
    · rw [hi,hcu]
      exact h.unique.mem_erase_iff.mpr ⟨hn,h.current⟩
    · rw [hr]
      exact h.reads
    · rw [hc]
      exact h.choices

theorem Lives.resume {p : Process} (hp : p ∈ s.processQueue) : Lives (s.resume p) := by
  have hc : Lives { s with currentProcess := p.processID } :=
    ⟨h.unique,h.known,h.gone,s.mem_ids.mpr ⟨p,hp,rfl⟩,h.reads,h.choices⟩
  unfold State.resume
  split
  · exact hc.readCurrent
  · exact (hc.readCurrent.update _ (fun p => { p with waitpidOn := none }) fun _ => rfl).record _

theorem Lives.resumeNode {node : List Process} (hn : node <:+ s.processQueue)
    (hr : node.head?.map s.resume = some s') : Lives s' := by
  obtain ⟨p,hp,rfl⟩ := map_eq_some_iff.mp hr
  exact h.resume (hn.subset (mem_of_mem_head? hp))

theorem Lives.switchProcessImpl (hr : s.switchProcessImpl = some s') : Lives s' := by
  obtain ⟨node,hn,hr⟩ := bind_eq_some_iff.mp hr
  exact h.readCurrent.resumeNode (switch_suffix isRunning (dropWhile_suffix _) hn) hr

theorem Lives.create (loaded : Bool) : Lives (s.create loaded) := by
  obtain ⟨ha,hn⟩ := h.readCurrent.addProcess (2^64-1)
  unfold State.create
  split
  · exact ha.update _ (fun p => { p with state := .running }) fun _ => rfl
  · exact ha.removeProcess hn (-1)

theorem Lives.fork (p : Process) (cloned : Bool) : Lives (s.fork p cloned) := by
  obtain ⟨ha,hn⟩ := h.readCurrent.addProcess p.processID
  unfold State.fork
  split
  · exact (ha.update _ (fun p => { p with state := .running }) fun _ => rfl).record _
  · exact ha.removeProcess hn (-1)

theorem Lives.waitpid (p : Process) (pid : Nat) (hr : s.waitpid p pid = some s') : Lives s' := by
  unfold State.waitpid at hr
  dsimp only at hr
  split at hr
  · cases hr
    exact (h.readCurrent.update _ (reaped pid) fun _ => rfl).record _
  split at hr
  · cases hr
    exact h.readCurrent.record _
  refine Lives.switchProcessImpl ?_ hr
  refine Lives.update ?_ _ _ fun _ => rfl
  exact h.readCurrent.update _ (fun q =>
    { q with waitingList := q.waitingList ++ [p.processID] }) fun _ => rfl

theorem Lives.step (c : Call) (hs : s.step c = some s') (hc : ∀ status next, c ≠ .exit status next) : Lives s' := by
  cases c with
  | create loaded =>
    obtain ⟨-,hr⟩ := ite_none_right_eq_some.mp hs
    exact some.inj hr ▸ h.create loaded
  | fork cloned =>
    obtain ⟨p,-,hr⟩ := bind_eq_some_iff.mp hs
    obtain ⟨-,hr⟩ := ite_none_left_eq_some.mp hr
    exact some.inj hr ▸ h.fork p cloned
  | exit status next => exact absurd rfl (hc status next)
  | waitpid pid =>
    obtain ⟨p,-,hr⟩ := bind_eq_some_iff.mp hs
    obtain ⟨-,hr⟩ := ite_none_left_eq_some.mp hr
    exact h.waitpid p pid hr
  | timer rax =>
    exact (h.readCurrent.update _ (fun p => { p with rax := rax }) fun _ => rfl).switchProcessImpl
      hs
  | block object rax =>
    obtain ⟨p,-,hr⟩ := bind_eq_some_iff.mp hs
    obtain ⟨-,hr⟩ := ite_none_left_eq_some.mp hr
    refine Lives.switchProcessImpl ?_ hr
    exact h.readCurrent.update _ _ fun _ => rfl
  | wake cause value pid => exact some.inj hs ▸ h.readCurrent.unblock cause value pid
end

theorem lives_init : Lives initialized := by
  refine ⟨by decide,by decide,?_,by decide,?_,rfl⟩
  · intro pid hp
    cases hp
  · intro r hr
    cases hr

def NoExit (_ : State) (c : Call) (_ : State) : Prop := ∀ status next, c ≠ .exit status next

/-- While no process exits, the current process pointer denotes a process of the queue
whenever it is read. -/
theorem current_valid_run {s : State} (h : Reachable (· = initialized) step NoExit s) : CurrentValid s := by
  have hl : Lives s := h.invariant (fun _ hs => hs ▸ lives_init)
    fun s c s' hs hst hg => hs.step c hst hg
  refine ⟨hl.reads,fun c hc => ?_⟩
  rw [hl.choices] at hc
  cases hc

/-- A process forks and waits for its child, which runs. -/
theorem current_valid_run_forked : ∃ s, Reachable (· = initialized) step NoExit s ∧
    s.currentProcess = 2 ∧ s.ids = [0,1,2] ∧ CurrentValid s := by
  obtain ⟨s,hr,hc,hi⟩ : ∃ s, Reachable (· = initialized) step NoExit s ∧ s.currentProcess = 2 ∧ s.ids = [0,1,2] := by
    refine Reachable.exists_checked rfl (fun _ c => match c with | .exit _ _ => false | _ => true) ?_
      [.create true,.timer 0,.fork true,.waitpid 2] (by decide +kernel)
    rintro s c s' ht status next rfl
    cases ht
  exact ⟨s,hr,hc,hi,current_valid_run hr⟩

/-- A process is created, runs, and exits: the switch that follows starts from a deleted
process. -/
theorem exit_not_valid : ∃ s, Reachable (· = initialized) step anyStep s ∧ ¬ CurrentValid s := by
  obtain ⟨s,hs,hb⟩ : ∃ s, Reachable (· = initialized) step anyStep s ∧ (s.reads.any fun r => r.deleted) = true :=
    Reachable.exists_run rfl [.create true,.timer 0,.exit 0 none] (by decide)
  refine ⟨s,hs,fun hv => ?_⟩
  obtain ⟨r,hr,hd⟩ := any_eq_true.mp hb
  rw [(hv.reads r hr).2] at hd
  cases hd
end
end State
end LensorOS.Scheduler
