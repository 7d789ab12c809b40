import Mathlib.Logic.Relation

/-!
# Runs of a partial step function

A machine takes labelled steps and may refuse one. A guard restricts the steps a run may
take.
-/
namespace LensorOS.Framework
variable {σ ι : Type*}
/-- The states reached from `init` by steps whose label, source and target meet the guard. -/
inductive Reachable (init : σ → Prop) (step : σ → ι → Option σ) (guard : σ → ι → σ → Prop) :
    σ → Prop
  | start {s : σ} (h : init s) : Reachable init step guard s
  | next {s s' : σ} {i : ι} (h : Reachable init step guard s) (hs : step s i = some s')
      (hg : guard s i s') : Reachable init step guard s'

def anyStep (_ : σ) (_ : ι) (_ : σ) : Prop := True

variable {init : σ → Prop} {step : σ → ι → Option σ} {guard : σ → ι → σ → Prop}
theorem Reachable.invariant {inv : σ → Prop} (hi : ∀ s, init s → inv s)
    (hk : ∀ s i s', inv s → step s i = some s' → guard s i s' → inv s')
    {s : σ} (h : Reachable init step guard s) : inv s := by
  induction h with
  | start h => exact hi _ h
  | next _ hs hg ih => exact hk _ _ _ ih hs hg

theorem Reachable.mono {guard' : σ → ι → σ → Prop} (hg : ∀ s i s', guard s i s' → guard' s i s')
    {s : σ} (h : Reachable init step guard s) : Reachable init step guard' s :=
  h.invariant (fun _ => .start) fun s i s' hr hs hi => .next hr hs (hg s i s' hi)

/-- Where the guard only allows steps that the machine takes, it is enough that one such step leads
to a state with the invariant. -/
theorem Reachable.invariant_of_taken {inv : σ → Prop} (hi : ∀ s, init s → inv s)
    (hk : ∀ s i s', inv s → guard s i s' → ∃ s'', step s i = some s'' ∧ inv s'')
    {s : σ} (h : Reachable init step guard s) : inv s := by
  refine h.invariant hi fun s i s' hs hst hg => ?_
  obtain ⟨s'',ht,hin⟩ := hk s i s' hs hg
  rw [hst] at ht
  cases ht
  exact hin

def run (step : σ → ι → Option σ) (s : σ) (labels : List ι) : Option σ := labels.foldlM step s

def checked (step : σ → ι → Option σ) (test : σ → ι → Bool) (s : σ) (i : ι) : Option σ :=
  if test s i then step s i else none

theorem Reachable.run {s s' : σ} {labels : List ι} {test : σ → ι → Bool}
    (h : Reachable init step guard s) (ht : ∀ s i s', test s i = true → guard s i s')
    (hru : Framework.run (checked step test) s labels = some s') :
    Reachable init step guard s' := by
  induction labels generalizing s with
  | nil =>
    obtain rfl : s = s' := by simpa [Framework.run] using hru
    exact h
  | cons i rest ih =>
    rw [Framework.run,List.foldlM_cons] at hru
    obtain ⟨s1,hs,hr⟩ := Option.bind_eq_some_iff.mp hru
    obtain ⟨hp,hs⟩ := Option.ite_none_right_eq_some.mp hs
    exact ih (.next h hs (ht s i s1 hp)) hr

variable {P : σ → Prop} [DecidablePred P]
theorem Reachable.exists_checked {s : σ} (h : init s)
    (test : σ → ι → Bool) (ht : ∀ s i s', test s i = true → guard s i s') (labels : List ι)
    (hr : (Framework.run (checked step test) s labels).any (fun s => P s) = true) :
    ∃ s', Reachable init step guard s' ∧ P s' := by
  obtain ⟨s',he,hf⟩ := (Option.any_eq_true _ _).mp hr
  exact ⟨s',(Reachable.start h).run ht he,of_decide_eq_true hf⟩

/-- The same where the first state is computed and has to pass a test of its own. -/
theorem Reachable.exists_from {α : Type*} {first : Option α} {ok : α → Bool} {start : α → σ}
    (h : ∀ a, first = some a → ok a = true → init (start a)) (test : σ → ι → Bool)
    (ht : ∀ s i s', test s i = true → guard s i s') (labels : List ι) (hru : (first.any fun a =>
      ok a && (Framework.run (checked step test) (start a) labels).any fun s => P s) = true) :
    ∃ s', Reachable init step guard s' ∧ P s' := by
  obtain ⟨s,hs,hr⟩ := (Option.any_eq_true _ _).mp hru
  obtain ⟨ho,hr⟩ := Bool.and_eq_true_iff.mp hr
  exact exists_checked (h s hs ho) test ht labels hr

theorem Reachable.exists_run {s : σ} (h : init s)
    (labels : List ι) (hr : (Framework.run step s labels).any (fun s => P s) = true) :
    ∃ s', Reachable init step anyStep s' ∧ P s' :=
  exists_checked h (fun _ _ => true) (fun _ _ _ _ => trivial) labels hr
end LensorOS.Framework
