import LensorOS.Framework.Run
import Mathlib.Data.List.Nodup
import Mathlib.Data.List.Flatten
import Mathlib.Data.List.TakeWhile

/-!
# Exit handlers

Callbacks are kept in lists, one for each shared object that registers some, with the newest first.
The null handle is the number zero.
-/
namespace LensorOS.Libc
open Framework List
/-- A callback, with its place in the order of registration. -/
structure DsoAtexitCallback where
  cb : Nat
  arg : Nat
  order : Nat
deriving DecidableEq

structure DsoAtexitList where
  dso : Nat
  processed : Bool
  callbacks : List DsoAtexitCallback
deriving DecidableEq

/-- The lists, with all callbacks in the order they were registered, and in the order they were
run. -/
structure AtexitState where
  lists : List DsoAtexitList
  registered : List DsoAtexitCallback
  ran : List DsoAtexitCallback
deriving DecidableEq

inductive AtexitCall
  | cxaAtexit (func arg dso : Nat) (processed : Bool)
  | cxaFinalize (dso : Nat)
deriving DecidableEq

namespace AtexitState
variable (s : AtexitState)
def initial : AtexitState := ⟨[],[],[]⟩
def findDsoAtexitList (dso : Nat) : Option DsoAtexitList := s.lists.find? fun list => list.dso = dso

def updateFirst (dso : Nat) (f : DsoAtexitList → DsoAtexitList) :
    List DsoAtexitList → List DsoAtexitList
  | [] => []
  | list :: rest => if list.dso = dso then f list :: rest else list :: updateFirst dso f rest

/-- Register a callback. A new list is not given a value for `processed`: it is what the memory
held before. -/
def cxaAtexit (func arg dso : Nat) (processed : Bool) : AtexitState :=
  let lists := match s.findDsoAtexitList dso with
    | none => ⟨dso,processed,[]⟩ :: s.lists
    | some _ => s.lists
  let callback : DsoAtexitCallback := ⟨func,arg,s.registered.length⟩
  { s with
    lists := updateFirst dso (fun list => { list with callbacks := callback :: list.callbacks }) lists
    registered := s.registered ++ [callback] }

/-- The loop over all lists, which ends at the first one that has been processed: the lists after it
and the callbacks that it runs. -/
def finalizeLists : List DsoAtexitList → List DsoAtexitList × List DsoAtexitCallback
  | [] => ([],[])
  | list :: rest =>
    if list.processed then (list :: rest, [])
    else
      let (rest,calls) := finalizeLists rest
      ({ list with processed := true } :: rest, list.callbacks ++ calls)

def cxaFinalize (dso : Nat) : AtexitState := if dso = 0 then
    let (lists,calls) := finalizeLists s.lists
    { s with lists := lists, ran := s.ran ++ calls }
  else
    match s.findDsoAtexitList dso with
    | none => s
    | some list =>
      if list.processed then s
      else
        { s with
          lists := updateFirst dso (fun list => { list with processed := true }) s.lists
          ran := s.ran ++ list.callbacks }

def step : AtexitCall → Option AtexitState
  | .cxaAtexit func arg dso processed => some (s.cxaAtexit func arg dso processed)
  | .cxaFinalize dso => some (s.cxaFinalize dso)

variable {s} {c : DsoAtexitCallback}
section
variable {lists : List DsoAtexitList} {dso : Nat} {f : DsoAtexitList → DsoAtexitList} {list : DsoAtexitList}
theorem updateFirst_split (h : lists.find? (fun list => list.dso = dso) = some list) :
    ∃ before after, lists = before ++ list :: after ∧
      updateFirst dso f lists = before ++ f list :: after := by
  induction lists with
  | nil => cases h
  | cons first rest ih =>
    by_cases hf : first.dso = dso
    · rw [find?_cons_of_pos (by simpa using hf)] at h
      cases h
      exact ⟨[],rest,rfl,if_pos hf⟩
    rw [find?_cons_of_neg (by simpa using hf)] at h
    obtain ⟨before,after,hl,hu⟩ := ih h
    refine ⟨first :: before,after,by rw [hl]; rfl,?_⟩
    rw [updateFirst,if_neg hf,hu]
    rfl

theorem lists_calls (lists : List DsoAtexitList) : (finalizeLists lists).2 =
      (lists.takeWhile fun list => !list.processed).flatMap DsoAtexitList.callbacks := by
  induction lists with
  | nil => rfl
  | cons list rest ih =>
    cases hl : list.processed with
    | true => simp [finalizeLists,hl]
    | false =>
      rw [takeWhile_cons_of_pos (by simp [hl]),flatMap_cons,← ih]
      simp [finalizeLists,hl]
end

/-- Every callback is in one list, with the newest first, and those of a list that has not been
processed have not run. -/
structure Listed (s : AtexitState) : Prop where
  orders : s.registered.Pairwise fun c d => c.order < d.order
  bound : ∀ c ∈ s.registered, c.order < s.registered.length
  perm : (s.lists.flatMap DsoAtexitList.callbacks).Perm s.registered
  sorted : ∀ list ∈ s.lists, list.callbacks.Pairwise fun c d => d.order < c.order
  waiting : ∀ list ∈ s.lists, list.processed = false → ∀ c ∈ list.callbacks, c ∉ s.ran
  once : s.ran.Nodup
  ran : ∀ c ∈ s.ran, c ∈ s.registered

section
variable {before after : List DsoAtexitList} {list : DsoAtexitList}
theorem forall_mem_replace {p : DsoAtexitList → Prop} {list' : DsoAtexitList}
    (h : ∀ other ∈ before ++ list :: after, p other) (hl' : p list') :
    ∀ other ∈ before ++ list' :: after, p other := by
  rw [forall_mem_append,forall_mem_cons] at h ⊢
  exact ⟨h.1,hl',h.2.2⟩

theorem Listed.nodup (h : Listed s) : (s.lists.flatMap DsoAtexitList.callbacks).Nodup := by
  refine h.perm.nodup_iff.mpr (h.orders.imp fun hl heq => ?_)
  rw [heq] at hl
  exact lt_irrefl _ hl

theorem Listed.mem_registered (h : Listed s) (hl : list ∈ s.lists) (hc : c ∈ list.callbacks) : c ∈ s.registered :=
  h.perm.mem_iff.mp (mem_flatMap.mpr ⟨list,hl,hc⟩)

theorem Listed.addList (h : Listed s) (dso : Nat) (processed : Bool) :
    Listed { s with lists := ⟨dso,processed,[]⟩ :: s.lists } where
  orders := h.orders
  bound := h.bound
  perm := h.perm
  sorted := forall_mem_cons.mpr ⟨List.Pairwise.nil,h.sorted⟩
  waiting := forall_mem_cons.mpr ⟨fun _ _ hc => absurd hc not_mem_nil,h.waiting⟩
  once := h.once
  ran := h.ran

theorem Listed.push (h : Listed s) (hl : s.lists = before ++ list :: after) (func arg : Nat) :
    Listed { s with
      lists := before ++
        { list with callbacks := ⟨func,arg,s.registered.length⟩ :: list.callbacks } :: after
      registered := s.registered ++ [⟨func,arg,s.registered.length⟩] } := by
  have hm : list ∈ s.lists := by rw [hl]; simp
  have hn : ⟨func,arg,s.registered.length⟩ ∉ s.ran := by
    intro hr
    exact lt_irrefl _ (h.bound _ (h.ran _ hr))
  refine
    { orders := ?_
      bound := ?_
      perm := ?_
      sorted := forall_mem_replace (hl ▸ h.sorted) ?_
      waiting := forall_mem_replace (hl ▸ h.waiting) ?_
      once := h.once
      ran := fun c hc => mem_append_left _ (h.ran c hc) }
  · rw [pairwise_append]
    refine ⟨h.orders,pairwise_singleton ..,fun c hc d hd => ?_⟩
    rw [mem_singleton.mp hd]
    exact h.bound c hc
  · intro c hc
    rw [length_append,length_singleton]
    rcases mem_append.mp hc with hc | hc
    · exact Nat.lt_succ_of_lt (h.bound c hc)
    · rw [mem_singleton.mp hc]
      exact Nat.lt_succ_self _
  · have hpe := h.perm
    rw [hl,flatMap_append,flatMap_cons] at hpe
    rw [flatMap_append,flatMap_cons]
    exact (perm_middle.trans (hpe.cons _)).trans (perm_append_singleton _ _).symm
  · refine pairwise_cons.mpr ⟨fun c hc => ?_,h.sorted list hm⟩
    exact h.bound c (h.mem_registered hm hc)
  · intro hp c hc
    rcases mem_cons.mp hc with rfl | hc
    · exact hn
    · exact h.waiting list hm hp c hc

theorem Listed.process (h : Listed s) (hl : s.lists = before ++ list :: after)
    (hli : list.processed = false) : Listed { s with
      lists := before ++ { list with processed := true } :: after
      ran := s.ran ++ list.callbacks } := by
  have hm : list ∈ s.lists := by rw [hl]; simp
  have hn := h.nodup
  rw [hl,flatMap_append,flatMap_cons] at hn
  obtain ⟨-,hr,hb⟩ := nodup_append.mp hn
  obtain ⟨hca,-,haf⟩ := nodup_append.mp hr
  -- no callback of another list is among those that are run
  have ha : ∀ other ∈ before ++ after, ∀ c ∈ other.callbacks, c ∉ list.callbacks := by
    intro other ho c hc hli
    rcases mem_append.mp ho with ho | ho
    · exact hb c (mem_flatMap.mpr ⟨other,ho,hc⟩) c (mem_append_left _ hli) rfl
    · exact haf c hli c (mem_flatMap.mpr ⟨other,ho,hc⟩) rfl
  refine
    { orders := h.orders
      bound := h.bound
      perm := ?_
      sorted := forall_mem_replace (hl ▸ h.sorted) (h.sorted list hm)
      waiting := ?_
      once := nodup_append.mpr ⟨h.once,hca,?_⟩
      ran := forall_mem_append.mpr ⟨h.ran,fun c hc => h.mem_registered hm hc⟩ }
  · have hpe := h.perm
    rw [hl,flatMap_append,flatMap_cons] at hpe
    rw [flatMap_append,flatMap_cons]
    exact hpe
  · have hw := h.waiting
    rw [hl,forall_mem_append,forall_mem_cons] at hw
    rw [forall_mem_append] at ha
    refine forall_mem_append.mpr ⟨fun other ho hp c hc => ?_,
      forall_mem_cons.mpr ⟨fun hp => Bool.noConfusion hp,
        fun other ho hp c hc => ?_⟩⟩
    · exact not_mem_append (hw.1 other ho hp c hc) (ha.1 other ho c hc)
    · exact not_mem_append (hw.2.2 other ho hp c hc) (ha.2 other ho c hc)
  · rintro c hra _ hc rfl
    exact h.waiting list hm hli c hc hra

theorem Listed.finalizeLists {rest : List DsoAtexitList} (h : Listed s)
    (hl : s.lists = before ++ rest) : Listed { s with
      lists := before ++ (finalizeLists rest).1
      ran := s.ran ++ (finalizeLists rest).2 } := by
  induction rest generalizing s before with
  | nil =>
    have hs : before ++ (AtexitState.finalizeLists []).1 = s.lists := hl.symm
    rw [hs,AtexitState.finalizeLists,append_nil]
    exact h
  | cons list rest ih =>
    rw [AtexitState.finalizeLists]
    by_cases hli : list.processed = true
    · rw [if_pos hli,append_nil,← hl]
      exact h
    rw [if_neg hli]
    have hp := h.process hl (Bool.eq_false_iff.mpr hli)
    have hr := ih hp (append_assoc before [{ list with processed := true }] rest).symm
    rw [append_assoc,append_assoc] at hr
    exact hr

theorem Listed.cxaAtexit (h : Listed s) (func arg dso : Nat) (processed : Bool) :
    Listed (s.cxaAtexit func arg dso processed) := by
  unfold AtexitState.cxaAtexit
  cases hf : s.findDsoAtexitList dso with
  | none =>
    have hl : (⟨dso,processed,[]⟩ : DsoAtexitList) :: s.lists = [] ++ ⟨dso,processed,[]⟩ :: s.lists := rfl
    simpa [updateFirst] using (h.addList dso processed).push hl func arg
  | some list =>
    obtain ⟨before,after,hl,hu⟩ := updateFirst_split hf
    dsimp only
    rw [hu]
    exact h.push hl func arg

theorem Listed.cxaFinalize (h : Listed s) (dso : Nat) : Listed (s.cxaFinalize dso) := by
  unfold AtexitState.cxaFinalize
  by_cases hn : dso = 0
  · rw [if_pos hn]
    exact h.finalizeLists (nil_append _).symm
  rw [if_neg hn]
  cases hf : s.findDsoAtexitList dso with
  | none => exact h
  | some list =>
    dsimp only
    by_cases hli : list.processed = true
    · rw [if_pos hli]
      exact h
    rw [if_neg hli]
    obtain ⟨before,after,hl,hu⟩ := updateFirst_split hf
    rw [hu]
    exact h.process hl (Bool.eq_false_iff.mpr hli)
end

def Started (s : AtexitState) : Prop := s = initial

theorem listed_of_run (h : Reachable Started step anyStep s) : Listed s := by
  refine h.invariant ?_ ?_
  · rintro s rfl
    exact ⟨.nil,by simp [initial],.refl _,by simp [initial],by simp [initial],nodup_nil, by simp [initial]⟩
  intro s call s' hs hst _
  cases call with
  | cxaAtexit func arg dso processed =>
    rw [← Option.some.inj hst]
    exact hs.cxaAtexit func arg dso processed
  | cxaFinalize dso =>
    rw [← Option.some.inj hst]
    exact hs.cxaFinalize dso

def pending (s : AtexitState) : List DsoAtexitCallback := (s.registered.filter fun c => c ∉ s.ran).reverse

def front (s : AtexitState) : List DsoAtexitList := s.lists.takeWhile fun list => !list.processed

def back (s : AtexitState) : List DsoAtexitList := s.lists.dropWhile fun list => !list.processed

theorem front_append_back (s : AtexitState) : s.front ++ s.back = s.lists := takeWhile_append_dropWhile

theorem processed_of_mem_front {list : DsoAtexitList} (h : list ∈ s.front) : list.processed = false := by
  simpa using mem_takeWhile_imp h

/-- No callback is left in a list that the loop does not come to, and the callbacks of the lists that
it comes to are newer than those of the lists behind them. -/
structure InOrder (s : AtexitState) : Prop where
  reached : ∀ list ∈ s.back, ∀ c ∈ list.callbacks, c ∈ s.ran
  newer : s.front.Pairwise fun list behind =>
    ∀ c ∈ list.callbacks, ∀ d ∈ behind.callbacks, d.order < c.order

theorem ran_finalize_null (s : AtexitState) :
    (s.cxaFinalize 0).ran = s.ran ++ s.front.flatMap DsoAtexitList.callbacks := by
  rw [cxaFinalize,if_pos rfl,front,← lists_calls]

theorem mem_pending : c ∈ s.pending ↔ c ∈ s.registered ∧ c ∉ s.ran := by
  rw [pending,mem_reverse,mem_filter,decide_eq_true_iff]

theorem Listed.pending_sorted (h : Listed s) : s.pending.Pairwise fun c d => d.order < c.order := by
  rw [pending,pairwise_reverse]
  exact h.orders.filter _

theorem nodup_of_sorted {calls : List DsoAtexitCallback}
    (h : calls.Pairwise fun c d => d.order < c.order) : calls.Nodup := by
  refine h.imp fun hl heq => ?_
  rw [heq] at hl
  exact lt_irrefl _ hl

theorem Listed.mem_pending_iff (h : Listed s) :
    c ∈ s.pending ↔ c ∈ s.front.flatMap DsoAtexitList.callbacks ∨
      c ∈ s.back.flatMap DsoAtexitList.callbacks ∧ c ∉ s.ran := by
  have hs := h.perm.mem_iff (a := c)
  rw [← s.front_append_back,flatMap_append,mem_append] at hs
  rw [mem_pending,← hs]
  have hw : c ∈ s.front.flatMap DsoAtexitList.callbacks → c ∉ s.ran := by
    intro hc
    obtain ⟨list,hl,hc⟩ := mem_flatMap.mp hc
    refine h.waiting list ?_ (processed_of_mem_front hl) c hc
    rw [← s.front_append_back]
    exact mem_append_left _ hl
  tauto

/-- At exit every callback that has not run runs once, the newest first, exactly if the lists are in
order. -/
theorem exit_handlers_iff (h : Reachable Started step anyStep s) :
    (s.cxaFinalize 0).ran.Nodup ∧ ((s.cxaFinalize 0).ran = s.ran ++ s.pending ↔ s.InOrder) := by
  have hs := listed_of_run h
  refine ⟨(hs.cxaFinalize 0).once,?_⟩
  rw [ran_finalize_null,append_right_inj]
  constructor
  · intro heq
    have hn := hs.nodup
    rw [← s.front_append_back,flatMap_append] at hn
    obtain ⟨-,-,ha⟩ := nodup_append.mp hn
    refine ⟨fun list hl c hc => ?_,?_⟩
    · by_contra hr
      have hb := mem_flatMap.mpr ⟨list,hl,hc⟩
      have hf := heq ▸ hs.mem_pending_iff.mpr (.inr ⟨hb,hr⟩)
      exact ha c hf c hb rfl
    · have hso := hs.pending_sorted
      rw [← heq,pairwise_flatMap] at hso
      exact hso.2
  intro ho
  have hso : (s.front.flatMap DsoAtexitList.callbacks).Pairwise fun c d => d.order < c.order := by
    refine pairwise_flatMap.mpr ⟨fun list hl => hs.sorted list ?_,ho.newer⟩
    rw [← s.front_append_back]
    exact mem_append_left _ hl
  have hp : (s.front.flatMap DsoAtexitList.callbacks).Perm s.pending := by
    refine (perm_ext_iff_of_nodup (nodup_of_sorted hso) (nodup_of_sorted hs.pending_sorted)).mpr fun c => ?_
    rw [hs.mem_pending_iff]
    refine ⟨.inl,fun hc => hc.elim id fun ⟨hb,hr⟩ => ?_⟩
    obtain ⟨list,hl,hc⟩ := mem_flatMap.mp hb
    exact absurd (ho.reached list hl c hc) hr
  exact hp.eq_of_pairwise (fun c d _ _ hcd hd => absurd hcd (lt_asymm hd)) hso
    hs.pending_sorted

theorem exit_handlers_unloaded : ∃ s, Reachable Started step anyStep s ∧ s.InOrder ∧
      s.ran = [⟨20,0,1⟩,⟨10,0,0⟩] ∧ s.pending = [⟨40,0,3⟩,⟨30,0,2⟩] ∧
      (s.cxaFinalize 0).ran = s.ran ++ s.pending := by
  -- the older one of two shared objects is unloaded
  obtain ⟨s,hre,⟨hr,hn⟩,hra,hp⟩ : ∃ s, Reachable Started step anyStep s ∧
      ((∀ list ∈ s.back, ∀ c ∈ list.callbacks, c ∈ s.ran) ∧ s.front.Pairwise fun list behind =>
          ∀ c ∈ list.callbacks, ∀ d ∈ behind.callbacks, d.order < c.order) ∧
      s.ran = [⟨20,0,1⟩,⟨10,0,0⟩] ∧ s.pending = [⟨40,0,3⟩,⟨30,0,2⟩] :=
    Reachable.exists_run (s := initial) rfl
      [.cxaAtexit 10 0 1 false,.cxaAtexit 20 0 1 false,.cxaAtexit 30 0 2 false,.cxaFinalize 1,
        .cxaAtexit 40 0 2 true] (by decide +kernel)
  have ho : s.InOrder := ⟨hr,hn⟩
  exact ⟨s,hre,ho,hra,hp,(exit_handlers_iff hre).2.mpr ho⟩

/-- Callbacks of two shared objects in turn, the newer one of two shared objects unloaded, and a new
list whose memory was not zero. -/
theorem exit_handlers_lost :
    (∃ s, Reachable Started step anyStep s ∧ s.pending = [⟨30,0,2⟩,⟨20,0,1⟩,⟨10,0,0⟩] ∧
      (s.cxaFinalize 0).ran = [⟨20,0,1⟩,⟨30,0,2⟩,⟨10,0,0⟩]) ∧
    (∃ s, Reachable Started step anyStep s ∧ s.pending = [⟨10,0,0⟩] ∧
      (s.cxaFinalize 0).ran = s.ran) ∧
    ∃ s, Reachable Started step anyStep s ∧ s.pending = [⟨10,0,0⟩] ∧
      (s.cxaFinalize 0).ran = [] := by
  have hs : Started initial := rfl
  refine ⟨?_,?_,?_⟩
  · exact Reachable.exists_run hs
      [.cxaAtexit 10 0 1 false,.cxaAtexit 20 0 2 false,.cxaAtexit 30 0 1 false]
      (by decide +kernel)
  · exact Reachable.exists_run hs
      [.cxaAtexit 10 0 1 false,.cxaAtexit 20 0 2 false,.cxaFinalize 2] (by decide +kernel)
  · exact Reachable.exists_run hs [.cxaAtexit 10 0 1 true] (by decide +kernel)
end AtexitState
end LensorOS.Libc
