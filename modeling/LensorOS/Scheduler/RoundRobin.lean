import Mathlib.Data.List.Rotate
import Mathlib.Data.List.Nodup

/-!
# Choosing the next process

The process queue is a singly linked list. A pointer to one of its nodes is the rest of the queue
from that node on.
-/
namespace LensorOS.Scheduler
open List Option
variable {α : Type} (running : α → Bool)
inductive IncludeGivenProcess
  | yes
  | no
deriving DecidableEq

def findNextViableProcessAfter (startProcess : List α) (included : IncludeGivenProcess) : List α :=
  let nextProcess := if included = .no then startProcess.tail else startProcess
  nextProcess.dropWhile fun p => !running p

/-- Search behind the given node, then from the head of the queue; `none` is the hang of a
queue without viable processes. -/
def nextViableProcess (queue startProcess : List α) (included : IncludeGivenProcess) :
    Option (List α) := match findNextViableProcessAfter running startProcess included with
  | p :: rest => some (p :: rest)
  | [] =>
    match findNextViableProcessAfter running queue .yes with
    | p :: rest => some (p :: rest)
    | [] => none

def switchProcessImpl (queue currentProcess : List α) : Option (List α) :=
  if currentProcess.tail.isEmpty then
    if currentProcess.length = queue.length then some currentProcess
    else nextViableProcess running queue queue .yes
  else nextViableProcess running queue currentProcess .no

def nodes : List α → List (List α)
  | [] => []
  | p :: rest => (p :: rest) :: nodes rest

def viable : List α → Bool
  | [] => false
  | p :: _ => running p

def runningNodes (queue : List α) : List (List α) := (nodes queue).filter (viable running)

def rank (queue node : List α) : Nat :=
  ((runningNodes running queue).filter fun n => decide (node.length ≤ n.length)).length

def afterSwitches (queue currentProcess : List α) : Nat → Option (List α)
  | 0 => some currentProcess
  | n+1 => (afterSwitches queue currentProcess n).bind (switchProcessImpl running queue)

section
variable {queue node l : List α}
theorem length_lt_of_mem_nodes (h : node ∈ nodes l) : node.length ≤ l.length := by
  induction l with
  | nil => simp [nodes] at h
  | cons p rest ih =>
    rcases mem_cons.mp h with rfl | h
    · exact le_rfl
    · exact (ih h).trans (Nat.le_succ _)

theorem nodes_split (h : node ∈ nodes queue) :
    ∃ before, nodes queue = before ++ node :: nodes node.tail ∧
      (∀ n ∈ before, node.length < n.length) := by
  induction queue with
  | nil => simp [nodes] at h
  | cons p rest ih =>
    rcases mem_cons.mp h with rfl | h
    · exact ⟨[],rfl,by simp⟩
    obtain ⟨before,hs,hl⟩ := ih h
    refine ⟨(p :: rest) :: before,by rw [nodes,hs,cons_append],?_⟩
    intro n hn
    rcases mem_cons.mp hn with rfl | hn
    · exact Nat.lt_succ_of_le (length_lt_of_mem_nodes h)
    · exact hl n hn

theorem tail_length_lt (h : node ∈ nodes queue) : node.tail.length < node.length := by
  cases node with
  | nil =>
    induction queue with
    | nil => simp [nodes] at h
    | cons p rest ih =>
      rcases mem_cons.mp h with h | h
      · cases h
      · exact ih h
  | cons p rest => exact Nat.lt_succ_self _

theorem dropWhile_eq_find (l : List α) :
    l.dropWhile (fun p => !running p) = ((nodes l).find? (viable running)).getD [] := by
  induction l with
  | nil => rfl
  | cons p rest ih =>
    rw [dropWhile_cons,nodes,find?_cons]
    cases hp : running p with
    | true => simp [viable,hp]
    | false => simpa [viable,hp] using ih

theorem find_ne_nil (h : (nodes l).find? (viable running) = some node) : node ≠ [] := by
  rintro rfl
  have hv := find?_some h
  simp [viable] at hv

theorem nextViable_eq (queue startProcess : List α) (included : IncludeGivenProcess) :
    nextViableProcess running queue startProcess included =
      ((nodes (if included = .no then startProcess.tail else startProcess)).find?
        (viable running)).or ((nodes queue).find? (viable running)) := by
  unfold nextViableProcess findNextViableProcessAfter
  simp only [dropWhile_eq_find,reduceCtorEq,if_false]
  cases hf : (nodes (if included = .no then startProcess.tail else startProcess)).find?
      (viable running) with
  | some n =>
    obtain ⟨p,rest,rfl⟩ := exists_cons_of_ne_nil (find_ne_nil running hf)
    rfl
  | none =>
    cases hs : (nodes queue).find? (viable running) with
    | none => rfl
    | some n =>
      obtain ⟨p,rest,rfl⟩ := exists_cons_of_ne_nil (find_ne_nil running hs)
      rfl
end

section
variable {queue node startProcess : List α} {included : IncludeGivenProcess}
theorem findNext_suffix :
    findNextViableProcessAfter running startProcess included <:+ startProcess := by
  unfold findNextViableProcessAfter
  split
  · exact (dropWhile_suffix _).trans (tail_suffix _)
  · exact dropWhile_suffix _

theorem nextViable_suffix (hs : startProcess <:+ queue)
    (h : nextViableProcess running queue startProcess included = some node) : node <:+ queue := by
  unfold nextViableProcess at h
  split at h
  · next p rest hf =>
    cases h
    exact hf ▸ (findNext_suffix running).trans hs
  split at h
  · next p rest hf =>
    cases h
    exact hf ▸ findNext_suffix running
  · cases h

theorem switch_suffix (hc : startProcess <:+ queue)
    (h : switchProcessImpl running queue startProcess = some node) : node <:+ queue := by
  unfold switchProcessImpl at h
  split at h
  · split at h
    · cases h
      exact hc
    · exact nextViable_suffix running suffix_rfl h
  · exact nextViable_suffix running hc h

theorem findNext_viable {p : α} {rest : List α}
    (h : findNextViableProcessAfter running startProcess included = p :: rest) :
    running p = true := by
  unfold findNextViableProcessAfter at h
  have hh := head?_dropWhile_not (fun p => !running p)
    (if included = .no then startProcess.tail else startProcess)
  rw [h] at hh
  simpa using hh

theorem nextViable_viable
    (h : nextViableProcess running queue startProcess included = some node) :
    ∃ p rest, node = p :: rest ∧ running p = true := by
  unfold nextViableProcess at h
  split at h
  · next p rest hf =>
    exact ⟨p,rest,(some.inj h).symm,findNext_viable running hf⟩
  split at h
  · next p rest hf =>
    exact ⟨p,rest,(some.inj h).symm,findNext_viable running hf⟩
  · cases h

theorem switch_viable (h : switchProcessImpl running queue startProcess = some node) :
    (∃ p rest, node = p :: rest ∧ running p = true) ∨ node = startProcess ∧ queue.length ≤ 1 := by
  unfold switchProcessImpl at h
  split at h
  · next hl =>
    split at h
    · next hs =>
      refine .inr ⟨(some.inj h).symm,?_⟩
      have ht := length_eq_zero_iff.mpr (isEmpty_iff.mp hl)
      rw [length_tail] at ht
      omega
    · exact .inl (nextViable_viable running h)
  · exact .inl (nextViable_viable running h)
end

section
variable {queue node : List α}
theorem switch_eq (hle : 2 ≤ queue.length) (node : List α) :
    switchProcessImpl running queue node =
      ((nodes node.tail).filter (viable running) ++ runningNodes running queue).head? := by
  rw [head?_append,runningNodes,head?_filter,head?_filter]
  unfold switchProcessImpl
  cases ht : node.tail with
  | cons p rest =>
    rw [if_neg (by simp),nextViable_eq,if_pos rfl,ht]
  | nil =>
    have hla : node.length ≤ 1 := by
      have hl := congrArg List.length ht
      rw [length_tail,length_nil] at hl
      omega
    rw [if_pos (by simp),if_neg (by omega),nextViable_eq,if_neg (by simp)]
    simp [nodes]

theorem runningNodes_pairwise (queue : List α) :
    (runningNodes running queue).Pairwise fun a b => b.length < a.length := by
  refine List.Pairwise.filter _ ?_
  induction queue with
  | nil => exact List.Pairwise.nil
  | cons p rest ih =>
    exact pairwise_cons.mpr ⟨fun n hn => Nat.lt_succ_of_le (length_lt_of_mem_nodes hn),ih⟩

theorem runningNodes_nodup (queue : List α) : (runningNodes running queue).Nodup :=
  (runningNodes_pairwise running queue).imp fun hl he => absurd (he ▸ hl) (lt_irrefl _)

theorem switch_rank (hle : 2 ≤ queue.length) (hno : node ∈ nodes queue) :
    switchProcessImpl running queue node = (runningNodes running queue)[
        rank running queue node % (runningNodes running queue).length]? := by
  obtain ⟨before,hs,hl⟩ := nodes_split hno
  have hp : runningNodes running queue = (before ++ [node]).filter (viable running) ++
      (nodes node.tail).filter (viable running) := by
    rw [runningNodes,hs,← filter_append,append_assoc,singleton_append]
  have hr : rank running queue node = ((before ++ [node]).filter (viable running)).length := by
    have hu : ((before ++ [node]).filter (viable running)).filter
        (fun n => decide (node.length ≤ n.length)) = (before ++ [node]).filter (viable running) := by
      refine filter_eq_self.mpr fun n hn => decide_eq_true ?_
      rcases mem_append.mp (mem_filter.mp hn).1 with hn | hn
      · exact (hl n hn).le
      · exact (mem_singleton.mp hn) ▸ le_rfl
    have hb : ((nodes node.tail).filter (viable running)).filter
        (fun n => decide (node.length ≤ n.length)) = [] := by
      refine filter_eq_nil_iff.mpr fun n hn => ?_
      have hsh := length_lt_of_mem_nodes (mem_filter.mp hn).1
      have hne := tail_length_lt hno
      simp only [decide_eq_true_eq]
      omega
    rw [rank,hp,filter_append,hu,hb,append_nil]
  rw [switch_eq running hle,hr,hp]
  generalize (before ++ [node]).filter (viable running) = upto
  cases (nodes node.tail).filter (viable running) with
  | nil => simp [head?_eq_getElem?]
  | cons n behind =>
    rw [length_append,Nat.mod_eq_of_lt (by simp),getElem?_append_right le_rfl]
    simp

private theorem filter_length_le (l : List (List α)) (t : Nat)
    (hs : l.Pairwise fun a b => b.length < a.length) {n : List α} (ht : l[t]? = some n) :
    (l.filter fun m => decide (n.length ≤ m.length)).length = t+1 := by
  induction l generalizing t with
  | nil => simp at ht
  | cons a rest ih =>
    obtain ⟨hh,hr⟩ := pairwise_cons.mp hs
    cases t with
    | zero =>
      obtain rfl : a = n := by simpa using ht
      have hn : rest.filter (fun m => decide (a.length ≤ m.length)) = [] := by
        refine filter_eq_nil_iff.mpr fun m hm => ?_
        simpa using hh m hm
      rw [filter_cons_of_pos (by simp),hn,length_singleton]
    | succ t =>
      rw [getElem?_cons_succ] at ht
      have hme := mem_of_getElem? ht
      rw [filter_cons_of_pos (by simpa using (hh n hme).le),length_cons,ih t hr ht]

theorem rank_of_getElem {t : Nat} (ht : (runningNodes running queue)[t]? = some node) :
    rank running queue node = t+1 := filter_length_le _ t (runningNodes_pairwise running queue) ht

theorem afterSwitches_succ (hl : 2 ≤ queue.length)
    (hr : 0 < (runningNodes running queue).length) (hn : node ∈ nodes queue) (n : Nat) :
    afterSwitches running queue node (n+1) = (runningNodes running queue)[
        (rank running queue node+n) % (runningNodes running queue).length]? := by
  induction n with
  | zero => exact switch_rank running hl hn
  | succ n ih =>
    have hi := Nat.mod_lt (rank running queue node+n) hr
    have hc := getElem?_eq_getElem hi
    rw [afterSwitches,ih,hc,bind_some,
      switch_rank running hl (mem_of_mem_filter (getElem_mem hi)),
      rank_of_getElem running hc,Nat.mod_add_mod,Nat.add_assoc]

/-- Switches in a fixed queue go round its running processes: each call takes the next one of
the cyclic order, and as many calls in a row as there are running processes take each of them
once. -/
theorem roundRobin (queue currentProcess : List α) (hlen : 2 ≤ queue.length)
    (hrunning : 0 < (runningNodes running queue).length) (hcur : currentProcess ∈ nodes queue) :
    (∀ n, ∃ node ∈ runningNodes running queue,
      afterSwitches running queue currentProcess (n+1) = some node) ∧
    (∀ n, afterSwitches running queue currentProcess (n+1) = (runningNodes running queue)[
        (rank running queue currentProcess+n) % (runningNodes running queue).length]?) ∧
    (runningNodes running queue).Nodup ∧
    ∀ n, ((range (runningNodes running queue).length).map fun i =>
        afterSwitches running queue currentProcess (n+1+i)).Perm
      ((runningNodes running queue).map some) := by
  have hro := afterSwitches_succ running hlen hrunning hcur
  refine ⟨?_,hro,runningNodes_nodup running queue,?_⟩
  · intro n
    have hin := Nat.mod_lt (rank running queue currentProcess+n) hrunning
    exact ⟨_,getElem_mem hin,(hro n).trans (getElem?_eq_getElem hin)⟩
  intro n
  have hr : ((range (runningNodes running queue).length).map fun i =>
      afterSwitches running queue currentProcess (n+1+i)) =
      ((runningNodes running queue).rotate (rank running queue currentProcess+n)).map some := by
    refine ext_getElem (by simp) fun i hi _ => ?_
    rw [getElem_map,getElem_range,getElem_map,getElem_rotate,
      Nat.add_right_comm,hro,← Nat.add_assoc,Nat.add_comm i,
      getElem?_eq_getElem (Nat.mod_lt _ hrunning)]
  rw [hr]
  exact (rotate_perm _ _).map some

theorem roundRobin_three : ∃ node ∈ runningNodes id [true,false,true],
      afterSwitches id [true,false,true] [false,true] 1 = some node :=
  (roundRobin id [true,false,true] [false,true] (by decide) (by decide) (by decide)).1 0
end
end LensorOS.Scheduler
