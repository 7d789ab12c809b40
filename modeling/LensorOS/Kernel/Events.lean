import LensorOS.Framework.Bytes
import LensorOS.Framework.Run

/-!
# Events

The ring buffer that events wait in, and the event queues of a process.
-/
namespace LensorOS.Kernel
open Framework List Function Option
structure RingBuffer (α : Type) where
  data : Nat → α
  head : Nat := 0
  tail : Nat := 0

namespace RingBuffer
variable {α : Type}
section
variable (capacity : Nat) (r : RingBuffer α)
def size : Nat := if r.tail ≥ r.head then r.tail-r.head else capacity-r.head+r.tail

def pushBack (value : α) : RingBuffer α where
  data := update r.data r.tail value
  head := if r.tail+1 = r.head then r.head+1 else r.head
  tail := if r.tail+1 ≥ capacity then 0 else r.tail+1

def popFront : α × RingBuffer α := (r.data r.head, { r with head := if r.head+1 ≥ capacity then 0 else r.head+1 })

def contents : List α := (range (r.size capacity)).map fun i =>
  r.data (if r.head+i ≥ capacity then r.head+i-capacity else r.head+i)

/-- The tail does not wrap around to the head, and the head does not have to. -/
def Room : Prop := ¬ (r.tail+1 = capacity ∧ r.head = 0) ∧ ¬ (r.tail+1 = r.head ∧ r.head+1 = capacity)

instance : Decidable (r.Room capacity) := inferInstanceAs (Decidable (_ ∧ _))
end

/-- A ring buffer, and the queue that loses its oldest elements when it has no room. -/
structure Refined (α : Type) where
  ring : RingBuffer α
  queue : List α

inductive Call (α : Type)
  | pushBack (value : α)
  | popFront

variable {capacity : Nat} {r : RingBuffer α} {s : Refined α}
def step (capacity : Nat) (s : Refined α) : Call α → Option (Refined α)
  | .pushBack value => some ⟨s.ring.pushBack capacity value,
      (s.queue ++ [value]).drop (s.queue.length+1-(capacity-1))⟩
  | .popFront => if s.ring.size capacity = 0 then none
    else some ⟨(s.ring.popFront capacity).2,s.queue.tail⟩

def Started (s : Refined α) : Prop := s.ring.head = 0 ∧ s.ring.tail = 0 ∧ s.queue = []

def PushesRoom (capacity : Nat) (s : Refined α) (call : Call α) (_ : Refined α) : Prop :=
  ∀ value, call = .pushBack value → s.ring.Room capacity

section
variable (hhead : r.head < capacity) (htail : r.tail < capacity)
include hhead htail
theorem contents_pushBack (hr : r.Room capacity) (value : α) :
    (r.pushBack capacity value).contents capacity =
      (r.contents capacity ++ [value]).drop (r.size capacity+1-(capacity-1)) := by
  obtain ⟨hw,hl⟩ := hr
  apply ext_getElem
  · simp only [contents,length_map,length_range,length_drop,length_append,length_singleton,size,
      pushBack]
    grind
  intro i hi hi'
  simp only [contents,length_map,length_range,size,pushBack] at hi
  simp only [contents,getElem_map,getElem_range,getElem_drop,getElem_append,length_map,
    length_range,size,pushBack,update_apply,getElem_singleton]
  grind

theorem contents_popFront (hs : r.size capacity ≠ 0) : r.contents capacity =
    (r.popFront capacity).1 :: (r.popFront capacity).2.contents capacity := by
  apply ext_getElem
  · simp only [contents,length_map,length_range,length_cons,size,popFront] at hs ⊢
    grind
  intro i hi hi'
  simp only [contents,length_map,length_range,size] at hi hs
  cases i with
  | zero => simp [contents,popFront,not_le.mpr hhead]
  | succ i =>
    simp only [contents,getElem_map,getElem_range,getElem_cons_succ,popFront]
    grind
end

theorem refines_of_run (hca : 0 < capacity)
    (h : Reachable Started (step capacity) (PushesRoom capacity) s) :
    s.ring.head < capacity ∧ s.ring.tail < capacity ∧ s.ring.contents capacity = s.queue := by
  induction h with
  | start h => simp [h.1,h.2.1,h.2.2,hca,contents,size]
  | @next s s' call _ hs hg ih =>
    obtain ⟨hhead,htail,hc⟩ := ih
    have hl : s.queue.length = s.ring.size capacity := by simp [← hc,contents]
    cases call with
    | pushBack value =>
      have hr := hg value rfl
      cases hs
      refine ⟨?_,?_,?_⟩
      · grind [Room,pushBack]
      · grind [pushBack]
      · rw [contents_pushBack hhead htail hr,hc,hl]
    | popFront =>
      obtain ⟨hsi,hs⟩ := ite_none_left_eq_some.mp hs
      cases hs
      refine ⟨by grind [popFront],htail,?_⟩
      rw [← hc,contents_popFront hhead htail hsi,tail_cons]

/-- A ring buffer is a queue that keeps its newest elements, one fewer than its capacity. -/
theorem ring_refines_queue (hcap : 0 < capacity)
    (h : Reachable Started (step capacity) (PushesRoom capacity) s) :
    s.ring.contents capacity = s.queue ∧ s.ring.size capacity = s.queue.length ∧
      s.ring.head < capacity ∧ s.ring.tail < capacity ∧
      ∀ x rest, s.queue = x :: rest → (s.ring.popFront capacity).1 = x := by
  obtain ⟨hhead,htail,hc⟩ := refines_of_run hcap h
  have hl : s.ring.size capacity = s.queue.length := by simp [← hc,contents]
  refine ⟨hc,hl,hhead,htail,fun x rest hq => ?_⟩
  have hs : s.ring.size capacity ≠ 0 := by simp [hl,hq]
  rw [contents_popFront hhead htail hs,hq] at hc
  exact (cons.inj hc).1

/-- Four places, of which three are used: the oldest element goes when the fifth comes. -/
theorem ring_refines_queue_four : ∃ s : Refined Nat,
    Reachable Started (step 4) (PushesRoom 4) s ∧ s.queue = [3,4,5] ∧ s.ring.size 4 = 3 := by
  obtain ⟨s,hr,hq⟩ : ∃ s : Refined Nat, Reachable Started (step 4) (PushesRoom 4) s ∧
      s.queue = [3,4,5] := Reachable.exists_checked (s := ⟨⟨fun _ => 0,0,0⟩,[]⟩) ⟨rfl,rfl,rfl⟩
      (fun s _ => s.ring.Room 4) (fun _ _ _ hro _ _ => of_decide_eq_true hro)
      [.pushBack 1,.pushBack 2,.popFront,.pushBack 3,.pushBack 4,.pushBack 5] (by decide)
  exact ⟨s,hr,hq,(ring_refines_queue (by decide) hr).2.1.trans (hq ▸ rfl)⟩

/-- Three elements in three places are lost at once, and a head may leave the places. -/
theorem ring_loses_all : (∃ s : Refined Nat, Reachable Started (step 3) anyStep s ∧
      s.queue = [2,3] ∧ s.ring.size 3 = 0) ∧
    ∃ s : Refined Nat, Reachable Started (step 3) anyStep s ∧ s.ring.head = 3 := by
  have hs : Started (⟨⟨fun _ => 0,0,0⟩,[]⟩ : Refined Nat) := ⟨rfl,rfl,rfl⟩
  exact ⟨Reachable.exists_run hs [.pushBack 1,.pushBack 2,.pushBack 3] (by decide),
    Reachable.exists_run hs [.pushBack 1,.pushBack 2,.popFront,.popFront,.pushBack 3,
      .pushBack 4,.pushBack 5] (by decide)⟩
end RingBuffer

structure Event where
  type : Nat := 0
  filter : Int := -1
  data : Nat → BitVec 8 := fun _ => 0

def eventTypeCount : Nat := 3
def eventQueueSize : Nat := 32

/-- The identifiers of the processes that are told about each type of event. -/
abbrev Listeners := Nat → List Nat

/-- The test is the wrong way around: only a process that is in the list is added to it. -/
def Listeners.registerListener (l : Listeners) (e pid : Nat) : Listeners :=
  if e ≥ eventTypeCount then l
  else if pid ∈ l e then update l e (l e ++ [pid])
  else l

/-- A queue of a process. Nobody sets `pid`. -/
structure EventQueue where
  id : Int
  pid : Nat := 2^64-1
  events : RingBuffer Event := ⟨fun _ => { },0,0⟩
  filter : Nat → List Int := fun _ => []

namespace EventQueue
def registerListening (change : Event) (s : EventQueue × Listeners) : EventQueue × Listeners :=
  if change.type ≥ eventTypeCount then s
  else
    let filters := s.1.filter change.type ++ [change.filter]
    ({ s.1 with filter := update s.1.filter change.type filters },
      s.2.registerListener change.type s.1.pid)

def popEvents : Nat → EventQueue → List Event × EventQueue
  | 0, q => ([],q)
  | n+1, q =>
    if q.events.size eventQueueSize = 0 then ([],q)
    else
      let (event,events) := q.events.popFront eventQueueSize
      let (rest,q) := popEvents n { q with events := events }
      (event :: rest, q)

theorem foldl_events (changes : List Nat) (changelist : Nat → Event)
    (s : EventQueue × Listeners) : (changes.foldl
      (fun s k => registerListening (changelist k) s) s).1.events = s.1.events := by
  induction changes generalizing s with
  | nil => rfl
  | cons k changes ih =>
    rw [foldl_cons,ih,registerListening]
    split <;> rfl
end EventQueue

/-- The event queues of a process: the memory that the vector has its elements in, with what
lies behind them. -/
structure EventQueues where
  data : Nat → EventQueue
  count : Nat

namespace EventQueues
variable (queues : EventQueues)
def find (handle : Int) : Nat := (range queues.count).findIdx fun i => (queues.data i).id == handle

def set (i : Nat) (queue : EventQueue) : EventQueues := { queues with data := update queues.data i queue }

theorem set_data (i : Nat) (queue : EventQueue) : (queues.set i queue).data i = queue := update_self ..

/-- System call 24: the result, the queues, the listeners and the events that are written. The
iterator behind the last queue is not null, so it is taken for a queue. -/
def sys24Kevent (listeners : Listeners) (handle : Int) (changelist : Nat → Event)
    (numChanges : Int) (validChanges : Bool) (maxEvents : Int) (validEvents : Bool) :
    Int × EventQueues × Listeners × List Event :=
  if handle = -1 ∨ numChanges ≠ 0 ∧ !validChanges ∨ maxEvents ≠ 0 ∧ !validEvents ∨
      queues.count = 0 then (-1,queues,listeners,[])
  else
    let i := queues.find handle
    let s := (range numChanges.toNat).foldl
      (fun s k => EventQueue.registerListening (changelist k) s) (queues.data i,listeners)
    if s.1.events.size eventQueueSize = 0 then (-1,queues.set i s.1,s.2,[])
    else
      let popped := s.1.popEvents maxEvents.toNat
      (0,queues.set i popped.2,s.2,popped.1)

variable {queues} {handle : Int} (h : ∀ i < queues.count, (queues.data i).id ≠ handle)
include h
theorem find_unknown (behind : EventQueue) : (queues.set queues.count behind).find handle = queues.count := by
  have hn : ∀ i ∈ range queues.count, (((queues.set queues.count behind).data i).id == handle) = false := by
    intro i hi
    have hl := mem_range.mp hi
    have hs : (queues.set queues.count behind).data i = queues.data i := update_of_ne hl.ne _ _
    simpa [hs] using h i hl
  exact (findIdx_eq_length.mpr hn).trans length_range

/-- A handle of no queue is refused without any change, whatever lies behind the queues, exactly
if the call does not get to the search or the process has no queues at all. -/
theorem kevent_refuses_iff (listeners : Listeners) (changelist : Nat → Event)
    (numChanges maxEvents : Int) (validChanges validEvents : Bool) :
    (∀ behind, (queues.set queues.count behind).sys24Kevent listeners handle changelist numChanges
        validChanges maxEvents validEvents =
      (-1,queues.set queues.count behind,listeners,[])) ↔
    handle = -1 ∨ numChanges ≠ 0 ∧ !validChanges ∨ maxEvents ≠ 0 ∧ !validEvents ∨
      queues.count = 0 := by
  constructor
  · intro hr
    by_contra hs
    -- an event that lies behind the queues is delivered
    have ha := congrArg Prod.fst (hr { id := 0, events := ⟨fun _ => { },0,1⟩ })
    rw [sys24Kevent,if_neg (by exact hs),find_unknown h] at ha
    dsimp only at ha
    rw [EventQueue.foldl_events,set_data,if_neg (by exact one_ne_zero)] at ha
    cases ha
  · intro he behind
    rw [sys24Kevent,if_pos (by exact he)]

omit h
/-- A process with the queue 1 gives the handle 2 and an invalid list of changes. -/
theorem kevent_refuses_invalid : (∀ i < 1, ((fun _ => { id := 1 } : Nat → EventQueue) i).id ≠ 2) ∧
    (set ⟨fun _ => { id := 1 },1⟩ 1 { id := 2 }).sys24Kevent (fun _ => []) 2 (fun _ => { }) 1 false 1
      true = (-1, set ⟨fun _ => { id := 1 },1⟩ 1 { id := 2 }, fun _ => [], []) := by
  have hn : ∀ i < 1, ((fun _ => { id := 1 } : Nat → EventQueue) i).id ≠ 2 := by simp
  exact ⟨hn,(kevent_refuses_iff hn _ _ 1 1 false true).mpr (.inr (.inl (by decide))) _⟩

/-- With one queue, of the handle 1, a change for the handle 2 goes to the memory behind it. -/
theorem kevent_changes_behind :
    ((sys24Kevent ⟨fun _ => { id := 1 },1⟩ (fun _ => []) 2 (fun _ => { type := 1, filter := 5 })
      1 true 0 true).2.1.data 1).filter 1 = [5] := rfl
end EventQueues

def Listeners.unregisterListener (l : Listeners) (e pid : Nat) : Listeners :=
  if e ≥ eventTypeCount then l else update l e ((l e).filter (· ≠ pid))

def EventQueue.unregisterListening (change : Event) (s : EventQueue × Listeners) : EventQueue × Listeners :=
  if change.type ≥ eventTypeCount then s
  else
    let filters := (s.1.filter change.type).filter (· ≠ change.filter)
    ({ s.1 with filter := update s.1.filter change.type filters },
      if filters = [] then s.2.unregisterListener change.type s.1.pid else s.2)

def EventQueue.listens (q : EventQueue) (event : Event) : Bool :=
  event.type < eventTypeCount ∧ event.filter ∈ q.filter event.type

structure EventManager where
  listeners : Listeners
  eventQueues : Nat → Option (List EventQueue)

inductive EventCall
  | kqueue (pid : Nat)
  | listening (registers : Bool) (pid i : Nat) (change : Event)
  | notifyProcess (event : Event) (pid : Nat)
  | notify (event : Event)

namespace EventManager
variable (s : EventManager)
def setQueues (pid : Nat) (queues : List EventQueue) : EventManager :=
  { s with eventQueues := update s.eventQueues pid (some queues) }

def sys23Kqueue (pid : Nat) (queues : List EventQueue) : EventManager :=
  let handle := (queues.getLast?.map fun q => q.id+1).getD 1
  if handle = -1 then s else s.setQueues pid (queues ++ [{ id := handle }])

def onQueue (pid i : Nat) (call : EventQueue × Listeners → EventQueue × Listeners) :
    Option EventManager :=
  (s.eventQueues pid).bind fun queues => queues[i]?.map fun q =>
    { s.setQueues pid (queues.set i (call (q,s.listeners)).1) with
      listeners := (call (q,s.listeners)).2 }

def notifyProcess (event : Event) (pid : Nat) : EventManager := match s.eventQueues pid with
  | none => s
  | some queues =>
    if event.type ≥ eventTypeCount then s
    else
      { s.setQueues pid (queues.map fun q => if q.listens event then
          { q with events := q.events.pushBack eventQueueSize event } else q) with
        listeners := if queues.any (·.listens event) then s.listeners
          else s.listeners.unregisterListener event.type pid }

/-- Events of the two types that belong to one process are not sent to all. -/
def notify (event : Event) : EventManager :=
  if event.type ≥ eventTypeCount ∨ event.type = 1 ∨ event.type = 2 then s
  else (s.listeners event.type).foldl (fun s pid => s.notifyProcess event pid) s

def step : EventCall → Option EventManager
  | .kqueue pid => (s.eventQueues pid).map (s.sys23Kqueue pid)
  | .listening true pid i change => s.onQueue pid i (EventQueue.registerListening change)
  | .listening false pid i change => s.onQueue pid i (EventQueue.unregisterListening change)
  | .notifyProcess event pid => some (s.notifyProcess event pid)
  | .notify event => some (s.notify event)

def Started : Prop := s.listeners = (fun _ => []) ∧ ∀ pid queues, s.eventQueues pid = some queues → queues = []

def Listens (pid e : Nat) : Prop := ∃ queues, s.eventQueues pid = some queues ∧ ∃ q ∈ queues, q.filter e ≠ []

/-- Each process is listed once for each type of event that it listens to. -/
def Registered : Prop := ∀ pid e, (s.listeners e).count pid ≤ 1 ∧ (pid ∈ s.listeners e ↔ s.Listens pid e)

variable {s} {s' : EventManager}
theorem unregister_empty (e pid : Nat) : Listeners.unregisterListener (fun _ => []) e pid = fun _ => [] := by
  simp [Listeners.unregisterListener]

theorem step_empty {call : EventCall} (h : s.listeners = fun _ => [])
    (hs : s.step call = some s') : s'.listeners = fun _ => [] := by
  cases call with
  | kqueue pid =>
    obtain ⟨queues,-,rfl⟩ := map_eq_some_iff.mp hs
    unfold sys23Kqueue
    dsimp only
    split <;> exact h
  | listening registers pid i change =>
    cases registers with
    | true | false =>
      obtain ⟨queues,-,hs⟩ := bind_eq_some_iff.mp hs
      obtain ⟨q,-,rfl⟩ := map_eq_some_iff.mp hs
      simp only [h,EventQueue.registerListening,EventQueue.unregisterListening]
      split <;> simp [Listeners.registerListener,unregister_empty]
  | notifyProcess event pid =>
    cases hs
    unfold notifyProcess
    split
    · exact h
    split
    · exact h
    · simp [h,unregister_empty]
  | notify event =>
    cases hs
    simp [notify,h]

/-- Nobody is ever listed, so the registry is right as long as nobody listens. -/
theorem registered_iff (h : Reachable Started step anyStep s) : s.Registered ↔ ∀ pid e, ¬ s.Listens pid e := by
  have he := h.invariant (fun s hs => hs.1) fun s call s' hs hst _ => step_empty hs hst
  simp [Registered,he]

/-- A process makes a queue, has it listen to one filter and takes the filter back. -/
theorem registered_unregistered : ∃ s : EventManager, Reachable Started step anyStep s ∧
    (s.eventQueues 1).map length = some 1 ∧ s.Registered := by
  have h₀ : Reachable Started step anyStep ⟨fun _ => [],fun _ => some []⟩ := .start ⟨rfl,by simp⟩
  have h₁ := h₀.next (i := .kqueue 1) rfl trivial
  have h₂ := h₁.next (i := .listening true 1 0 { type := 1, filter := 3 }) rfl trivial
  have h₃ := h₂.next (i := .listening false 1 0 { type := 1, filter := 3 }) rfl trivial
  refine ⟨_,h₃,rfl,(registered_iff h₃).mpr ?_⟩
  rintro pid e ⟨queues,hq,q,hm,hf⟩
  simp only [setQueues,sys23Kqueue,update_apply] at hq
  split at hq
  · cases hq
    obtain rfl := mem_singleton.mp hm
    simp [EventQueue.registerListening,EventQueue.unregisterListening,eventTypeCount] at hf
  · next hp =>
    have hn : update (fun _ => some []) 1 _ pid = some queues := hq
    rw [update_of_ne hp] at hn
    cases hn
    cases hm

/-- A process makes a queue and has it listen. It is not listed. -/
theorem registered_lost : ∃ s, Reachable Started step anyStep s ∧ s.listeners 1 = [] ∧
    ((s.eventQueues 1).any fun queues => queues.any fun q => q.filter 1 = [3]) = true :=
  Reachable.exists_run (s := ⟨fun _ => [],fun _ => some []⟩) ⟨rfl,by simp⟩
    [.kqueue 1,.listening true 1 0 { type := 1, filter := 3 }] (by decide)
end EventManager
end LensorOS.Kernel
