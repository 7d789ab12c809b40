import LensorOS.Pointers.SharedPointer
import Mathlib.Data.List.Nodup

/-!
# The counts of control blocks

The counts of a control block are the numbers of its handles, together with those that the
destructors that still run have yet to release.
-/
namespace LensorOS.Pointers
open Framework List Option Handle State
namespace Job
def strong : Job → Option Nat
  | destroyHandle _ => none
  | release h => h.strong
  | releaseWeak _ => none

def ctrl : Job → Option Nat
  | destroyHandle _ => none
  | release h => h.ctrl
  | releaseWeak b => some b

def weight : Job → Nat
  | destroyHandle _ => 0
  | release _ => 2
  | releaseWeak _ => 1

def count (f : Job → Option Nat) (work : List Job) (b : Nat) : Nat := (work.map f).count (some b)

@[simp] theorem count_cons (f : Job → Option Nat) (job : Job) (work : List Job) (b : Nat) :
    count f (job :: work) b = count f work b+if f job = some b then 1 else 0 := by
  rw [count,List.map_cons,List.count_cons,count]
  simp

@[simp] theorem count_nil (f : Job → Option Nat) (b : Nat) : count f [] b = 0 := rfl

theorem count_strong_release (h : Handle) (b : Nat) :
    count strong [.release h] b = if h.strong = some b then 1 else 0 :=
  (count_cons strong (.release h) [] b).trans (Nat.zero_add _)

theorem count_ctrl_release (h : Handle) (b : Nat) :
    count ctrl [.release h] b = if h.ctrl = some b then 1 else 0 :=
  (count_cons ctrl (.release h) [] b).trans (Nat.zero_add _)

theorem count_append (f : Job → Option Nat) (jobs work : List Job) (b : Nat) :
    count f (jobs ++ work) b = count f jobs b+count f work b := by
  rw [count,List.map_append,List.count_append,count,count]

variable {f : Job → Option Nat} {jobs : List Job}
theorem count_eq_zero (hf : ∀ job ∈ jobs, f job = none) (b : Nat) : count f jobs b = 0 := by
  refine List.count_eq_zero.mpr fun hm => ?_
  obtain ⟨job,hj,hb⟩ := List.mem_map.mp hm
  rw [hf job hj] at hb
  cases hb

theorem count_destroy (hf : ∀ i, f (.destroyHandle i) = none)
    (handles : List Nat) (b : Nat) : count f (handles.map destroyHandle) b = 0 := by
  refine count_eq_zero (fun job hj => ?_) b
  obtain ⟨i,-,rfl⟩ := mem_map.mp hj
  exact hf i

theorem count_of_destroy {i : Nat}
    (hj : ∀ job ∈ jobs, job = .destroyHandle i) (hf : f (.destroyHandle i) = none) (b : Nat) :
    count f jobs b = 0 := count_eq_zero (fun job hjo => hj job hjo ▸ hf) b
end Job

namespace State
variable {s s' : State} {i j b q : Nat} {h : Handle} {x : Option Handle}
theorem lt_of_handle? (hi : s.handle? i = some h) : i < s.handles.length := by
  by_contra hl
  rw [handle?,getElem?_eq_none (by omega)] at hi
  cases hi

theorem getElem?_of_handle? (hi : s.handle? i = some h) : s.handles[i]? = some (some h) := join_eq_some_iff.mp hi

@[simp] theorem handle?_set_self (hi : i < s.handles.length) :
    (s.setHandle i x).handle? i = x := by
  rw [handle?,setHandle,getElem?_set_self hi]
  rfl

@[simp] theorem handle?_set_ne (hn : i ≠ j) : (s.setHandle i x).handle? j = s.handle? j := by
  rw [handle?,setHandle,getElem?_set_ne hn,handle?]

theorem handle?_add_of_some (hi : s.handle? i = some h) (g : Handle) : (s.addHandle g).handle? i = some h := by
  rw [handle?,addHandle,getElem?_append_left (lt_of_handle? hi)]
  exact hi

theorem handle?_add_last (g : Handle) : (s.addHandle g).handle? s.handles.length = some g := by
  rw [handle?,addHandle,getElem?_concat_length]
  rfl

theorem handle?_add_cases {g : Handle} (hi : (s.addHandle g).handle? i = some h) :
    s.handle? i = some h ∨ i = s.handles.length ∧ h = g := by
  rw [handle?,addHandle,getElem?_snoc] at hi
  split at hi
  · next hl => exact .inr ⟨hl,(some.inj hi).symm⟩
  · exact .inl hi

theorem addHandle_eq (g e : Handle) : s.addHandle g = (s.addHandle e).setHandle s.handles.length (some g) := by
  simp [addHandle,setHandle]

section
def count (s : State) (f : Handle → Option Nat) (b : Nat) : Nat := (s.handles.map (·.bind f)).count (some b)

def refCount (s : State) (b : Nat) : Nat := ((s.block? b).map ControlBlock.refCount).getD 0
def weakCount (s : State) (b : Nat) : Nat := ((s.block? b).map ControlBlock.weakCount).getD 0

variable {f : Handle → Option Nat} {block : ControlBlock} {o : Option ControlBlock}
theorem count_setHandle (hi : s.handle? i = some h) (x : Option Handle) :
    (s.setHandle i x).count f b+(if f h = some b then 1 else 0) =
      s.count f b+if x.bind f = some b then 1 else 0 := by
  have ho : (s.handles.map (·.bind f))[i]? = some (f h) := by
    rw [getElem?_map,getElem?_of_handle? hi]
    rfl
  rw [count,setHandle,map_set,Shared.count_set ho,count]

theorem count_set_none (hi : s.handle? i = some h) :
    (s.setHandle i none).count f b+(if f h = some b then 1 else 0) = s.count f b := by
  rw [count_setHandle hi none]
  simp

theorem count_addHandle (g : Handle) : (s.addHandle g).count f b = s.count f b+if f g = some b then 1 else 0 := by
  rw [count,addHandle,map_append,count_append,count]
  simp [count_singleton]

theorem count_pos (hi : s.handle? i = some h) (hf : f h = some b) : 0 < s.count f b := by
  refine count_pos_iff.mpr (mem_map.mpr ⟨some h,?_,hf⟩)
  exact mem_of_getElem? (getElem?_of_handle? hi)

theorem strong_eq_some (hf : h.strong = some b) : h.ctrl = some b := by
  rw [strong] at hf
  split at hf
  · exact hf
  · cases hf

theorem lt_of_block? (hb : s.block? b = some block) : b < s.blocks.length := by
  by_contra hl
  rw [block?,getElem?_eq_none (by omega)] at hb
  cases hb

theorem block?_set (hb : b < s.blocks.length) : (s.setBlock b o).block? q = if b = q then o else s.block? q := by
  rw [block?,setBlock,getElem?_set,block?]
  by_cases he : b = q
  · rw [if_pos he,if_pos he,if_pos hb]
    rfl
  · rw [if_neg he,if_neg he]

theorem refCount_eq (hb : s.block? b = some block) : s.refCount b = block.refCount := by
  rw [refCount,hb]
  rfl

theorem weakCount_eq (hb : s.block? b = some block) : s.weakCount b = block.weakCount := by
  rw [weakCount,hb]
  rfl

theorem refCount_set (hb : b < s.blocks.length) : (s.setBlock b o).refCount q =
      if b = q then (o.map ControlBlock.refCount).getD 0 else s.refCount q := by
  rw [refCount,block?_set hb,apply_ite (fun o : Option ControlBlock =>
    (o.map ControlBlock.refCount).getD 0),refCount]

theorem weakCount_set (hb : b < s.blocks.length) : (s.setBlock b o).weakCount q =
      if b = q then (o.map ControlBlock.weakCount).getD 0 else s.weakCount q := by
  rw [weakCount,block?_set hb,apply_ite (fun o : Option ControlBlock =>
    (o.map ControlBlock.weakCount).getD 0),weakCount]

theorem lt_of_refCount_pos (hb : 0 < s.refCount b) : b < s.blocks.length := by
  cases hblock : s.block? b with
  | none => simp [refCount,hblock] at hb
  | some block => exact lt_of_block? hblock

theorem block?_of_weakCount_pos (hb : 0 < s.weakCount b) : ∃ block, s.block? b = some block := by
  cases hblock : s.block? b with
  | none =>
    rw [weakCount,hblock] at hb
    cases hb
  | some block => exact ⟨block,rfl⟩
end

/-- What has happened to a control block: its object is destroyed once no reference to it is left,
and the block is deleted after that. -/
def history (s : State) (b : Nat) : List Event := s.events.filter fun e => e.block = b

structure BlockHistory (s : State) (b : Nat) (joint : Bool) : Prop where
  joint_eq : ∀ block, s.block? b = some block → block.jointlyAllocated = joint
  events : s.history b = (if s.refCount b = 0 then [.destroy b !joint] else []) ++
      if s.block? b = none then [.free b joint] else []

/-- The counts of all control blocks, while some destructors still have work to do. -/
structure Counted (s : State) (work : List Job) : Prop where
  strong : ∀ b, s.refCount b = s.count strong b+Job.count Job.strong work b
  held : ∀ b, s.weakCount b = s.count ctrl b+Job.count Job.ctrl work b
  kept : ∀ b block, s.block? b = some block → 0 < block.weakCount
  history : ∀ b < s.blocks.length, ∃ joint, BlockHistory s b joint
  unused : ∀ e ∈ s.events, e.block < s.blocks.length
  owners : ∀ i h b, s.handle? i = some h → h.owner = some b →
    b < s.blocks.length ∧ (s.refCount b = 0 → .destroyHandle i ∈ work)
  jobs : ∀ i, .destroyHandle i ∈ work →
    ∃ h b, s.handle? i = some h ∧ h.owner = some b ∧ s.refCount b = 0
  once : ∀ i, work.count (.destroyHandle i) ≤ 1

def weight (s : State) (work : List Job) : Nat := 3 * s.handles.countP isSome+(work.map Job.weight).sum

section
variable {work : List Job} {joint : Bool} {job : Job}
theorem count_map_le {α : Type*} {f g : α → Option Nat} (hf : ∀ x, f x = some b → g x = some b)
    (l : List α) : (l.map f).count (some b) ≤ (l.map g).count (some b) := by
  simp only [List.count,countP_map]
  refine countP_mono_left fun x _ hx => ?_
  simpa using hf x (by simpa using hx)

theorem job_strong_eq_some (hj : job.strong = some b) : job.ctrl = some b := by
  cases job with
  | destroyHandle i => cases hj
  | release h => exact strong_eq_some hj
  | releaseWeak q => cases hj

theorem count_strong_le (s : State) (b : Nat) : s.count strong b ≤ s.count ctrl b := by
  refine count_map_le (fun x hx => ?_) s.handles
  obtain ⟨h,hx,hst⟩ := bind_eq_some_iff.mp hx
  rw [hx]
  exact strong_eq_some hst

theorem job_count_strong_le (work : List Job) (b : Nat) : Job.count Job.strong work b ≤ Job.count Job.ctrl work b :=
  count_map_le (fun _ hj => job_strong_eq_some hj) work

theorem mem_members : i ∈ s.members b ↔ ∃ h, s.handle? i = some h ∧ h.owner = some b := by
  rw [members,mem_reverse,mem_filter,mem_range]
  constructor
  · rintro ⟨-,ho⟩
    cases hi : s.handle? i with
    | none =>
      rw [hi] at ho
      cases ho
    | some h =>
      rw [hi] at ho
      exact ⟨h,rfl,of_decide_eq_true ho⟩
  · rintro ⟨h,hi,ho⟩
    refine ⟨lt_of_handle? hi,?_⟩
    rw [hi]
    exact decide_eq_true ho

theorem nodup_members (s : State) (b : Nat) : (s.members b).Nodup := nodup_reverse.mpr (nodup_range.filter _)

theorem Counted.rehandle (handles : List (Option Handle)) (jobs jobs' : List Job)
    (hs : Counted s (jobs ++ work))
    (hc : ∀ b, ({ s with handles } : State).count Handle.strong b +
        Job.count Job.strong jobs' b = s.count Handle.strong b+Job.count Job.strong jobs b ∧
      ({ s with handles } : State).count Handle.ctrl b+Job.count Job.ctrl jobs' b =
        s.count Handle.ctrl b+Job.count Job.ctrl jobs b)
    (ho : ∀ i h b, ({ s with handles } : State).handle? i = some h → h.owner = some b →
      (∃ g, s.handle? i = some g ∧ g.owner = some b ∧ .destroyHandle i ∉ jobs) ∨ 0 < s.refCount b)
    (hjo : ∀ i g, .destroyHandle i ∈ work → s.handle? i = some g →
      ∃ h, ({ s with handles } : State).handle? i = some h ∧ h.owner = g.owner)
    (hn : ∀ i, .destroyHandle i ∉ jobs') : Counted { s with handles } (jobs' ++ work) where
  strong := by
    intro b
    have hr := hs.strong b
    have hne := (hc b).1
    rw [Job.count_append] at hr ⊢
    change s.refCount b = _
    omega
  held := by
    intro b
    have hw := hs.held b
    have hne := (hc b).2
    rw [Job.count_append] at hw ⊢
    change s.weakCount b = _
    omega
  kept := hs.kept
  history := fun b hb => (hs.history b hb).imp fun joint hj => ⟨hj.1,hj.2⟩
  unused := hs.unused
  owners := by
    intro i h b hi how
    rcases ho i h b hi how with ⟨g,hg,how,hjob⟩ | hp
    · obtain ⟨hb,hd⟩ := hs.owners i g b hg how
      exact ⟨hb,fun hz => mem_append_right _
        ((mem_append.mp (hd hz)).resolve_left hjob)⟩
    · exact ⟨lt_of_refCount_pos hp,fun hz => absurd hz (Nat.ne_of_gt hp)⟩
  jobs := by
    intro i hi
    have hi := (mem_append.mp hi).resolve_left (hn i)
    obtain ⟨g,b,hg,how,hz⟩ := hs.jobs i (mem_append_right _ hi)
    obtain ⟨h,hh,hsa⟩ := hjo i g hi hg
    exact ⟨h,b,hh,hsa.trans how,hz⟩
  once := by
    intro i
    have hl := hs.once i
    rw [count_append] at hl ⊢
    rw [count_eq_zero.mpr (hn i)]
    omega

theorem Counted.remove (jobs : List Job) (hs : Counted s (jobs ++ work))
    (hjo : ∀ job ∈ jobs, job = .destroyHandle i) (hi : s.handle? i = some h)
    (hjob : .destroyHandle i ∉ work) : Counted (s.setHandle i none) (.release h :: work) := by
  refine Counted.rehandle _ jobs [.release h] hs (fun b => ⟨?_,?_⟩) (fun j g b hj ho => ?_)
    (fun j g hj hg => ?_) (by simp)
  · rw [Job.count_strong_release,Job.count_of_destroy hjo rfl]
    exact count_set_none hi
  · rw [Job.count_ctrl_release,Job.count_of_destroy hjo rfl]
    exact count_set_none hi
  · have hn : i ≠ j := by
      rintro rfl
      have hse : (s.setHandle i none).handle? i = none := handle?_set_self (lt_of_handle? hi)
      cases hse.symm.trans hj
    refine .inl ⟨g,(handle?_set_ne hn).symm.trans hj,ho,fun hm => ?_⟩
    exact hn (Job.destroyHandle.inj (hjo _ hm)).symm
  · have hn : i ≠ j := by
      rintro rfl
      exact hjob hj
    exact ⟨g,(handle?_set_ne hn).trans hg,rfl⟩

theorem countP_set_none (hi : s.handle? i = some h) :
    (s.setHandle i none).handles.countP Option.isSome+1 = s.handles.countP Option.isSome := by
  have hg := getElem?_of_handle? hi
  obtain ⟨hl,hg⟩ := List.getElem?_eq_some_iff.mp hg
  have hp : 0 < s.handles.countP Option.isSome :=
    countP_pos_iff.mpr ⟨some h,mem_of_getElem? (getElem?_of_handle? hi),rfl⟩
  rw [setHandle,countP_set hl,hg]
  simp
  omega

/-- A step that changes control blocks and exchanges references with jobs. The handles of an object
that it destroys become jobs. -/
theorem Counted.reblock (jobs jobs' : List Job) (hs : Counted s (jobs ++ work))
    (hh : s'.handles = s.handles) (hl : s.blocks.length ≤ s'.blocks.length)
    (hr : ∀ q, s'.refCount q+Job.count Job.strong jobs q =
      s.refCount q+Job.count Job.strong jobs' q)
    (hw : ∀ q, s'.weakCount q+Job.count Job.ctrl jobs q =
      s.weakCount q+Job.count Job.ctrl jobs' q)
    (hk : ∀ q block, s'.block? q = some block → 0 < block.weakCount)
    (hhi : ∀ q < s'.blocks.length, ∃ joint, BlockHistory s' q joint)
    (hu : ∀ e ∈ s'.events, e.block < s'.blocks.length)
    (hze : ∀ q < s.blocks.length, s.refCount q = 0 → s'.refCount q = 0)
    (hde : ∀ i g q, s.handle? i = some g → g.owner = some q → s'.refCount q = 0 →
      s.refCount q ≠ 0 → .destroyHandle i ∈ jobs') (hj : ∀ i, .destroyHandle i ∈ jobs' →
      ∃ g q, s.handle? i = some g ∧ g.owner = some q ∧ s'.refCount q = 0 ∧ s.refCount q ≠ 0)
    (hn : ∀ i, .destroyHandle i ∉ jobs) (hon : ∀ i, jobs'.count (.destroyHandle i) ≤ 1) :
    Counted s' (jobs' ++ work) := by
  have hha : ∀ i, s'.handle? i = s.handle? i := fun i => by rw [handle?,hh,handle?]
  have hc : ∀ f q, s'.count f q = s.count f q := fun f q => by rw [count,hh,count]
  refine ⟨fun q => ?_,fun q => ?_,hk,hhi,hu,fun i h q hi ho => ?_,fun i hi => ?_,
    fun i => ?_⟩
  · have hol := hs.strong q
    have hnew := hr q
    rw [Job.count_append] at hol ⊢
    rw [hc]
    omega
  · have hol := hs.held q
    have hnew := hw q
    rw [Job.count_append] at hol ⊢
    rw [hc]
    omega
  · rw [hha] at hi
    obtain ⟨hq,hd⟩ := hs.owners i h q hi ho
    refine ⟨Nat.lt_of_lt_of_le hq hl,fun hz => mem_append.mpr ?_⟩
    by_cases hol : s.refCount q = 0
    · exact .inr ((mem_append.mp (hd hol)).resolve_left (hn i))
    · exact .inl (hde i h q hi ho hz hol)
  · rw [hha]
    rcases mem_append.mp hi with hi | hi
    · obtain ⟨g,q,hg,ho,hz,-⟩ := hj i hi
      exact ⟨g,q,hg,ho,hz⟩
    · obtain ⟨g,q,hg,ho,hz⟩ := hs.jobs i (mem_append_right _ hi)
      exact ⟨g,q,hg,ho,hze q (hs.owners i g q hg ho).1 hz⟩
  have hle := hs.once i
  rw [count_append] at hle ⊢
  by_cases hm : .destroyHandle i ∈ jobs'
  · -- the object of this handle is alive up to here, so no job destroys the handle yet
    have hno : .destroyHandle i ∉ work := by
      intro hjo
      obtain ⟨g,q,hg,ho,-,hne⟩ := hj i hm
      obtain ⟨g',q',hg',ho',hz⟩ := hs.jobs i (mem_append_right _ hjo)
      obtain rfl := some.inj (hg.symm.trans hg')
      obtain rfl := some.inj (ho.symm.trans ho')
      exact hne hz
    rw [count_eq_zero.mpr hno]
    exact hon i
  · rw [count_eq_zero.mpr hm]
    omega

theorem Counted.exchange (jobs jobs' : List Job) (hs : Counted s (jobs ++ work))
    (hst : ∀ b, Job.count Job.strong jobs' b = Job.count Job.strong jobs b)
    (hc : ∀ b, Job.count Job.ctrl jobs' b = Job.count Job.ctrl jobs b)
    (hh : ∀ i, .destroyHandle i ∉ jobs ∧ .destroyHandle i ∉ jobs') :
    Counted s (jobs' ++ work) := Counted.rehandle s.handles jobs jobs' hs
    (fun b => ⟨congrArg (_ + ·) (hst b),congrArg (_ + ·) (hc b)⟩)
    (fun i h _ hi ho => .inl ⟨h,hi,ho,(hh i).1⟩) (fun _ g _ hg => ⟨g,hg,rfl⟩)
    fun i => (hh i).2

theorem fetchSub_of_pos {n : Nat} (hn : 0 < n) : fetchSub n = n-1 := if_neg (Nat.ne_of_gt hn)

def change (s : State) (b : Nat) (o : Option ControlBlock) (events : List Event) : State :=
  { s.setBlock b o with events := s.events ++ events }

theorem change_nil (s : State) (b : Nat) (o : Option ControlBlock) : s.change b o [] = s.setBlock b o := by
  simp [change,setBlock]

section
variable {o : Option ControlBlock} {events : List Event}
theorem history_change (hevents : ∀ e ∈ events, e.block = b) (q : Nat) :
    (s.change b o events).history q = s.history q ++ if b = q then events else [] := by
  unfold history change
  rw [filter_append]
  by_cases he : b = q
  · have ha : events.filter (fun e => e.block = q) = events := by
      refine filter_eq_self.mpr fun e hm => ?_
      simp [hevents e hm,he]
    rw [if_pos he,ha]
  have hn : events.filter (fun e => e.block = q) = [] := by
    refine filter_eq_nil_iff.mpr fun e hm => ?_
    simp [hevents e hm,he]
  rw [if_neg he,hn]

theorem BlockHistory.change_ne (hq : BlockHistory s q joint) (hn : b ≠ q)
    (hb : b < s.blocks.length) (hevents : ∀ e ∈ events, e.block = b) :
    BlockHistory (s.change b o events) q joint := by
  have hblock : (s.change b o events).block? q = s.block? q := (block?_set hb).trans (if_neg hn)
  have hr : (s.change b o events).refCount q = s.refCount q := (refCount_set hb).trans (if_neg hn)
  refine ⟨?_,?_⟩
  · rw [hblock]
    exact hq.joint_eq
  · rw [history_change hevents,if_neg hn,append_nil,hr,hblock]
    exact hq.events

variable (hs : Counted s work) (hb : b < s.blocks.length) (hevents : ∀ e ∈ events, e.block = b)
include hs hb hevents
theorem Counted.history_of_change (hse : ∃ joint, BlockHistory (s.change b o events) b joint)
    (q : Nat) (hq : q < (s.change b o events).blocks.length) :
    ∃ joint, BlockHistory (s.change b o events) q joint := by
  by_cases he : b = q
  · exact he ▸ hse
  have hq : q < s.blocks.length := by simpa [change,setBlock] using hq
  obtain ⟨joint,hj⟩ := hs.history q hq
  exact ⟨joint,hj.change_ne he hb hevents⟩

theorem Counted.unused_of_change :
    ∀ e ∈ (s.change b o events).events, e.block < (s.change b o events).blocks.length := by
  intro e he
  have hl : (s.change b o events).blocks.length = s.blocks.length := by simp [change,setBlock]
  rw [hl]
  rcases mem_append.mp he with he | he
  · exact hs.unused e he
  · exact hevents e he ▸ hb
end

section
variable {block : ControlBlock}
def released (s : State) (b : Nat) (block : ControlBlock) : List Nat :=
  if block.refCount = 1 then s.members b else []

theorem nodup_released (s : State) (b : Nat) (block : ControlBlock) :
    ((s.released b block).map Job.destroyHandle).Nodup := by
  have hn : (s.released b block).Nodup := by
    rw [released]
    split
    · exact nodup_members s b
    · exact nodup_nil
  exact hn.map fun i j hi => Job.destroyHandle.inj hi

section
variable (hblock : s.block? b = some block)
include hblock
theorem releaseShared_eq :
    s.releaseShared b = some ((s.released b block).map .destroyHandle ++ [.releaseWeak b],
      s.change b (some { block with refCount := fetchSub block.refCount })
        (if block.refCount = 1 then [.destroy b !block.jointlyAllocated] else [])) := by
  rw [releaseShared,hblock,map_some,released]
  split
  · rfl
  · rw [change_nil]
    rfl

theorem refCount_released (hp : 0 < block.refCount) (events : List Event) (q : Nat) :
    (s.change b (some { block with refCount := fetchSub block.refCount }) events).refCount q +
      (if b = q then 1 else 0) = s.refCount q := by
  refine (congrArg (· + _) (refCount_set (lt_of_block? hblock))).trans ?_
  by_cases he : b = q
  · subst he
    rw [if_pos rfl,if_pos rfl,refCount_eq hblock,fetchSub_of_pos hp]
    exact Nat.sub_add_cancel hp
  · rw [if_neg he,if_neg he,Nat.add_zero]

theorem weakCount_released (events : List Event) (q : Nat) : (s.change b (some { block with refCount := fetchSub block.refCount }) events).weakCount q =
      s.weakCount q := by
  refine (weakCount_set (lt_of_block? hblock)).trans ?_
  by_cases he : b = q
  · subst he
    rw [if_pos rfl,weakCount_eq hblock]
    rfl
  · rw [if_neg he]

theorem block?_released (events : List Event) (q : Nat) : (s.change b (some { block with refCount := fetchSub block.refCount }) events).block? q =
      if b = q then some { block with refCount := fetchSub block.refCount } else s.block? q :=
  block?_set (lt_of_block? hblock)
end

theorem mem_released : i ∈ s.released b block ↔ block.refCount = 1 ∧ ∃ h, s.handle? i = some h ∧ h.owner = some b := by
  rw [released,← mem_members]
  by_cases ho : block.refCount = 1
  · rw [if_pos ho]
    exact ⟨fun hi => ⟨ho,hi⟩,fun hi => hi.2⟩
  · rw [if_neg ho]
    exact ⟨fun hi => absurd hi not_mem_nil,fun hi => absurd hi.1 ho⟩

theorem BlockHistory.released (hj : BlockHistory s b joint)
    (hblock : s.block? b = some block) (hp : 0 < block.refCount) :
    BlockHistory (s.change b (some { block with refCount := fetchSub block.refCount })
      (if block.refCount = 1 then [.destroy b !block.jointlyAllocated] else [])) b joint := by
  have hol : s.history b = [] := by
    rw [hj.events,refCount_eq hblock,if_neg (by omega),hblock]
    rfl
  have hk := hj.joint_eq block hblock
  generalize hevents : (if block.refCount = 1 then [Event.destroy b !block.jointlyAllocated]
    else []) = events
  have hof : ∀ e ∈ events, e.block = b := by
    intro e he
    rw [← hevents] at he
    split at he
    · rw [mem_singleton.mp he]
      rfl
    · cases he
  refine ⟨fun block' hb' => ?_,?_⟩
  · rw [block?_released hblock,if_pos rfl] at hb'
    rw [← some.inj hb']
    exact hk
  have hr := refCount_released hblock hp events b
  rw [if_pos rfl,refCount_eq hblock] at hr
  rw [history_change hof,if_pos rfl,hol,block?_released hblock,if_pos rfl,
    if_neg (some_ne_none _),append_nil,nil_append,← hevents,← hk,hevents]
  by_cases ho : block.refCount = 1
  · rw [if_pos (by omega),← hevents,if_pos ho]
  · rw [if_neg (by omega),← hevents,if_neg ho]

theorem Counted.releaseShared (hs : Counted s (.release h :: work)) (hc : h.ctrl = some b)
    (hk : h.kind = .shared) : ∃ (handles : List Nat) (s' : State),
      s.releaseShared b = some (handles.map .destroyHandle ++ [.releaseWeak b],s') ∧
      s'.handles = s.handles ∧
      Counted s' (handles.map .destroyHandle ++ [.releaseWeak b] ++ work) := by
  have hst : h.strong = some b := by rw [Handle.strong,if_pos hk,hc]
  obtain ⟨block,hblock⟩ : ∃ block, s.block? b = some block := by
    refine block?_of_weakCount_pos ?_
    rw [hs.held,Job.count_cons,Job.ctrl,if_pos hc]
    omega
  have hb := lt_of_block? hblock
  have hp : 0 < block.refCount := by
    rw [← refCount_eq hblock,hs.strong,Job.count_cons,Job.strong,if_pos hst]
    omega
  obtain ⟨joint,hj⟩ := hs.history b hb
  have hse := hj.released hblock hp
  refine ⟨_,_,releaseShared_eq hblock,rfl,?_⟩
  have hof : ∀ e ∈ (if block.refCount = 1 then [Event.destroy b !block.jointlyAllocated] else []),
      e.block = b := by
    intro e he
    split at he
    · rw [mem_singleton.mp he]
      rfl
    · cases he
  generalize (if block.refCount = 1 then [Event.destroy b !block.jointlyAllocated] else []) = events
    at hse hof ⊢
  have hr := refCount_released hblock hp events
  refine Counted.reblock [.release h] _ hs rfl (by simp [change,setBlock]) (fun q => ?_) (fun q => ?_)
    (fun q block' hq => ?_) (hs.history_of_change hb hof ⟨joint,hse⟩) (hs.unused_of_change hb hof)
    (fun q _ hz => ?_) (fun i g q hi ho hz hne => ?_) (fun i hi => ?_) (by simp) fun i => ?_
  · have hn := hr q
    rw [Job.count_strong_release,Job.count_append,Job.count_destroy fun i => rfl,hst]
    simpa [Job.strong] using hn
  · rw [weakCount_released hblock,Job.count_ctrl_release,Job.count_append,
      Job.count_destroy fun i => rfl,hc]
    simp [Job.ctrl]
  · rw [block?_released hblock] at hq
    split at hq
    · rw [← some.inj hq]
      exact hs.kept b block hblock
    · exact hs.kept q block' hq
  · have hn := hr q
    omega
  · have hn := hr q
    rw [hz] at hn
    have he : b = q := by
      by_contra he
      rw [if_neg he] at hn
      exact hne hn.symm
    subst he
    rw [if_pos rfl,refCount_eq hblock] at hn
    exact mem_append_left _ (mem_map_of_mem (mem_released.mpr ⟨hn.symm,g,hi,ho⟩))
  · obtain ⟨hon,g,hg,ho⟩ := mem_released.mp (by simpa using hi : i ∈ s.released b block)
    have hn := hr b
    rw [if_pos rfl,refCount_eq hblock] at hn
    exact ⟨g,b,hg,ho,by omega,by rw [refCount_eq hblock]; omega⟩
  · rw [count_append,count_singleton]
    simpa using nodup_iff_count_le_one.mp (nodup_released s b block) (.destroyHandle i)

def weakReleased (block : ControlBlock) : Option ControlBlock := if block.weakCount = 1 then none
  else some { block with weakCount := fetchSub block.weakCount }

theorem releaseWeak_eq (hblock : s.block? b = some block) :
    s.releaseWeak b = some (s.change b (weakReleased block)
      (if block.weakCount = 1 then [.free b block.jointlyAllocated] else [])) := by
  rw [releaseWeak,hblock,map_some,weakReleased]
  split
  · rfl
  · rw [change_nil]

theorem refCount_weakReleased (hblock : s.block? b = some block)
    (hl : block.weakCount = 1 → block.refCount = 0) (events : List Event) (q : Nat) :
    (s.change b (weakReleased block) events).refCount q = s.refCount q := by
  refine (refCount_set (lt_of_block? hblock)).trans ?_
  by_cases he : b = q
  · subst he
    rw [if_pos rfl,refCount_eq hblock,weakReleased]
    split
    · exact (hl ‹_›).symm
    · rfl
  · rw [if_neg he]

theorem weakCount_weakReleased (hblock : s.block? b = some block) (hp : 0 < block.weakCount)
    (events : List Event) (q : Nat) :
    (s.change b (weakReleased block) events).weakCount q+(if b = q then 1 else 0) =
      s.weakCount q := by
  refine (congrArg (· + _) (weakCount_set (lt_of_block? hblock))).trans ?_
  by_cases he : b = q
  · subst he
    rw [if_pos rfl,if_pos rfl,weakCount_eq hblock,weakReleased]
    split
    · exact (Nat.zero_add 1).trans (Eq.symm ‹_›)
    change fetchSub block.weakCount+1 = block.weakCount
    rw [fetchSub_of_pos hp]
    omega
  · rw [if_neg he,if_neg he,Nat.add_zero]

theorem BlockHistory.weakReleased (hj : BlockHistory s b joint)
    (hblock : s.block? b = some block) (hla : block.weakCount = 1 → block.refCount = 0) :
    BlockHistory (s.change b (weakReleased block)
      (if block.weakCount = 1 then [.free b block.jointlyAllocated] else [])) b joint := by
  have hk := hj.joint_eq block hblock
  have hb := lt_of_block? hblock
  have hse : ∀ events, (s.change b (State.weakReleased block) events).block? b =
      State.weakReleased block := fun events => (block?_set hb).trans (if_pos rfl)
  have hol := hj.events
  rw [refCount_eq hblock,hblock,if_neg (some_ne_none _),append_nil] at hol
  by_cases ho : block.weakCount = 1
  · rw [if_pos ho]
    have hg : State.weakReleased block = none := if_pos ho
    refine ⟨fun block' hb' => ?_,?_⟩
    · rw [hse,hg] at hb'
      cases hb'
    rw [history_change (by simp [Event.block]),if_pos rfl,hol,if_pos (hla ho),refCount,
      hse,hg,hk]
    rfl
  rw [if_neg ho]
  have hl : State.weakReleased block = some { block with weakCount := fetchSub block.weakCount } := if_neg ho
  refine ⟨fun block' hb' => ?_,?_⟩
  · rw [hse,hl] at hb'
    rw [← some.inj hb']
    exact hk
  rw [history_change (by simp),if_pos rfl,hol,refCount,hse,hl,append_nil,
    if_neg (some_ne_none _),append_nil]
  rfl

theorem Counted.releaseWeak (hs : Counted s (.releaseWeak b :: work)) :
    ∃ s', s.releaseWeak b = some s' ∧ s'.handles = s.handles ∧ Counted s' work := by
  obtain ⟨block,hblock⟩ : ∃ block, s.block? b = some block := by
    refine block?_of_weakCount_pos ?_
    rw [hs.held,Job.count_cons,Job.ctrl,if_pos rfl]
    omega
  have hb := lt_of_block? hblock
  have hp := hs.kept b block hblock
  have hl : block.weakCount = 1 → block.refCount = 0 := by
    intro hon
    have hr := hs.strong b
    have hw := hs.held b
    have hle := count_strong_le s b
    have hjo := job_count_strong_le work b
    rw [refCount_eq hblock,Job.count_cons,Job.strong,if_neg (by simp)] at hr
    rw [weakCount_eq hblock,Job.count_cons,Job.ctrl,if_pos rfl] at hw
    omega
  obtain ⟨joint,hj⟩ := hs.history b hb
  have hse := hj.weakReleased hblock hl
  refine ⟨_,releaseWeak_eq hblock,rfl,?_⟩
  have ho : ∀ e ∈ (if block.weakCount = 1 then [Event.free b block.jointlyAllocated] else []),
      e.block = b := by
    intro e he
    split at he
    · rw [mem_singleton.mp he]
      rfl
    · cases he
  generalize (if block.weakCount = 1 then [Event.free b block.jointlyAllocated] else []) = events
    at hse ho ⊢
  have hr := refCount_weakReleased hblock hl events
  refine Counted.reblock [.releaseWeak b] [] hs rfl (by simp [change,setBlock]) (fun q => ?_)
    (fun q => ?_) (fun q block' hq => ?_) (hs.history_of_change hb ho ⟨joint,hse⟩)
    (hs.unused_of_change hb ho) (fun q _ hz => (hr q).trans hz)
    (fun i g q _ _ hz hne => absurd ((hr q).symm.trans hz) hne) (by simp) (by simp) (by simp)
  · rw [hr,Job.count_cons,Job.strong]
    simp
  · have hn := weakCount_weakReleased hblock hp events q
    simpa [Job.ctrl] using hn
  have hq := (block?_set hb).symm.trans hq
  split at hq
  · rw [weakReleased] at hq
    split at hq
    · cases hq
    rw [← some.inj hq]
    change 0 < fetchSub block.weakCount
    rw [fetchSub_of_pos hp]
    omega
  · exact hs.kept q block' hq
end

theorem Counted.runJob (hs : Counted s (job :: work)) :
    ∃ jobs s', s.runJob job = some (jobs,s') ∧ Counted s' (jobs ++ work) ∧
      s'.weight (jobs ++ work) < s.weight (job :: work) := by
  cases job with
  | destroyHandle i =>
    obtain ⟨h,b,hi,-,-⟩ := hs.jobs i mem_cons_self
    have hno : .destroyHandle i ∉ work := by
      have hle := hs.once i
      rw [count_cons_self] at hle
      exact count_eq_zero.mp (by omega)
    have hc := Counted.remove [.destroyHandle i] hs (by simp) hi hno
    refine ⟨[.release h],s.setHandle i none,by rw [runJob,hi]; rfl,hc,?_⟩
    have hl := countP_set_none hi
    simp only [weight,singleton_append,map_cons,sum_cons,Job.weight]
    omega
  | release h =>
    cases hct : h.ctrl with
    | none =>
      have hc : Counted s ([] ++ work) := by
        refine Counted.exchange [.release h] _ hs (fun b => ?_) (fun b => ?_) (by simp)
        · simp [Job.count,Job.strong,Handle.strong,hct]
        · simp [Job.count,Job.ctrl,hct]
      refine ⟨[],s,by rw [runJob,hct],hc,?_⟩
      simp [weight,Job.weight]
    | some b =>
      cases hk : h.kind with
      | shared =>
        obtain ⟨handles,s',hr,hh,hc⟩ := hs.releaseShared hct hk
        refine ⟨_,s',by rw [runJob,hct,hk]; exact hr,hc,?_⟩
        have hn : ((handles.map Job.destroyHandle).map Job.weight).sum = 0 := by
          simp [Function.comp_def,Job.weight]
        rw [weight,weight,hh,map_append,map_append,sum_append,sum_append,hn]
        simp only [map_cons,map_nil,sum_cons,sum_nil,Job.weight]
        omega
      | weak =>
        have hc : Counted s ([.releaseWeak b] ++ work) := by
          refine Counted.exchange [.release h] _ hs (fun q => ?_) (fun q => ?_) (by simp)
          · simp [Job.count,Job.strong,Handle.strong,hk]
          · simp [Job.count,Job.ctrl,hct]
        refine ⟨_,s,by rw [runJob,hct,hk],hc,?_⟩
        simp only [weight,singleton_append,map_cons,sum_cons,Job.weight]
        omega
  | releaseWeak b =>
    obtain ⟨s',hr,hh,hc⟩ := hs.releaseWeak
    refine ⟨[],s',by rw [runJob,hr]; rfl,hc,?_⟩
    simp [weight,hh,Job.weight]

theorem Counted.unwind {fuel : Nat} (hs : Counted s work) (hf : s.weight work ≤ fuel) :
    ∃ s', unwind fuel work s = some s' ∧ Counted s' [] := by
  induction fuel generalizing s work with
  | zero =>
    cases work with
    | nil => exact ⟨s,rfl,hs⟩
    | cons job work =>
      obtain ⟨jobs,s',-,-,hl⟩ := hs.runJob
      omega
  | succ fuel ih =>
    cases work with
    | nil => exact ⟨s,rfl,hs⟩
    | cons job work =>
      obtain ⟨jobs,s1,hru,hc,hl⟩ := hs.runJob
      obtain ⟨s',hr,he⟩ := ih hc (by omega)
      exact ⟨s',by rw [unwind,hru]; exact hr,he⟩
end
end State
end LensorOS.Pointers
