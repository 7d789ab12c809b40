import LensorOS.Pointers.PointerCounts

/-!
# Runs of shared pointers

An assignment releases its target before it has changed it, which only makes a difference if the
release destroys the target.
-/
namespace LensorOS.Pointers
open Framework List Option Handle State Reachable
namespace State
variable {s s' : State} {i j b fuel : Nat} {h g e : Handle} {x y : Option Handle} {work : List Job}
  {kind : HandleKind} {block : ControlBlock} {job : Job}
theorem alive_iff : s.alive (some b) = true ↔ 0 < s.refCount b := by
  cases hb : s.block? b with
  | none => simp [alive,refCount,hb]
  | some block => simp [alive,refCount,hb,Nat.pos_iff_ne_zero]

theorem strong_eq_none (hg : g.ctrl = none) : g.strong = none := by rw [strong,hg,ite_self]

theorem Counted.addHandle (hs : Counted s work) (hg : g.ctrl = none) (ha : s.alive g.owner) :
    Counted (s.addHandle g) work := by
  refine Counted.rehandle _ [] [] hs (fun b => ⟨?_,?_⟩) (fun i h b hi ho => ?_)
    (fun i h _ hi => ⟨h,handle?_add_of_some hi g,rfl⟩) (by simp)
  · exact congrArg (· + 0) ((count_addHandle g).trans (by simp [strong_eq_none hg]))
  · exact congrArg (· + 0) ((count_addHandle g).trans (by simp [hg]))
  rcases handle?_add_cases hi with hi | ⟨-,rfl⟩
  · exact .inl ⟨h,hi,ho,not_mem_nil⟩
  · exact .inr (alive_iff.mp (ho ▸ ha))

theorem Counted.replace (jobs jobs' : List Job) (hs : Counted s (jobs ++ work))
    (hi : s.handle? i = some h) (ho : g.owner = h.owner)
    (hj : ∀ k, .destroyHandle k ∉ jobs ∧ .destroyHandle k ∉ jobs')
    (hst : ∀ b, (if g.strong = some b then 1 else 0)+Job.count Job.strong jobs' b =
      (if h.strong = some b then 1 else 0)+Job.count Job.strong jobs b)
    (hct : ∀ b, (if g.ctrl = some b then 1 else 0)+Job.count Job.ctrl jobs' b =
      (if h.ctrl = some b then 1 else 0)+Job.count Job.ctrl jobs b) :
    Counted (s.setHandle i (some g)) (jobs' ++ work) := by
  have hc : ∀ (f : Handle → Option Nat) b, (s.setHandle i (some g)).count f b +
      (if f h = some b then 1 else 0) = s.count f b+if f g = some b then 1 else 0 :=
    fun f b => count_setHandle hi (some g)
  have hse : (s.setHandle i (some g)).handle? i = some g := handle?_set_self (lt_of_handle? hi)
  refine Counted.rehandle _ jobs jobs' hs (fun b => ⟨?_,?_⟩) (fun k f b hk hb => .inl ?_)
    (fun k f _ hk => ?_) fun k => (hj k).2
  · have hset := hc Handle.strong b
    have hn := hst b
    simp only [setHandle] at hset
    omega
  · have hset := hc ctrl b
    have hn := hct b
    simp only [setHandle] at hset
    omega
  · by_cases he : i = k
    · subst he
      rw [← some.inj (hse.symm.trans hk),ho] at hb
      exact ⟨h,hi,hb,(hj i).1⟩
    · exact ⟨f,(handle?_set_ne he).symm.trans hk,hb,(hj k).1⟩
  · by_cases he : i = k
    · subst he
      exact ⟨g,hse,ho.trans (congrArg _ (some.inj (hi.symm.trans hk)))⟩
    · exact ⟨f,(handle?_set_ne he).trans hk,rfl⟩

theorem Counted.give (hs : Counted s work) (hi : s.handle? i = some h) (ptr : Nat) :
    Counted (s.setHandle i (some { h with ptr := ptr, ctrl := none })) (.release h :: work) := by
  refine Counted.replace [] [.release h] hs hi rfl (by simp) (fun b => ?_) fun b => ?_
  · have hn : Handle.strong { h with ptr := ptr, ctrl := none } = none := strong_eq_none rfl
    rw [hn,Job.count_strong_release,Nat.add_comm]
    rfl
  · rw [Job.count_ctrl_release,Nat.add_comm]
    rfl

theorem Counted.take (hs : Counted s (.release h :: work)) (hi : s.handle? i = some e)
    (he : e.ctrl = none) (hk : g.kind = h.kind) (hc : g.ctrl = h.ctrl)
    (ho : g.owner = e.owner) : Counted (s.setHandle i (some g)) work := by
  have hst : g.strong = h.strong := by rw [Handle.strong,Handle.strong,hk,hc]
  refine Counted.replace [.release h] [] hs hi ho (by simp) (fun b => ?_) fun b => ?_
  · rw [hst,strong_eq_none he,Job.count_strong_release,Nat.add_comm]
    rfl
  · rw [hc,he,Job.count_ctrl_release,Nat.add_comm]
    rfl

def ControlBlock.acquired (block : ControlBlock) (kind : HandleKind) : ControlBlock := { block with
    refCount := block.refCount+if kind = .shared then 1 else 0
    weakCount := block.weakCount+1 }

theorem acquire_eq (hb : s.block? b = some block) (kind : HandleKind) :
    s.acquire kind (some b) = some (s.setBlock b (some (ControlBlock.acquired block kind))) := by
  cases kind with
  | shared =>
    rw [acquire,addShared,hb,bind_some,addWeak,block?_set (lt_of_block? hb),
      if_pos rfl,map_some,setBlock,setBlock,set_set]
    rfl
  | weak =>
    rw [acquire,addWeak,hb]
    rfl

theorem Counted.acquired (hs : Counted s work) (hbl : s.block? b = some block)
    (hsh : kind = .shared → 0 < block.refCount) (ptr : Nat) (owner : Option Nat) :
    Counted (s.setBlock b (some (ControlBlock.acquired block kind)))
      (.release ⟨kind,ptr,some b,owner⟩ :: work) := by
  have hb := lt_of_block? hbl
  have hr : ∀ q, (s.setBlock b (some (ControlBlock.acquired block kind))).refCount q =
      s.refCount q+if Handle.strong ⟨kind,ptr,some b,owner⟩ = some q then 1 else 0 := by
    intro q
    rw [refCount_set hb]
    by_cases he : b = q
    · subst he
      rw [if_pos rfl,refCount_eq hbl]
      cases kind <;> simp [ControlBlock.acquired,Handle.strong]
    · rw [if_neg he,if_neg fun hq => he (some.inj (strong_eq_some hq)),Nat.add_zero]
  have hze : ∀ q, (s.setBlock b (some (ControlBlock.acquired block kind))).refCount q = 0 ↔ s.refCount q = 0 := by
    intro q
    rw [hr]
    refine ⟨fun hsu => by omega,fun ho => ?_⟩
    rw [ho,if_neg fun hst => ?_]
    obtain rfl := some.inj (strong_eq_some hst)
    rw [Handle.strong] at hst
    split at hst
    · have hp := hsh ‹_›
      rw [refCount_eq hbl] at ho
      omega
    · cases hst
  obtain ⟨joint,hj⟩ := hs.history b hb
  refine Counted.reblock [] [.release ⟨kind,ptr,some b,owner⟩] hs rfl
    (Nat.le_of_eq length_set.symm) (fun q => ?_) (fun q => ?_) (fun q block' hq => ?_)
    (change_nil s b _ ▸ hs.history_of_change hb (by simp) ⟨joint,fun block' hb' => ?_,?_⟩)
    (change_nil s b _ ▸ hs.unused_of_change hb (by simp)) (fun q _ => (hze q).mpr)
    (fun i g q _ _ hz hn => absurd ((hze q).mp hz) hn) (by simp) (by simp) (by simp)
  · rw [hr,Job.count_strong_release]
    rfl
  · rw [weakCount_set hb,Job.count_ctrl_release]
    by_cases he : b = q
    · subst he
      rw [if_pos rfl,if_pos rfl,weakCount_eq hbl]
      rfl
    · rw [if_neg he,if_neg fun hq => he (some.inj hq)]
      rfl
  · rw [block?_set hb] at hq
    split at hq
    · rw [← some.inj hq]
      exact Nat.succ_pos _
    · exact hs.kept q block' hq
  · rw [change_nil,block?_set hb,if_pos rfl] at hb'
    rw [← some.inj hb']
    exact hj.joint_eq block hbl
  · have hev := hj.events
    rw [hbl,if_neg (some_ne_none _)] at hev
    rw [change_nil,block?_set hb,if_pos rfl,if_neg (some_ne_none _)]
    exact hev.trans (by simp [hze])

theorem block?_addBlock (block : ControlBlock) (q : Nat) :
    (s.addBlock block).block? q = if s.blocks.length = q then some block else s.block? q := by
  rw [block?,block?,addBlock,getElem?_snoc]
  by_cases hq : s.blocks.length = q
  · rw [if_pos hq,if_pos hq.symm]
    rfl
  · rw [if_neg hq,if_neg (Ne.symm hq)]

theorem Counted.created (hs : Counted s work) (obj : Nat) (joint : Bool) (owner : Option Nat) :
    Counted (s.addBlock ⟨obj,1,1,joint⟩)
      (.release ⟨.shared,obj,some s.blocks.length,owner⟩ :: work) := by
  have hn : s.block? s.blocks.length = none := by
    rw [block?,getElem?_eq_none (by omega)]
    rfl
  have hb := block?_addBlock (s := s) ⟨obj,1,1,joint⟩
  have hc : ∀ q, ((s.addBlock ⟨obj,1,1,joint⟩).refCount q =
        s.refCount q+if some s.blocks.length = some q then 1 else 0) ∧
      (s.addBlock ⟨obj,1,1,joint⟩).weakCount q =
        s.weakCount q+if some s.blocks.length = some q then 1 else 0 := by
    intro q
    rw [refCount,hb,refCount,weakCount,hb,weakCount]
    by_cases he : s.blocks.length = q
    · subst he
      simp [hn]
    · simp [he]
  have hol : ∀ q < s.blocks.length, (s.addBlock ⟨obj,1,1,joint⟩).refCount q = s.refCount q := by
    intro q hq
    rw [(hc q).1,if_neg fun he => Nat.ne_of_gt hq (some.inj he),Nat.add_zero]
  have hl : (s.addBlock ⟨obj,1,1,joint⟩).blocks.length = s.blocks.length+1 := length_append
  refine Counted.reblock [] [.release ⟨.shared,obj,some s.blocks.length,owner⟩] hs rfl
    (hl ▸ Nat.le_succ _) (fun q => ?_) (fun q => ?_) (fun q block' hq => ?_) (fun q hq => ?_)
    (fun e he => hl ▸ Nat.lt_succ_of_lt (hs.unused e he)) (fun q hq => (hol q hq).trans)
    (fun i g q hi ho hz hne => absurd ((hol q (hs.owners i g q hi ho).1).symm.trans hz) hne)
    (by simp) (by simp) (by simp)
  · rw [(hc q).1,Job.count_strong_release]
    rfl
  · rw [(hc q).2,Job.count_ctrl_release]
    rfl
  · rw [hb] at hq
    split at hq
    · rw [← some.inj hq]
      exact Nat.one_pos
    · exact hs.kept q block' hq
  by_cases he : s.blocks.length = q
  · subst he
    refine ⟨joint,⟨fun block' hb' => ?_,?_⟩⟩
    · rw [hb,if_pos rfl] at hb'
      rw [← some.inj hb']
    have hem : s.history s.blocks.length = [] := by
      refine filter_eq_nil_iff.mpr fun e he => ?_
      simpa using Nat.ne_of_lt (hs.unused e he)
    rw [(hc _).1,if_pos rfl,hb,if_pos rfl]
    exact hem
  · have hq : q < s.blocks.length := by omega
    obtain ⟨joint',hj⟩ := hs.history q hq
    have hbl := hb q
    rw [if_neg he] at hbl
    refine ⟨joint',⟨fun block' hb' => hj.joint_eq block' (hbl ▸ hb'),?_⟩⟩
    rw [hol q hq,hbl]
    exact hj.events

theorem setHandle_setHandle : (s.setHandle i x).setHandle i y = s.setHandle i y := by
  rw [setHandle,setHandle,setHandle,set_set]

theorem set_self (hi : s.handle? i = some h) : s.setHandle i (some h) = s := by
  have hg := getElem?_of_handle? hi
  have hse : s.handles.set i (some h) = s.handles := by
    obtain ⟨hl,hg⟩ := List.getElem?_eq_some_iff.mp hg
    rw [← hg,set_getElem_self]
  rw [setHandle,hse]

theorem setHandle_comm (hn : i ≠ j) : (s.setHandle i x).setHandle j y = (s.setHandle j y).setHandle i x := by
  rw [setHandle,setHandle,setHandle,setHandle,set_comm _ _ hn]

theorem unwind_nil (fuel : Nat) (s : State) : unwind fuel [] s = some s := by
  cases fuel <;> rfl

theorem handle?_of_runJob {jobs : List Job} (hr : s.runJob job = some (jobs,s'))
    (hi : s'.handle? i = some h) : s.handle? i = some h := by
  cases job with
  | destroyHandle k =>
    obtain ⟨f,hk,hp⟩ := map_eq_some_iff.mp hr
    obtain ⟨-,rfl⟩ := Prod.mk.inj hp
    by_cases he : k = i
    · subst he
      rw [handle?_set_self (lt_of_handle? hk)] at hi
      cases hi
    · rwa [handle?_set_ne he] at hi
  | release f =>
    have hh : s'.handles = s.handles := by
      rw [runJob] at hr
      split at hr
      · rw [← (Prod.mk.inj (some.inj hr)).2]
      split at hr
      · obtain ⟨block,-,hp⟩ := map_eq_some_iff.mp hr
        split at hp <;> rw [← (Prod.mk.inj hp).2] <;> rfl
      · rw [← (Prod.mk.inj (some.inj hr)).2]
    rwa [handle?,hh] at hi
  | releaseWeak b =>
    obtain ⟨t,ht,hp⟩ := map_eq_some_iff.mp hr
    obtain ⟨block,-,hc⟩ := map_eq_some_iff.mp ht
    have hh : s'.handles = s.handles := by
      rw [← (Prod.mk.inj hp).2,← hc]
      split <;> rfl
    rwa [handle?,hh] at hi

theorem handle?_of_unwind (hru : unwind fuel work s = some s')
    (hi : s'.handle? i = some h) : s.handle? i = some h := by
  induction fuel, work, s using unwind.induct with
  | case1 fuel s =>
    rw [unwind_nil] at hru
    cases hru
    exact hi
  | case2 => cases hru
  | case3 fuel job work s ih =>
    obtain ⟨⟨jobs,s1⟩,hj,hr⟩ := bind_eq_some_iff.mp hru
    exact handle?_of_runJob hj (ih jobs s1 hr)

theorem members_set (hi : s.handle? i = some e) (ho : h.owner = e.owner)
    (b : Nat) : (s.setHandle i (some h)).members b = s.members b := by
  have hl : (s.setHandle i (some h)).handles.length = s.handles.length := length_set
  rw [members,members,hl]
  congr 1
  refine filter_congr fun k _ => ?_
  by_cases he : i = k
  · subst he
    rw [handle?_set_self (lt_of_handle? hi),hi,any_some,any_some,ho]
  · rw [handle?_set_ne he]

theorem runJob_set (hj : job ≠ .destroyHandle i)
    (hi : s.handle? i = some e) (ho : h.owner = e.owner) : (s.setHandle i (some h)).runJob job =
      (s.runJob job).map fun r => (r.1, r.2.setHandle i (some h)) := by
  cases job with
  | destroyHandle k =>
    have hn : i ≠ k := fun he => hj (he ▸ rfl)
    rw [runJob,runJob,handle?_set_ne hn,Option.map_map]
    congr 1
    funext f
    exact congrArg (Prod.mk _) (setHandle_comm hn)
  | release f =>
    rw [runJob,runJob]
    cases hc : f.ctrl with
    | none => rfl
    | some b =>
      cases hk : f.kind with
      | shared =>
        simp only [releaseShared,members_set hi ho]
        rw [Option.map_map]
        congr 1
        funext block
        dsimp
        split <;> rfl
      | weak => rfl
  | releaseWeak b =>
    rw [runJob,runJob,releaseWeak,releaseWeak]
    simp only [Option.map_map]
    congr 1
    funext block
    dsimp
    split <;> rfl

theorem unwind_set (hru : unwind fuel work s = some s')
    (hl : (s'.handle? i).isSome) (hi : s.handle? i = some e) (ho : h.owner = e.owner) :
    unwind fuel work (s.setHandle i (some h)) = some (s'.setHandle i (some h)) := by
  obtain ⟨f,hf⟩ := isSome_iff_exists.mp hl
  induction fuel, work, s using unwind.induct generalizing e with
  | case1 fuel s =>
    rw [unwind_nil] at hru ⊢
    cases hru
    rfl
  | case2 => cases hru
  | case3 fuel job work s ih =>
    obtain ⟨⟨jobs,s1⟩,hfi,hr⟩ := bind_eq_some_iff.mp hru
    have hk : s1.handle? i = some f := handle?_of_unwind hr hf
    have hsa : e = f := by
      have hb := handle?_of_runJob hfi hk
      rw [hi] at hb
      exact some.inj hb
    have hj : job ≠ .destroyHandle i := by
      rintro rfl
      obtain ⟨g,-,hp⟩ := map_eq_some_iff.mp hfi
      rw [← (Prod.mk.inj hp).2,handle?_set_self (lt_of_handle? hi)] at hk
      cases hk
    rw [unwind,runJob_set hj hi ho,hfi]
    exact ih jobs s1 hr (hsa ▸ hk) ho

section
def detach (s : State) (i : Nat) : Option State := (s.handle? i).bind fun target =>
    unwind (3 * s.handles.length+2) [.release target]
      (s.setHandle i (some { target with ctrl := none }))

/-- The target and the source of an assignment are still there when the target is released. -/
def outlives (s : State) (i j : Nat) : Bool := (s.detach i).all fun t => (t.handle? i).isSome && (t.handle? j).isSome

theorem weight_le (s : State) (h : Handle) : s.weight [.release h] ≤ 3 * s.handles.length+2 := by
  have hl := countP_le_length (p := isSome) (l := s.handles)
  simp only [weight,map_cons,map_nil,sum_cons,sum_nil,Job.weight]
  omega

variable {target other : Handle}
theorem Counted.detach (hs : Counted s []) (hi : s.handle? i = some target) :
    ∃ t, s.detach i = some t ∧ Counted t [] ∧ ∀ k f, t.handle? k = some f →
        (s.setHandle i (some { target with ctrl := none })).handle? k = some f := by
  have hg : Counted (s.setHandle i (some { target with ctrl := none })) [.release target] := hs.give hi target.ptr
  have hw := weight_le (s.setHandle i (some { target with ctrl := none })) target
  have hl : (s.setHandle i (some { target with ctrl := none })).handles.length = s.handles.length := length_set
  obtain ⟨t,hr,hc⟩ := hg.unwind (hl ▸ hw)
  refine ⟨t,by rw [State.detach,hi]; exact hr,hc,fun k f hk => ?_⟩
  exact handle?_of_unwind hr hk

theorem Counted.delete (hs : Counted s []) (hi : s.handle? i = some target)
    (hl : s.outlives i j) :
    ∃ t, Counted t [] ∧ s.delete target = some (t.setHandle i (some target)) ∧
      t.handle? i = some { target with ctrl := none } ∧
      (t.setHandle i (some target)).handle? i = some target ∧
      (i ≠ j → t.handle? j = s.handle? j) := by
  obtain ⟨t,hd,hc,hk⟩ := hs.detach hi
  rw [outlives,hd,all_some,Bool.and_eq_true] at hl
  obtain ⟨e,he⟩ := isSome_iff_exists.mp hl.1
  obtain ⟨f,hf⟩ := isSome_iff_exists.mp hl.2
  have hse : (s.setHandle i (some { target with ctrl := none })).handle? i =
      some { target with ctrl := none } := handle?_set_self (lt_of_handle? hi)
  refine ⟨t,hc,?_,?_,handle?_set_self (lt_of_handle? he),fun hn => ?_⟩
  · rw [State.detach,hi,bind_some] at hd
    have hr := unwind_set (h := target) hd hl.1 hse rfl
    rw [setHandle_setHandle,set_self hi] at hr
    exact hr
  · rw [he,← hk i e he,hse]
  · rw [hf,← hk j f hf,handle?_set_ne hn]

theorem has_iff : s.has kind i = true ↔ ∃ h, s.handle? i = some h ∧ h.kind = kind := by
  cases hi : s.handle? i with
  | none | some h => simp [has,hi]

theorem has_and {p : Bool} (hl : (s.has kind j && p) = true) :
    ∃ h, s.handle? j = some h ∧ h.kind = kind ∧ p = true := by
  obtain ⟨hj,hp⟩ := Bool.and_eq_true_iff.mp hl
  obtain ⟨h,hj,hk⟩ := has_iff.mp hj
  exact ⟨h,hj,hk,hp⟩

theorem outlives_weak (hw : s.has .weak i = true) (hj : (s.handle? j).isSome) : s.outlives i j := by
  obtain ⟨target,hi,hk⟩ := has_iff.mp hw
  have hr : ∀ t, s.detach i = some t → t.handles = (s.setHandle i (some { target with ctrl := none })).handles := by
    intro t hd
    rw [detach,hi,bind_some,unwind] at hd
    cases hct : target.ctrl with
    | none =>
      rw [runJob,hct] at hd
      exact some.inj hd ▸ rfl
    | some b =>
      rw [runJob,hct,hk] at hd
      have hw : unwind (3 * s.handles.length+1) [.releaseWeak b] _ = some t := hd
      obtain ⟨⟨jobs,s1⟩,hw,hen⟩ := bind_eq_some_iff.mp hw
      obtain ⟨u,hu,hp⟩ := map_eq_some_iff.mp hw
      obtain ⟨rfl,rfl⟩ := Prod.mk.inj hp
      obtain ⟨block,-,hc⟩ := map_eq_some_iff.mp hu
      have hen : unwind (3 * s.handles.length) [] u = some t := hen
      rw [unwind_nil] at hen
      rw [← some.inj hen,← hc,hk]
      split <;> rfl
  cases hd : s.detach i with
  | none => rw [outlives,hd,all_none]
  | some t =>
    have hh := hr t hd
    have hse : t.handle? i = some { target with ctrl := none } := by
      rw [handle?,hh]
      exact handle?_set_self (lt_of_handle? hi)
    have ho : (t.handle? j).isSome := by
      by_cases he : i = j
      · rw [← he,hse]
        rfl
      · rw [handle?,hh]
        exact (congrArg isSome (handle?_set_ne he)).trans hj
    rw [outlives,hd,all_some,hse,ho]
    rfl
end

section
variable {e other : Handle} {ptr : Option Nat} {owner : Option Nat} {kind kind' : HandleKind}
theorem Counted.copyable (hs : Counted s work) (hj : s.handle? j = some other)
    (hc : other.ctrl = some b) :
    ∃ block, s.block? b = some block ∧ (other.kind = .shared → 0 < block.refCount) := by
  obtain ⟨block,hb⟩ : ∃ block, s.block? b = some block := by
    refine block?_of_weakCount_pos ?_
    rw [hs.held]
    exact Nat.add_pos_left (count_pos hj hc) _
  refine ⟨block,hb,fun hk => ?_⟩
  have hst : other.strong = some b := by rw [Handle.strong,if_pos hk,hc]
  rw [← refCount_eq hb,hs.strong]
  exact Nat.add_pos_left (count_pos hj hst) _

variable (hs : Counted s [])
include hs
theorem Counted.attach (hi : s.handle? i = some e) (he : e.ctrl = none)
    (hj : s.handle? j = some other) (ho : g.owner = e.owner) (hct : g.ctrl = other.ctrl)
    (hk : g.kind = .shared → other.kind = .shared) :
    ∃ s', (s.setHandle i (some g)).acquire g.kind other.ctrl = some s' ∧ Counted s' [] := by
  cases hc : other.ctrl with
  | none =>
    refine ⟨_,rfl,Counted.replace [] [] hs hi ho (by simp) (fun b => ?_) fun b => ?_⟩
    · rw [strong_eq_none he,strong_eq_none (hct.trans hc)]
    · rw [he,hct.trans hc]
  | some b =>
    obtain ⟨block,hb,hsh⟩ := hs.copyable hj hc
    have ha := hs.acquired hb (fun hg => hsh (hk hg)) 0 none
    have hse : (s.setHandle i (some g)).block? b = some block := hb
    refine ⟨_,acquire_eq hse g.kind,?_⟩
    exact ha.take (g := g) hi he rfl (hct.trans hc) ho

theorem Counted.constructCopy (hl : (s.has kind' j && s.alive owner) = true)
    (hk : kind = .shared → kind' = .shared) :
    ∃ s', s.constructCopy kind j ptr owner = some s' ∧ Counted s' [] := by
  obtain ⟨other,hj,rfl,ha⟩ := has_and hl
  have had : Counted (s.addHandle ⟨kind,0,none,owner⟩) [] := hs.addHandle rfl ha
  rw [constructCopy,hj,bind_some,addHandle_eq _ ⟨kind,0,none,owner⟩]
  exact had.attach (handle?_add_last _) rfl (handle?_add_of_some hj _) rfl rfl hk

theorem Counted.pass (hi : s.handle? i = some e) (he : e.ctrl = none)
    (hj : s.handle? j = some other) (hn : i ≠ j) (ho : g.owner = e.owner)
    (hc : g.ctrl = other.ctrl) (hk : g.kind = other.kind) :
    Counted ((s.setHandle i (some g)).setHandle j (some { other with ptr := 0, ctrl := none })) [] := by
  rw [setHandle_comm hn]
  refine (hs.give hj 0).take ?_ he hk hc ho
  rw [handle?_set_ne hn.symm,hi]

theorem Counted.constructMove (hl : (s.has kind j && s.alive owner) = true) :
    ∃ s', s.constructMove kind j ptr owner = some s' ∧ Counted s' [] := by
  obtain ⟨other,hj,hk,ha⟩ := has_and hl
  have had : Counted (s.addHandle ⟨kind,0,none,owner⟩) [] := hs.addHandle rfl ha
  rw [State.constructMove,hj,map_some,addHandle_eq _ ⟨kind,0,none,owner⟩]
  exact ⟨_,rfl,had.pass (handle?_add_last _) rfl (handle?_add_of_some hj _)
    (Nat.ne_of_gt (lt_of_handle? hj)) rfl rfl hk.symm⟩

theorem Counted.constructOwner (ha : s.alive owner) (obj : Nat)
    (joint : Bool) : Counted (s.constructOwner obj joint owner) [] := by
  have had : Counted (s.addHandle ⟨.shared,0,none,owner⟩) [] := hs.addHandle rfl ha
  have hc := had.created obj joint owner
  rw [State.constructOwner,addHandle_eq _ ⟨.shared,0,none,owner⟩]
  exact hc.take (handle?_add_last _) rfl rfl rfl rfl

theorem Counted.assignCopy (hl : (s.has kind i && s.has kind' j) = true)
    (hn : i ≠ j) (hli : s.outlives i j) (hk : kind = .shared → kind' = .shared) :
    ∃ s', s.assignCopy i j = some s' ∧ Counted s' [] := by
  obtain ⟨target,hi,rfl,ho⟩ := has_and hl
  obtain ⟨other,hj,rfl⟩ := has_iff.mp ho
  obtain ⟨t,ht,hd,he,hse,ho⟩ := hs.delete hi hli
  have ho := (ho hn).trans hj
  rw [assignCopy,hi,bind_some,hd,bind_some,hse,bind_some,
    handle?_set_ne hn,ho,bind_some,setHandle_setHandle]
  exact ht.attach he rfl ho rfl rfl hk

theorem Counted.assignMove (hl : (s.has kind i && s.has kind j) = true)
    (hn : i ≠ j) (hli : s.outlives i j) : ∃ s', s.assignMove i j = some s' ∧ Counted s' [] := by
  obtain ⟨target,hi,rfl,hj⟩ := has_and hl
  obtain ⟨other,hj,hk⟩ := has_iff.mp hj
  obtain ⟨t,ht,hd,he,hse,ho⟩ := hs.delete hi hli
  have ho := (ho hn).trans hj
  rw [assignMove,hi,bind_some,hd,bind_some,hse,bind_some,
    handle?_set_ne hn,ho,map_some,setHandle_setHandle]
  exact ⟨_,rfl,ht.pass he rfl ho hn rfl rfl hk.symm⟩

theorem Counted.clear (hi : s.handle? i = some e) (he : e.ctrl = none)
    (ptr : Nat) : Counted (s.setHandle i (some { e with ptr := ptr, ctrl := none })) [] := by
  refine Counted.replace [] [] hs hi rfl (by simp) (fun b => ?_) fun b => by rw [he]
  rw [strong_eq_none rfl,strong_eq_none he]

theorem Counted.assignNull (hl : s.has kind i = true)
    (hli : s.outlives i i) : ∃ s', s.assignNull i = some s' ∧ Counted s' [] := by
  obtain ⟨target,hi,-⟩ := has_iff.mp hl
  obtain ⟨t,ht,hd,he,hse,-⟩ := hs.delete hi hli
  rw [State.assignNull,hi,bind_some,hd,bind_some,hse,map_some,setHandle_setHandle]
  exact ⟨_,rfl,ht.clear he rfl 0⟩

theorem Counted.assignConvert
    (hl : (s.has kind i && s.has kind' j) = true) (hne : i ≠ j) (hli : s.outlives i j)
    (hn : (s.handle? j).all fun other => other.ctrl = none) :
    ∃ s', s.assignConvert i j = some s' ∧ Counted s' [] := by
  obtain ⟨target,hi,-,hj⟩ := has_and hl
  obtain ⟨other,hj,-⟩ := has_iff.mp hj
  rw [hj,all_some,decide_eq_true_iff] at hn
  obtain ⟨t,ht,hd,he,hse,ho⟩ := hs.delete hi hli
  rw [State.assignConvert,hi,bind_some,hd,bind_some,hse,bind_some,
    handle?_set_ne hne,ho hne,hj,map_some,setHandle_setHandle,hn]
  exact ⟨_,rfl,ht.clear he rfl _⟩

theorem Counted.lock (hl : (s.has kind j && s.alive owner) = true) :
    ∃ s', s.lock j owner = some s' ∧ Counted s' [] := by
  obtain ⟨other,hj,-,hal⟩ := has_and hl
  have had : Counted (s.addHandle ⟨.shared,0,none,owner⟩) [] := hs.addHandle rfl hal
  rw [State.lock,hj,bind_some]
  cases hc : other.ctrl with
  | none => exact ⟨_,rfl,had⟩
  | some b =>
    obtain ⟨block,hb,-⟩ := hs.copyable hj hc
    dsimp only
    rw [hb,bind_some]
    by_cases hz : block.refCount = 0
    · rw [if_pos hz]
      exact ⟨_,rfl,had⟩
    have hac : (s.setBlock b (some { block with refCount := block.refCount+1 })).addWeak b =
        some (s.setBlock b (some (ControlBlock.acquired block .shared))) := by
      have hsh := acquire_eq hb .shared
      rw [acquire,addShared,hb] at hsh
      exact hsh
    rw [if_neg hz,hac,map_some,addHandle_eq _ ⟨.shared,0,none,owner⟩]
    have hse := hb
    have hsh : HandleKind.shared = .shared → 0 < block.refCount := fun _ => Nat.pos_of_ne_zero hz
    have ha := had.acquired hse hsh 0 none
    exact ⟨_,rfl,ha.take (handle?_add_last _) rfl rfl rfl rfl⟩

theorem Counted.destroy (hi : s.handle? i = some h) : ∃ s', s.destroy i = some s' ∧ Counted s' [] := by
  have hr : Counted (s.setHandle i none) [.release h] := Counted.remove [] hs (by simp) hi (by simp)
  obtain ⟨n,hn⟩ : ∃ n, 3 * s.handles.length = n+1 := ⟨3 * s.handles.length-1,by have := lt_of_handle? hi; omega⟩
  have hl := countP_set_none hi
  have hle := countP_le_length (p := isSome) (l := s.handles)
  have hw : (s.setHandle i none).weight [.release h] ≤ n := by
    simp only [weight,map_cons,map_nil,sum_cons,sum_nil,Job.weight]
    omega
  obtain ⟨s',hru,hc⟩ := hr.unwind hw
  refine ⟨s',?_,hc⟩
  rw [State.destroy,hn,State.unwind,State.runJob,hi]
  exact hru
end

/-- The source of an assignment that does not count has no control block, and no assignment destroys
its own target or source. -/
def safe (s : State) : Call → Bool
  | .sharedAssign i j => i = j || s.outlives i j
  | .sharedAssignMove i j => i = j || s.outlives i j
  | .sharedAssignNull i => s.outlives i i
  | .weakAssignConvert _ j => (s.handle? j).all fun other => other.ctrl = none
  | _ => true

theorem outlives_of_legal (hl : (s.has .weak i && s.has kind j) = true) : s.outlives i j := by
  obtain ⟨hi,hj⟩ := Bool.and_eq_true_iff.mp hl
  obtain ⟨other,hj,-⟩ := has_iff.mp hj
  exact outlives_weak hi (by rw [hj]; rfl)

theorem Counted.unlessSelf (hs : Counted s []) {result : Option State}
    (hr : i ≠ j → ∃ s', result = some s' ∧ Counted s' []) :
    ∃ s', (if i = j then some s else result) = some s' ∧ Counted s' [] := by
  by_cases he : i = j
  · exact ⟨s,if_pos he,hs⟩
  · rw [if_neg he]
    exact hr he

theorem Counted.step (hs : Counted s []) {call : Call} (hl : s.legal call = true)
    (hsa : s.safe call = true) : ∃ s', s.step call = some s' ∧ Counted s' [] := by
  cases call with
  | sharedNull owner => exact ⟨_,rfl,hs.addHandle rfl hl⟩
  | sharedRaw ptr owner => exact ⟨_,rfl,hs.constructOwner hl ptr false⟩
  | makeShared obj owner => exact ⟨_,rfl,hs.constructOwner hl obj true⟩
  | sharedCopy | sharedAlias => exact hs.constructCopy hl fun _ => rfl
  | sharedMove | sharedAliasMove | weakMove | weakMoveConvert => exact hs.constructMove hl
  | sharedAssign i j =>
    refine hs.unlessSelf fun he => hs.assignCopy hl he ?_ fun _ => rfl
    simpa [safe,he] using hsa
  | sharedAssignMove i j =>
    refine hs.unlessSelf fun he => hs.assignMove hl he ?_
    simpa [safe,he] using hsa
  | sharedAssignNull i => exact hs.assignNull hl hsa
  | weakNull owner => exact ⟨_,rfl,hs.addHandle rfl hl⟩
  | weakCopy | weakCopyConvert | weakFromShared => exact hs.constructCopy hl (by simp)
  | weakAssign i j =>
    exact hs.unlessSelf fun he => hs.assignCopy hl he (outlives_of_legal hl) (by simp)
  | weakAssignMove i j =>
    exact hs.unlessSelf fun he => hs.assignMove hl he (outlives_of_legal hl)
  | weakAssignShared i j =>
    have hn : i ≠ j := by
      rintro rfl
      obtain ⟨target,hi,ht,hj⟩ := has_and hl
      simp [has,hi,ht] at hj
    exact hs.assignCopy hl hn (outlives_of_legal hl) fun _ => rfl
  | weakAssignConvert i j =>
    obtain ⟨hb,hn⟩ := Bool.and_eq_true_iff.mp hl
    exact hs.assignConvert hb (of_decide_eq_true hn) (outlives_of_legal hb) hsa
  | weakAssignMoveConvert i j =>
    obtain ⟨hb,hn⟩ := Bool.and_eq_true_iff.mp hl
    exact hs.assignMove hb (of_decide_eq_true hn) (outlives_of_legal hb)
  | weakReset i =>
    have hb : (s.has .weak i && s.has .weak i) = true := (Bool.and_self _).trans hl
    exact hs.assignNull hl (outlives_of_legal hb)
  | weakLock j owner => exact hs.lock hl
  | destroy i =>
    obtain ⟨h,hi⟩ := isSome_iff_exists.mp hl
    exact hs.destroy hi

theorem counted_initial : Counted initial [] where
  strong := fun _ => rfl
  held := fun _ => rfl
  kept := fun _ _ hb => by cases hb
  history := fun _ hb => absurd hb (Nat.not_lt_zero _)
  unused := fun _ he => absurd he not_mem_nil
  owners := fun _ _ _ hi _ => by cases hi
  jobs := fun _ hi => absurd hi not_mem_nil
  once := fun _ => Nat.zero_le _

def Started (s : State) : Prop := s = initial

/-- Programs that use handles within their lifetime and make only safe calls. -/
def Programs (s : State) : Prop := Reachable Started step (fun s call _ => s.legal call = true ∧ s.safe call = true) s

theorem counted_of_programs (h : Programs s) : Counted s [] := by
  have hst : ∀ s, Started s → Counted s [] := by
    rintro s rfl
    exact counted_initial
  have hc := invariant_of_taken hst (fun s call s' hs hg => hs.step hg.1 hg.2) h
  exact hc

/-- The counts of every control block are the numbers of its handles, its object is destroyed once
when the last `shared_ptr` goes, the block is deleted once after the last handle goes, and the next
call returns. -/
theorem shared_pointers_counted (h : Programs s) : (∀ b block, s.block? b = some block →
      block.refCount = s.count strong b ∧ block.weakCount = s.count ctrl b) ∧
    (∀ b < s.blocks.length, (s.block? b = none ↔ s.count ctrl b = 0) ∧
      ∃ joint, s.history b = if s.count strong b ≠ 0 then []
        else if s.count ctrl b ≠ 0 then [.destroy b !joint]
        else [.destroy b !joint,.free b joint]) ∧
    ∀ call, s.legal call = true → s.safe call = true → ∃ s', s.step call = some s' := by
  have hs := counted_of_programs h
  have hg : ∀ b, s.block? b = none ↔ s.count ctrl b = 0 := by
    intro b
    have hh := hs.held b
    rw [Job.count_nil,Nat.add_zero] at hh
    rw [← hh,weakCount]
    cases hbl : s.block? b with
    | none => simp
    | some block => simpa using Nat.ne_of_gt (hs.kept b block hbl)
  refine ⟨fun b block hbl => ?_,fun b hb => ⟨hg b,?_⟩,fun call hl hsa => ?_⟩
  · rw [← refCount_eq hbl,← weakCount_eq hbl]
    exact ⟨hs.strong b,hs.held b⟩
  · obtain ⟨joint,hj⟩ := hs.history b hb
    have hr := hs.strong b
    have hle := count_strong_le s b
    refine ⟨joint,?_⟩
    rw [hj.events,hr]
    by_cases hst : s.count strong b = 0
    · by_cases hc : s.count ctrl b = 0
      · simp [hst,hc,(hg b).mpr hc]
      · simp [hst,hc,hg b]
    · have hc : s.count ctrl b ≠ 0 := by omega
      simp [hst,hc,hg b]
  · obtain ⟨s',hste,-⟩ := hs.step hl hsa
    exact ⟨s',hste⟩

theorem shared_pointers_counted_objects :
    ∃ s, Programs s ∧ s.count strong 2 = 1 ∧ s.count ctrl 2 = 2 ∧
      (∀ block, s.block? 2 = some block → block.refCount = 1 ∧ block.weakCount = 2) ∧
      s.block? 0 = none ∧ ∃ s', s.step (.destroy 1) = some s' := by
  -- two objects that share a third, with a weak pointer to it in one of them
  obtain ⟨s,hr,hst,hct,hg,hl⟩ : ∃ s, Programs s ∧
      s.count strong 2 = 1 ∧ s.count ctrl 2 = 2 ∧ s.block? 0 = none ∧
        s.legal (.destroy 1) :=
    exists_checked (s := initial) rfl (fun s call => s.legal call && s.safe call)
      (fun _ _ _ h => Bool.and_eq_true_iff.mp h)
      [.makeShared 16 none,.makeShared 32 none,.sharedRaw 48 none,.sharedCopy 2 (some 0),
        .sharedAlias 2 49 (some 1),.weakFromShared 2 (some 1),.sharedAssign 2 0,.destroy 0,
        .sharedAssignNull 2] (by decide +kernel)
  obtain ⟨hc,-,hn⟩ := shared_pointers_counted hr
  refine ⟨s,hr,hst,hct,fun block hb => ?_,hg,hn _ hl rfl⟩
  obtain ⟨hre,hw⟩ := hc 2 block hb
  exact ⟨hre.trans hst,hw.trans hct⟩

/-- A `weak_ptr` assigned from one of another type is not counted, and its control block is deleted
while there is a handle. To assign to a list its own next element releases that element first. -/
theorem weak_assignment_not_counted :
    (∃ s, Reachable Started step (fun s call _ => s.legal call = true) s ∧
      ((s.block? 0).map ControlBlock.weakCount = some 2 ∧ s.count ctrl 0 = 3)) ∧
    (∃ s, Reachable Started step (fun s call _ => s.legal call = true) s ∧
      (s.block? 0 = none ∧ s.count ctrl 0 = 1 ∧ s.legal (.destroy 1) = true ∧
        s.step (.destroy 1) = none)) ∧
    ∃ s, Reachable Started step (fun s call _ => s.legal call = true) s ∧
      (s.legal (.sharedAssign 0 2) = true ∧ s.step (.sharedAssign 0 2) = none) := by
  have hst : Started initial := rfl
  refine ⟨?_,?_,?_⟩
  · exact exists_checked hst (fun s call => s.legal call) (fun _ _ _ h => h)
      [.makeShared 16 none,.weakFromShared 0 none,.weakNull none,.weakAssignConvert 2 1]
      (by decide +kernel)
  · exact exists_checked hst (fun s call => s.legal call) (fun _ _ _ h => h)
      [.makeShared 16 none,.weakFromShared 0 none,.weakNull none,.weakAssignConvert 2 1,
        .destroy 2,.destroy 0] (by decide +kernel)
  exact exists_checked hst (fun s call => s.legal call) (fun _ _ _ h => h)
    [.makeShared 16 none,.makeShared 32 none,.sharedMove 1 (some 0),.destroy 1]
    (by decide +kernel)
end State
end LensorOS.Pointers
