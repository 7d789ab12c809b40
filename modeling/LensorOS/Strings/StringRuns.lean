import LensorOS.Strings.ValueSemantics

/-!
# Programs with strings

Two operations break the values of strings: an assignment that copies a large string, and an append
to a copy whose buffer is smaller than its capacity.
-/
namespace LensorOS.Strings
open Framework Option Function
inductive Op
  | construct (i : Nat)
  | constructChar (i : Nat) (c : BitVec 8)
  | constructView (i : Nat) (chars : List (BitVec 8)) (p : Nat)
  | copy (i j p : Nat)
  | move (i j : Nat)
  | copyAssign (i j : Nat)
  | moveAssign (i j : Nat)
  | append (i : Nat) (chars : List (BitVec 8)) (p : Nat)
  | reserve (i n p : Nat)
  | shrinkToFit (i p : Nat)
  | clear (i : Nat)
  | erase (i pos n : Nat)
  | destroy (i : Nat)
  | fork (newProcess original : Paths)

/-- There is room for more characters: in the object or the buffer, or in the buffer that replaces
it. -/
def Repr.RoomFor (blocks : List (Nat × Nat)) (n : Nat) : Repr → Prop
  | small _ remCap => n ≤ remCap ∨ maxCharsSmall-remCap+n < 2^22
  | large data sz cap =>
    if sz+n < cap then ∃ x ∈ blocks, x.1 = data ∧ sz+n+1 ≤ x.2 else sz+n < 2^22

instance (blocks : List (Nat × Nat)) (n : Nat) (r : Repr) : Decidable (r.RoomFor blocks n) :=
  match r with
  | .small _ _ => inferInstanceAs (Decidable (_ ∨ _))
  | .large data sz cap => inferInstanceAs (Decidable
      (if sz+n < cap then ∃ x ∈ blocks, x.1 = data ∧ sz+n+1 ≤ x.2 else sz+n < 2^22))

namespace Store
def step (s : Store) : Op → Option Store
  | .construct i => s.construct i
  | .constructChar i c => s.constructChar i c
  | .constructView i chars p => s.constructView i chars p
  | .copy i j p => s.copy i j p
  | .move i j => s.move i j
  | .copyAssign i j => s.copyAssign i j
  | .moveAssign i j => s.moveAssign i j
  | .append i chars p => s.append i chars p
  | .reserve i n p => s.reserve i n p
  | .shrinkToFit i p => s.shrinkToFit i p
  | .clear i => s.clear i
  | .erase i pos n => s.erase i pos n
  | .destroy i => s.destroy i
  | .fork newProcess original => s.copyUserspaceProcess newProcess original

def effect (v : Nat → Option (List (BitVec 8))) : Op → Nat → Option (List (BitVec 8))
  | .construct i | .clear i => update v i (some [])
  | .constructChar i c => update v i (some [c])
  | .constructView i chars _ => update v i (some chars)
  | .copy i j _ | .copyAssign i j => update v i (v j)
  | .move i j | .moveAssign i j => update (update v i (v j)) j (some [])
  | .append i chars _ => update v i ((v i).map (· ++ chars))
  | .reserve _ _ _ | .shrinkToFit _ _ => v
  | .erase i pos n => update v i ((v i).map (erased pos n))
  | .destroy i => update v i none
  | .fork newProcess original =>
    let v := update v newProcess.executablePath (v original.executablePath)
    update v newProcess.workingDirectory (v original.workingDirectory)

def alive (s : Store) : Op → Bool
  | .construct i | .constructChar i _ | .constructView i _ _ => (s.objects i).isNone
  | .copy i j _ | .move i j => (s.objects i).isNone && (s.objects j).isSome
  | .copyAssign i j | .moveAssign i j => (s.objects i).isSome && (s.objects j).isSome
  | .append i _ _ | .reserve i _ _ | .shrinkToFit i _ | .clear i | .erase i _ _ | .destroy i =>
    (s.objects i).isSome
  | .fork newProcess original =>
    ((s.objects newProcess.executablePath).isSome &&
      (s.objects newProcess.workingDirectory).isSome) &&
    ((s.objects original.executablePath).isSome && (s.objects original.workingDirectory).isSome)

/-- The buffer that an operation gets from the allocator, with the length it asks for. -/
def request (s : Store) : Op → Option (Nat × Nat)
  | .constructView _ chars p =>
    if chars.length > maxCharsSmall then some (p,chars.length+1) else none
  | .copy _ j p =>
    match s.objects j with
    | some (.large _ sz _) => some (p,sz+1)
    | _ => none
  | .append i chars p =>
    match s.objects i with
    | some (.small _ remCap) =>
      if chars.length ≤ remCap then none
      else some (p, newSize (maxCharsSmall-remCap+chars.length))
    | some (.large _ sz cap) =>
      if sz+chars.length < cap then none else some (p, newSize (sz+chars.length))
    | none => none
  | .reserve i n p =>
    match s.objects i with
    | some r => if n ≤ r.capacity then none else some (p, newSize (r.size+n))
    | none => none
  | .shrinkToFit i p =>
    match s.objects i with
    | some (.large _ sz cap) => if sz+1 = cap then none else some (p,sz+1)
    | _ => none
  | _ => none

def Served (s : Store) (op : Op) : Prop := ∀ x ∈ s.request op, s.Fresh x.1 x.2

instance (s : Store) (op : Op) : Decidable (s.Served op) :=
  inferInstanceAs (Decidable (∀ x ∈ s.request op, s.Fresh x.1 x.2))

/-- Copy assignments are from small strings, appends to a large string have room in its buffer, and
buffers are replaced below `2^22` characters. -/
def Careful (s : Store) : Op → Prop
  | .copyAssign _ j => s.own j = none
  | .fork _ original =>
    s.own original.executablePath = none ∧ s.own original.workingDirectory = none
  | .append i chars _ => ∀ r ∈ s.objects i, r.RoomFor s.blocks chars.length
  | .reserve i n _ => ∀ r ∈ s.objects i, n ≤ r.capacity ∨ r.size+n < 2^22
  | _ => True

instance (s : Store) (op : Op) : Decidable (s.Careful op) := match op with
  | .copyAssign _ j => inferInstanceAs (Decidable (s.own j = none))
  | .fork _ _ => inferInstanceAs (Decidable (_ ∧ _))
  | .append i chars _ =>
    inferInstanceAs (Decidable (∀ r ∈ s.objects i, r.RoomFor s.blocks chars.length))
  | .reserve i n _ =>
    inferInstanceAs (Decidable (∀ r ∈ s.objects i, n ≤ r.capacity ∨ r.size+n < 2^22))
  | .construct _ | .constructChar _ _ | .constructView _ _ _ | .copy _ _ _ | .move _ _
  | .moveAssign _ _ | .shrinkToFit _ _ | .clear _ | .erase _ _ _ | .destroy _ =>
    inferInstanceAs (Decidable True)

def Legal (s : Store) (op : Op) (_ : Store) : Prop := s.alive op ∧ s.Served op

def LegalCareful (s : Store) (op : Op) (_ : Store) : Prop := (s.alive op ∧ s.Served op) ∧ s.Careful op

instance (s : Store) (op : Op) (s' : Store) : Decidable (Legal s op s') :=
  inferInstanceAs (Decidable (_ ∧ _))

instance (s : Store) (op : Op) (s' : Store) : Decidable (LegalCareful s op s') :=
  inferInstanceAs (Decidable ((_ ∧ _) ∧ _))

variable {s : Store} {op : Op} {i p n : Nat} {chars : List (BitVec 8)}
theorem Owned.append_yields (h : s.Owned) (hi : (s.objects i).isSome)
    (hs : s.Served (.append i chars p)) (hc : s.Careful (.append i chars p)) :
    Yields (s.append i chars p) (update s.contents i ((s.contents i).map (· ++ chars))) := by
  obtain ⟨r,hr⟩ := isSome_iff_exists.mp hi
  have hro := hc r hr
  cases r with
  | small data remCap =>
    refine h.append_small_yields hr fun hf => ⟨hro.resolve_left hf,?_⟩
    refine hs (p, newSize (maxCharsSmall-remCap+chars.length)) ?_
    rw [request,hr]
    exact if_neg hf
  | large data sz cap =>
    refine h.append_large_yields hr ?_
    dsimp only [Repr.RoomFor] at hro
    by_cases hf : sz+chars.length < cap
    · rw [if_pos hf] at hro ⊢
      exact hro
    rw [if_neg hf] at hro ⊢
    refine ⟨hro,hs (p, newSize (sz+chars.length)) ?_⟩
    rw [request,hr]
    exact if_neg hf

theorem copyAssign_own {j : Nat} {s' : Store} (h : s.copyAssign i j = some s') : s'.own = update s.own i (s.own j) := by
  obtain ⟨s1,hre,hm⟩ := bind_eq_some_iff.mp h
  obtain ⟨r,hr,rfl⟩ := map_eq_some_iff.mp hm
  have ho : s1.objects = s.objects := by
    unfold release delete at hre
    split at hre
    · obtain ⟨-,hd⟩ := ite_none_right_eq_some.mp hre
      rw [← some.inj hd]
    · rw [some.inj hre]
  have how : s1.own = s.own := by
    funext k
    rw [own,own,ho]
  rw [ho] at hr
  rw [own_put,how,own,hr]
  rfl

theorem Owned.fork_yields (h : s.Owned) (newProcess original : Paths)
    (he : (s.objects original.executablePath).isSome)
    (hd : (s.objects original.workingDirectory).isSome)
    (hc : s.Careful (.fork newProcess original)) :
    Yields (s.copyUserspaceProcess newProcess original)
      (effect s.contents (.fork newProcess original)) := by
  obtain ⟨r,hr⟩ := isSome_iff_exists.mp he
  obtain ⟨s1,ha,ho,hco⟩ := h.copyAssign_yields newProcess.executablePath hr hc.1
  have hs : s1.own original.workingDirectory = none := by
    rw [copyAssign_own ha]
    by_cases hsa : original.workingDirectory = newProcess.executablePath
    · rw [hsa,update_self,hc.1]
    · rw [update_of_ne hsa,hc.2]
  have hso : (s1.contents original.workingDirectory).isSome := by
    rw [hco]
    by_cases hsa : original.workingDirectory = newProcess.executablePath
    · rw [hsa,update_self,contents,isSome_map]
      exact he
    · rw [update_of_ne hsa,contents,isSome_map]
      exact hd
  rw [contents,isSome_map] at hso
  obtain ⟨r',hr'⟩ := isSome_iff_exists.mp hso
  obtain ⟨s2,ha',ho',hc'⟩ := ho.copyAssign_yields newProcess.workingDirectory hr' hs
  refine ⟨s2,?_,ho',?_⟩
  · rw [copyUserspaceProcess,ha,bind_some,ha']
  · rw [hc',hco]
    rfl

theorem Owned.step_yields (h : s.Owned) (hl : LegalCareful s op s) : Yields (s.step op) (effect s.contents op) := by
  obtain ⟨⟨ha,hs⟩,hc⟩ := hl
  cases op with
  | construct i => exact h.construct_yields (isNone_iff_eq_none.mp ha)
  | constructChar i c => exact h.constructChar_yields (isNone_iff_eq_none.mp ha) c
  | constructView i chars p =>
    refine h.constructView_yields (isNone_iff_eq_none.mp ha) fun hla => ?_
    exact hs _ (if_pos hla)
  | copy i j p =>
    obtain ⟨hi,hj⟩ := Bool.and_eq_true_iff.mp ha
    obtain ⟨r,hr⟩ := isSome_iff_exists.mp hj
    refine h.copy_yields (isNone_iff_eq_none.mp hi) hr ?_
    rintro data sz cap rfl
    refine hs (p,sz+1) ?_
    rw [request,hr]
    rfl
  | move i j =>
    obtain ⟨hi,hj⟩ := Bool.and_eq_true_iff.mp ha
    obtain ⟨r,hr⟩ := isSome_iff_exists.mp hj
    exact h.move_yields (isNone_iff_eq_none.mp hi) hr
  | copyAssign i j =>
    obtain ⟨-,hj⟩ := Bool.and_eq_true_iff.mp ha
    obtain ⟨r,hr⟩ := isSome_iff_exists.mp hj
    exact h.copyAssign_yields i hr hc
  | moveAssign i j =>
    obtain ⟨-,hj⟩ := Bool.and_eq_true_iff.mp ha
    obtain ⟨r,hr⟩ := isSome_iff_exists.mp hj
    exact h.moveAssign_yields i hr
  | append i chars p => exact h.append_yields ha hs hc
  | reserve i n p =>
    obtain ⟨r,hr⟩ := isSome_iff_exists.mp ha
    refine h.reserve_yields hr fun hf => ⟨(hc r hr).resolve_left hf,?_⟩
    refine hs (p, newSize (r.size+n)) ?_
    rw [request,hr]
    exact if_neg hf
  | shrinkToFit i p =>
    obtain ⟨r,hr⟩ := isSome_iff_exists.mp ha
    refine h.shrinkToFit_yields hr ?_
    rintro data sz cap rfl hf
    refine hs (p,sz+1) ?_
    rw [request,hr]
    exact if_neg hf
  | clear i =>
    obtain ⟨r,hr⟩ := isSome_iff_exists.mp ha
    exact h.clear_yields hr
  | erase i pos n =>
    obtain ⟨r,hr⟩ := isSome_iff_exists.mp ha
    exact h.erase_yields hr pos n
  | destroy i => exact h.destroy_yields i
  | fork newProcess original =>
    obtain ⟨-,ho⟩ := Bool.and_eq_true_iff.mp ha
    obtain ⟨he,hd⟩ := Bool.and_eq_true_iff.mp ho
    exact h.fork_yields newProcess original he hd hc

def Started (s : Store) : Prop := s.objects = (fun _ => none) ∧ s.blocks = []

theorem Started.owned (h : s.Started) : s.Owned := by
  obtain ⟨ho,hb⟩ := h
  have how : ∀ i, s.own i = none := fun i => own_of_objects (congrFun ho i)
  refine ⟨⟨?_,?_,?_,?_,?_⟩,fun i r hi => ?_⟩
  · exact fun i a hi => absurd ((how i).symm.trans hi) (by simp)
  · exact fun i j a hi => absurd ((how i).symm.trans hi) (by simp)
  · exact fun x hx => absurd (hb ▸ hx) List.not_mem_nil
  · exact fun x hx => absurd (hb ▸ hx) List.not_mem_nil
  · exact fun x hx => absurd (hb ▸ hx) List.not_mem_nil
  · rw [ho] at hi
    cases hi

theorem owned_of_run (h : Reachable Started step LegalCareful s) : s.Owned := by
  refine h.invariant_of_taken (fun _ => Started.owned) fun s op s' hs hl => ?_
  obtain ⟨s'',hst,ho,-⟩ := hs.step_yields hl
  exact ⟨s'',hst,ho⟩

/-- Every buffer belongs to one string, every large string has a buffer with room for it, and the
next operation returns with its effect on the characters and no other. -/
theorem strings_are_values (h : Reachable Started step LegalCareful s) :
    s.Owned ∧ ∀ op s', LegalCareful s op s' →
      ∃ s'', s.step op = some s'' ∧ s''.contents = effect s.contents op := by
  have ho := owned_of_run h
  refine ⟨ho,fun op s' hl => ?_⟩
  obtain ⟨s'',hs,-,hc⟩ := ho.step_yields hl
  exact ⟨s'',hs,hc⟩

/-- Copies, moves, assignments and edits of small and large strings. -/
theorem strings_are_values_three : ∃ s, Reachable Started step LegalCareful s ∧
    s.contents 1 = some (List.replicate 24 65) ∧ s.contents 2 = some [66] ∧ s.own 1 = some 0x2000 ∧
      s.Owned ∧ ∃ s', s.step (.destroy 1) = some s' ∧ s'.contents = update s.contents 1 none := by
  obtain ⟨s,hr,hon,ht,how,ha⟩ : ∃ s, Reachable Started step LegalCareful s ∧
      s.contents 1 = some (List.replicate 24 65) ∧ s.contents 2 = some [66] ∧
        s.own 1 = some 0x2000 ∧ s.alive (.destroy 1) :=
    Reachable.exists_checked (s := ⟨fun _ => 0,fun _ => none,[]⟩) ⟨rfl,rfl⟩
      (fun s op => LegalCareful s op s) (fun _ _ _ h => of_decide_eq_true h)
      [.constructView 0 (List.replicate 24 65) 0x1000,.construct 3,.copy 1 0 0x2000,
        .append 0 [67] 0x4000,.constructChar 2 66,.moveAssign 3 0,.erase 3 0 5,
        .copyAssign 0 2,.destroy 3] (by decide +kernel)
  obtain ⟨ho,hn⟩ := strings_are_values hr
  have hl : LegalCareful s (.destroy 1) s := ⟨⟨ha,fun x hx => (not_mem_none x hx).elim⟩,trivial⟩
  exact ⟨s,hr,hon,ht,how,ho,hn _ s hl⟩

/-- After a fork with a path of 24 characters two strings have one buffer, which is deleted twice.
An append to the copy of a string that had grown changes a string next to it. -/
theorem shared_and_short_buffers :
    (∃ s, Reachable Started step Legal s ∧ s.own 0 = some 0x1000 ∧ s.own 2 = some 0x1000 ∧
      ((s.step (.destroy 2)).bind fun s => s.step (.destroy 0)) = none) ∧
    ∃ s, Reachable Started step Legal s ∧ Legal s (.append 1 (List.replicate 10 67) 0) s ∧
      ∃ s', s.step (.append 1 (List.replicate 10 67) 0) = some s' ∧
        s'.contents 2 ≠ s.contents 2 := by
  have hs : Started ⟨fun _ => 0,fun _ => none,[]⟩ := ⟨rfl,rfl⟩
  have hg : ∀ (s : Store) (op : Op) (s' : Store),
      decide (Legal s op s) = true → Legal s op s' := fun _ _ _ h => of_decide_eq_true h
  constructor
  · exact Reachable.exists_checked hs (fun s op => Legal s op s) hg
      [.constructView 0 (List.replicate 24 47) 0x1000,.constructChar 1 47,.construct 2,
        .construct 3,.fork ⟨2,3⟩ ⟨0,1⟩] (by decide +kernel)
  obtain ⟨s,hr,hl,hst⟩ : ∃ s, Reachable Started step Legal s ∧
      Legal s (.append 1 (List.replicate 10 67) 0) s ∧
        ((s.step (.append 1 (List.replicate 10 67) 0)).any fun s' =>
          decide (s'.contents 2 ≠ s.contents 2)) = true :=
    Reachable.exists_checked hs (fun s op => Legal s op s) hg
      [.constructView 0 (List.replicate 24 65) 0x1000,.append 0 [65] 0x2000,.copy 1 0 0x5000,
        .constructView 2 (List.replicate 24 66) 0x501a] (by decide +kernel)
  obtain ⟨s',hs',hn⟩ := (any_eq_true _ _).mp hst
  exact ⟨s,hr,hl,s',hs',of_decide_eq_true hn⟩
end Store
end LensorOS.Strings
