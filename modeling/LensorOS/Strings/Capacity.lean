import LensorOS.Strings.StringRuns

/-!
# Capacity of strings

A string has a buffer of its capacity until it is copied: the copy has the capacity of the original,
and a buffer for its characters.
-/
namespace LensorOS.Strings
open Framework Option Function
/-- A small string, one with the buffer and the capacity of a string before, or one with a new
buffer of its capacity. -/
def Repr.From (s : Store) (q : Option (Nat × Nat)) : Repr → Prop
  | small _ _ => True
  | large data _ cap => (∃ j sz, s.objects j = some (.large data sz cap)) ∨
      ∃ n, q = some (data,n) ∧ cap ≤ n

namespace Store
/-- Where the buffers and the strings after an operation are from. -/
structure Traces (s : Store) (q : Option (Nat × Nat)) (s' : Store) : Prop where
  blocks : ∀ x ∈ s'.blocks, x ∈ s.blocks ∨ q = some x
  objects : ∀ i r, s'.objects i = some r → r.From s q

variable {s s' s1 : Store} {op : Op} {i j p n : Nat} {chars : List (BitVec 8)} {r : Repr} {m : Bytes}
  {q : Option (Nat × Nat)}
theorem from_self (h : s.objects i = some r) : r.From s q := by
  cases r with
  | small => trivial
  | large data sz cap => exact .inl ⟨i,sz,h⟩

theorem traces_self : s.Traces q s := ⟨fun _ => .inl,fun _ _ => from_self⟩

theorem Traces.put (h : s.Traces q s') (hr : r.From s q) (i : Nat) :
    s.Traces q (s'.put i r) := by
  refine ⟨h.blocks,fun k r' hk => ?_⟩
  by_cases he : k = i
  · subst he
    rw [Store.put] at hk
    simp only [update_self,some.injEq] at hk
    exact hk ▸ hr
  · exact h.objects k r' ((objects_put_ne he).symm.trans hk)

theorem traces_small {data : Bytes} {remCap : Nat} (hs : some (s.put i (.small data remCap)) = some s') :
    s.Traces q s' :=
  some.inj hs ▸ traces_self.put (r := .small data remCap) trivial i

theorem traces_of (ho : s'.objects = s.objects) (hb : ∀ x ∈ s'.blocks, x ∈ s.blocks ∨ q = some x) :
    s.Traces q s' := ⟨hb,fun _ _ hi => from_self (ho ▸ hi)⟩

theorem traces_same {data sz sz' cap : Nat} (hi : s.objects i = some (.large data sz cap))
    (hs : some ((s.write m).put i (.large data sz' cap)) = some s') : s.Traces q s' := by
  cases hs
  have h : s.Traces q (s.write m) := traces_of rfl fun _ => .inl
  exact h.put (r := .large data sz' cap) (.inl ⟨i,sz,hi⟩) i

theorem traces_new {f : Store → Bytes} {sz cap : Nat} (hc : cap ≤ n)
    (hs : ((s.alloc p n).map fun s => (s.write (f s)).put i (.large p sz cap)) = some s') :
    s.Traces (some (p,n)) s' := by
  obtain ⟨s1,ha,rfl⟩ := map_eq_some_iff.mp hs
  obtain ⟨-,ha⟩ := ite_none_right_eq_some.mp ha
  cases ha
  have h (m) : s.Traces (some (p,n)) (write { s with blocks := (p,n) :: s.blocks } m) := by
    refine traces_of rfl fun x hx => ?_
    rcases List.mem_cons.mp hx with rfl | hx
    · exact .inr rfl
    · exact .inl hx
  exact (h _).put (r := .large p sz cap) (.inr ⟨n,rfl,hc⟩) i

theorem traces_instead {f : Store → Bytes} {data sz cap : Nat} (hc : cap ≤ n)
    (hs : ((s.alloc p n).bind fun s => ((s.write (f s)).delete data).map fun s =>
      s.put i (.large p sz cap)) = some s') : s.Traces (some (p,n)) s' := by
  obtain ⟨s1,ha,hs⟩ := bind_eq_some_iff.mp hs
  obtain ⟨s2,hd,rfl⟩ := map_eq_some_iff.mp hs
  obtain ⟨-,hd⟩ := ite_none_right_eq_some.mp hd
  cases hd
  have h : s.Traces (some (p,n)) ((s1.write (f s1)).put i (.large p sz cap)) :=
    traces_new hc (by rw [ha]; rfl)
  exact ⟨fun x hx => h.blocks x (List.mem_of_mem_filter hx),h.objects⟩

/-- Copies are of strings that fill their capacity, copy assignments from small strings, and strings
have less than `2^22` characters. -/
def Rounded (s : Store) (op : Op) (_ : Store) : Prop := (s.alive op ∧ s.Served op) ∧ match op with
  | .copy _ j _ => s.own j = none ∨ ∀ r ∈ s.objects j, r.capacity ≤ r.size+1
  | .copyAssign _ j => s.own j = none
  | .append i chars _ => ∀ r ∈ s.objects i, r.size+chars.length < 2^22
  | .reserve i n _ => ∀ r ∈ s.objects i, r.size+n < 2^22
  | .move _ _ | .moveAssign _ _ | .destroy _ | .fork _ _ => False
  | _ => True

theorem step_traces (hg : s.Rounded op s') (hs : s.step op = some s') : s.Traces (s.request op) s' := by
  obtain ⟨⟨ha,-⟩,hg⟩ := hg
  cases op with
  | construct i | constructChar i c => exact traces_small hs
  | constructView i chars p =>
    simp only [step,constructView,request] at hs ⊢
    by_cases hl : chars.length > maxCharsSmall
    · rw [if_pos hl] at hs ⊢
      exact traces_new (by omega) hs
    · rw [if_neg hl] at hs
      exact traces_small hs
  | copy i j p =>
    obtain ⟨r,hj⟩ := isSome_iff_exists.mp (Bool.and_eq_true_iff.mp ha).2
    simp only [step,copy,request,hj] at hs ⊢
    cases r with
    | small data remCap => exact traces_small hs
    | large data sz cap =>
      have ho : s.own j ≠ none := by simp [own_of_large hj]
      exact traces_new (hg.resolve_left ho _ hj) hs
  | copyAssign i j =>
    obtain ⟨s1,hre,hs⟩ := bind_eq_some_iff.mp hs
    obtain ⟨r,hr,rfl⟩ := map_eq_some_iff.mp hs
    have h : s.Traces none s1 := by
      unfold release at hre
      split at hre
      · obtain ⟨-,hd⟩ := ite_none_right_eq_some.mp hre
        rw [← some.inj hd]
        exact traces_of rfl fun x hx => .inl (List.mem_of_mem_filter hx)
      · exact some.inj hre ▸ traces_self
    exact h.put (h.objects j r hr) i
  | append i chars p =>
    obtain ⟨r,hi⟩ := isSome_iff_exists.mp ha
    simp only [step,append,request,hi] at hs ⊢
    cases r with
    | small data remCap =>
      dsimp only at hs ⊢
      by_cases hf : chars.length ≤ remCap
      · rw [if_pos hf] at hs
        exact traces_small hs
      · rw [if_neg hf] at hs ⊢
        exact traces_new (by omega) hs
    | large data sz cap =>
      dsimp only at hs ⊢
      by_cases hf : sz+chars.length < cap
      · rw [if_pos hf] at hs
        exact traces_same hi hs
      · rw [if_neg hf] at hs ⊢
        exact traces_instead (by omega) hs
  | reserve i n p =>
    obtain ⟨r,hi⟩ := isSome_iff_exists.mp ha
    simp only [step,reserve,request,hi] at hs ⊢
    by_cases hf : n ≤ r.capacity
    · rw [if_pos hf] at hs
      exact some.inj hs ▸ traces_self
    rw [if_neg hf] at hs ⊢
    cases r with
    | small data remCap => exact traces_new (by omega) (map_eq_bind.trans hs)
    | large data sz cap => exact traces_instead (by omega) hs
  | shrinkToFit i p =>
    obtain ⟨r,hi⟩ := isSome_iff_exists.mp ha
    simp only [step,shrinkToFit,request,hi] at hs ⊢
    cases r with
    | small data remCap => exact some.inj hs ▸ traces_self
    | large data sz cap =>
      dsimp only at hs ⊢
      by_cases hf : sz+1 = cap
      · rw [if_pos hf] at hs
        exact some.inj hs ▸ traces_self
      · rw [if_neg hf] at hs ⊢
        exact traces_instead le_rfl hs
  | clear i =>
    obtain ⟨r,hi⟩ := isSome_iff_exists.mp ha
    simp only [step,clear,hi] at hs
    cases r with
    | small data remCap => exact traces_small hs
    | large data sz cap => exact traces_same hi hs
  | erase i pos n =>
    obtain ⟨r,hi⟩ := isSome_iff_exists.mp ha
    simp only [step,erase,hi] at hs
    by_cases hp : pos ≥ r.size
    · rw [if_pos hp] at hs
      exact some.inj hs ▸ traces_self
    rw [if_neg hp] at hs
    generalize (if n ≥ r.size ∨ pos+n ≥ r.size then r.size-pos else n) = k at hs
    cases r with
    | small data remCap =>
      dsimp only at hs
      split at hs <;> exact traces_small hs
    | large data sz cap =>
      dsimp only at hs
      split at hs <;> exact traces_same hi hs
  | move | moveAssign | destroy | fork => cases hg

/-- No buffer is shorter than the capacity of its string. -/
structure Capped (s : Store) : Prop where
  owned : s.Owned
  caps : ∀ i data sz cap n, s.objects i = some (.large data sz cap) → (data,n) ∈ s.blocks → cap ≤ n

theorem Capped.step (h : s.Capped) (hg : s.Rounded op s') (hs : s.step op = some s')
    (ho' : s'.Owned) : s'.Capped := by
  refine ⟨ho',fun i data sz cap n hi hn => ?_⟩
  have ht := step_traces hg hs
  have hf : sz+1 ≤ n := ho'.fits i _ hi n hn
  -- A new buffer does not start where another one is.
  have ha : ∀ k k', s.request op = some (data,k) → (data,k') ∈ s.blocks → k = 0 ∨ k' = 0 := by
    intro k k' hk hk'
    have := hg.1.2 _ hk _ hk'
    omega
  rcases ht.objects i _ hi with ⟨j,sz0,hj⟩ | ⟨n',hr,hl⟩
  · rcases ht.blocks _ hn with hb | hr
    · exact h.caps j data sz0 cap n hj hb
    obtain ⟨k,hk,hp⟩ := h.owned.block hj
    have := ha n k hr hk
    omega
  rcases ht.blocks _ hn with hb | hr'
  · have := ha n' n hr hb
    omega
  · obtain rfl : n' = n := by simpa [hr] using hr'
    exact hl

theorem Capped.careful (h : s.Capped) (hg : s.Rounded op s') : s.Careful op := by
  cases op with
  | append i chars p =>
    intro r hr
    have hs := hg.2 r hr
    cases r with
    | small data remCap => exact .inr hs
    | large data sz cap =>
      obtain ⟨n,hn,-⟩ := h.owned.block hr
      have hc := h.caps i data sz cap n hr hn
      dsimp [Repr.RoomFor]
      split
      next hi => exact ⟨_,hn,rfl,by dsimp only; omega⟩
      next => exact hs
  | reserve i n p => exact fun r hr => .inr (hg.2 r hr)
  | copyAssign i j => exact hg.2
  | fork => cases hg.2
  | _ => trivial

/-- Every large string has a buffer with room for its characters, a terminator and its capacity, and
a buffer grows to a power of two. -/
theorem capacity_allocated (h : Reachable Started step Rounded s) :
    (∀ i r, s.objects i = some r → match r with
      | .small _ remCap => remCap ≤ maxCharsSmall
      | .large data sz cap => ∃ n, (data,n) ∈ s.blocks ∧ sz+1 ≤ n ∧ cap ≤ n) ∧
    ∀ m < 2^22, ∃ k, newSize m = 2^k ∧ m < 2^k := by
  have hc : s.Capped := by
    refine h.invariant (fun s hs => ?_) fun s op s' hc hs hg => ?_
    · refine ⟨hs.owned,fun i data sz cap n hi => ?_⟩
      rw [hs.1] at hi
      cases hi
    obtain ⟨s'',hs'',ho,-⟩ := hc.owned.step_yields ⟨hg.1,hc.careful hg⟩
    obtain rfl : s' = s'' := some.inj (hs.symm.trans hs'')
    exact hc.step hg hs ho
  refine ⟨fun i r hi => ?_,fun m hm => ⟨_,newSize_eq hm,newSize_eq hm ▸ lt_newSize hm⟩⟩
  cases r with
  | small data remCap => exact hc.owned.small_le hi
  | large data sz cap =>
    obtain ⟨n,hn,hl⟩ := hc.owned.block hi
    exact ⟨n,hn,hl,hc.caps i data sz cap n hi hn⟩

/-- A string is copied and grows. -/
theorem capacity_allocated_grown : ∃ s, Reachable Started step Rounded s ∧ s.own 0 = some 0x3000 ∧
    s.own 1 = some 0x2000 ∧ ∃ n, (0x3000,n) ∈ s.blocks ∧ 26 ≤ n ∧ 2^13 ≤ n := by
  have h : Reachable Started step Rounded _ :=
    .next (i := .append 0 [65] 0x3000) (.next (i := .copy 1 0 0x2000)
      (.next (i := .constructView 0 (List.replicate 24 65) 0x1000)
        (.start (s := ⟨fun _ => 0,fun _ => none,[]⟩) ⟨rfl,rfl⟩) rfl ⟨⟨rfl,by decide⟩,trivial⟩)
      rfl ⟨⟨rfl,by decide⟩,.inr (by decide)⟩) rfl ⟨⟨rfl,by decide⟩,by decide⟩
  exact ⟨_,h,rfl,rfl,(capacity_allocated h).1 0 (.large 0x3000 25 (2^13)) rfl⟩

/-- The copy of a string that had grown has its capacity and a buffer of 26 characters. For more
characters the new size is negative, or one. -/
theorem copied_capacity : (∃ s, Reachable Started step Legal s ∧
    (s.objects 1).map Repr.capacity = some 8192 ∧ s.own 1 = some 0x5000 ∧ (0x5000,26) ∈ s.blocks) ∧
    newSize (2^22) = 2^64-2^31 ∧ newSize (2^23) = 1 := by
  refine ⟨?_,by decide,by decide⟩
  exact Reachable.exists_checked (s := ⟨fun _ => 0,fun _ => none,[]⟩) ⟨rfl,rfl⟩
    (fun s op => Legal s op s) (fun _ _ _ h => of_decide_eq_true h)
    [.constructView 0 (List.replicate 24 65) 0x1000,.append 0 [65] 0x2000,.copy 1 0 0x5000]
    (by decide +kernel)
end Store
end LensorOS.Strings
