import LensorOS.Memory.PageMap
import Mathlib.Data.List.Nodup

/-!
# Cloning and freeing page maps

A clone has its own table for every table of the original and the same entries in its page tables.
Freeing a page map gives back the pages of its tables.
-/
namespace LensorOS.Memory
open Framework PageDirectoryEntry List Option PhysicalMemory
/-- More pages are taken; what was on a taken page before stays. -/
structure Grows (s s' : Frames) : Prop where
  sound : s'.physical.Sound
  total : s'.physical.totalPages = s.physical.totalPages
  locked : ∀ page, s.physical.Locked page → s'.physical.Locked page
  memory : ∀ x, s.physical.Locked (x / pageSize) → s'.memory x = s.memory x

variable {path : List Nat} {q : PhysicalMemory}
section
variable {s s' s'' : Frames} {roots : List Nat} {r t j : Nat}
theorem Grows.refl (h : s.physical.Sound) : Grows s s := ⟨h,rfl,fun _ hp => hp,fun _ _ => rfl⟩

theorem Grows.trans (h : Grows s s') (h' : Grows s' s'') : Grows s s'' := by
  refine ⟨h'.sound,h'.total.trans h.total,fun p hp => h'.locked p (h.locked p hp),?_⟩
  intro x hx
  rw [h'.memory x (h.locked _ hx),h.memory x hx]

theorem page_of_mem {x : Nat} (ht : t % pageSize = 0) (hl : t ≤ x) (hh : x < t+pageSize) :
    x / pageSize = t / pageSize := by
  unfold pageSize at *
  omega

section
variable {m : Bytes} (h : PageMaps s roots) (hm : ∀ x, TablePage s roots (x / pageSize) → m x = s.memory x)
include h hm
theorem PageMaps.entry_eq (hr : r ∈ roots) (hp : Path 512 3 path)
    (ht : follow (childTable s.memory) r path = some t) (hj : j < 512) :
    entry m t j = entry s.memory t j := by
  refine entry_congr (fun x hl hh => hm x ?_) hj
  rw [page_of_mem (h.placed r hr path t hp ht).1 hl hh]
  exact ⟨r,hr,path,t,hp,ht,rfl⟩

theorem PageMaps.follow_eq (hr : r ∈ roots) (hp : Path 512 3 path) :
    follow (childTable m) r path = follow (childTable s.memory) r path := by
  refine follow_congr hp fun ρ u i hρ _ hu => ?_
  exact child_congr (h.entry_eq hm hr hρ.of_append hu (path_snoc.mp hρ).2)

theorem PageMaps.write : Keeps roots s { s with memory := m } ∧ SameTranslation roots s { s with memory := m } := by
  refine ⟨h.keeps h.sound rfl (fun r hr path hpa => h.follow_eq hm hr hpa) fun _ hp => hp,?_⟩
  intro r hr v _
  exact translate_congr (h.follow_eq hm hr (upper_path v)) fun pt hpt =>
    h.entry_eq hm hr (upper_path v) hpt (by omega)
end

theorem Grows.entry (h : Grows s s') (ht : t % pageSize = 0)
    (hl : s.physical.Locked (t / pageSize)) (hj : j < 512) :
    entry s'.memory t j = entry s.memory t j := by
  refine entry_congr (fun x hlo hh => h.memory x ?_) hj
  rw [page_of_mem ht hlo hh]
  exact hl

section
variable (h : Grows s s') (hmaps : PageMaps s roots)
include h hmaps
theorem Grows.follow (hr : r ∈ roots) (hp : Path 512 3 path) :
    follow (childTable s'.memory) r path = follow (childTable s.memory) r path := by
  refine follow_congr hp fun ρ u i hρ _ hu => ?_
  obtain ⟨ha,hl,-⟩ := hmaps.placed r hr ρ u hρ.of_append hu
  exact child_congr (h.entry ha hl (path_snoc.mp hρ).2)

theorem Grows.translate : SameTranslation roots s s' := by
  intro r hr v _
  refine translate_congr (h.follow hmaps hr (upper_path v)) fun pt hp => ?_
  obtain ⟨ha,hl,-⟩ := hmaps.placed r hr _ pt (upper_path v) hp
  exact h.entry ha hl (by omega)

theorem Grows.keeps : Keeps roots s s' :=
  hmaps.keeps h.sound h.total (fun _ hr _ hp => h.follow hmaps hr hp) h.locked
end

theorem Grows.of_granted {n page : Nat} {m : Bytes} (hq : q.Sound)
    (hg : s.physical.Granted n page q)
    (hm : ∀ x, ¬ (page ≤ x / pageSize ∧ x / pageSize < page+n) → m x = s.memory x) :
    Grows s ⟨m,q⟩ := by
  refine ⟨hq,hg.totalPages,fun _ hp => hg.locked.mpr (.inl hp),?_⟩
  intro x hx
  exact hm x fun hi => hg.clear _ hi.1 hi.2 hx

theorem Grows.of_same (hq : q.Sound) (hma : q.pageMap = s.physical.pageMap)
    (ht : q.totalPages = s.physical.totalPages) : Grows s { s with physical := q } := by
  refine ⟨hq,ht,fun page hp => ?_,fun _ _ => rfl⟩
  unfold PhysicalMemory.Locked at hp ⊢
  rw [hma]
  exact hp

theorem Grows.setEntry (h : Grows s s') (ht : t % pageSize = 0)
    (hf : ¬ s.physical.Locked (t / pageSize)) (hj : j < 512) (e : BitVec 64) :
    Grows s { s' with memory := setEntry s'.memory t j e } := by
  refine ⟨h.sound,h.total,h.locked,fun x hx => ?_⟩
  have ho : x < slot t j ∨ slot t j+8 ≤ x := by
    by_contra hi
    refine hf ?_
    rw [← page_of_mem ht (x := x) (by unfold slot at hi; omega) (by unfold slot at hi; unfold pageSize; omega)]
    exact hx
  change Bytes.write64 s'.memory (slot t j) e x = s.memory x
  rw [Bytes.write64_outside _ _ ho,h.memory x hx]
end

open Frames
/-- What is done to a new entry keeps its address and whether it is present, and does to the flags
what it would do behind another address. -/
structure Marking (mark : BitVec 64 → BitVec 64) : Prop where
  present : ∀ e, flag (mark e) .present = flag e .present
  address : ∀ e, address (mark e) = address e
  flags : ∀ e a f, flag (mark (setAddress e a)) f = flag (mark e) f

theorem marking_id : Marking id := ⟨fun _ => rfl,fun _ => rfl,fun e a f => flag_setAddress e a f⟩

/-- An entry and its clone: in a page table the marked entry, in an upper table one with the marked
flags, and the entries of the tables behind the two are again such. -/
def Mirrors (mark : BitVec 64 → BitVec 64) (m m' : Bytes) : (level : Nat) → (e e' : BitVec 64) → Prop
  | 0, e, e' => e' = if flag e .present then mark e else 0
  | level+1, e, e' => (∀ f, flag e' f = (flag e .present && flag (mark e) f)) ∧
    (flag e .present = true → ∀ j < 512,
      Mirrors mark m m' level (entry m (address e) j) (entry m' (address e') j)) ∧
    (flag e .present = false → e' = 0)

section
variable {mark : BitVec 64 → BitVec 64} {m m' m1 m1' : Bytes} {level t t' j c : Nat} {e e' : BitVec 64}
theorem follow_child (hc : childTable m t j = some c) :
    follow (childTable m) t (j :: path) = follow (childTable m) c path := by rw [follow_cons,hc,bind_some]

theorem Mirrors.absent (he : flag e .present = false) : Mirrors mark m m' level e 0 := by
  cases level with
  | zero => simp [Mirrors,he]
  | succ level =>
    exact ⟨fun f => by rw [flag_zero,he,Bool.false_and],fun hp => absurd (he.symm.trans hp) (by decide),
      fun _ => rfl⟩

theorem Mirrors.present (hmark : Marking mark) (h : Mirrors mark m m' level e e') :
    flag e' .present = flag e .present := by
  cases level with
  | zero =>
    rw [show e' = _ from h]
    split_ifs with he
    · rw [hmark.present]
    · rw [flag_zero,Bool.eq_false_of_not_eq_true he]
  | succ level => rw [h.1,hmark.present,Bool.and_self]

variable (hmark : Marking mark) (h : ∀ j < 512, Mirrors mark m m' level (entry m t j) (entry m' t' j))
include hmark h
theorem mirrors_congr
    (ho : ∀ path u, Path 512 level path → follow (childTable m) t path = some u →
      ∀ j < 512, entry m1 u j = entry m u j)
    (hn : ∀ path u, Path 512 level path → follow (childTable m') t' path = some u →
      ∀ j < 512, entry m1' u j = entry m' u j) :
    ∀ j < 512, Mirrors mark m1 m1' level (entry m1 t j) (entry m1' t' j) := by
  induction level generalizing t t' with
  | zero =>
    intro j hj
    rw [ho [] t Path.nil rfl j hj,hn [] t' Path.nil rfl j hj]
    exact h j hj
  | succ level ih =>
    intro j hj
    have hpr := (h j hj).present hmark
    rw [ho [] t Path.nil rfl j hj,hn [] t' Path.nil rfl j hj]
    refine ⟨(h j hj).1,fun hp => ih ((h j hj).2.1 hp) ?_ ?_,(h j hj).2.2⟩
    · intro path u hpa hu
      refine ho (j :: path) u (path_cons.mpr ⟨hj,hpa⟩) ?_
      rw [follow_child (child_eq_some.mpr ⟨hp,rfl⟩),hu]
    intro path u hpa hu
    refine hn (j :: path) u (path_cons.mpr ⟨hj,hpa⟩) ?_
    rw [follow_child (child_eq_some.mpr ⟨hpr.trans hp,rfl⟩),hu]

theorem mirrors_follow (hpa : Path 512 level path) :
    (∃ u u', follow (childTable m) t path = some u ∧ follow (childTable m') t' path = some u' ∧
      ∀ j < 512, Mirrors mark m m' (level-path.length) (entry m u j) (entry m' u' j)) ∨
    follow (childTable m) t path = none ∧ follow (childTable m') t' path = none := by
  induction path generalizing level t t' with
  | nil => exact .inl ⟨t,t',rfl,rfl,h⟩
  | cons i path ih =>
    obtain ⟨level,rfl⟩ := Nat.exists_eq_succ_of_ne_zero (Nat.ne_zero_of_lt hpa.1)
    obtain ⟨hi,hpa⟩ := path_cons.mp hpa
    have hpr := (h i hi).present hmark
    cases hp : flag (entry m t i) .present with
    | false =>
      rw [follow_cons,follow_cons,child_eq_none.mpr hp,child_eq_none.mpr (hpr.trans hp)]
      exact .inr ⟨rfl,rfl⟩
    | true =>
      rw [follow_child (child_eq_some.mpr ⟨hp,rfl⟩),
        follow_child (child_eq_some.mpr ⟨hpr.trans hp,rfl⟩),length_cons,
        Nat.succ_sub_succ]
      exact ih ((h i hi).2.1 hp) hpa
end

/-- The tables below `t` down to the given level are on pages in use. -/
def Held (s : Frames) (level t : Nat) : Prop :=
  ∀ path u, Path 512 level path → follow (childTable s.memory) t path = some u →
    u % pageSize = 0 ∧ s.physical.Locked (u / pageSize)

def PageBelow (m : Bytes) (level t page : Nat) : Prop :=
  ∃ path u, Path 512 level path ∧ follow (childTable m) t path = some u ∧ u / pageSize = page

/-- The tables below `new` are a tree on the pages taken since `s`. -/
structure FreshTree (s σ : Frames) (level new : Nat) : Prop where
  fresh : ∀ path t, Path 512 level path → follow (childTable σ.memory) new path = some t →
    t % pageSize = 0 ∧ ¬ s.physical.Locked (t / pageSize) ∧ σ.physical.Locked (t / pageSize) ∧
      t / pageSize < s.physical.totalPages
  unique : ∀ path path' t, Path 512 level path → Path 512 level path' →
    follow (childTable σ.memory) new path = some t →
      follow (childTable σ.memory) new path' = some t → path = path'
  taken : ∀ page, σ.physical.Locked page → s.physical.Locked page ∨ PageBelow σ.memory level new page

/-- The first `index` entries of a table are cloned, the others are still clear. -/
structure CopiedUpTo (mark : BitVec 64 → BitVec 64) (s σ : Frames) (level old new index : Nat) :
    Prop where
  grows : Grows s σ
  tree : FreshTree s σ level new
  done : ∀ j < index,
    Mirrors mark s.memory σ.memory level (entry s.memory old j) (entry σ.memory new j)
  rest : ∀ j, index ≤ j → j < 512 → entry σ.memory new j = 0

section
variable {mark : BitVec 64 → BitVec 64} {s σ σ' : Frames} {level old new index j c : Nat}
  {e : BitVec 64} {path : List Nat}
theorem path_zero (hp : Path 512 0 path) : path = [] := length_eq_zero_iff.mp (Nat.le_zero.mp hp.1)

theorem Held.child (h : Held s (level+1) old) (hj : j < 512)
    (hc : childTable s.memory old j = some c) : Held s level c := fun path u hp hu =>
  h (j :: path) u (path_cons.mpr ⟨hj,hp⟩) ((follow_child hc).trans hu)

theorem Held.here (h : Held s level old) : old % pageSize = 0 ∧ s.physical.Locked (old / pageSize) :=
  h [] old Path.nil rfl

theorem Held.follow (h : Held s level old) (hg : Grows s σ) (hp : Path 512 level path) :
    follow (childTable σ.memory) old path = follow (childTable s.memory) old path := by
  refine follow_congr hp fun ρ u i hρ _ hu => ?_
  obtain ⟨ha,hl⟩ := h ρ u hρ.of_append hu
  exact child_congr (hg.entry ha hl (hρ.2 i (by simp)))

theorem Held.grows (h : Held s level old) (hg : Grows s σ) : Held σ level old := by
  intro path u hp hu
  rw [h.follow hg hp] at hu
  obtain ⟨ha,hl⟩ := h path u hp hu
  exact ⟨ha,hg.locked _ hl⟩

theorem CopiedUpTo.skip (h : CopiedUpTo mark s σ level old new index) (hi : index < 512)
    (ha : flag (entry s.memory old index) .present = false) :
    CopiedUpTo mark s σ level old new (index+1) := by
  refine ⟨h.grows,h.tree,fun j hj => ?_,fun j hj => h.rest j (by omega)⟩
  rcases Nat.lt_succ_iff_lt_or_eq.mp hj with hl | rfl
  · exact h.done j hl
  · rw [h.rest j le_rfl hi]
    exact Mirrors.absent ha

theorem CopiedUpTo.addEntry (h : CopiedUpTo mark s σ 0 old new index) (hi : index < 512)
    (hpr : flag (entry s.memory old index) .present = true) :
    CopiedUpTo mark s
      { σ with memory := setEntry σ.memory new index (mark (entry s.memory old index)) }
      0 old new (index+1) := by
  obtain ⟨ha,hf,hta,hl⟩ := h.tree.fresh [] new Path.nil rfl
  have he : ∀ j < 512, entry (setEntry σ.memory new index (mark (entry s.memory old index))) new j =
      if j = index then mark (entry s.memory old index) else entry σ.memory new j := by
    intro j hj
    rw [entry_set ha ha hi hj]
    exact if_congr (and_iff_right rfl) rfl rfl
  refine ⟨h.grows.setEntry ha hf hi _,⟨?_,?_,?_⟩,?_,?_⟩
  · intro path t hp ht
    rw [path_zero hp] at ht
    cases ht
    exact ⟨ha,hf,hta,hl⟩
  · intro path path' t hp hp' _ _
    rw [path_zero hp,path_zero hp']
  · intro page hpa
    refine (h.tree.taken page hpa).imp_right ?_
    rintro ⟨path,u,hp,hu,hpa⟩
    rw [path_zero hp] at hu
    exact ⟨[],u,Path.nil,hu,hpa⟩
  · intro j hj
    rw [he j (by omega)]
    rcases Nat.lt_succ_iff_lt_or_eq.mp hj with hb | rfl
    · rw [if_neg hb.ne]
      exact h.done j hb
    · rw [if_pos rfl,Mirrors,if_pos hpr]
  · intro j hj hl
    rw [he j hl,if_neg (by omega),h.rest j (by omega) hl]

/-- A tree on pages that were taken later becomes an entry of the table. -/
theorem FreshTree.graft {σ'' : Frames} (h : FreshTree s σ (level+1) new) (hch : FreshTree σ σ' level c)
    (hg : Grows s σ) (hg' : Grows σ σ') (hin : index < 512) (hp : σ''.physical = σ'.physical)
    (hl : ∀ path t, Path 512 (level+1) path → (follow (childTable σ''.memory) new path = some t ↔
      follow (childTable σ.memory) new path = some t ∨
        ∃ rest, path = index :: rest ∧ follow (childTable σ'.memory) c rest = some t)) :
    FreshTree s σ'' (level+1) new := by
  have hap : ∀ path rest t, Path 512 (level+1) path → Path 512 level rest →
      follow (childTable σ.memory) new path = some t →
        follow (childTable σ'.memory) c rest ≠ some t := fun path rest t hpa hre ht ht' =>
    (hch.fresh rest t hre ht').2.1 (h.fresh path t hpa ht).2.2.1
  refine ⟨fun path t hpa ht => ?_,fun path path' t hpa hp' ht ht' => ?_,fun page hpag => ?_⟩
  · rw [hp]
    rcases (hl path t hpa).mp ht with ho | ⟨rest,rfl,hn⟩
    · obtain ⟨ht,hfr,hlo,hlt⟩ := h.fresh path t hpa ho
      exact ⟨ht,hfr,hg'.locked _ hlo,hlt⟩
    obtain ⟨ht,hfr,hlo,hlt⟩ := hch.fresh rest t (path_cons.mp hpa).2 hn
    rw [hg.total] at hlt
    exact ⟨ht,fun hp => hfr (hg.locked _ hp),hlo,hlt⟩
  · rcases (hl path t hpa).mp ht with ho | ⟨rest,rfl,hn⟩
    · rcases (hl path' t hp').mp ht' with ho' | ⟨rest',rfl,hn'⟩
      · exact h.unique path path' t hpa hp' ho ho'
      · exact absurd hn' (hap path rest' t hpa (path_cons.mp hp').2 ho)
    rcases (hl path' t hp').mp ht' with ho' | ⟨rest',rfl,hn'⟩
    · exact absurd hn (hap path' rest t hp' (path_cons.mp hpa).2 ho')
    · rw [hch.unique rest rest' t (path_cons.mp hpa).2 (path_cons.mp hp').2 hn hn']
  · rw [hp] at hpag
    rcases hch.taken page hpag with ho | ⟨rest,t,hre,ht,hpag⟩
    · refine (h.taken page ho).imp_right ?_
      rintro ⟨path,t,hpa,ht,hpag⟩
      exact ⟨path,t,hpa,(hl path t hpa).mpr (.inl ht),hpag⟩
    · have hpa := path_cons.mpr ⟨hin,hre⟩
      exact .inr ⟨index :: rest,t,hpa,(hl _ t hpa).mpr (.inr ⟨rest,rfl,ht⟩),hpag⟩

theorem CopiedUpTo.addTable (hmark : Marking mark)
    (h : CopiedUpTo mark s σ (level+1) old new index) (hh : Held s (level+1) old)
    (hin : index < 512) (hpr : flag (entry s.memory old index) .present = true)
    (hch : CopiedUpTo mark σ σ' level (address (entry s.memory old index)) c 512) :
    CopiedUpTo mark s
      { σ' with memory :=
          setEntry σ'.memory new index (mark (setAddress (entry s.memory old index) c)) }
      (level+1) old new (index+1) := by
  obtain ⟨ha,hfr,hta,-⟩ := h.tree.fresh [] new Path.nil rfl
  obtain ⟨e,he⟩ : ∃ e, e = mark (setAddress (entry s.memory old index) c) := ⟨_,rfl⟩
  obtain ⟨σ'',hσ⟩ : ∃ σ'' : Frames, σ'' = { σ' with memory := setEntry σ'.memory new index e } := ⟨_,rfl⟩
  have had : address e = c := by
    obtain ⟨hc,-,-,hlt⟩ := hch.tree.fresh [] c Path.nil rfl
    have hto := h.grows.sound.addressable
    rw [he,hmark.address,address_setAddress _ hc]
    unfold pageSize at hlt
    omega
  have hf : ∀ f, flag e f = flag (mark (entry s.memory old index)) f := by
    rw [he]
    exact hmark.flags _ _
  have hen : ∀ u j, u % pageSize = 0 → j < 512 →
      entry σ''.memory u j = if u = new ∧ j = index then e else entry σ'.memory u j := by
    intro u j hu hj
    rw [hσ]
    exact entry_set ha hu hin hj
  have hs : entry σ''.memory new index = e := by rw [hen new index ha hin,if_pos ⟨rfl,rfl⟩]
  -- the tables of the part cloned before, and of the new part
  have hb : ∀ path u, Path 512 (level+1) path → follow (childTable σ.memory) new path = some u →
      ∀ j < 512, ¬ (u = new ∧ j = index) → entry σ''.memory u j = entry σ.memory u j := by
    intro path u hpa hu j hj hne
    obtain ⟨hu,-,hlo,-⟩ := h.tree.fresh path u hpa hu
    rw [hen u j hu hj,if_neg hne,hch.grows.entry hu hlo hj]
  have haf : ∀ path u, Path 512 level path → follow (childTable σ'.memory) c path = some u →
      ∀ j < 512, entry σ''.memory u j = entry σ'.memory u j := by
    intro path u hpa hu j hj
    obtain ⟨hu,hun,-⟩ := hch.tree.fresh path u hpa hu
    rw [hen u j hu hj,if_neg]
    rintro ⟨rfl,-⟩
    exact hun hta
  have hl : ∀ path t, Path 512 (level+1) path → (follow (childTable σ''.memory) new path = some t ↔
      follow (childTable σ.memory) new path = some t ∨
        ∃ rest, path = index :: rest ∧ follow (childTable σ'.memory) c rest = some t) := by
    intro path t hpa
    by_cases hpre : [] ++ [index] <+: path
    · obtain ⟨rest,rfl⟩ := hpre
      have hsa : follow (childTable σ''.memory) c rest = follow (childTable σ'.memory) c rest :=
        follow_congr (path_cons.mp hpa).2 fun ρ u i hρ _ hu =>
          child_congr (haf ρ u hρ.of_append hu i (hρ.2 i (by simp)))
      have hli : childTable σ''.memory new index = some c := by
        rw [childTable,hs,hf,hmark.present,if_pos hpr,had]
      have hg : childTable σ.memory new index = none := by
        rw [childTable,h.rest index le_rfl hin,flag_zero,if_neg (by decide)]
      rw [nil_append,singleton_append,follow_child hli,follow_cons,hg,hsa]
      simp
    · rw [follow_away hpa (fun ρ hρ hu => h.tree.unique ρ [] new hρ Path.nil hu rfl)
        (fun ρ u i hρ hu hne => child_congr
          (hb ρ u hρ.of_append hu i (hρ.2 i (by simp)) hne)) hpre]
      refine (or_iff_left ?_).symm
      rintro ⟨rest,rfl,-⟩
      exact hpre (prefix_append _ _)
  rw [← he,← hσ]
  refine ⟨?_,h.tree.graft hch.tree h.grows hch.grows hin (by rw [hσ]) hl,?_,?_⟩
  · rw [hσ]
    exact (h.grows.trans hch.grows).setEntry ha hfr hin e
  · intro j hj
    rcases Nat.lt_succ_iff_lt_or_eq.mp hj with hlt | rfl
    · have hd := h.done j hlt
      have hj : j < 512 := hlt.trans hin
      rw [hb [] new Path.nil rfl j hj fun hc => hlt.ne hc.2]
      refine ⟨hd.1,fun hp => mirrors_congr hmark (hd.2.1 hp) (fun _ _ _ _ _ _ => rfl) ?_,hd.2.2⟩
      intro path u hpa hu i hi
      have hw := path_cons.mpr ⟨hj,hpa⟩
      rw [← follow_child (child_eq_some.mpr ⟨(hd.present hmark).trans hp,rfl⟩)] at hu
      refine hb (j :: path) u hw hu i hi fun hc => ?_
      rw [hc.1] at hu
      exact cons_ne_nil _ _ (h.tree.unique _ [] new hw Path.nil hu rfl)
    · have hbe := hh.child hin (child_eq_some.mpr ⟨hpr,rfl⟩)
      rw [hs]
      refine ⟨fun f => by rw [hpr,hf,Bool.true_and],fun _ => ?_,fun hp => absurd (hpr.symm.trans hp) (by decide)⟩
      rw [had]
      refine mirrors_congr hmark hch.done (fun path u hpa hu i hi => ?_) haf
      rw [hbe.follow h.grows hpa] at hu
      obtain ⟨hu,hlo⟩ := hbe path u hpa hu
      exact (h.grows.entry hu hlo hi).symm
  · intro j hj hlt
    rw [hb [] new Path.nil rfl j hlt (by omega),h.rest j (by omega) hlt]
end

def tableCount (m : Bytes) : (level : Nat) → (old : Nat) → Nat
  | 0, _ => 1
  | level+1, old => 1+((List.range' 0 512).map fun j =>
      ((childTable m old j).map (tableCount m level)).getD 0).sum

/-- A state on the way from `s`, with `rest` of `total` requests for a page to come. -/
def OnTheWay (s σ : Frames) (total rest : Nat) : Prop :=
  s.physical.afterRequests total = σ.physical.afterRequests rest ∧
    (total ≤ s.physical.freeCount ↔ rest ≤ σ.physical.freeCount)

section
variable {mark : BitVec 64 → BitVec 64} {s σ : Frames} {level old : Nat}
private theorem cloneEntries_rule (copy : Frames → Nat → Option (BitVec 64) × Frames)
    (old new : Nat) {P : Nat → Frames → Prop} {Q : Frames → Prop}
    (hs : ∀ i σ, i < 512 → P i σ → flag (entry σ.memory old i) .present = false → P (i+1) σ)
    (hc : ∀ i σ, i < 512 → P i σ → flag (entry σ.memory old i) .present = true →
      (∃ e σ', copy σ i = (some e,σ') ∧
        P (i+1) { σ' with memory := setEntry σ'.memory new i e }) ∨
      ∃ σ', copy σ i = (none,σ') ∧ Q σ')
    (count index : Nat) (hi : index+count = 512) (h : P index σ) :
    (∃ σ', cloneEntries copy old new count index σ = (true,σ') ∧ P 512 σ') ∨
      ∃ σ', cloneEntries copy old new count index σ = (false,σ') ∧ Q σ' := by
  induction count generalizing index σ with
  | zero =>
    obtain rfl : index = 512 := hi
    exact .inl ⟨σ,rfl,h⟩
  | succ count ih =>
    rw [cloneEntries]
    split_ifs with ha
    · exact ih (index+1) (by omega) (hs index σ (by omega) h ha)
    rw [Bool.not_eq_false] at ha
    rcases hc index σ (by omega) h ha with ⟨e,σ',hru,hn⟩ | ⟨σ',hru,hf⟩
    · rw [hru]
      exact ih (index+1) (by omega) hn
    · rw [hru]
      exact .inr ⟨σ',rfl,hf⟩

private theorem copiedUpTo_zero {page : Nat} (hq : q.Sound)
    (hg : s.physical.Granted 1 page q) (hl : page < s.physical.totalPages) :
    CopiedUpTo mark s ⟨s.memory.fill (page * pageSize) pageSize 0,q⟩ level old (page * pageSize) 0 := by
  have ha : page * pageSize % pageSize = 0 := Nat.mul_mod_left _ _
  have hc : ∀ j < 512, entry (s.memory.fill (page * pageSize) pageSize 0) (page * pageSize) j = 0 :=
    fun j hj => (entry_fill ha ha hj).trans (if_pos rfl)
  have hro : ∀ path t, Path 512 level path → follow (childTable
      (s.memory.fill (page * pageSize) pageSize 0)) (page * pageSize) path = some t →
        path = [] ∧ t = page * pageSize := by
    intro path t hp ht
    cases path with
    | nil => exact ⟨rfl,(some.inj ht).symm⟩
    | cons j path =>
      rw [follow_cons,childTable,hc j (hp.2 j mem_cons_self),flag_zero, if_neg (by decide)] at ht
      cases ht
  refine ⟨Grows.of_granted hq hg fun x hx => ?_,⟨?_,?_,?_⟩,fun j hj => absurd hj (by omega),
    fun j _ hj => hc j hj⟩
  · refine Bytes.fill_outside _ _ ?_
    unfold pageSize at *
    omega
  · intro path t hp ht
    rw [(hro path t hp ht).2,page_mul]
    exact ⟨ha,hg.clear page le_rfl (by omega),hg.locked.mpr (.inr ⟨le_rfl,by omega⟩),hl⟩
  · intro path path' t hp hp' ht ht'
    rw [(hro path t hp ht).1,(hro path' t hp' ht').1]
  intro j hj
  refine (hg.locked.mp hj).imp_right fun hi => ?_
  exact ⟨[],_,Path.nil,rfl,by rw [page_mul]; omega⟩

/-- What cloning a table comes to: a clone, with a request for each table; or memory in use left
as it was, for want of a page, and the pages taken so far. -/
def Outcome (mark : BitVec 64 → BitVec 64) (s : Frames) (level old total : Nat)
    (result : Option Nat × Frames) : Prop :=
  (∃ new s', result = (some new,s') ∧ new ≠ 0 ∧ CopiedUpTo mark s s' level old new 512 ∧
    s'.physical = s.physical.afterRequests total ∧ total ≤ s.physical.freeCount) ∨
  ∃ s', result = (none,s') ∧ Grows s s' ∧ (s.physical.Locked 0 → s.physical.freeCount < total ∧
    ((∀ page, s'.physical.Locked page → s.physical.Locked page) ↔ s.physical.freeCount = 0))

private theorem cloneWith_outcome {copy : Frames → Nat → Option (BitVec 64) × Frames} (hs : s.physical.Sound) (hh : Held s level old)
    (needs : Nat → Nat) (he : needs 512 = 0)
    (hsk : ∀ i < 512, flag (entry s.memory old i) .present = false → needs i = needs (i+1))
    (hcop : ∀ i σ new, i < 512 → CopiedUpTo mark s σ level old new i →
      flag (entry s.memory old i) .present = true →
      (∃ e σ' k, copy σ i = (some e,σ') ∧ needs i = k+needs (i+1) ∧
        σ'.physical = σ.physical.afterRequests k ∧ k ≤ σ.physical.freeCount ∧ CopiedUpTo mark s
          { σ' with memory := setEntry σ'.memory new i e } level old new (i+1)) ∨
      ∃ σ', copy σ i = (none,σ') ∧ Grows σ σ' ∧
        (σ.physical.Locked 0 → σ.physical.freeCount < needs i)) :
    Outcome mark s level old (1+needs 0) (cloneWith copy s old) := by
  obtain ⟨ho,hl⟩ := hh.here
  rcases hr : s.physical.requestPage with ⟨_ | a,q⟩
  · obtain ⟨hq,hma,ht⟩ := hs.request_refused (n := 1) hr
    have h0 : s.physical.freeCount = 0 := by
      by_contra hpo
      obtain ⟨page,hre,-⟩ := hs.requestPage (by omega)
      rw [hr] at hre
      cases hre
    have hlo : ∀ page, q.Locked page → s.physical.Locked page := fun page hp => by rwa [Locked,← hma]
    exact .inr ⟨{ s with physical := q },by simp [cloneWith,hr,asPointer],Grows.of_same hq hma ht,
      fun _ => ⟨by omega,iff_of_true hlo h0⟩⟩
  obtain ⟨page,rfl,-,hg,hin,hq⟩ := hs.requestPages (n := 1) hr
  by_cases hz : page = 0
  · subst hz
    exact .inr ⟨{ s with physical := q },by simp [cloneWith,hr,asPointer],
      Grows.of_granted hq hg fun _ _ => rfl,
      fun hnu => absurd hnu (hg.clear 0 le_rfl (by omega))⟩
  have hne : page * pageSize ≠ 0 := Nat.mul_ne_zero hz (by decide)
  have hco := hg.freeCount hin
  have hst : OnTheWay s ⟨s.memory.fill (page * pageSize) pageSize 0,q⟩ (1+needs 0) (needs 0) := by
    refine ⟨?_,?_⟩
    · rw [add_comm 1,afterRequests,hr]
    · dsimp only
      omega
  simp only [cloneWith,hr,asPointer,getD_some,if_neg hne]
  refine (cloneEntries_rule copy old (page * pageSize)
    (P := fun i σ => CopiedUpTo mark s σ level old (page * pageSize) i ∧
      OnTheWay s σ (1+needs 0) (needs i))
    (Q := fun σ => Grows s σ ∧ (s.physical.Locked 0 → s.physical.freeCount < 1+needs 0 ∧
      ((∀ page, σ.physical.Locked page → s.physical.Locked page) ↔ s.physical.freeCount = 0)))
    ?_ ?_ 512 0 rfl ⟨copiedUpTo_zero hq hg hin,hst⟩).imp ?_ ?_
  · rintro i σ hi ⟨hc,hw⟩ ha
    rw [hc.grows.entry ho hl hi] at ha
    exact ⟨hc.skip hi ha,hsk i hi ha ▸ hw⟩
  · rintro i σ hi ⟨hc,hw⟩ hp
    rw [hc.grows.entry ho hl hi] at hp
    rcases hcop i σ _ hi hc hp with
      ⟨e,σ',k,hru,hn,hph,hk,hnex⟩ | ⟨σ',hru,hgr,hsh⟩
    · refine .inl ⟨e,σ',hru,hnex,?_,?_⟩
      · rw [hw.1,hn,after_add,hph]
      have hsp := hc.grows.sound.afterRequests hk
      rw [hw.2,hph]
      omega
    · refine .inr ⟨σ',hru,hc.grows.trans hgr,fun hnu => ⟨?_,iff_of_false (fun hlo => ?_) (by omega)⟩⟩
      · rw [← not_le,hw.2,not_le]
        exact hsh (hc.grows.locked 0 hnu)
      · obtain ⟨-,hfr,hta,-⟩ := hc.tree.fresh [] _ Path.nil rfl
        exact hfr (hlo _ (hgr.locked _ hta))
  · rintro ⟨σ',hru,hc,hw,hle⟩
    rw [he] at hw hle
    exact ⟨_,σ',by rw [hru],hne,hc,hw.symm,hle.mpr (Nat.zero_le _)⟩
  · rintro ⟨σ',hru,hgr⟩
    exact ⟨σ',by rw [hru],hgr⟩

theorem Held.tableCount (h : Held s level old) (hg : Grows s σ) :
    tableCount σ.memory level old = LensorOS.Memory.tableCount s.memory level old := by
  induction level generalizing old with
  | zero => rfl
  | succ level ih =>
    rw [LensorOS.Memory.tableCount,LensorOS.Memory.tableCount]
    congr 2
    refine map_congr_left fun j hj => ?_
    have hj : j < 512 := by
      rw [mem_range'] at hj
      omega
    rw [child_congr (hg.entry h.here.1 h.here.2 hj)]
    cases hc : childTable s.memory old j with
    | none => rw [map_none,map_none]
    | some c =>
      rw [map_some,map_some,getD_some,getD_some]
      exact ih (h.child hj hc)

theorem cloneMarked_outcome (hmark : Marking mark) (level : Nat) (hs : s.physical.Sound)
    (hh : Held s level old) :
    Outcome mark s level old (tableCount s.memory level old) (cloneMarked mark level s old) := by
  induction level generalizing s old with
  | zero =>
    refine cloneWith_outcome hs hh (fun _ => 0) rfl (fun _ _ _ => rfl) ?_
    intro i σ new hi hc hp
    refine .inl ⟨_,σ,0,rfl,rfl,rfl,Nat.zero_le _,?_⟩
    rw [hc.grows.entry hh.here.1 hh.here.2 hi]
    exact hc.addEntry hi hp
  | succ level ih =>
    have hsu : ∀ i < 512, ((List.range' i (512-i)).map fun j =>
        ((childTable s.memory old j).map (tableCount s.memory level)).getD 0).sum =
        ((childTable s.memory old i).map (tableCount s.memory level)).getD 0 +
          ((List.range' (i+1) (512-(i+1))).map fun j =>
            ((childTable s.memory old j).map (tableCount s.memory level)).getD 0).sum := by
      intro i hi
      rw [show 512-i = 512-(i+1)+1 by omega,range'_succ,map_cons,sum_cons]
    refine cloneWith_outcome hs hh (fun i => ((List.range' i (512-i)).map fun j =>
      ((childTable s.memory old j).map (tableCount s.memory level)).getD 0).sum) rfl ?_ ?_
    · intro i hi ha
      rw [hsu i hi,child_eq_none.mpr ha,map_none,getD_none,zero_add]
    intro i σ new hi hc hp
    have he := hc.grows.entry hh.here.1 hh.here.2 hi
    have hch := child_eq_some.mpr ⟨hp,rfl⟩
    have hb := hh.child hi hch
    have hn := hsu i hi
    rw [hch,map_some,getD_some,← hb.tableCount hc.grows] at hn
    rw [he]
    rcases ih hc.grows.sound (hb.grows hc.grows) with
      ⟨c,σ',hru,-,hcl,hph,hle⟩ | ⟨σ',hru,hg,hsh⟩
    · have he' := hcl.grows.entry hh.here.1 (hc.grows.locked _ hh.here.2) hi
      rw [hru]
      refine .inl ⟨_,σ',_,rfl,hn,hph,hle,?_⟩
      rw [he',he]
      exact hc.addTable hmark hh hi hp hcl
    · rw [hru]
      exact .inr ⟨σ',rfl,hg,fun hnu => by have := (hsh hnu).1; omega⟩

theorem cloneTable_eq (level : Nat) (s : Frames) (old : Nat) : cloneTable level s old = cloneMarked id level s old := by
  induction level generalizing s old with
  | zero => rfl
  | succ level ih =>
    simp only [cloneTable,cloneMarked,ih]
    rfl
end

section
variable {mark : BitVec 64 → BitVec 64} {s s' : Frames} {roots : List Nat} {r new : Nat}
theorem PageMaps.held (h : PageMaps s roots) (hr : r ∈ roots) : Held s 3 r := by
  intro path u hp hu
  obtain ⟨ha,hl,-⟩ := h.placed r hr path u hp hu
  exact ⟨ha,hl⟩

/-- What a cloned page map is: a separate tree with the tables and translations of the
original. -/
structure Cloned (s : Frames) (roots : List Nat) (r new : Nat) (s' : Frames) : Prop where
  grows : Grows s s'
  maps : PageMaps s' (new :: roots)
  nonzero : new ≠ 0
  free : ¬ s.physical.Locked (new / pageSize)
  fresh : ∀ page, TablePage s' (new :: roots) page →
    TablePage s roots page ∨ ¬ s.physical.Locked page
  shape : ∀ path, Path 512 3 path →
    ((follow (childTable s'.memory) new path).isSome ↔ (follow (childTable s.memory) r path).isSome)
  translation : ∀ v < 2^36, translate s'.memory new v = translate s.memory r v

theorem CopiedUpTo.translate (h : CopiedUpTo mark s s' 3 r new 512) (hmark : Marking mark) (v : Nat) :
    translate s'.memory new v = (translate s.memory r v).map mark := by
  unfold LensorOS.Memory.translate pageTableOf
  rcases mirrors_follow hmark h.done (upper_path v) with ⟨u,u',hu,hu',he⟩ | ⟨hu,hu'⟩
  · have hl : entry s'.memory u' (v % 512) = _ := he (v % 512) (by omega)
    rw [hu,hu',bind_some,bind_some,hl]
    cases hp : flag (entry s.memory u (v % 512)) .present with
    | false => simp only [Bool.false_eq_true,if_false,flag_zero,map_none]
    | true => rw [if_pos rfl,if_pos rfl,hmark.present,hp,if_pos rfl,map_some]
  · rw [hu,hu']
    rfl

theorem CopiedUpTo.pageMaps (h : CopiedUpTo mark s s' 3 r new 512) (hmaps : PageMaps s roots) :
    PageMaps s' (new :: roots) := by
  have hk := h.grows.keeps hmaps
  have hs : ∀ r' ∈ roots, ∀ path path' t, Path 512 3 path → Path 512 3 path' →
      follow (childTable s'.memory) r' path = some t →
        follow (childTable s'.memory) new path' ≠ some t := by
    intro r' hr' path path' t hp hp' ht ht'
    rw [h.grows.follow hmaps hr' hp] at ht
    exact (h.tree.fresh path' t hp' ht').2.1 (hmaps.placed r' hr' path t hp ht).2.1
  refine ⟨h.grows.sound,?_,?_⟩
  · intro r' hr' path t hp ht
    rcases mem_cons.mp hr' with rfl | hr'
    · obtain ⟨ha,-,hl,hlt⟩ := h.tree.fresh path t hp ht
      rw [h.grows.total]
      exact ⟨ha,hl,hlt⟩
    · exact hk.maps.placed r' hr' path t hp ht
  intro r1 hr1 r2 hr2 path1 path2 t hp1 hp2 ht1 ht2
  rcases mem_cons.mp hr1 with rfl | hi1
  · rcases mem_cons.mp hr2 with rfl | hi2
    · exact ⟨rfl,h.tree.unique path1 path2 t hp1 hp2 ht1 ht2⟩
    · exact absurd ht1 (hs r2 hi2 path2 path1 t hp2 hp1 ht2)
  rcases mem_cons.mp hr2 with rfl | hi2
  · exact absurd ht2 (hs r1 hi1 path1 path2 t hp1 hp2 ht1)
  · exact hk.maps.unique r1 hi1 r2 hi2 path1 path2 t hp1 hp2 ht1 ht2

variable (h : PageMaps s roots) (hr : r ∈ roots)
include h hr
theorem PageMaps.clone_outcome : Outcome id s 3 r (tableCount s.memory 3 r) (s.clonePageMap r) := by
  rw [clonePageMap,cloneTable_eq]
  exact cloneMarked_outcome marking_id 3 h.sound (h.held hr)

theorem clone_copied (hru : s.clonePageMap r = (some new,s')) : CopiedUpTo id s s' 3 r new 512 ∧ new ≠ 0 := by
  rcases h.clone_outcome hr with ⟨new',s'',heq,hne,hc,-⟩ | ⟨s'',heq,-⟩
  · obtain ⟨hn,rfl⟩ := Prod.mk.inj (hru.symm.trans heq)
    cases hn
    exact ⟨hc,hne⟩
  · cases (Prod.mk.inj (hru.symm.trans heq)).1

theorem clone_spec (hru : s.clonePageMap r = (some new,s')) : Cloned s roots r new s' := by
  obtain ⟨hc,hn⟩ := clone_copied h hr hru
  refine ⟨hc.grows,hc.pageMaps h,hn,(hc.tree.fresh [] new Path.nil rfl).2.1,?_,?_,?_⟩
  · rintro page ⟨r',hr',path,t,hp,ht,rfl⟩
    rcases mem_cons.mp hr' with rfl | hr'
    · exact .inr (hc.tree.fresh path t hp ht).2.1
    · exact (hc.grows.keeps h).fresh _ ⟨r',hr',path,t,hp,ht,rfl⟩
  · intro path hp
    rcases mirrors_follow marking_id hc.done hp with ⟨u,u',hu,hu',-⟩ | ⟨hu,hu'⟩
    · simp [hu,hu']
    · simp [hu,hu']
  · intro v _
    rw [hc.translate marking_id,Option.map_id_fun,id]

theorem clone_refused (hru : s.clonePageMap r = (none,s')) : Grows s s' := by
  rcases h.clone_outcome hr with ⟨new',s'',heq,-⟩ | ⟨s'',heq,hg,-⟩
  · cases (Prod.mk.inj (hru.symm.trans heq)).1
  · obtain ⟨-,rfl⟩ := Prod.mk.inj (hru.symm.trans heq)
    exact hg

theorem clone_progress
    (hz : s.physical.Locked 0) (hc : tableCount s.memory 3 r ≤ s.physical.freeCount) :
    ∃ new s', s.clonePageMap r = (some new,s') ∧
      s'.physical = s.physical.afterRequests (tableCount s.memory 3 r) := by
  rcases h.clone_outcome hr with ⟨new,s',heq,-,-,hp,-⟩ | ⟨_,-,-,hs⟩
  · exact ⟨new,s',heq,hp⟩
  · exact absurd hc (not_le.mpr (hs hz).1)
end

/-- The tables below a table in the order in which `freeTable` frees them. -/
def tablesBelow (m : Bytes) : (level table : Nat) → List Nat
  | 0, table => [table]
  | level+1, table => (range 512).flatMap (fun index =>
      ((childTable m table index).map (tablesBelow m level)).getD []) ++ [table]

/-- Pages were given back: the ones in `gone`, and no others. -/
structure GivesBack (p q : PhysicalMemory) (gone : Nat → Prop) : Prop where
  sound : q.Sound
  total : q.totalPages = p.totalPages
  locked : ∀ j, q.Locked j ↔ p.Locked j ∧ ¬ gone j

section
variable {s : Frames} {roots : List Nat} {r : Nat} {m : Bytes} {p : PhysicalMemory} {level t u : Nat}
theorem mem_below {index : Nat} :
    u ∈ ((childTable m t index).map (tablesBelow m level)).getD [] ↔
      ∃ c, childTable m t index = some c ∧ u ∈ tablesBelow m level c := by
  cases childTable m t index <;> simp

theorem mem_tablesBelow : u ∈ tablesBelow m level t ↔
    ∃ path, Path 512 level path ∧ follow (childTable m) t path = some u := by
  induction level generalizing t with
  | zero =>
    refine mem_singleton.trans ⟨?_,?_⟩
    · rintro rfl
      exact ⟨[],Path.nil,rfl⟩
    rintro ⟨path,hp,hu⟩
    rw [path_zero hp] at hu
    exact (some.inj hu).symm
  | succ level ih =>
    simp only [tablesBelow,mem_append,mem_flatMap,mem_range,mem_below, mem_singleton,ih]
    constructor
    · rintro (⟨i,hi,c,hc,path,hp,hu⟩ | rfl)
      · exact ⟨i :: path,path_cons.mpr ⟨hi,hp⟩,(follow_child hc).trans hu⟩
      · exact ⟨[],Path.nil,rfl⟩
    rintro ⟨_ | ⟨i,path⟩,hp,hu⟩
    · exact .inr (some.inj hu).symm
    obtain ⟨hi,hp⟩ := path_cons.mp hp
    obtain ⟨c,hc,hu⟩ := follow_cons_eq_some.mp hu
    exact .inl ⟨i,hi,c,hc,path,hp,hu⟩

theorem length_below : (tablesBelow m level t).length = tableCount m level t := by
  induction level generalizing t with
  | zero => rfl
  | succ level ih =>
    rw [tablesBelow,tableCount,length_append,length_singleton,length_flatMap, add_comm,range_eq_range']
    congr 3
    funext index
    cases childTable m t index with
    | none => rfl
    | some c => exact ih

theorem nodup_below (h : ∀ path path' u, Path 512 level path → Path 512 level path' →
    follow (childTable m) t path = some u → follow (childTable m) t path' = some u → path = path') :
    (tablesBelow m level t).Nodup := by
  induction level generalizing t with
  | zero => exact nodup_singleton t
  | succ level ih =>
    have hp : ∀ i ∈ range 512, ∀ u ∈ ((childTable m t i).map (tablesBelow m level)).getD [],
        ∃ path, Path 512 (level+1) (i :: path) ∧ follow (childTable m) t (i :: path) = some u := by
      intro i hi u hu
      obtain ⟨c,hc,hu⟩ := mem_below.mp hu
      obtain ⟨path,hp,hu⟩ := mem_tablesBelow.mp hu
      exact ⟨path,path_cons.mpr ⟨mem_range.mp hi,hp⟩,(follow_child hc).trans hu⟩
    refine nodup_append.mpr ⟨nodup_flatMap.mpr ⟨fun i hi => ?_,?_⟩,nodup_singleton t,?_⟩
    · cases hc : childTable m t i with
      | none => exact nodup_nil
      | some c =>
        refine ih fun path path' u hp hp' hu hu' => ?_
        have hi := mem_range.mp hi
        exact (cons.inj (h (i :: path) (i :: path') u (path_cons.mpr ⟨hi,hp⟩)
          (path_cons.mpr ⟨hi,hp'⟩) ((follow_child hc).trans hu) ((follow_child hc).trans hu'))).2
    · refine List.Pairwise.imp_of_mem ?_ nodup_range
      intro i j hi hj hn u hu hu'
      obtain ⟨path,hw,hu⟩ := hp i hi u hu
      obtain ⟨path',hw',hu'⟩ := hp j hj u hu'
      exact hn (cons.inj (h _ _ u hw hw' hu hu')).1
    · rintro u hu _ hro rfl
      obtain ⟨i,hi,hu⟩ := mem_flatMap.mp hu
      obtain ⟨path,hw,hu⟩ := hp i hi u hu
      rw [mem_singleton.mp hro] at hu
      exact cons_ne_nil _ _ (h _ [] t hw Path.nil hu rfl)

theorem freePage_givesBack (hp : p.Sound) : GivesBack p (p.freePage t) (t / pageSize = ·) := by
  have ho : p.freePage t = p.freePages t 1 := by simp [freePage,freePages]
  rw [ho]
  refine ⟨hp.freePages t 1,freePages_totalPages _ _ _,fun j => ?_⟩
  rw [freePages_locked]
  refine and_congr_right fun _ => ?_
  omega

theorem GivesBack.trans {p' p'' : PhysicalMemory} {gone gone' gone'' : Nat → Prop}
    (h : GivesBack p p' gone) (h' : GivesBack p' p'' gone')
    (hb : ∀ j, gone'' j ↔ gone j ∨ gone' j) : GivesBack p p'' gone'' := by
  refine ⟨h'.sound,h'.total.trans h.total,fun j => ?_⟩
  rw [h'.locked,h.locked,hb,not_or,and_assoc]

theorem freeAll_givesBack (tables : List Nat) (hp : p.Sound) :
    GivesBack p (tables.foldl freePage p) (∃ u ∈ tables, u / pageSize = ·) := by
  induction tables generalizing p with
  | nil => exact ⟨hp,rfl,by simp⟩
  | cons t tables ih =>
    have hf := freePage_givesBack (t := t) hp
    exact hf.trans (ih hf.sound) (by simp)

theorem freeTable_eq (level : Nat) (hp : p.Sound)
    (hins : ∀ u ∈ tablesBelow m level t, u % pageSize = 0 ∧ u / pageSize < p.totalPages) :
    freeTable m level p t = (tablesBelow m level t).foldl freePage p := by
  induction level generalizing p t with
  | zero => rfl
  | succ level ih =>
    have hl : ∀ indices : List Nat, (∀ i ∈ indices, i < 512) → ∀ q : PhysicalMemory, q.Sound →
        q.totalPages = p.totalPages → indices.foldl (fun p index =>
          if flag (entry m t index) .present = false then p
          else if looksLikeGarbage p (address (entry m t index)) then p
          else freeTable m level p (address (entry m t index))) q =
        (indices.flatMap fun index =>
          ((childTable m t index).map (tablesBelow m level)).getD []).foldl freePage q := by
      intro indices hin
      induction indices with
      | nil => exact fun _ _ _ => rfl
      | cons i indices ihi =>
        intro q hq ht
        obtain ⟨hi,hin⟩ := forall_mem_cons.mp hin
        rw [foldl_cons,flatMap_cons,foldl_append]
        by_cases ha : flag (entry m t i) .present = false
        · rw [if_pos ha,child_eq_none.mpr ha]
          exact ihi hin q hq ht
        have hc := child_eq_some.mpr ⟨Bool.eq_true_of_not_eq_false ha,rfl⟩
        have hb : ∀ u ∈ tablesBelow m level (address (entry m t i)),
            u % pageSize = 0 ∧ u / pageSize < q.totalPages := by
          intro u hu
          rw [ht]
          refine hins u (mem_append_left _ (mem_flatMap.mpr ⟨i,mem_range.mpr hi,?_⟩))
          exact mem_below.mpr ⟨_,hc,hu⟩
        have hpl : ¬ looksLikeGarbage q (address (entry m t i)) = true := by
          obtain ⟨hal,hlt⟩ := hb _ (mem_tablesBelow.mpr ⟨[],Path.nil,rfl⟩)
          have ht := hq.addressable
          simp only [looksLikeGarbage,Bool.or_eq_true,beq_iff_eq,decide_eq_true_eq,bne_iff_ne]
          unfold pageSize at *
          omega
        have hba := freeAll_givesBack (tablesBelow m level (address (entry m t i))) hq
        rw [if_neg ha,if_neg hpl,ih hq hb,hc]
        exact ihi hin _ hba.sound (hba.total.trans ht)
    rw [freeTable,tablesBelow,foldl_append,foldl_cons,foldl_nil, ← hl _ (fun i => mem_range.mp) p hp rfl]

theorem freePageMap_givesBack (hs : s.physical.Sound) (hro : r ≠ 0) {active : Nat}
    (ha : r ≠ active)
    (hi : ∀ path u, Path 512 3 path → follow (childTable s.memory) r path = some u →
      u % pageSize = 0 ∧ u / pageSize < s.physical.totalPages) :
    (s.freePageMap active r).memory = s.memory ∧
      GivesBack s.physical (s.freePageMap active r).physical (TablePage s [r]) := by
  have hb := freeAll_givesBack (tablesBelow s.memory 3 r) hs
  rw [← freeTable_eq 3 hs fun u hu => by
    obtain ⟨path,hp,hu⟩ := mem_tablesBelow.mp hu
    exact hi path u hp hu] at hb
  unfold freePageMap
  rw [if_neg hro,if_neg ha]
  generalize freeTable s.memory 3 s.physical r = q at hb ⊢
  refine ⟨rfl,hb.sound,hb.total,fun j => (hb.locked j).trans ?_⟩
  simp only [mem_tablesBelow,TablePage,mem_singleton,exists_eq_left]
  grind

variable (h : PageMaps s roots) (hr : r ∈ roots)
include h hr
theorem PageMaps.placed_below
    (hu : u ∈ tablesBelow s.memory 3 r) : u % pageSize = 0 ∧ s.physical.Locked (u / pageSize) ∧
      u / pageSize < s.physical.totalPages := by
  obtain ⟨path,hp,hu⟩ := mem_tablesBelow.mp hu
  exact h.placed r hr path u hp hu

theorem PageMaps.nodup_pages : ((tablesBelow s.memory 3 r).map (· / pageSize)).Nodup := by
  refine (nodup_below fun path path' u hp hp' hu hu' =>
    (h.unique r hr r hr path path' u hp hp' hu hu').2).map_on fun u hu u' hu' hpa => ?_
  have ha := (h.placed_below hr hu).1
  have ha' := (h.placed_below hr hu').1
  unfold pageSize at *
  omega

theorem PageMaps.tableCount_le : tableCount s.memory 3 r+s.physical.freeCount ≤ s.physical.totalPages := by
  have hsu : ((tablesBelow s.memory 3 r).map (· / pageSize)).toFinset ⊆
      (Finset.range s.physical.totalPages).filter fun j => s.physical.Locked j := by
    intro page hp
    obtain ⟨u,hu,rfl⟩ := List.mem_map.mp (List.mem_toFinset.mp hp)
    exact Finset.mem_filter.mpr ⟨Finset.mem_range.mpr (h.placed_below hr hu).2.2,(h.placed_below hr hu).2.1⟩
  have hl := Finset.card_le_card hsu
  rw [toFinset_card_of_nodup (h.nodup_pages hr),length_map,length_below] at hl
  have hs := Finset.card_filter_add_card_filter_not (s := Finset.range s.physical.totalPages)
    (fun j => s.physical.Locked j)
  rw [Finset.card_range] at hs
  unfold freeCount
  omega
end
end LensorOS.Memory
