import LensorOS.Memory.PageMap

/-!
# Mapping and unmapping pages

`map` goes down three tables, linking in the ones that are missing, and writes one entry of the
last. It changes one translation as long as pages are free; `unmap` removes one.
-/
namespace LensorOS.Memory
open Framework PageDirectoryEntry List Option PhysicalMemory Frames
/-- A page map with more tables on the way to the virtual pages `vs`, each on a page that was
requested for it. No translation changes. -/
structure Extends (roots : List Nat) (r : Nat) (vs : Finset Nat) (s s' : Frames) : Prop where
  keeps : Keeps roots s s'
  translation : SameTranslation roots s s'
  user : ∀ r' ∈ roots, ∀ path u, Path 512 2 path → follow (childTable s.memory) r' path = some u →
    ∀ j < 512, ∀ c, userTable s.memory u j = some c → userTable s'.memory u j = some c
  entries : ∀ r' ∈ roots, ∀ v pt, pageTableOf s.memory r' v = some pt →
    entry s'.memory pt (v % 512) = entry s.memory pt (v % 512)
  contents : SameContents roots s s'
  taken : ∃ k, s'.physical = s.physical.afterRequests k ∧
    (missing s'.memory r vs).card+k = (missing s.memory r vs).card

variable {path : List Nat} {r' : Nat} {vs : Finset Nat}
section
variable {s s' s'' : Frames} {roots : List Nat} {r t i page : Nat} {vs : Finset Nat}
  {before : List Nat} {flags : BitVec 64}
theorem PageMaps.upper_ne (h : PageMaps s roots) {v pt : Nat} (hr : r ∈ roots) (hr' : r' ∈ roots)
    (hb : Path 512 2 before) (ht : follow (childTable s.memory) r before = some t)
    (hpt : pageTableOf s.memory r' v = some pt) : t ≠ pt := by
  rintro rfl
  have hp := (h.unique r hr r' hr' _ _ t (hb.mono (by decide)) (upper_path v) ht hpt).2
  have hl := hb.1
  rw [hp] at hl
  exact absurd (show 3 ≤ 2 from hl) (by decide)

theorem Extends.trans (h : Extends roots r vs s s') (h' : Extends roots r vs s' s'') : Extends roots r vs s s'' := by
  refine ⟨h.keeps.trans h'.keeps,?_,?_,?_,h.contents.trans h.keeps h'.contents,?_⟩
  · intro r' hr' v hv
    rw [h'.translation r' hr' v hv,h.translation r' hr' v hv]
  · intro r' hr' path u hpa hu j hj c hc
    exact h'.user r' hr' path u hpa (h.keeps.paths r' hr' path u (hpa.mono (by decide)) hu)
      j hj c (h.user r' hr' path u hpa hu j hj c hc)
  · intro r' hr' v pt hpt
    rw [h'.entries r' hr' v pt (h.keeps.paths r' hr' _ pt (upper_path v) hpt), h.entries r' hr' v pt hpt]
  obtain ⟨k,hp,hco⟩ := h.taken
  obtain ⟨k',hp',hc'⟩ := h'.taken
  refine ⟨k+k',?_,by omega⟩
  rw [hp',hp,after_add]

theorem Extends.supply (h : Extends roots r vs s s') (hs : s.physical.Sound)
    (hsupply : (missing s.memory r vs).card ≤ s.physical.freeCount) :
    (missing s'.memory r vs).card ≤ s'.physical.freeCount := by
  obtain ⟨k,hp,hc⟩ := h.taken
  have hf := hs.afterRequests (show k ≤ s.physical.freeCount by omega)
  rw [hp]
  omega

theorem descend_present (flags : BitVec 64) (vs : Finset Nat) (h : PageMaps s roots) (hr : r ∈ roots) (hb : Path 512 2 before)
    (hre : follow (childTable s.memory) r before = some t) (hi : i < 512) {u : Nat}
    (hch : childTable s.memory t i = some u) :
    (s.descend t i flags).1 = u ∧ Extends roots r vs s (s.descend t i flags).2 ∧
      OnlyOwn roots s (s.descend t i flags).2 ∧
      (flag flags .largerPages = false → SmallPages s.memory r →
        SmallPages (s.descend t i flags).2.memory r) := by
  obtain ⟨hpr,hu⟩ := child_eq_some.mp hch
  have hs := hb.mono (show 2 ≤ 3 by decide)
  have ht := (h.placed r hr before t hs hre).1
  obtain ⟨m',hm'⟩ : ∃ m', m' = setEntry s.memory t i (orFlags (entry s.memory t i) flags) := ⟨_,rfl⟩
  have he : ∀ w j, w % pageSize = 0 → j < 512 → entry m' w j =
      if w = t ∧ j = i then orFlags (entry s.memory t i) flags else entry s.memory w j := by
    intro w j hw hj
    rw [hm',entry_set ht hw hi hj]
  have hl : ∀ r' ∈ roots, ∀ path w, Path 512 2 path →
      follow (childTable s.memory) r' path = some w → ∀ j < 512,
        childTable m' w j = childTable s.memory w j := by
    intro r' hr' path w hpa hw j hj
    have hwa := (h.placed r' hr' path w (hpa.mono (by decide)) hw).1
    unfold childTable
    rw [he w j hwa hj]
    split_ifs with hsa <;> simp_all
  have hle : ∀ r' ∈ roots, ∀ v pt, pageTableOf s.memory r' v = some pt →
      entry m' pt (v % 512) = entry s.memory pt (v % 512) := by
    intro r' hr' v pt hpt
    have hpta := (h.placed r' hr' _ pt (upper_path v) hpt).1
    rw [he pt _ hpta (by omega),
      if_neg fun hsa => h.upper_ne hr hr' hb hre hpt hsa.1.symm]
  have hp : ∀ r' ∈ roots, ∀ path, Path 512 3 path →
      follow (childTable m') r' path = follow (childTable s.memory) r' path :=
    fun r' hr' path hpa => follow_of_links m' hr' hpa hl
  have heq : s.descend t i flags = (u, { s with memory := m' }) := by
    unfold descend
    dsimp only
    rw [if_pos hpr,address_orFlags,hu,hm']
  have hco : SameContents roots s { s with memory := m' } := hm' ▸ h.set_contents hr hs hre hi _
  rw [heq]
  refine ⟨rfl,⟨h.keeps h.sound rfl hp fun _ hj => hj,?_,?_,hle,hco,0,rfl,?_⟩,
    hm' ▸ h.setEntry_own hr hs hre hi _,?_⟩
  · intro r' hr' v _
    exact translate_congr (hp r' hr' _ (upper_path v)) (hle r' hr' v)
  · intro r' hr' path w hpa hw j hj c hc
    have hwa := (h.placed r' hr' path w (hpa.mono (by decide)) hw).1
    have hwj := he w j hwa hj
    by_cases hsa : w = t ∧ j = i
    · rw [if_pos hsa,← hsa.1,← hsa.2] at hwj
      unfold userTable at hc ⊢
      rw [hwj,address_orFlags,present_orFlags,userSuper_orFlags]
      split_ifs at hc with hflags
      rw [hflags.1,hflags.2,Bool.true_or,Bool.true_or,if_pos ⟨rfl,rfl⟩,hc]
    · rw [if_neg hsa] at hwj
      rw [user_congr hwj,hc]
  · rw [add_zero,missing_congr (hp r hr)]
  · intro hla hsm path w hpa hw j hj
    have hlo := hpa.mono (show 2 ≤ 3 by decide)
    rw [hp r hr path hlo] at hw
    rw [he w j (h.placed r hr path w hlo hw).1 hj]
    split_ifs with hsa
    · rw [largerPages_orFlags,hla,hsm before t hb hre i hi,Bool.or_false]
    · exact hsm path w hpa hw j hj
end

structure NewTable (s : Frames) (r : Nat) (before : List Nat) (t i page : Nat) (s' : Frames) :
    Prop where
  physical : s'.physical = s.physical.requestPage.2
  granted : s.physical.Granted 1 page s'.physical
  inside : page < s.physical.totalPages
  sound : s'.physical.Sound
  short : Path 512 2 before
  reach : follow (childTable s.memory) r before = some t
  vacant : childTable s.memory t i = none
  link : childTable s'.memory t i = some (page * pageSize)
  empty : ∀ j < 512, entry s'.memory (page * pageSize) j = 0
  others : ∀ u j, u % pageSize = 0 → j < 512 → u ≠ page * pageSize → ¬ (u = t ∧ j = i) →
    entry s'.memory u j = entry s.memory u j
  elsewhere : ∀ x, x / pageSize ≠ t / pageSize → x / pageSize ≠ page → s'.memory x = s.memory x

namespace NewTable
variable {s s' : Frames} {roots : List Nat} {r t i page : Nat} {before : List Nat}
  (hn : NewTable s r before t i page s')
include hn
theorem gone : follow (childTable s.memory) r (before ++ [i]) = none := by
  rw [follow_snoc,hn.reach,bind_some,hn.vacant]

theorem contents (hr : r ∈ roots) : SameContents roots s s' := by
  intro x hl ht
  refine hn.elsewhere x (fun hp => ht ?_) fun hp => ?_
  · exact ⟨r,hr,before,t,hn.short.mono (by decide),hn.reach,hp.symm⟩
  · exact hn.granted.clear page le_rfl (by omega) (hp ▸ hl)

theorem own (hr : r ∈ roots) : OnlyOwn roots s s' := by
  intro x hx
  by_cases ht : x / pageSize = t / pageSize
  · exact .inl ⟨r,hr,before,t,hn.short.mono (by decide),hn.reach,ht.symm⟩
  by_cases hp : x / pageSize = page
  · rw [hp]
    exact .inr ⟨hn.granted.clear page le_rfl (by omega), hn.granted.locked.mpr (.inr ⟨le_rfl,by omega⟩)⟩
  · exact absurd (hn.elsewhere x ht hp) hx

variable (h : PageMaps s roots)
include h
theorem table_ne {u : Nat} (hr : r' ∈ roots) (hpa : Path 512 3 path)
    (hu : follow (childTable s.memory) r' path = some u) : u ≠ page * pageSize := by
  rintro rfl
  have hp := h.granted_ne_table hn.granted zero_lt_one hr hpa hu
  rw [page_mul] at hp
  exact hp rfl

variable (hr : r ∈ roots)
include hr
theorem follow_eq (hr' : r' ∈ roots) (hp : Path 512 3 path) :
    follow (childTable s'.memory) r' path =
      if r' = r ∧ path = before ++ [i] then some (page * pageSize)
      else follow (childTable s.memory) r' path := by
  have hs := hn.short.mono (show 2 ≤ 3 by decide)
  have ho : ∀ r' ∈ roots, ∀ ρ u j, Path 512 3 (ρ ++ [j]) →
      follow (childTable s.memory) r' ρ = some u → ¬ (u = t ∧ j = i) →
        childTable s'.memory u j = childTable s.memory u j := by
    intro r' hr' ρ u j hρ hu huj
    have hj := (path_snoc.mp hρ).2
    exact child_congr (hn.others u j (h.placed r' hr' ρ u hρ.of_append hu).1 hj
      (hn.table_ne h hr' hρ.of_append hu) huj)
  by_cases hrr : r' = r
  · subst hrr
    have hon : ∀ ρ, Path 512 3 ρ → follow (childTable s.memory) r' ρ = some t → ρ = before :=
      fun ρ hρ hf => (h.unique r' hr r' hr ρ before t hρ hs hf hn.reach).2
    have he : ∀ j < 512, childTable s'.memory (page * pageSize) j = none := by
      intro j hj
      rw [childTable,hn.empty j hj,if_neg (by decide)]
    rw [follow_link hp hn.reach hon hn.vacant hn.link he (ho r' hr)]
    exact if_congr (by simp) rfl rfl
  · rw [if_neg (fun hc => hrr hc.1)]
    refine follow_congr hp fun ρ u j hρ _ hu => ho r' hr' ρ u j hρ hu ?_
    rintro ⟨rfl,-⟩
    exact hrr (h.unique r' hr' r hr ρ before u hρ.of_append hs hu hn.reach).1

theorem follow_iff (hr' : r' ∈ roots) (hp : Path 512 3 path)
    {u : Nat} : follow (childTable s'.memory) r' path = some u ↔
      (r' = r ∧ path = before ++ [i] ∧ u = page * pageSize) ∨
        follow (childTable s.memory) r' path = some u := by
  rw [hn.follow_eq h hr hr' hp]
  by_cases hne : r' = r ∧ path = before ++ [i]
  · rw [if_pos hne,hne.1,hne.2,hn.gone]
    simp [eq_comm]
  rw [if_neg hne]
  constructor
  · exact .inr
  rintro (⟨hr',hp,-⟩ | hu)
  · exact absurd ⟨hr',hp⟩ hne
  · exact hu

theorem keeps : Keeps roots s s' := by
  refine ⟨⟨hn.sound,?_,?_⟩,?_,hn.granted.totalPages,fun j hj => hn.granted.locked.mpr (.inl hj),?_⟩
  · intro r' hr' path u hp hu
    rw [hn.granted.totalPages]
    rcases (hn.follow_iff h hr hr' hp).mp hu with ⟨-,-,rfl⟩ | ho
    · rw [page_mul]
      exact ⟨Nat.mul_mod_left _ _,hn.granted.locked.mpr (.inr ⟨le_rfl,by omega⟩),hn.inside⟩
    · obtain ⟨ha,hl,hlt⟩ := h.placed r' hr' path u hp ho
      exact ⟨ha,hn.granted.locked.mpr (.inl hl),hlt⟩
  · intro r1 hr1 r2 hr2 path1 path2 u hp1 hp2 hu1 hu2
    rcases (hn.follow_iff h hr hr1 hp1).mp hu1 with ⟨rfl,rfl,rfl⟩ | ho1
    · rcases (hn.follow_iff h hr hr2 hp2).mp hu2 with ⟨rfl,rfl,-⟩ | ho2
      · exact ⟨rfl,rfl⟩
      · exact absurd rfl (hn.table_ne h hr2 hp2 ho2)
    rcases (hn.follow_iff h hr hr2 hp2).mp hu2 with ⟨rfl,rfl,rfl⟩ | ho2
    · exact absurd rfl (hn.table_ne h hr1 hp1 ho1)
    · exact h.unique r1 hr1 r2 hr2 path1 path2 u hp1 hp2 ho1 ho2
  · intro r' hr' path u hp hu
    exact (hn.follow_iff h hr hr' hp).mpr (.inr hu)
  · rintro _ ⟨r',hr',path,u,hp,hu,rfl⟩
    rcases (hn.follow_iff h hr hr' hp).mp hu with ⟨-,-,rfl⟩ | ho
    · rw [page_mul]
      exact .inr (hn.granted.clear page le_rfl (by omega))
    · exact .inl ⟨r',hr',path,u,hp,ho,rfl⟩

theorem entries {v pt : Nat} (hr' : r' ∈ roots) (hp : pageTableOf s.memory r' v = some pt) :
    entry s'.memory pt (v % 512) = entry s.memory pt (v % 512) := by
  refine hn.others pt _ (h.placed r' hr' _ pt (upper_path v) hp).1 (by omega)
    (hn.table_ne h hr' (upper_path v) hp) fun hs => ?_
  exact h.upper_ne hr hr' hn.short hn.reach hp hs.1.symm

theorem sameTranslation : SameTranslation roots s s' := by
  intro r' hr' v _
  by_cases hne : r' = r ∧ upperPath v = before ++ [i]
  · have hg : pageTableOf s.memory r' v = none := by rw [pageTableOf,hne.1,hne.2,hn.gone]
    have ht : pageTableOf s'.memory r' v = some (page * pageSize) := by
      rw [pageTableOf,hn.follow_eq h hr hr' (upper_path v),if_pos hne]
    rw [translate,translate,hg,ht,bind_some,bind_none, hn.empty _ (by omega),if_neg (by decide)]
  · refine translate_congr ?_ fun pt hp => hn.entries h hr hr' hp
    rw [pageTableOf,pageTableOf,hn.follow_eq h hr hr' (upper_path v),if_neg hne]

theorem extension (hi : i < 512) (hw : before ++ [i] ∈ tablePaths vs) : Extends roots r vs s s' := by
  refine ⟨hn.keeps h hr,hn.sameTranslation h hr,?_,?_,hn.contents hr,1,hn.physical,?_⟩
  · intro r' hr' path u hp hu j hj c hc
    have hl := hp.mono (show 2 ≤ 3 by decide)
    have hs : entry s'.memory u j = entry s.memory u j := by
      refine hn.others u j (h.placed r' hr' path u hl hu).1 hj (hn.table_ne h hr' hl hu) ?_
      rintro ⟨rfl,rfl⟩
      have hva := hn.vacant
      rw [child_of_user hc] at hva
      cases hva
    rw [user_congr hs,hc]
  · intro r' hr' v pt hpt
    exact hn.entries h hr hr' hpt
  have her : missing s'.memory r vs = (missing s.memory r vs).erase (before ++ [i]) := by
    ext path
    rw [Finset.mem_erase,mem_missing,mem_missing]
    constructor
    · rintro ⟨hp,hno⟩
      rw [hn.follow_eq h hr hr (tablePaths_path hp)] at hno
      split_ifs at hno with hnew
      exact ⟨fun he => hnew ⟨rfl,he⟩,hp,hno⟩
    · rintro ⟨hne,hp,hno⟩
      refine ⟨hp,?_⟩
      rw [hn.follow_eq h hr hr (tablePaths_path hp),if_neg (fun hnew => hne hnew.2),hno]
  have hm := mem_missing.mpr ⟨hw,hn.gone⟩
  rw [her,Finset.card_erase_add_one hm]

theorem small (hs : SmallPages s.memory r)
    (hli : flag (entry s'.memory t i) .largerPages = false) : SmallPages s'.memory r := by
  intro path u hp hu j hj
  have hl := hp.mono (show 2 ≤ 3 by decide)
  rcases (hn.follow_iff h hr hr hl).mp hu with ⟨-,-,rfl⟩ | ho
  · rw [hn.empty j hj,flag_zero]
  by_cases hse : u = t ∧ j = i
  · rw [hse.1,hse.2,hli]
  · rw [hn.others u j (h.placed r hr path u hl ho).1 hj (hn.table_ne h hr hl ho) hse]
    exact hs path u hp ho j hj
end NewTable

section
variable {s : Frames} {roots : List Nat} {r t i : Nat} {before : List Nat} {flags : BitVec 64}
theorem descend_missing (h : PageMaps s roots) (hr : r ∈ roots) (hb : Path 512 2 before)
    (hre : follow (childTable s.memory) r before = some t) (hi : i < 512)
    (hflags : flag flags .present = true) (hch : childTable s.memory t i = none)
    (hf : 0 < s.physical.freeCount) : ∃ page, (s.descend t i flags).1 = page * pageSize ∧
      NewTable s r before t i page (s.descend t i flags).2 := by
  obtain ⟨page,hreq,hlt,hg,hso,-⟩ := h.sound.requestPage hf
  have hs := hb.mono (show 2 ≤ 3 by decide)
  have ht := (h.placed r hr before t hs hre).1
  have hta : t ≠ page * pageSize := by
    rintro rfl
    have hp := h.granted_ne_table hg zero_lt_one hr hs hre
    rw [page_mul] at hp
    exact hp rfl
  have hal : page * pageSize % pageSize = 0 := Nat.mul_mod_left _ _
  have hadd : page * pageSize < 2^52 := by
    have had := h.sound.addressable
    unfold pageSize
    omega
  have ha : ¬ flag (entry s.memory t i) .present = true := by
    intro hpr
    rw [childTable,if_pos hpr] at hch
    cases hch
  obtain ⟨e,he⟩ : ∃ e, e = orFlags (setAddress (entry s.memory t i) (page * pageSize)) flags := ⟨_,rfl⟩
  have hpr : flag e .present = true := by rw [he,present_orFlags,hflags,Bool.or_true]
  have hl : address e = page * pageSize := by rw [he,address_orFlags,address_setAddress _ hal hadd]
  have heq : s.descend t i flags = (page * pageSize,
      ⟨setEntry (s.memory.fill (page * pageSize) pageSize 0) t i e,s.physical.requestPage.2⟩) := by
    unfold descend
    dsimp only
    rw [if_neg ha,hreq]
    dsimp [asPointer]
    rw [← he,hl]
  rw [heq]
  refine ⟨page,rfl,rfl,hg,hlt,hso,hb,hre,hch,?_,?_,?_,?_⟩
  · have hse : entry (setEntry (s.memory.fill (page * pageSize) pageSize 0) t i e) t i = e := by
      rw [entry_set ht ht hi hi,if_pos ⟨rfl,rfl⟩]
    rw [childTable,hse,if_pos hpr,hl]
  · intro j hj
    rw [entry_set ht hal hi hj,if_neg (fun hc => hta hc.1.symm),
      entry_fill hal hal hj,if_pos rfl]
  · intro u j hu hj hne huj
    rw [entry_set ht hu hi hj,if_neg huj,entry_fill hal hu hj,if_neg hne]
  intro x hne hp
  refine (set_outside ht hi hne).trans (Bytes.fill_outside _ _ ?_)
  unfold pageSize at hp ⊢
  omega

theorem descend_user (hu : flag flags .userSuper = true) (hflags : flag flags .present = true) :
    userTable (s.descend t i flags).2.memory t i = some (s.descend t i flags).1 := by
  obtain ⟨e,m,hd,ho,hp⟩ : ∃ e m, (s.descend t i flags).2.memory =
      setEntry m t i e ∧ flag e .userSuper = true ∧ flag e .present = true ∧
        (s.descend t i flags).1 = address e := by
    refine ⟨_,_,rfl,?_,?_,rfl⟩
    · rw [userSuper_orFlags,hu,Bool.or_true]
    · rw [present_orFlags,hflags,Bool.or_true]
  have hs : entry (setEntry m t i e) t i = e := Bytes.read64_write64_same _ _ _
  rw [hd,userTable,hs,if_pos ⟨hp.1,ho⟩,hp.2]

theorem descend_link : flag (entry (s.descend t i flags).2.memory t i) .largerPages =
    (flag (entry s.memory t i) .largerPages || flag flags .largerPages) := by
  obtain ⟨e,m,hd,hl⟩ : ∃ e m, (s.descend t i flags).2.memory = setEntry m t i e ∧
      flag e .largerPages = (flag (entry s.memory t i) .largerPages || flag flags .largerPages) := by
    refine ⟨_,_,rfl,?_⟩
    rw [largerPages_orFlags]
    split_ifs
    · rfl
    · rw [flag_setAddress]
  have hs : entry (setEntry m t i e) t i = e := Bytes.read64_write64_same _ _ _
  rw [hd,hs,hl]

theorem descend_spec (h : PageMaps s roots) (hr : r ∈ roots) (hb : Path 512 2 before)
    (hre : follow (childTable s.memory) r before = some t) (hi : i < 512)
    (hflags : flag flags .present = true) (hw : before ++ [i] ∈ tablePaths vs)
    (hsupply : (missing s.memory r vs).card ≤ s.physical.freeCount) :
    Extends roots r vs s (s.descend t i flags).2 ∧
      follow (childTable (s.descend t i flags).2.memory) r (before ++ [i]) =
        some (s.descend t i flags).1 ∧ OnlyOwn roots s (s.descend t i flags).2 ∧
      (flag flags .largerPages = false → SmallPages s.memory r →
        SmallPages (s.descend t i flags).2.memory r) := by
  cases hc : childTable s.memory t i with
  | some u =>
    obtain ⟨hu,he,ho,hs⟩ := descend_present flags vs h hr hb hre hi hc
    refine ⟨he,?_,ho,hs⟩
    rw [hu]
    refine he.keeps.paths r hr _ u (path_snoc.mpr ⟨hb,hi⟩) ?_
    rw [follow_snoc,hre,bind_some,hc]
  | none =>
    have hg : follow (childTable s.memory) r (before ++ [i]) = none := by
      rw [follow_snoc,hre,bind_some,hc]
    have hf : 0 < s.physical.freeCount := (Finset.card_pos.mpr ⟨_,mem_missing.mpr ⟨hw,hg⟩⟩).trans_le hsupply
    obtain ⟨page,hp,hne⟩ := descend_missing h hr hb hre hi hflags hc hf
    refine ⟨hne.extension h hr hi hw,?_,hne.own hr,?_⟩
    · rw [hp,hne.follow_eq h hr hr (path_snoc.mpr ⟨hb,hi⟩),if_pos ⟨rfl,rfl⟩]
    intro hl hs
    refine hne.small h hr hs ?_
    rw [descend_link,hl,hs before t hb hre i hi,Bool.or_false]
end

section
variable {s : Frames} {roots : List Nat} {r t v : Nat} {e : BitVec 64}
theorem set_leaf (h : PageMaps s roots) (hr : r ∈ roots) (hv : v < 2^36)
    (ht : pageTableOf s.memory r v = some t) : (∀ r' ∈ roots, ∀ path, Path 512 3 path →
      follow (childTable (setEntry s.memory t (v % 512) e)) r' path =
        follow (childTable s.memory) r' path) ∧
    (∀ r' ∈ roots, ∀ path u, Path 512 2 path → follow (childTable s.memory) r' path = some u →
      ∀ j < 512, entry (setEntry s.memory t (v % 512) e) u j = entry s.memory u j) ∧
    (∀ r' ∈ roots, ∀ w < 2^36, ¬ (r' = r ∧ w = v) → ∀ pt, pageTableOf s.memory r' w = some pt →
      entry (setEntry s.memory t (v % 512) e) pt (w % 512) = entry s.memory pt (w % 512)) ∧
    entry (setEntry s.memory t (v % 512) e) t (v % 512) = e := by
  have hi : v % 512 < 512 := by omega
  have hta := (h.placed r hr _ t (upper_path v) ht).1
  have hup : ∀ r' ∈ roots, ∀ path u, Path 512 2 path →
      follow (childTable s.memory) r' path = some u → ∀ j < 512,
        entry (setEntry s.memory t (v % 512) e) u j = entry s.memory u j := by
    intro r' hr' path u hpa hu j hj
    have hl := hpa.mono (show 2 ≤ 3 by decide)
    rw [entry_set hta (h.placed r' hr' path u hl hu).1 hi hj,
      if_neg fun hs => h.upper_ne hr' hr hpa hu ht hs.1]
  refine ⟨?_,hup,?_,Bytes.read64_write64_same _ _ _⟩
  · intro r' hr' path hpa
    exact follow_of_links _ hr' hpa fun r' hr' path u hpa hu j hj =>
      child_congr (hup r' hr' path u hpa hu j hj)
  intro r' hr' w hw hne pt hpt
  rw [entry_set hta (h.placed r' hr' _ pt (upper_path w) hpt).1 hi (by omega),if_neg]
  rintro ⟨rfl,he⟩
  obtain ⟨rfl,hp⟩ := h.unique r' hr' r hr _ _ pt (upper_path w) (upper_path v) hpt ht
  exact hne ⟨rfl,upper_injective hw hv hp he⟩
end

/-- What mapping one page does: one translation of one map is set, all others stay. -/
structure Maps (roots : List Nat) (r v phys : Nat) (flags : BitVec 64) (s s' : Frames) : Prop where
  keeps : Keeps roots s s'
  others : ∀ r' ∈ roots, ∀ w < 2^36, ¬ (r' = r ∧ w = v) →
    translate s'.memory r' w = translate s.memory r' w
  here : ∃ e, translate s'.memory r v = some e ∧ address e = phys ∧
    flag e .userSuper = flag flags .userSuper ∧ flag e .readWrite = flag flags .readWrite
  contents : SameContents roots s s'
  user : flag flags .userSuper = true → userFrame s'.memory r v = some (phys / pageSize)
  userOthers : ∀ r' ∈ roots, ∀ w < 2^36, ¬ (r' = r ∧ w = v) → ∀ f,
    userFrame s.memory r' w = some f → userFrame s'.memory r' w = some f

/-- What mapping a run of pages does. A virtual page that several pages of the run fall on
shows one of them. -/
structure MapsRun (roots : List Nat) (r virt page n : Nat) (flags : BitVec 64) (s s' : Frames) :
    Prop where
  keeps : Keeps roots s s'
  others : ∀ r' ∈ roots, ∀ w < 2^36, ¬ (r' = r ∧ ∃ i < n, w = vpage (virt+i * pageSize)) →
    translate s'.memory r' w = translate s.memory r' w
  here : ∀ w, (∃ i < n, w = vpage (virt+i * pageSize)) →
    ∃ i < n, w = vpage (virt+i * pageSize) ∧ ∃ e, translate s'.memory r w = some e ∧
      address e = (page+i) * pageSize ∧ flag e .userSuper = flag flags .userSuper ∧
        flag e .readWrite = flag flags .readWrite
  contents : SameContents roots s s'
  user : flag flags .userSuper = true → ∀ w, (∃ i < n, w = vpage (virt+i * pageSize)) →
    ∃ i < n, w = vpage (virt+i * pageSize) ∧ userFrame s'.memory r w = some (page+i)

section
variable {s : Frames} {roots : List Nat} {r virt phys page n : Nat} {flags : BitVec 64} {vs : Finset Nat}
theorem mapRun_succ (s : Frames) (r virt phys n : Nat) (flags : BitVec 64) :
    s.mapRun r virt phys flags (n+1) = (s.mapRun r virt phys flags n).map r
      (virt+n * pageSize) (phys+n * pageSize) flags := by
  simp only [mapRun,range_succ,foldl_append,foldl_cons,foldl_nil]

theorem Extends.follow_user {s' : Frames} (h : Extends roots r vs s s') (hr : r' ∈ roots)
    (hp : Path 512 3 path) {t : Nat} (ht : follow (userTable s.memory) r' path = some t) :
    follow (userTable s'.memory) r' path = some t := by
  induction path using reverseRecOn generalizing t with
  | nil => exact ht
  | append_singleton before i ih =>
    rw [follow_snoc] at ht ⊢
    cases hu : follow (userTable s.memory) r' before with
    | none =>
      rw [hu] at ht
      cases ht
    | some u =>
      rw [hu,bind_some] at ht
      obtain ⟨hb,hi⟩ := path_snoc.mp hp
      rw [ih (hb.mono (by decide)) hu,bind_some]
      exact h.user r' hr before u hb (follow_of_user hu) i hi t ht

private theorem descend_all (h : PageMaps s roots) (hr : r ∈ roots)
    (hflags : flag flags .present = true) {v a b c : Nat} (hpat : upperPath v = [a,b,c])
    (hv : v ∈ vs) (hsupply : (missing s.memory r vs).card ≤ s.physical.freeCount) :
    ∃ t s', Extends roots r vs s s' ∧ pageTableOf s'.memory r v = some t ∧
      (flag flags .userSuper = true → follow (userTable s'.memory) r (upperPath v) = some t) ∧
      OnlyOwn roots s s' ∧
      (flag flags .largerPages = false → SmallPages s.memory r → SmallPages s'.memory r) ∧
      ((s.descend r a flags).2.descend (s.descend r a flags).1 b flags).2.descend
        ((s.descend r a flags).2.descend (s.descend r a flags).1 b flags).1 c flags = (t,s') := by
  have hbo : ∀ i ∈ [a,b,c], i < 512 := by
    rw [← hpat]
    exact (upper_path v).2
  have hm : ∀ path, path = [a] ∨ path = [a,b] ∨ path = [a,b,c] → path ∈ tablePaths vs := by
    intro path hp
    refine Finset.mem_biUnion.mpr ⟨v,hv,?_⟩
    rw [hpat]
    simpa using hp
  obtain ⟨d1,hd1⟩ : ∃ d, s.descend r a flags = d := ⟨_,rfl⟩
  obtain ⟨d2,hd2⟩ : ∃ d, d1.2.descend d1.1 b flags = d := ⟨_,rfl⟩
  obtain ⟨d3,hd3⟩ : ∃ d, d2.2.descend d2.1 c flags = d := ⟨_,rfl⟩
  have ha := hbo a (by simp)
  have hb := hbo b (by simp)
  have hc := hbo c (by simp)
  have hpa : Path 512 1 [a] := path_cons.mpr ⟨ha,Path.nil⟩
  have hpb : Path 512 2 [a,b] := path_cons.mpr ⟨ha,path_cons.mpr ⟨hb,Path.nil⟩⟩
  obtain ⟨he1,hf1,ho1,hs1⟩ := descend_spec h hr Path.nil rfl ha hflags (hm _ (.inl rfl)) hsupply
  rw [hd1] at he1 hf1 ho1 hs1
  obtain ⟨he2,hf2,ho2,hs2⟩ := descend_spec he1.keeps.maps hr (hpa.mono (by decide)) hf1 hb hflags
    (hm _ (.inr (.inl rfl))) (he1.supply h.sound hsupply)
  rw [hd2] at he2 hf2 ho2 hs2
  obtain ⟨he3,hf3,ho3,hs3⟩ := descend_spec he2.keeps.maps hr hpb hf2 hc hflags
    (hm _ (.inr (.inr rfl))) (he2.supply he1.keeps.maps.sound (he1.supply h.sound hsupply))
  rw [hd3] at he3 hf3 ho3 hs3
  refine ⟨d3.1,d3.2,(he1.trans he2).trans he3,?_,?_,
    (ho1.trans he1.keeps ho2 he2.keeps).trans (he1.trans he2).keeps ho3 he3.keeps,fun hl hs => hs3 hl (hs2 hl (hs1 hl hs)),?_⟩
  · rw [pageTableOf,hpat]
    exact hf3
  · intro hu
    have hu1 : follow (userTable d1.2.memory) r [a] = some d1.1 := by
      have ho := descend_user (s := s) (t := r) (i := a) hu hflags
      rw [hd1] at ho
      rw [follow_cons,ho]
      rfl
    have hu2 : follow (userTable d2.2.memory) r ([a] ++ [b]) = some d2.1 := by
      have ho := descend_user (s := d1.2) (t := d1.1) (i := b) hu hflags
      rw [hd2] at ho
      rw [follow_snoc,he2.follow_user hr (hpa.mono (by decide)) hu1,bind_some,ho]
    have ho := descend_user (s := d2.2) (t := d2.1) (i := c) hu hflags
    rw [hd3] at ho
    rw [hpat,show [a,b,c] = [a,b] ++ [c] from rfl,follow_snoc,
      he3.follow_user hr (hpb.mono (by decide)) hu2,bind_some,ho]
  · rw [hd1,hd2,hd3]

variable (h : PageMaps s roots) (hr : r ∈ roots) (hroot : r ≠ 0) (hflags : flag flags .present = true)
include h hr hroot hflags
section
variable (phys : Nat) (hv : vpage virt ∈ vs) (hsupply : (missing s.memory r vs).card ≤ s.physical.freeCount)
include hv hsupply
theorem map_eq : ∃ t s' e, Extends roots r vs s s' ∧ pageTableOf s'.memory r (vpage virt) = some t ∧
      (flag flags .userSuper = true →
        follow (userTable s'.memory) r (upperPath (vpage virt)) = some t) ∧ OnlyOwn roots s s' ∧
      (flag flags .largerPages = false → SmallPages s.memory r → SmallPages s'.memory r) ∧
      e = setFlags (setAddress (entry s'.memory t (vpage virt % 512)) phys) flags ∧
      s.map r virt phys flags = { s' with memory := setEntry s'.memory t (vpage virt % 512) e } := by
  obtain ⟨t,s',he,ht,hu,ho,hs,hd⟩ := descend_all h hr hflags (upper_vpage virt) hv hsupply
  refine ⟨t,s',_,he,ht,hu,ho,hs,rfl,?_⟩
  unfold Frames.map
  rw [if_neg hroot]
  dsimp only
  rw [hd,vpage_index]

theorem map_keeps :
    Keeps roots s (s.map r virt phys flags) ∧ SameContents roots s (s.map r virt phys flags) ∧
      OnlyOwn roots s (s.map r virt phys flags) := by
  obtain ⟨t,s',e,he,ht,-,ho,-,-,heq⟩ := map_eq h hr hroot hflags phys hv hsupply
  have hm := he.keeps.maps
  obtain ⟨hp,-,-,-⟩ := set_leaf (e := e) hm hr (vpage_lt virt) ht
  have hi : vpage virt % 512 < 512 := by omega
  have hk : Keeps roots s' { s' with memory := setEntry s'.memory t (vpage virt % 512) e } :=
    hm.keeps hm.sound rfl hp fun _ hj => hj
  rw [heq]
  exact ⟨he.keeps.trans hk,he.contents.trans he.keeps
    (hm.set_contents hr (upper_path _) ht hi e),ho.trans he.keeps
      (hm.setEntry_own hr (upper_path _) ht hi e) hk⟩
end

theorem map_spec (hal : phys % pageSize = 0) (hphys : phys < 2^52) (hv : vpage virt ∈ vs)
    (hsupply : (missing s.memory r vs).card ≤ s.physical.freeCount) :
    Maps roots r (vpage virt) phys flags s (s.map r virt phys flags) ∧
      ∃ k, (s.map r virt phys flags).physical = s.physical.afterRequests k ∧
        (missing (s.map r virt phys flags).memory r vs).card+k = (missing s.memory r vs).card := by
  obtain ⟨t,s',e,hext,ht,huse,-,-,he,heq⟩ := map_eq h hr hroot hflags phys hv hsupply
  have hm := hext.keeps.maps
  obtain ⟨hpa,hup,ho,hs⟩ := set_leaf (e := e) hm hr (vpage_lt virt) ht
  have hpr : flag e .present = true := by rw [he,present_setFlags,hflags]
  have ha : address e = phys := by rw [he,address_setFlags,address_setAddress _ hal hphys]
  have hf : flag e .userSuper = flag flags .userSuper := by rw [he,userSuper_setFlags]
  have hwr : flag e .readWrite = flag flags .readWrite := by rw [he,readWrite_setFlags]
  obtain ⟨hk,hc,-⟩ := map_keeps h hr hroot hflags phys hv hsupply
  have hus : ∀ r' ∈ roots, ∀ path, Path 512 3 path → ∀ u,
      follow (userTable s'.memory) r' path = some u →
        follow (userTable (setEntry s'.memory t (vpage virt % 512) e)) r' path = some u := by
    intro r' hr' path hpat u hu
    rw [← hu]
    refine follow_congr hpat fun ρ w j hρ _ hw => ?_
    obtain ⟨hρ,hj⟩ := path_snoc.mp hρ
    exact user_congr (hup r' hr' ρ w hρ (follow_of_user hw) j hj)
  rw [heq] at hk hc ⊢
  refine ⟨⟨hk,?_,?_,hc,?_,?_⟩,?_⟩
  · intro r' hr' w hw hne
    rw [← hext.translation r' hr' w hw]
    exact translate_congr (hpa r' hr' _ (upper_path w)) (ho r' hr' w hw hne)
  · refine ⟨e,?_,ha,hf,hwr⟩
    rw [translate,pageTableOf,hpa r hr _ (upper_path _),← pageTableOf,ht, bind_some,hs,if_pos hpr]
  · intro hop
    refine userFrame_eq_some.mpr ⟨t,hus r hr _ (upper_path _) t (huse hop),?_⟩
    rw [hs]
    exact ⟨hpr,by rw [hf,hop],by rw [ha]⟩
  · intro r' hr' w hw hne f hac
    obtain ⟨pt,hpat,hl⟩ := userFrame_eq_some.mp hac
    have hol := follow_of_user hpat
    have hnew := hext.keeps.paths r' hr' _ pt (upper_path w) hol
    refine userFrame_eq_some.mpr ⟨pt,hus r' hr' _ (upper_path w) pt
      (hext.follow_user hr' (upper_path w) hpat),?_⟩
    rw [ho r' hr' w hw hne pt hnew,hext.entries r' hr' w pt hol]
    exact hl
  · obtain ⟨k,hp,hco⟩ := hext.taken
    refine ⟨k,hp,?_⟩
    rw [missing_congr (hpa r hr),hco]

variable (hphys : page+n ≤ 2^40) (hv : ∀ i < n, vpage (virt+i * pageSize) ∈ vs)
  (hsupply : (missing s.memory r vs).card ≤ s.physical.freeCount)
include hphys hv hsupply
theorem mapRun_spec :
    MapsRun roots r virt page n flags s (s.mapRun r virt (page * pageSize) flags n) ∧
      OnlyOwn roots s (s.mapRun r virt (page * pageSize) flags n) ∧
      ∃ k, (s.mapRun r virt (page * pageSize) flags n).physical = s.physical.afterRequests k ∧
        (missing (s.mapRun r virt (page * pageSize) flags n).memory r vs).card+k =
          (missing s.memory r vs).card := by
  induction n with
  | zero =>
    refine ⟨⟨h.keeps h.sound rfl (fun _ _ _ _ => rfl) fun _ hj => hj,fun _ _ _ _ _ => rfl,?_,
      fun _ _ _ => rfl,?_⟩,OnlyOwn.refl roots s,0,rfl,rfl⟩
    · rintro w ⟨i,hi,-⟩
      exact absurd hi (by omega)
    · rintro - w ⟨i,hi,-⟩
      exact absurd hi (by omega)
  | succ n ih =>
    obtain ⟨hru,how,k,hp,hco⟩ := ih (by omega) fun i hi => hv i (by omega)
    have hf := h.sound.afterRequests (show k ≤ s.physical.freeCount by omega)
    have hpa : page * pageSize+n * pageSize = (page+n) * pageSize := (add_mul _ _ _).symm
    have hl : (page+n) * pageSize < 2^52 := by
      unfold pageSize
      omega
    have hs' : (missing (s.mapRun r virt (page * pageSize) flags n).memory r vs).card ≤
        (s.mapRun r virt (page * pageSize) flags n).physical.freeCount := by
      rw [hp]
      omega
    obtain ⟨-,-,ho'⟩ := map_keeps hru.keeps.maps hr hroot hflags ((page+n) * pageSize) (hv n (by omega)) hs'
    obtain ⟨hm,k',hp',hc'⟩ := map_spec hru.keeps.maps hr hroot hflags
      (Nat.mul_mod_left _ _) hl (hv n (by omega)) hs'
    rw [mapRun_succ,hpa]
    refine ⟨⟨hru.keeps.trans hm.keeps,?_,?_,hru.contents.trans hru.keeps hm.contents,?_⟩,
      how.trans hru.keeps ho' hm.keeps,k+k',?_,by omega⟩
    · intro r' hr' w hw hne
      rw [hm.others r' hr' w hw fun hla => hne ⟨hla.1,n,by omega,hla.2⟩]
      refine hru.others r' hr' w hw ?_
      rintro ⟨hrr,i,hi,hwi⟩
      exact hne ⟨hrr,i,by omega,hwi⟩
    · rintro w ⟨i,hi,hwi⟩
      by_cases hla : w = vpage (virt+n * pageSize)
      · subst hla
        exact ⟨n,by omega,rfl,hm.here⟩
      have hb : i < n := lt_of_le_of_ne (by omega) fun he => hla (he ▸ hwi)
      obtain ⟨j,hj,hwj,e,he,hre⟩ := hru.here w ⟨i,hb,hwi⟩
      refine ⟨j,by omega,hwj,e,?_,hre⟩
      rw [hm.others r hr w (hwj ▸ vpage_lt _) fun hc => hla hc.2]
      exact he
    · rintro ho w ⟨i,hi,hwi⟩
      by_cases hla : w = vpage (virt+n * pageSize)
      · subst hla
        have hh := hm.user ho
        rw [page_mul] at hh
        exact ⟨n,by omega,rfl,hh⟩
      · have hb : i < n := lt_of_le_of_ne (by omega) fun he => hla (he ▸ hwi)
        obtain ⟨j,hj,hwj,ha⟩ := hru.user ho w ⟨i,hb,hwi⟩
        exact ⟨j,by omega,hwj, hm.userOthers r hr w (hwj ▸ vpage_lt _) (fun hc => hla hc.2) _ ha⟩
    · rw [hp',hp,after_add]
end

/-- What unmapping does: the covered translations of one map are removed, all others stay. -/
structure Unmaps (roots : List Nat) (r : Nat) (covered : Nat → Prop) (m m' : Bytes) : Prop where
  paths : ∀ r' ∈ roots, ∀ path, Path 512 3 path →
    follow (childTable m') r' path = follow (childTable m) r' path
  others : ∀ r' ∈ roots, ∀ w < 2^36, ¬ (r' = r ∧ covered w) → translate m' r' w = translate m r' w
  here : ∀ w < 2^36, covered w → translate m' r w = none

section
variable {s : Frames} {m m' m'' : Bytes} {roots : List Nat} {r virt n t : Nat} {covered covered' : Nat → Prop}
theorem Unmaps.refl : Unmaps roots r (fun _ => False) m m :=
  ⟨fun _ _ _ _ => rfl,fun _ _ _ _ _ => rfl,fun _ _ hc => hc.elim⟩

theorem Unmaps.trans (h : Unmaps roots r covered m m') (h' : Unmaps roots r covered' m' m'')
    (hr : r ∈ roots) : Unmaps roots r (fun w => covered w ∨ covered' w) m m'' := by
  refine ⟨?_,?_,?_⟩
  · intro r' hr' path hp
    rw [h'.paths r' hr' path hp,h.paths r' hr' path hp]
  · intro r' hr' w hw hne
    rw [h'.others r' hr' w hw fun hc => hne ⟨hc.1,.inr hc.2⟩,
      h.others r' hr' w hw fun hc => hne ⟨hc.1,.inl hc.2⟩]
  intro w hw hco
  by_cases hl : covered' w
  · exact h'.here w hw hl
  · rw [h'.others r hr w hw fun hc => hl hc.2]
    exact h.here w hw (hco.resolve_right hl)

theorem Unmaps.maps {p : PhysicalMemory} (hu : Unmaps roots r covered m m')
    (h : PageMaps ⟨m,p⟩ roots) : PageMaps ⟨m',p⟩ roots :=
  h.transfer h.sound rfl hu.paths fun _ ⟨r',hr',path,t,hp,ht,hpa⟩ =>
    hpa ▸ (h.placed r' hr' path t hp ht).2.1

/-- The table at the end of the walk of `unmap`, which looks at no presence flag. -/
def uncheckedTable (m : Bytes) (root virt : Nat) : Nat :=
  address (entry m (address (entry m (address (entry m root
    (PageMapIndexer.pageDirectoryPointer virt))) (PageMapIndexer.pageDirectory virt)))
    (PageMapIndexer.pageTable virt))

theorem unmap_eq (s : Frames) (r virt : Nat) : s.unmap r virt = { s with
    memory := setEntry s.memory (uncheckedTable s.memory r virt) (vpage virt % 512)
      (setFlag (entry s.memory (uncheckedTable s.memory r virt) (vpage virt % 512))
        .present false) } := by
  rw [vpage_index]
  rfl

theorem uncheckedTable_eq (ht : pageTableOf s.memory r (vpage virt) = some t) : uncheckedTable s.memory r virt = t := by
  rw [pageTableOf,upper_vpage] at ht
  simp only [follow_cons_eq_some,child_eq_some,follow_nil,some.injEq] at ht
  obtain ⟨_,⟨-,rfl⟩,_,⟨-,rfl⟩,_,⟨-,rfl⟩,rfl⟩ := ht
  rfl

theorem unmapRun_succ (s : Frames) (r virt n : Nat) :
    s.unmapRun r virt (n+1) = (s.unmapRun r virt n).unmap r (virt+n * pageSize) := by
  simp only [unmapRun,range_succ,foldl_append,foldl_cons,foldl_nil]

@[simp] theorem unmapRun_physical (s : Frames) (r virt n : Nat) :
    (s.unmapRun r virt n).physical = s.physical := by
  induction n with
  | zero => rfl
  | succ n ih =>
    rw [unmapRun_succ,← ih]
    rfl

theorem unmapRun_memory (m : Bytes) (p q : PhysicalMemory) (r virt n : Nat) :
    ((⟨m,p⟩ : Frames).unmapRun r virt n).memory = ((⟨m,q⟩ : Frames).unmapRun r virt n).memory := by
  induction n with
  | zero => rfl
  | succ n ih =>
    rw [unmapRun_succ,unmapRun_succ]
    unfold unmap
    rw [ih]

variable (h : PageMaps s roots) (hr : r ∈ roots)
include h hr
theorem unmap_keeps (hta : (pageTableOf s.memory r (vpage virt)).isSome) :
    Keeps roots s (s.unmap r virt) ∧ SameContents roots s (s.unmap r virt) := by
  obtain ⟨t,ht⟩ := isSome_iff_exists.mp hta
  obtain ⟨hp,-,-,-⟩ := set_leaf
    (e := setFlag (entry s.memory t (vpage virt % 512)) .present false) h hr (vpage_lt virt) ht
  rw [unmap_eq,uncheckedTable_eq ht]
  exact ⟨h.keeps h.sound rfl hp fun _ hj => hj,
    h.set_contents hr (upper_path _) ht (by omega) _⟩

theorem unmap_spec (hta : (pageTableOf s.memory r (vpage virt)).isSome) :
    Unmaps roots r (· = vpage virt) s.memory (s.unmap r virt).memory := by
  obtain ⟨t,ht⟩ := isSome_iff_exists.mp hta
  rw [unmap_eq,uncheckedTable_eq ht]
  obtain ⟨e,he⟩ : ∃ e, e = setFlag (entry s.memory t (vpage virt % 512)) .present false := ⟨_,rfl⟩
  obtain ⟨hp,-,ho,hs⟩ := set_leaf (e := e) h hr (vpage_lt virt) ht
  rw [← he]
  refine ⟨hp,fun r' hr' w hw hne => ?_,?_⟩
  · exact translate_congr (hp r' hr' _ (upper_path w)) (ho r' hr' w hw hne)
  rintro w - rfl
  have ha : ¬ flag e .present = true := by
    rw [he,flag_setFlag,if_pos rfl]
    decide
  rw [translate,pageTableOf,hp r hr _ (upper_path _),← pageTableOf,ht,bind_some,hs, if_neg ha]

theorem unmapRun_spec
    (ht : ∀ i < n, (pageTableOf s.memory r (vpage (virt+i * pageSize))).isSome) :
    Unmaps roots r (fun w => ∃ i < n, w = vpage (virt+i * pageSize)) s.memory
      (s.unmapRun r virt n).memory := by
  induction n with
  | zero =>
    change Unmaps _ _ _ s.memory s.memory
    simpa using Unmaps.refl
  | succ n ih =>
    have hru := ih fun i hi => ht i (by omega)
    have hm : PageMaps (s.unmapRun r virt n) roots := by
      have hm := hru.maps h
      rw [← unmapRun_physical s r virt n] at hm
      exact hm
    have hl : (pageTableOf (s.unmapRun r virt n).memory r (vpage (virt+n * pageSize))).isSome := by
      rw [pageTableOf,hru.paths r hr _ (upper_path _)]
      exact ht n (by omega)
    rw [unmapRun_succ]
    simpa only [Nat.exists_lt_succ_right] using hru.trans (unmap_spec hm hr hl) hr
end

/-- A loop over the pages of a range runs once per page, or not at all when the range reaches
the end of the address space. -/
theorem loop_eq {virt n : Nat} (hvi : virt < 2^64) (hn : n ≤ 2^52) :
    pageLoopCount virt n = if virt+n * pageSize < 2^64 then n else 0 := by
  unfold pageLoopCount pageSize
  dsimp only
  by_cases hf : virt+n * 4096 < 2^64
  · rw [if_pos hf,Nat.mod_eq_of_lt hf]
    split_ifs with hl
    · omega
    · omega
  · rw [if_neg hf,if_neg]
    omega

theorem loop_le (virt n : Nat) : pageLoopCount virt n ≤ n := by
  unfold pageLoopCount
  dsimp only
  split_ifs
  · have hw := Nat.mod_le (virt+n * pageSize) (2^64)
    refine Nat.div_le_of_le_mul ?_
    rw [Nat.mul_comm]
    omega
  · omega
end LensorOS.Memory
