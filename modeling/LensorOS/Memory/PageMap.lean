import LensorOS.Framework.TableTree
import LensorOS.Memory.PageSupply
import LensorOS.Memory.VirtualMemoryManager

/-!
# Page maps

What a page map translates, and what `map` and `unmap` do to the translations of all page maps in
use. Each table belongs to one path of one map.
-/
namespace LensorOS.Memory
open Framework PageDirectoryEntry List Option PageMapIndexer
def childTable (m : Bytes) (table index : Nat) : Option Nat :=
  if flag (entry m table index) .present then some (address (entry m table index)) else none

/-- The page number of a virtual address, as far as it reaches the table indices. -/
def vpage (virtualAddress : Nat) : Nat := virtualAddress / 2^12 % 2^36

def upperPath (v : Nat) : List Nat := [v / 2^27 % 512,v / 2^18 % 512,v / 2^9 % 512]
def pageTableOf (m : Bytes) (root v : Nat) : Option Nat := follow (childTable m) root (upperPath v)

/-- The entry a virtual page is translated by, when it is present at every level. -/
def translate (m : Bytes) (root v : Nat) : Option (BitVec 64) :=
  (pageTableOf m root v).bind fun pt =>
    if flag (entry m pt (v % 512)) .present then some (entry m pt (v % 512)) else none

def SmallPages (m : Bytes) (root : Nat) : Prop :=
  ∀ path t, Path 512 2 path → follow (childTable m) root path = some t →
    ∀ i < 512, flag (entry m t i) .largerPages = false

/-- The table behind an upper entry that lets user accesses through. -/
def userTable (m : Bytes) (table index : Nat) : Option Nat :=
  if flag (entry m table index) .present ∧ flag (entry m table index) .userSuper then
    some (address (entry m table index)) else none

/-- The frame user code reaches at a virtual page: every entry on the way is present and open
to users. -/
def userFrame (m : Bytes) (root v : Nat) : Option Nat :=
  (follow (userTable m) root (upperPath v)).bind fun pt =>
    if flag (entry m pt (v % 512)) .present ∧ flag (entry m pt (v % 512)) .userSuper then
      some (address (entry m pt (v % 512)) / pageSize) else none

variable {roots path : List Nat}
section
variable {m m' : Bytes} {t u i j : Nat} {e : BitVec 64}
theorem entry_set (ht : t % pageSize = 0) (hu : u % pageSize = 0) (hi : i < 512)
    (hj : j < 512) : entry (setEntry m t i e) u j = if u = t ∧ j = i then e else entry m u j := by
  unfold entry setEntry slot
  split_ifs with h
  · rw [h.1,h.2,Bytes.read64_write64_same]
  apply Bytes.read64_write64_ne
  unfold pageSize at *
  omega

theorem entry_fill (ht : t % pageSize = 0) (hu : u % pageSize = 0) (hj : j < 512) :
    entry (m.fill t pageSize 0) u j = if u = t then 0 else entry m u j := by
  unfold entry slot
  split_ifs with h
  · subst h
    apply Bytes.read64_fill_zero
    · omega
    · unfold pageSize
      omega
  · apply Bytes.read64_fill_disjoint
    unfold pageSize at *
    omega

theorem set_outside {x : Nat} (ht : t % pageSize = 0) (hi : i < 512)
    (hx : x / pageSize ≠ t / pageSize) : setEntry m t i e x = m x := by
  apply Bytes.write64_outside
  unfold slot pageSize at *
  omega

theorem entry_congr (hu : ∀ x, u ≤ x → x < u+pageSize → m' x = m x) (hj : j < 512) : entry m' u j = entry m u j := by
  apply Bytes.read64_congr
  intro x hl hh
  unfold slot at hl hh
  apply hu x
  · omega
  · unfold pageSize
    omega

theorem child_eq_some : childTable m t i = some u ↔
    flag (entry m t i) .present = true ∧ address (entry m t i) = u := by
  unfold childTable
  split_ifs with h
  · simp [h]
  · simp [h]

theorem child_eq_none : childTable m t i = none ↔ flag (entry m t i) .present = false := by
  unfold childTable
  split_ifs with h
  · simp [h]
  · simp [h]

theorem child_congr (h : entry m' t i = entry m t i) : childTable m' t i = childTable m t i := by
  unfold childTable
  rw [h]

theorem user_congr (h : entry m' t i = entry m t i) : userTable m' t i = userTable m t i := by
  unfold userTable
  rw [h]

theorem child_of_user (h : userTable m t i = some u) : childTable m t i = some u := by
  unfold userTable at h
  split_ifs at h with hf
  rw [childTable,if_pos hf.1,h]

theorem follow_of_user (h : follow (userTable m) t path = some u) : follow (childTable m) t path = some u := by
  induction path generalizing t with
  | nil => exact h
  | cons i path ih =>
    rw [follow_cons] at h ⊢
    cases hc : userTable m t i with
    | none =>
      rw [hc] at h
      cases h
    | some c =>
      rw [hc] at h
      rw [child_of_user hc]
      exact ih h

theorem userFrame_eq_some {r v frame : Nat} : userFrame m r v = some frame ↔
    ∃ pt, follow (userTable m) r (upperPath v) = some pt ∧
      flag (entry m pt (v % 512)) .present = true ∧ flag (entry m pt (v % 512)) .userSuper = true ∧
        address (entry m pt (v % 512)) / pageSize = frame := by
  rw [userFrame,bind_eq_some_iff]
  refine exists_congr fun pt => and_congr_right fun _ => ?_
  rw [ite_none_right_eq_some,some.injEq,and_assoc]

theorem translate_of_userFrame {r v frame : Nat} (h : userFrame m r v = some frame) :
    ∃ e, translate m r v = some e ∧ flag e .userSuper = true ∧ address e / pageSize = frame := by
  obtain ⟨pt,hpath,hp,hu,hf⟩ := userFrame_eq_some.mp h
  refine ⟨entry m pt (v % 512),?_,hu,hf⟩
  rw [translate,pageTableOf,follow_of_user hpath,bind_some,if_pos hp]
end

theorem vpage_lt (a : Nat) : vpage a < 2^36 := Nat.mod_lt _ (by decide)

theorem upper_path (v : Nat) : Path 512 3 (upperPath v) := by
  refine ⟨le_rfl,?_⟩
  intro i hi
  simp only [upperPath,mem_cons,not_mem_nil,or_false] at hi
  rcases hi with rfl | rfl | rfl <;> exact Nat.mod_lt _ (by decide)

theorem upper_injective {v w : Nat} (hv : v < 2^36) (hw : w < 2^36)
    (hpath : upperPath v = upperPath w) (hin : v % 512 = w % 512) : v = w := by
  simp only [upperPath,cons.injEq,and_true] at hpath
  omega

theorem upper_vpage (a : Nat) : upperPath (vpage a) = [pageDirectoryPointer a,pageDirectory a, pageTable a] := by
  simp only [upperPath,vpage,pageDirectoryPointer,pageDirectory,pageTable,cons.injEq,and_true]
  omega

theorem vpage_index (a : Nat) : vpage a % 512 = page a := by
  unfold vpage page
  omega

def TablePage (s : Frames) (roots : List Nat) (page : Nat) : Prop :=
  ∃ r ∈ roots, ∃ path t, Path 512 3 path ∧ follow (childTable s.memory) r path = some t ∧
    t / pageSize = page

/-- The page maps at `roots` are separate trees of locked tables. -/
structure PageMaps (s : Frames) (roots : List Nat) : Prop where
  sound : s.physical.Sound
  placed : ∀ r ∈ roots, ∀ path t, Path 512 3 path → follow (childTable s.memory) r path = some t →
    t % pageSize = 0 ∧ s.physical.Locked (t / pageSize) ∧ t / pageSize < s.physical.totalPages
  unique : ∀ r ∈ roots, ∀ r' ∈ roots, ∀ path path' t, Path 512 3 path → Path 512 3 path' →
    follow (childTable s.memory) r path = some t →
      follow (childTable s.memory) r' path' = some t → r = r' ∧ path = path'

/-- A change of memory that keeps all page maps: paths stay, locked pages stay locked, and new
tables lie on pages that were free. -/
structure Keeps (roots : List Nat) (s s' : Frames) : Prop where
  maps : PageMaps s' roots
  paths : ∀ r ∈ roots, ∀ path t, Path 512 3 path →
    follow (childTable s.memory) r path = some t → follow (childTable s'.memory) r path = some t
  total : s'.physical.totalPages = s.physical.totalPages
  locked : ∀ j, s.physical.Locked j → s'.physical.Locked j
  fresh : ∀ page, TablePage s' roots page → TablePage s roots page ∨ ¬ s.physical.Locked page

variable {s s' s'' : Frames}
theorem Keeps.trans (h : Keeps roots s s') (h' : Keeps roots s' s'') : Keeps roots s s'' := by
  refine ⟨h'.maps,?_,h'.total.trans h.total,fun j hj => h'.locked j (h.locked j hj),?_⟩
  · intro r hr path t hpath hfollow
    exact h'.paths r hr path t hpath (h.paths r hr path t hpath hfollow)
  intro page hp
  rcases h'.fresh page hp with ho | hf
  · exact h.fresh page ho
  · exact .inr fun hl => hf (h.locked page hl)

def SameTranslation (roots : List Nat) (s s' : Frames) : Prop :=
  ∀ r ∈ roots, ∀ v < 2^36, translate s'.memory r v = translate s.memory r v

/-- Memory in use stays as it is, tables apart. -/
def SameContents (roots : List Nat) (s s' : Frames) : Prop :=
  ∀ x, s.physical.Locked (x / pageSize) → ¬ TablePage s roots (x / pageSize) →
    s'.memory x = s.memory x

theorem SameContents.trans (h : SameContents roots s s')
    (hk : Keeps roots s s') (h' : SameContents roots s' s'') : SameContents roots s s'' := by
  intro x hl hta
  have ht' : ¬ TablePage s' roots (x / pageSize) := by
    intro hn
    rcases hk.fresh _ hn with ho | hf
    · exact hta ho
    · exact hf hl
  rw [h' x (hk.locked _ hl) ht',h x hl hta]

/-- Nothing changes but tables of the page maps and pages that are taken on the way. -/
def OnlyOwn (roots : List Nat) (s s' : Frames) : Prop :=
  ∀ x, s'.memory x ≠ s.memory x → TablePage s roots (x / pageSize) ∨
    ¬ s.physical.Locked (x / pageSize) ∧ s'.physical.Locked (x / pageSize)

theorem OnlyOwn.refl (roots : List Nat) (s : Frames) : OnlyOwn roots s s := fun _ hx => absurd rfl hx

theorem OnlyOwn.trans (h : OnlyOwn roots s s')
    (hk : Keeps roots s s') (h' : OnlyOwn roots s' s'') (hk' : Keeps roots s' s'') :
    OnlyOwn roots s s'' := by
  intro x hx
  by_cases hf : s'.memory x = s.memory x
  · rcases h' x (by rwa [hf]) with hta | ⟨hfr,htak⟩
    · rcases hk.fresh _ hta with ho | hn
      · exact .inl ho
      obtain ⟨r,hr,path,t,hpath,ht,hp⟩ := hta
      have hl := (hk.maps.placed r hr path t hpath ht).2.1
      rw [hp] at hl
      exact .inr ⟨hn,hk'.locked _ hl⟩
    · exact .inr ⟨fun hl => hfr (hk.locked _ hl),htak⟩
  · rcases h x hf with hta | ⟨hfr,htak⟩
    · exact .inl hta
    · exact .inr ⟨hfr,hk'.locked _ htak⟩

def tablePaths (vs : Finset Nat) : Finset (List Nat) :=
  vs.biUnion fun v => {(upperPath v).take 1, (upperPath v).take 2, upperPath v}

def missing (m : Bytes) (root : Nat) (vs : Finset Nat) : Finset (List Nat) :=
  (tablePaths vs).filter fun path => follow (childTable m) root path = none

section
variable {m m' : Bytes} {r v : Nat} {vs : Finset Nat} {path : List Nat}
theorem tablePaths_path (hpath : path ∈ tablePaths vs) : Path 512 3 path := by
  obtain ⟨v,-,hv⟩ := Finset.mem_biUnion.mp hpath
  have hu := upper_path v
  simp only [Finset.mem_insert,Finset.mem_singleton] at hv
  rcases hv with rfl | rfl | rfl
  · rw [← take_append_drop 1 (upperPath v)] at hu
    exact hu.of_append
  · rw [← take_append_drop 2 (upperPath v)] at hu
    exact hu.of_append
  · exact hu

theorem mem_missing : path ∈ missing m r vs ↔
    path ∈ tablePaths vs ∧ follow (childTable m) r path = none := Finset.mem_filter

theorem missing_congr (h : ∀ path, Path 512 3 path →
    follow (childTable m') r path = follow (childTable m) r path) :
    missing m' r vs = missing m r vs := by
  refine Finset.filter_congr fun path hpath => ?_
  rw [h path (tablePaths_path hpath)]

theorem missing_eq_empty (h : ∀ v ∈ vs, (pageTableOf m r v).isSome) : missing m r vs = ∅ := by
  refine Finset.filter_eq_empty_iff.mpr fun path hpath hn => ?_
  obtain ⟨v,hv, hp⟩ := Finset.mem_biUnion.mp hpath
  have hta := h v hv
  have hw : ∃ rest, upperPath v = path ++ rest := by
    simp only [Finset.mem_insert,Finset.mem_singleton] at hp
    rcases hp with rfl | rfl | rfl
    · exact ⟨_,(take_append_drop 1 _).symm⟩
    · exact ⟨_,(take_append_drop 2 _).symm⟩
    · exact ⟨[],(append_nil _).symm⟩
  obtain ⟨rest,hre⟩ := hw
  rw [pageTableOf,hre,follow_append,hn] at hta
  cases hta
end

section
variable {s s' : Frames} {roots : List Nat} {r t i page : Nat} {before : List Nat} {flags : BitVec 64}
theorem PageMaps.granted_ne_table (h : PageMaps s roots) {n : Nat} {q : PhysicalMemory}
    (hg : s.physical.Granted n page q) {k : Nat} (hk : k < n)
    (hr : r ∈ roots) (hp : Path 512 3 path)
    (hf : follow (childTable s.memory) r path = some t) : t / pageSize ≠ page+k := by
  intro he
  have hl := (h.placed r hr path t hp hf).2.1
  rw [he] at hl
  exact hg.clear (page+k) (by omega) (by omega) hl

theorem PageMaps.mono (h : PageMaps s roots) {fewer : List Nat} (hs : ∀ r ∈ fewer, r ∈ roots) :
    PageMaps s fewer := ⟨h.sound,fun r hr => h.placed r (hs r hr),
    fun r hr r' hr' => h.unique r (hs r hr) r' (hs r' hr')⟩

theorem PageMaps.tablePage_ne (h : PageMaps s roots) {root other : Nat} (hr : root ∈ roots)
    (ho : other ∈ roots) (hn : other ≠ root) (hp : TablePage s [other] page) :
    ¬ TablePage s [root] page := by
  rintro ⟨r,hm,path,t,hpath,ht,hta⟩
  obtain ⟨r',hm',path',t',hp',ht',hta'⟩ := hp
  rw [mem_singleton.mp hm] at ht
  rw [mem_singleton.mp hm'] at ht'
  have ha := (h.placed root hr path t hpath ht).1
  have ha' := (h.placed other ho path' t' hp' ht').1
  have hs : t = t' := by
    unfold pageSize at *
    omega
  subst hs
  exact hn (h.unique other ho root hr path' path t hp' hpath ht' ht).1

theorem follow_of_links (m' : Bytes) (hr : r ∈ roots) (hpath : Path 512 3 path)
    (hl : ∀ r ∈ roots, ∀ path u, Path 512 2 path →
      follow (childTable s.memory) r path = some u →
        ∀ j < 512, childTable m' u j = childTable s.memory u j) :
    follow (childTable m') r path = follow (childTable s.memory) r path := by
  refine follow_congr hpath fun ρ u j hρ _ hu => ?_
  obtain ⟨hρ,hj⟩ := path_snoc.mp hρ
  exact hl r hr ρ u hρ hu j hj

section
variable (h : PageMaps s roots) (hsound : s'.physical.Sound)
  (htotal : s'.physical.totalPages = s.physical.totalPages)
  (hfollow : ∀ r ∈ roots, ∀ path, Path 512 3 path → follow (childTable s'.memory) r path = follow (childTable s.memory) r path)
include h hsound htotal hfollow
theorem PageMaps.transfer (hl : ∀ page, TablePage s roots page → s'.physical.Locked page) : PageMaps s' roots := by
  refine ⟨hsound,?_,?_⟩
  · intro r hr path t hpath ht
    rw [hfollow r hr path hpath] at ht
    obtain ⟨ha,-,hlt⟩ := h.placed r hr path t hpath ht
    refine ⟨ha,hl _ ⟨r,hr,path,t,hpath,ht,rfl⟩,?_⟩
    rw [htotal]
    exact hlt
  · intro r hr r' hr' path path' t hpath hp' ht ht'
    rw [hfollow r hr path hpath] at ht
    rw [hfollow r' hr' path' hp'] at ht'
    exact h.unique r hr r' hr' path path' t hpath hp' ht ht'

theorem PageMaps.keeps (hl : ∀ page, s.physical.Locked page → s'.physical.Locked page) : Keeps roots s s' := by
  refine ⟨h.transfer hsound htotal hfollow ?_,?_,htotal,hl,?_⟩
  · rintro _ ⟨r,hr,path,t,hpath,ht,rfl⟩
    exact hl _ (h.placed r hr path t hpath ht).2.1
  · intro r hr path t hpath ht
    rw [hfollow r hr path hpath]
    exact ht
  rintro page ⟨r,hr,path,t,hpath,ht,hp⟩
  rw [hfollow r hr path hpath] at ht
  exact .inl ⟨r,hr,path,t,hpath,ht,hp⟩
end

section
variable (h : PageMaps s roots) (hr : r ∈ roots) {path : List Nat} (hpath : Path 512 3 path)
  (ht : follow (childTable s.memory) r path = some t) (hi : i < 512) (e : BitVec 64)
include h hr hpath ht hi
theorem PageMaps.set_contents : SameContents roots s { s with memory := setEntry s.memory t i e } := by
  intro x _ hta
  refine set_outside (h.placed r hr path t hpath ht).1 hi fun hp => hta ?_
  exact ⟨r,hr,path,t,hpath,ht,hp.symm⟩

theorem PageMaps.setEntry_own : OnlyOwn roots s { s with memory := setEntry s.memory t i e } := by
  intro x hx
  refine .inl ⟨r,hr,path,t,hpath,ht,?_⟩
  by_contra hp
  exact hx (set_outside (h.placed r hr path t hpath ht).1 hi (Ne.symm hp))
end

theorem translate_congr {m m' : Bytes} {v : Nat} (hpath : pageTableOf m' r v = pageTableOf m r v)
    (he : ∀ pt, pageTableOf m r v = some pt → entry m' pt (v % 512) = entry m pt (v % 512)) :
    translate m' r v = translate m r v := by
  unfold translate
  rw [hpath]
  cases hp : pageTableOf m r v with
  | none => rfl
  | some pt => rw [bind_some,bind_some,he pt hp]
end
end LensorOS.Memory
