import LensorOS.Memory.Boot

/-!
# The processor's walk

The processor goes down the four tables of a page map and stops early at a large page. On page maps
without large pages its walk finds what the kernel means.
-/
namespace LensorOS.Memory
open Framework PageDirectoryEntry List Option Frames
/-- The walk below a table that is `level` tables above the page tables: the physical page,
and the entry that gave it. An entry of the topmost table cannot stand for a page. -/
def walkFrom (m : Bytes) (v : Nat) : (level table : Nat) → Option (Nat × BitVec 64)
  | 0, table =>
    let e := entry m table (v % 512)
    if flag e .present then some (address e,e) else none
  | level+1, table =>
    let e := entry m table (v / 512^(level+1) % 512)
    if flag e .present = false then none
    else if flag e .largerPages then
      if level = 2 then none
      else
        let size := 512^(level+1) * pageSize
        some (address e / size * size+v % 512^(level+1) * pageSize, e)
    else walkFrom m v level (address e)

def walk (m : Bytes) (pageMapLevelFour virtualAddress : Nat) : Option (Nat × BitVec 64) :=
  walkFrom m (vpage virtualAddress) 3 pageMapLevelFour

/-- A page map in use: a tree of locked tables, none of whose links is a large page. -/
structure WellFormed (s : Frames) (root : Nat) : Prop where
  maps : PageMaps s [root]
  nonzero : root ≠ 0
  small : SmallPages s.memory root

section
variable {m m' : Bytes} {v : Nat}
theorem walkFrom_congr {level table : Nat} (h : ∀ path t, Path 512 level path →
    follow (childTable m) table path = some t → ∀ i < 512, entry m' t i = entry m t i) :
    walkFrom m' v level table = walkFrom m v level table := by
  induction level generalizing table with
  | zero =>
    have he := h [] table Path.nil rfl (v % 512) (by omega)
    simp [walkFrom,he]
  | succ level ih =>
    have hi : v / 512^(level+1) % 512 < 512 := by omega
    have he := h [] table Path.nil rfl _ hi
    simp only [walkFrom,he]
    by_cases hp : flag (entry m table (v / 512^(level+1) % 512)) .present = false
    · rw [if_pos hp,if_pos hp]
    rw [if_neg hp,if_neg hp]
    have hc : childTable m table (v / 512^(level+1) % 512) =
        some (address (entry m table (v / 512^(level+1) % 512))) := by
      rw [childTable,if_pos (Bool.eq_true_of_not_eq_false hp)]
    rw [ih fun path t hpa ht => h (_ :: path) t (path_cons.mpr ⟨hi,hpa⟩)
      ((follow_child hc).trans ht)]

theorem walkFrom_succ {level table : Nat}
    (h : flag (entry m table (v / 512^(level+1) % 512)) .largerPages = false) :
    walkFrom m v (level+1) table =
      (childTable m table (v / 512^(level+1) % 512)).bind (walkFrom m v level) := by
  rw [walkFrom]
  cases hp : flag (entry m table (v / 512^(level+1) % 512)) .present with
  | false => rw [if_pos rfl,child_eq_none.mpr hp,bind_none]
  | true =>
    rw [childTable,if_pos hp,bind_some,h,if_neg (by decide),if_neg (by decide)]

theorem walkFrom_zero (table : Nat) : walkFrom m v 0 table =
    (if flag (entry m table (v % 512)) .present then some (entry m table (v % 512))
      else none).map fun e => (address e,e) := by
  rw [walkFrom]
  split_ifs
  · rfl
  · rfl

theorem walk_eq_translate {root virt : Nat} (h : SmallPages m root) :
    walk m root virt = (translate m root (vpage virt)).map fun e => (address e,e) := by
  obtain ⟨v,hv⟩ : ∃ v, v = vpage virt := ⟨_,rfl⟩
  have hi : ∀ n, v / n % 512 < 512 := fun n => Nat.mod_lt _ (by decide)
  have ho : ∀ i, Path 512 1 [i] ↔ i < 512 := fun i => by simp [Framework.Path]
  rw [walk,← hv,walkFrom_succ (h [] root Path.nil rfl _ (hi _)),translate,pageTableOf,
    upperPath,show 512^(2+1) = 2^27 from rfl,follow_cons]
  cases hpdp : childTable m root (v / 2^27 % 512) with
  | none => rfl
  | some pdp =>
    have hr : follow (childTable m) root [v / 2^27 % 512] = some pdp := (follow_child hpdp).trans rfl
    have hp : Path 512 1 [v / 2^27 % 512] := (ho _).mpr (hi _)
    rw [bind_some,bind_some,walkFrom_succ (h _ pdp (hp.mono (by decide)) hr _
      (hi _)),show 512^(1+1) = 2^18 from rfl,follow_cons]
    cases hpd : childTable m pdp (v / 2^18 % 512) with
    | none => rfl
    | some pd =>
      have hr' : follow (childTable m) root [v / 2^27 % 512,v / 2^18 % 512] = some pd := by
        rw [follow_child hpdp,follow_child hpd,follow_nil]
      have hp' : Path 512 2 [v / 2^27 % 512,v / 2^18 % 512] := path_cons.mpr ⟨hi _,(ho _).mpr (hi _)⟩
      rw [bind_some,bind_some,walkFrom_succ (h _ pd hp' hr' _ (hi _)),
        show 512^(0+1) = 2^9 from rfl,follow_cons]
      cases hpt : childTable m pd (v / 2^9 % 512) with
      | none => rfl
      | some pt =>
        rw [bind_some,bind_some,walkFrom_zero,follow_nil,bind_some]
end

section
variable {s : Frames} {root virt phys : Nat} {flags : BitVec 64}
theorem set_small {t : Nat} {e : BitVec 64} (h : PageMaps s [root])
    (ht : pageTableOf s.memory root (vpage virt) = some t) (hs : SmallPages s.memory root) :
    SmallPages (setEntry s.memory t (vpage virt % 512) e) root := by
  have hr := mem_singleton_self root
  obtain ⟨hp,hup,-,-⟩ := set_leaf (e := e) h hr (vpage_lt virt) ht
  intro path u hpa hu i hi
  rw [hp root hr path (hpa.mono (by decide))] at hu
  rw [hup root hr path u hpa hu i hi]
  exact hs path u hpa hu i hi

/-- `map` sets the walk of one virtual page to the given frame and flags, and leaves the walks
of all others. -/
theorem map_exact (h : WellFormed s root)
    (hpages : (missing s.memory root {vpage virt}).card ≤ s.physical.freeCount)
    (halign : phys % pageSize = 0) (hphys : phys < 2^52) (hpres : flag flags .present = true)
    (hlarge : flag flags .largerPages = false) :
    (∃ e, walk (s.map root virt phys flags).memory root virt = some (phys,e) ∧
      ∀ f ∈ PageTableFlag.passedOn, flag e f = flag flags f) ∧ ∀ other, vpage other ≠ vpage virt →
      walk (s.map root virt phys flags).memory root other = walk s.memory root other := by
  have hr := mem_singleton_self root
  have hv : vpage virt ∈ ({vpage virt} : Finset Nat) := Finset.mem_singleton_self _
  obtain ⟨t,s',e,hext,ht,-,-,hs,he,heq⟩ := map_eq h.maps hr h.nonzero hpres phys hv hpages
  obtain ⟨hp,-,ho,hse⟩ := set_leaf (e := e) hext.keeps.maps hr (vpage_lt virt) ht
  have hs' := set_small (e := e) hext.keeps.maps ht (hs hlarge h.small)
  rw [heq]
  refine ⟨⟨e,?_,?_⟩,?_⟩
  · have ha : address e = phys := by rw [he,address_setFlags,address_setAddress _ halign hphys]
    have hfl : flag e .present = true := by rw [he,present_setFlags,hpres]
    rw [walk_eq_translate hs',translate,pageTableOf,hp root hr _ (upper_path _),
      ← pageTableOf,ht,bind_some,hse,if_pos hfl,map_some,ha]
  · intro f hf
    rw [he,flag_setFlags _ _ hf]
  intro other hn
  have hsa : translate (setEntry s'.memory t (vpage virt % 512) e) root (vpage other) =
      translate s'.memory root (vpage other) :=
    translate_congr (hp root hr _ (upper_path _))
      (ho root hr _ (vpage_lt other) fun hc => hn hc.2)
  rw [walk_eq_translate hs',walk_eq_translate h.small,hsa, hext.translation root hr _ (vpage_lt other)]

/-- Unmapping takes away the walk of one page and no other, and writes nothing when there is
none. -/
structure UnmapsPage (s : Frames) (root virt : Nat) : Prop where
  here : walk (s.unmap root virt).memory root virt = none
  others : ∀ other, vpage other ≠ vpage virt →
    walk (s.unmap root virt).memory root other = walk s.memory root other
  quiet : walk s.memory root virt = none → (s.unmap root virt).memory = s.memory

theorem unmap_memory_iff : (s.unmap root virt).memory = s.memory ↔
    flag (entry s.memory (uncheckedTable s.memory root virt) (vpage virt % 512)) .present = false := by
  rw [unmap_eq]
  constructor
  · intro hs
    have he := congrArg (fun m => flag (entry m (uncheckedTable s.memory root virt)
      (vpage virt % 512)) .present) hs
    simp only [entry,setEntry,Bytes.read64_write64_same,flag_setFlag,if_true] at he
    exact he.symm
  · intro ha
    rw [setFlag_self ha]
    exact Bytes.write64_read64 _ _

theorem translate_eq_none_of_unchecked (h : flag (entry s.memory (uncheckedTable s.memory root virt)
    (vpage virt % 512)) .present = false) : translate s.memory root (vpage virt) = none := by
  rw [translate]
  cases ht : pageTableOf s.memory root (vpage virt) with
  | none => rfl
  | some t =>
    rw [uncheckedTable_eq ht] at h
    rw [bind_some,h,if_neg (by decide)]

/-- `unmap` does what it should just when the page has a page table, or when the word that its
unchecked walk ends at has no present flag. -/
theorem unmap_exact (h : WellFormed s root) : UnmapsPage s root virt ↔
    (pageTableOf s.memory root (vpage virt)).isSome ∨
      flag (entry s.memory (uncheckedTable s.memory root virt) (PageMapIndexer.page virt))
        .present = false := by
  rw [← vpage_index]
  constructor
  · rintro ⟨-,-,hq⟩
    refine or_iff_not_imp_left.mpr fun hn => unmap_memory_iff.mp (hq ?_)
    rw [walk_eq_translate h.small,translate,not_isSome_iff_eq_none.mp hn]
    rfl
  rintro (hta | ha)
  · obtain ⟨t,ht⟩ := isSome_iff_exists.mp hta
    have hu := unmap_spec h.maps (mem_singleton_self root) hta
    have hs : SmallPages (s.unmap root virt).memory root := by
      rw [unmap_eq,uncheckedTable_eq ht]
      exact set_small h.maps ht h.small
    refine ⟨?_,fun other hne => ?_,fun hn => unmap_memory_iff.mpr ?_⟩
    · rw [walk_eq_translate hs,hu.here _ (vpage_lt virt) rfl,map_none]
    · rw [walk_eq_translate hs,walk_eq_translate h.small,
        hu.others root (mem_singleton_self root) _ (vpage_lt other) fun hc => hne hc.2]
    rw [walk_eq_translate h.small,translate,ht,bind_some,map_eq_none_iff] at hn
    rw [uncheckedTable_eq ht]
    simpa using hn
  · have hsa := unmap_memory_iff.mpr ha
    refine ⟨?_,fun other _ => by rw [hsa],fun _ => hsa⟩
    rw [hsa,walk_eq_translate h.small,translate_eq_none_of_unchecked ha,map_none]
end

inductive MapCall
  | map (virtualAddress physicalAddress : Nat) (mappingFlags : BitVec 64)
  | unmap (virtualAddress : Nat)

namespace MapCall
def apply (s : Frames) (pageTable : Nat) : MapCall → Frames
  | map virtualAddress physicalAddress mappingFlags =>
    s.map pageTable virtualAddress physicalAddress mappingFlags
  | unmap virtualAddress => s.unmap pageTable virtualAddress

/-- A mapping is of a present page and finds the pages for its tables, and an unmapping finds a page
table. -/
def Served (s : Frames) (pageTable : Nat) : MapCall → Prop
  | map virtualAddress _ mappingFlags => flag mappingFlags .present = true ∧
    (missing s.memory pageTable {vpage virtualAddress}).card ≤ s.physical.freeCount
  | unmap virtualAddress => (pageTableOf s.memory pageTable (vpage virtualAddress)).isSome

def step (old new : Nat) (s : Frames) (call : Nat × MapCall) : Option Frames :=
  if call.1 = old ∨ call.1 = new then some (call.2.apply s call.1) else none

def served (s : Frames) (call : Nat × MapCall) (_ : Frames) : Prop := call.2.Served s call.1
end MapCall

variable {m : Bytes}
section
variable {s s' : Frames} {roots : List Nat} {root other : Nat} {call : MapCall}
theorem MapCall.keeps (h : PageMaps s roots) (hr : root ∈ roots) (hro : root ≠ 0)
    (hs : call.Served s root) :
    Keeps roots s (call.apply s root) ∧ SameContents roots s (call.apply s root) := by
  cases call with
  | map virt phys flags =>
    obtain ⟨hk,hc,-⟩ := map_keeps h hr hro hs.1 phys (Finset.mem_singleton_self _) hs.2
    exact ⟨hk,hc⟩
  | unmap virt => exact unmap_keeps h hr hs

theorem WellFormed.write (h : WellFormed s root)
    (hm : ∀ x, TablePage s [root] (x / pageSize) → m x = s.memory x) :
    WellFormed ⟨m,s.physical⟩ root := by
  have hr := mem_singleton_self root
  refine ⟨(h.maps.write hm).1.maps,h.nonzero,fun path t hp ht i hi => ?_⟩
  have hl := hp.mono (show 2 ≤ 3 by decide)
  have ht := (h.maps.follow_eq hm hr hl).symm.trans ht
  exact (congrArg (flag · .largerPages) (h.maps.entry_eq hm hr hl ht hi)).trans (h.small path t hp ht i hi)

theorem PageMaps.locked_table {page : Nat} (h : PageMaps s roots) (hp : TablePage s roots page) :
    s.physical.Locked page := by
  obtain ⟨r,hm,path,t,hp,ht,hta⟩ := hp
  rw [← hta]
  exact (h.placed r hm path t hp ht).2.1

theorem walk_of_contents (h : PageMaps s [other])
    (hs : ∀ x, TablePage s [other] (x / pageSize) → m x = s.memory x) (virt : Nat) :
    walk m other virt = walk s.memory other virt := by
  exact walkFrom_congr fun path t hp ht i hi =>
    h.entry_eq hs (mem_singleton_self other) hp ht hi

theorem MapCall.walk_other (h : PageMaps s roots) (hr : root ∈ roots) (ho : other ∈ roots)
    (hn : other ≠ root) (hro : root ≠ 0) (hs : call.Served s root) (virt : Nat) :
    walk (call.apply s root).memory other virt = walk s.memory other virt := by
  have hon : ∀ r ∈ roots, PageMaps s [r] := fun r hr =>
    h.mono fun r' hr' => mem_singleton.mp hr' ▸ hr
  obtain ⟨-,hc⟩ := MapCall.keeps (hon root hr) (mem_singleton_self root) hro hs
  exact walk_of_contents (hon other ho) (fun x hx =>
    hc x ((hon other ho).locked_table hx) (h.tablePage_ne hr ho hn hx)) virt
end

/-- What a clone of a page map is to the original, now and after any calls on the two. -/
structure SeparateCopy (s : Frames) (old new : Nat) (s' : Frames) : Prop where
  walks : ∀ virt, walk s'.memory new virt = walk s.memory old virt
  fresh : ∀ page, TablePage s' [new] page → ¬ s.physical.Locked page ∧ s'.physical.Locked page
  disjoint : ∀ page, TablePage s' [new] page → ¬ TablePage s' [old] page
  unchanged : ∀ x, s.physical.Locked (x / pageSize) → s'.memory x = s.memory x
  original : ∀ virt, walk s'.memory old virt = walk s.memory old virt
  later : ∀ σ, Reachable (· = s') (MapCall.step old new) MapCall.served σ →
    ∀ root call σ', MapCall.step old new σ (root,call) = some σ' → call.Served σ root →
      ∀ other, other = old ∨ other = new → other ≠ root →
        ∀ virt, walk σ'.memory other virt = walk σ.memory other virt

section
variable {s s' : Frames} {old new : Nat}
theorem flag_makePdeCow (e : BitVec 64) (f : PageTableFlag) : flag (makePdeCow e) f =
    if f = .readWrite then false
    else flag e f || (decide (f = .lensorCopyOnWrite) && flag e .readWrite) := by
  unfold makePdeCow
  cases hw : flag e .readWrite with
  | false => cases f <;> simp [hw]
  | true => cases f <;> simp [flag_setFlag]

theorem marking_makePdeCow : Marking makePdeCow := by
  refine ⟨fun e => ?_,fun e => ?_,fun e a f => ?_⟩
  · simp [flag_makePdeCow]
  · unfold makePdeCow
    split_ifs
    · rw [address_setFlag,address_setFlag]
    · rfl
  · rw [flag_makePdeCow,flag_makePdeCow,flag_setAddress,flag_setAddress]

section
variable {mark : BitVec 64 → BitVec 64} (h : CopiedUpTo mark s s' 3 old new 512) (hold : WellFormed s old) {page : Nat}
include h
theorem CopiedUpTo.small (hm : Marking mark)
    (hl : ∀ e, flag (mark e) .largerPages = flag e .largerPages)
    (hs : SmallPages s.memory old) : SmallPages s'.memory new := by
  intro path t hp ht i hi
  rcases mirrors_follow hm h.done (hp.mono (show 2 ≤ 3 by decide)) with
    ⟨u,u',hu,hu',he⟩ | ⟨-,hn⟩
  · obtain rfl := some.inj (hu'.symm.trans ht)
    have hd : 3-path.length = 2-path.length+1 := by
      have := hp.1
      omega
    rw [hd] at he
    rw [(he i hi).1,hl,hs path u hp hu i hi,Bool.and_false]
  · cases hn.symm.trans ht

theorem CopiedUpTo.fresh_page (hp : TablePage s' [new] page) :
    ¬ s.physical.Locked page ∧ s'.physical.Locked page := by
  obtain ⟨r,hm,path,t,hpa,ht,rfl⟩ := hp
  rw [mem_singleton.mp hm] at ht
  obtain ⟨-,hf,hta,-⟩ := h.tree.fresh path t hpa ht
  exact ⟨hf,hta⟩

include hold
theorem CopiedUpTo.walk_eq (hm : Marking mark)
    (hl : ∀ e, flag (mark e) .largerPages = flag e .largerPages) (virt : Nat) :
    walk s'.memory new virt = (walk s.memory old virt).map fun w => (w.1,mark w.2) := by
  rw [walk_eq_translate (h.small hm hl hold.small),walk_eq_translate hold.small,
    h.translate hm,Option.map_map,Option.map_map]
  congr 1
  funext e
  exact Prod.ext (hm.address e) rfl

theorem CopiedUpTo.disjoint (hp : TablePage s' [new] page) : ¬ TablePage s' [old] page := by
  refine (h.pageMaps hold.maps).tablePage_ne (by simp) (by simp) ?_ hp
  rintro rfl
  exact (h.tree.fresh [] new Path.nil rfl).2.1 (hold.maps.placed new (mem_singleton_self new) [] new Path.nil rfl).2.1

theorem CopiedUpTo.walk_old (virt : Nat) : walk s'.memory old virt = walk s.memory old virt :=
  walk_of_contents hold.maps (fun x hx => h.grows.memory x (hold.maps.locked_table hx)) virt

theorem CopiedUpTo.wellFormed_old : WellFormed s' old := by
  refine ⟨(h.pageMaps hold.maps).mono (by simp),hold.nonzero,?_⟩
  exact (hold.write fun x hx => h.grows.memory x (hold.maps.locked_table hx)).small
end

theorem pageMaps_of_calls {σ : Frames} (h : PageMaps s' [new,old]) (hold : old ≠ 0)
    (hne : new ≠ 0) (hru : Reachable (· = s') (MapCall.step old new) MapCall.served σ) :
    PageMaps σ [new,old] := by
  induction hru with
  | start hs => exact hs ▸ h
  | next _ hst hse ih =>
    obtain ⟨hr,hn⟩ := ite_none_right_eq_some.mp hst
    rw [← some.inj hn]
    rcases hr with hr | hr
    · exact (MapCall.keeps ih (by simp [hr]) (hr ▸ hold) hse).1.maps
    · exact (MapCall.keeps ih (by simp [hr]) (hr ▸ hne) hse).1.maps

/-- `clonePageMap` makes a separate copy, and makes one if there is a page for each table. -/
theorem clonePageMap_separate (h : WellFormed s old) :
    (s.physical.Locked 0 → tableCount s.memory 3 old ≤ s.physical.freeCount →
      (s.clonePageMap old).1.isSome) ∧
    ∀ new s', s.clonePageMap old = (some new,s') → SeparateCopy s old new s' := by
  have hr := mem_singleton_self old
  constructor
  · intro hz hp
    obtain ⟨new,s',hru,-⟩ := clone_progress h.maps hr hz hp
    rw [hru]
    rfl
  intro new s' hru
  obtain ⟨hc,hnew⟩ := clone_copied h.maps hr hru
  refine ⟨fun virt => ?_,fun page => hc.fresh_page,fun page => hc.disjoint h,
    hc.grows.memory,hc.walk_old h,?_⟩
  · rw [hc.walk_eq h marking_id fun _ => rfl]
    exact map_id_apply
  intro σ hre root call σ' hst hs other ho hne virt
  have hm := pageMaps_of_calls (hc.pageMaps h.maps) h.nonzero hnew hre
  obtain ⟨hro,hnex⟩ := ite_none_right_eq_some.mp hst
  rw [← some.inj hnex]
  have hn : root ≠ 0 := by
    rcases hro with rfl | rfl
    · exact h.nonzero
    · exact hnew
  exact MapCall.walk_other hm (by simpa [or_comm] using hro)
    (by simpa [or_comm] using ho) hne hn hs virt

/-- A clone for copying on write translates every address to the same frame and lets none be
written, marks the pages that could be written or were marked before, and leaves the original. -/
theorem clonePageMapCopyOnWrite_exact (h : WellFormed s old) :
    (s.physical.Locked 0 → tableCount s.memory 3 old ≤ s.physical.freeCount →
      (s.clonePageMapCopyOnWrite old).1.isSome) ∧
    ∀ new s', s.clonePageMapCopyOnWrite old = (some new,s') →
      (∀ virt, walk s.memory old virt = none → walk s'.memory new virt = none) ∧
      (∀ virt page e, walk s.memory old virt = some (page,e) →
        ∃ e', walk s'.memory new virt = some (page,e') ∧ flag e' .readWrite = false ∧
          (flag e' .lensorCopyOnWrite = true ↔
            flag e .readWrite = true ∨ flag e .lensorCopyOnWrite = true)) ∧
      (∀ x, s.physical.Locked (x / pageSize) → s'.memory x = s.memory x) ∧
      (∀ virt, walk s'.memory old virt = walk s.memory old virt) ∧
      ∀ page, TablePage s' [new] page → ¬ TablePage s' [old] page := by
  have ho := cloneMarked_outcome marking_makePdeCow 3 h.maps.sound (h.maps.held (mem_singleton_self old))
  change Outcome _ s 3 old _ (s.clonePageMapCopyOnWrite old) at ho
  rcases ho with ⟨new,s',hr,-,hc,-⟩ | ⟨s',hr,-,hs⟩
  · refine ⟨fun _ _ => by rw [hr]; rfl,fun new' s'' hr' => ?_⟩
    obtain ⟨hne,rfl⟩ := Prod.mk.inj (hr.symm.trans hr')
    cases hne
    have hwa := hc.walk_eq h marking_makePdeCow fun e => by simp [flag_makePdeCow]
    refine ⟨fun virt hn => ?_,fun virt page e hw => ⟨makePdeCow e,?_,?_,?_⟩,
      hc.grows.memory,hc.walk_old h,fun page => hc.disjoint h⟩
    · rw [hwa,hn,map_none]
    · rw [hwa,hw,map_some]
    · simp [flag_makePdeCow]
    · simp [flag_makePdeCow,or_comm]
  · refine ⟨fun hz hp => absurd hp (not_le.mpr (hs hz).1),fun new' s'' hr' => ?_⟩
    cases (Prod.mk.inj (hr.symm.trans hr')).1

/-- The tables of what `clonePageMap` returned. -/
def clonedTables : Option Nat × Frames → List Nat
  | (some new,s') => tablesBelow s'.memory 3 new
  | (none,_) => []

/-- Freeing a clone frees each of its tables once and nothing that was in use before, and leaves the
pages free that were free before. -/
structure Balanced (s : Frames) (active : Nat) (clone : Option Nat × Frames) : Prop where
  frees : clone.2.freePageMap active (asPointer clone.1) =
    ⟨clone.2.memory,(clonedTables clone).foldl PhysicalMemory.freePage clone.2.physical⟩
  once : ((clonedTables clone).map (· / pageSize)).Nodup
  tables : ∀ new ∈ clone.1, ∀ page,
    TablePage clone.2 [new] page ↔ page ∈ (clonedTables clone).map (· / pageSize)
  unused : ∀ page ∈ (clonedTables clone).map (· / pageSize), ¬ s.physical.Locked page
  restored : ∀ page,
    (clone.2.freePageMap active (asPointer clone.1)).physical.Locked page ↔ s.physical.Locked page

theorem CopiedUpTo.balanced (hc : CopiedUpTo id s s' 3 old new 512) (h : WellFormed s old) (hne : new ≠ 0)
    {active : Nat} (hactive : s.physical.Locked (active / pageSize)) : Balanced s active (some new,s') := by
  have hm : PageMaps s' [new] := (hc.pageMaps h.maps).mono (by simp)
  have hn := mem_singleton_self new
  have ho : new ≠ active := by
    rintro rfl
    exact (hc.tree.fresh [] new Path.nil rfl).2.1 hactive
  have hp : ∀ page, TablePage s' [new] page ↔ page ∈ (tablesBelow s'.memory 3 new).map (· / pageSize) := by
    intro page
    simp only [TablePage,List.mem_map,mem_tablesBelow,List.mem_singleton,exists_eq_left]
    grind
  obtain ⟨-,hba⟩ := freePageMap_givesBack hm.sound hne ho fun path u hpat hu =>
    ⟨(hm.placed new hn path u hpat hu).1,(hm.placed new hn path u hpat hu).2.2⟩
  refine ⟨?_,hm.nodup_pages hn,fun _ hs => some.inj hs ▸ hp,fun page hpa => ?_,fun page => ?_⟩
  · change s'.freePageMap active new = _
    rw [freePageMap,if_neg hne,if_neg ho,freeTable_eq 3 hm.sound]
    · rfl
    · exact fun u hu => ⟨(hm.placed_below hn hu).1,(hm.placed_below hn hu).2.2⟩
  · exact (hc.fresh_page ((hp page).mpr hpa)).1
  refine (hba.locked page).trans ⟨?_,fun hl => ⟨hc.grows.locked page hl,fun hpa => (hc.fresh_page hpa).1 hl⟩⟩
  rintro ⟨ht,hno⟩
  refine (hc.tree.taken page ht).resolve_right fun hb => hno ?_
  obtain ⟨path,u,hpat,hu,hpa⟩ := hb
  exact ⟨new,hn,path,u,hpat,hu,hpa⟩

/-- Cloning and freeing balance if there is a page for each table, or none at all. -/
theorem clone_free_balance_iff (h : WellFormed s old) (hzero : s.physical.Locked 0) {active : Nat}
    (hactive : s.physical.Locked (active / pageSize)) : Balanced s active (s.clonePageMap old) ↔
      s.physical.freeCount = 0 ∨ tableCount s.memory 3 old ≤ s.physical.freeCount := by
  rcases h.maps.clone_outcome (mem_singleton_self old) with ⟨new,s',hr,hne,hc,-,hle⟩ | ⟨s',hr,hg,hs⟩
  · rw [hr]
    exact iff_of_true (hc.balanced h hne hactive) (.inr hle)
  obtain ⟨hlt,hsame⟩ := hs hzero
  rw [hr,or_iff_left (by omega),← hsame]
  refine ⟨fun hb page hp => (hb.restored page).mp hp,fun hlo => ⟨rfl,nodup_nil,?_,?_,fun page => ?_⟩⟩
  · intro _ hn
    cases hn
  · intro _ hp
    cases hp
  · exact ⟨hlo page,hg.locked page⟩
end

section
open Machine
theorem entry_small (page : Nat) : flag (bootEntry page) .largerPages = false := by
  have hb : ¬ (page * pageSize+3) / 2^7 % 2 = 1 := by
    unfold pageSize
    omega
  rw [flag_eq_getLsbD,bootEntry,BitVec.getLsbD_ofNat,Nat.testBit_eq_decide_div_mod_eq]
  exact Bool.and_eq_false_iff.mpr (.inr (decide_eq_false hb))

theorem small_wellFormed : WellFormed smallMachine.frames pageSize := by
  refine ⟨small_booted.maps,by decide,?_⟩
  intro path t hp ht i hi
  have hr := (follow_boot (k := 1) (hp.mono (by decide)) (by decide) (by decide)).mp
    ((congrArg (fun r => follow (childTable bootMemory) r path) (one_mul pageSize)).trans ht)
  have hl := hp.1
  have he : entry bootMemory t i =
      if 0 < 1+path.length ∧ i = 0 then bootEntry (1+path.length+1) else 0 := by
    rw [hr.2,entry_boot hi (by omega),if_neg (by omega)]
  refine (congrArg (fun e => flag e .largerPages) he).trans ?_
  split_ifs
  · exact entry_small _
  · exact flag_zero _

theorem map_exact_small :
    (∃ e, walk (smallMachine.frames.map pageSize 0x40000000 0x7000 0x7).memory pageSize
      0x40000000 = some (0x7000,e) ∧ ∀ f ∈ PageTableFlag.passedOn, flag e f = flag 0x7 f) ∧
    ∀ other, vpage other ≠ vpage 0x40000000 →
      walk (smallMachine.frames.map pageSize 0x40000000 0x7000 0x7).memory pageSize other =
        walk smallMachine.frames.memory pageSize other := by
  refine map_exact small_wellFormed ?_ (by decide) (by decide) (by decide) (by decide)
  have hm := missing_card_le smallMachine.frames.memory pageSize {vpage 0x40000000}
  rw [Finset.card_singleton] at hm
  exact hm.trans ((show 1 * 3 ≤ 507 by decide).trans boot_freeCount.ge)

theorem unmap_exact_small : UnmapsPage smallMachine.frames pageSize 0x5000 := by
  obtain ⟨e,he,-⟩ := small_booted.identity 5 (by decide)
  exact (unmap_exact small_wellFormed).mpr (.inl (pageTable_of_translate he))

def strayWord : Frames := ⟨bootMemory.write8 0 1,bootPhysical⟩

theorem entry_strayWord {k : Nat} (hk : k < 4) : entry strayWord.memory (k * pageSize) 1 = 0 := by
  have hs : 0+8 ≤ slot (k * pageSize) 1 := by
    unfold slot
    omega
  refine (Bytes.read64_write8_ne _ _ (by omega)).trans ?_
  refine (entry_boot (by decide) hk.le).trans ?_
  rw [if_neg hk.ne,if_neg (by omega)]

/-- Unmapping a page that has no tables clears the bit. -/
theorem unmap_clears_stray : WellFormed strayWord pageSize ∧
    walk strayWord.memory pageSize 0x8040200000 = none ∧
      (strayWord.unmap pageSize 0x8040200000).memory ≠ strayWord.memory := by
  have hr : entry strayWord.memory pageSize 1 = 0 := by
    have ho := entry_strayWord (k := 1) (by decide)
    rwa [one_mul] at ho
  have hz : entry strayWord.memory 0 1 = 0 := by
    have hn := entry_strayWord (k := 0) (by decide)
    rwa [zero_mul] at hn
  have ht : uncheckedTable strayWord.memory pageSize 0x8040200000 = 0 := by
    change address (entry _ (address (entry _ (address (entry _ pageSize 1)) 1)) 1) = 0
    rw [hr,show address 0 = 0 from rfl,hz,show address 0 = 0 from rfl,hz]
    rfl
  refine ⟨small_wellFormed.write fun x hx => Bytes.write8_outside _ _ ?_,?_,fun hs => ?_⟩
  · rintro rfl
    exact small_booted.null.2 hx
  · change walkFrom strayWord.memory _ 3 pageSize = none
    rw [walkFrom]
    rw [show vpage 0x8040200000 / 512^(2+1) % 512 = 1 from rfl,hr,flag_zero,if_pos rfl]
  have ha := unmap_memory_iff.mp hs
  rw [ht,flag_eq_getLsbD] at ha
  change (Bytes.read64 _ 0).getLsbD 0 = false at ha
  rw [Bytes.read64,BitVec.getLsbD_append,if_pos (by decide)] at ha
  cases ha

theorem pair_of_isSome {result : Option Nat × Frames} (h : result.1.isSome) : ∃ new s', result = (some new,s') := by
  obtain ⟨new,hn⟩ := isSome_iff_exists.mp h
  exact ⟨new,result.2,Prod.ext hn rfl⟩

theorem clone_room (h : WellFormed ⟨m,bootPhysical⟩ pageSize) :
    tableCount m 3 pageSize ≤ bootPhysical.freeCount := by
  have ht : tableCount m 3 pageSize+bootPhysical.freeCount ≤ 512 := h.maps.tableCount_le (mem_singleton_self pageSize)
  rw [boot_freeCount] at ht ⊢
  omega

theorem clonePageMap_separate_small : ∃ new s',
    smallMachine.frames.clonePageMap pageSize = (some new,s') ∧
      SeparateCopy smallMachine.frames pageSize new s' := by
  obtain ⟨hp,hs⟩ := clonePageMap_separate small_wellFormed
  obtain ⟨new,s',hr⟩ := pair_of_isSome (hp small_booted.null.1 (clone_room small_wellFormed))
  exact ⟨new,s',hr,hs new s' hr⟩

theorem clonePageMapCopyOnWrite_exact_small : ∃ new s',
    smallMachine.frames.clonePageMapCopyOnWrite pageSize = (some new,s') ∧
      ∀ virt, walk s'.memory pageSize virt = walk smallMachine.frames.memory pageSize virt := by
  obtain ⟨hp,he⟩ := clonePageMapCopyOnWrite_exact small_wellFormed
  obtain ⟨new,s',hr⟩ := pair_of_isSome (hp small_booted.null.1 (clone_room small_wellFormed))
  exact ⟨new,s',hr,(he new s' hr).2.2.2.1⟩

theorem clone_free_balance_small : tableCount bootMemory 3 pageSize ≤ bootPhysical.freeCount ∧
    Balanced smallMachine.frames pageSize (smallMachine.frames.clonePageMap pageSize) := by
  have hr := clone_room small_wellFormed
  exact ⟨hr,(clone_free_balance_iff small_wellFormed small_booted.null.1
    (small_booted.maps.placed pageSize mem_cons_self [] pageSize Path.nil rfl).2.1).mpr (.inr hr)⟩

def onePage : PhysicalMemory := ⟨⟨65,fun i => if i = 0 then 0xfb else 0xff⟩,512,1,511,1,5⟩

theorem onePage_wellFormed : WellFormed ⟨bootMemory,onePage⟩ pageSize := by
  refine ⟨small_booted.maps.transfer ?_ rfl (fun _ _ _ _ => rfl) ?_,by decide,
    small_wellFormed.small⟩
  · exact ⟨show 512 ≤ 8 * 65 by decide,show ∀ page < 5, onePage.Locked page by decide,by decide,by decide⟩
  rintro page ⟨r,hr,path,t,hp,ht,rfl⟩
  have hl := (small_booted.maps.placed r hr path t hp ht).2.1
  exact (show ∀ page < 5, onePage.Locked page by decide) _ ((boot_locked _).mp hl)

section
variable {s : Frames} {roots : List Nat} {active pageMap kernelSize r : Nat}
theorem missing_union_le {vs ws : Finset Nat} (h : ∀ v ∈ vs, (pageTableOf m r v).isSome) :
    (missing m r (vs ∪ ws)).card ≤ (missing m r ws).card := by
  refine Finset.card_le_card fun path hp => ?_
  obtain ⟨hw,hn⟩ := mem_missing.mp hp
  rw [tablePaths,Finset.union_biUnion,Finset.mem_union] at hw
  refine mem_missing.mpr ⟨hw.resolve_left fun hv => ?_,hn⟩
  have hg := mem_missing.mpr ⟨hv,hn⟩
  rw [missing_eq_empty h] at hg
  exact absurd hg (Finset.notMem_empty path)

/-- Page maps in use, memory for the tables, and RAM that ends before the kernel's own pages. -/
structure InitServed (s : Frames) (roots : List Nat) (active pageMap kernelSize : Nat) : Prop where
  maps : PageMaps s roots
  old : active ∈ roots
  new : pageMap ∈ roots
  nonzero : pageMap ≠ 0
  table : active ≠ pageMap → (pageTableOf s.memory active 0).isSome
  size : kernelSize < 2^31
  ram : ∀ f < s.physical.totalPages, f ∉ runPages (kernelPhysical+kernelVirtual)
    (kernelPages kernelSize)
  supply : (missing s.memory pageMap (runPages 0 s.physical.totalPages ∪
    runPages (kernelPhysical+kernelVirtual)
      (kernelPages kernelSize))).card ≤ s.physical.freeCount

theorem InitServed.unmaps (h : InitServed s roots active pageMap kernelSize) :
    0 < s.physical.totalPages ∧ ∃ kernel : Frames,
      (∀ f < s.physical.totalPages, IdentityAt kernel.memory pageMap f) ∧
      Unmaps roots active (· = 0) kernel.memory
        (s.initVirtual active pageMap kernelSize).2.memory := by
  have hto := h.maps.sound.addressable
  have hpo := Nat.zero_lt_of_lt (h.maps.placed pageMap h.new [] pageMap Path.nil rfl).2.2
  have hpa : kernelPages kernelSize ≤ 2^20 := by
    have hsi := h.size
    unfold kernelPages pageSize
    omega
  have hs := h.supply
  -- the two loops
  obtain ⟨hm,-,k,hp,hco⟩ := @mapRun_spec s roots pageMap 0 0 s.physical.totalPages
    0x3 _ h.maps h.new h.nonzero (show flag 0x3 .present = true from rfl) (by omega)
    (fun i hi => Finset.mem_union_left _ (mem_runPages.mpr ⟨i,hi,rfl⟩)) h.supply
  rw [zero_mul] at hm hp hco
  have hfr := h.maps.sound.afterRequests (show k ≤ s.physical.freeCount by omega)
  obtain ⟨hk,-⟩ := @mapRun_spec _ roots pageMap (kernelPhysical+kernelVirtual)
    0x100 (kernelPages kernelSize) 0x3 _ hm.keeps.maps h.new h.nonzero
    (show flag 0x3 .present = true from rfl) (by omega)
    (fun i hi => Finset.mem_union_right (runPages 0 s.physical.totalPages)
      (mem_runPages.mpr ⟨i,hi,rfl⟩))
    (by rw [hp]; omega)
  unfold initVirtual
  dsimp only
  generalize s.mapRun pageMap 0 0 0x3 s.physical.totalPages = ram at *
  rw [show 0x100 * pageSize = kernelPhysical from rfl] at hk
  generalize ram.mapRun pageMap (kernelPhysical+kernelVirtual)
    kernelPhysical 0x3 (kernelPages kernelSize) = kernel at *
  have hid : ∀ f < s.physical.totalPages, IdentityAt kernel.memory pageMap f := by
    intro f hf
    have hpag : ∀ i < s.physical.totalPages, vpage (0+i * pageSize) = i := by
      intro i hi
      unfold vpage pageSize
      omega
    obtain ⟨i,hi,hfi,e,he,ha,-⟩ := hm.here f ⟨f,hf,(hpag f hf).symm⟩
    rw [hpag i hi] at hfi
    refine ⟨e,?_,by rw [ha,zero_add,hfi]⟩
    rw [hk.others pageMap h.new f (by omega) fun hc =>
      h.ram f hf (mem_runPages.mpr hc.2)]
    exact he
  have hw : (pageTableOf kernel.memory active (vpage 0)).isSome := by
    rw [show vpage 0 = 0 from rfl]
    by_cases hsa : active = pageMap
    · obtain ⟨e,he,-⟩ := hid 0 hpo
      exact hsa ▸ pageTable_of_translate he
    · obtain ⟨t,ht⟩ := isSome_iff_exists.mp (h.table hsa)
      exact isSome_iff_exists.mpr ⟨t,(hm.keeps.trans hk.keeps).paths active h.old _ t (upper_path _) ht⟩
  exact ⟨hpo,kernel,hid,unmap_spec hk.keeps.maps h.old hw⟩

theorem InitServed.null (h : InitServed s roots active pageMap kernelSize)
    (hn : active ≠ pageMap) :
    (translate (s.initVirtual active pageMap kernelSize).2.memory pageMap 0).isSome := by
  obtain ⟨hp,kernel,hi,hu⟩ := h.unmaps
  obtain ⟨e,he,-⟩ := hi 0 hp
  rw [hu.others pageMap h.new 0 (by decide) fun hc => hn hc.1.symm,he]
  rfl

theorem kernelPages_supply (ht : s.physical.totalPages = 512)
    (h : ∀ f < 512, (translate s.memory r f).isSome) (hf : 6 ≤ s.physical.freeCount) :
    (missing s.memory r (runPages 0 s.physical.totalPages ∪
      runPages (kernelPhysical+kernelVirtual) (kernelPages 0))).card ≤ s.physical.freeCount := by
  have hs : ∀ v ∈ runPages 0 s.physical.totalPages, (pageTableOf s.memory r v).isSome := by
    intro v hv
    obtain ⟨i,hi,rfl⟩ := mem_runPages.mp hv
    obtain ⟨e,he⟩ := isSome_iff_exists.mp (h (vpage (0+i * pageSize)) (by
      unfold vpage pageSize
      omega))
    exact pageTable_of_translate he
  have hc := runPages_card_le (kernelPhysical+kernelVirtual) (kernelPages 0)
  have htw : kernelPages 0 = 2 := rfl
  have hm := missing_card_le s.memory r (runPages (kernelPhysical+kernelVirtual) (kernelPages 0))
  exact (missing_union_le hs).trans (by omega)

theorem initServed_small (hm : PageMaps s roots) (ha : active ∈ roots)
    (hma : pageMap ∈ roots) (hr : pageMap ≠ 0) (ht : s.physical.totalPages = 512)
    (hs : ∀ f < 512, (translate s.memory pageMap f).isSome)
    (hfr : 6 ≤ s.physical.freeCount) (hold : (pageTableOf s.memory active 0).isSome) :
    InitServed s roots active pageMap 0 := by
  refine ⟨hm,ha,hma,hr,fun _ => hold,by decide,?_,
    kernelPages_supply ht hs hfr⟩
  intro f hf hin
  obtain ⟨i,hi,rfl⟩ := mem_runPages.mp hin
  have hi : i < 2 := hi
  unfold vpage kernelPhysical kernelVirtual pageSize at hf
  omega

theorem small_shown : ∀ f < 512, (translate bootMemory pageSize f).isSome := by
  intro f hf
  obtain ⟨e,he,-⟩ := small_booted.identity f hf
  exact isSome_iff_exists.mpr ⟨e,he⟩

theorem small_null : (pageTableOf bootMemory pageSize 0).isSome := by
  obtain ⟨e,he⟩ := isSome_iff_exists.mp (small_shown 0 (by decide))
  exact pageTable_of_translate he

end

def strayTable : Frames := ⟨setEntry bootMemory 0 1 (.ofNat 64 (4 * pageSize)),bootPhysical⟩

/-- Unmapping an address that the clone does not have follows a word in page zero to the page table of
the original, and takes a page away from it. -/
theorem clone_unmap_reaches : WellFormed strayTable pageSize ∧ ∃ new s',
    strayTable.clonePageMap pageSize = (some new,s') ∧ (walk s'.memory pageSize 0).isSome ∧
      walk ((MapCall.unmap 0x8080200000).apply s' new).memory pageSize 0 = none := by
  have hr := mem_singleton_self pageSize
  have hm : ∀ x, TablePage smallMachine.frames [pageSize] (x / pageSize) →
      strayTable.memory x = bootMemory x := by
    refine fun x hx => Bytes.write64_outside _ _ (.inr ?_)
    by_contra hlt
    have h0 : x / pageSize = 0 := Nat.div_eq_of_lt (lt_of_lt_of_le (not_le.mp hlt) (by decide))
    exact small_booted.null.2 (h0 ▸ hx)
  have hw : WellFormed strayTable pageSize := small_wellFormed.write hm
  obtain ⟨new,s',hru,-⟩ := clone_progress hw.maps hr small_booted.null.1 (clone_room hw)
  obtain ⟨hc,-⟩ := clone_copied hw.maps hr hru
  have hm' : ∀ x, TablePage smallMachine.frames [pageSize] (x / pageSize) → s'.memory x = bootMemory x :=
    fun x hx => (hc.grows.memory x (small_wellFormed.maps.locked_table hx)).trans (hm x hx)
  have hs : ∀ k < 2, ∀ j < 512, ¬ (k * pageSize = 0 ∧ j = 1) → 0 < j →
      entry strayTable.memory (k * pageSize) j = 0 := by
    intro k hk j hj hne hp
    refine (entry_set rfl (Nat.mul_mod_left _ _) (by decide) hj).trans ?_
    rw [if_neg hne,entry_boot hj (by omega),if_neg (by omega),if_neg (by omega)]
  have hz : ∀ j < 512, entry s'.memory 0 j = entry strayTable.memory 0 j := fun j hj =>
    hc.grows.entry rfl small_booted.null.1 hj
  have hnew : entry s'.memory new 1 = 0 := by
    refine (hc.done 1 (by decide)).2.2 ?_
    rw [← one_mul pageSize,hs 1 (by decide) 1 (by decide) (by decide) (by decide)]
    exact flag_zero _
  have ht : uncheckedTable s'.memory new 0x8080200000 = 4 * pageSize := by
    change address (entry _ (address (entry _ (address (entry _ new 1)) 2)) 1) = _
    have h1 : entry strayTable.memory 0 1 = .ofNat 64 (4 * pageSize) :=
      (entry_set rfl rfl (by decide) (by decide)).trans (if_pos ⟨rfl,rfl⟩)
    have h2 := hs 0 (by decide) 2 (by decide) (by decide) (by decide)
    rw [zero_mul] at h2
    rw [hnew,show address 0 = 0 from rfl,hz 2 (by decide),h2,show address 0 = 0 from rfl,hz 1 (by decide),h1]
    decide
  obtain ⟨t,hp⟩ := isSome_iff_exists.mp small_null
  obtain rfl := pageTableOf_boot hp
  have hp' : pageTableOf s'.memory pageSize (vpage 0) = some (4 * pageSize) :=
    (small_wellFormed.maps.follow_eq hm' hr (upper_path 0)).trans hp
  have he : ((MapCall.unmap 0x8080200000).apply s' new).memory = (s'.unmap pageSize 0).memory := by
    change (s'.unmap new 0x8080200000).memory = _
    rw [unmap_eq,unmap_eq,ht,uncheckedTable_eq hp']
    rfl
  refine ⟨hw,new,s',hru,?_,?_⟩
  · rw [walk_of_contents small_wellFormed.maps hm' 0,walk_eq_translate small_wellFormed.small,isSome_map]
    exact small_shown 0 (by decide)
  · rw [he]
    exact ((unmap_exact (hc.wellFormed_old hw)).mpr (.inl (isSome_iff_exists.mpr ⟨_,hp'⟩))).here

/-- A clone that runs out of pages keeps the page it has taken. -/
theorem clone_free_leak : WellFormed ⟨bootMemory,onePage⟩ pageSize ∧ ¬ onePage.Locked 5 ∧
    ∃ s', clonePageMap ⟨bootMemory,onePage⟩ pageSize = (none,s') ∧
      (s'.freePageMap (2 * pageSize) (asPointer none)).physical.Locked 5 := by
  obtain ⟨q,hq⟩ : ∃ q, onePage.requestPage = (some (5 * pageSize), q) := ⟨_,Prod.ext (by decide +kernel) rfl⟩
  have he : q.requestPage.1 = none ∧ q.requestPage.2.Locked 5 := by
    rw [show q = onePage.requestPage.2 by rw [hq]]
    decide +kernel
  have hn : ∀ m old, cloneTable 2 ⟨m,q⟩ old = (none, ⟨m,q.requestPage.2⟩) := by
    intro m old
    rw [cloneTable,cloneWith,he.1]
    rfl
  have hen : flag (entry (bootMemory.fill (5 * pageSize) pageSize 0) pageSize 0) .present = true := by
    rw [entry_fill (by decide) (by decide) (by decide),if_neg (by decide)]
    exact (congrArg (flag · .present) (entry_boot (k := 1) (by decide) (by decide))).trans (by decide)
  have hc : clonePageMap ⟨bootMemory,onePage⟩ pageSize =
      (none, ⟨bootMemory.fill (5 * pageSize) pageSize 0,q.requestPage.2⟩) := by
    rw [clonePageMap,cloneTable,cloneWith]
    simp only [hq,asPointer,getD_some]
    rw [if_neg (by decide),cloneEntries]
    simp only [hen,hn,Bool.true_eq_false,if_false]
  refine ⟨onePage_wellFormed,by decide,_,hc,?_⟩
  rw [freePageMap,asPointer,getD_none,if_pos rfl]
  exact he.2
end
end LensorOS.Memory
