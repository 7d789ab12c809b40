import LensorOS.Framework.Run
import LensorOS.Memory.Loading

/-!
# The machine at boot

The state in which the first process is created: the kernel's page map shows all of RAM at the
virtual address equal to the physical one.
-/
namespace LensorOS.Memory
open Framework PageDirectoryEntry List
namespace Machine
def IdentityAt (m : Bytes) (root f : Nat) : Prop := ∃ e, translate m root f = some e ∧ address e = f * pageSize

theorem IdentityAt.congr {m m' : Bytes} {r r' f : Nat} (h : IdentityAt m r f)
    (hs : translate m' r' f = translate m r f) : IdentityAt m' r' f := by
  obtain ⟨e,he,ha⟩ := h
  exact ⟨e,hs.trans he,ha⟩

structure Booted (s : Machine) : Prop where
  maps : PageMaps s.frames [s.kernelMap]
  nonzero : s.kernelMap ≠ 0
  null : s.frames.physical.Locked 0 ∧ ¬ TablePage s.frames [s.kernelMap] 0
  identity : ∀ f < s.frames.physical.totalPages, IdentityAt s.frames.memory s.kernelMap f
  supervisor : ∀ v < 2^36, ∀ e, translate s.frames.memory s.kernelMap v = some e →
    flag e .userSuper = false
  processes : s.processes = []
  pageMapsToFree : s.pageMapsToFree = []
  log : s.log = []

theorem pageTable_of_translate {m : Bytes} {r v : Nat} {e : BitVec 64}
    (h : translate m r v = some e) : (pageTableOf m r v).isSome := by
  cases hp : pageTableOf m r v with
  | none =>
    rw [translate,hp] at h
    cases h
  | some t => rfl

variable {s : Machine}
theorem Booted.apportioned (h : Booted s) : Apportioned s fun _ => [] := by
  have hro : s.roots = [s.kernelMap] := by
    unfold roots
    rw [h.processes,h.pageMapsToFree]
    rfl
  have ho : ∀ f, s.owners f = 0 := by
    intro f
    simp [owners,holders,h.processes]
  have hn : ∀ p, p ∉ s.processes := by simp [h.processes]
  refine ⟨hro ▸ h.maps,?_,?_,?_,?_,hro ▸ h.null,?_,h.supervisor,?_,?_,?_,?_,?_,?_⟩
  · rw [hro]
    exact nodup_singleton _
  · rw [hro]
    simpa using h.nonzero.symm
  · simp [h.processes]
  · exact fun p hp => absurd hp (hn p)
  · intro r hr v hv
    rw [h.processes,map_nil,mem_singleton] at hr
    obtain ⟨e,he,-⟩ := h.identity v hv
    exact hr ▸ pageTable_of_translate he
  · intro f
    rw [ho]
    omega
  · intro f hf
    rw [ho] at hf
    exact absurd hf (by omega)
  · exact fun p hp => absurd hp (hn p)
  · exact fun p hp => absurd hp (hn p)
  · intro f
    rw [ho,h.log]
    rfl
  · exact fun p hp => absurd hp (hn p)

def served (s : Machine) (call : Call) (_ : Machine) : Prop := s.Served call

theorem apportioned_of_run (h : Reachable Booted step served s) : Apportioned s fun _ => [] := by
  induction h with
  | start h => exact h.apportioned
  | next _ hst hs ih => exact ih.moves (step_moves ih hs hst)

def HasRegion (s : Machine) (pid : Nat) (g : Region) : Prop := ∃ p ∈ s.processes, p.processID = pid ∧ g ∈ p.memories

def Owned (s : Machine) (f : Nat) : Prop := ∃ pid g, s.HasRegion pid g ∧ g.Holds f

/-- The change hides no frame of the kernel, and gives no frame back that a region hides. -/
def Change.SparesRam (s : Machine) : Change → Prop
  | .grant _ g => ∀ f < s.frames.physical.totalPages, g.Covers f → s.Owned f ∨ g.Holds f
  | .drop _ gone => ∀ g ∈ gone, (∀ f < s.frames.physical.totalPages, ¬ g.Covers f) ∧
      ∀ f, g.Holds f → ∀ pid g', s.HasRegion pid g' → ¬ g'.Covers f
  | .discard p => ∀ g ∈ p.memories, ∀ f, g.Holds f → ∀ pid g', pid ≠ p.processID →
      s.HasRegion pid g' → ¬ g'.Covers f
  | .other => True

/-- The call keeps its regions out of RAM, its stack apart, and drops only regions above RAM; no
region of another process covers the number of a frame that is given back. -/
def Call.SparesRam (s : Machine) : Call → Prop
  | .create (some program) => ∀ h ∈ program.headers, h.type = .load →
      ∀ v ∈ runPages h.vaddr.toNat h.pages, s.frames.physical.totalPages ≤ v
  | .exec pid (some program) =>
      (∀ h ∈ program.headers, h.type = .load →
        ∀ v ∈ runPages h.vaddr.toNat h.pages, s.frames.physical.totalPages ≤ v) ∧
      ∀ p, s.process pid = some p → Change.SparesRam s (.drop p p.memories)
  | .map pid address size _ => ∀ p, s.process pid = some p →
      ∀ v ∈ runPages (mapAddress p address) (pagesFor size.toNat), s.frames.physical.totalPages ≤ v
  | .unmap pid address => ∀ p, s.process pid = some p → ∀ g ∈ p.memories,
      g.vaddr = address.toNat → Change.SparesRam s (.drop p [g])
  | .exit pid => ∀ p, s.process pid = some p → Change.SparesRam s (.discard p)
  | _ => True

def sparing (s : Machine) (call : Call) (_ : Machine) : Prop := s.Served call ∧ call.SparesRam s

theorem served_of_sparing (h : Reachable Booted step sparing s) : Reachable Booted step served s :=
  h.mono fun _ _ _ hg => hg.1

section
def bootEntry (page : Nat) : BitVec 64 := BitVec.ofNat 64 (page * pageSize+3)

theorem entry_address {page : Nat} (h : page < 2^40) : address (bootEntry page) = page * pageSize := by
  rw [address_eq,bootEntry,BitVec.toNat_ofNat]
  unfold pageSize
  omega

theorem entry_present (page : Nat) : flag (bootEntry page) .present = true := by
  have hb : (page * pageSize+3) / 2^0 % 2 = 1 := by
    unfold pageSize
    omega
  rw [flag_eq_getLsbD,bootEntry,BitVec.getLsbD_ofNat,Nat.testBit_eq_decide_div_mod_eq]
  exact Bool.and_eq_true_iff.mpr ⟨rfl,decide_eq_true hb⟩

theorem entry_supervisor (page : Nat) : flag (bootEntry page) .userSuper = false := by
  have hb : ¬ (page * pageSize+3) / 2^2 % 2 = 1 := by
    unfold pageSize
    omega
  rw [flag_eq_getLsbD,bootEntry,BitVec.getLsbD_ofNat,Nat.testBit_eq_decide_div_mod_eq]
  exact Bool.and_eq_false_iff.mpr (.inr (decide_eq_false hb))

def identityTable (m : Bytes) (table : Nat) : (count : Nat) → Bytes
  | 0 => m
  | count+1 => setEntry (identityTable m table count) table count (bootEntry count)

theorem entry_identityTable {m : Bytes} {table u j count : Nat} (ht : table % pageSize = 0)
    (hu : u % pageSize = 0) (hj : j < 512) (hc : count ≤ 512) :
    entry (identityTable m table count) u j =
      if u = table ∧ j < count then bootEntry j else entry m u j := by
  induction count with
  | zero => simp [identityTable]
  | succ count ih =>
    rw [identityTable,entry_set ht hu (by omega) hj,ih (by omega)]
    by_cases hta : u = table
    · by_cases hl : j = count
      · simp [hta,hl]
      · have hlt : j < count+1 ↔ j < count := by omega
        simp [hta,hl,hlt]
    · simp [hta]

def zeroMemory : Bytes := fun _ => 0

def bootMemory : Bytes :=
  identityTable (setEntry (setEntry (setEntry zeroMemory pageSize 0 (bootEntry 2))
    (2 * pageSize) 0 (bootEntry 3)) (3 * pageSize) 0 (bootEntry 4)) (4 * pageSize) 512

def bootPhysical : PhysicalMemory := ⟨⟨65,fun i => if i = 0 then 0xf8 else 0⟩,512,507,5,507,5⟩
def smallMachine : Machine := ⟨⟨bootMemory,bootPhysical⟩,pageSize,[],[],0,[]⟩

theorem entry_boot {k j : Nat} (hj : j < 512) (hk : k ≤ 4) :
    entry bootMemory (k * pageSize) j =
      if k = 4 then bootEntry j else if 0 < k ∧ j = 0 then bootEntry (k+1) else 0 := by
  have hz : ∀ u, entry zeroMemory u j = 0 := by
    intro u
    simp [entry,Bytes.read64,zeroMemory]
  have ha : ∀ n, n * pageSize % pageSize = 0 := fun n => Nat.mul_mod_left n pageSize
  have ho := Nat.mod_self pageSize
  rw [bootMemory,entry_identityTable (ha 4) (ha k) hj le_rfl,
    entry_set (ha 3) (ha k) (by decide) hj,
    entry_set (ha 2) (ha k) (by decide) hj,
    entry_set ho (ha k) (by decide) hj,hz]
  interval_cases k <;> simp [pageSize,hj]

theorem child_boot {k j : Nat} (hj : j < 512) (hl : 0 < k) (hk : k < 4) :
    childTable bootMemory (k * pageSize) j = if j = 0 then some ((k+1) * pageSize) else none := by
  have he : entry bootMemory (k * pageSize) j = if j = 0 then bootEntry (k+1) else 0 := by
    rw [entry_boot hj hk.le,if_neg hk.ne]
    simp [hl]
  rw [childTable,he]
  by_cases hz : j = 0
  · rw [if_pos hz,if_pos hz,if_pos (entry_present _),entry_address (by omega)]
  · rw [if_neg hz,if_neg hz,if_neg (by decide)]

theorem follow_boot {path : List Nat} {k t : Nat} (hp : Path 512 (4-k) path)
    (hl : 0 < k) (hk : k ≤ 4) : follow (childTable bootMemory) (k * pageSize) path = some t ↔
      path = replicate path.length 0 ∧ t = (k+path.length) * pageSize := by
  induction path generalizing k with
  | nil => simp [eq_comm]
  | cons j path ih =>
    have hlt : k < 4 := by
      have hle := hp.1
      rw [length_cons] at hle
      omega
    obtain ⟨hj,hr⟩ : j < 512 ∧ Path 512 (4-(k+1)) path := by
      have hd : 4-k = 4-(k+1)+1 := by omega
      rw [hd] at hp
      exact path_cons.mp hp
    rw [follow_cons,child_boot hj hl hlt]
    by_cases hz : j = 0
    · rw [if_pos hz,Option.bind_some,ih hr (by omega) (by omega),hz]
      simp [replicate_succ,add_comm,add_left_comm]
    · simp [hz,replicate_succ]

theorem boot_locked (j : Nat) : bootPhysical.Locked j ↔ j < 5 := by
  unfold PhysicalMemory.Locked bootPhysical
  by_cases hl : j < 8
  · interval_cases j <;> decide
  have hb : j / 8 ≠ 0 := by omega
  simp only [Bitmap.get_eq,hb,if_false]
  simp
  omega

theorem boot_sound : bootPhysical.Sound := by
  refine ⟨show 512 ≤ 8 * 65 by decide,?_,show 65 ≤ 512 by decide,show 512 ≤ 2^36 by decide⟩
  intro page hp
  exact (boot_locked page).mpr hp

theorem boot_freeCount : bootPhysical.freeCount = 507 := by
  have hf : (Finset.range 512).filter (fun j => ¬ bootPhysical.Locked j) = Finset.Ico 5 512 := by
    ext j
    simp only [boot_locked,Finset.mem_filter,Finset.mem_range,Finset.mem_Ico]
    omega
  have hc := congrArg Finset.card hf
  rwa [Nat.card_Ico] at hc

theorem boot_plenty {n : Nat} (hn : n ≤ 59) : bootPhysical.Plenty 448 n := by
  refine ⟨⟨⟨5,?_,?_⟩,⟨?_,by decide⟩,?_⟩,?_⟩
  · show 5+n < 65
    omega
  · intro k _
    rw [boot_locked]
    omega
  · show n ≤ 507
    omega
  · show n ≤ 507
    omega
  · rw [boot_freeCount]
    omega

theorem pageTableOf_boot {v pt : Nat} (h : pageTableOf bootMemory pageSize v = some pt) : pt = 4 * pageSize := by
  have hf := (follow_boot (k := 1) (upper_path v) (by decide) (by decide)).mp
    ((congrArg (fun r => pageTableOf bootMemory r v) (one_mul pageSize)).trans h)
  exact hf.2

theorem small_booted : Booted smallMachine := by
  have hfo : ∀ {path : List Nat} {t : Nat}, Path 512 3 path →
      (follow (childTable bootMemory) pageSize path = some t ↔
        path = replicate path.length 0 ∧ t = (1+path.length) * pageSize) := by
    intro path t hp
    have hroo := follow_boot (k := 1) (t := t) hp (by decide) (by decide)
    rwa [one_mul] at hroo
  have hro : ∀ r ∈ [smallMachine.kernelMap], r = pageSize := by
    intro r hr
    exact mem_singleton.mp hr
  refine ⟨⟨boot_sound,?_,?_⟩,by decide,⟨?_,?_⟩,?_,?_,rfl,rfl,rfl⟩
  · intro r hr path t hp ht
    rw [hro r hr] at ht
    obtain ⟨-,rfl⟩ := (hfo hp).mp ht
    have hle := hp.1
    rw [PhysicalMemory.page_mul]
    refine ⟨Nat.mul_mod_left _ _,(boot_locked _).mpr (by omega),?_⟩
    show 1+path.length < 512
    omega
  · intro r hr r' hr' path path' t hp hp' ht ht'
    rw [hro r hr] at ht
    rw [hro r' hr'] at ht'
    obtain ⟨hz,hta⟩ := (hfo hp).mp ht
    obtain ⟨hz',hta'⟩ := (hfo hp').mp ht'
    have hle : path.length = path'.length := by
      rw [hta] at hta'
      have hs := Nat.eq_of_mul_eq_mul_right (by decide) hta'
      omega
    refine ⟨(hro r hr).trans (hro r' hr').symm,?_⟩
    rw [hz,hz',hle]
  · exact (boot_locked 0).mpr (by decide)
  · rintro ⟨r,hr,path,t,hp,ht,hpa⟩
    rw [hro r hr] at ht
    obtain ⟨-,rfl⟩ := (hfo hp).mp ht
    rw [PhysicalMemory.page_mul] at hpa
    omega
  · intro f hf
    have hlt : f < 512 := hf
    have hta : pageTableOf bootMemory pageSize f = some (4 * pageSize) := by
      rw [pageTableOf,hfo (upper_path f)]
      have hi : upperPath f = [0,0,0] := by
        simp only [upperPath,cons.injEq,and_true]
        omega
      rw [hi]
      exact ⟨rfl,rfl⟩
    have hen : entry bootMemory (4 * pageSize) (f % 512) = bootEntry f := by
      rw [entry_boot (by omega) le_rfl,if_pos rfl,Nat.mod_eq_of_lt hlt]
    refine ⟨bootEntry f,?_,entry_address (by omega)⟩
    show translate bootMemory pageSize f = some (bootEntry f)
    rw [translate,hta,Option.bind_some,hen,if_pos (entry_present f)]
  · intro v _ e he
    obtain ⟨pt,hpt,hl⟩ := Option.bind_eq_some_iff.mp he
    rw [pageTableOf_boot hpt] at hl
    obtain ⟨-,hen⟩ := Option.ite_none_right_eq_some.mp hl
    rw [← Option.some.inj hen]
    have hs : entry bootMemory (4 * pageSize) (v % 512) = bootEntry (v % 512) := by
      rw [entry_boot (by omega) le_rfl,if_pos rfl]
    exact (congrArg (fun e => flag e .userSuper) hs).trans (entry_supervisor _)

def codeHeader : ProgramHeader := ⟨.load,0x5,0x200000,1,0x1000,some [0xc3]⟩
def smallProgram : Program := ⟨[codeHeader],[[0x61]]⟩

theorem small_whole : smallProgram.Whole := by
  refine ⟨fun h hh _ => ?_,by decide⟩
  rw [mem_singleton.mp hh]
  exact ⟨⟨_,rfl,rfl⟩,by decide,by decide,by decide⟩

theorem code_pages : codeHeader.pages = 1 := by decide

theorem code_page : 512 ∈ runPages codeHeader.vaddr.toNat codeHeader.pages := by
  rw [code_pages,mem_runPages]
  exact ⟨0,one_pos,by decide⟩

theorem small_above : ∀ h ∈ smallProgram.headers, h.type = .load →
    ∀ v ∈ runPages h.vaddr.toNat h.pages, 512 ≤ v := by
  intro h hh _ v hv
  obtain rfl := mem_singleton.mp hh
  rw [code_pages] at hv
  obtain ⟨i,hi,rfl⟩ := mem_runPages.mp hv
  obtain rfl : i = 0 := Nat.lt_one_iff.mp hi
  decide

variable {h : ProgramHeader}
theorem segmentPages_one (hl : h.type = .load) : segmentPages [h] = runPages h.vaddr.toNat h.pages := by
  rw [segmentPages,if_pos hl,segmentPages,Finset.union_empty]

theorem segmentFrames_one (hl : h.type = .load) : segmentFrames [h] = h.pages := by
  rw [segmentFrames,if_pos hl,segmentFrames,add_zero]

theorem room_oneSegment (args : List (List (BitVec 8))) (m : Bytes)
    (root : Nat) (hl : h.type = .load) (hp : h.pages = 1) :
    Program.room ⟨[h],args⟩ m root ≤ 8 := by
  have hc : (segmentPages [h]).card ≤ 1 := by
    rw [segmentPages_one hl,hp]
    exact runPages_card_le _ 1
  have hm := missing_card_le m root (segmentPages [h])
  have hf := segmentFrames_one hl
  have hs : userProcessStackSizePages = 4 := rfl
  simp only [Program.room]
  omega

structure OneProcess (s : Machine) (p : Process) : Prop where
  reachable : Reachable Booted step sparing s
  only : At s p [] []
  processID : p.processID = 1
  memories : ∃ a b, p.memories = [stackRegion [codeHeader] a,segmentRegion codeHeader b]
  code : ∃ e, translate s.frames.memory p.cr3 512 = some e ∧ flag e .userSuper = true ∧
    flag e .readWrite = false
  total : s.frames.physical.totalPages = 512
  plenty : s.frames.physical.Plenty 448 46

theorem OneProcess.served {p : Process} (h : OneProcess s p) : Reachable Booted step served s :=
  served_of_sparing h.reachable

section
variable {s : Machine} (hboot : Booted s) (htotal : s.frames.physical.totalPages = 512)
  (hplenty : s.frames.physical.Plenty 448 59)
include hboot htotal hplenty
theorem Booted.room_small : s.frames.physical.Plenty 448 (tableCount s.frames.memory 3 s.kernelMap +
      (Program.room ⟨[codeHeader],[[0x61]]⟩ s.frames.memory s.kernelMap+46)) := by
  have hl : codeHeader.type = .load := rfl
  have hr := room_oneSegment [[0x61]] s.frames.memory s.kernelMap hl code_pages
  have ht := hboot.maps.tableCount_le mem_cons_self
  have hs := hplenty.spare
  exact hplenty.mono (by omega)

theorem Booted.served_small : s.Served (.create (some smallProgram)) := by
  refine .inr ⟨small_whole,(hboot.room_small htotal hplenty).roomy.mono ?_⟩
  exact Nat.add_le_add_left (Nat.le_add_right _ _) _
end

theorem Booted.oneProcess (hboot : Booted s) (hf : s.thePid = 0)
    (hn : s.processes = []) (htotal : s.frames.physical.totalPages = 512)
    (hplenty : s.frames.physical.Plenty 448 59) :
    ∃ p, OneProcess (s.createUserspaceElf64Process (some smallProgram)) p := by
  have ha := hboot.apportioned
  obtain ⟨new,a,b,hat,hc,hr⟩ := create_oneSegment ha (cons_ne_nil _ _)
    small_whole rfl (hboot.room_small htotal hplenty)
  have hs := hboot.served_small htotal hplenty
  rw [hn,hf] at hat
  refine ⟨_,.next (.start hboot) rfl ⟨hs,fun h hh hl v hv => htotal.le.trans (small_above h hh hl v hv)⟩,hat,rfl,⟨a,b,rfl⟩,?_,?_,hr⟩
  · rw [htotal] at hc
    exact hc 512 code_page le_rfl
  · have hm := step_moves ha hs rfl
    exact (ha.moves_total hm).trans htotal

theorem small_oneProcess : ∃ p, OneProcess (smallMachine.createUserspaceElf64Process (some smallProgram)) p :=
  small_booted.oneProcess rfl rfl rfl (boot_plenty le_rfl)

variable {p : Process}
theorem Apportioned.stack_covers (h : Apportioned s fun _ => []) (hp : p ∈ s.processes)
    {headers : List ProgramHeader} {a v : Nat} (hg : stackRegion headers a ∈ p.memories)
    (hc : (stackRegion headers a).Covers v) : v < s.frames.physical.totalPages := by
  have hi : ∀ f, (stackRegion headers a).Holds f → f < s.frames.physical.totalPages :=
    fun f hf => (h.taken f (owners_pos hp hg hf)).2.1
  refine hi v (hc.holds_own (h.aligned p hp _ hg) rfl fun f hf => ?_)
  exact lt_of_lt_of_le (hi f hf) h.maps.sound.addressable

theorem code_covers {b v : Nat} (hc : (segmentRegion codeHeader b).Covers v) : v = 512 := by
  have hw := small_whole.segments codeHeader mem_cons_self rfl
  obtain ⟨i,hi,rfl⟩ := hc
  rw [segment_mapped hw,code_pages] at hi
  obtain rfl : i = 0 := Nat.lt_one_iff.mp hi
  rw [segment_vaddr]
  decide
end
end Machine
end LensorOS.Memory
