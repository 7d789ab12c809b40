import LensorOS.Kernel.VirtualFilesystem
import LensorOS.Storage.FileReads

/-!
# Mounts and paths

A path is handed to the file systems whose mount point is a prefix of it, as a string. What is meant
are those whose components are the first components of the path.
-/
namespace LensorOS.Kernel
open Storage List FileAllocationTableDriver VFS
/-- The path lies under the mount point: it ends there, or goes on with a slash. -/
def Under (mountPath path : List Char) : Prop := mountPath <+: path ∧
    ((path.drop mountPath.length).head? = none ∨ (path.drop mountPath.length).head? = some '/')

instance (mountPath path : List Char) : Decidable (Under mountPath path) :=
  inferInstanceAs (Decidable (_ ∧ _))

theorem under_append {mountPath rest : List Char} :
    Under mountPath (mountPath ++ rest) ↔ rest.head? = none ∨ rest.head? = some '/' := by simp [Under]

def components (path : List Char) : List (List Char) := path.splitOn '/'

theorem intercalate_append {α : Type*} (sep : List α) {xs ys : List (List α)} (hx : xs ≠ [])
    (hy : ys ≠ []) :
    sep.intercalate (xs ++ ys) = sep.intercalate xs ++ sep ++ sep.intercalate ys := by
  induction xs with
  | nil => exact absurd rfl hx
  | cons x xs ih =>
    cases xs with
    | nil => rw [singleton_append,intercalate_cons_of_ne_nil hy,intercalate_singleton]
    | cons x' xs =>
      have hr := ih (cons_ne_nil x' xs)
      rw [cons_append] at hr
      rw [cons_append,cons_append,intercalate_cons_cons,hr,intercalate_cons_cons]
      simp

theorem under_iff_components {mountPath path : List Char} :
    Under mountPath path ↔ components mountPath <+: components path := by
  refine ⟨fun hu => ?_,fun ⟨more,hm⟩ => ?_⟩
  · obtain ⟨rest,rfl⟩ := hu.1
    rcases under_append.mp hu with he | hs
    · rw [head?_eq_none_iff.mp he,append_nil]
    · obtain ⟨more,rfl⟩ : ∃ more, rest = '/' :: more := head?_eq_some_iff.mp hs
      exact ⟨components more,(splitOn_append_cons_self mountPath more).symm⟩
  have hse : ['/'].intercalate (components mountPath) = mountPath := intercalate_splitOn '/'
  have hj : ['/'].intercalate (components mountPath ++ more) = path := by
    rw [hm]
    exact intercalate_splitOn '/'
  by_cases hn : more = []
  · rw [hn,append_nil,hse] at hj
    simp [Under,hj]
  have hne : components mountPath ≠ [] := splitOn_ne_nil '/' mountPath
  rw [intercalate_append _ hne hn,hse,append_assoc] at hj
  rw [← hj,under_append]
  exact .inr rfl

variable {mounts : List MountPoint} {mount : MountPoint}
section
variable (path : List Char)
/-- The calls of file systems that the loop of `open` makes: it ends with the first that has the
file. -/
def openCalls : List MountPoint → List (MountPoint × List Char)
  | [] => []
  | mount :: mounts =>
    if mount.path.isPrefixOf path then
      let fsPath := path.drop mount.path.length
      (mount,fsPath) :: if (mount.traversePath fsPath).isSome then [] else openCalls mounts
    else openCalls mounts

/-- The call of a file system that the loop of `directory_data` makes: the first is the only one. -/
def directoryCall (mounts : List MountPoint) : Option (MountPoint × List Char) :=
  (mounts.find? fun mount => mount.path.isPrefixOf path).map fun mount =>
    (mount,path.drop mount.path.length)

variable {path} {mounts : List MountPoint} {call : MountPoint × List Char}
theorem openCalls_handed (h : call ∈ openCalls path mounts) : call.1 ∈ mounts ∧ path = call.1.path ++ call.2 := by
  induction mounts with
  | nil => cases h
  | cons mount mounts ih =>
    have hl : call ∈ openCalls path mounts → call.1 ∈ mount :: mounts ∧ path = call.1.path ++ call.2 := by
      intro h
      exact ⟨mem_cons_of_mem _ (ih h).1,(ih h).2⟩
    rw [openCalls] at h
    by_cases hp : mount.path.isPrefixOf path = true
    · rw [if_pos hp] at h
      rcases mem_cons.mp h with rfl | h
      · refine ⟨mem_cons_self,?_⟩
        exact (prefix_iff_eq_append.mp ( isPrefixOf_iff_prefix.mp hp)).symm
      by_cases hf : (mount.traversePath (path.drop mount.path.length)).isSome = true
      · rw [if_pos hf] at h
        cases h
      · rw [if_neg hf] at h
        exact hl h
    · rw [if_neg hp] at h
      exact hl h

theorem call_handed (h : directoryCall path mounts = some call) :
    call.1 ∈ mounts ∧ path = call.1.path ++ call.2 := by
  obtain ⟨mount,hf,rfl⟩ := Option.map_eq_some_iff.mp h
  refine ⟨mem_of_find?_eq_some hf,?_⟩
  have hp : mount.path.isPrefixOf path = true := by simpa using find?_some hf
  exact (prefix_iff_eq_append.mp ( isPrefixOf_iff_prefix.mp hp)).symm

/-- No mount point ends within a component of the path. -/
def Apart (path : List Char) (mounts : List MountPoint) : Prop :=
  ∀ mount ∈ mounts, ∀ c, c ≠ '/' → ¬ mount.path ++ [c] <+: path

theorem Apart.under (h : Apart path mounts) {rest : List Char}
    (hm : mount ∈ mounts) (hp : path = mount.path ++ rest) : Under mount.path path := by
  rw [hp,under_append]
  cases rest with
  | nil => exact .inl rfl
  | cons c rest =>
    refine .inr (congrArg some (by_contra fun hc => h mount hm c hc ?_))
    exact ⟨rest,by rw [hp,append_assoc,singleton_append]⟩
end

inductive FileType
  | regular
  | directory
deriving DecidableEq

structure DirectoryEntry where
  type : FileType
  name : List Char
deriving DecidableEq

/-- `directory_data` of the file system: what it returns for a path and a number of entries, and the
entries it writes. -/
def VFS.directoryData (v : VFS)
    (driver : MountPoint → List Char → Nat → Int × List DirectoryEntry) (path : List Char)
    (entryCount : Nat) : Int × List DirectoryEntry := if entryCount = 0 then (0,[])
  else if path = [] ∨ path = ['/'] then
    (v.mounts.length, v.mounts.map fun mount => ⟨.directory,mount.path⟩)
  else if path.head? ≠ some '/' then (-1,[])
  else
    match directoryCall path v.mounts with
    | none => (-1,[])
    | some (mount,fsPath) => driver mount fsPath entryCount

/-- The file system with the mounts alone that the path lies under. -/
def VFS.onlyUnder (v : VFS) (path : List Char) : VFS :=
  { v with mounts := v.mounts.filter fun mount => components mount.path <+: components path }

section
variable {path : List Char}
/-- A loop that only looks at the mounts with a prefix of the path does not notice when those that
the path does not lie under are taken away. -/
theorem Apart.isPrefixOf_iff (h : Apart path mounts) (hm : mount ∈ mounts) :
    mount.path.isPrefixOf path = true ↔ components mount.path <+: components path := by
  rw [ isPrefixOf_iff_prefix,← under_iff_components]
  refine ⟨fun hp => ?_,fun hu => hu.1⟩
  obtain ⟨rest,hr⟩ := hp
  exact h.under hm hr.symm

theorem Apart.filter (h : Apart path mounts) :
    (mounts.filter fun mount => components mount.path <+: components path) =
      mounts.filter fun mount => mount.path.isPrefixOf path := by
  refine filter_congr fun mount hm => ?_
  rw [Bool.eq_iff_iff,h.isPrefixOf_iff hm,decide_eq_true_iff]

theorem findSome?_filter_of_none {α β : Type*} (f : α → Option β) (p : α → Bool) (xs : List α) :
    ((xs.filter p).findSome? fun x => if p x then f x else none) =
      xs.findSome? fun x => if p x then f x else none := by
  induction xs with
  | nil => rfl
  | cons x xs ih =>
    by_cases hp : p x = true
    · rw [filter_cons_of_pos hp,findSome?_cons,findSome?_cons,ih]
    · rw [filter_cons_of_neg hp,findSome?_cons,if_neg hp,ih]

variable {v : VFS}
theorem Apart.directoryCall (h : Apart path v.mounts) :
    directoryCall path (v.onlyUnder path).mounts = Kernel.directoryCall path v.mounts := by
  have hm := h.filter
  rw [Kernel.directoryCall,onlyUnder,hm,find?_filter]
  simp only [and_self,Bool.decide_eq_true,Kernel.directoryCall]

theorem Apart.open (h : Apart path v.mounts) (pid : Nat) : v.open pid path =
      (((v.onlyUnder path).open pid path).1,
        { ((v.onlyUnder path).open pid path).2 with mounts := v.mounts }) := by
  have hm := h.filter
  have hf := findSome?_filter_of_none
    (fun mount : MountPoint => mount.traversePath (path.drop mount.path.length))
    (fun mount => mount.path.isPrefixOf path) v.mounts
  unfold VFS.open VFS.onlyUnder
  rw [hm]
  rw [hf]
  split
  · rfl
  split
  · rfl
  cases v.mounts.findSome? fun mount : MountPoint => if mount.path.isPrefixOf path then
      mount.traversePath (path.drop mount.path.length) else none with
  | none => rfl
  | some file =>
    unfold addFile make
    dsimp only
    cases v.fileDescriptors pid <;> rfl
end

/-- The path is only handed to the mounts it lies under, with the rest of the path, and both calls do
what they do with these mounts alone. -/
structure VFS.Routed (v : VFS) (path : List Char) : Prop where
  opens : ∀ call ∈ openCalls path v.mounts,
    components call.1.path <+: components path ∧ path = call.1.path ++ call.2
  lists : ∀ call, Kernel.directoryCall path v.mounts = some call →
    components call.1.path <+: components path ∧ path = call.1.path ++ call.2
  opensAlone : ∀ pid, v.open pid path = (((v.onlyUnder path).open pid path).1,
    { ((v.onlyUnder path).open pid path).2 with mounts := v.mounts })
  listsAlone : ∀ driver entryCount, path ≠ [] → path ≠ ['/'] →
    v.directoryData driver path entryCount = (v.onlyUnder path).directoryData driver path entryCount

section
variable {v : VFS} {path : List Char}
theorem Apart.routed (h : Apart path v.mounts) : v.Routed path := by
  refine ⟨fun call hc => ?_,fun call hc => ?_,h.open,?_⟩
  · obtain ⟨hm,hp⟩ := openCalls_handed hc
    exact ⟨under_iff_components.mp (h.under hm hp),hp⟩
  · obtain ⟨hm,hp⟩ := call_handed hc
    exact ⟨under_iff_components.mp (h.under hm hp),hp⟩
  intro driver entryCount hn hr
  have hl := not_or.mpr ⟨hn,hr⟩
  unfold VFS.directoryData
  rw [if_neg hl,if_neg hl,h.directoryCall]

theorem openCalls_of_empty (he : ∀ mount ∈ mounts, ∀ fsPath, mount.traversePath fsPath = none)
    (hm : mount ∈ mounts) (hp : mount.path <+: path) :
    (mount,path.drop mount.path.length) ∈ openCalls path mounts := by
  induction mounts with
  | nil => cases hm
  | cons other mounts ih =>
    have ht := ih fun m h => he m (mem_cons_of_mem _ h)
    rw [openCalls]
    rcases mem_cons.mp hm with rfl | hm
    · rw [if_pos ( isPrefixOf_iff_prefix.mpr hp)]
      exact mem_cons_self
    · dsimp only
      rw [he other mem_cons_self]
      split
      · exact mem_cons_of_mem _ (ht hm)
      · exact ht hm

/-- Whatever the file systems hold, a path is routed to the mounts it lies under alone, exactly if
no mount point ends within a component of the path. -/
theorem VFS.mounts_routed_iff : (∀ w : VFS, w.mounts.map MountPoint.path = v.mounts.map MountPoint.path →
    w.Routed path) ↔ Apart path v.mounts := by
  constructor
  · intro hr mount hm c hc hp
    -- file systems without any file: each mount with a prefix of the path is called
    let w : VFS := { v with mounts := v.mounts.map fun mount => ⟨mount.path,fun _ => none⟩ }
    have hpr : mount.path <+: path := .trans ( prefix_append _ _) hp
    have hw := (hr w (by simp [w])).opens _ (openCalls_of_empty (by simp [w])
      (mem_map_of_mem hm : (⟨mount.path,fun _ => none⟩ : MountPoint) ∈ w.mounts) hpr)
    have hu := under_iff_components.mpr hw.1
    obtain ⟨rest,rfl⟩ := hp
    rw [append_assoc,under_append] at hu
    rcases hu with he | hs
    · cases he
    · exact hc (Option.some.inj hs)
  · intro h w hw
    refine Apart.routed fun mount hm => ?_
    obtain ⟨other,ho,hp⟩ := mem_map.mp (hw ▸ mem_map_of_mem hm)
    rw [← hp]
    exact h other ho
end

section
/-- The mount points of the file systems found at start-up, of which some are on EFI system
partitions. The first one of these has a name of its own, the others are numbered. -/
def mountPaths : (foundEFI : Bool) → (mounts : Nat) → List Bool → List (List Char)
  | _, _, [] => []
  | foundEFI, mounts, efi :: rest =>
    if !foundEFI && efi then ['/','e','f','i'] :: mountPaths true (mounts+1) rest
    else (['/','f','s'] ++ Nat.toDigits 10 mounts) :: mountPaths foundEFI (mounts+1) rest

variable {found : List Bool}
theorem mountPaths_length {foundEFI : Bool} {mounts : Nat} {name : List Char}
    (hf : mounts+found.length ≤ 10) (h : name ∈ mountPaths foundEFI mounts found) :
    name.length = 4 := by
  induction found generalizing foundEFI mounts with
  | nil => cases h
  | cons efi rest ih =>
    rw [length_cons] at hf
    rw [mountPaths] at h
    split at h
    · rcases mem_cons.mp h with rfl | h
      · rfl
      · exact ih (by omega) h
    rcases mem_cons.mp h with rfl | h
    · rw [Nat.toDigits_of_lt_base (by omega)]
      rfl
    · exact ih (by omega) h

theorem first_mounts_apart {path : List Char}
    (hn : mounts.map MountPoint.path = mountPaths false 0 found) (hf : found.length ≤ 10)
    (hm : mount ∈ mounts) (hu : Under mount.path path) : Apart path mounts := by
  have hl : ∀ other ∈ mounts, other.path.length = 4 := by
    intro other ho
    have hna := hn ▸ mem_map_of_mem ho
    exact mountPaths_length (by omega) hna
  intro other ho c hc hp
  obtain ⟨rest,hr⟩ := hp
  have hsa : mount.path = other.path := by
    have ho' : other.path <+: path := ⟨c :: rest,by simpa using hr⟩
    exact (prefix_of_prefix_length_le hu.1 ho'
      (by rw [hl mount hm,hl other ho])).eq_of_length
        (by rw [hl mount hm,hl other ho])
  rw [hsa,← hr,append_assoc,under_append] at hu
  rcases hu with he | hs
  · cases he
  · exact hc (Option.some.inj hs)
end

def manyMounts (count : Nat) : List MountPoint :=
  (mountPaths false 0 (replicate count false)).map fun name =>
    ⟨name,fun fsPath =>
      if fsPath = ['/','a'] then some (10,0)
      else if fsPath = ['0','/','a'] then some (20,0)
      else none⟩

theorem VFS.mounts_routed_second : Apart ['/','f','s','1','/','a'] (manyMounts 10) ∧
    (openCalls ['/','f','s','1','/','a'] (manyMounts 10)).map (fun call => call.1.path) =
      [['/','f','s','1']] ∧ ∀ call ∈ openCalls ['/','f','s','1','/','a'] (manyMounts 10),
      components call.1.path <+: components ['/','f','s','1','/','a'] := by
  have hs : ∃ mount ∈ manyMounts 10, Under mount.path ['/','f','s','1','/','a'] := by decide
  obtain ⟨mount,hm,hu⟩ := hs
  have hn : (manyMounts 10).map MountPoint.path = mountPaths false 0 (replicate 10 false) := rfl
  have ha : Apart ['/','f','s','1','/','a'] (initial (manyMounts 10)).mounts :=
    first_mounts_apart hn (by decide) hm hu
  refine ⟨ha,by decide,fun call hc => ?_⟩
  exact ((mounts_routed_iff.mpr ha (initial (manyMounts 10)) rfl).opens call hc).1

/-- The eleventh mount is `/fs10`. The file `a` on it is looked for on `/fs1`, where another file is
found, and its directories are listed from there. -/
theorem VFS.eleventh_mount_hidden : Under ['/','f','s','1','0'] ['/','f','s','1','0','/','a'] ∧
    (∃ mount ∈ manyMounts 11, mount.path = ['/','f','s','1','0']) ∧
    (openCalls ['/','f','s','1','0','/','a'] (manyMounts 11)).map
      (fun call => (call.1.path,call.2)) = [(['/','f','s','1'],['0','/','a'])] ∧
    (directoryCall ['/','f','s','1','0','/','a'] (manyMounts 11)).map
      (fun call => (call.1.path,call.2)) = some (['/','f','s','1'],['0','/','a']) ∧
    ¬ Under ['/','f','s','1'] ['/','f','s','1','0','/','a'] ∧
    (((initial (manyMounts 11)).open 0 ['/','f','s','1','0','/','a']).2.metadata 0).map
      FileMetadata.fileSize = some 20 := by decide

section
variable {v : VFS} {path : List Char} {n : Nat}
/-- At most as many entries as asked for are written, and their number is returned, or -1. -/
def WithinBound (n : Nat) (answer : Int × List DirectoryEntry) : Prop :=
  answer.2.length ≤ n ∧ (answer.1 = answer.2.length ∨ answer.1 = -1)

/-- The driver of a mount lists the directory as `volume` does, with any conversion of names. -/
def Lists (driver : MountPoint → List Char → Nat → Int × List DirectoryEntry) (mount : MountPoint)
    (fsPath : List Char) (n : Nat) (volume : FileAllocationTableDriver) : Prop :=
  ∃ (fuel : Nat) (name : Found → List Char), volume.directoryData fuel
      (fun found => ⟨if found.ce.directory then .directory else .regular,name found⟩)
      (fsPath.map fun c => BitVec.ofNat 8 c.toNat) n = some (driver mount fsPath n)

/-- The driver of a file system keeps the bound. The listing of the mounts keeps it exactly if
there are not more mounts than entries asked for. -/
theorem VFS.directory_data_bounded_iff
    {driver : MountPoint → List Char → Nat → Int × List DirectoryEntry}
    (hdriver : ∀ call, directoryCall path v.mounts = some call →
      ∃ volume, Lists driver call.1 call.2 n volume) :
    WithinBound n (v.directoryData driver path n) ↔
      n = 0 ∨ (path = [] ∨ path = ['/'] → v.mounts.length ≤ n) := by
  unfold directoryData
  by_cases hn : n = 0
  · simp [hn,WithinBound]
  by_cases hr : path = [] ∨ path = ['/']
  · simp [hn,hr,WithinBound]
  have hb : ∀ answer : Int × List DirectoryEntry, WithinBound n answer →
      (WithinBound n answer ↔ n = 0 ∨ (path = [] ∨ path = ['/'] → v.mounts.length ≤ n)) :=
    fun answer h => iff_of_true h (.inr fun h => absurd h hr)
  rw [if_neg hn,if_neg hr]
  split
  · exact hb _ ⟨Nat.zero_le n,.inr rfl⟩
  split
  · exact hb _ ⟨Nat.zero_le n,.inr rfl⟩
  · next mount fsPath hc =>
    obtain ⟨volume,fuel,name,hl⟩ := hdriver _ hc
    exact hb _ (directoryData_length hl)

/-- The listing of a root directory with a volume label and the file `A`. -/
def listingA (_ : MountPoint) (_ : List Char) (_ : Nat) : Int × List DirectoryEntry := (1,[⟨.regular,['A']⟩])

/-- The only entry asked for is written. -/
theorem VFS.directory_data_bounded_one :
    (initial (manyMounts 2)).directoryData listingA ['/','f','s','0'] 1 = (1,[⟨.regular,['A']⟩]) ∧
      WithinBound 1 ((initial (manyMounts 2)).directoryData listingA ['/','f','s','0'] 1) := by
  refine ⟨by decide,(directory_data_bounded_iff fun call hc => ?_).mpr (.inr (by decide))⟩
  have hr : call.2 = [] := by
    have hp : ((directoryCall ['/','f','s','0'] (manyMounts 2)).map Prod.snd) = some [] := by decide
    rw [show directoryCall ['/','f','s','0'] (manyMounts 2) = some call from hc] at hp
    exact Option.some.inj hp
  refine ⟨wholeVolume,3,fun _ => ['A'],?_⟩
  rw [hr,listingA]
  decide

/-- One entry is asked for, and two mounts are written. -/
theorem VFS.mounts_overflow : ¬ WithinBound 1 ((initial (manyMounts 2)).directoryData listingA ['/'] 1) := by
  intro h
  exact absurd h.1 (by decide)
end
end LensorOS.Kernel
