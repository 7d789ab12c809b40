import LensorOS.Kernel.Descriptors

/-!
# Operations of the filesystem

The operations of the filesystem are put together from a few small ones. A relation that holds of
each of these, and of one after another, holds of every operation.
-/
namespace LensorOS.Kernel.VFS
open Storage List
/-- A relation between the filesystem before and after each small operation. Files of sockets are
made by the calls on sockets only. -/
structure Composes (R : VFS → VFS → Prop) : Prop where
  trans : ∀ {v v' v'' : VFS}, R v v' → R v' v'' → R v v''
  tables : ∀ {v v' : VFS}, v'.drivers = v.drivers → v'.wakes = v.wakes → v'.heap = v.heap →
    v'.closed = v.closed → R v v'
  modify : ∀ (v : VFS) (f : Nat) (change : SharedFile → SharedFile),
    (∀ shared, (change shared).file.driverData = shared.file.driverData) →
      R v { v with heap := v.heap.modify f change }
  make : ∀ (v : VFS) (fileSize : Nat) (data : DriverData), (∀ socket, data ≠ .socket socket) →
    R v (v.make fileSize data).2
  layPipe : ∀ v : VFS, R v { v with drivers := v.drivers.layPipe.2 }
  openInput : ∀ v : VFS, R v { v with drivers := v.drivers.openInput.2 }
  release : ∀ (v : VFS) (f : Nat), R v (v.release f)

/-- The same for the filesystem with the pointers that a call holds. -/
structure Tracks (R : VFS × List Nat → VFS × List Nat → Prop) : Prop where
  trans : ∀ {a b c : VFS × List Nat}, R a b → R b c → R a c
  tables : ∀ {v v' : VFS} {held held' : List Nat}, v'.drivers = v.drivers → v'.wakes = v.wakes →
    v'.heap = v.heap → v'.closed = v.closed → v'.files = v.files → held.Perm held' →
      R (v,held) (v',held')
  add : ∀ (v : VFS) (f : Nat) (held : List Nat) (pid : Nat),
    R (v, f :: held) ((v.addFile (some f) pid).2, held)
  acquire : ∀ {v : VFS} {f : Nat} {held : List Nat}, (f ∈ held ∨ ∃ fd, v.files.get fd = some f) →
    R (v,held) (v.acquire f, f :: held)
  release : ∀ (v : VFS) (f : Nat) (held : List Nat), R (v, f :: held) (v.release f,held)
  modify : ∀ (v : VFS) (f : Nat) (change : SharedFile → SharedFile) (held : List Nat),
    (∀ shared, (change shared).file.driverData = shared.file.driverData) →
    (∀ shared, (change shared).refCount = shared.refCount) →
      R (v,held) ({ v with heap := v.heap.modify f change }, held)
  make : ∀ (v : VFS) (fileSize : Nat) (data : DriverData) (held : List Nat),
    (∀ socket, data ≠ .socket socket) →
      R (v,held) ((v.make fileSize data).2, v.heap.length :: held)
  layPipe : ∀ (v : VFS) (held : List Nat), R (v,held) ({ v with drivers := v.drivers.layPipe.2 }, held)
  openInput : ∀ (v : VFS) (held : List Nat),
    R (v,held) ({ v with drivers := v.drivers.openInput.2 }, held)

/-- The same with the operations that take a pointer out of the table of open files. -/
structure Erases (R : VFS × List Nat → VFS × List Nat → Prop) : Prop extends Tracks R where
  erase : ∀ {v : VFS} {fd f : Nat} (held : List Nat), v.files.get fd = some f →
    R (v,held) ({ v with files := v.files.erase fd }, f :: held)
  replace : ∀ {v : VFS} {fd old : Nat} (f : Nat) (held : List Nat), v.files.get fd = some old →
    R (v, f :: held) ({ v with files := v.files.replace fd f }, old :: held)

theorem Composes.erases {R : VFS → VFS → Prop} (h : Composes R) :
    Erases fun a b : VFS × List Nat => R a.1 b.1 where
  trans := h.trans
  tables := fun hdr hw hh hc _ _ => h.tables hdr hw hh hc
  add := by
    intro v f held pid
    unfold VFS.addFile
    dsimp only
    split <;> exact h.tables rfl rfl rfl rfl
  acquire := fun {v f} _ _ => h.modify v f _ fun _ => rfl
  release := fun v f _ => h.release v f
  modify := fun v f change _ hd _ => h.modify v f change hd
  make := fun v fileSize data _ hd => h.make v fileSize data hd
  layPipe := fun v _ => h.layPipe v
  openInput := fun v _ => h.openInput v
  erase := fun _ _ => h.tables rfl rfl rfl rfl
  replace := fun _ _ _ => h.tables rfl rfl rfl rfl

section
variable {R : VFS × List Nat → VFS × List Nat → Prop} (v : VFS) (held : List Nat)
namespace Tracks
variable (h : Tracks R)
include h
theorem refl : R (v,held) (v,held) := h.tables rfl rfl rfl rfl rfl (.refl _)

variable {v} in
theorem of_file {f pid procfd : Nat} (hf : v.file pid procfd = some f) : R (v,held) (v.acquire f, f :: held) := by
  obtain ⟨fd,-,hfd⟩ := Option.bind_eq_some_iff.mp hf
  exact h.acquire (.inr ⟨fd,hfd⟩)

variable {v} in
theorem borrow {f pid procfd : Nat} (hf : v.file pid procfd = some f) :
    R (v,held) ((v.acquire f).release f, held) := h.trans (h.of_file held hf) (h.release _ f held)

theorem advance (f count : Nat) : R (v,held) (v.advance f count,held) := h.modify v f _ held (fun _ => rfl) fun _ => rfl

theorem seek {f : Nat} {file : FileMetadata} (hf : v.metadata f = some file) (target : Nat) :
    R (v,held) (v.setMetadata f { file with offset := target }, held) := by
  have hm := h.modify v f (fun shared => { shared with file.offset := target }) held
    (fun _ => rfl) fun _ => rfl
  have hsa : v.setMetadata f { file with offset := target } =
      { v with heap := v.heap.modify f fun shared => { shared with file.offset := target } } := by
    obtain ⟨shared,hs,rfl⟩ := Option.map_eq_some_iff.mp hf
    have hh : (v.heap.modify f fun other => { other with
        file := { shared.file with offset := target } }) =
          v.heap.modify f fun other => { other with file.offset := target } := by
      apply ext_getElem?
      intro g
      by_cases he : f = g
      · subst he
        simp [hs]
      · simp [he]
    simp [setMetadata,hh]
  exact hsa ▸ hm

theorem addNull (pid : Nat) : R (v,held) ((v.addFile none pid).2, held) := by
  unfold VFS.addFile
  dsimp only
  split <;> exact h.tables rfl rfl rfl rfl rfl (.refl _)

theorem eraseDescriptor (pid procfd : Nat) : R (v,held) (v.eraseDescriptor pid procfd,held) := by
  unfold VFS.eraseDescriptor
  split <;> exact h.tables rfl rfl rfl rfl rfl (.refl _)

theorem «open» (pid : Nat) (path : List Char) : R (v,held) ((v.open pid path).2, held) := by
  unfold VFS.open
  split
  · exact h.refl v held
  split
  · exact h.refl v held
  dsimp only
  split
  · exact h.refl v held
  · exact h.trans (h.make v _ _ held (by simp)) (h.add _ _ held pid)

theorem dup (pid procfd : Nat) : R (v,held) ((v.dup pid procfd).2, held) := by
  unfold VFS.dup
  split
  · exact h.refl v held
  · next f hf => exact h.trans (h.of_file held hf) (h.add _ f held pid)

theorem sys13Pipe (pid : Nat) : R (v,held) ((v.sys13Pipe pid).2, held) := by
  have hr := h.trans (h.layPipe v held) (h.make _ pipeBufSize (.pipe v.drivers.layPipe.1 .read) held (by simp))
  have hw := h.trans hr (h.make _ pipeBufSize (.pipe v.drivers.layPipe.1 .write) _ (by simp))
  have hs := h.trans hw (h.tables rfl rfl rfl rfl rfl (.swap _ _ _))
  exact h.trans (h.trans hs (h.add _ _ _ pid)) (h.add _ _ held pid)

theorem addMade (f pid : Nat) : R (v, f :: held) (((v.acquire f).addFile (some f) pid).2.release f, held) :=
  h.trans (h.trans (h.acquire (.inl mem_cons_self)) (h.add _ f (f :: held) pid)) (h.release _ f held)

theorem copyDescriptor (child procfd sysfd : Nat) : R (v,held) ((v.copyDescriptor child procfd sysfd).1, held) := by
  have hfi : R (v,held) ((v.fill child procfd sysfd).1, held) := by
    unfold VFS.fill
    split <;> exact h.tables rfl rfl rfl rfl rfl (.refl _)
  unfold VFS.copyDescriptor
  dsimp only
  split
  · exact h.trans hfi (h.addNull _ held child)
  · next f hf =>
    exact h.trans (h.trans hfi (h.acquire (.inr ⟨sysfd,hf⟩))) (h.add _ f held child)

theorem copyDescriptors (parent child : Nat) : R (v,held) (v.copyDescriptors parent child,held) :=
  copyDescriptors_keeps (P := fun w => R (v,held) (w,held)) (h.refl v held) parent
    (fun w procfd sysfd hw => h.trans hw (h.copyDescriptor w held child procfd sysfd))
    fun w procfd hw => h.trans hw (h.eraseDescriptor w held child procfd)

variable {v} in
theorem openStandard (hs : v.stdin = none) (pid : Nat) : R (v,held) (v.openStandard pid,held) := by
  have ht : R (v,held) (v.addTable pid,held) := h.tables rfl rfl rfl rfl rfl (.refl held)
  have hi := h.trans ht (h.openInput (v.addTable pid) held)
  have hm := h.trans hi (h.make _ inputBufSize (.input (v.addTable pid).drivers.openInput.1) held (by simp))
  have ho : R (v,held) ((v.addTable pid).openStdin.2, v.heap.length :: held) ∧
      (v.addTable pid).openStdin.1 = some v.heap.length := by
    unfold VFS.openStdin
    rw [show (v.addTable pid).stdin = none from hs]
    exact ⟨h.trans hm (h.tables rfl rfl rfl rfl rfl (.refl _)),rfl⟩
  unfold VFS.openStandard
  dsimp only
  rw [ho.2]
  have hin := h.trans ho.1 (h.add _ _ held pid)
  generalize ((v.addTable pid).openStdin.2.addFile (some v.heap.length) pid).2 = w at *
  have hou := h.trans hin (h.make w 0 .dbgOut held (by simp))
  have hb := h.trans hou (h.acquire (.inl mem_cons_self))
  exact h.trans (h.trans hb (h.add _ _ _ pid)) (h.add _ _ held pid)
end Tracks

namespace Erases
variable (h : Erases R)
include h
theorem close (pid procfd : Nat) : R (v,held) (v.close pid procfd,held) := by
  unfold VFS.close
  split
  · exact h.refl v held
  next fd hfd =>
  split
  · exact h.refl v held
  next f hf =>
  have ha : R (v,held) (v.acquire f, f :: held) := h.acquire (.inr ⟨fd,hf⟩)
  have he := h.trans ha (h.eraseDescriptor (v.acquire f) _ pid procfd)
  have hg : ((v.acquire f).eraseDescriptor pid procfd).files.get fd = some f := by
    rw [files_erase]
    exact hf
  have hfr : R (v,held) ((v.acquire f).freeFd pid fd procfd, f :: held) := by
    unfold freeFd eraseFile
    rw [hg]
    exact h.trans (h.trans he (h.erase _ hg)) (h.release _ f _)
  exact h.trans hfr (h.release _ f held)

variable {v} in
theorem dup2 (hv : v.Consistent) (pid procfd replaced : Nat) : R (v,held) ((v.dup2 pid procfd replaced).2, held) := by
  rcases v.dup2_cases pid procfd replaced with he | ⟨-,-,he⟩ | ⟨fd,f,hfd,hf,he⟩
  · exact he ▸ h.refl v held
  · exact he ▸ h.refl v held
  obtain ⟨old,ho⟩ := Option.isSome_iff_exists.mp (hv.live (pid,replaced) fd hfd)
  have hr := h.trans (h.of_file held hf) (h.replace (v := v.acquire f) f held ho)
  rw [he,replaceFile,show (v.acquire f).files.get fd = some old from ho]
  exact h.trans hr (h.release _ old held)

theorem closeBelow (pid n : Nat) : R (v,held) (v.closeBelow pid n,held) :=
  foldlRecOn (motive := fun w => R (v,held) (w,held)) _ _ (h.refl v held)
    fun w hw procfd _ => h.trans hw (h.close w held pid procfd)

theorem destroy (pid : Nat) : R (v,held) (v.destroy pid,held) :=
  h.trans (h.closeBelow v held pid _) (h.tables rfl rfl rfl rfl rfl (.refl _))
end Erases
end
end LensorOS.Kernel.VFS
