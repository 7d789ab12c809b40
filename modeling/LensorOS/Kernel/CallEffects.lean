import LensorOS.Kernel.DriverCalls
import LensorOS.Kernel.References

/-!
# Effects of system calls on drivers

Every call of the filesystem is at most one transfer or connection, followed by new buffers and
closed files.
-/
namespace LensorOS.Kernel
open Framework Storage Scheduler List Option Drivers
namespace VFS
variable {v v' v'' : VFS} {f pid procfd fd : Nat} {request : Call} {effect : Effect}
/-- The drivers make new buffers and close ends of pipes. A file that is closed has its end of a
pipe closed. -/
structure Acts (v v' : VFS) : Prop where
  served : ∃ wakes, v'.wakes = v.wakes ++ wakes ∧ Serves v.drivers wakes v'.drivers
  data : ∀ f data, v.driverData f = some data → v'.driverData f = some data
  ended : ∀ f ∈ v'.closed, f ∉ v.closed → ∃ data, v'.driverData f = some data ∧
    ∀ pipe pipeEnd, data = .pipe pipe pipeEnd → Passes v.drivers pipe pipeEnd v'.drivers

section
theorem Acts.trans (h : Acts v v') (h' : Acts v' v'') : Acts v v'' := by
  obtain ⟨wakes,hw,hs⟩ := h.served
  obtain ⟨wakes',hw',hs'⟩ := h'.served
  refine ⟨⟨wakes ++ wakes',?_,hs.trans hs'⟩,?_,?_⟩
  · rw [hw',hw,append_assoc]
  · intro f data hd
    exact h'.data f data (h.data f data hd)
  intro f hf hn
  by_cases hm : f ∈ v'.closed
  · obtain ⟨data,hd,hp⟩ := h.ended f hm hn
    refine ⟨data,h'.data f data hd,?_⟩
    intro pipe pipeEnd he
    exact (hp pipe pipeEnd he).before hs'
  obtain ⟨data,hd,hp⟩ := h'.ended f hf hm
  refine ⟨data,hd,?_⟩
  intro pipe pipeEnd he
  exact (hp pipe pipeEnd he).after hs

theorem Acts.quiet (hdr : Quiet v.drivers v'.drivers) (hw : v'.wakes = v.wakes)
    (hd : ∀ f data, v.driverData f = some data → v'.driverData f = some data)
    (hc : v'.closed = v.closed) : Acts v v' where
  served := ⟨[],by rw [hw,append_nil],.quiet hdr (.refl _)⟩
  data := hd
  ended := by
    intro f hf hn
    exact absurd (hc ▸ hf) hn

variable (d : Drivers)
theorem quiet_refl : Quiet d d := ⟨rfl,.inl rfl⟩

theorem Acts.same (hdr : v'.drivers = v.drivers) (hw : v'.wakes = v.wakes)
    (hh : v'.heap = v.heap) (hc : v'.closed = v.closed) : Acts v v' := by
  apply Acts.quiet (hdr ▸ quiet_refl _) hw _ hc
  intro f data hd
  rw [driverData,metadata,hh]
  exact hd

theorem Acts.refl (v : VFS) : Acts v v := .same rfl rfl rfl rfl

section
variable (v : VFS) (f : Nat) (change : SharedFile → SharedFile)
  (hchange : ∀ shared, (change shared).file.driverData = shared.file.driverData)
include hchange
theorem data_modify (g : Nat) : driverData { v with heap := v.heap.modify f change } g = v.driverData g := by
  simp only [driverData,metadata,getElem?_modify]
  cases v.heap[g]? with
  | none => simp
  | some shared =>
    by_cases he : f = g
    · simp [he,hchange]
    · simp [he]

theorem acts_modify : Acts v { v with heap := v.heap.modify f change } := by
  refine Acts.quiet (quiet_refl _) rfl ?_ rfl
  intro g data hd
  rw [data_modify v f change hchange]
  exact hd
end

theorem acts_make (v : VFS) (fileSize : Nat) (data : DriverData) : Acts v (v.make fileSize data).2 := by
  refine Acts.quiet (quiet_refl _) rfl ?_ rfl
  intro f data hd
  have hl : f < v.heap.length := by
    by_contra hg
    simp [driverData,metadata,getElem?_eq_none (Nat.le_of_not_lt hg)] at hd
  simpa [driverData,metadata,make,getElem?_append_left hl] using hd

theorem quiet_close (socket : Nat) : Quiet d (d.closeSocket socket) := by
  unfold closeSocket
  split
  · exact quiet_refl d
  split
  · exact quiet_refl d
  split
  · exact quiet_refl d
  · dsimp only
    split <;> exact ⟨rfl,.inl rfl⟩

theorem close_serves (data : DriverData) :
    Serves d (d.close data).2 (d.close data).1 ∧ ∀ pipe pipeEnd, data = .pipe pipe pipeEnd →
        Passes d pipe pipeEnd (d.close data).1 := by
  cases data with
  | dbgOut | fileAllocationTable byteOffset => exact ⟨.refl d,by simp⟩
  | input input =>
    have hf : Quiet d (d.close (.input input)).1 := ⟨rfl,.inl rfl⟩
    exact ⟨.quiet hf (.refl _),by simp⟩
  | pipe pipe pipeEnd =>
    constructor
    · have hc := Serves.close pipe pipeEnd (.refl (d.closePipe pipe pipeEnd).1)
      rw [append_nil] at hc
      exact hc
    intro pipe' pipeEnd' he
    cases he
    exact ⟨d,[],[],.refl d,.refl _⟩
  | socket socket => exact ⟨.quiet (quiet_close d socket) (.refl _),by simp⟩

theorem acts_release (v : VFS) (f : Nat) : Acts v (v.release f) := by
  unfold release
  split
  · exact .refl v
  next shared hs =>
  have hd : ∀ g data, v.driverData g = some data →
      ((v.heap.set f { shared with refCount := shared.refCount-1 })[g]?.map
        SharedFile.file).map FileMetadata.driverData = some data := by
    intro g data hd
    by_cases he : f = g
    · subst he
      have hl := lt_of_getElem? hs
      rw [driverData,metadata,hs] at hd
      rw [getElem?_set_self hl]
      exact hd
    · simpa [driverData,metadata,he] using hd
  have hsel : v.driverData f = some shared.file.driverData := by simp [driverData,metadata,hs]
  split
  · obtain ⟨hse,hp⟩ := close_serves v.drivers shared.file.driverData
    refine ⟨⟨_,rfl,hse⟩,hd,?_⟩
    intro g hg hn
    rcases mem_append.mp hg with hg | hg
    · exact absurd hg hn
    · cases mem_singleton.mp hg
      exact ⟨shared.file.driverData,hd f _ hsel,hp⟩
  · exact .quiet (quiet_refl _) rfl hd rfl

theorem listed_append {α β : Type} (field : α → List β) (buffers : List α) {new : List α}
    (hn : ∀ b ∈ new, field b = []) (i : Nat) :
    ((buffers ++ new)[i]?.map field).getD [] = (buffers[i]?.map field).getD [] := by
  by_cases hi : i < buffers.length
  · rw [getElem?_append_left hi]
  rw [getElem?_append_right (by omega),getElem?_eq_none (Nat.le_of_not_lt hi)]
  cases hb : new[i-buffers.length]? with
  | none => rfl
  | some b => exact hn b (mem_of_getElem? hb)

theorem quiet_layPipe : Quiet d d.layPipe.2 := by
  unfold layPipe
  split
  · refine ⟨?_,.inr rfl⟩
    funext o
    cases o with
    | pipeToRead i => exact listed_append PipeBuffer.pidsWaitingOnWriteToRead d.pipes (by simp) i
    | pipeToWrite i => exact listed_append PipeBuffer.pidsWaitingOnReadToWrite d.pipes (by simp) i
    | _ => rfl
  · exact ⟨rfl,.inl rfl⟩

theorem quiet_openInput : Quiet d d.openInput.2 := by
  unfold openInput
  split
  · refine ⟨?_,.inl rfl⟩
    funext o
    cases o with
    | input i => exact listed_append InputBuffer.pidsWaiting d.inputs (by simp) i
    | _ => rfl
  · exact ⟨rfl,.inl rfl⟩

theorem quiet_socket (pid : Nat) : Quiet d (d.socket pid).2 := by
  refine ⟨?_,.inl rfl⟩
  funext o
  cases o with
  | fifoToRead i => exact listed_append FIFOBuffer.pidsWaitingUntilWrite d.fifos (by simp) i
  | fifoToWrite i => exact listed_append FIFOBuffer.pidsWaitingUntilRead d.fifos (by simp) i
  | _ => rfl

theorem acts_drivers (v : VFS) {d : Drivers} (h : Quiet v.drivers d) :
    Acts v { v with drivers := d } := .quiet h rfl (fun _ _ hd => hd) rfl

theorem acts_composes : Composes Acts where
  trans := Acts.trans
  tables := Acts.same
  modify := acts_modify
  make := fun v fileSize data _ => acts_make v fileSize data
  layPipe := fun v => acts_drivers v (quiet_layPipe v.drivers)
  openInput := fun v => acts_drivers v (quiet_openInput v.drivers)
  release := acts_release

theorem acts_erases : Erases fun a b => Acts a.1 b.1 := acts_composes.erases

variable (v : VFS)
@[simp] theorem wakes_addFile (f : Option Nat) (pid : Nat) : (v.addFile f pid).2.wakes = v.wakes := by
  unfold addFile
  dsimp only
  split <;> rfl

@[simp] theorem wakes_erase (pid procfd : Nat) :
    (v.eraseDescriptor pid procfd).wakes = v.wakes := by
  unfold eraseDescriptor
  split <;> rfl

theorem wakes_open (pid : Nat) (path : List Char) : (v.open pid path).2.wakes = v.wakes := by
  unfold VFS.open
  split
  · rfl
  split
  · rfl
  dsimp only
  split
  · rfl
  · simp [make]

theorem wakes_copyDescriptor (child procfd sysfd : Nat) : (v.copyDescriptor child procfd sysfd).1.wakes = v.wakes := by
  have hf : (v.fill child procfd sysfd).1.wakes = v.wakes := by
    unfold fill
    split <;> rfl
  unfold copyDescriptor
  dsimp only
  split
  · rw [wakes_addFile,hf]
  · rw [wakes_addFile]
    exact hf

theorem wakes_copyDescriptors (parent child : Nat) : (v.copyDescriptors parent child).wakes = v.wakes :=
  copyDescriptors_keeps (P := fun w => w.wakes = v.wakes) rfl parent
    (fun w procfd sysfd hw => (wakes_copyDescriptor w child procfd sysfd).trans hw)
    fun w procfd hw => (wakes_erase w child procfd).trans hw
end

def wakeServer (v : VFS) (server : Nat) (data : SocketData) : VFS :=
  { v with wakes := v.wakes ++ wakeUps (.connection server) (-2) [data.pid] }

/-- What a call can do, with the way it ends. -/
inductive Does (v : VFS) (pid : Nat) (request : Call) : Result → VFS → Prop
  | acts {value : Int} {v' : VFS} (h : Acts v v') : Does v pid request (.returned value) v'
  | transfers {effect : Effect} {value : Int} {v' : VFS}
      (hmoved : v.transfer pid request = some effect)
      (hreply : ∀ object, effect.reply ≠ .blocks object) (h : Acts (v.apply effect) v') :
      Does v pid request (.returned value) v'
  | waits {effect : Effect} {object : WaitObject} {rax : BitVec 64} {v' : VFS}
      (hmoved : v.transfer pid request = some effect) (hreply : effect.reply = .blocks object)
      (hdrv : v'.drivers = effect.drivers) (hwakes : v'.wakes = v.wakes ++ effect.wakes)
      (hclosed : v'.closed = v.closed) : Does v pid request (.blocked object rax) v'
  | accepts {socket : Nat} {rax : BitVec 64} {v' : VFS} (h : Acts v v')
      (hwakes : v'.wakes = v.wakes) : Does v pid request (.blocked (.connection socket) rax) v'
  | connects {procfd : Nat} {address : SocketAddress} {server : Nat} {data : SocketData}
      {value : Int} {v' : VFS} (hreq : request = .connect procfd address)
      (hserver : v.drivers.getBoundSocket address = some server)
      (hdata : v.drivers.sockets[server]? = some data) (hwaiting : data.waitingOnConnection = true)
      (h : Acts (v.wakeServer server data) v') : Does v pid request (.returned value) v'

theorem transfer_transfers (h : v.transfer pid request = some effect) : Transfers pid v.drivers effect := by
  rcases transfer_cases h with ⟨data,n,device,rfl⟩ | ⟨data,buffer,n,device,rfl⟩
  · exact read_transfers _ _ _ _ _
  · exact write_transfers _ _ _ _ _ _

theorem transfer_wakes {object : WaitObject}
    (h : v.transfer pid request = some effect) (hre : effect.reply = .blocks object) :
    effect.wakes = [] := by
  cases transfer_transfers h with
  | drained hn hd hr => exact absurd hre (hn object)
  | blocked object' hr' hw hl => exact hw

theorem SocketEvent.acts {w : VFS} (h : SocketEvent v pid request w)
    (hn : v.transfer pid request = none) : Acts v w := by
  cases h with
  | idle => exact .refl v
  | transfers h =>
    rw [hn] at h
    cases h
  | makes => exact (acts_drivers v (quiet_socket v.drivers pid)).trans (acts_make _ _ _)
  | binds ha h =>
    refine acts_drivers v ?_
    rw [Drivers.bind,ite_none_left_eq_some] at h
    rw [← some.inj h.2]
    exact ⟨rfl,.inl rfl⟩
  | listens | connects | waits | refuses => exact acts_drivers v ⟨rfl,.inl rfl⟩
  | accepts ha hq hd hc =>
    exact (acts_drivers v (hd ▸ ⟨rfl,.inl rfl⟩)).trans (acts_make _ _ _)

theorem call_does (hv : v.Consistent) (hl : ∀ fd f, v.files.get fd = some f → 0 < v.refCount f)
    (pid : Nat) (request : Call) : Does v pid request (v.call pid request).1 (v.call pid request).2 := by
  obtain ⟨w,left,he,hfo⟩ := acts_erases.call hl hv [] pid request
  generalize v.call pid request = result at hfo ⊢
  obtain ⟨result,v'⟩ := result
  cases hfo with
  | @returns wakes made value v' hwak hma hR =>
    cases hwak with
    | none h =>
      rw [append_nil] at hR
      exact .acts ((he.acts h).trans hR)
    | @transfer effect h hr =>
      cases he with
      | idle hn =>
        rw [hn] at h
        cases h
      | transfers h' =>
        cases h'.symm.trans h
        exact .transfers h hr hR
      | _ => cases h
    | @connect procfd address server data hreq hs hd hwa =>
      subst hreq
      refine .connects rfl hs hd hwa ?_
      cases he with
      | idle => exact hR
      | transfers h => cases h
      | connects =>
        refine Acts.trans ?_ hR
        exact acts_drivers (v.wakeServer server data) ⟨rfl,.inl rfl⟩
  | writes hm hr hw => exact .waits hm hr rfl rfl rfl
  | reads hm hr hw hf hre => exact .waits hm hr rfl rfl rfl
  | accepts hw =>
    subst hw
    exact .accepts (acts_drivers v ⟨rfl,.inl rfl⟩) rfl
end VFS
end LensorOS.Kernel
