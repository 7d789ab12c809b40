import LensorOS.Kernel.CallEffects

/-!
# What calls do to sockets

A call makes, binds, connects or accepts a socket, moves bytes, or leaves sockets alone, and then may
destroy sockets.
-/
namespace LensorOS.Kernel
open Framework Storage Scheduler Option
namespace Drivers
variable {d d' d'' : Drivers} {socket : Nat} {data : SocketData}
structure SameSockets (d d' : Drivers) : Prop where
  fifos : d'.fifos = d.fifos
  socketBuffers : d'.socketBuffers = d.socketBuffers
  sockets : d'.sockets = d.sockets
  bindings : d'.bindings = d.bindings

theorem SameSockets.refl (d : Drivers) : SameSockets d d := ⟨rfl,rfl,rfl,rfl⟩

/-- Apart from the bytes in FIFOs and who waits for them, the sockets are the same. -/
structure SameEndpoints (d d' : Drivers) : Prop where
  socketBuffers : d'.socketBuffers = d.socketBuffers
  sockets : d'.sockets = d.sockets
  bindings : d'.bindings = d.bindings

theorem SameSockets.endpoints (h : SameSockets d d') : SameEndpoints d d' := ⟨h.socketBuffers,h.sockets,h.bindings⟩

section
variable (d : Drivers)
theorem sameSockets_layPipe : SameSockets d d.layPipe.2 := by
  unfold layPipe
  split <;> exact ⟨rfl,rfl,rfl,rfl⟩

theorem sameSockets_openInput : SameSockets d d.openInput.2 := by
  unfold openInput
  split <;> exact ⟨rfl,rfl,rfl,rfl⟩

theorem sameSockets_closePipe (pipe : Nat) (pipeEnd : PipeEnd) : SameSockets d (d.closePipe pipe pipeEnd).1 := by
  unfold closePipe
  split <;> exact ⟨rfl,rfl,rfl,rfl⟩

section
variable {data : DriverData} (h : ∀ socket, data ≠ .socket socket)
include h
theorem sameSockets_close : SameSockets d (d.close data).1 := by
  cases data with
  | dbgOut | fileAllocationTable byteOffset => exact .refl d
  | input input => exact ⟨rfl,rfl,rfl,rfl⟩
  | pipe pipe pipeEnd => exact sameSockets_closePipe d pipe pipeEnd
  | socket socket => exact absurd rfl (h socket)

theorem sameSockets_read (pid n : Nat) (device : Option Nat) : SameSockets d (d.read data pid n device).drivers := by
  cases data with
  | dbgOut | fileAllocationTable byteOffset => exact .refl d
  | input input =>
    change SameSockets d (d.readInput input pid n).drivers
    unfold readInput
    split <;> exact ⟨rfl,rfl,rfl,rfl⟩
  | pipe pipe pipeEnd =>
    change SameSockets d (d.readPipe pipe pid n).drivers
    unfold readPipe
    split <;> exact ⟨rfl,rfl,rfl,rfl⟩
  | socket socket => exact absurd rfl (h socket)

theorem sameSockets_write (pid : Nat) (buffer : Bytes) (n : Nat) (device : Option Nat) :
    SameSockets d (d.write data pid buffer n device).drivers := by
  cases data with
  | dbgOut | fileAllocationTable byteOffset => exact .refl d
  | input input =>
    change SameSockets d (d.writeInput input buffer n).drivers
    unfold writeInput
    split <;> exact ⟨rfl,rfl,rfl,rfl⟩
  | pipe pipe pipeEnd =>
    change SameSockets d (d.writePipe pipe pid buffer n).drivers
    unfold writePipe
    split <;> exact ⟨rfl,rfl,rfl,rfl⟩
  | socket socket => exact absurd rfl (h socket)
end

theorem readFifo_endpoints (fifo pid n : Nat) : SameEndpoints d (d.readFifo fifo pid n).drivers := by
  unfold readFifo
  split <;> exact ⟨rfl,rfl,rfl⟩

theorem writeFifo_endpoints (fifo pid : Nat) (buffer : Bytes) (n : Nat) :
    SameEndpoints d (d.writeFifo fifo pid buffer n).drivers := by
  unfold writeFifo
  split <;> exact ⟨rfl,rfl,rfl⟩

theorem read_endpoints (data : DriverData) (pid n : Nat) (device : Option Nat) :
    SameEndpoints d (d.read data pid n device).drivers := by
  by_cases hs : ∃ socket, data = .socket socket
  · obtain ⟨socket,rfl⟩ := hs
    change SameEndpoints d (d.readSocket socket pid n).drivers
    unfold readSocket
    split
    · exact (SameSockets.refl d).endpoints
    all_goals exact readFifo_endpoints d _ pid n
  · exact (sameSockets_read d (fun socket he => hs ⟨socket,he⟩) pid n device).endpoints

theorem write_endpoints (data : DriverData) (pid : Nat) (buffer : Bytes) (n : Nat)
    (device : Option Nat) : SameEndpoints d (d.write data pid buffer n device).drivers := by
  by_cases hs : ∃ socket, data = .socket socket
  · obtain ⟨socket,rfl⟩ := hs
    change SameEndpoints d (d.writeSocket socket pid buffer n).drivers
    unfold writeSocket
    split
    · exact (SameSockets.refl d).endpoints
    all_goals exact writeFifo_endpoints d _ pid buffer n
  · exact (sameSockets_write d (fun socket he => hs ⟨socket,he⟩) pid buffer n
      device).endpoints
end

theorem map_set_same {α β : Type} {l : List α} {i : Nat} {x x' : α} (hx : l[i]? = some x)
    {field : α → β} (hs : field x' = field x) : (l.set i x').map field = l.map field := by
  have hl := lt_of_getElem? hx
  apply List.ext_getElem?
  intro k
  rw [List.getElem?_map,List.getElem?_map]
  by_cases he : i = k
  · subst he
    rw [List.getElem?_set_self hl,hx,map_some,map_some,hs]
  · rw [List.getElem?_set_ne he]

theorem map_setSocket {β : Type} (hd : d.sockets[socket]? = some data) {data' : SocketData}
    {field : SocketData → β} (hs : field data' = field data) :
    (d.setSocket socket data').sockets.map field = d.sockets.map field := map_set_same hd hs

theorem close_sockets (d : Drivers) (socket : Nat) :
    (d.closeSocket socket).sockets = d.sockets ∨ ∃ data, d.sockets[socket]? = some data ∧
      (d.closeSocket socket).sockets = d.sockets.set socket { data with data := none } := by
  unfold closeSocket
  split
  · exact .inl rfl
  next data hd =>
  split
  · exact .inl rfl
  split
  · exact .inl rfl
  refine .inr ⟨data,hd,?_⟩
  dsimp only
  split <;> rfl
end Drivers

namespace VFS
variable {v v' v'' w : VFS} {f pid procfd socket : Nat}
structure Spares (v v' : VFS) : Prop where
  sockets : v.drivers.SameSockets v'.drivers
  files : ∀ f socket,
    v'.driverData f = some (.socket socket) ↔ v.driverData f = some (.socket socket)
  closed : ∀ f socket, v.driverData f = some (.socket socket) → (f ∈ v'.closed ↔ f ∈ v.closed)

structure Closes (v : VFS) (f socket : Nat) (v' : VFS) : Prop where
  data : v.driverData f = some (.socket socket)
  sockets : (v.drivers.closeSocket socket).SameSockets v'.drivers
  files : ∀ f socket,
    v'.driverData f = some (.socket socket) ↔ v.driverData f = some (.socket socket)
  closed : ∀ g, g ∈ v'.closed ↔ g ∈ v.closed ∨ g = f

/-- Sockets are closed, and nothing else happens to them. -/
def Clears : VFS → VFS → Prop := Relation.ReflTransGen fun v v' => Spares v v' ∨ ∃ f socket, Closes v f socket v'

theorem Spares.clears (h : Spares v v') : Clears v v' := .single (.inl h)
theorem Closes.clears (h : Closes v f socket v') : Clears v v' := .single (.inr ⟨f,socket,h⟩)

section
variable (hdrv : v.drivers.SameSockets v'.drivers) (hheap : v'.heap = v.heap) (hclosed : v'.closed = v.closed)
include hdrv hheap hclosed
theorem Spares.same : Spares v v' where
  sockets := hdrv
  files := by
    intro f socket
    rw [driverData,metadata,hheap]
    rfl
  closed := by
    intro f socket hd
    rw [hclosed]

theorem Clears.same : Clears v v' := (Spares.same hdrv hheap hclosed).clears
end

theorem data_release (v : VFS) (f g : Nat) : (v.release f).driverData g = v.driverData g := by
  unfold release
  split
  · rfl
  next shared hs =>
  have hse : ((v.heap.set f { shared with refCount := shared.refCount-1 })[g]?.map
      SharedFile.file) = v.heap[g]?.map SharedFile.file := by
    by_cases he : f = g
    · subst he
      have hl := lt_of_getElem? hs
      rw [List.getElem?_set_self hl,hs]
      rfl
    · simp [he]
  split <;> exact congrArg (Option.map FileMetadata.driverData) hse

theorem release_clears (v : VFS) (f : Nat) : Clears v (v.release f) := by
  have hf : ∀ g socket, (v.release f).driverData g = some (.socket socket) ↔
      v.driverData g = some (.socket socket) := fun g socket => by rw [data_release]
  cases hs : v.heap[f]? with
  | none =>
    have hsa : v.release f = v := by simp [release,hs]
    rw [hsa]
    exact .refl
  | some shared =>
    have hd : v.driverData f = some shared.file.driverData := by simp [driverData,metadata,hs]
    by_cases hl : shared.refCount = 1
    · have hdrv : (v.release f).drivers = (v.drivers.close shared.file.driverData).1 := by
        simp [release,hs,hl]
      have hclosed : (v.release f).closed = v.closed ++ [f] := by simp [release,hs,hl]
      by_cases hso : ∃ socket, shared.file.driverData = .socket socket
      · obtain ⟨socket,hso⟩ := hso
        rw [hso] at hd hdrv
        refine Closes.clears ⟨hd,hdrv ▸ .refl _,hf,?_⟩
        intro g
        simp [hclosed]
      refine Spares.clears ⟨?_,hf,?_⟩
      · rw [hdrv]
        exact Drivers.sameSockets_close _ fun socket he => hso ⟨socket,he⟩
      intro g socket hg
      have hn : g ≠ f := by
        rintro rfl
        rw [hd] at hg
        exact hso ⟨socket,some.inj hg⟩
      simp [hclosed,hn]
    · have hdrv : (v.release f).drivers = v.drivers := by simp [release,hs,hl]
      have hclosed : (v.release f).closed = v.closed := by simp [release,hs,hl]
      refine Spares.clears ⟨hdrv ▸ .refl _,hf,?_⟩
      intro g socket hg
      rw [hclosed]

theorem spares_make (v : VFS) (fileSize : Nat) {data : DriverData}
    (h : ∀ socket, data ≠ .socket socket) : Spares v (v.make fileSize data).2 where
  sockets := .refl _
  files := by
    intro f socket
    by_cases hn : f = v.heap.length
    · simp [driverData,metadata,make,hn,h socket]
    · simp [driverData,metadata,make,getElem?_snoc,hn]
  closed := by
    intro f socket hd
    rfl

theorem clears_composes : Composes Clears where
  trans := Relation.ReflTransGen.trans
  tables := fun hdrv hw hheap hclosed => .same (hdrv ▸ .refl _) hheap hclosed
  modify := by
    intro v f change hc
    refine Spares.clears ⟨.refl _,?_,fun _ _ _ => Iff.rfl⟩
    intro g socket
    rw [data_modify v f change hc]
  make := fun v fileSize data h => (spares_make v fileSize h).clears
  layPipe := fun v => .same (Drivers.sameSockets_layPipe _) rfl rfl
  openInput := fun v => .same (Drivers.sameSockets_openInput _) rfl rfl
  release := release_clears

theorem clears_erases : Erases fun a b => Clears a.1 b.1 := clears_composes.erases

/-- The event of a call, and what is closed after it. -/
def Happens (v : VFS) (pid : Nat) (request : Call) (v' : VFS) : Prop := ∃ w, SocketEvent v pid request w ∧ Clears w v'

theorem transfer_endpoints {request : Call} {effect : Effect}
    (h : v.transfer pid request = some effect) : v.drivers.SameEndpoints effect.drivers := by
  rcases transfer_cases h with ⟨data,n,device,rfl⟩ | ⟨data,buffer,n,device,rfl⟩
  · exact Drivers.read_endpoints _ _ _ _ _
  · exact Drivers.write_endpoints _ _ _ _ _ _

theorem call_happens (hv : v.Consistent) (hl : ∀ fd f, v.files.get fd = some f → 0 < v.refCount f)
    (pid : Nat) (request : Call) : Happens v pid request (v.call pid request).2 := by
  obtain ⟨w,left,he,hfo⟩ := clears_erases.call hl hv [] pid request
  refine ⟨w,he,?_⟩
  have hwo : ∀ wakes, Clears w { w with wakes := wakes } := fun _ => .same (.refl _) rfl rfl
  generalize v.call pid request = result at hfo ⊢
  obtain ⟨result,v'⟩ := result
  cases hfo with
  | returns hwa hma hR => exact clears_composes.trans (hwo _) hR
  | writes hm hr hw =>
    subst hw
    exact hwo _
  | reads hm hr hw hf hre =>
    subst hw
    exact clears_composes.trans (hwo _) (clears_composes.modify _ _ _ fun _ => rfl)
  | accepts hw => exact .refl
end VFS

namespace State
variable {s s' : State}
/-- What a step of the kernel does to sockets: the event of a call on files, if it is one, and
what is closed after it. -/
inductive SocketStep (s : State) (call : Call) (v : VFS) : Prop
  | clears (hcall : ∀ request, call ≠ .file request) (h : VFS.Clears s.vfs v)
  | call {p : Process} {request : VFS.Call} {w : VFS} (hp : s.caller = some p)
      (hcall : call = .file request) (hevent : VFS.SocketEvent s.vfs p.processID request w)
      (hclears : VFS.Clears w v)

theorem step_sockets (hso : Sound s)
    (hl : ∀ fd f, s.vfs.files.get fd = some f → 0 < s.vfs.refCount f) {call : Call} (hste : s.step call = some s') :
    SocketStep s call s'.vfs := by
  have hs : ∀ v : VFS, VFS.Clears v { v with wakes := [] } := fun v => .same (.refl _) rfl rfl
  have hops := VFS.clears_erases
  have hf := step_files hste
  generalize s'.vfs = v, s'.booted = booted at hf ⊢
  cases hf with
  | opened hb => exact .clears nofun (hops.open s.vfs [] 0 _)
  | @created path loaded procfd hb =>
    refine .clears nofun ?_
    have hop := hops.open s.vfs [] 0 path
    have hst : VFS.Clears s.vfs (if loaded then
        (s.vfs.open 0 path).2.openStandard (s.scheduler.thePid+1)
          else (s.vfs.open 0 path).2) := by
      cases loaded with
      | false => exact hop
      | true =>
        have hstd : (s.vfs.open 0 path).2.stdin = none := by rw [VFS.stdin_open,(hso.booting hb).1]
        exact hop.trans (hops.openStandard [] hstd _)
    exact (hst.trans (hops.close _ [] 0 procfd)).trans (hs _)
  | @file request p hp =>
    obtain ⟨w,he,hc⟩ := VFS.call_happens hso.consistent hl p.processID request
    exact .call hp rfl he (hc.trans (hs _))
  | stuck hp => exact .clears nofun (hops.open s.vfs [] _ _)
  | @replaced path loaded p procfd hp hop =>
    have ho := hops.open s.vfs [] p.processID path
    exact .clears nofun ((ho.trans (hops.close _ [] _ _)).trans (hs _))
  | @forked p hp =>
    have ht : VFS.Clears s.vfs (s.vfs.addTable (s.scheduler.thePid+1)) := .same (.refl _) rfl rfl
    exact .clears nofun (ht.trans (hops.copyDescriptors _ [] p.processID _))
  | @exited status next p hp =>
    have hd := hops.destroy s.vfs [] p.processID
    exact .clears nofun (hd.trans (hs _))
  | kept hca => exact .clears hca .refl
end State
end LensorOS.Kernel
