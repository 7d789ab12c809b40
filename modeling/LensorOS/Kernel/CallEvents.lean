import LensorOS.Kernel.Operations

/-!
# What a call does first

Every call of the filesystem is one event, which changes what the drivers have and may wake up
processes, followed by small operations.
-/
namespace LensorOS.Kernel
open Framework Storage Scheduler List Option
namespace VFS
variable {v v' : VFS} {f pid procfd socket : Nat} {data : SocketData} {effect : Effect}
def refCount (v : VFS) (f : Nat) : Nat := (v.heap[f]?.map SharedFile.refCount).getD 0
def driverData (v : VFS) (f : Nat) : Option DriverData := (v.metadata f).map FileMetadata.driverData

theorem metadata_acquire (v : VFS) (f g : Nat) : (v.acquire f).metadata g = v.metadata g := by
  simp only [metadata,acquire,getElem?_modify]
  cases v.heap[g]? with
  | none => simp
  | some shared =>
    by_cases he : f = g
    · simp [he]
    · simp [he]

theorem release_acquire (hf : 0 < v.refCount f) : (v.acquire f).release f = v := by
  cases hs : v.heap[f]? with
  | none => simp [refCount,hs] at hf
  | some shared =>
    have hp : shared.refCount ≠ 0 := by
      rw [refCount,hs] at hf
      exact Nat.pos_iff_ne_zero.mp hf
    have hl := lt_of_getElem? hs
    have ha : (v.acquire f).heap[f]? = some { shared with
        refCount := shared.refCount+1 } := by simp [acquire,hs]
    have hh : (v.acquire f).heap.set f shared = v.heap := by
      apply ext_getElem?
      intro g
      by_cases he : f = g
      · subst he
        rw [hs]
        simp [acquire,hl]
      · simp [acquire,he]
    unfold release
    rw [ha]
    dsimp only
    rw [if_neg (by simpa using hp),Nat.add_sub_cancel,hh]
    rfl

def readCount (file : FileMetadata) (byteCount : Nat) : Nat :=
  if (file.offset+byteCount) % 2^64 > file.fileSize then file.fileSize-file.offset
  else byteCount

/-- What the driver of a file does in a read or a write that gets that far. -/
def transfer (v : VFS) (pid : Nat) : Call → Option Effect
  | .read procfd byteCount device =>
    (v.file pid procfd).bind fun f => (v.metadata f).bind fun file =>
      if file.offset ≥ file.fileSize then none
      else some (v.drivers.read file.driverData pid (readCount file byteCount) device)
  | .write procfd buffer byteCount device =>
    (v.file pid procfd).bind fun f => (v.metadata f).map fun file =>
      v.drivers.write file.driverData pid buffer byteCount device
  | _ => none

theorem transfer_cases {request : Call} (h : v.transfer pid request = some effect) :
    (∃ data n device, effect = v.drivers.read data pid n device) ∨
      ∃ data buffer n device, effect = v.drivers.write data pid buffer n device := by
  cases request with
  | read procfd byteCount device =>
    obtain ⟨f,-,hf⟩ := bind_eq_some_iff.mp h
    obtain ⟨file,-,hfi⟩ := bind_eq_some_iff.mp hf
    obtain ⟨-,he⟩ := ite_none_left_eq_some.mp hfi
    cases he
    exact .inl ⟨_,_,_,rfl⟩
  | write procfd buffer byteCount device =>
    obtain ⟨f,-,hf⟩ := bind_eq_some_iff.mp h
    obtain ⟨file,-,rfl⟩ := map_eq_some_iff.mp hf
    exact .inr ⟨_,_,_,_,rfl⟩
  | _ => cases h

theorem socketOf_eq (h : v.socketOf f = some (socket,data)) :
    v.driverData f = some (.socket socket) ∧ v.drivers.sockets[socket]? = some data := by
  unfold socketOf at h
  split at h
  · next offset size socket' hm =>
    obtain ⟨data',hd',he⟩ := map_eq_some_iff.mp h
    cases he
    exact ⟨by rw [driverData,hm]; rfl,hd'⟩
  · cases h

structure At (v : VFS) (pid procfd socket : Nat) (data : SocketData) : Prop where
  file : ∃ f, v.file pid procfd = some f ∧ v.driverData f = some (.socket socket)
  data : v.drivers.sockets[socket]? = some data

theorem At.of_socketOf (hf : v.file pid procfd = some f)
    (h : v.socketOf f = some (socket,data)) : v.At pid procfd socket data :=
  ⟨⟨f,hf,(socketOf_eq h).1⟩,(socketOf_eq h).2⟩

theorem socketOf_acquire (v : VFS) (f g : Nat) : (v.acquire f).socketOf g = v.socketOf g := by
  unfold socketOf
  rw [metadata_acquire]
  rfl

def withSocket (v : VFS) (drivers : Drivers) (socket : Nat) : VFS :=
  ({ v with drivers := drivers }.make socketRxBufferSize (.socket socket)).2

/-- What a call does to sockets before it destroys pointers. -/
inductive SocketEvent (v : VFS) (pid : Nat) : Call → VFS → Prop
  | idle {request : Call} (h : v.transfer pid request = none) : SocketEvent v pid request v
  | transfers {request : Call} {effect : Effect} (h : v.transfer pid request = some effect) :
      SocketEvent v pid request { v with drivers := effect.drivers }
  | makes {domain : Nat} : SocketEvent v pid (.socket domain)
      (v.withSocket (v.drivers.socket pid).2 v.drivers.sockets.length)
  | binds {procfd : Nat} {address : SocketAddress} {socket : Nat} {data : SocketData}
      {drivers : Drivers} (hat : v.At pid procfd socket data)
      (h : v.drivers.bind socket data address = some drivers) :
      SocketEvent v pid (.bind procfd address) { v with drivers := drivers }
  | listens {procfd socket : Nat} {data : SocketData} (hat : v.At pid procfd socket data)
      (hbound : data.address ≠ .unbound) : SocketEvent v pid (.listen procfd)
        { v with drivers := v.drivers.setSocket socket { data with clientServer := .server } }
  | connects {procfd : Nat} {address : SocketAddress} {socket server : Nat}
      {data serverData : SocketData} (hat : v.At pid procfd socket data)
      (hclient : data.clientServer = .client)
      (hserver : v.drivers.getBoundSocket address = some server)
      (hdata : v.drivers.sockets[server]? = some serverData) :
      SocketEvent v pid (.connect procfd address) { v with
        drivers := v.drivers.setSocket server
          { serverData with connectionQueue := serverData.connectionQueue ++ [socket] } }
  | waits {procfd socket : Nat} {data : SocketData} (hat : v.At pid procfd socket data)
      (hqueue : data.connectionQueue = []) : SocketEvent v pid (.accept procfd)
        { v with drivers := v.drivers.setSocket socket { data with waitingOnConnection := true } }
  | refuses {procfd socket client : Nat} {data : SocketData} {rest : List Nat}
      (hat : v.At pid procfd socket data) (hqueue : data.connectionQueue = client :: rest) :
      SocketEvent v pid (.accept procfd)
        { v with drivers := v.drivers.setSocket socket { data with connectionQueue := rest } }
  | accepts {procfd socket client : Nat} {data clientData : SocketData} {rest : List Nat}
      {drivers : Drivers} (hat : v.At pid procfd socket data)
      (hqueue : data.connectionQueue = client :: rest)
      (hdrv : drivers = v.drivers.setSocket socket { data with connectionQueue := rest })
      (hclient : drivers.sockets[client]? = some clientData) : SocketEvent v pid (.accept procfd)
        (v.withSocket (drivers.acceptSocket clientData).2 drivers.sockets.length)

inductive Wakes (v : VFS) (pid : Nat) (request : Call) : List WakeUp → Prop
  | none (h : v.transfer pid request = none) : Wakes v pid request []
  | transfer {effect : Effect} (h : v.transfer pid request = some effect)
      (hreply : ∀ object, effect.reply ≠ .blocks object) : Wakes v pid request effect.wakes
  | connect {procfd : Nat} {address : SocketAddress} {server : Nat} {data : SocketData}
      (hreq : request = .connect procfd address)
      (hserver : v.drivers.getBoundSocket address = some server)
      (hdata : v.drivers.sockets[server]? = some data) (hwaiting : data.waitingOnConnection = true) :
      Wakes v pid request (wakeUps (.connection server) (-2) [data.pid])

inductive Makes (v w : VFS) : List Nat → Prop
  | none (hheap : w.heap = v.heap) (hclosed : w.closed = v.closed) (hfiles : w.files = v.files)
      (hwakes : w.wakes = v.wakes) : Makes v w []
  | socket {drivers : Drivers} {socket : Nat} (hw : w = v.withSocket drivers socket) :
      Makes v w [v.heap.length]

/-- What follows the event of a call. One that does not return ends there, and a read keeps its
pointer to the file. -/
inductive Follows (R : VFS × List Nat → VFS × List Nat → Prop) (v : VFS) (pid : Nat) (request : Call)
    (w : VFS) (held : List Nat) : Result → VFS → List Nat → Prop
  | returns {wakes : List WakeUp} {made : List Nat} {value : Int} {v' : VFS}
      (hwakes : Wakes v pid request wakes) (hmade : Makes v w made)
      (h : R ({ w with wakes := w.wakes ++ wakes }, made ++ held) (v',held)) :
      Follows R v pid request w held (.returned value) v' held
  | writes {effect : Effect} {object : WaitObject} {rax : BitVec 64}
      (hmoved : v.transfer pid request = some effect) (hreply : effect.reply = .blocks object)
      (hw : w = { v with drivers := effect.drivers }) :
      Follows R v pid request w held (.blocked object rax) (v.apply effect) held
  | reads {effect : Effect} {object : WaitObject} {rax : BitVec 64} {f : Nat}
      (hmoved : v.transfer pid request = some effect) (hreply : effect.reply = .blocks object)
      (hw : w = { v with drivers := effect.drivers }) (hf : ∃ procfd, v.file pid procfd = some f)
      (hread : ∃ procfd byteCount device, request = .read procfd byteCount device) :
      Follows R v pid request w held (.blocked object rax) ((v.apply effect).acquire f) (f :: held)
  | accepts {socket : Nat} {data : SocketData} {rax : BitVec 64}
      (hw : w = { v with drivers := v.drivers.setSocket socket data }) :
      Follows R v pid request w held (.blocked (.connection socket) rax) w held

def Goes (R : VFS × List Nat → VFS × List Nat → Prop) (v : VFS) (pid : Nat) (request : Call)
    (held : List Nat) (result : Result × VFS) : Prop :=
  ∃ w left, SocketEvent v pid request w ∧ Follows R v pid request w held result.1 result.2 left

section
variable {R : VFS × List Nat → VFS × List Nat → Prop} {held : List Nat} {request : Call} {w : VFS} {value : Int}
theorem Goes.steady {drivers : Drivers} {wakes : List WakeUp}
    (he : SocketEvent v pid request { v with drivers := drivers })
    (hw : Wakes v pid request wakes)
    (hR : R ({ v with drivers := drivers, wakes := v.wakes ++ wakes }, held) (v',held)) :
    Goes R v pid request held (.returned value,v') :=
  ⟨_,held,he,.returns hw (.none rfl rfl rfl rfl) hR⟩

theorem Goes.idle (hm : v.transfer pid request = none)
    (hR : R (v,held) (v',held)) : Goes R v pid request held (.returned value,v') :=
  .steady (.idle hm) (.none hm) ((append_nil v.wakes).symm ▸ hR)

theorem Goes.transfers (hm : v.transfer pid request = some effect)
    (hr : ∀ object, effect.reply ≠ .blocks object) (hR : R (v.apply effect,held) (v',held)) :
    Goes R v pid request held (.returned value,v') :=
  .steady (.transfers hm) (.transfer hm hr) hR

variable (h : Tracks R)
include h
theorem Tracks.onSocket (hm : v.transfer pid request = none)
    {change : VFS → Nat → SocketData → Int × VFS} (hc : ∀ socket data, v.At pid procfd socket data →
      ∃ drivers wakes, (∀ f, (change (v.acquire f) socket data).2 =
          { v.acquire f with drivers := drivers, wakes := v.wakes ++ wakes }) ∧
        SocketEvent v pid request { v with drivers := drivers } ∧ Wakes v pid request wakes) :
    Goes R v pid request held (v.onSocket pid procfd change) := by
  unfold VFS.onSocket
  split
  · exact .idle hm (h.refl v held)
  next f hf =>
  dsimp only
  split
  · exact .idle hm (h.borrow held hf)
  next socket data hs =>
  rw [socketOf_acquire] at hs
  obtain ⟨drivers,wakes,hr,he,hw⟩ := hc socket data (.of_socketOf hf hs)
  rw [hr f]
  have hf' := hf
  exact .steady he hw (h.borrow held hf')

theorem Tracks.sys19Bind (v : VFS) (pid procfd : Nat) (address : SocketAddress) :
    Goes R v pid (.bind procfd address) held (v.sys19Bind pid procfd address) := by
  apply h.onSocket rfl
  intro socket data ha
  cases hb : v.drivers.bind socket data address with
  | none =>
    refine ⟨v.drivers,[],fun f => ?_,.idle rfl,.none rfl⟩
    rw [show (v.acquire f).drivers = v.drivers from rfl,hb,append_nil]
    rfl
  | some drivers =>
    refine ⟨drivers,[],fun f => ?_,.binds ha hb,.none rfl⟩
    rw [show (v.acquire f).drivers = v.drivers from rfl,hb,append_nil]
    rfl

theorem Tracks.sys20Listen (v : VFS) (pid procfd : Nat) :
    Goes R v pid (.listen procfd) held (v.sys20Listen pid procfd) := by
  apply h.onSocket rfl
  intro socket data ha
  by_cases hb : data.address = .unbound
  · refine ⟨v.drivers,[],fun f => ?_,.idle rfl,.none rfl⟩
    rw [if_pos hb,append_nil]
    rfl
  refine ⟨_,[],fun f => ?_,.listens ha hb,.none rfl⟩
  rw [if_neg hb,append_nil]
  rfl

theorem Tracks.sys21Connect (v : VFS) (pid procfd : Nat) (address : SocketAddress) :
    Goes R v pid (.connect procfd address) held (v.sys21Connect pid procfd address) := by
  apply h.onSocket rfl
  intro socket data ha
  have hdr : ∀ f, (v.acquire f).drivers = v.drivers := fun _ => rfl
  by_cases hc : data.clientServer = .client
  · simp only [if_neg (not_not.mpr hc),hdr]
    cases hs : v.drivers.getBoundSocket address with
    | none => exact ⟨v.drivers,[],fun f => by rw [append_nil]; rfl,.idle rfl,.none rfl⟩
    | some server =>
      dsimp only
      cases hd : v.drivers.sockets[server]? with
      | none => exact ⟨v.drivers,[],fun f => by rw [append_nil]; rfl,.idle rfl,.none rfl⟩
      | some serverData =>
        by_cases hg : (v.fileDescriptors serverData.pid).isNone = true
        · refine ⟨v.drivers,[],fun f => ?_,.idle rfl,.none rfl⟩
          dsimp only
          rw [append_nil,if_pos (show ((v.acquire f).fileDescriptors serverData.pid).isNone = true from hg)]
          rfl
        refine ⟨_,if serverData.waitingOnConnection then
          wakeUps (.connection server) (-2) [serverData.pid] else [],fun f => ?_,
          .connects ha hc hs hd,?_⟩
        · dsimp only
          rw [if_neg (show ¬((v.acquire f).fileDescriptors serverData.pid).isNone = true from hg)]
          rfl
        split
        · next hw => exact .connect rfl hs hd hw
        · exact .none rfl
  · refine ⟨v.drivers,[],fun f => ?_,.idle rfl,.none rfl⟩
    rw [if_pos hc,append_nil]
    rfl

theorem Tracks.sys18Socket (v : VFS) (pid domain : Nat) :
    Goes R v pid (.socket domain) held (v.sys18Socket pid domain) := by
  unfold VFS.sys18Socket
  split
  · exact .idle rfl (h.refl v held)
  refine ⟨_,held,.makes,.returns (.none rfl) (.socket rfl) ?_⟩
  rw [append_nil]
  exact h.addMade _ held _ pid

theorem Tracks.sys14Seek (v : VFS) (pid procfd : Nat) (offset : Int) (whence : Nat) :
    Goes R v pid (.seek procfd offset whence) held (v.sys14Seek pid procfd offset whence) := by
  unfold VFS.sys14Seek
  split
  · exact .idle rfl (h.refl v held)
  next f hf =>
  dsimp only
  split
  · exact .idle rfl (h.borrow held hf)
  next file hfi =>
  split
  · exact .idle rfl (h.borrow held hf)
  · next target ht =>
    exact .idle rfl (h.trans (h.trans (h.of_file held hf) (h.seek _ _ hfi target)) (h.release _ f held))

theorem Tracks.sys2Read (v : VFS) (pid procfd byteCount : Nat) (device : Option Nat) :
    Goes R v pid (.read procfd byteCount device) held (v.sys2Read pid procfd byteCount device) := by
  unfold VFS.sys2Read
  split
  · next hf => exact .idle (by simp [transfer,hf]) (h.refl v held)
  next f hf =>
  dsimp only
  split
  · next hfi =>
    rw [metadata_acquire] at hfi
    exact .idle (by simp [transfer,hf,hfi]) (h.borrow held hf)
  next file hfi =>
  rw [metadata_acquire] at hfi
  split
  · next hc => exact .idle (by simp [transfer,hf,hfi,hc]) (h.borrow held hf)
  next hc =>
  have hm : v.transfer pid (.read procfd byteCount device) =
      some (v.drivers.read file.driverData pid (readCount file byteCount) device) := by
    simp [transfer,hf,hfi,hc]
  rw [show (v.acquire f).drivers = v.drivers from rfl]
  change v.transfer pid _ = some (v.drivers.read _ pid (if _ then _ else _) device) at hm
  generalize v.drivers.read file.driverData pid _ device = effect at hm ⊢
  have hf' := hf
  split
  · next object hb =>
    exact ⟨_,_,.transfers hm,.reads hm hb rfl ⟨procfd,hf⟩ ⟨_,_,_,rfl⟩⟩
  · next he => exact .transfers hm (by simp [he]) (h.borrow held hf')
  · next count hd =>
    exact .transfers hm (by simp [hd]) (h.trans
      (h.trans (h.of_file held hf') (h.advance _ _ f count)) (h.release _ f held))

section
variable (hlive : ∀ fd f, v.files.get fd = some f → 0 < v.refCount f)
omit h in
include hlive in
theorem file_live (hf : v.file pid procfd = some f) : 0 < v.refCount f := by
  obtain ⟨fd,-,hfd⟩ := bind_eq_some_iff.mp hf
  exact hlive fd f hfd

include hlive
theorem Tracks.sys3Write (pid procfd : Nat) (buffer : Bytes) (byteCount : Nat)
    (device : Option Nat) : Goes R v pid (.write procfd buffer byteCount device) held
      (v.sys3Write pid procfd buffer byteCount device) := by
  unfold VFS.sys3Write
  split
  · next hf => exact .idle (by simp [transfer,hf]) (h.refl v held)
  next f hf =>
  rw [release_acquire (file_live hlive hf)]
  dsimp only
  split
  · next hfi => exact .idle (by simp [transfer,hf,hfi]) (h.refl v held)
  next file hfi =>
  have hm : v.transfer pid (.write procfd buffer byteCount device) =
      some (v.drivers.write file.driverData pid buffer byteCount device) := by simp [transfer,hf,hfi]
  generalize v.drivers.write file.driverData pid buffer byteCount device = effect at hm ⊢
  have hf' := hf
  split
  · next object hb => exact ⟨_,_,.transfers hm,.writes hm hb rfl⟩
  · next he => exact .transfers hm (by simp [he]) (h.refl _ held)
  next count hd =>
  have hr : ∀ object, effect.reply ≠ .blocks object := by simp [hd]
  split
  · exact .transfers hm hr (h.trans (h.trans (h.of_file held hf') (h.advance _ _ f count)) (h.release _ f held))
  · exact .transfers hm hr (h.refl _ held)

theorem Tracks.sys22Accept (pid procfd : Nat) : Goes R v pid (.accept procfd) held (v.sys22Accept pid procfd) := by
  unfold VFS.sys22Accept
  split
  · exact .idle rfl (h.refl v held)
  next f hf =>
  rw [release_acquire (file_live hlive hf)]
  dsimp only
  split
  · exact .idle rfl (h.refl v held)
  next socket data hs =>
  have ha : v.At pid procfd socket data := .of_socketOf hf hs
  have hn : Wakes v pid (.accept procfd) [] := .none rfl
  split
  · next hq => exact ⟨_,_,.waits ha hq,.accepts rfl⟩
  next client rest hq =>
  have hr : R ({ v with
      drivers := v.drivers.setSocket socket { data with connectionQueue := rest }
      wakes := v.wakes ++ [] }, held) ({ v with
        drivers := v.drivers.setSocket socket { data with connectionQueue := rest } }, held) := by
    rw [append_nil]
    exact h.refl _ held
  split
  · exact .steady (.refuses ha hq) hn hr
  next clientData hc =>
  split
  · exact .steady (.refuses ha hq) hn hr
  refine ⟨_,held,.accepts ha hq rfl hc,.returns hn (.socket rfl) ?_⟩
  rw [append_nil]
  exact h.addMade _ held _ pid

theorem Tracks.call (held : List Nat) (pid : Nat) (request : Call) (hc : ∀ procfd, request ≠ .close procfd)
    (hd2 : ∀ procfd replaced, request ≠ .repfd procfd replaced) :
    Goes R v pid request held (v.call pid request) := by
  cases request with
  | «open» path => exact .idle rfl (h.open v held pid path)
  | close procfd => exact absurd rfl (hc procfd)
  | read procfd byteCount device => exact h.sys2Read v pid procfd byteCount device
  | write procfd buffer byteCount device => exact h.sys3Write hlive pid procfd buffer byteCount device
  | repfd procfd replaced => exact absurd rfl (hd2 procfd replaced)
  | pipe => exact .idle rfl (h.sys13Pipe v held pid)
  | seek procfd offset whence => exact h.sys14Seek v pid procfd offset whence
  | dup procfd => exact .idle rfl (h.dup v held pid procfd)
  | socket domain => exact h.sys18Socket v pid domain
  | bind procfd address => exact h.sys19Bind v pid procfd address
  | listen procfd => exact h.sys20Listen v pid procfd
  | connect procfd address => exact h.sys21Connect v pid procfd address
  | accept procfd => exact h.sys22Accept hlive pid procfd

omit h in
theorem Erases.call (h : Erases R) (hv : v.Consistent) (held : List Nat) (pid : Nat)
    (request : Call) : Goes R v pid request held (v.call pid request) := by
  cases request with
  | close procfd => exact .idle rfl (h.close v held pid procfd)
  | repfd procfd replaced => exact .idle rfl (h.dup2 held hv pid procfd replaced)
  | _ => exact h.toTracks.call hlive held pid _ nofun nofun
end
end
end VFS
end LensorOS.Kernel
