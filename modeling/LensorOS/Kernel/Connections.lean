import LensorOS.Kernel.Bindings

/-!
# Connections in a queue

The queue of a server holds pointers to the sockets of its clients, and a client may be closed while
it waits there.
-/
namespace LensorOS.Kernel
open Framework Storage Scheduler List Option Function Drivers VFS SocketData
variable {socket : Nat}
namespace VFS
variable {v v' w w' : VFS} {pid procfd fd f : Nat} {path : List Char} {lost : Nat → Prop}
/-- Entries of the table of open files that are not lost stay as they are, and the files in new
entries are new or have an entry already. -/
structure Retains (lost : Nat → Prop) (v v' : VFS) : Prop where
  kept : ∀ fd f, v.files.get fd = some f → ¬lost fd → v'.files.get fd = some f
  entries : ∀ fd f, v'.files.get fd = some f → v.heap.length ≤ f ∨ ∃ fd', v.files.get fd' = some f

namespace Retains
theorem refl (lost : Nat → Prop) (v : VFS) : Retains lost v v := ⟨fun _ _ h _ => h,fun fd _ h => .inr ⟨fd,h⟩⟩

variable (h : Retains lost v w)
include h
theorem same (hf : w'.files = w.files) : Retains lost v w' := ⟨hf ▸ h.kept,hf ▸ h.entries⟩

theorem addFile (hf : v.heap.length ≤ f ∨ ∃ fd, v.files.get fd = some f) (pid : Nat) :
    Retains lost v (w.addFile (some f) pid).2 := by
  have hfi : (w.addFile (some f) pid).2.files.get = update w.files.get (w.files.insert f).1 (some f) := by
    rw [(heap_addFile w (some f) pid).2.2]
    exact w.files.get_insert f
  have hfr := w.files.get_insert_fresh f
  constructor
  · intro fd g hg hk
    have ho := h.kept fd g hg hk
    have hn : fd ≠ (w.files.insert f).1 := by
      rintro rfl
      rw [hfr] at ho
      cases ho
    rw [hfi,update_of_ne hn,ho]
  intro fd g hg
  rw [hfi] at hg
  by_cases he : fd = (w.files.insert f).1
  · rw [he,update_self] at hg
    exact some.inj hg ▸ hf
  · rw [update_of_ne he] at hg
    exact h.entries fd g hg

theorem eraseFile (hl : lost fd) : Retains lost v (w.eraseFile fd) := by
  have hf := get_eraseFile w fd
  constructor
  · intro i g hg hk
    have hn : i ≠ fd := by
      rintro rfl
      exact hk hl
    rw [hf,update_of_ne hn,h.kept i g hg hk]
  intro i g hg
  rw [hf] at hg
  by_cases he : i = fd
  · rw [he,update_self] at hg
    cases hg
  · rw [update_of_ne he] at hg
    exact h.entries i g hg

theorem close (hl : ∀ fd, w.procfdToFd pid procfd = some fd → lost fd) : Retains lost v (w.close pid procfd) := by
  unfold VFS.close
  split
  · exact h
  next fd hfd =>
  split
  · exact h
  next f hf =>
  have he : Retains lost v ((w.acquire f).eraseDescriptor pid procfd) := h.same files_erase
  exact (he.eraseFile (hl fd hfd)).same files_release

theorem replaceFile (hl : lost fd) (hlive : (w.files.get fd).isSome)
    (hf : v.heap.length ≤ f ∨ ∃ fd, v.files.get fd = some f) :
    Retains lost v (w.replaceFile fd f) := by
  have hlt := w.files.get_lt (get_mem hlive)
  have hfi : (w.replaceFile fd f).files.get = update w.files.get fd (some f) := by
    rw [← w.files.get_replace hlt]
    unfold VFS.replaceFile
    dsimp only
    split
    · rfl
    · rw [files_release]
  constructor
  · intro i g hg hk
    have hn : i ≠ fd := by
      rintro rfl
      exact hk hl
    rw [hfi,update_of_ne hn,h.kept i g hg hk]
  intro i g hg
  rw [hfi] at hg
  by_cases he : i = fd
  · rw [he,update_self] at hg
    exact some.inj hg ▸ hf
  · rw [update_of_ne he] at hg
    exact h.entries i g hg
end Retains

/-- The tables only lose what a call closes. -/
def Call.Loses (v : VFS) (pid : Nat) : Call → Nat → Prop
  | .close procfd, fd => v.procfdToFd pid procfd = some fd
  | .repfd _ replaced, fd => v.procfdToFd pid replaced = some fd
  | _, _ => False

/-- The pointers that a call holds are to new files or have an entry already. -/
structure RetainsHeld (lost : Nat → Prop) (v w : VFS) (held : List Nat) : Prop where
  retains : Retains lost v w
  grown : v.heap.length ≤ w.heap.length
  held : ∀ f ∈ held, v.heap.length ≤ f ∨ ∃ fd, v.files.get fd = some f

section
variable (lost : Nat → Prop) (v : VFS)
theorem retains_tracks : Tracks fun a b => RetainsHeld lost v a.1 a.2 → RetainsHeld lost v b.1 b.2 where
  trans := fun h h' ha => h' (h ha)
  tables := by
    intro w w' held he' _ _ hh _ hfi hp ha
    exact ⟨ha.retains.same hfi,hh ▸ ha.grown,fun f hf => ha.held f (hp.mem_iff.mpr hf)⟩
  add := by
    intro w f held pid ha
    have hf := ha.held f mem_cons_self
    refine ⟨ha.retains.addFile hf pid,?_,fun g hg => ha.held g (mem_cons_of_mem _ hg)⟩
    rw [(heap_addFile w (some f) pid).1]
    exact ha.grown
  acquire := by
    intro w f held hf ha
    refine ⟨ha.retains.same rfl,?_,?_⟩
    · rw [acquire,length_modify]
      exact ha.grown
    have hf : v.heap.length ≤ f ∨ ∃ fd, v.files.get fd = some f := by
      rcases hf with hhe | ⟨fd,hfd⟩
      · exact ha.held f hhe
      · exact ha.retains.entries fd f hfd
    exact forall_mem_cons.mpr ⟨hf,ha.held⟩
  release := by
    intro w f held ha
    refine ⟨ha.retains.same files_release,?_,fun g hg => ha.held g (mem_cons_of_mem _ hg)⟩
    have hl : (w.release f).heap.length = w.heap.length := by
      unfold release
      split
      · rfl
      · split <;> simp
    rw [hl]
    exact ha.grown
  modify := by
    intro w f change held _ _ ha
    refine ⟨ha.retains.same rfl,?_,ha.held⟩
    rw [length_modify]
    exact ha.grown
  make := by
    intro w fileSize data held _ ha
    refine ⟨ha.retains.same rfl,?_,forall_mem_cons.mpr ⟨.inl ha.grown,ha.held⟩⟩
    exact ha.grown.trans (by simp [make])
  layPipe := fun _ _ ha => ⟨ha.retains.same rfl,ha.grown,ha.held⟩
  openInput := fun _ _ ha => ⟨ha.retains.same rfl,ha.grown,ha.held⟩

theorem RetainsHeld.refl : RetainsHeld lost v v [] := ⟨.refl lost v,le_refl _,by simp⟩

theorem retains_open (pid : Nat) (path : List Char) : Retains lost v (v.open pid path).2 :=
  ((retains_tracks lost v).open v [] pid path (.refl lost v)).retains
end

theorem retains_dup2 (hv : v.Consistent) (pid procfd replaced : Nat) :
    Retains ((Call.repfd procfd replaced).Loses v pid) v (v.dup2 pid procfd replaced).2 := by
  rcases v.dup2_cases pid procfd replaced with he | ⟨-,-,he⟩ | ⟨fd,f,hfd,hf,he⟩
  · exact he ▸ .refl _ v
  · exact he ▸ .refl _ v
  obtain ⟨sysfd,-,hs⟩ := bind_eq_some_iff.mp hf
  have ha : Retains ((Call.repfd procfd replaced).Loses v pid) v (v.acquire f) := (Retains.refl _ v).same rfl
  exact he ▸ ha.replaceFile hfd (hv.live (pid,replaced) fd hfd) (.inr ⟨sysfd,hs⟩)

section
variable (hlive : ∀ fd f, v.files.get fd = some f → 0 < v.refCount f)
include hlive
theorem retains_tracked (lost : Nat → Prop) (pid : Nat) (request : Call)
    (hcl : ∀ procfd, request ≠ .close procfd)
    (hd2 : ∀ procfd replaced, request ≠ .repfd procfd replaced) :
    Retains lost v (v.call pid request).2 := by
  have hs := RetainsHeld.refl lost v
  obtain ⟨w,left,-,hf⟩ := (retains_tracks lost v).call hlive [] pid request hcl hd2
  generalize v.call pid request = result at hf ⊢
  obtain ⟨result,v'⟩ := result
  cases hf with
  | returns hwa hm hR =>
    refine (hR ?_).retains
    cases hm with
    | none hh hc hfi hwa =>
      exact ⟨hs.retains.same hfi,(congrArg length hh).ge,hs.held⟩
    | socket hw =>
      subst hw
      exact ⟨hs.retains.same rfl,by simp [withSocket,make],by simp⟩
  | writes | reads => exact hs.retains.same rfl
  | accepts hw => exact hs.retains.same (hw ▸ rfl)

theorem retains_call (hv : v.Consistent) (pid : Nat) (request : Call) :
    Retains (request.Loses v pid) v (v.call pid request).2 := by
  cases request with
  | close procfd => exact (Retains.refl _ v).close fun fd hf => hf
  | repfd procfd replaced => exact retains_dup2 hv pid procfd replaced
  | _ => exact retains_tracked hlive _ pid _ nofun nofun
end

theorem retains_destroy (hv : v.Consistent) (pid : Nat) :
    Retains (fun fd => ∃ procfd, v.procfdToFd pid procfd = some fd) v (v.destroy pid) := by
  have hb : ∀ n, Retains (fun fd => ∃ procfd, v.procfdToFd pid procfd = some fd) v
      (v.closeBelow pid n) := by
    intro n
    induction n with
    | zero => exact .refl _ v
    | succ n ih =>
      rw [closeBelow_succ]
      refine ih.close ?_
      intro fd hf
      have hl := congrFun (hv.closeBelow pid n).2 (pid,n)
      simp only [lt_irrefl,and_false,if_false] at hl
      exact ⟨n,hl.symm.trans hf⟩
  exact (hb _).same rfl

theorem Retains.of_fresh (h : Retains (fun fd => v.files.get fd = none) v w) : Retains lost v w where
  kept := by
    intro fd f hf _
    refine h.kept fd f hf ?_
    rw [hf]
    simp
  entries := h.entries

theorem retains_openClose (lost : Nat → Prop) (hp : (v.open pid path).1 = some procfd) :
    Retains lost v ((v.open pid path).2.close pid procfd) := by
  refine ((retains_open _ v pid path).close ?_).of_fresh
  intro fd hfd
  unfold VFS.open at hp hfd
  split at hp
  · cases hp
  next hl =>
  rw [if_neg hl] at hfd
  split at hp
  · cases hp
  next hr =>
  rw [if_neg hr] at hfd
  dsimp only at hp hfd
  split at hp
  · cases hp
  next fileSize byteOffset hf =>
  rw [hf] at hfd
  dsimp only at hfd
  cases ht : v.fileDescriptors pid with
  | none => simp [addFile,make,ht,procfdToFd] at hfd
  | some table =>
    have hm : (v.make fileSize (.fileAllocationTable byteOffset)).2.fileDescriptors pid = some table := ht
    have ha := addFile_adds hm (v.make fileSize (.fileAllocationTable byteOffset)).1
    generalize (v.make fileSize (.fileAllocationTable byteOffset)).1 = made at *
    have hfi : ((v.make fileSize (.fileAllocationTable byteOffset)).2.addFile
        (some made) pid).1 = (table.insert ((v.make fileSize
          (.fileAllocationTable byteOffset)).2.files.insert made).1).1 := by
      simp [addFile,hm,SparseVector.pushBack]
    have hn := congrFun ha.lookup (pid,procfd)
    rw [← some.inj hp,hfi] at hn hfd
    rw [update_self] at hn
    rw [← some.inj (hn.symm.trans hfd)]
    exact ha.newFile

def Open (v : VFS) (socket : Nat) : Prop := ∃ fd f, v.files.get fd = some f ∧ v.driverData f = some (.socket socket)

theorem At.open {data : SocketData} (h : v.At pid procfd socket data) : v.Open socket := by
  obtain ⟨f,hf,hd⟩ := h.file
  obtain ⟨fd,-,hfd⟩ := bind_eq_some_iff.mp hf
  exact ⟨fd,f,hfd,hd⟩

/-- Each socket belongs to one file, and is not deleted before the file is closed. -/
structure Owned (v : VFS) : Prop where
  within : ∀ f socket, v.driverData f = some (.socket socket) → socket < v.drivers.sockets.length
  unique : ∀ f g socket, v.driverData f = some (.socket socket) →
    v.driverData g = some (.socket socket) → f = g
  live : ∀ f socket, v.driverData f = some (.socket socket) → f ∉ v.closed →
    ¬v.drivers.Deleted socket
end VFS

namespace Drivers
variable {d d' : Drivers} {socket : Nat} {data : SocketData}
def queue (d : Drivers) (socket : Nat) : List Nat := (d.sockets[socket]?.map connectionQueue).getD []

theorem queue_eq (h : d.sockets[socket]? = some data) : d.queue socket = data.connectionQueue := by
  simp [queue,h]

theorem queue_congr (h : d'.sockets.map connectionQueue =
    d.sockets.map connectionQueue) (socket : Nat) : d'.queue socket = d.queue socket := by
  rw [queue,queue,← getElem?_map,← getElem?_map,h]

theorem length_holders (d : Drivers) : d.holders.length = d.sockets.length := length_map _

theorem queue_close (d : Drivers) (socket k : Nat) : (d.closeSocket socket).queue k = d.queue k := by
  apply queue_congr
  rcases d.close_sockets socket with hs | ⟨data,hd,hse⟩
  · rw [hs]
  · rw [hse]
    exact map_setSocket hd rfl

theorem deleted_close {k : Nat} (hn : socket ≠ k) : (d.closeSocket socket).Deleted k ↔ d.Deleted k := by
  rw [Deleted,Deleted,getElem?_holders,getElem?_holders]
  rcases d.close_sockets socket with hs | ⟨data,hd,hse⟩
  · rw [hs]
  · rw [hse,getElem?_set_ne hn]

theorem length_close (d : Drivers) (socket : Nat) : (d.closeSocket socket).sockets.length = d.sockets.length := by
  rcases d.close_sockets socket with hs | ⟨data,hd,hse⟩
  · rw [hs]
  · rw [hse,length_set]

theorem queue_setSocket (hd : d.sockets[socket]? = some data) (data' : SocketData) (k : Nat) :
    (d.setSocket socket data').queue k =
      if socket = k then data'.connectionQueue else d.queue k := by
  have hl := lt_of_getElem? hd
  by_cases he : socket = k
  · subst he
    simp [queue,setSocket,hl]
  · simp [queue,setSocket,he]
end Drivers

namespace VFS
variable {v w : VFS} {pid : Nat} {request : Call}
theorem data_withSocket (v : VFS) (drivers : Drivers) (socket f : Nat) :
    (v.withSocket drivers socket).driverData f =
      if f = v.heap.length then some (.socket socket) else v.driverData f := by
  simp only [withSocket,driverData,metadata,make,getElem?_snoc]
  split <;> rfl

/-- What an event does to sockets and queues. A connection is queued by its own process, and an
accepted socket has the queue and the buffers of a client that waited. -/
inductive SocketEvent.Shape (v : VFS) (pid : Nat) (request : Call) (w : VFS) : Prop
  | steady (hheap : w.heap = v.heap) (hclosed : w.closed = v.closed)
      (hholders : w.drivers.holders = v.drivers.holders)
      (hqueue : ∀ k c, c ∈ w.drivers.queue k → c ∈ v.drivers.queue k ∨
        ∃ procfd address data, request = .connect procfd address ∧ v.At pid procfd c data)
  | adds {drivers : Drivers} {buffers : Option Nat}
      (hw : w = v.withSocket drivers v.drivers.sockets.length)
      (hholders : drivers.holders = v.drivers.holders ++ [buffers])
      (hold : ∀ k c, k < v.drivers.sockets.length → c ∈ drivers.queue k → c ∈ v.drivers.queue k)
      (hnew : (buffers ≠ none ∧ drivers.queue v.drivers.sockets.length = []) ∨
        ∃ server client, v.Open server ∧ client ∈ v.drivers.queue server ∧
          v.drivers.holders[client]? = some buffers ∧
          ∀ c ∈ drivers.queue v.drivers.sockets.length, c ∈ v.drivers.queue client)

theorem SocketEvent.Shape.same (hhe : w.heap = v.heap) (hcl : w.closed = v.closed)
    (hh : w.drivers.holders = v.drivers.holders)
    (hqueues : w.drivers.sockets.map connectionQueue =
      v.drivers.sockets.map connectionQueue) : Shape v pid request w :=
  .steady hhe hcl hh fun k _ hc => .inl (queue_congr hqueues k ▸ hc)

theorem SocketEvent.shape (h : SocketEvent v pid request w) : Shape v pid request w := by
  cases h with
  | idle hm => exact .same rfl rfl rfl rfl
  | transfers hm =>
    have hs := (transfer_endpoints hm).sockets
    exact .same rfl rfl (by simp [holders,hs]) (by simp [hs])
  | makes =>
    refine .adds rfl (map_append) ?_ (.inl ⟨by simp,?_⟩)
    · intro k c hk hc
      simpa [queue,socket,getElem?_append_left hk] using hc
    · simp [queue,socket]
  | @binds procfd address socket data drivers hat hbi =>
    rw [Drivers.bind,ite_none_left_eq_some] at hbi
    obtain ⟨-,he⟩ := hbi
    cases he
    exact .same rfl rfl (Drivers.map_setSocket hat.data rfl) (Drivers.map_setSocket hat.data rfl)
  | listens hat hb =>
    exact .same rfl rfl (map_setSocket hat.data rfl) (map_setSocket hat.data rfl)
  | @connects procfd address socket server data serverData hat hcl hse hd =>
    refine .steady rfl rfl (map_setSocket hd rfl) ?_
    intro k c hc
    rw [queue_setSocket hd] at hc
    split at hc
    · next he =>
      rcases mem_append.mp hc with hc | hc
      · exact .inl (he ▸ queue_eq hd ▸ hc)
      · exact .inr ⟨procfd,address,data,rfl,mem_singleton.mp hc ▸ hat⟩
    · exact .inl hc
  | waits hat hq =>
    exact .same rfl rfl (map_setSocket hat.data rfl) (map_setSocket hat.data rfl)
  | @refuses procfd socket client data rest hat hq =>
    refine .steady rfl rfl (map_setSocket hat.data rfl) ?_
    intro k c hc
    left
    rw [queue_setSocket hat.data] at hc
    split at hc
    · next he =>
      rw [← he,queue_eq hat.data,hq]
      exact mem_cons_of_mem _ hc
    · exact hc
  | @accepts procfd socket client data clientData rest drivers hat hq hdr hcl =>
    have hle : drivers.sockets.length = v.drivers.sockets.length := by rw [hdr,setSocket,length_set]
    have hh : drivers.holders = v.drivers.holders := by
      rw [hdr]
      exact map_setSocket hat.data rfl
    have hsh : ∀ k c, c ∈ drivers.queue k → c ∈ v.drivers.queue k := by
      intro k c hc
      rw [hdr,queue_setSocket hat.data] at hc
      split at hc
      · next he =>
        rw [← he,queue_eq hat.data,hq]
        exact mem_cons_of_mem _ hc
      · exact hc
    have hl : ∀ k c, c ∈ (drivers.acceptSocket clientData).2.queue k →
        k < v.drivers.sockets.length → c ∈ drivers.queue k := by
      intro k c hc hk
      rw [← hle] at hk
      simpa [queue,acceptSocket,getElem?_append_left hk] using hc
    have ha : (drivers.acceptSocket clientData).2.holders = v.drivers.holders ++ [clientData.data] := by
      rw [← hh]
      exact map_append
    refine .adds (by rw [hle]) ha ?_ (.inr ⟨socket,client,hat.open,?_,?_,?_⟩)
    · intro k c hk hc
      exact hsh k c (hl k c hc hk)
    · rw [queue_eq hat.data,hq]
      exact mem_cons_self
    · rw [← hh,getElem?_holders,hcl,map_some]
    intro c hc
    rw [← hle] at hc
    refine hsh client c ?_
    rw [queue_eq hcl]
    simpa [queue,acceptSocket] using hc

theorem lt_of_data {f : Nat} {data : DriverData} (h : v.driverData f = some data) : f < v.heap.length := by
  by_contra hg
  simp [driverData,metadata,getElem?_eq_none (Nat.le_of_not_lt hg)] at h

namespace Clears
theorem files (h : Clears v w) (f socket : Nat) :
    w.driverData f = some (.socket socket) ↔ v.driverData f = some (.socket socket) := by
  induction h with
  | refl => exact Iff.rfl
  | tail hcl hst ih =>
    rcases hst with hs | ⟨g,k,hc⟩
    · exact (hs.files f socket).trans ih
    · exact (hc.files f socket).trans ih

theorem queue (h : Clears v w) (socket : Nat) : w.drivers.queue socket = v.drivers.queue socket := by
  induction h with
  | refl => rfl
  | tail hcl hst ih =>
    rcases hst with hs | ⟨g,k,hc⟩
    · rw [← ih]
      exact queue_congr (by rw [hs.sockets.sockets]) socket
    · rw [← ih]
      exact (queue_congr (by rw [hc.sockets.sockets]) socket).trans (queue_close _ k socket)

theorem owned (h : Clears v w) (hv : Owned v) : Owned w := by
  induction h with
  | refl => exact hv
  | @tail u w hcle hst ih =>
    rcases hst with hs | ⟨g,k,hc⟩
    · constructor
      · intro f socket hf
        rw [hs.sockets.sockets]
        exact ih.within f socket ((hs.files f socket).mp hf)
      · intro f g socket hf hg
        exact ih.unique f g socket ((hs.files f socket).mp hf) ((hs.files g socket).mp hg)
      intro f socket hf ho
      have hol := (hs.files f socket).mp hf
      rw [Deleted,holders,hs.sockets.sockets]
      exact ih.live f socket hol fun hcl => ho ((hs.closed f socket hol).mpr hcl)
    constructor
    · intro f socket hf
      rw [hc.sockets.sockets,length_close]
      exact ih.within f socket ((hc.files f socket).mp hf)
    · intro f g socket hf hg
      exact ih.unique f g socket ((hc.files f socket).mp hf) ((hc.files g socket).mp hg)
    intro f socket hf ho
    have hol := (hc.files f socket).mp hf
    have hn : k ≠ socket := by
      rintro rfl
      exact ho ((hc.closed f).mpr (.inr (ih.unique f g k hol hc.data)))
    have hd := deleted_close (d := u.drivers) hn
    rw [Deleted,holders,← hc.sockets.sockets] at hd
    rw [Deleted,holders,hd]
    exact ih.live f socket hol fun hcl => ho ((hc.closed f).mpr (.inl hcl))
end Clears

/-- Connections that wait for an open socket come from open sockets. -/
def QueuesOpen (v : VFS) : Prop := ∀ server client, v.Open server → client ∈ v.drivers.queue server → v.Open client

theorem Owned.open (h : Owned v) (hlive : ∀ fd f, v.files.get fd = some f → f ∉ v.closed)
    (ho : v.Open socket) : ¬v.drivers.Deleted socket := by
  obtain ⟨fd,f,hf,hd⟩ := ho
  exact h.live f socket hd (hlive fd f hf)

section
variable {v' : VFS} (hv : Owned v) (hqueues : QueuesOpen v)
include hv hqueues
theorem SocketEvent.Shape.owned (h : Shape v pid request w)
    (hlive : ∀ fd f, v.files.get fd = some f → f ∉ v.closed) : Owned w := by
  cases h with
  | steady hhe hc hh hq =>
    have hd : ∀ f, w.driverData f = v.driverData f := by
      intro f
      rw [driverData,metadata,hhe]
      rfl
    constructor
    · intro f socket hf
      rw [← length_holders,hh,length_holders]
      exact hv.within f socket (hd f ▸ hf)
    · intro f g socket hf hg
      exact hv.unique f g socket (hd f ▸ hf) (hd g ▸ hg)
    intro f socket hf ho
    rw [Deleted,hh]
    exact hv.live f socket (hd f ▸ hf) (hc ▸ ho)
  | @adds drivers buffers hw hh hol hn =>
    subst hw
    have hb : buffers ≠ none := by
      rcases hn with ⟨hb,-⟩ | ⟨server,client,hs,hcl,hco,-⟩
      · exact hb
      · rintro rfl
        exact hv.open hlive (hqueues server client hs hcl) hco
    have hl : (v.withSocket drivers v.drivers.sockets.length).drivers.sockets.length =
        v.drivers.sockets.length+1 := by
      rw [← length_holders,← length_holders]
      change drivers.holders.length = _
      rw [hh,length_append,length_singleton]
    constructor
    · intro f socket hf
      rw [hl]
      rw [data_withSocket] at hf
      split at hf
      · cases hf
        omega
      · exact Nat.lt_succ_of_lt (hv.within f socket hf)
    · intro f g socket hf hg
      rw [data_withSocket] at hf hg
      split at hf
      · next he =>
        split at hg
        · next he' => exact he.trans he'.symm
        · cases hf
          exact absurd (hv.within g _ hg) (lt_irrefl _)
      · split at hg
        · cases hg
          exact absurd (hv.within f _ hf) (lt_irrefl _)
        · exact hv.unique f g socket hf hg
    · intro f socket hf ho
      change ¬drivers.holders[socket]? = some none
      rw [hh]
      rw [data_withSocket] at hf
      split at hf
      · cases hf
        rw [← length_holders,getElem?_append_right (by omega),Nat.sub_self]
        simpa using hb
      have hlt := hv.within f socket hf
      rw [getElem?_append_left (by rwa [length_holders])]
      exact hv.live f socket hf ho

theorem SocketEvent.Shape.queuesOpen (h : Shape v pid request w) (hcl : Clears w v')
    {lost : Nat → Prop} (hr : Retains lost v v')
    (hco : ∀ procfd address, request = .connect procfd address → ∀ fd, ¬lost fd)
    (hg : ∀ fd f client, lost fd → v.files.get fd = some f →
      v.driverData f = some (.socket client) →
      (∃ server, v.Open server ∧ client ∈ v.drivers.queue server) →
        ∃ fd', ¬lost fd' ∧ v.files.get fd' = some f) : QueuesOpen v' := by
  have hd : ∀ f socket, v.driverData f = some (.socket socket) → v'.driverData f = some (.socket socket) := by
    intro f socket hf
    rw [hcl.files]
    cases h with
    | steady hhe hclo hh hqu =>
      rw [driverData,metadata,hhe]
      exact hf
    | adds hw hh ho hne =>
      rw [hw,data_withSocket,if_neg (ne_of_lt (lt_of_data hf))]
      exact hf
  have hk : ∀ client, v.Open client → ((∃ server, v.Open server ∧
      client ∈ v.drivers.queue server) ∨ ∀ fd, ¬lost fd) → v'.Open client := by
    rintro client ⟨fd,f,hfd,hf⟩ hwai
    by_cases hl : lost fd
    · rcases hwai with hwai | hn
      · obtain ⟨fd',hno,hf'⟩ := hg fd f client hl hfd hf hwai
        exact ⟨fd',f,hr.kept fd' f hf' hno,hd f client hf⟩
      · exact absurd hl (hn fd)
    · exact ⟨fd,f,hr.kept fd f hfd hl,hd f client hf⟩
  have hq : ∀ server client, v.Open server → client ∈ v.drivers.queue server →
      v'.Open client := fun server client hs hc =>
    hk client (hqueues server client hs hc) (.inl ⟨server,hs,hc⟩)
  rintro server client ⟨fd,f,hfd,hf⟩ hc
  rw [hcl.queue] at hc
  rw [hcl.files] at hf
  cases h with
  | steady hhe hclo hh hqu =>
    rw [driverData,metadata,hhe] at hf
    have hs : v.Open server := by
      rcases hr.entries fd f hfd with hne | ⟨fd',hf'⟩
      · exact absurd (lt_of_data hf) (not_lt.mpr hne)
      · exact ⟨fd',f,hf',hf⟩
    rcases hqu server client hc with hc | ⟨procfd,address,data,hre,ha⟩
    · exact hq server client hs hc
    · exact hk client ha.open (.inr (hco procfd address hre))
  | adds hw hh ho hne =>
    subst hw
    rw [data_withSocket] at hf
    split at hf
    · cases hf
      rcases hne with ⟨-,he⟩ | ⟨server,waiting,hs,hwa,-,hcop⟩
      · exact absurd (he ▸ hc) not_mem_nil
      · exact hq waiting client (hqueues server waiting hs hwa) (hcop client hc)
    have hs : v.Open server := by
      rcases hr.entries fd f hfd with hne | ⟨fd',hf'⟩
      · exact absurd (lt_of_data hf) (not_lt.mpr hne)
      · exact ⟨fd',f,hf',hf⟩
    exact hq server client hs (ho server client (hv.within f server hf) hc)
end
end VFS

namespace State
variable {s s' : State}
/-- The entries of the table of open files that a step closes. -/
def Loses (s : State) (call : Call) (fd : Nat) : Prop := ∃ p, s.caller = some p ∧ match call with
    | .file request => request.Loses s.vfs p.processID fd
    | .exit _ _ => ∃ procfd, s.vfs.procfdToFd p.processID procfd = some fd
    | _ => False

section
variable {guard : State → Call → State → Prop} (h : Reachable Started step guard s)
include h
theorem unbooted (hb : s.booted = false) : ∃ mounts, s.vfs = .initial mounts := by
  induction h with
  | start h =>
    obtain ⟨mounts,rfl⟩ := h
    exact ⟨mounts,rfl⟩
  | @next s s' call hr hs hg ih =>
    have hc : ∀ p, s.caller = some p → s.booted ≠ false := by
      intro p hp
      simp [(sound_of_run hr).booted hp]
    have hf := step_files hs
    generalize s'.vfs = v, s'.booted = booted at hf hb ⊢
    cases hf with
    | opened => cases hb
    | created => cases hb
    | kept => exact ih hb
    | file hp | stuck hp | replaced hp | forked hp | exited hp => exact absurd hb (hc _ hp)

theorem step_retains {call : Call} (hst : s.step call = some s') : Retains (s.Loses call) s.vfs s'.vfs := by
  have hs := sound_of_run h
  have hfi := step_files hst
  have hi : s.booted = false → Retains (s.Loses call) s.vfs s'.vfs := by
    intro hb
    obtain ⟨mounts,hi⟩ := unbooted h hb
    rw [hi]
    exact ⟨nofun,fun fd f hf => .inl (Nat.zero_le f)⟩
  generalize s'.vfs = v, s'.booted = booted at hfi hi ⊢
  cases hfi with
  | opened hb | created procfd hb => exact hi hb
  | @file request p hp =>
    have hc := retains_call (live_of_run h) hs.consistent p.processID request
    exact ⟨fun fd f hf hk => hc.kept fd f hf fun hl => hk ⟨p,hp,hl⟩,hc.entries⟩
  | @stuck path loaded p hp => exact retains_open _ s.vfs p.processID path
  | replaced hp ho => exact (retains_openClose _ ho).same rfl
  | @forked p hp =>
    have ht : RetainsHeld (s.Loses (.fork true)) s.vfs
        (s.vfs.addTable (s.scheduler.thePid+1)) [] :=
      ⟨(Retains.refl _ s.vfs).same rfl,le_refl _,by simp⟩
    exact ((retains_tracks _ s.vfs).copyDescriptors _ [] p.processID _ ht).retains
  | @exited status next p hp =>
    have hd := retains_destroy hs.consistent p.processID
    exact ⟨fun fd f hf hk => hd.kept fd f hf fun hl => hk ⟨p,hp,hl⟩,
      hd.entries⟩
  | kept hc => exact .refl _ _

/-- A step that closes a descriptor of a socket whose connection waits for an open socket leaves
another one open. -/
def KeepsWaiting (s : State) (call : Call) (_ : State) : Prop :=
  ∀ fd f client, s.Loses call fd → s.vfs.files.get fd = some f →
    s.vfs.driverData f = some (.socket client) →
    (∃ server, s.vfs.Open server ∧ client ∈ s.vfs.drivers.queue server) →
      ∃ fd', ¬s.Loses call fd' ∧ s.vfs.files.get fd' = some f

theorem closed_of_run (fd f : Nat) (hf : s.vfs.files.get fd = some f) : f ∉ s.vfs.closed := by
  obtain ⟨held,hb⟩ := balanced_of_run h
  rw [hb.closed]
  rintro ⟨-,hn⟩
  exact absurd (hb.refCount_pos hf) (by omega)
end

/-- While no socket is closed for good whose connection waits, every connection that waits for a
socket some process has open comes from a socket that was not deleted. -/
theorem connections_live (h : Reachable Started step KeepsWaiting s) {pid procfd socket : Nat}
    {data : SocketData} (hat : s.vfs.At pid procfd socket data) :
    ∀ client ∈ data.connectionQueue, ¬s.vfs.drivers.Deleted client := by
  have hi : s.vfs.Owned ∧ s.vfs.QueuesOpen := by
    clear hat
    induction h with
    | start h =>
      obtain ⟨mounts,rfl⟩ := h
      refine ⟨⟨?_,?_,?_⟩,?_⟩
      · intro f socket hf
        cases hf
      · intro f g socket hf
        cases hf
      · intro f socket hf
        cases hf
      · rintro server client ⟨fd,f,hfd,-⟩
        cases hfd
    | @next s s' call hre hst hg ih =>
      obtain ⟨ho,hqueues⟩ := ih
      have hr := step_retains hre hst
      have hlive := closed_of_run hre
      cases step_sockets (sound_of_run hre) (live_of_run hre) hst with
      | clears hca hc =>
        have hs : SocketEvent.Shape s.vfs 0 .pipe s.vfs := .same rfl rfl rfl rfl
        refine ⟨hc.owned ho,hs.queuesOpen ho hqueues hc hr ?_ hg⟩
        intro procfd address he
        cases he
      | @call p request w hp hca hev hc =>
        have hs := hev.shape
        refine ⟨hc.owned (hs.owned ho hqueues hlive),
          hs.queuesOpen ho hqueues hc hr ?_ hg⟩
        rintro procfd address rfl fd ⟨p',-,hl⟩
        rw [hca] at hl
        exact hl
  intro client hcl
  rw [← queue_eq hat.data] at hcl
  exact hi.1.open (closed_of_run h) (hi.2 socket client hat.open hcl)

theorem at_of_found {pid procfd client : Nat}
    (hfi : (s.vfs.file pid procfd).bind s.vfs.driverData = some (.socket socket))
    (hq : s.vfs.drivers.queue socket = [client]) :
    ∃ data, s.vfs.At pid procfd socket data ∧ data.connectionQueue = [client] := by
  obtain ⟨f,hf,hd⟩ := bind_eq_some_iff.mp hfi
  cases hs : s.vfs.drivers.sockets[socket]? with
  | none => simp [queue,hs] at hq
  | some data => exact ⟨data,⟨⟨f,hf,hd⟩,hs⟩,queue_eq hs ▸ hq⟩

/-- A process connects a socket to another of its sockets. -/
theorem connections_live_one : ∃ s data, Reachable Started step KeepsWaiting s ∧
    s.vfs.At 1 3 0 data ∧ data.connectionQueue = [1] ∧ ¬s.vfs.drivers.Deleted 1 := by
  obtain ⟨s,hr,hf,hq⟩ : ∃ s, Reachable Started step KeepsWaiting s ∧
      (s.vfs.file 1 3).bind s.vfs.driverData = some (.socket 0) ∧ s.vfs.drivers.queue 0 = [1] := by
    refine Reachable.exists_checked ⟨oneFile,rfl⟩
      (fun _ call =>
        match call with
        | .file (.close _) => false
        | .file (.repfd _ _) => false
        | .exit _ _ => false
        | _ => true) ?_
      [.create ['/','a'] true,.timer 0,.file (.socket 0),
        .file (.bind 3 (.lensor16 (.replicate 16 1))),.file (.socket 0),
        .file (.connect 4 (.lensor16 (.replicate 16 1)))] (by decide +kernel)
    rintro s call s' ht fd f client ⟨p,-,hl⟩
    cases call with
    | file request =>
      cases request with
      | close procfd => cases ht
      | repfd procfd replaced => cases ht
      | _ => cases hl
    | exit status next => cases ht
    | _ => cases hl
  obtain ⟨data,ha,hw⟩ := at_of_found hf hq
  exact ⟨s,data,hr,ha,hw,connections_live hr ha 1 (by simp [hw])⟩

/-- The client closes its socket before the connection is accepted. Its data is deleted, and the
next accept takes it from the queue. -/
theorem closed_client_waits : ∃ s data, Reachable Started step anyStep s ∧
    s.vfs.At 1 3 0 data ∧ data.connectionQueue = [1] ∧ s.vfs.drivers.Deleted 1 := by
  obtain ⟨s,hr,hf,hq,hd⟩ : ∃ s, Reachable Started step anyStep s ∧
      (s.vfs.file 1 3).bind s.vfs.driverData = some (.socket 0) ∧
        s.vfs.drivers.queue 0 = [1] ∧ s.vfs.drivers.Deleted 1 := Reachable.exists_run ⟨oneFile,rfl⟩
      [.create ['/','a'] true,.timer 0,.file (.socket 0),
        .file (.bind 3 (.lensor16 (.replicate 16 1))),.file (.socket 0),
        .file (.connect 4 (.lensor16 (.replicate 16 1))),.file (.close 4)] (by decide +kernel)
  obtain ⟨data,ha,hw⟩ := at_of_found hf hq
  exact ⟨s,data,hr,ha,hw,hd⟩
end State
end LensorOS.Kernel
