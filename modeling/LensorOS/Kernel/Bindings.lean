import LensorOS.Kernel.SocketCalls

/-!
# Bound addresses

The last socket that drops its buffers takes the binding of its address away. A socket that is bound
twice, or closed while an accepted connection shares its buffers, leaves a binding behind.
-/
namespace LensorOS.Kernel
open Framework Storage Scheduler List Option Drivers Shared
namespace Drivers
variable {d d' : Drivers} {socket client : Nat} {data : SocketData} {address : SocketAddress}
def holders (d : Drivers) : List (Option Nat) := d.sockets.map SocketData.data
def refCounts (d : Drivers) : List Nat := d.socketBuffers.map SocketBuffers.refCount

/-- The data of a socket was deleted. It drops its buffers right before that, and only then. -/
def Deleted (d : Drivers) (socket : Nat) : Prop := d.holders[socket]? = some none

instance (d : Drivers) (socket : Nat) : Decidable (d.Deleted socket) :=
  inferInstanceAs (Decidable (d.holders[socket]? = some none))

def Carries (d : Drivers) (socket : Nat) (address : SocketAddress) : Prop :=
  ∃ data, d.sockets[socket]? = some data ∧ data.address = address

/-- No address is bound twice, and bindings denote open sockets that carry the address. -/
structure BindingsLive (d : Drivers) : Prop where
  distinct : (d.bindings.map Prod.fst).Nodup
  live : ∀ address socket, (address,socket) ∈ d.bindings →
    ¬d.Deleted socket ∧ d.Carries socket address
  found : ∀ address socket, d.getBoundSocket address = some socket →
    ¬d.Deleted socket ∧ d.Carries socket address

def Counted (d : Drivers) : Prop := Shared d.holders d.refCounts

def Deletes (d : Drivers) (socket b : Nat) : Prop := d.holders[socket]? = some (some b) ∧
  ∃ buffers, d.socketBuffers[b]? = some buffers ∧ buffers.refCount-1 = 0

/-- Buffers count the sockets that have them, and the close that leaves none deletes them. -/
structure BuffersCounted (d : Drivers) : Prop where
  counted : ∀ b buffers, d.socketBuffers[b]? = some buffers →
    buffers.refCount = d.holders.count (some b)
  deletes : ∀ socket b, d.Deletes socket b ↔ d.holders[socket]? = some (some b) ∧
    (d.closeSocket socket).holders.count (some b) = 0

def Alone (d : Drivers) (socket : Nat) : Prop := ∃ b, d.holders[socket]? = some (some b) ∧ d.holders.count (some b) = 1

/-- Buffers count their sockets, and a bound socket has buffers of its own. -/
structure Bound (d : Drivers) : Prop where
  shared : Shared d.holders d.refCounts
  distinct : (d.bindings.map Prod.fst).Nodup
  alone : ∀ address socket, (address,socket) ∈ d.bindings →
    address ≠ .unbound ∧ d.Carries socket address ∧ d.Alone socket

theorem getElem?_holders (d : Drivers) (socket : Nat) :
    d.holders[socket]? = d.sockets[socket]?.map SocketData.data := getElem?_map

theorem holds_of_open (hd : d.sockets[socket]? = some data) (ho : ¬d.Deleted socket) :
    ∃ b, data.data = some b ∧ d.holders[socket]? = some (some b) := by
  have hh : d.holders[socket]? = some data.data := by rw [getElem?_holders,hd,map_some]
  cases hb : data.data with
  | none => exact absurd (hh.trans (congrArg some hb)) ho
  | some b => exact ⟨b,rfl,hh.trans (congrArg some hb)⟩

theorem Alone.open (h : d.Alone socket) : ¬d.Deleted socket := by
  obtain ⟨b,hb,-⟩ := h
  intro hd
  rw [Deleted,hb] at hd
  cases hd

theorem Bound.counted (h : d.Bound) : d.Counted := h.shared

theorem Bound.live (h : d.Bound) : d.BindingsLive where
  distinct := h.distinct
  live := by
    intro address socket hm
    obtain ⟨-,hc,ha⟩ := h.alone address socket hm
    exact ⟨ha.open,hc⟩
  found := by
    intro address socket hf
    obtain ⟨binding,hfi,rfl⟩ := map_eq_some_iff.mp hf
    have had : binding.1 = address := by simpa using find?_some hfi
    obtain ⟨-,hc,ha⟩ := h.alone binding.1 binding.2 (mem_of_find?_eq_some hfi)
    exact ⟨ha.open,had ▸ hc⟩

structure SameHolders (d d' : Drivers) : Prop where
  addresses : d'.sockets.map SocketData.address = d.sockets.map SocketData.address
  holders : d'.holders = d.holders
  socketBuffers : d'.socketBuffers = d.socketBuffers
  bindings : d'.bindings = d.bindings

theorem SameEndpoints.sameHolders (h : SameEndpoints d d') : SameHolders d d' :=
  ⟨by rw [h.sockets],by rw [holders,h.sockets]; rfl,h.socketBuffers,h.bindings⟩

theorem carries_iff : d.Carries socket address ↔ (d.sockets.map SocketData.address)[socket]? = some address := by
  rw [getElem?_map]
  exact map_eq_some_iff.symm

theorem SameHolders.carries (h : SameHolders d d') : d'.Carries socket address ↔ d.Carries socket address := by
  rw [carries_iff,carries_iff,h.addresses]

theorem holders_setSocket (hd : d.sockets[socket]? = some data) {data' : SocketData}
    (ha : data'.address = data.address) (hb : data'.data = data.data) :
    SameHolders d (d.setSocket socket data') :=
  ⟨map_setSocket hd ha,map_setSocket hd hb,rfl,rfl⟩

namespace Counted
theorem same (h : d.Counted) (hs : SameHolders d d') : d'.Counted := by
  rw [Counted,hs.holders,refCounts,hs.socketBuffers]
  exact h

variable (h : d.Counted) {b : Nat}
include h
theorem buffers (hb : d.holders[socket]? = some (some b)) :
    ∃ buffers, d.socketBuffers[b]? = some buffers ∧
      buffers.refCount = d.holders.count (some b) := by
  have hl : b < d.socketBuffers.length := by simpa [refCounts] using h.within b (mem_of_getElem? hb)
  refine ⟨_,getElem?_eq_getElem hl,h.counted b _ ?_⟩
  rw [refCounts,getElem?_map,getElem?_eq_getElem hl]
  rfl

theorem close_cases (socket : Nat) :
    (d.closeSocket socket = d ∧ ∀ b, d.holders[socket]? ≠ some (some b)) ∨
    ∃ data b, d.sockets[socket]? = some data ∧ d.holders[socket]? = some (some b) ∧
      (d.closeSocket socket).sockets = d.sockets.set socket { data with data := none } ∧
      (d.closeSocket socket).holders = d.holders.set socket none ∧
      (d.closeSocket socket).refCounts = d.refCounts.modify b (· - 1) ∧
      (d.closeSocket socket).bindings =
        if d.holders.count (some b) = 1 ∧ data.address ≠ .unbound then
          d.bindings.filter fun binding => binding.1 ≠ data.address else d.bindings := by
  cases hd : d.sockets[socket]? with
  | none =>
    left
    simp [closeSocket,getElem?_holders,hd]
  | some data =>
    cases hb : data.data with
    | none =>
      left
      simp [closeSocket,getElem?_holders,hd,hb]
    | some b =>
      right
      have hh : d.holders[socket]? = some (some b) := by rw [getElem?_holders,hd,map_some,hb]
      obtain ⟨buffers,hbu,hc⟩ := h.buffers hh
      have hp := count_pos_iff.mpr (mem_of_getElem? hh)
      have hz : buffers.refCount-1 = 0 ↔ d.holders.count (some b) = 1 := by omega
      have hm : (d.socketBuffers.set b { buffers with
          refCount := buffers.refCount-1 }).map SocketBuffers.refCount =
            d.refCounts.modify b (· - 1) := by
        apply ext_getElem?
        intro i
        by_cases he : b = i
        · subst he
          have hl := lt_of_getElem? hbu
          rw [getElem?_map,getElem?_set_self hl,refCounts,getElem?_modify,getElem?_map,hbu]
          simp
        · simp [refCounts,he]
      have hs : (d.closeSocket socket).sockets = d.sockets.set socket { data with data := none } := by
        simp only [closeSocket,hd,hb,hbu]
        split <;> rfl
      refine ⟨data,b,rfl,hh,hs,?_,?_,?_⟩
      · rw [holders,hs,map_set]
        rfl
      · simp only [closeSocket,hd,hb,hbu]
        split <;> exact hm
      · simp only [closeSocket,hd,hb,hbu,hz]
        split <;> rfl

theorem closeSocket (socket : Nat) : (d.closeSocket socket).Counted := by
  rcases h.close_cases socket with ⟨hs,-⟩ | ⟨data,b,-,hb,-,hh,hc,-⟩
  · exact hs.symm ▸ h
  rw [Counted,hh,hc]
  exact drop h hb

theorem count_close (hb : d.holders[socket]? = some (some b)) :
    (d.closeSocket socket).holders.count (some b)+1 = d.holders.count (some b) := by
  rcases h.close_cases socket with ⟨-,hn⟩ | ⟨-,-,-,-,-,hh,-⟩
  · exact absurd hb (hn b)
  rw [hh]
  simpa using count_set hb none b

theorem newSocket (pid : Nat) : (d.socket pid).2.Counted := by
  have hh : (d.socket pid).2.holders = d.holders ++ [some d.refCounts.length] := by
    simp [socket,holders,refCounts]
  have hc : (d.socket pid).2.refCounts = d.refCounts ++ [1] := by simp [socket,refCounts]
  rw [Counted,hh,hc]
  exact create h

theorem acceptSocket (hd : d.sockets[client]? = some data)
    (ho : ¬d.Deleted client) : (d.acceptSocket data).2.Counted := by
  obtain ⟨b,hb,hho⟩ := holds_of_open hd ho
  have hh : (d.acceptSocket data).2.holders = d.holders ++ [some b] := by
    simp [Drivers.acceptSocket,holders,hb]
  have hc : (d.acceptSocket data).2.refCounts = d.refCounts.modify b (· + 1) := by
    apply ext_getElem?
    intro i
    by_cases he : b = i
    · simp [Drivers.acceptSocket,refCounts,hb,he,Function.comp_def]
    · simp [Drivers.acceptSocket,refCounts,hb,he]
  rw [Counted,hh,hc]
  exact share h (mem_of_getElem? hho)

theorem bind (hd : d.sockets[socket]? = some data) (hb : d.bind socket data address = some d') : d'.Counted := by
  rw [Drivers.bind,ite_none_left_eq_some] at hb
  cases hb.2
  have hh : (d.setSocket socket { data with address := address }).holders = d.holders := map_setSocket hd rfl
  change Shared (d.setSocket socket _).holders d.refCounts
  rw [hh]
  exact h

theorem buffersCounted : d.BuffersCounted where
  counted := by
    intro b buffers hb
    refine h.counted b _ ?_
    rw [refCounts,getElem?_map,hb]
    rfl
  deletes := by
    intro socket b
    refine and_congr_right fun hh => ?_
    obtain ⟨buffers,hb,hco⟩ := h.buffers hh
    have hc := h.count_close hh
    simp only [hb,some.injEq,exists_eq_left']
    omega
end Counted

namespace Bound
theorem same (h : d.Bound) (hs : SameHolders d d') : d'.Bound where
  shared := h.counted.same hs
  distinct := hs.bindings ▸ h.distinct
  alone := by
    intro address socket hm
    rw [hs.bindings] at hm
    obtain ⟨hn,hc,ha⟩ := h.alone address socket hm
    refine ⟨hn,hs.carries.mpr hc,?_⟩
    rw [Alone,hs.holders]
    exact ha

theorem initial : initial.Bound where
  shared := .nil
  distinct := nodup_nil
  alone := by
    intro address socket hm
    cases hm

variable (h : d.Bound)
include h
theorem closeSocket (socket : Nat) : (d.closeSocket socket).Bound := by
  rcases h.counted.close_cases socket with ⟨hsa,-⟩ | ⟨data,b,hd,hh,hs,hho,hc,hb⟩
  · exact hsa.symm ▸ h
  have hk : ∀ binding ∈ (d.closeSocket socket).bindings, binding ∈ d.bindings := by
    intro binding hm
    rw [hb] at hm
    split at hm
    · exact (mem_filter.mp hm).1
    · exact hm
  constructor
  · exact h.counted.closeSocket socket
  · rw [hb]
    split
    · exact h.distinct.sublist (filter_sublist.map _)
    · exact h.distinct
  intro address k hm
  obtain ⟨hn,hca,b',hb',hon⟩ := h.alone address k (hk _ hm)
  -- A bound socket that is closed was alone, and its binding is gone.
  have ho : socket ≠ k := by
    rintro rfl
    obtain rfl : b' = b := by simpa using hb'.symm.trans hh
    obtain ⟨data',hd',ha⟩ := hca
    obtain rfl : data' = data := by simpa using hd'.symm.trans hd
    rw [hb,if_pos ⟨hon,ha ▸ hn⟩,ha] at hm
    simpa using (mem_filter.mp hm).2
  have hbu : b' ≠ b := by
    rintro rfl
    exact ho (sole hon hh hb')
  refine ⟨hn,?_,b',?_,?_⟩
  · obtain ⟨data',hd',ha⟩ := hca
    exact ⟨data',by rw [hs,getElem?_set_ne ho,hd'],ha⟩
  · rw [hho,getElem?_set_ne ho,hb']
  · rw [hho,count_drop_other hh hbu,hon]

theorem append (hbi : d'.bindings = d.bindings)
    (hs : d'.sockets = d.sockets ++ [data]) (hsh : Shared d'.holders d'.refCounts)
    (hbu : ∀ address k b, (address,k) ∈ d.bindings → d.holders[k]? = some (some b) →
      data.data ≠ some b) : d'.Bound where
  shared := hsh
  distinct := hbi ▸ h.distinct
  alone := by
    intro address k hm
    rw [hbi] at hm
    obtain ⟨hn,⟨data',hd',ha⟩,b,hb,ho⟩ := h.alone address k hm
    have hl := lt_of_getElem? hd'
    have hh : d'.holders = d.holders ++ [data.data] := by
      rw [holders,hs,map_append]
      rfl
    have hf : ¬(data.data == some b) = true := by simpa using hbu address k b hm hb
    refine ⟨hn,⟨data',?_,ha⟩,b,?_,?_⟩
    · rw [hs,getElem?_append_left hl,hd']
    · rw [hh,getElem?_append_left (by simpa [holders] using hl),hb]
    · rw [hh,count_append,ho,count_singleton,if_neg hf]

theorem newSocket (pid : Nat) : (d.socket pid).2.Bound := by
  refine h.append rfl rfl (h.counted.newSocket pid) ?_
  intro address k b hm hb
  have hl : b < d.socketBuffers.length := by simpa [refCounts] using h.shared.within b (mem_of_getElem? hb)
  simpa using ne_of_gt hl

theorem acceptSocket (hd : d.sockets[client]? = some data)
    (ho : ¬d.Deleted client) (hu : ∀ address, (address,client) ∉ d.bindings) :
    (d.acceptSocket data).2.Bound := by
  obtain ⟨b,hb,hh⟩ := holds_of_open hd ho
  refine h.append (show (d.acceptSocket data).2.bindings = d.bindings from rfl) rfl
    (h.counted.acceptSocket hd ho) ?_
  intro address k b' hm hb' he
  obtain ⟨-,-,b'',hb'',hon⟩ := h.alone address k hm
  obtain rfl : b'' = b' := by simpa using hb''.symm.trans hb'
  obtain rfl : b'' = b := by simpa [hb] using he.symm
  rw [sole hon hh hb'] at hu
  exact hu address hm

theorem bind (hd : d.sockets[socket]? = some data) (hn : address ≠ .unbound)
    (hal : d.Alone socket) (hu : ∀ address, (address,socket) ∉ d.bindings)
    (hbi : d.bind socket data address = some d') : d'.Bound := by
  have hs := h.counted.bind hd hbi
  rw [Drivers.bind,ite_none_left_eq_some] at hbi
  obtain ⟨hf,hd'⟩ := hbi
  cases hd'
  have hl := lt_of_getElem? hd
  have hh : (d.setSocket socket { data with address := address }).holders = d.holders := map_setSocket hd rfl
  constructor
  · exact hs
  · rw [map_append,nodup_append]
    refine ⟨h.distinct,nodup_singleton _,?_⟩
    rintro a ha b hb rfl
    obtain ⟨binding,hm,rfl⟩ := mem_map.mp ha
    apply hf
    rw [List.any_eq_true]
    exact ⟨binding,hm,by simpa using hb⟩
  intro a k hm
  rw [Alone,Carries]
  rcases mem_append.mp hm with hm | hm
  · obtain ⟨hn',hc,ha'⟩ := h.alone a k hm
    have ho : socket ≠ k := by
      rintro rfl
      exact hu a hm
    obtain ⟨data',hda',had⟩ := hc
    refine ⟨hn',⟨data',?_,had⟩,?_⟩
    · change (d.sockets.set socket _)[k]? = some data'
      rw [getElem?_set_ne ho,hda']
    · exact hh.symm ▸ ha'
  · obtain ⟨rfl,rfl⟩ := Prod.mk.inj (mem_singleton.mp hm)
    refine ⟨hn,⟨_,getElem?_set_self hl,rfl⟩,?_⟩
    exact hh.symm ▸ hal

theorem alone_of_refCount {role : Syscalls.SocketRole} {buffers : SocketBuffers}
    (hbu : d.buffersOf socket = some (role,buffers)) (ho : buffers.refCount = 1) :
    d.Alone socket := by
  obtain ⟨data,hd,hr⟩ := bind_eq_some_iff.mp hbu
  obtain ⟨b,hb,hr⟩ := bind_eq_some_iff.mp hr
  obtain ⟨buffers',hb',he⟩ := map_eq_some_iff.mp hr
  cases he
  have hh : d.holders[socket]? = some (some b) := by rw [getElem?_holders,hd,map_some,hb]
  obtain ⟨buffers',hg,hc⟩ := h.counted.buffers hh
  obtain rfl : buffers' = buffers := by simpa using hg.symm.trans hb'
  exact ⟨b,hh,by omega⟩
end Bound

structure Kept (I : Drivers → Prop) : Prop where
  initial : I .initial
  same : ∀ {d d'}, I d → SameHolders d d' → I d'
  closeSocket : ∀ {d}, I d → ∀ socket, I (d.closeSocket socket)
  newSocket : ∀ {d}, I d → ∀ pid, I (d.socket pid).2

theorem Kept.bound : Kept Bound := ⟨.initial,.same,.closeSocket,.newSocket⟩
theorem Kept.counted : Kept Counted := ⟨.nil,.same,.closeSocket,.newSocket⟩
end Drivers

namespace VFS
variable {v w : VFS} {pid : Nat} {request : Call}
section
variable {I : Drivers → Prop} (hI : Kept I)
include hI
theorem Clears.kept (h : Clears v w) (hv : I v.drivers) : I w.drivers := by
  induction h with
  | refl => exact hv
  | tail hcl hst ih =>
    rcases hst with hs | ⟨f,socket,hc⟩
    · exact hI.same ih hs.sockets.endpoints.sameHolders
    · exact hI.same (hI.closeSocket ih socket) hc.sockets.endpoints.sameHolders

theorem SocketEvent.kept (h : SocketEvent v pid request w) (hv : I v.drivers)
    (hb : ∀ {procfd address socket data d}, request = .bind procfd address →
      v.At pid procfd socket data → v.drivers.bind socket data address = some d → I d)
    (ha : ∀ {procfd socket client data clientData rest} {d : Drivers},
      request = .accept procfd → v.At pid procfd socket data →
      data.connectionQueue = client :: rest → v.drivers.SameHolders d →
      d.sockets[client]? = some clientData → I (d.acceptSocket clientData).2) : I w.drivers := by
  cases h with
  | idle hm => exact hv
  | transfers hm => exact hI.same hv (transfer_endpoints hm).sameHolders
  | makes => exact hI.newSocket hv pid
  | binds hat hbi => exact hb rfl hat hbi
  | listens hat hbo => exact hI.same hv (holders_setSocket hat.data rfl rfl)
  | connects hat hc hs hd =>
    exact hI.same hv (holders_setSocket hd rfl rfl)
  | waits hat hq
  | refuses hat hq => exact hI.same hv (holders_setSocket hat.data rfl rfl)
  | accepts hat hq hdr hc =>
    exact ha rfl hat hq (hdr ▸ holders_setSocket hat.data rfl rfl) hc
end

/-- A call binds only a socket that is not bound and has its buffers for itself, to an address,
and accepts only connections of open sockets that are not bound. -/
structure BindsOnce (v : VFS) (pid : Nat) (request : Call) : Prop where
  bind : ∀ procfd address socket data, request = .bind procfd address →
    v.At pid procfd socket data → address ≠ .unbound ∧
      (∀ other, (other,socket) ∉ v.drivers.bindings) ∧
      ∃ role buffers, v.drivers.buffersOf socket = some (role,buffers) ∧ buffers.refCount = 1
  accept : ∀ procfd socket data client rest, request = .accept procfd →
    v.At pid procfd socket data → data.connectionQueue = client :: rest →
      ¬v.drivers.Deleted client ∧ ∀ address, (address,client) ∉ v.drivers.bindings

theorem SocketEvent.bound (h : SocketEvent v pid request w) (hv : v.drivers.Bound)
    (hg : BindsOnce v pid request) : w.drivers.Bound := by
  refine h.kept .bound hv ?_ ?_
  · intro procfd address socket data d hr ha hb
    obtain ⟨hn,hu,role,buffers,hbu,hon⟩ := hg.bind _ _ _ _ hr ha
    exact hv.bind ha.data hn (hv.alone_of_refCount hbu hon) hu hb
  intro procfd socket client data clientData rest d hr ha hq hs hc
  obtain ⟨ho,hu⟩ := hg.accept _ _ _ _ _ hr ha hq
  refine (hv.same hs).acceptSocket hc ?_ ?_
  · rw [Deleted,hs.holders]
    exact ho
  · rw [hs.bindings]
    exact hu
end VFS

namespace State
variable {s : State}
def BindsOnce (s : State) (call : Call) (_ : State) : Prop :=
  ∀ p request, s.caller = some p → call = .file request → s.vfs.BindsOnce p.processID request

theorem kept_of_run {I : Drivers → Prop} (hI : Kept I)
    {guard : State → Call → State → Prop}
    (he : ∀ {s s' p request w}, guard s (.file request) s' → s.caller = some p →
      VFS.SocketEvent s.vfs p.processID request w → I s.vfs.drivers → I w.drivers)
    (h : Reachable Started step guard s) : I s.vfs.drivers := by
  induction h with
  | start h =>
    obtain ⟨mounts,rfl⟩ := h
    exact hI.initial
  | next hr hst hg ih =>
    cases step_sockets (sound_of_run hr) (live_of_run hr) hst with
    | clears hca hc => exact hc.kept hI ih
    | call hp hca hs hc =>
      exact hc.kept hI (he (hca ▸ hg) hp hs ih)

/-- While sockets are bound once, and connections are accepted from sockets that are not bound,
every binding denotes an open socket that carries its address. -/
theorem bindings_live (h : Reachable Started step BindsOnce s) : s.vfs.drivers.BindingsLive := by
  refine (kept_of_run .bound ?_ h).live
  intro s s' p request w hg hp hso hs
  exact hso.bound hs (hg _ _ hp rfl)

theorem bindings_live_one : ∃ s, Reachable Started step BindsOnce s ∧
    s.vfs.drivers.bindings = [(.lensor16 (.replicate 16 1), 0)] ∧
      s.vfs.drivers.BindingsLive := by
  obtain ⟨s,hr,hb⟩ : ∃ s, Reachable Started step BindsOnce s ∧
      s.vfs.drivers.bindings = [(.lensor16 (.replicate 16 1), 0)] := by
    refine Reachable.exists_checked ⟨oneFile,rfl⟩
      (fun s call =>
        match call with
        | .file (.bind _ address) => decide (address ≠ .unbound ∧ s.vfs.drivers.bindings = []) &&
          (range s.vfs.drivers.sockets.length).all fun socket =>
            (s.vfs.drivers.buffersOf socket).any fun buffers => buffers.2.refCount = 1
        | .file (.accept _) => false
        | _ => true) ?_
      [.create ['/','a'] true,.timer 0,.file (.socket 0),
        .file (.bind 3 (.lensor16 (.replicate 16 1)))] (by decide +kernel)
    rintro s call s' ht p request hp rfl
    constructor
    · rintro procfd address socket data rfl hat
      obtain ⟨ha,hal⟩ := Bool.and_eq_true_iff.mp ht
      obtain ⟨hne,hn⟩ := of_decide_eq_true ha
      have hl := lt_of_getElem? hat.data
      obtain ⟨buffers,hbu,ho⟩ := (any_eq_true _ _).mp (all_eq_true.mp hal socket (mem_range.mpr hl))
      refine ⟨hne,?_,buffers.1,buffers.2,hbu,of_decide_eq_true ho⟩
      intro other hm
      rw [hn] at hm
      cases hm
    · rintro procfd socket data client rest rfl
      cases ht
  exact ⟨s,hr,hb,bindings_live hr⟩

/-- A process binds its socket to two addresses and closes it. The first address still denotes
the socket, whose data was deleted. -/
theorem bound_twice_stale : ∃ s, Reachable Started step anyStep s ∧
    s.vfs.drivers.getBoundSocket (.lensor16 (.replicate 16 1)) = some 0 ∧
      s.vfs.drivers.Deleted 0 := Reachable.exists_run ⟨oneFile,rfl⟩
    [.create ['/','a'] true,.timer 0,.file (.socket 0),
      .file (.bind 3 (.lensor16 (.replicate 16 1))),
      .file (.bind 3 (.lensor16 (.replicate 16 2))),.file (.close 3)] (by decide +kernel)

def AcceptsOpen (s : State) (call : Call) (_ : State) : Prop :=
  ∀ p procfd socket data client rest, s.caller = some p → call = .file (.accept procfd) →
    s.vfs.At p.processID procfd socket data → data.connectionQueue = client :: rest →
      ¬s.vfs.drivers.Deleted client

theorem buffers_counted (h : Reachable Started step AcceptsOpen s) : s.vfs.drivers.BuffersCounted := by
  refine (kept_of_run .counted ?_ h).buffersCounted
  intro s s' p request w hg hp hso hs
  refine hso.kept .counted hs (fun _ ha => hs.bind ha.data) ?_
  rintro procfd socket client data clientData rest d rfl ha hq hsa hc
  refine (hs.same hsa).acceptSocket hc ?_
  rw [Deleted,hsa.holders]
  exact hg _ _ _ _ _ _ hp rfl ha hq

/-- A process connects to itself; the two ends have one pair of buffers. -/
theorem buffers_counted_one : ∃ s, Reachable Started step AcceptsOpen s ∧
    s.vfs.drivers.holders = [some 0,some 1,some 1] ∧ s.vfs.drivers.BuffersCounted := by
  obtain ⟨s,hr,hh⟩ : ∃ s, Reachable Started step AcceptsOpen s ∧
      s.vfs.drivers.holders = [some 0,some 1,some 1] := by
    refine Reachable.exists_checked ⟨oneFile,rfl⟩ (fun s _ => s.vfs.drivers.sockets.all fun data =>
      data.connectionQueue.all fun client => !decide (s.vfs.drivers.Deleted client)) ?_
      [.create ['/','a'] true,.timer 0,.file (.socket 0),.file (.bind 3 (.lensor16 (.replicate 16 1))),
        .file (.socket 0),.file (.connect 4 (.lensor16 (.replicate 16 1))),.file (.accept 3)]
      (by decide +kernel)
    rintro s call s' ht p procfd socket data client rest hp rfl hat hq
    have hc := all_eq_true.mp (all_eq_true.mp ht data (mem_of_getElem? hat.data)) client (by simp [hq])
    simpa using hc
  exact ⟨s,hr,hh,buffers_counted hr⟩
end State
end LensorOS.Kernel
