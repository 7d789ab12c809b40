import LensorOS.Framework.Channel
import LensorOS.Kernel.SocketCalls
import LensorOS.Storage.PipeHistory

/-!
# Connected sockets

The two sockets of a connection share a pair of FIFOs. Each side reads from the one that the other
side writes to.
-/
namespace LensorOS.Kernel
open Framework Storage Scheduler Syscalls List Option Drivers
section
variable {b : FIFOBuffer}
variable (hlevel : b.stream.offset ≤ b.size)
include hlevel
theorem fifo_read (hs : b.size < 2^63)
    (pid byteCount : Nat) : (b.read pid byteCount).buffer.size = b.size ∧
      (b.read pid byteCount).buffer.stream.offset ≤ b.size ∧
      (b.read pid byteCount).result.moved ++ (b.read pid byteCount).buffer.stream.contents =
        b.stream.contents := by
  by_cases he : b.stream.offset = 0
  · simp [FIFOBuffer.read,he,Transfer.moved]
  simp only [FIFOBuffer.read,he,if_false,Transfer.moved,truncated_eq_min]
  exact ⟨trivial,(Nat.sub_le _ _).trans hlevel,Stream.contents_pop (min_le_right _ _) hlevel hs⟩

theorem fifo_write_level (pid : Nat) (buffer : Bytes)
    (byteCount : Nat) : (b.write pid buffer byteCount).buffer.size = b.size ∧
      (b.write pid buffer byteCount).buffer.stream.offset ≤ b.size := by
  by_cases hf : (b.stream.offset+byteCount) % 2^64 > b.size
  · simp only [FIFOBuffer.write,hf,if_true,true_and]
    exact hlevel
  · simp only [FIFOBuffer.write,hf,if_false,Stream.push,true_and]
    omega

theorem fifo_write (hs : b.size < 2^62) (pid : Nat)
    (buffer : Bytes) {byteCount : Nat} (hc : byteCount ≤ b.size) :
    (b.write pid buffer byteCount).buffer.stream.contents =
      b.stream.contents ++ (b.write pid buffer byteCount).result.moved := by
  by_cases hf : (b.stream.offset+byteCount) % 2^64 > b.size
  · simp only [FIFOBuffer.write,hf,if_true,Transfer.moved,append_nil]
  · simp only [FIFOBuffer.write,hf,if_false,Transfer.moved]
    exact Stream.contents_push buffer (by omega)
end

/-- A write stores all its bytes and stays within the FIFO, or fails, or waits for something that
can come: once the FIFO is drained, the write that is tried again succeeds. -/
def WriteSettled (b : FIFOBuffer) (pid : Nat) (buffer : Bytes) (byteCount : Nat) : Prop :=
  match (b.write pid buffer byteCount).result with
  | .error => True
  | .blocks => byteCount ≤ b.size ∧ ∀ drained : FIFOBuffer, drained.size = b.size →
      drained.stream.offset = 0 →
        (drained.write pid buffer byteCount).result = .done (Stream.bytes buffer byteCount)
  | .done _ => (b.write pid buffer byteCount).buffer.stream.contents =
      b.stream.contents ++ Stream.bytes buffer byteCount ∧
        (b.write pid buffer byteCount).buffer.stream.offset ≤ b.size

theorem write_settled_iff {b : FIFOBuffer} (hlevel : b.stream.offset ≤ b.size)
    (hsize : b.size < 2^62) (pid : Nat) (buffer : Bytes) (byteCount : Nat) :
    WriteSettled b pid buffer byteCount ↔ byteCount ≤ b.size := by
  by_cases hf : (b.stream.offset+byteCount) % 2^64 > b.size
  · have hw : (b.write pid buffer byteCount).result = .blocks := by
      simp only [FIFOBuffer.write,hf,if_true]
    rw [WriteSettled,hw]
    refine ⟨And.left,fun hc => ⟨hc,fun drained hsa he => ?_⟩⟩
    have hr : ¬ (0+byteCount) % 2^64 > b.size := by omega
    simp only [FIFOBuffer.write,hsa,he,hr,if_false]
  have hd : (b.write pid buffer byteCount).result = .done (Stream.bytes buffer byteCount) := by
    simp only [FIFOBuffer.write,hf,if_false]
  rw [WriteSettled,hd]
  constructor
  · -- the fill level is the length of the contents, which grew by all the bytes
    rintro ⟨hs,hl'⟩
    have hl := congrArg length hs
    simp only [Stream.contents,length_append,Stream.bytes_length] at hl
    omega
  · intro hc
    have hs := fifo_write hlevel hsize pid buffer hc
    rw [hd] at hs
    exact ⟨hs,(fifo_write_level hlevel pid buffer byteCount).2⟩

def newFifo : FIFOBuffer := ⟨socketTxBufferSize,⟨fun _ => 0,0⟩,[],[]⟩

theorem write_settled_three : WriteSettled newFifo 1 (fun _ => 0) 3 := by
  have hlevel : newFifo.stream.offset ≤ newFifo.size := Nat.zero_le _
  exact (write_settled_iff hlevel (by decide) 1 (fun _ => 0) 3).mpr (by decide)

/-- A write of more bytes than the FIFO has waits for good, and one whose end wraps around to zero
is let through. -/
theorem write_unsettled : ¬ WriteSettled newFifo 1 (fun _ => 0) 2049 ∧
    (newFifo.write 1 (fun _ => 0) 2049).buffer.pidsWaitingUntilRead = [1] ∧
    (let b := (newFifo.write 1 (fun _ => 0) 1).buffer
     (b.write 1 (fun _ => 0) (2^64-1)).buffer.stream.offset = 0) := by
  refine ⟨fun h => ?_,by decide,by decide⟩
  exact absurd h.1 (by decide)

namespace Drivers
variable {d d' d'' : Drivers} {socket pid n fifo b : Nat} {role : SocketRole} {buffer : Bytes}
def readSide (d : Drivers) (socket : Nat) : Option Nat :=
  (d.buffersOf socket).map fun buffers => match buffers.1 with
    | .client => buffers.2.txBuffer
    | .server => buffers.2.rxBuffer

def writeSide (d : Drivers) (socket : Nat) : Option Nat :=
  (d.buffersOf socket).map fun buffers => match buffers.1 with
    | .client => buffers.2.rxBuffer
    | .server => buffers.2.txBuffer

def taken (d : Drivers) (socket pid n : Nat) : List (BitVec 8) :=
  (((d.readSide socket).bind fun fifo => d.fifos[fifo]?).map fun b =>
    (b.read pid n).result.moved).getD []

def given (d : Drivers) (socket pid : Nat) (buffer : Bytes) (n : Nat) : List (BitVec 8) :=
  (((d.writeSide socket).bind fun fifo => d.fifos[fifo]?).map fun b =>
    (b.write pid buffer n).result.moved).getD []

def capacity (d : Drivers) (socket : Nat) : Nat :=
  (((d.writeSide socket).bind fun fifo => d.fifos[fifo]?).map FIFOBuffer.size).getD 0

theorem readSocket_eq (d : Drivers) (socket pid n : Nat) : d.readSocket socket pid n =
    match d.readSide socket with
    | none => ⟨.error,d,[]⟩
    | some fifo => d.readFifo fifo pid n := by
  unfold readSocket readSide
  cases d.buffersOf socket with
  | none => rfl
  | some buffers =>
    obtain ⟨role,buffers⟩ := buffers
    cases role <;> rfl

theorem writeSocket_eq (d : Drivers) (socket pid : Nat) (buffer : Bytes) (n : Nat) :
    d.writeSocket socket pid buffer n = match d.writeSide socket with
      | none => ⟨.error,d,[]⟩
      | some fifo => d.writeFifo fifo pid buffer n := by
  unfold writeSocket writeSide
  cases d.buffersOf socket with
  | none => rfl
  | some buffers =>
    obtain ⟨role,buffers⟩ := buffers
    cases role <;> rfl

def contents (d : Drivers) (fifo : Nat) : List (BitVec 8) := (d.fifos[fifo]?.map fun b => b.stream.contents).getD []

def endpoint (d : Drivers) (socket : Nat) : Option (SocketRole × Nat) :=
  d.sockets[socket]?.bind fun data => data.data.map fun b => (data.clientServer,b)

theorem SameEndpoints.endpoint (h : SameEndpoints d d') (socket : Nat) : d'.endpoint socket = d.endpoint socket := by
  rw [Drivers.endpoint,h.sockets]
  rfl

def fifoPairs (d : Drivers) : List (Nat × Nat) := d.socketBuffers.map fun buffers => (buffers.txBuffer,buffers.rxBuffer)

def readsFrom : SocketRole → Nat → Nat
  | .client, b => 2 * b
  | .server, b => 2 * b+1

def writesTo : SocketRole → Nat → Nat
  | .client, b => 2 * b+1
  | .server, b => 2 * b

theorem readsFrom_inj {role' : SocketRole} {b b' : Nat} :
    readsFrom role b = readsFrom role' b' ↔ (role,b) = (role',b') := by
  cases role <;> cases role' <;> simp [readsFrom] <;> omega

theorem writesTo_inj {role' : SocketRole} {b b' : Nat} :
    writesTo role b = writesTo role' b' ↔ (role,b) = (role',b') := by
  cases role <;> cases role' <;> simp [writesTo] <;> omega

/-- The buffers lie in pairs, and each pair belongs to one client. -/
structure Laid (d : Drivers) : Prop where
  placed : ∀ (b : Nat) (pair : Nat × Nat), d.fifoPairs[b]? = some pair → pair = (2 * b,2 * b+1)
  paired : d.fifos.length = 2 * d.fifoPairs.length
  levels : ∀ (fifo : Nat) (b : FIFOBuffer), d.fifos[fifo]? = some b →
    b.size ≤ socketTxBufferSize ∧ b.stream.offset ≤ b.size
  within : ∀ socket role b, d.endpoint socket = some (role,b) → b < d.fifoPairs.length
  clients : ∀ socket socket' b, d.endpoint socket = some (.client,b) →
    d.endpoint socket' = some (.client,b) → socket = socket'

theorem Laid.sides (h : d.Laid) (hen : d.endpoint socket = some (role,b)) :
    d.readSide socket = some (readsFrom role b) ∧ d.writeSide socket = some (writesTo role b) := by
  have hl := h.within socket role b hen
  obtain ⟨data,hd,hr⟩ := bind_eq_some_iff.mp hen
  obtain ⟨b',hb,he⟩ := map_eq_some_iff.mp hr
  cases he
  obtain ⟨buffers,hbu,hp⟩ : ∃ buffers, d.socketBuffers[b]? = some buffers ∧
      (buffers.txBuffer,buffers.rxBuffer) = (2 * b,2 * b+1) := by
    have hg := getElem?_eq_getElem hl
    obtain ⟨buffers,hbu,hp⟩ := map_eq_some_iff.mp ((getElem?_map).symm.trans hg)
    exact ⟨buffers,hbu,hp.trans (h.placed b _ hg)⟩
  obtain ⟨ht,hrx⟩ := Prod.mk.inj hp
  have hbu : d.buffersOf socket = some (data.clientServer,buffers) := by simp [buffersOf,hd,hb,hbu]
  cases hro : data.clientServer <;>
    simp [readSide,writeSide,hbu,hro,ht,hrx,readsFrom,writesTo]

theorem buffersOf_none (he : d.endpoint socket = none) : d.buffersOf socket = none := by
  unfold endpoint at he
  unfold buffersOf
  cases hd : d.sockets[socket]? with
  | none => rfl
  | some data =>
    rw [hd,bind_some,map_eq_none_iff] at he
    simp [he]

theorem contents_set {new : FIFOBuffer} (h : fifo < d.fifos.length) (i : Nat) :
    contents { d with fifos := d.fifos.set fifo new } i =
      if fifo = i then new.stream.contents else d.contents i := by
  by_cases he : fifo = i
  · subst he
    simp [contents,h]
  · simp [contents,he]

theorem Laid.set (h : d.Laid) {old new : FIFOBuffer} (ho : d.fifos[fifo]? = some old)
    (hs : new.size = old.size) (hlevel : new.stream.offset ≤ old.size) :
    Laid { d with fifos := d.fifos.set fifo new } where
  placed := h.placed
  paired := (length_set).trans h.paired
  levels := by
    intro i b hb
    by_cases he : fifo = i
    · subst he
      rw [getElem?_set_self (lt_of_getElem? ho)] at hb
      cases hb
      exact ⟨hs ▸ (h.levels fifo old ho).1,hs ▸ hlevel⟩
    · rw [getElem?_set_ne he] at hb
      exact h.levels i b hb
  within := h.within
  clients := h.clients

theorem Laid.readSocket (h : d.Laid) (socket pid n : Nat) :
    (d.readSocket socket pid n).drivers.Laid ∧ ∀ i,
      (if d.readSide socket = some i then d.taken socket pid n else []) ++
        (d.readSocket socket pid n).drivers.contents i = d.contents i := by
  rw [readSocket_eq,taken]
  cases hsid : d.readSide socket with
  | none => exact ⟨h,by simp⟩
  | some fifo =>
    dsimp
    unfold readFifo
    cases hf : d.fifos[fifo]? with
    | none => exact ⟨h,by simp⟩
    | some b =>
      obtain ⟨hb,hlevel⟩ := h.levels fifo b hf
      have hl := lt_of_getElem? hf
      have hs : b.size < 2^63 := by
        unfold socketTxBufferSize at hb
        omega
      obtain ⟨hsi,hl',hr⟩ := fifo_read hlevel hs pid n
      refine ⟨h.set hf hsi hl',?_⟩
      intro i
      rw [contents_set hl]
      by_cases he : fifo = i
      · subst he
        simp only [if_true,map_some,getD_some]
        rw [hr,contents,hf]
        rfl
      · simp [he]

theorem Laid.writeSocket (h : d.Laid) (socket pid : Nat) (buffer : Bytes)
    (hn : n ≤ d.capacity socket) : (d.writeSocket socket pid buffer n).drivers.Laid ∧ ∀ i,
      (d.writeSocket socket pid buffer n).drivers.contents i =
        d.contents i ++ (if d.writeSide socket = some i then d.given socket pid buffer n else []) := by
  rw [writeSocket_eq,given]
  rw [capacity] at hn
  cases hsi : d.writeSide socket with
  | none => exact ⟨h,by simp⟩
  | some fifo =>
    rw [hsi] at hn
    dsimp only [bind_some] at hn ⊢
    unfold writeFifo
    cases hf : d.fifos[fifo]? with
    | none => exact ⟨h,by simp⟩
    | some b =>
      rw [hf] at hn
      obtain ⟨hb,hlevel⟩ := h.levels fifo b hf
      have hl := lt_of_getElem? hf
      have hs : b.size < 2^62 := by
        unfold socketTxBufferSize at hb
        omega
      obtain ⟨hsiz,hl'⟩ := fifo_write_level hlevel pid buffer n
      refine ⟨h.set hf hsiz hl',?_⟩
      intro i
      rw [contents_set hl]
      by_cases he : fifo = i
      · subst he
        simp only [if_true,map_some,getD_some]
        rw [fifo_write hlevel hs pid buffer hn,contents,hf]
        rfl
      · simp [he]

/-- Sockets may become servers, are made and closed, and no byte moves. -/
structure Evolves (d d' : Drivers) : Prop where
  sockets : d.sockets.length ≤ d'.sockets.length
  buffers : d.fifoPairs.length ≤ d'.fifoPairs.length
  contents : ∀ fifo, d'.contents fifo = d.contents fifo
  endpoints : ∀ socket role b, d'.endpoint socket = some (role,b) →
    d.endpoint socket = some (role,b) ∨
      role = .server ∧ (d.endpoint socket = some (.client,b) ∨ d.sockets.length ≤ socket) ∨
      d.sockets.length ≤ socket ∧ d.fifoPairs.length ≤ b

namespace Evolves
theorem trans (h : Evolves d d') (h' : Evolves d' d'') : Evolves d d'' where
  sockets := h.sockets.trans h'.sockets
  buffers := h.buffers.trans h'.buffers
  contents := fun fifo => (h'.contents fifo).trans (h.contents fifo)
  endpoints := by
    intro socket role b he
    rcases h'.endpoints socket role b he with ho | ⟨hr,ho | hn⟩ | ⟨hn,hb⟩
    · exact h.endpoints socket role b ho
    · refine .inr (.inl ⟨hr,?_⟩)
      rcases h.endpoints socket .client b ho with ho | ⟨hr',-⟩ | ⟨hn,-⟩
      · exact .inl ho
      · cases hr'
      · exact .inr hn
    · exact .inr (.inl ⟨hr,.inr (h.sockets.trans hn)⟩)
    · exact .inr (.inr ⟨h.sockets.trans hn,h.buffers.trans hb⟩)
end Evolves

section
variable (h : d.Laid)
include h
theorem Laid.evolve (hf : d'.fifos = d.fifos) (hp : d'.fifoPairs = d.fifoPairs)
    (hs : d.sockets.length ≤ d'.sockets.length)
    (he : ∀ socket role b, d'.endpoint socket = some (role,b) →
      d.endpoint socket = some (role,b) ∨ role = .server ∧ b < d.fifoPairs.length ∧
        (d.endpoint socket = some (.client,b) ∨ d.sockets.length ≤ socket)) :
    Evolves d d' ∧ d'.Laid := by
  refine ⟨⟨hs,by rw [hp],fun fifo => by rw [contents,hf]; rfl,?_⟩,hp ▸ h.placed,
    by rw [hf,hp,h.paired],hf ▸ h.levels,?_,?_⟩
  · intro socket role b hen
    rcases he socket role b hen with ho | ⟨hr,-,ho⟩
    · exact .inl ho
    · exact .inr (.inl ⟨hr,ho⟩)
  · intro socket role b hen
    rw [hp]
    rcases he socket role b hen with ho | ⟨-,hl,-⟩
    · exact h.within socket role b ho
    · exact hl
  intro socket socket' b hen he'
  rcases he socket .client b hen with ho | ⟨hr,-⟩
  · rcases he socket' .client b he' with ho' | ⟨hr,-⟩
    · exact h.clients socket socket' b ho ho'
    · cases hr
  · cases hr

theorem Laid.sameEndpoints (hs : SameEndpoints d d') (hf : d'.fifos = d.fifos) : Evolves d d' ∧ d'.Laid := by
  have hp : d'.fifoPairs = d.fifoPairs := by rw [fifoPairs,hs.socketBuffers,fifoPairs]
  refine h.evolve hf hp (by rw [hs.sockets]) ?_
  intro socket role b he
  exact .inl (by rw [← hs.endpoint,he])

theorem Laid.setSocket {data data' : SocketData} (hd : d.sockets[socket]? = some data)
    (hbu : data'.data = data.data)
    (hr : data'.clientServer = data.clientServer ∨ data'.clientServer = .server) :
    Evolves d (d.setSocket socket data') ∧ (d.setSocket socket data').Laid := by
  refine h.evolve rfl rfl (by rw [Drivers.setSocket,length_set]) ?_
  intro k role b hen
  by_cases he : socket = k
  · subst he
    rw [endpoint,Drivers.setSocket,getElem?_set_self (lt_of_getElem? hd), bind_some,hbu] at hen
    obtain ⟨b',hb,he⟩ := map_eq_some_iff.mp hen
    cases he
    have ho : d.endpoint socket = some (data.clientServer,b) := by simp [endpoint,hd,hb]
    rcases hr with hsa | hs
    · exact .inl (hsa ▸ ho)
    rw [hs]
    cases hw : data.clientServer with
    | client => exact .inr ⟨rfl,h.within socket _ b ho,.inl (hw ▸ ho)⟩
    | server => exact .inl (hw ▸ ho)
  · rw [endpoint,Drivers.setSocket,getElem?_set_ne he] at hen
    exact .inl hen

theorem Laid.closeSocket (socket : Nat) : Evolves d (d.closeSocket socket) ∧ (d.closeSocket socket).Laid := by
  have hr : (d.closeSocket socket).fifos = d.fifos ∧ (d.closeSocket socket).fifoPairs = d.fifoPairs := by
    unfold Drivers.closeSocket
    split
    · exact ⟨rfl,rfl⟩
    split
    · exact ⟨rfl,rfl⟩
    split
    · exact ⟨rfl,rfl⟩
    · next buffers hb =>
      dsimp only
      split <;> exact ⟨rfl,map_set_same hb rfl⟩
  rcases d.close_sockets socket with hs | ⟨data,hd,hse⟩
  · refine h.evolve hr.1 hr.2 (by rw [hs]) fun k role b hen => ?_
    rw [endpoint,hs] at hen
    exact .inl hen
  refine h.evolve hr.1 hr.2 (by rw [hse,length_set]) fun k role b hen => ?_
  rw [endpoint,hse] at hen
  by_cases he : socket = k
  · subst he
    rw [getElem?_set_self (lt_of_getElem? hd)] at hen
    cases hen
  · rw [getElem?_set_ne he] at hen
    exact .inl hen

theorem Laid.newSocket (pid : Nat) : Evolves d (d.socket pid).2 ∧ (d.socket pid).2.Laid := by
  have hp : (d.socket pid).2.fifoPairs = d.fifoPairs ++ [(2 * d.fifoPairs.length,2 * d.fifoPairs.length+1)] := by
    simp [fifoPairs,socket,h.paired]
  have he : ∀ k role b, (d.socket pid).2.endpoint k = some (role,b) →
      d.endpoint k = some (role,b) ∨
        k = d.sockets.length ∧ role = .client ∧ b = d.fifoPairs.length := by
    intro k role b hen
    rw [endpoint,socket,getElem?_snoc] at hen
    split at hen
    · next hk =>
      have hpa := some.inj hen
      simp only [Prod.mk.injEq] at hpa
      exact .inr ⟨hk,hpa.1.symm,by simp [fifoPairs,hpa.2.symm]⟩
    · exact .inl hen
  constructor
  · refine ⟨by simp [socket],by simp [hp],?_,?_⟩
    · intro fifo
      refine VFS.listed_append (fun b => b.stream.contents) d.fifos ?_ fifo
      simp [Stream.contents,Stream.bytes]
    intro k role b hen
    rcases he k role b hen with ho | ⟨hk,-,hb⟩
    · exact .inl ho
    · exact .inr (.inr ⟨hk.ge,hb.ge⟩)
  constructor
  · intro b pair hpa
    rw [hp,getElem?_snoc] at hpa
    split at hpa
    · next hb => exact hb ▸ (some.inj hpa).symm
    · exact h.placed b pair hpa
  · rw [hp,socket,length_append,length_append,h.paired]
    simp
    omega
  · intro fifo b hb
    rcases mem_append.mp (mem_of_getElem? hb) with ho | hn
    · obtain ⟨i,hi⟩ := getElem?_of_mem ho
      exact h.levels i b hi
    · simp only [mem_cons,not_mem_nil,or_false] at hn
      rcases hn with rfl | rfl <;> exact ⟨by decide,Nat.zero_le _⟩
  · intro k role b hen
    rw [hp,length_append,length_singleton]
    rcases he k role b hen with ho | ⟨-,-,hb⟩
    · exact Nat.lt_succ_of_lt (h.within k role b ho)
    · exact hb ▸ Nat.lt_succ_self _
  intro k k' b hen he'
  rcases he k .client b hen with ho | ⟨hk,-,hb⟩
  · rcases he k' .client b he' with ho' | ⟨hk',-,hb'⟩
    · exact h.clients k k' b ho ho'
    · exact absurd (h.within k _ b ho) (by omega)
  rcases he k' .client b he' with ho' | ⟨hk',-,hb'⟩
  · exact absurd (h.within k' _ b ho') (by omega)
  · exact hk.trans hk'.symm

theorem Laid.acceptSocket {client : Nat} {data : SocketData}
    (hd : d.sockets[client]? = some data) :
    Evolves d (d.acceptSocket data).2 ∧ (d.acceptSocket data).2.Laid := by
  have hp : (d.acceptSocket data).2.fifoPairs = d.fifoPairs := by
    unfold Drivers.acceptSocket fifoPairs
    split
    · rfl
    next b hb =>
    apply ext_getElem?
    intro i
    by_cases he : b = i
    · simp [he,Function.comp_def]
    · simp [he]
  refine h.evolve rfl hp (by simp [Drivers.acceptSocket]) ?_
  intro k role b hen
  rw [endpoint,Drivers.acceptSocket,getElem?_snoc] at hen
  split at hen
  · next hk =>
    obtain ⟨b',hb,he⟩ := map_eq_some_iff.mp hen
    cases he
    have hc : d.endpoint client = some (data.clientServer,b) := by
      have hb : data.data = some b := hb
      simp [endpoint,hd,hb]
    exact .inr ⟨rfl,h.within client _ b hc,.inr hk.ge⟩
  · exact .inl hen
end

theorem taken_none (he : d.endpoint socket = none) : d.taken socket pid n = [] := by
  simp [taken,readSide,buffersOf_none he]

theorem given_none (he : d.endpoint socket = none) : d.given socket pid buffer n = [] := by
  simp [given,writeSide,buffersOf_none he]

theorem endpoint_past (h : d.sockets.length ≤ socket) : d.endpoint socket = none := by
  simp [endpoint,getElem?_eq_none h]
end Drivers

variable {effect : Effect}
namespace VFS
variable {v w : VFS} {pid : Nat} {request : Call}
theorem Clears.evolves (h : Clears v w) (hv : v.drivers.Laid) : v.drivers.Evolves w.drivers ∧ w.drivers.Laid := by
  induction h with
  | refl => exact hv.sameEndpoints ⟨rfl,rfl,rfl⟩ rfl
  | tail hcle hst ih =>
    obtain ⟨he,hl⟩ := ih
    rcases hst with hsp | ⟨f,socket,hc⟩
    · have hs := hl.sameEndpoints hsp.sockets.endpoints hsp.sockets.fifos
      exact ⟨he.trans hs.1,hs.2⟩
    have hcl := hl.closeSocket socket
    have hs := hcl.2.sameEndpoints hc.sockets.endpoints hc.sockets.fifos
    exact ⟨(he.trans hcl.1).trans hs.1,hs.2⟩

theorem SocketEvent.evolves (h : SocketEvent v pid request w)
    (ht : v.transfer pid request = none) (hv : v.drivers.Laid) :
    v.drivers.Evolves w.drivers ∧ w.drivers.Laid := by
  cases h with
  | idle _ => exact hv.sameEndpoints ⟨rfl,rfl,rfl⟩ rfl
  | transfers hso =>
    rw [ht] at hso
    cases hso
  | makes => exact hv.newSocket pid
  | @binds procfd address socket data drivers hat hbi =>
    rw [Drivers.bind,ite_none_left_eq_some] at hbi
    obtain ⟨-,he⟩ := hbi
    cases he
    have hse := @Drivers.Laid.setSocket _ _ hv _ { data with address := address } hat.data rfl (.inl rfl)
    refine And.imp hse.1.trans id ?_
    exact hse.2.evolve rfl rfl (le_refl _) fun _ _ _ => .inl
  | listens hat hb => exact hv.setSocket hat.data rfl (.inr rfl)
  | connects hat hc hs hd => exact hv.setSocket hd rfl (.inl rfl)
  | waits hat hq | refuses hat hq => exact hv.setSocket hat.data rfl (.inl rfl)
  | @accepts procfd socket client data clientData rest drivers hat hq hdr hc =>
    have hse : v.drivers.Evolves drivers ∧ drivers.Laid := hdr ▸ hv.setSocket hat.data rfl (.inl rfl)
    have ha := hse.2.acceptSocket hc
    exact ⟨hse.1.trans ha.1,ha.2⟩

def received (v : VFS) (pid : Nat) : Call → Option (Nat × List (BitVec 8))
  | .read procfd byteCount _ =>
    (v.file pid procfd).bind fun f => (v.metadata f).bind fun file =>
      if file.offset ≥ file.fileSize then none
      else match file.driverData with
        | .socket socket => some (socket, v.drivers.taken socket pid (readCount file byteCount))
        | _ => none
  | _ => none

def sent (v : VFS) (pid : Nat) : Call → Option (Nat × List (BitVec 8))
  | .write procfd buffer byteCount _ =>
    (v.file pid procfd).bind fun f => (v.metadata f).bind fun file =>
      match file.driverData with
      | .socket socket => some (socket,v.drivers.given socket pid buffer byteCount)
      | _ => none
  | _ => none

inductive Moves (v : VFS) (pid : Nat) (request : Call) (d : Drivers) : Prop
  | nothing (hrecv : v.received pid request = none) (hsent : v.sent pid request = none)
      (h : v.drivers.SameSockets d)
  | reads {socket n : Nat}
      (hrecv : v.received pid request = some (socket,v.drivers.taken socket pid n))
      (hsent : v.sent pid request = none) (h : d = (v.drivers.readSocket socket pid n).drivers)
  | writes {procfd socket n : Nat} {buffer : Bytes} {device : Option Nat}
      (hreq : request = .write procfd buffer n device)
      (hrecv : v.received pid request = none)
      (hsent : v.sent pid request = some (socket,v.drivers.given socket pid buffer n))
      (h : d = (v.drivers.writeSocket socket pid buffer n).drivers)

theorem transfer_moves (h : v.transfer pid request = some effect) : Moves v pid request effect.drivers := by
  cases request with
  | read procfd byteCount device =>
    obtain ⟨f,hf,hr⟩ := bind_eq_some_iff.mp h
    obtain ⟨file,hfi,hr⟩ := bind_eq_some_iff.mp hr
    obtain ⟨hc,he⟩ := ite_none_left_eq_some.mp hr
    cases he
    cases hd : file.driverData with
    | socket socket =>
      exact .reads (by simp [received,hf,hfi,hc,hd]) rfl rfl
    | _ =>
      refine .nothing (by simp [received,hf,hfi,hd]) rfl ?_
      exact sameSockets_read _ (by simp) _ _ _
  | write procfd buffer byteCount device =>
    obtain ⟨f,hf,hr⟩ := bind_eq_some_iff.mp h
    obtain ⟨file,hfi,rfl⟩ := map_eq_some_iff.mp hr
    cases hd : file.driverData with
    | socket socket =>
      exact .writes rfl rfl (by simp [sent,hf,hfi,hd]) rfl
    | _ =>
      refine .nothing rfl (by simp [sent,hf,hfi,hd]) ?_
      exact sameSockets_write _ (by simp) _ _ _ _
  | _ => cases h

theorem moves_of_none (h : v.transfer pid request = none) :
    v.received pid request = none ∧ v.sent pid request = none := by
  cases request with
  | read procfd byteCount device =>
    refine ⟨?_,rfl⟩
    cases hf : v.file pid procfd with
    | none => simp [received,hf]
    | some f =>
      cases hfi : v.metadata f with
      | none => simp [received,hf,hfi]
      | some file =>
        have hc : file.offset ≥ file.fileSize := by
          by_contra hc
          simp [transfer,hf,hfi,hc] at h
        simp [received,hf,hfi,hc]
  | write procfd buffer byteCount device =>
    refine ⟨rfl,?_⟩
    cases hf : v.file pid procfd with
    | none => simp [sent,hf]
    | some f =>
      cases hfi : v.metadata f with
      | none => simp [sent,hf,hfi]
      | some file => simp [transfer,hf,hfi] at h
  | _ => exact ⟨rfl,rfl⟩
end VFS

structure Conversation where
  kernel : State
  sent : Nat → List (BitVec 8)
  received : Nat → List (BitVec 8)

namespace Conversation
def log (logs : Nat → List (BitVec 8)) : Option (Nat × List (BitVec 8)) → Nat → List (BitVec 8)
  | none => logs
  | some (socket,bytes) => Function.update logs socket (logs socket ++ bytes)

def step (c : Conversation) (call : State.Call) : Option Conversation :=
  (c.kernel.step call).map fun kernel =>
    match call, c.kernel.caller with
    | .file request, some p =>
      { kernel := kernel
        sent := log c.sent (c.kernel.vfs.sent p.processID request)
        received := log c.received (c.kernel.vfs.received p.processID request) }
    | _, _ => { c with kernel := kernel }

structure Started (c : Conversation) : Prop where
  kernel : State.Started c.kernel
  sent : ∀ socket, c.sent socket = []
  received : ∀ socket, c.received socket = []

def drivers (c : Conversation) : Drivers := c.kernel.vfs.drivers

/-- The socket is one of the two sides, if it shares the buffers of the client. -/
def OfSides (client server : Nat) (c : Conversation) (socket : Nat) : Prop :=
  ∀ role role' b, c.drivers.endpoint socket = some (role,b) →
    c.drivers.endpoint client = some (role',b) → socket = client ∨ socket = server

/-- Of the sockets that share the buffers of the client, only the two sides read and write, and
no write is larger than the buffer it goes to. -/
structure BothSides (client server : Nat) (c : Conversation) (call : State.Call)
    (_ : Conversation) : Prop where
  reads : ∀ p request socket bytes, c.kernel.caller = some p → call = .file request →
    c.kernel.vfs.received p.processID request = some (socket,bytes) →
      OfSides client server c socket
  writes : ∀ p procfd buffer n device socket bytes, c.kernel.caller = some p →
    call = .file (.write procfd buffer n device) →
    c.kernel.vfs.sent p.processID (.write procfd buffer n device) = some (socket,bytes) →
      OfSides client server c socket ∧ n ≤ c.drivers.capacity socket

def Connected (c : Conversation) (client server : Nat) : Prop :=
  ∃ b, c.drivers.endpoint client = some (.client,b) ∧ c.drivers.endpoint server = some (.server,b)

/-- What one side received is what the other side sent, apart from what is on the way. Before the
connection is accepted there is no other side. -/
structure InOrder (client server : Nat) (c : Conversation) : Prop where
  laid : c.drivers.Laid
  silent : ∀ socket, c.drivers.sockets.length ≤ socket → c.sent socket = [] ∧ c.received socket = []
  carried : ∀ b, c.drivers.endpoint client = some (.client,b) →
    c.drivers.sockets.length ≤ server ∨ c.drivers.endpoint server = some (.server,b) →
      Carried (c.sent client) (c.received server) (c.drivers.contents (2 * b+1)) ∧
        Carried (c.sent server) (c.received client) (c.drivers.contents (2 * b))

variable {client server socket pid : Nat} {c c' : Conversation} {call : State.Call}
section
variable {logs : Nat → List (BitVec 8)} {socket k : Nat} {bytes : List (BitVec 8)}
theorem log_eq {P : Prop} [Decidable P] (h : k = socket ↔ P) :
    log logs (some (socket,bytes)) k = logs k ++ if P then bytes else [] := by
  by_cases he : k = socket
  · rw [if_pos (h.mp he),he]
    exact Function.update_self _ _ _
  · rw [if_neg (mt h.mpr he),append_nil]
    exact Function.update_of_ne he _ _

theorem log_silent (h : k = socket → bytes = []) : log logs (some (socket,bytes)) k = logs k := by
  rw [log_eq Iff.rfl]
  split
  · next he => rw [h he,append_nil]
  · exact append_nil _
end

theorem OfSides.ends {b b' : Nat} {role : SocketRole} (h : OfSides client server c socket)
    (hc : c.drivers.endpoint client = some (.client,b))
    (hs : c.drivers.sockets.length ≤ server ∨ c.drivers.endpoint server = some (.server,b))
    (hen : c.drivers.endpoint socket = some (role,b')) :
    (client = socket ↔ (role,b') = (.client,b)) ∧ (server = socket ↔ (role,b') = (.server,b)) := by
  have hs : server = socket → (role,b') = (.server,b) := by
    rintro rfl
    rcases hs with hp | hs
    · rw [endpoint_past hp] at hen
      cases hen
    · exact some.inj (hen.symm.trans hs)
  refine ⟨⟨?_,fun he => ?_⟩,hs,fun he => ?_⟩
  · rintro rfl
    exact some.inj (hen.symm.trans hc)
  · cases he
    rcases h .client .client b hen hc with he | he
    · exact he.symm
    · cases hs he.symm
  · cases he
    rcases h .server .client b hen hc with rfl | he
    · cases hen.symm.trans hc
    · exact he.symm

theorem OfSides.log {b : Nat} {side : Option Nat} {f : SocketRole → Nat → Nat}
    {bytes : List (BitVec 8)} (h : OfSides client server c socket)
    (hf : ∀ {role role' b b'}, f role b = f role' b' ↔ (role,b) = (role',b'))
    (hsi : ∀ {role b}, c.drivers.endpoint socket = some (role,b) → side = some (f role b))
    (hn : c.drivers.endpoint socket = none → bytes = [])
    (hcl : c.drivers.endpoint client = some (.client,b))
    (hse : c.drivers.sockets.length ≤ server ∨ c.drivers.endpoint server = some (.server,b))
    (logs : Nat → List (BitVec 8)) : (Conversation.log logs (some (socket,bytes)) client =
      logs client ++ if side = some (f .client b) then bytes else []) ∧
    (Conversation.log logs (some (socket,bytes)) server =
      logs server ++ if side = some (f .server b) then bytes else []) := by
  cases he : c.drivers.endpoint socket with
  | none => simp [hn he,log_silent]
  | some end' =>
    obtain ⟨hc,hs⟩ := h.ends hcl hse he
    rw [hsi he]
    simp only [some.injEq,hf]
    exact ⟨log_eq hc,log_eq hs⟩

namespace InOrder
variable (h : InOrder client server c)
include h
theorem evolves (he : c.drivers.Evolves c'.drivers) (hla : c'.drivers.Laid)
    (hse : c'.sent = c.sent) (hr : c'.received = c.received) :
    InOrder client server c' where
  laid := hla
  silent := by
    intro socket hso
    rw [hse,hr]
    exact h.silent socket (he.sockets.trans hso)
  carried := by
    intro b hc hs
    rw [hse,hr,he.contents,he.contents]
    rcases he.endpoints client .client b hc with ho | ⟨hro,-⟩ | ⟨hn,hb⟩
    · refine h.carried b ho ?_
      rcases hs with hpa | hs
      · exact .inl (he.sockets.trans hpa)
      rcases he.endpoints server .server b hs with hk | ⟨-,hl | hn⟩ | ⟨hn,-⟩
      · exact .inr hk
      · -- The other side of the client can not have been a client itself.
        rw [h.laid.clients server client b hl ho,hc] at hs
        cases hs
      · exact .inl hn
      · exact .inl hn
    · cases hro
    · -- The client was just made, and its buffers are new.
      have hem : ∀ fifo, 2 * b ≤ fifo → c.drivers.contents fifo = [] := by
        intro fifo hf
        have hp := h.laid.paired
        have hpa : c.drivers.fifos.length ≤ fifo := by omega
        simp [contents,getElem?_eq_none hpa]
      have hpa : c.drivers.sockets.length ≤ server := by
        rcases hs with hpa | hs
        · exact he.sockets.trans hpa
        rcases he.endpoints server .server b hs with ho | ⟨-,ho | hpa⟩ | ⟨hpa,-⟩
        · exact absurd (h.laid.within server _ b ho) (not_lt.mpr hb)
        · exact absurd (h.laid.within server _ b ho) (not_lt.mpr hb)
        · exact hpa
        · exact hpa
      rw [hem _ (by omega),hem _ (le_refl _),(h.silent client hn).1,
        (h.silent client hn).2,(h.silent server hpa).1,(h.silent server hpa).2]
      exact ⟨.nil,.nil⟩

theorem reads {n : Nat} (hsi : OfSides client server c socket)
    (hd : c'.drivers = (c.drivers.readSocket socket pid n).drivers) (hsen : c'.sent = c.sent)
    (hr : c'.received = log c.received (some (socket,c.drivers.taken socket pid n))) :
    InOrder client server c' := by
  obtain ⟨hl,hco⟩ := h.laid.readSocket socket pid n
  have hsa := hd ▸ c.drivers.read_endpoints (.socket socket) pid n none
  rw [← hd] at hl hco
  refine ⟨hl,?_,?_⟩
  · intro k hk
    rw [hsa.sockets] at hk
    obtain ⟨hno,hn⟩ := h.silent k hk
    refine ⟨hsen ▸ hno,?_⟩
    rw [hr,log_silent,hn]
    rintro rfl
    exact taken_none (endpoint_past hk)
  intro b hcl hse
  rw [hsa.endpoint] at hcl hse
  rw [hsa.sockets] at hse
  obtain ⟨ht,hf⟩ := h.carried b hcl hse
  obtain ⟨hc,hs⟩ := hsi.log readsFrom_inj (fun he => (h.laid.sides he).1)
    taken_none hcl hse c.received
  rw [hsen,hr,hc,hs]
  exact ⟨ht.receive (hco _),hf.receive (hco _)⟩

theorem writes {n : Nat} {buffer : Bytes} (hsi : OfSides client server c socket)
    (hn : n ≤ c.drivers.capacity socket)
    (hd : c'.drivers = (c.drivers.writeSocket socket pid buffer n).drivers)
    (hr : c'.received = c.received)
    (hsen : c'.sent = log c.sent (some (socket,c.drivers.given socket pid buffer n))) :
    InOrder client server c' := by
  obtain ⟨hl,hco⟩ := h.laid.writeSocket socket pid buffer hn
  have hsa := hd ▸ c.drivers.write_endpoints (.socket socket) pid buffer n none
  rw [← hd] at hl hco
  refine ⟨hl,?_,?_⟩
  · intro k hk
    rw [hsa.sockets] at hk
    obtain ⟨hnos,hno⟩ := h.silent k hk
    refine ⟨?_,hr ▸ hno⟩
    rw [hsen,log_silent,hnos]
    rintro rfl
    exact given_none (endpoint_past hk)
  intro b hcl hse
  rw [hsa.endpoint] at hcl hse
  rw [hsa.sockets] at hse
  obtain ⟨ht,hf⟩ := h.carried b hcl hse
  obtain ⟨hc,hs⟩ := hsi.log writesTo_inj (fun he => (h.laid.sides he).2)
    given_none hcl hse c.sent
  rw [hsen,hr,hco,hco,hc,hs]
  exact ⟨ht.send _,hf.send _⟩
end InOrder

theorem kernel_reachable {guard : Conversation → State.Call → Conversation → Prop}
    (h : Reachable Started step guard c) : Reachable State.Started State.step anyStep c.kernel := by
  induction h with
  | start h => exact .start h.kernel
  | @next c c' call hr hs hg ih =>
    obtain ⟨kernel,hk,rfl⟩ := map_eq_some_iff.mp hs
    have hn : Reachable State.Started State.step anyStep kernel := .next ih hk trivial
    split <;> exact hn

theorem event_transfers {v w : VFS} {request : VFS.Call}
    (h : VFS.SocketEvent v pid request w) (ht : v.transfer pid request = some effect) :
    w = { v with drivers := effect.drivers } := by
  cases h with
  | idle hn =>
    rw [hn] at ht
    cases ht
  | transfers hs =>
    rw [hs] at ht
    cases ht
    rfl
  | _ => cases ht

theorem InOrder.step (h : InOrder client server c) (hs : State.Sound c.kernel)
    (hli : ∀ fd f, c.kernel.vfs.files.get fd = some f → 0 < c.kernel.vfs.refCount f)
    (hst : c.step call = some c')
    (hg : BothSides client server c call c') : InOrder client server c' := by
  obtain ⟨kernel,hk,he⟩ := map_eq_some_iff.mp hst
  cases State.step_sockets hs hli hk with
  | clears hca hc =>
    have hc' : c' = { c with kernel := kernel } := by
      cases call with
      | file request => exact absurd rfl (hca request)
      | _ => exact he.symm
    obtain ⟨hev,hl⟩ := hc.evolves h.laid
    subst hc'
    exact h.evolves hev hl rfl rfl
  | @call p request w hp hca heve hc =>
    subst hca
    simp only [hp] at he
    cases ht : c.kernel.vfs.transfer p.processID request with
    | none =>
      obtain ⟨hev,hl⟩ := heve.evolves ht h.laid
      obtain ⟨he',hl'⟩ := hc.evolves hl
      obtain ⟨hr,hse⟩ := VFS.moves_of_none ht
      rw [hr,hse] at he
      subst he
      exact h.evolves (hev.trans he') hl' rfl rfl
    | some effect =>
      -- The bytes move first, and then files are closed.
      have hmo : ∀ middle : Conversation, middle.drivers = effect.drivers →
          middle.sent = c'.sent → middle.received = c'.received →
            InOrder client server middle → InOrder client server c' := by
        intro middle hd hse hr hm
        rw [event_transfers heve ht] at hc
        have hl := hd ▸ hm.laid
        obtain ⟨hev,hl'⟩ := hc.evolves hl
        subst he
        exact hm.evolves (hd ▸ hev) hl' hse.symm hr.symm
      refine hmo ⟨{ c.kernel with vfs := { c.kernel.vfs with drivers := effect.drivers } },
        c'.sent,c'.received⟩ rfl rfl rfl ?_
      subst he
      cases VFS.transfer_moves ht with
      | nothing hr hse hsa =>
        rw [hr,hse]
        obtain ⟨hev,hl⟩ := h.laid.sameEndpoints hsa.endpoints hsa.fifos
        exact h.evolves hev hl rfl rfl
      | reads hr hse hd =>
        rw [hr,hse]
        exact h.reads (hg.reads p request _ _ hp rfl hr) hd rfl rfl
      | writes hre hr hse hd =>
        subst hre
        obtain ⟨hsi,hn⟩ := hg.writes p _ _ _ _ _ _ hp rfl hse
        rw [hr,hse]
        exact h.writes hsi hn hd rfl rfl

theorem InOrder.start (h : Started c) : InOrder client server c := by
  obtain ⟨mounts,hk⟩ := h.kernel
  have hd : c.drivers = .initial := by
    rw [drivers,hk]
    rfl
  have he : ∀ socket, c.drivers.endpoint socket = none := by
    intro socket
    rw [hd]
    rfl
  have hl : initial.Laid := ⟨nofun,rfl,nofun,nofun,nofun⟩
  refine ⟨hd ▸ hl,fun socket _ => ⟨h.sent socket,h.received socket⟩,?_⟩
  · intro b hs
    rw [he] at hs
    cases hs

/-- The bytes that arrive at one side of a connection are a prefix of those the other side wrote,
in both directions. Each side reads where the other one writes, and not where it writes itself. -/
theorem sockets_in_order (h : Reachable Started step (BothSides client server) c)
    (hconnected : c.Connected client server) :
    c.received server <+: c.sent client ∧ c.received client <+: c.sent server ∧
      ∃ tx rx, tx ≠ rx ∧ c.drivers.readSide server = some rx ∧ c.drivers.writeSide client = some rx ∧
        c.drivers.readSide client = some tx ∧ c.drivers.writeSide server = some tx := by
  have hi : InOrder client server c := by
    clear hconnected
    induction h with
    | start h => exact .start h
    | next hr hst hg ih =>
      have hk := kernel_reachable hr
      exact ih.step (State.sound_of_run hk) (State.live_of_run hk) hst hg
  obtain ⟨b,hc,hs⟩ := hconnected
  obtain ⟨ht,hf⟩ := hi.carried b hc (.inr hs)
  refine ⟨ht.isPrefix,hf.isPrefix,2 * b,2 * b+1,by omega,?_⟩
  exact ⟨(hi.laid.sides hs).1,(hi.laid.sides hc).2,
    (hi.laid.sides hc).1,(hi.laid.sides hs).2⟩

def sidesOnly (client server : Nat) (c : Conversation) (call : State.Call) : Bool :=
  match call, c.kernel.caller with
  | .file request, some p =>
    (c.kernel.vfs.received p.processID request).all (fun x => x.1 = client ∨ x.1 = server) &&
      match request with
      | .write _ _ n _ => (c.kernel.vfs.sent p.processID request).all fun x =>
          (x.1 = client ∨ x.1 = server) ∧ n ≤ c.drivers.capacity x.1
      | _ => true
  | _, _ => true

theorem bothSides_of_sidesOnly (h : sidesOnly client server c call = true) : BothSides client server c call c' := by
  constructor
  · rintro p request socket bytes hp rfl hr
    simp only [sidesOnly,hp,hr,all_some,Bool.and_eq_true,decide_eq_true_eq] at h
    exact fun _ _ _ _ _ => h.1
  rintro p procfd buffer n device socket bytes hp rfl hs
  simp only [sidesOnly,hp,hs,all_some,Bool.and_eq_true,decide_eq_true_eq] at h
  exact ⟨fun _ _ _ _ _ => h.2.1,h.2.2⟩

/-- A process connects to itself and sends two bytes, of which one has been read. -/
theorem sockets_in_order_one : ∃ c, Reachable Started step (BothSides 1 2) c ∧
    c.Connected 1 2 ∧ c.sent 1 = [65#8,66#8] ∧ c.received 2 = [65#8] ∧
      c.received 2 <+: c.sent 1 ∧ c.received 1 <+: c.sent 2 := by
  obtain ⟨c,hr,hcl,hs,hse,hre⟩ :
      ∃ c, Reachable Started step (BothSides 1 2) c ∧ c.drivers.endpoint 1 = some (.client,1) ∧
        c.drivers.endpoint 2 = some (.server,1) ∧ c.sent 1 = [65#8,66#8] ∧ c.received 2 = [65#8] :=
    Reachable.exists_checked (s := ⟨State.initial State.oneFile,fun _ => [],fun _ => []⟩)
      ⟨⟨State.oneFile,rfl⟩,fun _ => rfl,fun _ => rfl⟩ (sidesOnly 1 2)
      (fun _ _ _ => bothSides_of_sidesOnly)
      [.create ['/','a'] true,.timer 0,.file (.socket 0),
        .file (.bind 3 (.lensor16 (.replicate 16 1))),.file (.socket 0),
        .file (.connect 4 (.lensor16 (.replicate 16 1))),.file (.accept 3),
        .file (.write 4 (fun i => [65,66].getD i 0) 2 none),.file (.read 5 1 none)]
      (by decide +kernel)
  have hc : c.Connected 1 2 := ⟨1,hcl,hs⟩
  obtain ⟨ht,hf,-⟩ := sockets_in_order hr hc
  exact ⟨c,hr,hc,hse,hre,ht,hf⟩
end Conversation
end LensorOS.Kernel
