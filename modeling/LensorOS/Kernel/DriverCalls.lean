import LensorOS.Framework.WaitLists
import LensorOS.Kernel.Descriptors

/-!
# What calls do to waiting processes

The lists of waiting processes that the drivers keep. Apart from a transfer, a call only makes new
buffers and closes files.
-/
namespace LensorOS.Kernel
open Framework Storage Scheduler List Function Drains
def pairs (wakes : List WakeUp) : List (Nat × WaitObject) := wakes.map fun wake => (wake.pid,wake.cause)

@[simp] theorem pairs_nil : pairs [] = [] := rfl

@[simp] theorem pairs_append (wakes wakes' : List WakeUp) :
    pairs (wakes ++ wakes') = pairs wakes ++ pairs wakes' := map_append

@[simp] theorem pairs_wakeUps (cause : WaitObject) (returnValue : BitVec 64) (pids : List Nat) :
    pairs (wakeUps cause returnValue pids) = pids.map fun pid => (pid,cause) := by simp [pairs,wakeUps]

def freshPipe : PipeBuffer := ⟨⟨fun _ => 0,0⟩,false,false,[],[]⟩

namespace Drivers
variable {d d' : Drivers} {pipe : Nat}
def listed (d : Drivers) : WaitObject → List Nat
  | .pipeToRead pipe => (d.pipes[pipe]?.map PipeBuffer.pidsWaitingOnWriteToRead).getD []
  | .pipeToWrite pipe => (d.pipes[pipe]?.map PipeBuffer.pidsWaitingOnReadToWrite).getD []
  | .fifoToRead fifo => (d.fifos[fifo]?.map FIFOBuffer.pidsWaitingUntilWrite).getD []
  | .fifoToWrite fifo => (d.fifos[fifo]?.map FIFOBuffer.pidsWaitingUntilRead).getD []
  | .input input => (d.inputs[input]?.map InputBuffer.pidsWaiting).getD []
  | .exitOf _ => []
  | .connection _ => []
  | .replacement => []

theorem listed_setPipe (h : pipe < d.pipes.length) (b : PipeBuffer) (freePipeBuffers : List Nat) :
    listed { d with pipes := d.pipes.set pipe b, freePipeBuffers := freePipeBuffers } =
      update (update d.listed (.pipeToRead pipe) b.pidsWaitingOnWriteToRead)
        (.pipeToWrite pipe) b.pidsWaitingOnReadToWrite := by
  funext o
  cases o with
  | pipeToRead i | pipeToWrite i =>
    by_cases hi : i = pipe
    · simp [listed,hi,h]
    · simp [listed,hi,Ne.symm hi]
  | _ => simp [listed]

theorem listed_pipe {b : PipeBuffer} (hb : d.pipes[pipe]? = some b) :
    pipe < d.pipes.length ∧
    d.listed (.pipeToRead pipe) = b.pidsWaitingOnWriteToRead ∧
    d.listed (.pipeToWrite pipe) = b.pidsWaitingOnReadToWrite :=
  ⟨lt_of_getElem? hb,by simp [listed,hb],by simp [listed,hb]⟩

theorem listed_fifo {fifo : Nat} {b : FIFOBuffer} (hb : d.fifos[fifo]? = some b) :
    fifo < d.fifos.length ∧ d.listed (.fifoToRead fifo) = b.pidsWaitingUntilWrite ∧
      d.listed (.fifoToWrite fifo) = b.pidsWaitingUntilRead :=
  ⟨lt_of_getElem? hb,by simp [listed,hb],by simp [listed,hb]⟩

theorem listed_setFifo {fifo : Nat} (h : fifo < d.fifos.length) (b : FIFOBuffer) :
    listed { d with fifos := d.fifos.set fifo b } =
      update (update d.listed (.fifoToRead fifo) b.pidsWaitingUntilWrite)
        (.fifoToWrite fifo) b.pidsWaitingUntilRead := by
  funext o
  cases o with
  | fifoToRead i | fifoToWrite i =>
    by_cases hi : i = fifo
    · simp [listed,hi,h]
    · simp [listed,hi,Ne.symm hi]
  | _ => simp [listed]

theorem listed_setInput {input : Nat} (h : input < d.inputs.length) (b : InputBuffer) :
    listed { d with inputs := d.inputs.set input b } =
      update d.listed (.input input) b.pidsWaiting := by
  funext o
  cases o with
  | input i =>
    by_cases hi : i = input
    · simp [listed,hi,h]
    · simp [listed,hi,Ne.symm hi]
  | _ => simp [listed]

/-- A transfer by a process either drains lists, or puts the process on one. -/
inductive Transfers (pid : Nat) (d : Drivers) (effect : Effect) : Prop
  | drained (hreply : ∀ object, effect.reply ≠ .blocks object)
      (hdrains : Drains d.listed effect.drivers.listed (pairs effect.wakes))
      (hreaders : ∀ pipe, WakesAll d.listed effect.drivers.listed (pairs effect.wakes)
        (.pipeToRead pipe))
  | blocked (object : WaitObject) (hreply : effect.reply = .blocks object)
      (hwakes : effect.wakes = [])
      (hlisted : effect.drivers.listed = update d.listed object (d.listed object ++ [pid]))

section
variable {pid : Nat}
theorem Transfers.same {reply : Reply} (hr : ∀ object, reply ≠ .blocks object)
    (hl : d'.listed = d.listed) : Transfers pid d ⟨reply,d',[]⟩ := by
  refine .drained hr ?_ ?_
  · rw [hl]
    exact refl _
  · intro pipe i hi
    exact .inl (hl ▸ hi)

theorem Transfers.wakes {bytes : List (BitVec 8)} {object object' : WaitObject} {pids : List Nat}
    (hp : d.listed object = pids) (hl : d'.listed = update d.listed object []) :
    Transfers pid d ⟨.of object' (.done bytes),d',wakeUps object (-2) pids⟩ := by
  subst hp
  refine .drained (by simp [Reply.of]) ?_ ?_
  · rw [pairs_wakeUps,hl]
    exact all _ _
  intro pipe i hi
  rw [pairs_wakeUps,hl]
  by_cases ho : WaitObject.pipeToRead pipe = object
  · subst ho
    exact .inr (mem_map_of_mem hi)
  · exact .inl (by simpa [ho] using hi)

variable (d : Drivers)
theorem readFifo_transfers (fifo pid n : Nat) : Transfers pid d (d.readFifo fifo pid n) := by
  unfold readFifo
  split
  · exact .same (by simp) rfl
  next b hb =>
  obtain ⟨hl,hr,hw⟩ := listed_fifo hb
  by_cases he : b.stream.offset = 0
  · have ho : b.read pid n = ⟨.blocks,{ b with
        pidsWaitingUntilWrite := b.pidsWaitingUntilWrite ++ [pid] },[]⟩ := if_pos he
    simp only [ho]
    refine .blocked (.fifoToRead fifo) rfl rfl ?_
    simp [listed_setFifo hl,← hr,← hw]
  · simp only [FIFOBuffer.read,he,if_false]
    refine .wakes hw ?_
    simp [listed_setFifo hl,← hr]

theorem writeFifo_transfers (fifo pid : Nat) (buffer : Bytes) (n : Nat) :
    Transfers pid d (d.writeFifo fifo pid buffer n) := by
  unfold writeFifo
  split
  · exact .same (by simp) rfl
  next b hb =>
  obtain ⟨hl,hr,hw⟩ := listed_fifo hb
  by_cases hf : (b.stream.offset+n) % 2^64 > b.size
  · have ho : b.write pid buffer n = ⟨.blocks,{ b with
        pidsWaitingUntilRead := b.pidsWaitingUntilRead ++ [pid] },[]⟩ := if_pos hf
    simp only [ho]
    refine .blocked (.fifoToWrite fifo) rfl rfl ?_
    simp [listed_setFifo hl,← hr,← hw]
  · simp only [FIFOBuffer.write,hf,if_false]
    refine .wakes hr ?_
    simp [listed_setFifo hl,← hw]

theorem readPipe_transfers (pipe pid n : Nat) : Transfers pid d (d.readPipe pipe pid n) := by
  unfold readPipe
  split
  · exact .same (by simp) rfl
  next b hb =>
  obtain ⟨hl,hr,hw⟩ := listed_pipe hb
  by_cases he : b.stream.offset = 0
  · by_cases hc : b.writeClosed = true
    · simp only [PipeBuffer.read,he,hc,if_true]
      refine .same (by simp [Reply.of]) ?_
      rw [listed_setPipe hl]
      simp [← hr,← hw]
    have ho : b.read pid n = ⟨.blocks,{ b with
        pidsWaitingOnWriteToRead := b.pidsWaitingOnWriteToRead ++ [pid] },[]⟩ := by
      rw [PipeBuffer.read,if_pos he,if_neg hc]
    simp only [ho]
    refine .blocked (.pipeToRead pipe) rfl rfl ?_
    rw [listed_setPipe hl]
    simp [← hr,← hw]
  · simp only [PipeBuffer.read,he,if_false]
    refine .wakes hw ?_
    rw [listed_setPipe hl]
    simp [← hr]

theorem writePipe_transfers (pipe pid : Nat) (buffer : Bytes) (n : Nat) :
    Transfers pid d (d.writePipe pipe pid buffer n) := by
  unfold writePipe
  split
  · exact .same (by simp) rfl
  next b hb =>
  obtain ⟨hl,hr,hw⟩ := listed_pipe hb
  by_cases hz : n = 0
  · simp only [PipeBuffer.write,hz,if_true]
    refine .same (by simp [Reply.of]) ?_
    rw [listed_setPipe hl]
    simp [← hr,← hw]
  generalize hc : (if n > pipeBufSize then pipeBufSize else n) = count
  by_cases hf : (b.stream.offset+count) % 2^64 > pipeBufSize
  · have ho : b.write pid buffer n = ⟨.blocks,{ b with
        pidsWaitingOnReadToWrite := b.pidsWaitingOnReadToWrite ++ [pid] },[]⟩ := by
      rw [PipeBuffer.write,if_neg hz,hc]
      exact if_pos hf
    simp only [ho]
    refine .blocked (.pipeToWrite pipe) rfl rfl ?_
    rw [listed_setPipe hl]
    simp [← hr,← hw]
  · simp only [PipeBuffer.write,hz,hc,hf,if_false]
    refine .wakes hr ?_
    rw [listed_setPipe hl]
    simp [← hw]

theorem readInput_transfers (input pid n : Nat) : Transfers pid d (d.readInput input pid n) := by
  unfold readInput
  split
  · exact .same (by simp) rfl
  next b hb =>
  have hl := lt_of_getElem? hb
  have hr : d.listed (.input input) = b.pidsWaiting := by simp [listed,hb]
  by_cases he : b.stream.offset = 0
  · have ho : b.read pid n = ⟨.blocks,{ b with pidsWaiting := b.pidsWaiting ++ [pid] },[]⟩ :=
      if_pos he
    simp only [ho]
    refine .blocked (.input input) rfl rfl ?_
    simp [listed_setInput hl,← hr]
  · simp only [InputBuffer.read,he,if_false]
    refine .same (by simp [Reply.of]) ?_
    simp [listed_setInput hl,← hr]

theorem writeInput_transfers (input pid : Nat) (buffer : Bytes) (n : Nat) :
    Transfers pid d (d.writeInput input buffer n) := by
  unfold writeInput
  split
  · exact .same (by simp) rfl
  next b hb =>
  have hl := lt_of_getElem? hb
  have hr : d.listed (.input input) = b.pidsWaiting := by simp [listed,hb]
  simp only [InputBuffer.write]
  refine .wakes hr ?_
  simp [listed_setInput hl]

theorem read_transfers (data : DriverData) (pid n : Nat) (device : Option Nat) :
    Transfers pid d (d.read data pid n device) := by
  cases data with
  | dbgOut => exact .same (by simp) rfl
  | fileAllocationTable byteOffset =>
    cases device with
    | none | some count => exact .same (by simp [deviceReply]) rfl
  | input input => exact d.readInput_transfers input pid n
  | pipe pipe pipeEnd => exact d.readPipe_transfers pipe pid n
  | socket socket =>
    change Transfers pid d (d.readSocket socket pid n)
    unfold readSocket
    split
    · exact .same (by simp) rfl
    all_goals exact d.readFifo_transfers _ pid n

theorem write_transfers (data : DriverData) (pid : Nat) (buffer : Bytes) (n : Nat)
    (device : Option Nat) : Transfers pid d (d.write data pid buffer n device) := by
  cases data with
  | dbgOut => exact .same (by simp) rfl
  | fileAllocationTable byteOffset =>
    cases device with
    | none | some count => exact .same (by simp [deviceReply]) rfl
  | input input => exact d.writeInput_transfers input pid buffer n
  | pipe pipe pipeEnd => exact d.writePipe_transfers pipe pid buffer n
  | socket socket =>
    change Transfers pid d (d.writeSocket socket pid buffer n)
    unfold writeSocket
    split
    · exact .same (by simp) rfl
    all_goals exact d.writeFifo_transfers _ pid buffer n
end

def AllPipes (P : PipeBuffer → Prop) (d : Drivers) : Prop := ∀ b ∈ d.pipes, P b

/-- A process waits to read only from a pipe that is empty and can still be written. -/
def ReadersTidy (b : PipeBuffer) : Prop := b.pidsWaitingOnWriteToRead ≠ [] → b.stream.offset = 0 ∧ b.writeClosed = false

/-- Apart from a new pipe, the lists and the pipes are the same. -/
structure Quiet (d d' : Drivers) : Prop where
  listed : d'.listed = d.listed
  pipes : d'.pipes = d.pipes ∨ d'.pipes = d.pipes ++ [freshPipe]

/-- New buffers and closed ends of pipes, with the wake-ups. -/
inductive Serves : Drivers → List WakeUp → Drivers → Prop
  | refl (d : Drivers) : Serves d [] d
  | quiet {d d1 d' : Drivers} {wakes : List WakeUp} (h : Quiet d d1) (rest : Serves d1 wakes d') :
      Serves d wakes d'
  | close {d d' : Drivers} {wakes : List WakeUp} (pipe : Nat) (pipeEnd : PipeEnd)
      (rest : Serves (d.closePipe pipe pipeEnd).1 wakes d') :
      Serves d ((d.closePipe pipe pipeEnd).2 ++ wakes) d'

def Passes (d : Drivers) (pipe : Nat) (pipeEnd : PipeEnd) (d' : Drivers) : Prop :=
  ∃ d1 wakes wakes', Serves d wakes d1 ∧ Serves (d1.closePipe pipe pipeEnd).1 wakes' d'

section
variable {wakes wakes' : List WakeUp} {d'' : Drivers} {P : PipeBuffer → Prop} {pipeEnd : PipeEnd} {b : PipeBuffer}
theorem Serves.trans (h : Serves d wakes d') (h' : Serves d' wakes' d'') : Serves d (wakes ++ wakes') d'' := by
  induction h with
  | refl d => exact h'
  | quiet hq rest ih => exact .quiet hq (ih h')
  | close pipe pipeEnd rest ih =>
    rw [append_assoc]
    exact .close pipe pipeEnd (ih h')

theorem Passes.after (h : Serves d wakes d') (h' : Passes d' pipe pipeEnd d'') : Passes d pipe pipeEnd d'' := by
  obtain ⟨d1,wakes1,wakes2,hb,ha⟩ := h'
  exact ⟨d1,_,wakes2,h.trans hb,ha⟩

theorem Passes.before (h : Passes d pipe pipeEnd d') (h' : Serves d' wakes d'') : Passes d pipe pipeEnd d'' := by
  obtain ⟨d1,wakes1,wakes2,hb,ha⟩ := h
  exact ⟨d1,wakes1,_,hb,ha.trans h'⟩

theorem mem_set {b' : PipeBuffer} (h : b' ∈ d.pipes.set pipe b) : b' = b ∨ b' ∈ d.pipes := (mem_or_eq_of_mem_set h).symm

theorem AllPipes.set (h : AllPipes P d) (hb : P b) (pipe : Nat) : ∀ b' ∈ d.pipes.set pipe b, P b' := by
  intro b' hb'
  rcases mem_set hb' with rfl | hb'
  · exact hb
  · exact h b' hb'

theorem AllPipes.at (h : AllPipes P d) (hb : d.pipes[pipe]? = some b) : P b := h b (mem_of_getElem? hb)

theorem AllPipes.serves (hf : P freshPipe)
    (hc : ∀ b pipeEnd, P b → P (b.close pipeEnd).1) (hs : Serves d wakes d')
    (h : AllPipes P d) : AllPipes P d' := by
  induction hs with
  | refl d => exact h
  | quiet hq rest ih =>
    apply ih
    rcases hq.pipes with hsa | hn
    · rw [AllPipes,hsa]
      exact h
    rw [AllPipes,hn]
    intro b hb
    rcases mem_append.mp hb with hb | hb
    · exact h b hb
    · exact mem_singleton.mp hb ▸ hf
  | close pipe pipeEnd rest ih =>
    apply ih
    unfold closePipe
    split
    · exact h
    · next b hb => exact h.set (hc b pipeEnd (h.at hb)) pipe

theorem readers_fresh : ReadersTidy freshPipe := fun h => absurd rfl h
end

section
variable {b : PipeBuffer} {pipeEnd : PipeEnd} {pipe : Nat}
def isClosed (b : PipeBuffer) : PipeEnd → Bool
  | .read => b.readClosed
  | .write => b.writeClosed

def waitingFor (b : PipeBuffer) : PipeEnd → List Nat
  | .read => b.pidsWaitingOnReadToWrite
  | .write => b.pidsWaitingOnWriteToRead

def otherEnd : PipeEnd → PipeEnd
  | .read => .write
  | .write => .read

theorem close_denied (h : isClosed b pipeEnd = true) : b.close pipeEnd = (b,[],false) := by
  cases pipeEnd with
  | read => simp [PipeBuffer.close,show b.readClosed = true from h]
  | write => simp [PipeBuffer.close,show b.writeClosed = true from h]

def shut (b : PipeBuffer) : PipeEnd → PipeBuffer
  | .read => { b with readClosed := true, pidsWaitingOnReadToWrite := [] }
  | .write => { b with writeClosed := true, pidsWaitingOnWriteToRead := [] }

theorem close_open (h : isClosed b pipeEnd = false) : b.close pipeEnd =
    (if isClosed b (otherEnd pipeEnd) then freshPipe else shut b pipeEnd,waitingFor b pipeEnd,
      isClosed b (otherEnd pipeEnd)) := by
  cases pipeEnd with
  | read =>
    cases ho : b.writeClosed with
    | true | false =>
      simp [PipeBuffer.close,show b.readClosed = false from h,ho,isClosed,otherEnd,shut,
        PipeBuffer.clear,freshPipe,waitingFor]
  | write =>
    cases ho : b.readClosed with
    | true | false =>
      simp [PipeBuffer.close,show b.writeClosed = false from h,ho,isClosed,otherEnd,shut,
        PipeBuffer.clear,freshPipe,waitingFor]

theorem close_keeps {P : PipeBuffer → Prop} (h : P b) (hf : P freshPipe)
    (hs : P (shut b pipeEnd)) : P (b.close pipeEnd).1 := by
  cases hc : isClosed b pipeEnd with
  | true =>
    rw [close_denied hc]
    exact h
  | false =>
    rw [close_open hc]
    split
    · exact hf
    · exact hs

theorem readers_close (pipeEnd : PipeEnd) (h : ReadersTidy b) : ReadersTidy (b.close pipeEnd).1 := by
  refine close_keeps h readers_fresh ?_
  cases pipeEnd with
  | read => exact h
  | write => exact fun hl => absurd rfl hl

theorem listed_waitingOn (hb : d.pipes[pipe]? = some b) (pipeEnd : PipeEnd) :
    d.listed (waitingOn pipe pipeEnd) = waitingFor b pipeEnd := by
  cases pipeEnd with
  | read | write => simp [waitingOn,listed,hb,waitingFor]

theorem closePipe_eq (hb : d.pipes[pipe]? = some b) : d.closePipe pipe pipeEnd = ({ d with
        pipes := d.pipes.set pipe (b.close pipeEnd).1
        freePipeBuffers := if (b.close pipeEnd).2.2 then pipe :: d.freePipeBuffers
          else d.freePipeBuffers },
      wakeUps (waitingOn pipe pipeEnd) (-1) (b.close pipeEnd).2.1) := by rw [closePipe,hb]

theorem listed_close (hb : d.pipes[pipe]? = some b) (hop : isClosed b pipeEnd = false) :
    (d.closePipe pipe pipeEnd).1.listed = if isClosed b (otherEnd pipeEnd) then
      update (update d.listed (waitingOn pipe pipeEnd) []) (waitingOn pipe (otherEnd pipeEnd)) []
      else update d.listed (waitingOn pipe pipeEnd) [] := by
  obtain ⟨hl,hr,hw⟩ := listed_pipe hb
  rw [closePipe_eq hb,listed_setPipe hl]
  cases ho : isClosed b (otherEnd pipeEnd) with
  | true =>
    rw [close_open hop,if_pos ho]
    cases pipeEnd with
    | read => exact update_comm (by simp) _ _ _
    | write => rfl
  | false =>
    rw [close_open hop,if_neg (by simp [ho])]
    cases pipeEnd with
    | read =>
      have hs : update d.listed (.pipeToRead pipe) b.pidsWaitingOnWriteToRead =
        d.listed := update_eq_self_iff.mpr hr.symm
      simp only [shut,hs]
      rfl
    | write =>
      have hs : update (update d.listed (.pipeToRead pipe) [])
          (.pipeToWrite pipe) b.pidsWaitingOnReadToWrite =
          update d.listed (.pipeToRead pipe) [] := by
        refine update_eq_self_iff.mpr ?_
        rw [update_of_ne (by simp)]
        exact hw.symm
      exact hs

theorem close_drains (d : Drivers) (pipe : Nat) (pipeEnd : PipeEnd) :
    Drains d.listed (d.closePipe pipe pipeEnd).1.listed (pairs (d.closePipe pipe pipeEnd).2) := by
  cases hb : d.pipes[pipe]? with
  | none =>
    rw [closePipe,hb]
    exact refl _
  | some b =>
    cases ho : isClosed b pipeEnd with
    | true =>
      obtain ⟨hl,hr,hw⟩ := listed_pipe hb
      rw [closePipe_eq hb,close_denied ho,listed_setPipe hl]
      simpa [← hr,← hw,wakeUps] using refl d.listed
    | false =>
      have hwa : pairs (d.closePipe pipe pipeEnd).2 =
          (d.listed (waitingOn pipe pipeEnd)).map fun pid => (pid,waitingOn pipe pipeEnd) := by
        rw [closePipe_eq hb,pairs_wakeUps,listed_waitingOn hb pipeEnd,close_open ho]
      rw [listed_close hb ho,hwa]
      cases isClosed b (otherEnd pipeEnd) with
      | true =>
        have hd := (all d.listed (waitingOn pipe pipeEnd)).trans (drop _ (waitingOn pipe (otherEnd pipeEnd)))
        rw [append_nil] at hd
        exact hd
      | false => exact all d.listed (waitingOn pipe pipeEnd)
end

section
variable {wakes : List WakeUp} {pipe : Nat}
theorem close_readers (h : AllPipes ReadersTidy d) (pipe : Nat) (pipeEnd : PipeEnd)
    (other : Nat) : WakesAll d.listed (d.closePipe pipe pipeEnd).1.listed
      (pairs (d.closePipe pipe pipeEnd).2) (.pipeToRead other) := by
  intro pid hp
  cases hb : d.pipes[pipe]? with
  | none =>
    rw [closePipe,hb]
    exact .inl hp
  | some b =>
    rcases (d.close_drains pipe pipeEnd).kept (.pipeToRead other) with hs | he
    · exact .inl (hs ▸ hp)
    obtain ⟨hl,hr,-⟩ := listed_pipe hb
    cases hop : isClosed b pipeEnd with
    | true =>
      rw [closePipe_eq hb,close_denied hop,listed_setPipe hl,← hr] at he ⊢
      exact .inl (by simpa using hp)
    | false =>
      by_cases ho : other = pipe
      · subst ho
        have ht := h.at hb (ne_nil_of_mem (hr ▸ hp))
        cases pipeEnd with
        | read =>
          rw [listed_close hb hop,if_neg (by simp [otherEnd,isClosed,ht.2])]
          exact .inl (by simpa [waitingOn] using hp)
        | write =>
          refine .inr ?_
          rw [closePipe_eq hb,pairs_wakeUps,close_open hop]
          rw [hr] at hp
          exact mem_map_of_mem hp
      · refine .inl ?_
        rw [listed_close hb hop]
        cases pipeEnd with
        | read | write => split <;> simpa [waitingOn,otherEnd,ho] using hp

theorem Serves.drains (hs : Serves d wakes d') : Drains d.listed d'.listed (pairs wakes) := by
  induction hs with
  | refl d => exact Drains.refl _
  | quiet hq rest ih =>
    rw [← hq.listed]
    exact ih
  | close pipe pipeEnd rest ih =>
    rw [pairs_append]
    exact (close_drains _ pipe pipeEnd).trans ih

theorem AllPipes.readersTidy (h : AllPipes ReadersTidy d) (hs : Serves d wakes d') : AllPipes ReadersTidy d' :=
  h.serves readers_fresh (fun _ pipeEnd => readers_close pipeEnd) hs

theorem Serves.readers (hs : Serves d wakes d') (h : AllPipes ReadersTidy d) (pipe : Nat) :
    WakesAll d.listed d'.listed (pairs wakes) (.pipeToRead pipe) := by
  induction hs with
  | refl d => exact fun pid hp => .inl hp
  | quiet hq rest ih =>
    rw [← hq.listed]
    exact ih (h.readersTidy (.quiet hq (.refl _)))
  | close pipe' pipeEnd rest ih =>
    rw [pairs_append]
    exact (close_readers h pipe' pipeEnd pipe).trans (ih (h.readersTidy (.close pipe' pipeEnd (.refl _))))

theorem close_write (h : AllPipes ReadersTidy d) (pipe : Nat) :
    (d.closePipe pipe .write).1.listed (.pipeToRead pipe) = [] := by
  cases hb : d.pipes[pipe]? with
  | none =>
    rw [closePipe,hb]
    simp [listed,hb]
  | some b =>
    cases ho : isClosed b .write with
    | true =>
      have he : b.pidsWaitingOnWriteToRead = [] := by
        by_contra hl
        have hn := (h.at hb hl).2
        rw [show b.writeClosed = true from ho] at hn
        cases hn
      have hlt := lt_of_getElem? hb
      rw [closePipe_eq hb,close_denied ho,listed_setPipe hlt]
      simp [he]
    | false =>
      rw [listed_close hb ho]
      split <;> simp [waitingOn,otherEnd]

theorem Passes.empty (hp : Passes d pipe .write d') (h : AllPipes ReadersTidy d) :
    d'.listed (.pipeToRead pipe) = [] := by
  obtain ⟨d1,wakes1,wakes2,hb,ha⟩ := hp
  exact ha.drains.empty (close_write (h.readersTidy hb) pipe)
end
end Drivers
end LensorOS.Kernel
