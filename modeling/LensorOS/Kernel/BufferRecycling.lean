import LensorOS.Framework.Recycling
import LensorOS.Kernel.DriverCalls

/-!
# Recycled buffers of pipes and inputs

The drivers put the buffers of closed pipes and inputs on a list of free ones, and take them from
there. A pipe buffer is cleared before, an input buffer is not.
-/
namespace LensorOS.Kernel
open Framework Storage List
/-- The pipes, with the ends that were not deleted. -/
structure PipeDriver where
  drivers : Drivers
  ends : List (Nat × PipeEnd)

inductive PipeCall
  | layPipe
  | close (pipe : Nat) (pipeEnd : PipeEnd)
  | read (pipe : Nat) (pipeEnd : PipeEnd) (pid byteCount : Nat)
  | write (pipe : Nat) (pipeEnd : PipeEnd) (pid : Nat) (buffer : Bytes) (byteCount : Nat)

namespace PipeDriver
open Drivers
variable {s s' : PipeDriver} {pipe : Nat} {pipeEnd : PipeEnd} {b b' : PipeBuffer}
def step (s : PipeDriver) : PipeCall → Option PipeDriver
  | .layPipe =>
    let (pipe,drivers) := s.drivers.layPipe
    some ⟨drivers,(pipe,.read) :: (pipe,.write) :: s.ends⟩
  | .close pipe pipeEnd =>
    if (pipe,pipeEnd) ∈ s.ends then
      some ⟨(s.drivers.closePipe pipe pipeEnd).1,s.ends.erase (pipe,pipeEnd)⟩
    else none
  | .read pipe pipeEnd pid byteCount =>
    if (pipe,pipeEnd) ∈ s.ends then
      some { s with drivers := (s.drivers.readPipe pipe pid byteCount).drivers }
    else none
  | .write pipe pipeEnd pid buffer byteCount =>
    if (pipe,pipeEnd) ∈ s.ends then
      some { s with drivers := (s.drivers.writePipe pipe pid buffer byteCount).drivers }
    else none

def Started (s : PipeDriver) : Prop := s = ⟨.initial,[]⟩

/-- A buffer that is not free has the flags of the ends that were not deleted. -/
structure Recycles (s : PipeDriver) : Prop where
  pool : Pool (· = freshPipe) s.drivers.pipes s.drivers.freePipeBuffers (s.ends.map Prod.fst)
  once : s.ends.Nodup
  flags : ∀ pipe b, pipe ∉ s.drivers.freePipeBuffers → s.drivers.pipes[pipe]? = some b →
    ∀ pipeEnd, isClosed b pipeEnd = false ↔ (pipe,pipeEnd) ∈ s.ends

theorem layPipe_eq (d : Drivers) : d.layPipe =
    ((takeFree freshPipe d.pipes d.freePipeBuffers).1, { d with
      pipes := (takeFree freshPipe d.pipes d.freePipeBuffers).2.1
      freePipeBuffers := (takeFree freshPipe d.pipes d.freePipeBuffers).2.2 }) := by
  unfold layPipe
  cases d.freePipeBuffers with
  | nil => simp [takeFree,freshPipe]
  | cons pipe rest => rfl

theorem isClosed_read (b : PipeBuffer) (pid n : Nat) (pipeEnd : PipeEnd) :
    isClosed (b.read pid n).buffer pipeEnd = isClosed b pipeEnd := by
  cases pipeEnd <;> grind [PipeBuffer.read,isClosed]

theorem isClosed_write (b : PipeBuffer) (pid : Nat) (buffer : Bytes) (n : Nat) (pipeEnd : PipeEnd) :
    isClosed (b.write pid buffer n).buffer pipeEnd = isClosed b pipeEnd := by
  cases pipeEnd <;> grind [PipeBuffer.write,isClosed]

namespace Recycles
variable (h : Recycles s)
include h
theorem layPipe : Recycles ⟨s.drivers.layPipe.2,
    (s.drivers.layPipe.1,.read) :: (s.drivers.layPipe.1,.write) :: s.ends⟩ := by
  obtain ⟨⟨hu,b,hb,rfl⟩,hp⟩ := h.pool.take freshPipe rfl
  rw [layPipe_eq]
  have ho {pipe : Nat} := takeFree_other freshPipe s.drivers.pipes s.drivers.freePipeBuffers (i := pipe)
  generalize takeFree freshPipe s.drivers.pipes s.drivers.freePipeBuffers = taken at *
  have hn : ∀ pipeEnd, (taken.1,pipeEnd) ∉ s.ends := fun pipeEnd hend => hu (mem_map_of_mem hend)
  refine ⟨hp.shrink (by simp),by simp [h.once,hn],fun pipe b hf hs pipeEnd => ?_⟩
  by_cases he : pipe = taken.1
  · subst he
    cases hb.symm.trans hs
    cases pipeEnd <;> simp [isClosed,freshPipe]
  obtain ⟨hsa,hi⟩ := ho he
  rw [h.flags pipe b (mt hi.mpr hf) (hsa.symm.trans hs) pipeEnd]
  simp [he]

section
variable (hend : (pipe,pipeEnd) ∈ s.ends)
include hend
theorem buffer : ∃ b, s.drivers.pipes[pipe]? = some b ∧ pipe ∉ s.drivers.freePipeBuffers :=
  ⟨_,getElem?_eq_getElem (h.pool.inside pipe (mem_map_of_mem hend)),
    fun hf => (h.pool.idle pipe hf).1 (mem_map_of_mem hend)⟩

theorem update (hb : s.drivers.pipes[pipe]? = some b)
    (hf : ∀ pipeEnd, isClosed b' pipeEnd = isClosed b pipeEnd) :
    Recycles { s with drivers := { s.drivers with pipes := s.drivers.pipes.set pipe b' } } := by
  refine ⟨h.pool.set (mem_map_of_mem hend) b',h.once,fun other b'' hfr hs otherEnd => ?_⟩
  by_cases he : pipe = other
  · subst he
    rw [getElem?_set_self (lt_of_getElem? hb)] at hs
    cases hs
    rw [hf]
    exact h.flags pipe b hfr hb otherEnd
  · rw [getElem?_set_ne he] at hs
    exact h.flags other b'' hfr hs otherEnd

theorem close : Recycles ⟨(s.drivers.closePipe pipe pipeEnd).1,s.ends.erase (pipe,pipeEnd)⟩ := by
  obtain ⟨b,hb,hfre⟩ := h.buffer hend
  have hlt := lt_of_getElem? hb
  have hop := (h.flags pipe b hfre hb pipeEnd).mpr hend
  have ho := h.flags pipe b hfre hb (otherEnd pipeEnd)
  have hm : ∀ k, k ∈ s.ends.erase (pipe,pipeEnd) ↔ k ≠ (pipe,pipeEnd) ∧ k ∈ s.ends := fun k => h.once.mem_erase_iff
  have hp := h.pool.set (mem_map_of_mem hend) (b.close pipeEnd).1
  have hsu := map_subset Prod.fst (erase_subset (a := (pipe,pipeEnd)) (l := s.ends))
  have hf : ∀ pipe' b', pipe' ≠ pipe → pipe' ∉ s.drivers.freePipeBuffers →
      (s.drivers.pipes.set pipe (b.close pipeEnd).1)[pipe']? = some b' →
      ∀ e, isClosed b' e = false ↔ (pipe',e) ∈ s.ends.erase (pipe,pipeEnd) := by
    intro pipe' b' hn hf' hs e
    rw [getElem?_set_ne (Ne.symm hn)] at hs
    rw [h.flags pipe' b' hf' hs e,hm]
    simp [hn]
  have hfr := congrArg (·.2.2) (close_open hop)
  have hbu := congrArg Prod.fst (close_open hop)
  rw [closePipe_eq hb,hfr]
  cases hc : isClosed b (otherEnd pipeEnd) with
  | true =>
    have hl : pipe ∉ (s.ends.erase (pipe,pipeEnd)).map Prod.fst := by
      intro hpi
      obtain ⟨⟨pipe',e⟩,he,hsa⟩ := mem_map.mp hpi
      cases hsa
      obtain ⟨hn,he⟩ := (hm _).mp he
      cases pipeEnd <;> cases e <;> simp_all [otherEnd]
    refine ⟨hp.give (mem_map_of_mem hend) hl hsu (getElem?_set_self hlt)
      (hbu.trans (if_pos hc)),h.once.erase _,fun pipe' b' hf' hs e => ?_⟩
    obtain ⟨hn,hf'⟩ := not_or.mp (mt mem_cons.mpr hf')
    exact hf pipe' b' hn hf' hs e
  | false =>
    refine ⟨hp.shrink hsu,h.once.erase _,fun pipe' b' hf' hs e => ?_⟩
    by_cases he : pipe' = pipe
    · subst he
      rw [getElem?_set_self hlt,hbu,if_neg (by simp [hc])] at hs
      cases hs
      rw [hm]
      cases pipeEnd <;> cases e <;> simp_all [isClosed,otherEnd,shut]
    · exact hf pipe' b' he hf' hs e
end

theorem step {call : PipeCall} (hs : s.step call = some s') : Recycles s' := by
  cases call with
  | layPipe =>
    cases hs
    exact h.layPipe
  | close pipe pipeEnd =>
    obtain ⟨hend,he⟩ := Option.ite_none_right_eq_some.mp hs
    cases he
    exact h.close hend
  | read pipe pipeEnd pid byteCount =>
    obtain ⟨hend,he⟩ := Option.ite_none_right_eq_some.mp hs
    obtain ⟨b,hb,-⟩ := h.buffer hend
    cases he
    rw [readPipe,hb]
    exact h.update hend hb (isClosed_read b pid byteCount)
  | write pipe pipeEnd pid buffer byteCount =>
    obtain ⟨hend,he⟩ := Option.ite_none_right_eq_some.mp hs
    obtain ⟨b,hb,-⟩ := h.buffer hend
    cases he
    rw [writePipe,hb]
    exact h.update hend hb (isClosed_write b pid buffer byteCount)
end Recycles

theorem recycles_of_run (h : Reachable Started step anyStep s) : Recycles s := by
  refine h.invariant ?_ fun s call s' hs hst _ => hs.step hst
  rintro s rfl
  exact ⟨⟨nodup_nil,by simp [Drivers.initial],by simp⟩,nodup_nil,by simp [Drivers.initial]⟩

/-- A free buffer is listed once and has no end left, and the buffer of a new pipe is empty, open
at both ends, waited for by nobody, and not one of another pipe. -/
theorem layPipe_recycles (h : Reachable Started step anyStep s) : (s.drivers.freePipeBuffers.Nodup ∧
      ∀ pipe ∈ s.drivers.freePipeBuffers, ∀ pipeEnd, (pipe,pipeEnd) ∉ s.ends) ∧
    (∀ pipe b, pipe ∉ s.drivers.freePipeBuffers → s.drivers.pipes[pipe]? = some b →
      ∀ pipeEnd, isClosed b pipeEnd = false ↔ (pipe,pipeEnd) ∈ s.ends) ∧
    (∃ b, s.drivers.layPipe.2.pipes[s.drivers.layPipe.1]? = some b ∧ b.stream.offset = 0 ∧
      b.readClosed = false ∧ b.writeClosed = false ∧
      b.pidsWaitingOnReadToWrite = [] ∧ b.pidsWaitingOnWriteToRead = []) ∧
    ∀ pipeEnd, (s.drivers.layPipe.1,pipeEnd) ∉ s.ends := by
  have hs := recycles_of_run h
  obtain ⟨⟨hu,b,hb,rfl⟩,-⟩ := hs.pool.take freshPipe rfl
  rw [layPipe_eq]
  exact ⟨⟨hs.pool.nodup,
      fun pipe hf pipeEnd hend => (hs.pool.idle pipe hf).1 (mem_map_of_mem hend)⟩,
    hs.flags,⟨_,hb,rfl,rfl,rfl,rfl,rfl⟩,fun pipeEnd hend => hu (mem_map_of_mem hend)⟩

/-- A pipe closed with a byte in it, whose buffer is used again. -/
theorem layPipe_recycles_one : ∃ s, Reachable Started step anyStep s ∧
    s.drivers.freePipeBuffers = [0] ∧ ∀ pipeEnd, (s.drivers.layPipe.1,pipeEnd) ∉ s.ends := by
  obtain ⟨s,hr,hf⟩ : ∃ s, Reachable Started step anyStep s ∧ s.drivers.freePipeBuffers = [0] :=
    Reachable.exists_run rfl [.layPipe,.write 0 .write 1 (fun _ => 7) 1,.close 0 .write,
      .close 0 .read] (by decide +kernel)
  exact ⟨s,hr,hf,(layPipe_recycles hr).2.2.2⟩
end PipeDriver

/-- The inputs, with the names in the table and the descriptions that were not destroyed, by name
and buffer. An entry of the table does not keep its description. -/
structure InputDriver where
  drivers : Drivers
  names : List (List Char)
  live : List (List Char × Nat)

inductive InputCall
  | open (path : List Char)
  | close (file : List Char × Nat)
  | read (file : List Char × Nat) (pid bytes : Nat)
  | write (file : List Char × Nat) (buffer : Bytes) (bytes : Nat)

namespace InputDriver
variable {s s' : InputDriver} {P : InputBuffer → Prop} {file : List Char × Nat}
def «open» (s : InputDriver) (path : List Char) : Option (List Char × Nat) × InputDriver :=
  if path ∈ s.names then (s.live.find? fun file => file.1 = path, s)
  else
    let (input,drivers) := s.drivers.openInput
    (some (path,input), ⟨drivers,s.names ++ [path],(path,input) :: s.live⟩)

def step (s : InputDriver) : InputCall → Option InputDriver
  | .open path => some (s.open path).2
  | .close file =>
    if file ∈ s.live then some { s with
      drivers := (s.drivers.close (.input file.2)).1
      live := s.live.erase file }
    else none
  | .read file pid bytes =>
    if file ∈ s.live then some { s with drivers := (s.drivers.readInput file.2 pid bytes).drivers }
    else none
  | .write file buffer bytes =>
    if file ∈ s.live then
      some { s with drivers := (s.drivers.writeInput file.2 buffer bytes).drivers }
    else none

def Started (s : InputDriver) : Prop := s = ⟨.initial,[],[]⟩
def Clean (b : InputBuffer) : Prop := b.stream.offset = 0 ∧ b.pidsWaiting = []

/-- No input is closed with bytes in it or processes that wait for it. -/
def ClosesClean (s : InputDriver) (call : InputCall) (_ : InputDriver) : Prop :=
  ∀ file b, call = .close file → s.drivers.inputs[file.2]? = some b → Clean b

structure Recycles (P : InputBuffer → Prop) (s : InputDriver) : Prop where
  pool : Pool P s.drivers.inputs s.drivers.freeInputBuffers (s.live.map Prod.snd)
  unique : (s.live.map Prod.snd).Nodup

def freshInput : InputBuffer := ⟨⟨fun _ => 0,0⟩,[]⟩

theorem openInput_eq (d : Drivers) : d.openInput =
    ((takeFree freshInput d.inputs d.freeInputBuffers).1, { d with
      inputs := (takeFree freshInput d.inputs d.freeInputBuffers).2.1
      freeInputBuffers := (takeFree freshInput d.inputs d.freeInputBuffers).2.2 }) := by
  unfold Drivers.openInput
  cases d.freeInputBuffers <;> rfl

theorem Recycles.step (h : Recycles P s) (hf : P freshInput) {call : InputCall}
    (hs : s.step call = some s')
    (hP : ∀ file b, call = .close file → s.drivers.inputs[file.2]? = some b → P b) :
    Recycles P s' := by
  have hu : ∀ {file}, file ∈ s.live → ∀ b, Recycles P { s with drivers.inputs := s.drivers.inputs.set file.2 b } :=
    fun hfi b => ⟨h.pool.set (mem_map_of_mem hfi) b,h.unique⟩
  cases call with
  | «open» path =>
    cases hs
    unfold InputDriver.open
    split
    · exact h
    obtain ⟨⟨hun,-⟩,hp⟩ := h.pool.take freshInput hf
    rw [openInput_eq]
    exact ⟨hp,nodup_cons.mpr ⟨hun,h.unique⟩⟩
  | close file =>
    obtain ⟨hfi,he⟩ := Option.ite_none_right_eq_some.mp hs
    cases he
    have hpe := (perm_cons_erase hfi).map Prod.snd
    obtain ⟨hl,huni⟩ := nodup_cons.mp (hpe.nodup_iff.mp h.unique)
    have hsl := getElem?_eq_getElem (h.pool.inside _ (mem_map_of_mem hfi))
    exact ⟨h.pool.give (mem_map_of_mem hfi) hl (map_subset _ erase_subset) hsl (hP file _ rfl hsl),huni⟩
  | read file pid bytes =>
    obtain ⟨hfi,he⟩ := Option.ite_none_right_eq_some.mp hs
    cases he
    unfold Drivers.readInput
    split
    · exact h
    · exact hu hfi _
  | write file buffer bytes =>
    obtain ⟨hfi,he⟩ := Option.ite_none_right_eq_some.mp hs
    cases he
    unfold Drivers.writeInput
    split
    · exact h
    · exact hu hfi _

theorem recycles_started (h : Started s) : Recycles P s := by
  subst h
  exact ⟨⟨nodup_nil,by simp [Drivers.initial],by simp⟩,nodup_nil⟩

/-- No two descriptions share a buffer. While no input is closed with bytes in it or processes that
wait for it, a new one has neither. -/
theorem open_clean {guard : InputDriver → InputCall → InputDriver → Prop}
    (h : Reachable Started step guard s) : (s.live.map Prod.snd).Nodup ∧
    ((∀ s call s', guard s call s' → ClosesClean s call s') →
      ∀ path, path ∉ s.names → ∃ input b, (s.open path).1 = some (path,input) ∧
        (s.open path).2.drivers.inputs[input]? = some b ∧ b.stream.offset = 0 ∧
        b.pidsWaiting = []) := by
  constructor
  · have ha : Recycles (fun _ => True) s :=
      h.invariant (fun s hs => recycles_started hs) fun s call s' hs hst _ =>
        hs.step trivial hst fun _ _ _ _ => trivial
    exact ha.unique
  intro hc path hp
  have hs := h.invariant (fun s hs => recycles_started hs) fun s call s' hs hst hg =>
      hs.step ⟨rfl,rfl⟩ hst (hc s call s' hg)
  obtain ⟨⟨-,b,hb,ho,hw⟩,-⟩ := hs.pool.take freshInput ⟨rfl,rfl⟩
  rw [InputDriver.open,if_neg hp,openInput_eq]
  exact ⟨_,b,rfl,hb,ho,hw⟩

/-- An input that is written, read and closed, before another is opened. -/
theorem open_clean_two : ∃ s input b, Reachable Started step ClosesClean s ∧
    s.drivers.freeInputBuffers = [0] ∧ (s.open ['b']).1 = some (['b'],input) ∧
      (s.open ['b']).2.drivers.inputs[input]? = some b ∧ b.stream.offset = 0 := by
  obtain ⟨s,hr,hf,hn⟩ : ∃ s, Reachable Started step ClosesClean s ∧
      s.drivers.freeInputBuffers = [0] ∧ ['b'] ∉ s.names := by
    refine Reachable.exists_checked rfl (fun s call =>
      match call with
      | .close file => s.drivers.inputs[file.2]?.all fun b =>
          b.stream.offset = 0 ∧ b.pidsWaiting = []
      | _ => true) ?_ [.open ['a'],.write (['a'],0) (fun _ => 7) 1,.read (['a'],0) 1 1,
        .close (['a'],0)] (by decide +kernel)
    rintro s call s' ht file b rfl hb
    simpa [hb,Clean] using ht
  obtain ⟨input,b,hop,hb,ho,-⟩ := (open_clean hr).2 (fun _ _ _ h => h) ['b'] hn
  exact ⟨s,input,b,hr,hf,hop,hb,ho⟩

/-- The byte left in an input that is closed is found in the next one. -/
theorem open_dirty : ∃ s, Reachable Started step anyStep s ∧ ['b'] ∉ s.names ∧
    (s.open ['b']).1 = some (['b'],0) ∧
    ((s.open ['b']).2.drivers.inputs[0]?.any fun b => b.stream.offset = 1) = true :=
  Reachable.exists_run rfl [.open ['a'],.write (['a'],0) (fun _ => 7) 1,.close (['a'],0)]
    (by decide +kernel)
end InputDriver
end LensorOS.Kernel
