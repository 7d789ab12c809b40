import LensorOS.Kernel.Waiting

/-!
# Waiting for pipes

A process waits to read only while a pipe is empty and can still be written. A write does not look
whether the pipe can still be read.
-/
namespace LensorOS.Kernel
open Framework Storage Scheduler Scheduler.State Option Drivers
namespace Drivers
variable {d : Drivers} {P : PipeBuffer → Prop} {buffer : Bytes}
theorem AllPipes.read (h : AllPipes P d) (hr : ∀ b pid n, P b → P (b.read pid n).buffer)
    (data : DriverData) (pid n : Nat) (device : Option Nat) :
    AllPipes P (d.read data pid n device).drivers := by
  cases data with
  | dbgOut => exact h
  | fileAllocationTable byteOffset => exact h
  | input input =>
    unfold Drivers.read readInput
    dsimp only
    split <;> exact h
  | pipe pipe pipeEnd =>
    unfold Drivers.read readPipe
    dsimp only
    split
    · exact h
    · next b hb => exact h.set (hr b pid n (h.at hb)) pipe
  | socket socket =>
    unfold Drivers.read readSocket readFifo
    dsimp only
    repeat' split
    all_goals exact h

theorem AllPipes.write (h : AllPipes P d) {data : DriverData} {pid n : Nat}
    (hw : ∀ pipe pipeEnd b, data = .pipe pipe pipeEnd → d.pipes[pipe]? = some b → P b →
      P (b.write pid buffer n).buffer) (device : Option Nat) :
    AllPipes P (d.write data pid buffer n device).drivers := by
  cases data with
  | dbgOut => exact h
  | fileAllocationTable byteOffset => exact h
  | input input =>
    unfold Drivers.write writeInput
    dsimp only
    split <;> exact h
  | pipe pipe pipeEnd =>
    unfold Drivers.write writePipe
    dsimp only
    split
    · exact h
    · next b hb => exact h.set (hw pipe pipeEnd b rfl hb (h.at hb)) pipe
  | socket socket =>
    unfold Drivers.write writeSocket writeFifo
    dsimp only
    repeat' split
    all_goals exact h

variable (b : PipeBuffer)
theorem readers_read (pid n : Nat) (h : ReadersTidy b) : ReadersTidy (b.read pid n).buffer := by
  unfold PipeBuffer.read
  split
  · next he =>
    split
    · exact h
    · next ho => exact fun _ => ⟨he,by simpa using ho⟩
  · next hd =>
    intro hl
    exact absurd (h hl).1 hd

/-- A pipe has no room for a write, which has to wait. -/
def NoRoom (n : Nat) : Prop :=
  n ≠ 0 ∧ (b.stream.offset+if n > pipeBufSize then pipeBufSize else n) % 2^64 > pipeBufSize

theorem write_cases (pid : Nat) (buffer : Bytes) (n : Nat) :
    b.write pid buffer n = ⟨.done [],b,[]⟩ ∨ (NoRoom b n ∧ b.write pid buffer n = ⟨.blocks,{ b with
        pidsWaitingOnReadToWrite := b.pidsWaitingOnReadToWrite ++ [pid] },[]⟩) ∨
      ∃ bytes stream, b.write pid buffer n = ⟨.done bytes,{ b with
        stream := stream
        pidsWaitingOnWriteToRead := [] },b.pidsWaitingOnWriteToRead⟩ := by
  by_cases hz : n = 0
  · exact .inl (if_pos hz)
  by_cases hf : (b.stream.offset+if n > pipeBufSize then pipeBufSize else n) % 2^64 > pipeBufSize
  · refine .inr (.inl ⟨⟨hz,hf⟩,?_⟩)
    rw [PipeBuffer.write,if_neg hz]
    exact if_pos hf
  refine .inr (.inr ⟨Stream.bytes buffer (if n > pipeBufSize then pipeBufSize else n),
    b.stream.push buffer (if n > pipeBufSize then pipeBufSize else n),?_⟩)
  rw [PipeBuffer.write,if_neg hz]
  exact if_neg hf

theorem readers_write (pid : Nat) (buffer : Bytes) (n : Nat)
    (h : ReadersTidy b) : ReadersTidy (b.write pid buffer n).buffer := by
  rcases write_cases b pid buffer n with hn | ⟨-,hw⟩ | ⟨bytes,stream,hd⟩
  · rw [hn]
    exact h
  · rw [hw]
    exact h
  · rw [hd]
    exact fun hl => absurd rfl hl

theorem writePipe_empties {pipe pid n count : Nat}
    (hr : (d.writePipe pipe pid buffer n).reply = .done count) (hp : 0 < count) :
    (d.writePipe pipe pid buffer n).drivers.listed (.pipeToRead pipe) = [] := by
  unfold writePipe at hr ⊢
  cases hb : d.pipes[pipe]? with
  | none =>
    rw [hb] at hr
    cases hr
  | some b =>
    have hl := lt_of_getElem? hb
    rw [hb] at hr
    dsimp only at hr ⊢
    rw [listed_setPipe hl,Function.update_of_ne (by simp),Function.update_self]
    rcases write_cases b pid buffer n with hn | ⟨-,hw⟩ | ⟨bytes,stream,hd⟩
    · rw [hn] at hr
      cases hr
      cases hp
    · rw [hw] at hr
      cases hr
    · rw [hd]

/-- A process waits to write only to a pipe that can still be read. -/
def WritersTidy : Prop := b.pidsWaitingOnReadToWrite ≠ [] → b.readClosed = false

theorem writers_fresh : WritersTidy freshPipe := fun h => absurd rfl h

theorem writers_close (pipeEnd : PipeEnd) (h : WritersTidy b) :
    WritersTidy (b.close pipeEnd).1 := by
  refine close_keeps h writers_fresh ?_
  cases pipeEnd with
  | read => exact fun hl => absurd rfl hl
  | write => exact h

theorem writers_read (pid n : Nat) (h : WritersTidy b) : WritersTidy (b.read pid n).buffer := by
  unfold PipeBuffer.read
  split
  · split
    · exact h
    · exact h
  · exact fun hl => absurd rfl hl

theorem writers_write {b : PipeBuffer} {n : Nat} (pid : Nat) (buffer : Bytes)
    (hr : b.readClosed = true → ¬ NoRoom b n) (h : WritersTidy b) :
    WritersTidy (b.write pid buffer n).buffer := by
  rcases write_cases b pid buffer n with hn | ⟨hf,hw⟩ | ⟨bytes,stream,hd⟩
  · rw [hn]
    exact h
  · rw [hw]
    intro hl
    by_contra hc
    exact hr (by simpa using hc) hf
  · rw [hd]
    exact h
end Drivers

variable {P : PipeBuffer → Prop}
namespace VFS
variable {v : VFS} {pid procfd f n pipe : Nat} {buffer : Bytes} {device : Option Nat}
theorem write_empties (hl : ∀ fd f, v.files.get fd = some f → 0 < v.refCount f)
    (hf : v.file pid procfd = some f) {pipeEnd : PipeEnd}
    (hd : v.driverData f = some (.pipe pipe pipeEnd)) {value : Int}
    (hv : (v.sys3Write pid procfd buffer n device).1 = .returned value) (hpo : 0 < value) :
    (v.sys3Write pid procfd buffer n device).2.drivers.listed (.pipeToRead pipe) = [] := by
  obtain ⟨file,hfi,hp⟩ := map_eq_some_iff.mp hd
  have he : ∀ count, (v.drivers.write file.driverData pid buffer n device).reply =
      .done count → 0 < count →
        (v.drivers.write file.driverData pid buffer n device).drivers.listed (.pipeToRead pipe) =
          [] := by
    rw [hp]
    exact fun count => writePipe_empties
  unfold sys3Write at hv ⊢
  rw [hf] at hv ⊢
  dsimp only at hv ⊢
  rw [release_acquire (file_live hl hf),hfi] at hv ⊢
  dsimp only at hv ⊢
  generalize v.drivers.write file.driverData pid buffer n device = effect at he hv ⊢
  cases hr : effect.reply with
  | error =>
    rw [hr] at hv
    cases hv
    cases hpo
  | blocks object =>
    rw [hr] at hv
    cases hv
  | done count =>
    rw [hr] at hv
    dsimp only at hv ⊢
    by_cases hc : 0 < count
    · rw [if_pos hc]
      have ha := ((acts_erases.of_file [] (v := v.apply effect) hf).trans
        (acts_erases.advance _ [] f count)).trans (acts_release _ f)
      obtain ⟨wakes,-,hs⟩ := ha.served
      exact hs.drains.empty (he count hr hc)
    · rw [if_neg hc] at hv
      cases hv
      cases hpo

theorem allPipes_transfer {request : Call} {effect : Effect}
    (hm : v.transfer pid request = some effect)
    (hr : ∀ b pid n, P b → P (b.read pid n).buffer)
    (hwr : ∀ procfd buffer n device f pipe pipeEnd b,
      request = .write procfd buffer n device → v.file pid procfd = some f →
      v.driverData f = some (.pipe pipe pipeEnd) → v.drivers.pipes[pipe]? = some b → P b →
        P (b.write pid buffer n).buffer)
    (h : AllPipes P v.drivers) : AllPipes P effect.drivers := by
  cases request with
  | read procfd byteCount device =>
    obtain ⟨f,-,hf⟩ := bind_eq_some_iff.mp hm
    obtain ⟨file,-,hfi⟩ := bind_eq_some_iff.mp hf
    obtain ⟨-,he⟩ := ite_none_left_eq_some.mp hfi
    cases he
    exact h.read hr _ _ _ _
  | write procfd buffer n device =>
    obtain ⟨f,hf,hw⟩ := bind_eq_some_iff.mp hm
    obtain ⟨file,hfi,rfl⟩ := map_eq_some_iff.mp hw
    refine h.write ?_ device
    intro pipe pipeEnd b hda hb hP
    have hd : v.driverData f = some (.pipe pipe pipeEnd) := by
      rw [driverData,hfi,← hda]
      rfl
    exact hwr procfd buffer n device f pipe pipeEnd b rfl hf hd hb hP
  | _ => cases hm
end VFS

namespace State
variable {s s' : State} {p : Process} {call : Call}
theorem Goes.drivers (h : Goes s call s') :
    (∃ wakes, Serves s.vfs.drivers wakes s'.vfs.drivers) ∨
      ∃ p request effect wakes, call = .file request ∧ s.caller = some p ∧
        s.vfs.transfer p.processID request = some effect ∧
        Serves effect.drivers wakes s'.vfs.drivers := by
  cases h with
  | answers a v hb ha haf =>
    rw [haf.1]
    cases ha with
    | acts hac =>
      obtain ⟨wakes,-,hs⟩ := hac.served
      exact .inl ⟨wakes,hs⟩
    | @returns p request value hca hc hd =>
      cases hd with
      | acts hac =>
        obtain ⟨wakes,-,hs⟩ := hac.served
        exact .inl ⟨wakes,hs⟩
      | @transfers effect value v hm hr hac =>
        obtain ⟨wakes,-,hs⟩ := hac.served
        exact .inr ⟨p,request,effect,wakes,hca,hc,hm,hs⟩
      | connects hre hse hda hw hac =>
        obtain ⟨wakes,-,hs⟩ := hac.served
        exact .inl ⟨wakes,hs⟩
  | exits p status v hc hac haf =>
    rw [haf.1]
    obtain ⟨wakes,-,hs⟩ := hac.served
    exact .inl ⟨wakes,hs⟩
  | blocks p object rax a v hc hbl hb hv hwa hblo =>
    rw [hv]
    cases hbl with
    | @listed request effect object hca hm hr hdr hcl =>
      rw [hdr]
      exact .inr ⟨p,request,effect,[],hca,hc,hm,.refl _⟩
    | unlisted hac ho =>
      obtain ⟨wakes,-,hs⟩ := hac.served
      exact .inl ⟨wakes,hs⟩
  | waits p q pid hc hq hv haf =>
    rw [hv]
    exact .inl ⟨[],.refl _⟩

theorem allPipes_step (hfr : P freshPipe) (hcl : ∀ b pipeEnd, P b → P (b.close pipeEnd).1)
    (hr : ∀ b pid n, P b → P (b.read pid n).buffer)
    (hw : ∀ p procfd buffer n device f pipe pipeEnd b,
      call = .file (.write procfd buffer n device) → s.caller = some p →
      s.vfs.file p.processID procfd = some f → s.vfs.driverData f = some (.pipe pipe pipeEnd) →
      s.vfs.drivers.pipes[pipe]? = some b → P b → P (b.write p.processID buffer n).buffer)
    (hg : Goes s call s') (h : AllPipes P s.vfs.drivers) :
    AllPipes P s'.vfs.drivers := by
  rcases hg.drivers with ⟨wakes,hs⟩ | ⟨p,request,effect,wakes,hca,hc,hm,hs⟩
  · exact h.serves hfr hcl hs
  have ht : AllPipes P effect.drivers := by
    refine VFS.allPipes_transfer hm hr ?_ h
    rintro procfd buffer n device f pipe pipeEnd b rfl hf hd
    exact hw p procfd buffer n device f pipe pipeEnd b hca hc hf hd
  exact ht.serves hfr hcl hs

section
variable {guard : State → Call → State → Prop} (h : Reachable Started step guard s)
include h
theorem settled_of_run : s.vfs.wakes = [] := by
  induction h with
  | start h =>
    obtain ⟨mounts,rfl⟩ := h
    rfl
  | next hr hs hg ih =>
    have hgo := step_goes (sound_of_run hr) ih (live_of_run hr) hs
    cases hgo with
    | answers a v hb ha haf | exits p status v hc hac haf => rw [haf.1]
    | blocks p object rax a v hc hbl hb hv hw hblo => rw [hv,hw]
    | waits p q pid hc hq hv haf => rw [hv,ih]

theorem goes_of_run (hs : s.step call = some s') : Goes s call s' :=
  step_goes (sound_of_run h) (settled_of_run h) (live_of_run h) hs

theorem readers_of_run : AllPipes ReadersTidy s.vfs.drivers := by
  induction h with
  | start h =>
    obtain ⟨mounts,rfl⟩ := h
    intro b hb
    cases hb
  | next hr hs hg ih =>
    refine allPipes_step readers_fresh (fun _ pipeEnd => readers_close pipeEnd)
      readers_read ?_ (goes_of_run hr hs) ih
    intro p procfd buffer n device f pipe pipeEnd b _ _ _ _ _ hb
    exact readers_write b p.processID buffer n hb
end

/-- No write that has no room is made to a pipe whose read end is closed. -/
def NoDoomedWrite (s : State) (call : Call) (_ : State) : Prop :=
  ∀ p procfd buffer n device f pipe pipeEnd b, call = .file (.write procfd buffer n device) →
    s.caller = some p → s.vfs.file p.processID procfd = some f →
    s.vfs.driverData f = some (.pipe pipe pipeEnd) → s.vfs.drivers.pipes[pipe]? = some b →
      b.readClosed = true → ¬ NoRoom b n

/-- While no write without room is made to a pipe whose read end is closed, the read end of a pipe
that a process waits to write to is open. -/
theorem pipe_writers_have_readers (h : Reachable Started step NoDoomedWrite s) (pipe : Nat)
    (b : PipeBuffer) (hb : s.vfs.drivers.pipes[pipe]? = some b)
    (hlisted : b.pidsWaitingOnReadToWrite ≠ []) : b.readClosed = false := by
  have ht : AllPipes WritersTidy s.vfs.drivers := by
    clear hb
    induction h with
    | start h =>
      obtain ⟨mounts,rfl⟩ := h
      intro b hb
      cases hb
    | next hr hs hro ih =>
      refine allPipes_step writers_fresh writers_close writers_read ?_ (goes_of_run hr hs) ih
      intro p procfd buffer n device f pipe pipeEnd b hca hc hf hd hb ht
      exact writers_write p.processID buffer
        (hro p procfd buffer n device f pipe pipeEnd b hca hc hf hd hb) ht
  exact ht.at hb hlisted

theorem pipe_writers_have_readers_full : ∃ s, Reachable Started step NoDoomedWrite s ∧
    ∃ b, s.vfs.drivers.pipes[0]? = some b ∧ b.pidsWaitingOnReadToWrite = [1] ∧
      b.readClosed = false := by
  obtain ⟨s,hr,hf⟩ : ∃ s, Reachable Started step NoDoomedWrite s ∧
      (s.vfs.drivers.pipes[0]?.any fun b : PipeBuffer =>
        decide (b.pidsWaitingOnReadToWrite = [1])) = true := by
    refine Reachable.exists_checked ⟨oneFile,rfl⟩
      (fun s _ => s.vfs.drivers.pipes.all fun b => b.readClosed = false) ?_
      [.create ['/','a'] true,.timer 0,.file .pipe,.file (.write 4 (fun _ => 7) 512 none),
        .file (.write 4 (fun _ => 7) 1 none)] (by decide +kernel)
    intro s call s' ht p procfd buffer n device f pipe pipeEnd b _ _ _ _ hb hc
    have ho := List.all_eq_true.mp ht b (List.mem_of_getElem? hb)
    rw [hc] at ho
    cases ho
  obtain ⟨b,hb,hl⟩ := (any_eq_true _ _).mp hf
  have hl := of_decide_eq_true hl
  have ho := pipe_writers_have_readers hr 0 b hb (by simp [hl])
  exact ⟨s,hr,b,hb,hl,ho⟩

/-- A process closes the read end of a pipe, fills it, and waits to write one byte more. -/
theorem pipe_writer_without_reader : ∃ s, Reachable Started step anyStep s ∧
    ∃ b, s.vfs.drivers.pipes[0]? = some b ∧ b.pidsWaitingOnReadToWrite = [1] ∧
      b.readClosed = true := by
  obtain ⟨s,hr,hf⟩ : ∃ s, Reachable Started step anyStep s ∧
      (s.vfs.drivers.pipes[0]?.any fun b : PipeBuffer =>
        decide (b.pidsWaitingOnReadToWrite = [1] ∧ b.readClosed = true)) = true :=
    Reachable.exists_run ⟨oneFile,rfl⟩
      [.create ['/','a'] true,.timer 0,.file .pipe,.file (.close 3),
        .file (.write 4 (fun _ => 7) 512 none),.file (.write 4 (fun _ => 7) 1 none)]
      (by decide +kernel)
  obtain ⟨b,hb,hl⟩ := (any_eq_true _ _).mp hf
  exact ⟨s,hr,b,hb,of_decide_eq_true hl⟩

def WritesTo (s : State) (call : Call) (pipe : Nat) : Prop :=
  ∃ p procfd buffer n device f pipeEnd value, call = .file (.write procfd buffer n device) ∧
    s.caller = some p ∧ s.vfs.file p.processID procfd = some f ∧
    s.vfs.driverData f = some (.pipe pipe pipeEnd) ∧
    (s.vfs.call p.processID (.write procfd buffer n device)).1 = .returned value ∧ 0 < value

section
variable {v : VFS} {pipe : Nat}
/-- A call leaves nobody waiting to read from a pipe, and those who did run. -/
def FreesReaders (s s' : State) (pipe : Nat) : Prop :=
  s'.vfs.drivers.listed (.pipeToRead pipe) = [] ∧
    ∀ pid ∈ s.vfs.drivers.listed (.pipeToRead pipe), ∀ q, s'.scheduler.process pid = some q →
      q.state = .running

/-- The file of the write end of a pipe is closed. -/
def ClosesWriteEnd (v v' : VFS) (pipe : Nat) : Prop :=
  ∃ f ∈ v'.closed, f ∉ v.closed ∧ v'.driverData f = some (.pipe pipe .write)

theorem acts_readers {w : VFS} (ha : VFS.Acts w v)
    (ht : AllPipes ReadersTidy w.drivers) (pipe : Nat) :
    ∃ wakes, v.wakes = w.wakes ++ wakes ∧
      WakesAll w.drivers.listed v.drivers.listed (pairs wakes) (.pipeToRead pipe) ∧
      (ClosesWriteEnd w v pipe → v.drivers.listed (.pipeToRead pipe) = []) := by
  obtain ⟨wakes,hw,hs⟩ := ha.served
  refine ⟨wakes,hw,hs.readers ht pipe,?_⟩
  rintro ⟨f,hf,hn,hd⟩
  obtain ⟨data,hd',hp⟩ := ha.ended f hf hn
  rw [hd] at hd'
  exact (hp pipe .write (some.inj hd').symm).empty ht

theorem Answers.readers (h : Answers s call v) (hs : s.vfs.wakes = [])
    (ht : AllPipes ReadersTidy s.vfs.drivers) (pipe : Nat) :
    WakesAll s.vfs.drivers.listed v.drivers.listed (pairs v.wakes) (.pipeToRead pipe) ∧
      (ClosesWriteEnd s.vfs v pipe → v.drivers.listed (.pipeToRead pipe) = []) := by
  have ha (hac : VFS.Acts s.vfs v) :
      WakesAll s.vfs.drivers.listed v.drivers.listed (pairs v.wakes) (.pipeToRead pipe) ∧
        (ClosesWriteEnd s.vfs v pipe → v.drivers.listed (.pipeToRead pipe) = []) := by
    obtain ⟨wakes,hwa,hal,hc⟩ := acts_readers hac ht pipe
    rw [hs,List.nil_append] at hwa
    exact ⟨hwa ▸ hal,hc⟩
  cases h with
  | acts hac => exact ha hac
  | @returns p request value hcal hca hdo =>
    cases hdo with
    | acts hac => exact ha hac
    | @transfers effect value v hm hre hac =>
      have ht' : AllPipes ReadersTidy effect.drivers := by
        refine VFS.allPipes_transfer hm readers_read ?_ ht
        intro procfd buffer n device f pipe pipeEnd b _ _ _ _
        exact readers_write b p.processID buffer n
      obtain ⟨wakes,hwa,hal,hc⟩ := acts_readers hac ht' pipe
      refine ⟨?_,hc⟩
      rw [hwa,VFS.apply,hs,List.nil_append,pairs_append]
      cases VFS.transfer_transfers hm with
      | drained hn hd hr => exact (hr pipe).trans hal
      | blocked object hb hno hl => exact absurd hb (hre object)
    | connects hreq hse hda hw hac =>
      obtain ⟨wakes,hwa,hal,hc⟩ := acts_readers hac ht pipe
      refine ⟨?_,hc⟩
      rw [hwa,pairs_append]
      intro pid hp
      rcases hal pid hp with hk | hwo
      · exact .inl hk
      · exact .inr (List.mem_append_right _ hwo)

theorem Settles.readers {a : Scheduler.State} (ha : Settles a v s')
    (hal : WakesAll s.vfs.drivers.listed v.drivers.listed (pairs v.wakes) (.pipeToRead pipe))
    (he : v.drivers.listed (.pipeToRead pipe) = []) : FreesReaders s s' pipe := by
  obtain ⟨hv,b,hw,hsa⟩ := ha
  refine ⟨by rw [hv]; exact he,?_⟩
  intro pid hp q hq
  rcases hal pid hp with hk | hwo
  · rw [he] at hk
    cases hk
  obtain ⟨q',hq',hs⟩ := hsa.state hq
  rw [hs]
  exact hw.running hq' (List.mem_map_of_mem hwo)

theorem writesTo_readers (hso : Sound s) (hs : s.vfs.wakes = [])
    (hl : ∀ fd f, s.vfs.files.get fd = some f → 0 < s.vfs.refCount f)
    (ht : AllPipes ReadersTidy s.vfs.drivers) (hw : WritesTo s call pipe)
    (hst : s.step call = some s') : FreesReaders s s' pipe := by
  obtain ⟨p,procfd,buffer,n,device,f,pipeEnd,value,rfl,hc,hf,hda,hv,hp⟩ := hw
  obtain ⟨p',hc',hst⟩ := bind_eq_some_iff.mp hst
  cases hc.symm.trans hc'
  have he := VFS.write_empties hl hf hda hv hp
  have hd := VFS.call_does hso.consistent hl p.processID (.write procfd buffer n device)
  rw [hv] at hd
  have ha : Answers s _ _ := .returns rfl hc hd
  obtain ⟨hal,-⟩ := ha.readers hs ht pipe
  have hse : Settles s.scheduler.readCurrent (s.vfs.call p.processID (.write procfd buffer n device)).2 s' := by
    unfold fileCall at hst
    dsimp only at hst
    rw [hv] at hst
    cases hst
    exact settles_settle _ _ s.booted
  exact hse.readers hal he

theorem closesWriteEnd_readers (hs : s.vfs.wakes = [])
    (ht : AllPipes ReadersTidy s.vfs.drivers)
    (hc : ClosesWriteEnd s.vfs s'.vfs pipe) (hg : Goes s call s') :
    FreesReaders s s' pipe := by
  cases hg with
  | answers a v hb ha haf =>
    obtain ⟨hal,he⟩ := ha.readers hs ht pipe
    rw [haf.1] at hc
    exact haf.readers hal (he hc)
  | exits p status v hca hac haf =>
    have ha : Answers s call v := .acts hac
    obtain ⟨hal,he⟩ := ha.readers hs ht pipe
    rw [haf.1] at hc
    exact haf.readers hal (he hc)
  | blocks p object rax a v hca hbl hb hv hw hblo =>
    rw [hv] at hc
    cases hbl with
    | listed hcal hm hr hd hcl =>
      obtain ⟨f,hf,hne,-⟩ := hc
      exact absurd (hcl ▸ hf) hne
    | unlisted hac ho =>
      have ha : Answers s call v := .acts hac
      obtain ⟨hal,he⟩ := ha.readers hs ht pipe
      refine ⟨hv ▸ he hc,?_⟩
      intro pid hp
      have hn := hal pid hp
      rw [he hc,hw] at hn
      simp at hn
  | waits p q pid hca hq hv haf =>
    obtain ⟨f,hf,hne,-⟩ := hc
    exact absurd (hv ▸ hf) hne

/-- A process waits to read only from a pipe that is empty and whose write end is open. The next
write of bytes, and the close of the write end, empties the list and makes those on it running. -/
theorem pipe_readers_not_forgotten (h : Reachable Started step anyStep s) (pipe : Nat) :
    (∀ b, s.vfs.drivers.pipes[pipe]? = some b → b.pidsWaitingOnWriteToRead ≠ [] →
      b.stream.offset = 0 ∧ b.writeClosed = false) ∧
    ∀ call s', s.step call = some s' → WritesTo s call pipe ∨ ClosesWriteEnd s.vfs s'.vfs pipe →
      FreesReaders s s' pipe := by
  have hs := settled_of_run h
  have ht := readers_of_run h
  refine ⟨fun b hb => ht.at hb,?_⟩
  intro call s' hst he
  rcases he with hw | hc
  · exact writesTo_readers (sound_of_run h) hs (live_of_run h) ht hw hst
  · exact closesWriteEnd_readers hs ht hc (goes_of_run h hst)

/-- A process that waits to read from a pipe is freed by a write of its child. -/
theorem pipe_readers_not_forgotten_write : ∃ s s', Reachable Started step anyStep s ∧
    s.vfs.drivers.listed (.pipeToRead 0) = [1] ∧
    s.step (.file (.write 4 (fun _ => 7) 1 none)) = some s' ∧ FreesReaders s s' 0 := by
  obtain ⟨s,hr,hl,hso,hw⟩ : ∃ s, Reachable Started step anyStep s ∧
      s.vfs.drivers.listed (.pipeToRead 0) = [1] ∧
        (s.step (.file (.write 4 (fun _ => 7) 1 none))).isSome = true ∧
        (s.caller.any fun p => (s.vfs.file p.processID 4).any fun f =>
          decide (s.vfs.driverData f = some (.pipe 0 .write) ∧
            (s.vfs.call p.processID (.write 4 (fun _ => 7) 1 none)).1 = .returned 1)) = true :=
    Reachable.exists_run ⟨oneFile,rfl⟩
      [.create ['/','a'] true,.timer 0,.file .pipe,.fork true,.file (.read 3 1 none)]
      (by decide +kernel)
  obtain ⟨s',hs⟩ := isSome_iff_exists.mp hso
  obtain ⟨p,hc,hw⟩ := (any_eq_true _ _).mp hw
  obtain ⟨f,hf,hw⟩ := (any_eq_true _ _).mp hw
  obtain ⟨hd,hv⟩ := of_decide_eq_true hw
  refine ⟨s,s',hr,hl,hs,?_⟩
  refine (pipe_readers_not_forgotten hr 0).2 _ s' hs (.inl ?_)
  exact ⟨p,4,_,1,none,f,.write,1,rfl,hc,hf,hd,hv,by decide⟩
end
end State
end LensorOS.Kernel
