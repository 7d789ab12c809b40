import LensorOS.Libc.StreamBuffers

/-!
# Output of a stream

When every `write` moves all of its bytes, what was written and the pending bytes are what was passed
to the stream.
-/
namespace LensorOS.Libc
open Framework List Bytes
/-- Every `read` and `write` moves as many bytes as it can. -/
def Descriptor.Complete (d : Descriptor) : Prop := ∀ k n, d.transfers k n = some n

namespace File
/-- The buffers are blocks that the stream has, next to other blocks of the program. -/
structure Ready (f : File) : Prop where
  allocated : ∃ others, Client.Sound
    ⟨f.heap,(f.wbuf.buf,f.wbuf.cap) :: (f.rdbuf.buf,f.rdbuf.cap) :: others⟩
  fits : f.wbuf.offs ≤ f.wbuf.cap
  direct : f.buffering = .unbuffered → f.wbuf.offs = 0
  complete : f.descriptor.Complete

def output (f : File) : List (BitVec 8) := f.descriptor.written ++ f.pending

structure Takes (f : File) (data : List (BitVec 8)) (f' : File) : Prop where
  ready : f'.Ready
  output : f'.output = f.output ++ data
  buffering : f'.buffering = f.buffering

def Intact (f : File) : Prop :=
  Ready { f with descriptor := { f.descriptor with transfers := fun _ n => some n } }

/-- A stream that got data, or that failed when its descriptor got a part of its output. -/
inductive Sends (f : File) (data : List (BitVec 8)) (f' : File) : Bool → Prop
  | done (intact : f'.Intact) (output : f'.output = f.output ++ data)
      (buffering : f'.buffering = f.buffering)
      (transfers : f'.descriptor.transfers = f.descriptor.transfers) : Sends f data f' true
  | failed (short : ¬ f.descriptor.Complete) (error : f'.error = true)
      (part : f'.descriptor.written <+: f.output ++ data) : Sends f data f' false

variable {f f' : File} {data : List (BitVec 8)} {ok : Bool}
theorem Ready.intact (h : f.Ready) : f.Intact :=
  ⟨h.allocated,h.fits,h.direct,fun _ _ => rfl⟩

theorem Intact.sends_nil (h : f.Intact) : Sends f [] f true := .done h (append_nil _).symm rfl rfl

theorem Sends.trans {f'' : File} {more : List (BitVec 8)} (h : Sends f data f' true)
    (h' : Sends f' more f'' ok) : Sends f (data ++ more) f'' ok := by
  obtain ⟨hi,ho,hb,ht⟩ | _ := h
  cases h' with
  | done hi' ho' hb' ht' =>
    exact .done hi' (by rw [ho',ho,append_assoc]) (hb'.trans hb) (ht'.trans ht)
  | failed hs he hp =>
    refine .failed (fun hc => hs fun k n => ?_) he (by rwa [← append_assoc,← ho])
    rw [ht]
    exact hc k n

theorem Sends.fails (h : Sends f data f' false) (more : List (BitVec 8)) :
    Sends f (data ++ more) f' false := by
  obtain _ | ⟨hs,he,hp⟩ := h
  refine .failed hs he (hp.trans ?_)
  rw [← append_assoc]
  exact prefix_append _ _

theorem Ready.takes (h : f.Ready) (hs : Sends f data f' ok) : ok = true ∧ Takes f data f' := by
  cases hs with
  | done hi ho hb ht =>
    refine ⟨rfl,⟨hi.allocated,hi.fits,hi.direct,fun k n => ?_⟩,ho,hb⟩
    rw [ht]
    exact h.complete k n
  | failed hs => exact absurd h.complete hs

theorem pending_of_offs (h : f.wbuf.offs = 0) : f.pending = [] := by rw [pending,h,load_zero]

theorem written_or_part (d : Descriptor) (data : List (BitVec 8)) :
    (d.write data).2.transfers = d.transfers ∧
      ((d.write data).1 = some data.length ∧ (d.write data).2.written = d.written ++ data ∨
        (d.write data).1 ≠ some data.length ∧ ¬ d.Complete ∧
          (d.write data).2.written <+: d.written ++ data) := by
  unfold Descriptor.write
  cases ht : d.transfers d.calls data.length with
  | none => exact ⟨rfl,.inr ⟨nofun,fun hc => by simp [hc _ _] at ht,prefix_append _ _⟩⟩
  | some n =>
    refine ⟨rfl,?_⟩
    by_cases hn : data.length ≤ n
    · exact .inl ⟨congrArg some (min_eq_right hn),by dsimp only; rw [take_of_length_le hn]⟩
    refine .inr ⟨by simpa using hn,fun hc => ?_,(prefix_append_right_inj _).mpr ( take_prefix _ _)⟩
    rw [hc] at ht
    exact hn (Option.some.inj ht).le

section
variable (h : f.Intact)
include h
theorem Intact.flush_sends : Sends f [] f.flush.2 f.flush.1 ∧ f.flush.2.heap = f.heap ∧
    f.flush.2.rdbuf = f.rdbuf ∧
      (f.flush.1 = true → f.flush.2.wbuf = { f.wbuf with offs := 0 }) := by
  unfold flush
  by_cases he : f.wbuf.offs = 0
  · rw [if_pos he]
    refine ⟨h.sends_nil,rfl,rfl,fun _ => ?_⟩
    rw [← he]
  have hl : f.pending.length = f.wbuf.offs := length_load _ _ _
  rw [if_neg he]
  dsimp only
  obtain ⟨ht,⟨hn,hw⟩ | ⟨hn,hc,hp⟩⟩ := written_or_part f.descriptor f.pending
  · rw [if_pos (by rw [hn,hl])]
    refine ⟨.done ⟨h.allocated,Nat.zero_le _,fun _ => rfl,fun _ _ => rfl⟩ ?_ rfl ht,rfl,rfl,fun _ => rfl⟩
    simp only [output,pending,load_zero,append_nil] at hw ⊢
    exact hw
  · rw [if_neg (by rwa [← hl])]
    exact ⟨.failed hc rfl (by simpa [output] using hp),rfl,rfl,nofun⟩

theorem Intact.writeThrough_sends (he : f.wbuf.offs = 0) (data : List (BitVec 8)) :
    ∃ ok f', f.writeThrough data = (if ok then (data.length : Int) else -1,f') ∧ Sends f data f' ok := by
  have ho : f.output = f.descriptor.written := by rw [output,pending_of_offs he,append_nil]
  unfold writeThrough
  dsimp only
  obtain ⟨ht,⟨hn,hw⟩ | ⟨hn,hc,hp⟩⟩ := written_or_part f.descriptor data
  · rw [if_pos hn]
    refine ⟨true,_,rfl,.done ⟨h.allocated,h.fits,h.direct,h.complete⟩ ?_ rfl ht⟩
    simp [output,pending,he,load_zero,hw]
  · rw [if_neg hn]
    exact ⟨false,_,rfl,.failed hc rfl (by rwa [ho])⟩

theorem Intact.within : f.heap.heapBase ≤ f.wbuf.buf ∧
    f.wbuf.buf+f.wbuf.cap ≤ f.heap.heapBase+f.heap.heapSize ∧
      f.heap.heapBase+f.heap.heapSize < 2^63 := by
  obtain ⟨others,hs⟩ := h.allocated
  exact (hs.within mem_cons_self).2

section
variable (hbuffered : f.buffering ≠ .unbuffered)
include hbuffered
theorem Intact.memcpy_sends (hf : f.wbuf.offs+data.length ≤ f.wbuf.cap) :
    ∃ heap, f.heap.memcpy (f.wbuf.buf+f.wbuf.offs) data = some heap ∧ Sends f data { f with
        heap := heap
        wbuf := { f.wbuf with offs := (f.wbuf.offs+data.length) % 2^64 } } true := by
  obtain ⟨others,hs⟩ := h.allocated
  obtain ⟨hl,hh,hr⟩ := h.within
  have ho : (f.wbuf.offs+data.length) % 2^64 = f.wbuf.offs+data.length := by omega
  have hs' := hs.withMemory (m := f.heap.memory.store (f.wbuf.buf+f.wbuf.offs) data)
    mem_cons_self fun y hy => store_outside _ (by dsimp only at hy; omega)
  refine ⟨_,if_pos (.inr ⟨by omega,by omega⟩),.done ⟨⟨others,hs'⟩,?_,?_,h.complete⟩ ?_ rfl rfl⟩
  · dsimp only
    omega
  · exact fun he => absurd he hbuffered
  have hk : (f.heap.memory.store (f.wbuf.buf+f.wbuf.offs) data).load f.wbuf.buf
      f.wbuf.offs = f.heap.memory.load f.wbuf.buf f.wbuf.offs :=
    load_store_outside _ (.inl (le_refl _))
  simp only [output,pending,ho]
  rw [load_add,hk,load_store,append_assoc]

theorem Intact.writeInternal_sends (hle : data.length < 2^63) :
    ∃ ok f', f.writeInternal data = some (if ok then (data.length : Int) else -1,f') ∧
      Sends f data f' ok := by
  obtain ⟨-,hh,hr⟩ := h.within
  have hfi : f.wbuf.offs ≤ f.wbuf.cap := h.fits
  rw [writeInternal,Nat.mod_eq_of_lt (by omega)]
  by_cases hf : f.wbuf.offs+data.length > f.wbuf.cap
  · obtain ⟨hs,-,-,hwb⟩ := h.flush_sends
    rw [if_pos hf]
    generalize f.flush = r at hs hwb
    obtain ⟨ok,f1⟩ := r
    cases ok with
    | false => exact ⟨false,f1,rfl,hs.fails data⟩
    | true =>
      have he : f1.wbuf.offs = 0 := by rw [hwb rfl]
      obtain ⟨hi,-,hb,-⟩ | _ := id hs
      dsimp only
      rw [if_neg (by decide)]
      by_cases hl : data.length > f1.wbuf.cap
      · rw [if_pos hl]
        obtain ⟨ok,f',hw,hs'⟩ := hi.writeThrough_sends he data
        exact ⟨ok,f',congrArg some hw,hs.trans hs'⟩
      rw [if_neg hl]
      obtain ⟨heap,hc,hs'⟩ := hi.memcpy_sends (hb ▸ hbuffered)
        (by omega : f1.wbuf.offs+data.length ≤ f1.wbuf.cap)
      rw [hc]
      exact ⟨true,_,rfl,hs.trans hs'⟩
  · rw [if_neg hf]
    dsimp only
    rw [if_neg (by decide),if_neg (by omega)]
    obtain ⟨heap,hc,hs⟩ := h.memcpy_sends hbuffered (not_lt.mp hf)
    rw [hc]
    exact ⟨true,_,rfl,hs⟩

theorem Intact.writeLines_sends
    (written : Int) {line : List (BitVec 8)} (hle : line.length+data.length < 2^63) :
    ∃ n ok f', f.writeLines written line data = some (n,f') ∧ Sends f (line ++ data) f' ok := by
  induction data generalizing f written line with
  | nil =>
    obtain ⟨ok,f',hw,hs⟩ := h.writeInternal_sends hbuffered (lt_of_le_of_lt (Nat.le_add_right _ _) hle)
    rw [writeLines,hw,append_nil]
    exact ⟨_,ok,f',rfl,hs⟩
  | cons c rest ih =>
    rw [length_cons] at hle
    have hl : (line ++ [c]).length = line.length+1 := by simp
    rw [writeLines,append_cons line c rest]
    by_cases hc : c = newline
    · rw [if_pos hc]
      obtain ⟨ok,f1,hw,hs⟩ := h.writeInternal_sends hbuffered (by omega : (line ++ [c]).length < 2^63)
      rw [hw]
      cases ok with
      | false => exact ⟨written,false,f1,if_pos (by simp; omega),hs.fails rest⟩
      | true =>
        obtain ⟨hi,-,hb,-⟩ | _ := id hs
        have hs1 := hs.trans hi.flush_sends.1
        dsimp only
        rw [if_neg (by simp)]
        generalize f1.flush = r at hs1
        obtain ⟨ok,f2⟩ := r
        rw [append_nil] at hs1
        cases ok with
        | false => exact ⟨written,false,f2,rfl,hs1.fails rest⟩
        | true =>
          obtain ⟨hi,-,hb,-⟩ | _ := id hs1
          have hn : ([] : List (BitVec 8)).length+rest.length < 2^63 := by
            rw [length_nil]
            omega
          obtain ⟨n,ok,f',hr,hs'⟩ := ih hi (hb ▸ hbuffered) (written+(line ++ [c]).length) hn
          exact ⟨n,ok,f',hr,hs1.trans hs'⟩
    · rw [if_neg hc]
      exact ih h hbuffered written (by omega)
end

theorem Intact.write_sends (hl : data.length < 2^63) :
    ∃ n ok f', f.write data = some (n,f') ∧ Sends f data f' ok := by
  unfold write
  cases hm : f.buffering with
  | unbuffered =>
    obtain ⟨ok,f',hw,hs⟩ := h.writeThrough_sends (h.direct hm) data
    exact ⟨_,ok,f',congrArg some hw,hs⟩
  | lineBuffered =>
    have hbuffered : f.buffering ≠ .unbuffered := by rw [hm]; decide
    exact h.writeLines_sends hbuffered 0 (by simp; omega)
  | fullyBuffered =>
    have hbuffered : f.buffering ≠ .unbuffered := by rw [hm]; decide
    obtain ⟨ok,f',hw,hs⟩ := h.writeInternal_sends hbuffered hl
    exact ⟨_,ok,f',hw,hs⟩
end

theorem Ready.flush_eq (h : f.Ready) : ∃ f', f.flush = (true,f') ∧ Takes f [] f' ∧
    f'.heap = f.heap ∧ f'.wbuf = { f.wbuf with offs := 0 } ∧ f'.rdbuf = f.rdbuf := by
  obtain ⟨hs,hh,hr,hw⟩ := h.intact.flush_sends
  obtain ⟨ho,ht⟩ := h.takes hs
  exact ⟨_,Prod.ext ho rfl,ht,hh,hw ho,hr⟩

theorem Ready.write_eq (h : f.Ready) (hl : data.length < 2^63) :
    ∃ n f', f.write data = some (n,f') ∧ Takes f data f' := by
  obtain ⟨n,ok,f',hw,hs⟩ := h.intact.write_sends hl
  exact ⟨n,f',hw,(h.takes hs).2⟩

/-- The allocator has larger blocks for the buffers, where it is asked for them. -/
def Grants (f : File) (size : Nat) : Prop :=
  size ≤ 2^62 ∧ ∀ x ∈ WriteBuffer.resize { f.wbuf with offs := 0 } f.heap size,
    x.1.buf ≠ 0 ∧ ∀ y ∈ f.rdbuf.resize x.2 size, y.1.buf ≠ 0

instance (f : File) (size : Nat) : Decidable (f.Grants size) := inferInstanceAs (Decidable (_ ∧ _))
end File

namespace File
variable {f : File} {mode : Buffering} {size : Nat}
theorem Ready.setbuf_eq (h : f.Ready)
    (hg : mode = .unbuffered ∨ f.Grants (if size < bufsiz then bufsiz else size)) :
    ∃ f', f.setbuf mode size = some (true,f') ∧ f'.Ready ∧ f'.output = f.output := by
  obtain ⟨f1,hf,ht,hh,hwb,hrd⟩ := h.flush_eq
  have hre := ht.ready
  have hem : f1.wbuf.offs = 0 := by rw [hwb]
  have ho : f1.output = f.output := by rw [ht.output,append_nil]
  rw [setbuf,hf]
  dsimp only
  by_cases hm : mode = .unbuffered
  · rw [if_pos hm]
    refine ⟨_,rfl,⟨hre.allocated,hre.fits,fun _ => hem,
      hre.complete⟩,ho⟩
  obtain ⟨hsi,hg⟩ := hg.resolve_left hm
  obtain ⟨others,hs⟩ := hre.allocated
  rw [if_neg hm]
  obtain ⟨wbuf,he1,hr,hof,hs1⟩ := WriteBuffer.resize_eq hs hsi
  rw [← hwb,← hh] at hg
  obtain ⟨hw,hg'⟩ := hg (wbuf,he1) hr
  -- The read buffer comes first for its turn.
  have hs2 := (hs1 hw).perm (List.Perm.swap _ _ _)
  obtain ⟨rdbuf,he2,hr',hs3⟩ := ReadBuffer.resize_eq hs2 hsi
  rw [← hrd] at hg'
  have hrea := hg' (rdbuf,he2) hr'
  have hs4 := (hs3 hrea).perm (List.Perm.swap _ _ _)
  rw [hr,Option.bind_some,hr']
  refine ⟨_,rfl,⟨⟨others,hs4⟩,?_,fun he => absurd he hm,hre.complete⟩,?_⟩
  · exact (hof.trans hem).le.trans (by omega)
  · rw [← ho,output,output,pending_of_offs hem,pending_of_offs (hof.trans hem)]

theorem Ready.seek_eq (h : f.Ready) (answer : Int) (remaining : List (BitVec 8)) :
    (f.seek answer remaining).2.Ready ∧ (f.seek answer remaining).2.output = f.output := by
  have hr : Ready { f with hasUngotten := false, eof := false } := ⟨h.allocated,h.fits,h.direct,h.complete⟩
  obtain ⟨f1,hf,ht,-⟩ := hr.flush_eq
  have hn := ht.ready
  rw [seek,hf]
  exact ⟨⟨hn.allocated,hn.fits,hn.direct,hn.complete⟩, ht.output.trans (append_nil _)⟩

theorem New.intact {d : Descriptor} (h : f.New d) : f.Intact ∧ f.output = d.written := by
  have he := h.wbuf
  refine ⟨⟨h.allocated,he.le.trans (by omega),fun _ => he,fun _ _ => rfl⟩,?_⟩
  rw [output,pending_of_offs he,append_nil,h.descriptor]

theorem New.ready {d : Descriptor} (h : f.New d) (hd : d.Complete) : f.Ready ∧ f.output = d.written := by
  obtain ⟨hi,ho⟩ := h.intact
  exact ⟨⟨hi.allocated,hi.fits,hi.direct,h.descriptor ▸ hd⟩,ho⟩
end File

structure Output where
  file : File
  sent : List (BitVec 8)

namespace Output
inductive Call
  | write (data : List (BitVec 8))
  | setbuf (buffering : Buffering) (size : Nat)
  | setvbuf (mode : Buffering) (size : Nat)
  | flush
  | seek (answer : Int) (remaining : List (BitVec 8))

def step (s : Output) : Call → Option Output
  | .write data => (s.file.write data).map fun (_,f) => ⟨f,s.sent ++ data⟩
  | .setbuf buffering size => (s.file.setbuf buffering size).map fun (_,f) => ⟨f,s.sent⟩
  | .setvbuf mode size => (s.file.setvbuf mode size).map fun (_,f) => ⟨f,s.sent⟩
  | .flush => some ⟨s.file.flush.2,s.sent⟩
  | .seek answer remaining => some ⟨(s.file.seek answer remaining).2,s.sent⟩

def Opened (s : Output) : Prop :=
  ∃ (c : Client) (d : Descriptor) (mode : Buffering), c.Sound ∧ d.Complete ∧ d.written = [] ∧
    File.create c.heap d mode = some s.file ∧ s.file.wbuf.buf ≠ 0 ∧ s.file.rdbuf.buf ≠ 0 ∧
      s.sent = []

/-- Data is shorter than `2^63` bytes, and buffers can be allocated. -/
def Provided (s : Output) (call : Call) (_ : Output) : Prop := match call with
  | .write data => data.length < 2^63
  | .setbuf mode size | .setvbuf mode size =>
    mode = .unbuffered ∨ s.file.Grants (if size < bufsiz then bufsiz else size)
  | _ => True

instance (s : Output) (call : Call) (s' : Output) : Decidable (Provided s call s') :=
  match call with
  | .write data => inferInstanceAs (Decidable (data.length < 2^63))
  | .setbuf mode _ | .setvbuf mode _ => inferInstanceAs (Decidable (mode = .unbuffered ∨ _))
  | .flush | .seek _ _ => inferInstanceAs (Decidable True)

structure Faithful (s : Output) : Prop where
  ready : s.file.Ready
  all : s.file.output = s.sent

variable {s s' : Output} {call : Call}
theorem Opened.faithful (h : s.Opened) : s.Faithful := by
  obtain ⟨c,d,mode,hs,hd,hw,hc,hwb,hr,hse⟩ := h
  obtain ⟨hre,ho⟩ := (File.new_of_create hs hc hwb hr).ready hd
  exact ⟨hre,by rw [ho,hw,hse]⟩

theorem Faithful.step_returns (h : s.Faithful) (hc : Provided s call s') :
    ∃ s'', s.step call = some s'' ∧ s''.Faithful := by
  cases call with
  | write data =>
    obtain ⟨n,f',hw,ht⟩ := h.ready.write_eq hc
    refine ⟨⟨f',s.sent ++ data⟩,?_,ht.ready,by rw [ht.output,h.all]⟩
    rw [step,hw]
    rfl
  | setbuf mode size =>
    obtain ⟨f',hs,hr,ho⟩ := h.ready.setbuf_eq hc
    refine ⟨⟨f',s.sent⟩,?_,hr,ho.trans h.all⟩
    rw [step,hs]
    rfl
  | setvbuf mode size =>
    obtain ⟨f',hs,hr,ho⟩ := h.ready.setbuf_eq hc
    by_cases hu : s.file.rdbuf.offs ≠ 0 ∨ s.file.wbuf.offs ≠ 0 ∨ s.file.error ∨ s.file.eof
    · refine ⟨s,?_,h⟩
      rw [step,File.setvbuf,if_pos hu]
      rfl
    refine ⟨⟨f',s.sent⟩,?_,hr,ho.trans h.all⟩
    rw [step,File.setvbuf,if_neg hu,hs]
    rfl
  | flush =>
    obtain ⟨f',hf,ht,-⟩ := h.ready.flush_eq
    refine ⟨⟨f',s.sent⟩,?_,ht.ready,?_⟩
    · rw [step,hf]
    · rw [ht.output,append_nil,h.all]
  | seek answer remaining =>
    obtain ⟨hr,ho⟩ := h.ready.seek_eq answer remaining
    exact ⟨_,rfl,hr,ho.trans h.all⟩

theorem faithful_of_run (h : Reachable Opened step Provided s) : s.Faithful := by
  refine h.invariant_of_taken (fun _ => Opened.faithful) fun s call s' hs hc => ?_
  exact hs.step_returns hc

/-- What was written to the descriptor and what is pending are the data that was passed to the
stream, and the next call returns. -/
theorem output_in_order (h : Reachable Opened step Provided s) :
    s.file.descriptor.written ++ s.file.pending = s.sent ∧
      ∀ call s', Provided s call s' → (s.step call).isSome := by
  have hf := faithful_of_run h
  refine ⟨hf.all,fun call s' hc => ?_⟩
  obtain ⟨s'',hs,-⟩ := hf.step_returns hc
  rw [hs]
  rfl

theorem opened_fresh (mode : Buffering) (f : File) (h : File.fresh ⟨[],[],fun _ n => some n,0⟩ mode = some f)
    (hb : f.hasBuffers = true) : Opened ⟨f,[]⟩ := by
  obtain ⟨c,hs,hf,hw,hr⟩ := File.fresh_created h hb
  exact ⟨c,_,mode,hs,fun _ _ => rfl,rfl,hf,hw,hr,rfl⟩

theorem output_in_order_modes : ∃ s, Reachable Opened step Provided s ∧
    s.sent = [97,10,98,99,100,101,102] ∧ s.file.pending = [102] ∧
      s.file.descriptor.written ++ s.file.pending = s.sent := by
  obtain ⟨s,hr,hs,hp⟩ : ∃ s, Reachable Opened step Provided s ∧
      s.sent = [97,10,98,99,100,101,102] ∧ s.file.pending = [102] :=
    Reachable.exists_from (opened_fresh .lineBuffered)
      (fun s call => Provided s call s) (fun _ _ _ h => of_decide_eq_true h)
      [.write [97,10,98],.setbuf .fullyBuffered 4096,.write [99],.setbuf .unbuffered 0,
        .write [100],.setbuf .lineBuffered 0,.write [101],.seek 0 [],.write [102]]
      (by decide +kernel)
  exact ⟨s,hr,hs,hp,(output_in_order hr).1⟩

/-- A buffer of two megabytes is larger than the heap. The stream has a null pointer then, and the
next byte does not get anywhere. -/
theorem large_buffer_faults :
    ∃ s, Reachable Opened step anyStep s ∧ s.file.wbuf.buf = 0 ∧ s.step (.write [65]) = none :=
  Reachable.exists_from (opened_fresh .fullyBuffered) (fun _ _ => true)
    (fun _ _ _ _ => trivial) [.setvbuf .fullyBuffered (2^21)] (by decide +kernel)

def Started (s : Output) : Prop :=
  ∃ (c : Client) (d : Descriptor) (mode : Buffering), c.Sound ∧ d.written = [] ∧
    File.create c.heap d mode = some s.file ∧ s.file.wbuf.buf ≠ 0 ∧ s.file.rdbuf.buf ≠ 0 ∧
      s.sent = []

/-- Data is written or flushed, and not after an error. -/
def Stops (s : Output) (call : Call) (_ : Output) : Prop := s.file.error = false ∧ match call with
  | .write data => data.length < 2^63
  | .flush => True
  | _ => False

instance (s : Output) (call : Call) (s' : Output) : Decidable (Stops s call s') :=
  match call with
  | .write _ | .flush | .setbuf _ _ | .setvbuf _ _ | .seek _ _ => inferInstanceAs (Decidable (_ ∧ _))

/-- All is there, or an error was reported with part of the output written. -/
def Kept (s : Output) : Prop := s.file.Intact ∧ s.file.output = s.sent ∨
  s.file.error = true ∧ s.file.descriptor.written <+: s.sent

theorem kept_of_sends {f : File} {data : List (BitVec 8)} {ok : Bool}
    (hs : File.Sends s.file data f ok) (h : s.file.output = s.sent) : Kept ⟨f,s.sent ++ data⟩ := by
  cases hs with
  | done hi ho => exact .inl ⟨hi,ho.trans (by rw [h])⟩
  | failed _ he hp => exact .inr ⟨he,by rwa [← h]⟩

theorem Kept.step_returns (h : s.Kept) (hc : Stops s call s') :
    ∃ s'', s.step call = some s'' ∧ s''.Kept := by
  obtain ⟨hi,ho⟩ | ⟨he,-⟩ := h
  · match call, hc.2 with
    | .write data, hl =>
      obtain ⟨n,ok,f',hw,hs⟩ := hi.write_sends hl
      refine ⟨_,?_,kept_of_sends hs ho⟩
      rw [step,hw]
      rfl
    | .flush, _ =>
      have hp := kept_of_sends hi.flush_sends.1 ho
      rw [append_nil] at hp
      exact ⟨_,rfl,hp⟩
  · rw [hc.1] at he
    cases he

/-- However short the writes are, the descriptor has got the first bytes of the data
when the call that fails returns. -/
theorem written_in_order (h : Reachable Started step Stops s) :
    s.file.descriptor.written <+: s.sent := by
  have hp : s.Kept := by
    refine h.invariant_of_taken (fun s hs => ?_) fun s call s' hs hca => hs.step_returns hca
    obtain ⟨c,d,mode,hso,hw,hc,hwb,hr,hse⟩ := hs
    obtain ⟨hi,ho⟩ := (File.new_of_create hso hc hwb hr).intact
    exact .inl ⟨hi,by rw [ho,hw,hse]⟩
  obtain ⟨-,ho⟩ | ⟨-,hp⟩ := hp
  · rw [← ho]
    exact prefix_append _ _
  · exact hp

theorem started_short (f : File) (h : File.fresh ⟨[],[],fun k n => some (if k = 0 then 1 else n),0⟩
    .fullyBuffered = some f) (hb : f.hasBuffers = true) : Started ⟨f,[]⟩ := by
  obtain ⟨c,hs,hf,hw,hr⟩ := File.fresh_created h hb
  exact ⟨c,_,_,hs,rfl,hf,hw,hr,rfl⟩

theorem written_in_order_short : ∃ s, Reachable Started step Stops s ∧ s.sent = [97,98] ∧
    s.file.descriptor.written = [97] ∧ s.file.descriptor.written <+: s.sent := by
  obtain ⟨s,hr,hs,hw⟩ : ∃ s, Reachable Started step Stops s ∧
      s.sent = [97,98] ∧ s.file.descriptor.written = [97] :=
    Reachable.exists_from started_short (fun s call => Stops s call s)
      (fun _ _ _ h => of_decide_eq_true h) [.write [97,98],.flush] (by decide +kernel)
  exact ⟨s,hr,hs,hw,written_in_order hr⟩

/-- The second flush writes the first byte again. -/
theorem written_twice : ∃ s, Reachable Started step anyStep s ∧ s.sent = [97,98] ∧
    s.file.descriptor.written = [97,97,98] :=
  Reachable.exists_from started_short (fun _ _ => true) (fun _ _ _ _ => trivial)
    [.write [97,98],.flush,.flush] (by decide +kernel)
end Output
end LensorOS.Libc
