import LensorOS.Libc.StreamInput

/-!
# Lines of a stream

A line is copied with all that is behind it in the read buffer, and without a NUL.
-/
namespace LensorOS.Libc
open Framework List Bytes
namespace File
/-- Where `c` is found, the limit is computed from its address, and the number of buffered bytes is
the only one left. -/
def copyUntilFromReadBuffer (f : File) (dst : Bytes) (buf rest : Nat) (c : BitVec 8) :
    (Nat × Bool) × Bytes × File :=
  let first := f.buffered.idxOf? c
  let maxCopy := match first with
    | some i => f.rdbuf.buf+f.rdbuf.start+i-f.rdbuf.start+1
    | none => f.rdbuf.offs
  let (copied,dst,f) := f.copyFromReadBuffer dst buf (min rest maxCopy)
  ((copied,first.isSome || copied = rest),dst,f)

/-- Fill the read buffer until the line is complete. Neither the destination nor what is left of it
change with the bytes that were copied. -/
def fillUntil (buf rest : Nat) (c : BitVec 8) :
    (turns : Nat) → Bytes → File → Option (Bool × Bytes × File)
  | 0, _, _ => none
  | turns+1, dst, f =>
    if f.eof then some (false,dst,f)
    else
      match f.descriptor.read f.rdbuf.cap with
      | (none,d) => some (false, dst, { f with descriptor := d, error := true })
      | (some chunk,d) =>
        (f.heap.memcpy f.rdbuf.buf chunk).bind fun heap =>
          let f := { f with
            heap := heap
            descriptor := d
            eof := chunk.isEmpty
            rdbuf := { f.rdbuf with start := 0, offs := chunk.length } }
          let ((_,done),dst,f) := f.copyUntilFromReadBuffer dst buf rest c
          if done then some (true,dst,f) else fillUntil buf rest c turns dst f

/-- Each turn of the loop reads some of the input, or finds its end. -/
def readRestUntil (f : File) (dst : Bytes) (buf rest : Nat) (c : BitVec 8) :
    Option (Bool × Bytes × File) :=
  let turns := f.descriptor.remaining.length+2
  if f.rdbuf.offs > f.rdbuf.start then
    let ((copied,done),dst,f) := f.copyUntilFromReadBuffer dst buf rest c
    if done || f.eof then some (true,dst,f) else fillUntil buf (rest-copied) c turns dst f
  else fillUntil buf rest c turns dst f

def readUntil (f : File) (dst : Bytes) (buf size : Nat) (c : BitVec 8) :
    Option (Bool × Bytes × File) :=
  if f.hasUngotten then
    let dst := dst.write8 buf f.ungotten
    let f := { f with hasUngotten := false }
    if f.ungotten = c then some (true,dst,f) else f.readRestUntil dst (buf+1) (size-1) c
  else f.readRestUntil dst buf size c

def fgets (f : File) (dst : Bytes) (str : Nat) (size : Int) : Option (Bool × Bytes × File) :=
  if size < 0 then some (false,dst,f)
  else if size = 0 then some (true,dst,f)
  else f.readUntil dst str size.toNat newline

def nextChunk (f : File) : List (BitVec 8) := ((f.descriptor.read f.rdbuf.cap).1).getD []

/-- Nothing is left of earlier input, and the next `read` delivers one line, which is shorter than
the destination; there is a NUL where it ends. -/
def OneLine (f : File) (dst : Bytes) (str : Nat) (size : Int) : Prop :=
  (f.hasUngotten = false ∧ f.available = 0 ∧ f.eof = false) ∧
    (f.nextChunk.getLast? = some newline ∧ newline ∉ f.nextChunk.dropLast) ∧
      f.nextChunk.length < size ∧ dst (str+f.nextChunk.length) = 0

theorem idxOf_line {line : List (BitVec 8)} (h : newline ∉ line) :
    (line ++ [newline]).idxOf? newline = some line.length := by
  rw [idxOf?,findIdx?_append,findIdx?_eq_none_iff.mpr]
  · simp
  intro c hc
  simp only [beq_eq_false_iff_ne]
  rintro rfl
  exact h hc

variable {f : File} {dst : Bytes} {str : Nat} {size : Int}
theorem OneLine.fgets_eq (h : f.OneLine dst str size) (hf : f.Readable) :
    ∃ f', f.fgets dst str size = some (true,dst.store str f.nextChunk,f') ∧ f'.Readable ∧
      f.upcoming = f.nextChunk ++ f'.upcoming := by
  obtain ⟨⟨hu,hav,he⟩,⟨hla,hd⟩,hfi,-⟩ := h
  obtain ⟨chunk,d,hr,hs,ha,hle,-⟩ := hf.splits.read_eq hf.cap
  have hc : f.nextChunk = chunk := by rw [nextChunk,hr]; rfl
  rw [hc] at hla hd hfi ⊢
  obtain ⟨line,rfl⟩ := getLast?_eq_some_iff.mp hla
  rw [dropLast_concat] at hd
  obtain ⟨hlo,hh⟩ := hf.within
  have hm : f.heap.memcpy f.rdbuf.buf (line ++ [newline]) =
      some { f.heap with memory := f.heap.memory.store f.rdbuf.buf (line ++ [newline]) } :=
    if_pos (.inr ⟨hlo,by omega⟩)
  have hst : ¬ f.rdbuf.offs > f.rdbuf.start := by
    unfold available at hav
    omega
  rw [fgets,if_neg (by omega),if_neg (by omega),readUntil,hu,if_neg (by decide),readRestUntil,
    if_neg hst,fillUntil,he,if_neg (by decide),hr]
  dsimp only
  rw [hm,Option.bind_some]
  -- The stream with the line in its read buffer.
  generalize hf1 : ({ f with
    heap := { f.heap with memory := f.heap.memory.store f.rdbuf.buf (line ++ [newline]) }
    descriptor := d
    eof := (line ++ [newline]).isEmpty
    rdbuf := { f.rdbuf with start := 0, offs := (line ++ [newline]).length } } : File) = f1
  have hb : f1.buffered = line ++ [newline] := by
    rw [← hf1]
    exact load_store _ _ _
  have ha1 : f1.available = line.length+1 := by
    rw [← hf1]
    simp [available]
  unfold copyUntilFromReadBuffer
  rw [hb,idxOf_line hd]
  dsimp only
  obtain ⟨got,r,hco,hg,hbu,hca,hsp⟩ := f1.copyFromReadBuffer_eq dst str
    (min size.toNat (f1.rdbuf.buf+f1.rdbuf.start+line.length-f1.rdbuf.start+1))
  have hl := congrArg length hsp
  rw [length_append,hb,hg,ha1,length_append,length_singleton] at hl
  rw [length_append,length_singleton] at hfi
  obtain hn : buffered { f1 with rdbuf := r } = [] := length_eq_zero_iff.mp (by omega)
  rw [hn,append_nil,hb] at hsp
  rw [hco,hsp]
  refine ⟨{ f1 with rdbuf := r },rfl,⟨?_,?_,?_⟩,?_⟩
  · rw [← hf1]
    exact hs
  · rw [hbu,hca,← hf1]
    exact hf.within
  · rw [hca,← hf1]
    exact hf.cap
  have hp : pushedBack { f1 with rdbuf := r } = [] := by
    rw [← hf1,pushedBack,hu]
    rfl
  rw [upcoming_of_empty hav hu,← ha,upcoming,hp,hn,← hf1]
  rfl
end File

/-- The next line, or the bytes for which there is room. -/
def firstLine (n : Nat) (stream : List (BitVec 8)) : List (BitVec 8) :=
  (stream.take n).take ((stream.take n).idxOf newline+1)

theorem firstLine_eq {line : List (BitVec 8)} (h : newline ∉ line) {n : Nat}
    (hn : line.length+1 ≤ n) (rest : List (BitVec 8)) :
    firstLine n (line ++ [newline] ++ rest) = line ++ [newline] := by
  have hi : ((line ++ [newline] ++ rest).take n).idxOf newline = line.length := by
    rw [take_append,take_of_length_le (by simpa using hn),append_assoc,idxOf_append_of_notMem h]
    simp
  rw [firstLine,hi,take_take,min_eq_left hn]
  exact take_left' (by simp)

/-- A program that reads lines; `next` is the position of the byte behind the last one. -/
structure LineReader where
  file : File
  stream : List (BitVec 8)
  next : Nat

namespace LineReader
structure Call where
  dst : Bytes
  str : Nat
  size : Int

variable (s : LineReader)
def expected (call : Call) : List (BitVec 8) := firstLine (call.size-1).toNat (s.stream.drop s.next)

def step (call : Call) : Option LineReader :=
  (s.file.fgets call.dst call.str call.size).map fun (_,_,f) =>
    { s with file := f, next := s.next+(s.expected call).length }

def Opened : Prop := ∃ input : Input, input.Opened ∧ s.file = input.file ∧
  s.stream = input.stream ∧ s.next = 0

def OneLine (call : Call) (_ : LineReader) : Prop := s.file.OneLine call.dst call.str call.size

instance (call : Call) (s' : LineReader) : Decidable (s.OneLine call s') :=
  inferInstanceAs (Decidable (_ ∧ _))

def Aligned : Prop := s.file.Readable ∧ s.file.upcoming = s.stream.drop s.next

variable {s} {s' : LineReader} {call : Call}
theorem Opened.aligned (h : s.Opened) : s.Aligned := by
  obtain ⟨input,ho,hf,hs,hn⟩ := h
  rw [Aligned,hf,hs,hn]
  exact ⟨ho.faithful.readable,ho.upcoming_eq⟩

theorem Aligned.fgets_eq (h : s.Aligned) (hc : s.OneLine call s') : ∃ f',
    s.file.fgets call.dst call.str call.size =
      some (true,call.dst.store call.str (s.expected call),f') ∧ f'.Readable ∧
        f'.upcoming = s.stream.drop (s.next+(s.expected call).length) ∧
          call.dst (call.str+(s.expected call).length) = 0 := by
  obtain ⟨f',hf,hr,hu⟩ := File.OneLine.fgets_eq hc h.1
  obtain ⟨-,⟨hl,hd⟩,hfi,hn⟩ := hc
  obtain ⟨line,hli⟩ := getLast?_eq_some_iff.mp hl
  have he : s.expected call = s.file.nextChunk := by
    rw [hli,dropLast_concat] at hd
    rw [hli,length_append,length_singleton] at hfi
    rw [expected,← h.2,hu,hli]
    exact firstLine_eq hd (by omega) _
  rw [he]
  refine ⟨f',hf,hr,?_,hn⟩
  rw [← drop_drop,← h.2,hu]
  exact drop_left.symm

theorem Aligned.step_returns (h : s.Aligned) (hc : s.OneLine call s') :
    ∃ s'', s.step call = some s'' ∧ s''.Aligned := by
  obtain ⟨f',hf,hr,hu,-⟩ := h.fgets_eq hc
  exact ⟨_,by rw [step,hf]; rfl,hr,hu⟩

/-- A call stores the next line and leaves a NUL behind it; the next one continues there. -/
theorem lines_read (h : Reachable Opened step OneLine s) (hc : s.OneLine call s') :
    ∃ dst f', s.file.fgets call.dst call.str call.size = some (true,dst,f') ∧
      dst.load call.str ((s.expected call).length+1) = s.expected call ++ [0] ∧
        f'.upcoming = s.stream.drop (s.next+(s.expected call).length) := by
  have ha : s.Aligned := by
    refine h.invariant_of_taken (fun _ => Opened.aligned) fun s call s' ha hc => ?_
    exact ha.step_returns hc
  obtain ⟨f',hf,-,hu,hn⟩ := ha.fgets_eq hc
  refine ⟨_,f',hf,?_,hu⟩
  rw [load_add,load_store,load_store_outside _ (.inr le_rfl)]
  exact congrArg (fun c => _ ++ [c]) hn

theorem opened_fresh (stream : List (BitVec 8)) (f : File) (h : Input.inPairs stream = some f)
    (hb : f.hasBuffers = true) : Opened ⟨f,stream,0⟩ :=
  ⟨_,Input.opened_fresh stream f h hb,rfl,rfl,rfl⟩

theorem lines_read_second : ∃ s dst f', Reachable Opened step OneLine s ∧
    s.file.fgets (fun _ => 0) 0 8 = some (true,dst,f') ∧ dst.load 0 3 = [98,newline,0] := by
  obtain ⟨s,hr,hc,he⟩ : ∃ s, Reachable Opened step OneLine s ∧ s.OneLine ⟨fun _ => 0,0,8⟩ s ∧
      s.expected ⟨fun _ => 0,0,8⟩ = [98,newline] :=
    Reachable.exists_from (opened_fresh [97,newline,98,newline]) (fun s call => OneLine s call s)
      (fun _ _ _ h => of_decide_eq_true h) [⟨fun _ => 0,0,8⟩] (by decide +kernel)
  obtain ⟨dst,f',hf,hl,-⟩ := lines_read hr hc
  rw [he] at hl
  exact ⟨s,dst,f',hr,hf,hl⟩

/-- Two empty lines are copied at once, and the byte behind them is kept. -/
theorem lines_joined : ∃ s, Reachable Opened step anyStep s ∧ s.stream = [newline,newline] ∧
    s.expected ⟨fun _ => 1,0,8⟩ = [newline] ∧
      (s.file.fgets (fun _ => 1) 0 8).map (fun x => (x.1,x.2.1.load 0 3)) =
        some (true,[newline,newline,1]) :=
  Reachable.exists_from (opened_fresh [newline,newline]) (fun _ _ => true)
    (fun _ _ _ _ => trivial) [] (by decide +kernel)
end LineReader
end LensorOS.Libc
