import LensorOS.Libc.StreamBuffers

/-!
# Input of a stream

A read is served from a character that was pushed back, from the read buffer and from the
descriptor.
-/
namespace LensorOS.Libc
open Framework List Bytes
/-- Every `read` gets some bytes of the input that is left. -/
def Descriptor.Splits (d : Descriptor) : Prop := ∀ k n, 0 < n → ∃ m, d.transfers k n = some m ∧ 0 < m

theorem Descriptor.Splits.read_eq {d : Descriptor} (h : d.Splits) {count : Nat}
    (hc : 0 < count) : ∃ chunk d', d.read count = (some chunk,d') ∧ d'.Splits ∧
      chunk ++ d'.remaining = d.remaining ∧ chunk.length ≤ count ∧
        (chunk = [] → d.remaining = []) := by
  obtain ⟨m,hm,hp⟩ := h d.calls count hc
  have hr : d.read count = (some (d.remaining.take (min m count)), { d with
      remaining := d.remaining.drop (min m count), calls := d.calls+1 }) := by rw [Descriptor.read,hm]
  refine ⟨_,_,hr,h,take_append_drop _ _,?_,fun hn => ?_⟩
  · rw [length_take]
    omega
  rcases take_eq_nil_iff.mp hn with hz | he
  · omega
  · exact he

namespace File
def available (f : File) : Nat := f.rdbuf.offs-f.rdbuf.start

def buffered (f : File) : List (BitVec 8) := f.heap.memory.load (f.rdbuf.buf+f.rdbuf.start) f.available

def pushedBack (f : File) : List (BitVec 8) := if f.hasUngotten then [f.ungotten] else []
def upcoming (f : File) : List (BitVec 8) := f.pushedBack ++ f.buffered ++ f.descriptor.remaining

structure Readable (f : File) : Prop where
  splits : f.descriptor.Splits
  within : f.heap.heapBase ≤ f.rdbuf.buf ∧ f.rdbuf.buf+f.rdbuf.cap ≤ f.heap.heapBase+f.heap.heapSize
  cap : 0 < f.rdbuf.cap

/-- A request for `n` bytes gets the first bytes of the input, at least one if there is one. -/
structure Delivers (f : File) (dst : Bytes) (buf n : Nat) (d : List (BitVec 8)) (dst' : Bytes)
    (f' : File) : Prop where
  stored : dst' = dst.store buf d
  readable : f'.Readable
  input : d ++ f'.upcoming = f.upcoming
  short : d.length ≤ n
  none : d = [] → n = 0 ∨ f.upcoming = []

variable {f : File} {dst : Bytes} {buf size rest : Nat}
theorem copyFromReadBuffer_eq (f : File) (dst : Bytes) (buf size : Nat) :
    ∃ d r, f.copyFromReadBuffer dst buf size = (d.length, dst.store buf d, { f with rdbuf := r }) ∧
      d.length = min size f.available ∧ r.buf = f.rdbuf.buf ∧ r.cap = f.rdbuf.cap ∧
        d ++ buffered { f with rdbuf := r } = f.buffered := by
  have hc : ∀ n ≤ f.available, f.heap.memory.load (f.rdbuf.buf+f.rdbuf.start) n ++
      f.heap.memory.load (f.rdbuf.buf+f.rdbuf.start+n) (f.available-n) = f.buffered := by
    intro n hn
    rw [← load_add,Nat.add_sub_cancel' hn]
    rfl
  unfold copyFromReadBuffer
  by_cases hz : size = 0
  · refine ⟨[],f.rdbuf,?_,by simp [hz],rfl,rfl,rfl⟩
    rw [if_pos hz,store_nil]
    rfl
  rw [if_neg hz]
  by_cases hnone : f.rdbuf.offs ≤ f.rdbuf.start
  · refine ⟨[],f.rdbuf,?_,?_,rfl,rfl,rfl⟩
    · rw [if_pos hnone,store_nil]
      rfl
    · rw [available,Nat.sub_eq_zero_of_le hnone,Nat.min_zero]
      rfl
  rw [if_neg hnone]
  have hl : (f.heap.memory.load (f.rdbuf.buf+f.rdbuf.start) (min size f.available)).length =
      min size f.available := length_load _ _ _
  have hs := hc _ (min_le_right size f.available)
  by_cases ha : f.rdbuf.offs-f.rdbuf.start = min size (f.rdbuf.offs-f.rdbuf.start)
  · rw [if_pos ha]
    refine ⟨f.heap.memory.load (f.rdbuf.buf+f.rdbuf.start) (min size f.available),
      { f.rdbuf with start := 0, offs := 0 },by rw [hl]; rfl,hl,rfl,rfl,?_⟩
    have hrest : f.available-min size f.available = 0 := by
      unfold available
      omega
    rw [hrest,load_zero] at hs
    exact hs
  rw [if_neg ha]
  refine ⟨f.heap.memory.load (f.rdbuf.buf+f.rdbuf.start) (min size f.available),
    { f.rdbuf with start := f.rdbuf.start+min size f.available },by rw [hl]; rfl,
    hl,rfl,rfl,?_⟩
  rw [← hs]
  congr 1
  simp only [buffered,available]
  rw [add_assoc,Nat.sub_add_eq]

theorem upcoming_of_empty (hempty : f.available = 0) (hnone : f.hasUngotten = false) :
    f.upcoming = f.descriptor.remaining := by
  rw [upcoming,pushedBack,buffered,hempty,hnone]
  rfl

theorem count_eq {k : Nat} (hrest : rest ≤ size) (hsize : size < 2^64) (hk : k ≤ rest) :
    (size+2^64-rest+k) % 2^64 = size-rest+k := by omega

section
variable (h : f.Readable) (hempty : f.available = 0) (hnone : f.hasUngotten = false)
  (hrest : rest ≤ size) (hsize : size < 2^64) (dst : Bytes) (buf : Nat)
include h hempty hnone hrest hsize
theorem Readable.readBuffered_eq : ∃ d dst' f', f.readBuffered dst buf size rest =
        some (((size-rest+d.length : Nat) : Int), dst', f') ∧
      Delivers f dst buf rest d dst' f' := by
  obtain ⟨chunk,d',hre,hs,ha,hle,hend⟩ := h.splits.read_eq h.cap
  rw [readBuffered,hre]
  cases chunk with
  | nil =>
    have hu := upcoming_of_empty hempty hnone
    refine ⟨[],dst,{ f with descriptor := d', eof := true },?_,
      (store_nil _ _).symm,⟨hs,h.within,h.cap⟩,?_,Nat.zero_le _,fun _ => .inr (hu.trans (hend rfl))⟩
    · rw [length_nil,← count_eq hrest hsize (by omega),Nat.add_zero]
    rw [hu,← ha]
    congr 1
    exact upcoming_of_empty (f := { f with descriptor := d', eof := true }) hempty hnone
  | cons c more =>
    obtain ⟨hl,hh⟩ := h.within
    have hm : f.heap.memcpy f.rdbuf.buf (c :: more) =
        some { f.heap with memory := f.heap.memory.store f.rdbuf.buf (c :: more) } :=
      if_pos (.inr ⟨hl,by omega⟩)
    dsimp only
    rw [hm,Option.map_some]
    -- The stream with the chunk in its read buffer.
    generalize hf1 : ({ f with
      heap := { f.heap with memory := f.heap.memory.store f.rdbuf.buf (c :: more) }
      descriptor := d'
      rdbuf := { f.rdbuf with start := 0, offs := (c :: more).length } } : File) = f1
    have hc : f1.buffered = c :: more := by
      rw [← hf1]
      exact load_store _ _ _
    have hp : f1.pushedBack = [] := by
      rw [← hf1,pushedBack,hnone]
      rfl
    obtain ⟨d,r,hco,hd,hb,hca,hsp⟩ := f1.copyFromReadBuffer_eq dst buf rest
    have hdr : d.length ≤ rest := by omega
    rw [hco]
    refine ⟨d,_,{ f1 with rdbuf := r },?_,rfl,⟨?_,?_,?_⟩,?_,hdr,fun hz => .inl ?_⟩
    · by_cases hal : d.length = rest
      · rw [if_pos hal,hal,Nat.sub_add_cancel hrest]
      · rw [if_neg hal,count_eq hrest hsize hdr]
    · rw [← hf1]
      exact hs
    · rw [hb,hca,← hf1]
      exact h.within
    · rw [hca,← hf1]
      exact h.cap
    · have hp' : pushedBack { f1 with rdbuf := r } = [] := hp
      have hr : f1.descriptor.remaining = d'.remaining := by rw [← hf1]
      rw [upcoming,hp',nil_append,← append_assoc,hsp,hc,
        upcoming_of_empty hempty hnone,← ha,hr]
    · have hav : f1.available = more.length+1 := by rw [← hf1]; rfl
      rw [hz,length_nil,hav] at hd
      omega

theorem Readable.readDescriptor_eq : ∃ d dst' f', f.readDescriptor dst buf size rest =
        some (((size-rest+d.length : Nat) : Int), dst', f') ∧
      Delivers f dst buf rest d dst' f' := by
  by_cases hsm : rest < bufferedReadThreshold
  · rw [readDescriptor,if_pos hsm]
    exact h.readBuffered_eq hempty hnone hrest hsize dst buf
  have hp : 0 < rest := by
    unfold bufferedReadThreshold at hsm
    omega
  obtain ⟨chunk,d',hr,hs,ha,hl,hend⟩ := h.splits.read_eq hp
  have hu := upcoming_of_empty hempty hnone
  rw [readDescriptor,if_neg hsm,readThrough,hr]
  refine ⟨chunk,_,{ f with descriptor := d', eof := f.eof || chunk.isEmpty },?_,rfl,
    ⟨hs,h.within,h.cap⟩,?_,hl,fun hz => .inr (hu.trans (hend hz))⟩
  · rw [← count_eq hrest hsize hl]
  rw [hu,← ha]
  congr 1
  exact upcoming_of_empty (f := { f with descriptor := d', eof := f.eof || chunk.isEmpty }) hempty hnone
end

/-- The read buffer has all of the rest or nothing, or there is no further input. -/
def Whole (f : File) (rest : Nat) : Prop := rest ≤ f.available ∨ f.available = 0 ∨ f.descriptor.remaining = []

instance (f : File) (rest : Nat) : Decidable (f.Whole rest) :=
  inferInstanceAs (Decidable (_ ∨ _ ∨ _))

theorem Readable.readRest_eq (h : f.Readable) (hnone : f.hasUngotten = false)
    (hw : f.Whole rest) (hrest : rest ≤ size) (hsize : size < 2^64) (dst : Bytes)
    (buf : Nat) : ∃ d dst' f', f.readRest dst buf size rest =
        some (((size-rest+d.length : Nat) : Int), dst', f') ∧
      Delivers f dst buf rest d dst' f' := by
  unfold readRest
  by_cases hb : f.rdbuf.offs > f.rdbuf.start
  · have ha : f.available ≠ 0 := by
      unfold available
      omega
    obtain ⟨d,r,hc,hd,hbu,hca,hs⟩ := f.copyFromReadBuffer_eq dst buf rest
    have hr : Readable { f with rdbuf := r } :=
      ⟨h.splits,by rw [hbu,hca]; exact h.within,by rw [hca]; exact h.cap⟩
    have hi : d ++ upcoming { f with rdbuf := r } = f.upcoming := by
      have hp : pushedBack { f with rdbuf := r } = [] := by
        rw [pushedBack,hnone]
        rfl
      have hp' : f.pushedBack = [] := hp
      rw [upcoming,hp,upcoming,hp',nil_append,nil_append,← append_assoc,hs]
    have hno : d = [] → rest = 0 ∨ f.upcoming = [] := by
      rintro rfl
      rw [length_nil] at hd
      omega
    rw [if_pos hb,hc]
    dsimp only
    rw [if_neg (by omega)]
    by_cases hal : d.length = rest
    · rw [if_pos hal]
      refine ⟨d,_,_,?_,rfl,hr,hi,hal.le,hno⟩
      rw [hal,Nat.sub_add_cancel hrest]
    -- Part of the bytes were there, so that nothing is left behind the descriptor.
    have he : f.descriptor.remaining = [] := by
      rcases hw with hle | hz | he
      · omega
      · exact absurd hz ha
      · exact he
    rw [if_neg hal]
    have hempty : available { f with rdbuf := r } = 0 := by
      have hl := congrArg length hs
      rw [length_append,buffered,buffered,length_load,length_load] at hl
      omega
    obtain ⟨d',dst',f',hre,hde⟩ := hr.readDescriptor_eq hempty hnone
      (by omega : rest-d.length ≤ size) hsize (dst.store buf d) buf
    have hn : d' = [] := by
      have hi' := hde.input
      rw [upcoming_of_empty hempty hnone,he] at hi'
      exact (append_eq_nil_iff.mp hi').1
    subst hn
    refine ⟨d,dst',f',?_,?_,hde.readable,?_,by omega,hno⟩
    · rw [hre,length_nil]
      congr 3
      omega
    · rw [hde.stored,store_nil]
    · rw [← hi,← hde.input,nil_append]
  · rw [if_neg hb]
    have hempty := Nat.sub_eq_zero_of_le (not_lt.mp hb)
    exact h.readDescriptor_eq hempty hnone hrest hsize dst buf

/-- Reads of no bytes do not meet a character that was pushed back, and reads are not split between
the read buffer and the descriptor. -/
def Unsplit (f : File) (size : Nat) : Prop :=
  if f.hasUngotten then 0 < size ∧ f.Whole (size-1) else f.Whole size

instance (f : File) (size : Nat) : Decidable (f.Unsplit size) :=
  inferInstanceAs (Decidable (if f.hasUngotten then 0 < size ∧ f.Whole (size-1) else f.Whole size))

theorem Readable.read_eq (h : f.Readable) (hu : f.Unsplit size) (hsize : size < 2^64)
    (dst : Bytes) (buf : Nat) : ∃ n dst' f', f.read dst buf size = some (n,dst',f') ∧
      (n = -1 ∧ f' = f ∧ (f.error ∨ f.eof) ∨ ∃ d, n = d.length ∧ Delivers f dst buf size d dst' f') := by
  unfold read
  by_cases he : f.error
  · rw [if_pos he]
    exact ⟨_,_,_,rfl,.inl ⟨rfl,rfl,.inl he⟩⟩
  rw [if_neg he]
  by_cases heo : f.eof
  · rw [if_pos heo]
    exact ⟨_,_,_,rfl,.inl ⟨rfl,rfl,.inr heo⟩⟩
  rw [if_neg heo]
  unfold Unsplit at hu
  by_cases hun : f.hasUngotten
  · rw [if_pos hun] at hu ⊢
    obtain ⟨hp,hw⟩ := hu
    have hup : f.upcoming = f.ungotten :: upcoming { f with hasUngotten := false } := by
      rw [upcoming,pushedBack,if_pos hun]
      rfl
    have hr : Readable { f with hasUngotten := false } := ⟨h.splits,h.within,h.cap⟩
    by_cases ho : size = 1
    · rw [if_pos ho]
      refine ⟨_,_,_,rfl,.inr ⟨[f.ungotten],rfl,?_,hr,hup.symm,hp,nofun⟩⟩
      exact (store_singleton _ _ _).symm
    rw [if_neg ho,show (size+2^64-1) % 2^64 = size-1 by omega]
    obtain ⟨d,dst',f',hre,hd⟩ := hr.readRest_eq rfl hw
      (by omega) hsize (dst.write8 buf f.ungotten) (buf+1)
    refine ⟨_,dst',f',hre,.inr ⟨f.ungotten :: d,?_,?_,hd.readable,?_,?_,nofun⟩⟩
    · rw [length_cons]
      congr 1
      omega
    · rw [hd.stored,← store_singleton]
      exact (store_append _ _ [f.ungotten] d).symm
    · rw [hup,← hd.input,cons_append]
    · have hl := hd.short
      rw [length_cons]
      omega
  · rw [if_neg hun] at hu ⊢
    have hnone : f.hasUngotten = false := Bool.not_eq_true _ ▸ hun
    obtain ⟨d,dst',f',hre,hd⟩ := h.readRest_eq hnone hu (by omega) hsize dst buf
    rw [Nat.sub_self,Nat.zero_add] at hre
    exact ⟨_,dst',f',hre,.inr ⟨d,rfl,hd⟩⟩

theorem unget_upcoming (h : f.hasUngotten = false) (c : BitVec 8) : (f.unget c).2.upcoming = c :: f.upcoming := by
  have hnone : f.pushedBack = [] := by
    rw [pushedBack,h]
    rfl
  rw [unget,h,upcoming,upcoming,hnone]
  rfl

theorem Readable.unget (h : f.Readable) (c : BitVec 8) : (f.unget c).2.Readable := by
  unfold File.unget
  split
  · exact h
  · exact ⟨h.splits,h.within,h.cap⟩

theorem New.readable {d : Descriptor} (h : f.New d) (hd : d.Splits) : f.Readable ∧ f.upcoming = d.remaining := by
  obtain ⟨others,hs⟩ := h.allocated
  obtain ⟨-,hl,hh,-⟩ := hs.within (mem_cons_of_mem _ mem_cons_self)
  have hempty : f.available = 0 := by
    rw [available,h.rdbuf]
    rfl
  refine ⟨⟨?_,⟨hl,hh⟩,?_⟩,?_⟩
  · rw [h.descriptor]
    exact hd
  · rw [h.rdbuf]
    exact (by decide : 0 < bufsiz)
  · rw [upcoming_of_empty hempty h.hasUngotten,h.descriptor]
end File

/-- What a program sees of a stream: bytes that a read returned, and characters that it pushed
back. -/
inductive InputEvent
  | delivered (bytes : List (BitVec 8))
  | pushedBack (c : BitVec 8)
deriving DecidableEq

/-- The input that is left of a stream after events, which take bytes from its front and put
characters there. `none` when bytes were delivered that are not at the front. -/
def replay : List (BitVec 8) → List InputEvent → Option (List (BitVec 8))
  | stream, [] => some stream
  | stream, .delivered bytes :: log =>
    if bytes <+: stream then replay (stream.drop bytes.length) log else none
  | stream, .pushedBack c :: log => replay (c :: stream) log

theorem replay_append (stream : List (BitVec 8)) (log more : List InputEvent) :
    replay stream (log ++ more) = (replay stream log).bind fun rest => replay rest more := by
  induction log generalizing stream with
  | nil => rfl
  | cons e log ih =>
    cases e with
    | delivered bytes =>
      simp only [cons_append,replay]
      split
      · exact ih _
      · rfl
    | pushedBack c => exact ih _

def deliveredBytes (log : List InputEvent) : List (BitVec 8) := log.flatMap fun e => match e with
    | .delivered bytes => bytes
    | .pushedBack _ => []

theorem replay_isPrefix {stream rest : List (BitVec 8)} {log : List InputEvent}
    (h : replay stream log = some rest) (hl : ∀ c, .pushedBack c ∉ log) :
    deliveredBytes log ++ rest = stream := by
  induction log generalizing stream with
  | nil => exact (Option.some.inj h).symm
  | cons e log ih =>
    cases e with
    | delivered bytes =>
      obtain ⟨hf,hrest⟩ := Option.ite_none_right_eq_some.mp h
      have hm := ih hrest fun c hc => hl c (mem_cons_of_mem _ hc)
      rw [deliveredBytes,flatMap_cons,append_assoc]
      refine (congrArg (bytes ++ ·) hm).trans ?_
      obtain ⟨tail,rfl⟩ := hf
      rw [drop_left]
    | pushedBack c => exact absurd mem_cons_self (hl c)

/-- A program that reads from a stream, with the input that was behind the descriptor. -/
structure Input where
  file : File
  stream : List (BitVec 8)
  log : List InputEvent

namespace Input
inductive Call
  | read (dst : Bytes) (buf size : Nat)
  | unget (c : BitVec 8)

/-- A call; `none` when it does not return. The bytes delivered are those at the destination. -/
def step (s : Input) : Call → Option Input
  | .read dst buf size => (s.file.read dst buf size).map fun (n,dst,f) =>
    { s with
      file := f
      log := if n < 0 then s.log else s.log ++ [.delivered (dst.load buf n.toNat)] }
  | .unget c => some { s with
      file := (s.file.unget c).2
      log := if s.file.hasUngotten then s.log else s.log ++ [.pushedBack c] }

def Opened (s : Input) : Prop :=
  ∃ (c : Client) (d : Descriptor) (mode : Buffering), c.Sound ∧ d.Splits ∧
    d.remaining = s.stream ∧ File.create c.heap d mode = some s.file ∧ s.file.wbuf.buf ≠ 0 ∧
      s.file.rdbuf.buf ≠ 0 ∧ s.log = []

def Sized (_ : Input) (call : Call) (_ : Input) : Prop := match call with
  | .read _ _ size => size < 2^64
  | .unget _ => True

instance (s : Input) (call : Call) (s' : Input) : Decidable (Sized s call s') := match call with
  | .read _ _ size => inferInstanceAs (Decidable (size < 2^64))
  | .unget _ => inferInstanceAs (Decidable True)

def Unsplit (s : Input) (call : Call) (_ : Input) : Prop := match call with
  | .read _ _ size => size < 2^64 ∧ s.file.Unsplit size
  | .unget _ => True

instance (s : Input) (call : Call) (s' : Input) : Decidable (Unsplit s call s') := match call with
  | .read _ _ size => inferInstanceAs (Decidable (size < 2^64 ∧ _))
  | .unget _ => inferInstanceAs (Decidable True)

/-- The input that was delivered and the input to come are the stream. -/
structure Faithful (s : Input) : Prop where
  readable : s.file.Readable
  explained : replay s.stream s.log = some s.file.upcoming

variable {s s' : Input} {call : Call}
theorem Opened.faithful (h : s.Opened) : s.Faithful := by
  obtain ⟨c,d,mode,hso,hd,hs,hc,hw,hrd,hl⟩ := h
  obtain ⟨hr,hu⟩ := (File.new_of_create hso hc hw hrd).readable hd
  exact ⟨hr,by rw [hl,hu,hs]; rfl⟩

theorem Opened.upcoming_eq (h : s.Opened) : s.file.upcoming = s.stream := by
  have hu := h.faithful.explained
  obtain ⟨-,-,-,-,-,-,-,-,-,hl⟩ := h
  rw [hl] at hu
  exact (Option.some.inj hu).symm

theorem Faithful.step_returns (h : s.Faithful) (hc : Unsplit s call s') :
    ∃ s'', s.step call = some s'' ∧ s''.Faithful := by
  cases call with
  | read dst buf size =>
    obtain ⟨hsize,hun⟩ := hc
    obtain ⟨n,dst',f',hre,hr⟩ := h.readable.read_eq hun hsize dst buf
    refine ⟨_,by rw [step,hre]; rfl,?_⟩
    rcases hr with ⟨rfl,rfl,-⟩ | ⟨d,rfl,hd⟩
    · exact h
    refine ⟨hd.readable,?_⟩
    have hl : dst'.load buf d.length = d := by rw [hd.stored,load_store]
    dsimp only
    rw [if_neg (by omega),Int.toNat_natCast,hl,replay_append,h.explained,
      Option.bind_some,← hd.input,replay,if_pos (prefix_append _ _), drop_left]
    rfl
  | unget c =>
    refine ⟨_,rfl,h.readable.unget c,?_⟩
    by_cases hu : s.file.hasUngotten
    · rw [if_pos hu,h.explained,File.unget,if_pos hu]
    have hnone : s.file.hasUngotten = false := Bool.not_eq_true _ ▸ hu
    rw [if_neg hu,replay_append,h.explained,File.unget_upcoming hnone]
    rfl

theorem faithful_of_run (h : Reachable Opened step Unsplit s) : s.Faithful := by
  refine h.invariant_of_taken (fun _ => Opened.faithful) fun s call s' hs hc => ?_
  exact hs.step_returns hc

/-- What was delivered, with the characters that were pushed back, is the front of the stream; the
rest is still to come. The next call returns. -/
theorem input_in_order (h : Reachable Opened step Unsplit s) :
    replay s.stream s.log = some s.file.upcoming ∧
      ((∀ c, .pushedBack c ∉ s.log) → deliveredBytes s.log ++ s.file.upcoming = s.stream) ∧
        ∀ call s', Unsplit s call s' → (s.step call).isSome := by
  have hf := faithful_of_run h
  refine ⟨hf.explained,replay_isPrefix hf.explained,fun call s' hc => ?_⟩
  obtain ⟨s'',hs,-⟩ := hf.step_returns hc
  rw [hs]
  rfl

/-- A stream of which two bytes are read at a time. -/
def inPairs (stream : List (BitVec 8)) : Option File := File.fresh ⟨[],stream,fun _ _ => some 2,0⟩ .fullyBuffered

theorem opened_fresh (stream : List (BitVec 8)) (f : File) (h : inPairs stream = some f)
    (hb : f.hasBuffers = true) : Opened ⟨f,stream,[]⟩ := by
  obtain ⟨c,hs,hf,hw,hr⟩ := File.fresh_created h hb
  exact ⟨c,_,_,hs,fun _ _ _ => ⟨2,rfl,by decide⟩,rfl,hf,hw,hr,rfl⟩

/-- Reads that are served from the descriptor, from the buffer and from a character that was pushed
back. -/
theorem input_in_order_four : ∃ s, Reachable Opened step Unsplit s ∧
    s.log = [.delivered [97],.pushedBack 120,.delivered [120,98],.delivered [99,100]] ∧
      replay s.stream s.log = some s.file.upcoming := by
  obtain ⟨s,hr,hl⟩ : ∃ s, Reachable Opened step Unsplit s ∧
      s.log = [.delivered [97],.pushedBack 120,.delivered [120,98],.delivered [99,100]] :=
    Reachable.exists_from (opened_fresh [97,98,99,100,101])
      (fun s call => Unsplit s call s) (fun _ _ _ h => of_decide_eq_true h)
      [.read (fun _ => 0) 0 1,.unget 120,.read (fun _ => 0) 0 2,.read (fun _ => 0) 0 70]
      (by decide +kernel)
  exact ⟨s,hr,hl,(input_in_order hr).1⟩

/-- One byte, and then three more, of which the buffer has one: it is overwritten by those from the
descriptor, and the last byte is not written at all. -/
theorem split_read_overwrites : ∃ s, Reachable Opened step Sized s ∧ s.stream = [97,98,99,100] ∧
      s.log = [.delivered [97],.delivered [99,100,0]] ∧ replay s.stream s.log = none := by
  obtain ⟨s,hr,hs,hl⟩ : ∃ s, Reachable Opened step Sized s ∧
      s.stream = [97,98,99,100] ∧ s.log = [.delivered [97],.delivered [99,100,0]] :=
    Reachable.exists_from (opened_fresh [97,98,99,100])
      (fun s call => Sized s call s) (fun _ _ _ h => of_decide_eq_true h)
      [.read (fun _ => 0) 0 1,.read (fun _ => 0) 0 3] (by decide +kernel)
  refine ⟨s,hr,hs,hl,?_⟩
  rw [hs,hl]
  decide
end Input
end LensorOS.Libc
