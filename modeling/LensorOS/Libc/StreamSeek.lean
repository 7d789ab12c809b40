import LensorOS.Kernel.Seek
import LensorOS.Libc.StreamInput

/-!
# Seeking in a stream

The bytes of the read buffer are kept by a seek, and come in front of those at the new position.
-/
namespace LensorOS.Libc
open Framework Kernel List
/-- A program that reads from a file; `next` is the position of the byte that it expects next. -/
structure Browser where
  file : File
  content : List (BitVec 8)
  next : Nat

namespace Browser
inductive Call
  | read (dst : Bytes) (buf size : Nat)
  | seek (offset : Int) (whence : Nat)

variable (s : Browser)
/-- The file as it is for a program that expects the byte at `offset` next. -/
def place (offset : Nat) : FileMetadata := ⟨offset,s.content.length,.fileAllocationTable 0⟩

def seek (offset : Int) (whence : Nat) : Int × File :=
  let remaining := s.file.descriptor.remaining
  let target := VFS.seekOffset (s.place (s.content.length-remaining.length)) offset whence
  s.file.seek (if target.isSome then 0 else 1) (target.elim remaining s.content.drop)

def step : Call → Option Browser
  | .read dst buf size => (s.file.read dst buf size).map fun (n,_,f) =>
    { s with file := f, next := s.next+n.toNat }
  | .seek offset whence => some { s with
      file := (s.seek offset whence).2
      next := ((s.place s.next).seekWithin offset whence).getD s.next }

def Opened : Prop := ∃ input : Input, input.Opened ∧ s.file = input.file ∧
  s.content = input.stream ∧ s.content.length < 2^63 ∧ s.next = 0

/-- Seeks succeed, go to positions in the file, and find nothing in the read buffer. -/
def Settled (call : Call) (_ : Browser) : Prop := match call with
  | .read _ _ size => size < 2^64 ∧ s.file.Unsplit size
  | .seek offset whence => s.file.pushedBack ++ s.file.buffered = [] ∧ offset < 2^63 ∧
      (s.seek offset whence).1 = 0 ∧ ((s.place s.next).seekWithin offset whence).isSome

instance (call : Call) (s' : Browser) : Decidable (s.Settled call s') := match call with
  | .read _ _ _ => inferInstanceAs (Decidable (_ ∧ _))
  | .seek _ _ => inferInstanceAs (Decidable (_ ∧ _))

structure Aligned : Prop where
  readable : s.file.Readable
  upcoming : s.file.upcoming = s.content.drop s.next
  size : s.content.length < 2^63
  within : s.next ≤ s.content.length

variable {s} {s' : Browser} {call : Call}
theorem Opened.aligned (h : s.Opened) : s.Aligned := by
  obtain ⟨input,ho,hf,hc,hs,hn⟩ := h
  refine ⟨hf ▸ ho.faithful.readable,?_,hs,by omega⟩
  rw [hf,hn,hc]
  exact ho.upcoming_eq

theorem seek_keeps (f : File) (answer : Int) (remaining : List (BitVec 8)) :
    let f' := (f.seek answer remaining).2
    f'.heap = f.heap ∧ f'.rdbuf = f.rdbuf ∧ f'.hasUngotten = false ∧ f'.eof = false ∧
      f'.descriptor.transfers = f.descriptor.transfers ∧
        ((f.seek answer remaining).1 = 0 → answer = 0 ∧ f'.descriptor.remaining = remaining) := by
  unfold File.seek File.flush Descriptor.write
  grind

theorem seekOffset_of_within {offset : Int} {whence t : Nat} {file : FileMetadata}
    (hl : file.offset ≤ file.fileSize) (hsi : file.fileSize < 2^63) (hh : offset < 2^63)
    (hs : (VFS.seekOffset file offset whence).isSome)
    (ht : file.seekWithin offset whence = some t) : VFS.seekOffset file offset whence = some t := by
  rw [← ht,VFS.seek_eq_iff hl (by omega) hh]
  rintro (⟨rfl,hm⟩ | ⟨rfl,hm⟩ | ⟨rfl,rfl⟩)
  · rw [FileMetadata.seekWithin_eq rfl,if_neg (by omega)] at ht
    cases ht
  · rw [FileMetadata.seekWithin_eq rfl,if_neg (by omega)] at ht
    cases ht
  · simp [VFS.seekOffset] at hs

theorem Aligned.seek_eq {offset : Int} {whence : Nat} (h : s.Aligned)
    (hc : s.Settled (.seek offset whence) s') :
    ∃ t ≤ s.content.length, (s.place s.next).seekWithin offset whence = some t ∧
      s.seek offset whence = s.file.seek 0 (s.content.drop t) := by
  obtain ⟨hn,hh,hs,hw⟩ := hc
  obtain ⟨t,ht⟩ := Option.isSome_iff_exists.mp hw
  have hu := h.upcoming
  rw [File.upcoming,hn,nil_append] at hu
  have hwi := h.within
  -- The kernel's offset is the position that the program is at.
  have hpl : s.content.length-s.file.descriptor.remaining.length = s.next := by
    rw [hu,length_drop]
    omega
  refine ⟨t,?_,ht,?_⟩
  · obtain ⟨position,-,hp⟩ := Option.bind_eq_some_iff.mp ht
    obtain ⟨hi,he⟩ := Option.ite_none_right_eq_some.mp hp
    cases he
    exact Int.toNat_le.mpr hi.2
  simp only [seek,hpl] at hs ⊢
  cases hta : VFS.seekOffset (s.place s.next) offset whence with
  | none =>
    rw [hta] at hs
    exact absurd ((seek_keeps _ _ _).2.2.2.2.2 hs).1 (by decide)
  | some t' =>
    have hsa := seekOffset_of_within hwi h.size hh (by rw [hta]; rfl) ht
    obtain rfl : t' = t := Option.some.inj (hta.symm.trans hsa)
    rfl

theorem Aligned.step_returns (h : s.Aligned) (hc : s.Settled call s') :
    ∃ s'', s.step call = some s'' ∧ s''.Aligned := by
  cases call with
  | read dst buf size =>
    obtain ⟨n,dst',f',hre,hr⟩ := h.readable.read_eq hc.2 hc.1 dst buf
    refine ⟨_,by rw [step,hre]; rfl,?_⟩
    rcases hr with ⟨rfl,rfl,-⟩ | ⟨d,rfl,hd⟩
    · exact h
    have hi := hd.input
    rw [h.upcoming] at hi
    have hl := congrArg length hi
    have hw := h.within
    rw [length_append,length_drop] at hl
    refine ⟨hd.readable,?_,h.size,?_⟩
    · rw [← drop_drop,← hi]
      exact drop_left.symm
    · simp only [Int.toNat_natCast]
      omega
  | seek offset whence =>
    obtain ⟨t,hle,ht,heq⟩ := h.seek_eq hc
    have hs := hc.2.2.1
    have hn := hc.1
    rw [heq] at hs
    obtain ⟨hh,hrd,hu,-,htr,hz⟩ := seek_keeps s.file 0 (s.content.drop t)
    have hst : s.step (.seek offset whence) =
        some { s with file := (s.file.seek 0 (s.content.drop t)).2, next := t } := by
      rw [step,heq,ht]
      rfl
    have hb : (s.file.seek 0 (s.content.drop t)).2.buffered = s.file.buffered := by
      rw [File.buffered,File.available,hh,hrd]
      rfl
    refine ⟨_,hst,⟨?_,?_,?_⟩,?_,h.size,hle⟩
    · intro k n
      rw [htr]
      exact h.readable.splits k n
    · rw [hh,hrd]
      exact h.readable.within
    · rw [hrd]
      exact h.readable.cap
    · rw [File.upcoming,hb,(append_eq_nil_iff.mp hn).2,File.pushedBack,hu,(hz hs).2]
      rfl

/-- A read gets the bytes at the position that the program is at, also after a seek. -/
theorem seek_reads (h : Reachable Opened step Settled s) {size : Nat} (hsize : size < 2^64)
    (hun : s.file.Unsplit size) (herror : s.file.error = false) (heof : s.file.eof = false)
    (dst : Bytes) (buf : Nat) : ∃ d f', s.file.read dst buf size = some ((d.length : Int),dst.store buf d,f') ∧
      d <+: s.content.drop s.next ∧ d.length ≤ size ∧
        (0 < size → s.next < s.content.length → d ≠ []) := by
  have ha : s.Aligned := by
    refine h.invariant_of_taken (fun _ => Opened.aligned) fun s call s' ha hc => ?_
    exact ha.step_returns hc
  obtain ⟨n,dst',f',hr,⟨-,-,hf⟩ | ⟨d,rfl,hd⟩⟩ := ha.readable.read_eq hun hsize dst buf
  · simp [herror,heof] at hf
  · obtain rfl := hd.stored
    refine ⟨d,f',hr,⟨f'.upcoming,hd.input.trans ha.upcoming⟩,hd.short,fun hp hn hz => ?_⟩
    rcases hd.none hz with h0 | hu
    · omega
    · rw [ha.upcoming,drop_eq_nil_iff] at hu
      omega

theorem opened_fresh (f : File) (h : Input.inPairs [97,98,99,100] = some f) (hb : f.hasBuffers = true) :
    Opened ⟨f,[97,98,99,100],0⟩ :=
  ⟨_,Input.opened_fresh _ f h hb,rfl,rfl,(by decide : 4 < 2^63),rfl⟩

theorem seek_reads_again : ∃ s d f', Reachable Opened step Settled s ∧ s.content = [97,98,99,100] ∧
    s.next = 1 ∧ s.file.read (fun _ => 0) 0 1 = some ((d.length : Int),Bytes.store (fun _ => 0) 0 d,f') ∧
      d = [98] := by
  obtain ⟨s,hr,hc,hn,hu,he,heo⟩ : ∃ s, Reachable Opened step Settled s ∧ s.content = [97,98,99,100] ∧
      s.next = 1 ∧ s.file.Unsplit 1 ∧ s.file.error = false ∧ s.file.eof = false :=
    Reachable.exists_from opened_fresh (fun s call => Settled s call s)
      (fun _ _ _ h => of_decide_eq_true h) [.read (fun _ => 0) 0 2,.seek 1 2] (by decide +kernel)
  obtain ⟨d,f',hre,hd,hl,hne⟩ := seek_reads hr (by decide) hu he heo (fun _ => 0) 0
  rw [hc,hn] at hd hne
  obtain ⟨c,rfl⟩ := length_eq_one_iff.mp (le_antisymm hl (length_pos_iff.mpr (hne (by decide) (by decide))))
  exact ⟨s,[c],f',hr,hc,hn,hre,congrArg (fun c => [c]) (cons_prefix_cons.mp hd).1⟩

/-- After one byte was read, the program goes back to the first one, and gets the second. -/
theorem seek_keeps_buffer : ∃ s, Reachable Opened step anyStep s ∧ s.next = 0 ∧
    s.content = [97,98,99,100] ∧
      (s.file.read (fun _ => 0) 0 1).map (fun x => (x.1,x.2.1 0)) = some (1,98) :=
  Reachable.exists_from opened_fresh (fun _ _ => true) (fun _ _ _ _ => trivial)
    [.read (fun _ => 0) 0 1,.seek 0 2] (by decide +kernel)
end Browser
end LensorOS.Libc
