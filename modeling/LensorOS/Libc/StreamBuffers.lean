import LensorOS.Libc.MallocSafety
import LensorOS.Libc.Stdio

/-!
# Buffers of a stream

The buffers are blocks of the heap, next to the other blocks of a program: when a stream is created
and when a buffer gets another size.
-/
namespace LensorOS.Libc
open Framework Client
section
variable {h : Heap} {size : Nat} {rest : List (Nat × Nat)}
theorem realloc_replaces {p n : Nat} (hs : Sound ⟨h,(p,n) :: rest⟩)
    (hsi : size ≤ 2^62) (copyData : Bool) : ∃ q h', h.reallocImpl copyData p size = .ok (q,h') ∧
      (q ≠ 0 → Sound ⟨h',(q,size) :: rest⟩) := by
  have hl : Live ⟨h,(p,n) :: rest⟩ p := .inr List.mem_cons_self
  obtain ⟨q,h',hr,hs'⟩ := realloc_returns hs hl hsi copyData
  refine ⟨q,h',hr,fun hq => ?_⟩
  rw [replace_cons hs.nodup hq] at hs'
  exact hs'

theorem malloc_adds (hs : Sound ⟨h,rest⟩) (hsi : size ≤ 2^62) :
    ∃ p h', h.malloc size = .ok (p,h') ∧ (p ≠ 0 → Sound ⟨h',(p,size) :: rest⟩) := by
  obtain ⟨p,h',hm,hs'⟩ := malloc_returns hs hsi
  obtain ⟨tiles,allocated,free,-,hb⟩ := hs
  refine ⟨p,h',hm,fun hp => ?_⟩
  rw [replace,if_neg hp,hb.filter_null] at hs'
  exact hs'

theorem WriteBuffer.resize_eq {b : WriteBuffer}
    (hs : Sound ⟨h,(b.buf,b.cap) :: rest⟩) (hsi : size ≤ 2^62) :
    ∃ b' h', b.resize h size = some (b',h') ∧ b'.offs = b.offs ∧
      (b'.buf ≠ 0 → Sound ⟨h',(b'.buf,b'.cap) :: rest⟩) := by
  unfold WriteBuffer.resize
  by_cases hc : b.cap ≠ size
  · obtain ⟨q,h',hr,hs'⟩ := realloc_replaces hs hsi false
    rw [if_pos hc,Heap.mextend,hr]
    exact ⟨_,h',rfl,rfl,hs'⟩
  · rw [if_neg hc]
    exact ⟨b,h,rfl,rfl,fun _ => hs⟩

theorem ReadBuffer.resize_eq {b : ReadBuffer}
    (hs : Sound ⟨h,(b.buf,b.cap) :: rest⟩) (hsi : size ≤ 2^62) :
    ∃ b' h', b.resize h size = some (b',h') ∧ (b'.buf ≠ 0 → Sound ⟨h',(b'.buf,b'.cap) :: rest⟩) := by
  unfold ReadBuffer.resize
  by_cases hc : b.cap ≠ size
  · rw [if_pos hc]
    by_cases he : b.offs = 0
    · obtain ⟨q,h',hr,hs'⟩ := realloc_replaces hs hsi false
      rw [if_pos he,Heap.mextend,hr]
      exact ⟨_,h',rfl,hs'⟩
    obtain ⟨q,h',hr,hs'⟩ := realloc_replaces hs ((min_le_right b.offs size).trans hsi) true
    rw [if_neg he,Heap.realloc,hr]
    exact ⟨_,h',rfl,hs'⟩
  · rw [if_neg hc]
    exact ⟨b,h,rfl,fun _ => hs⟩
end

namespace File
structure New (f : File) (d : Descriptor) : Prop where
  allocated : ∃ others, Sound
    ⟨f.heap,(f.wbuf.buf,f.wbuf.cap) :: (f.rdbuf.buf,f.rdbuf.cap) :: others⟩
  wbuf : f.wbuf.offs = 0
  rdbuf : f.rdbuf = ⟨f.rdbuf.buf,0,0,bufsiz⟩
  descriptor : f.descriptor = d
  error : f.error = false
  hasUngotten : f.hasUngotten = false

theorem new_of_create {c : Client} {d : Descriptor} {mode : Buffering} {f : File}
    (hs : c.Sound) (hc : create c.heap d mode = some f) (hw : f.wbuf.buf ≠ 0)
    (hr : f.rdbuf.buf ≠ 0) : f.New d := by
  have hsi : bufsiz ≤ 2^62 := by decide
  obtain ⟨p,h1,hm1,hs1⟩ := malloc_adds hs hsi
  rw [create,hm1] at hc
  dsimp only at hc
  cases hm2 : h1.malloc bufsiz with
  | error fault =>
    rw [hm2] at hc
    cases hc
  | ok x =>
    rw [hm2] at hc
    cases hc
    obtain ⟨q,h2,hm3,hs2⟩ := malloc_adds (hs1 hw) hsi
    obtain rfl := Except.ok.inj (hm2.symm.trans hm3)
    exact ⟨⟨c.live,(hs2 hr).perm (List.Perm.swap _ _ _)⟩,rfl,rfl,rfl,rfl,rfl⟩

/-- The first stream of a program. -/
def fresh (d : Descriptor) (mode : Buffering) : Option File := create (.initial (fun _ => 0) 0xf8000000) d mode

def hasBuffers (f : File) : Bool := decide (f.wbuf.buf ≠ 0 ∧ f.rdbuf.buf ≠ 0)

theorem fresh_created {d : Descriptor} {mode : Buffering} {f : File} (h : fresh d mode = some f)
    (hb : f.hasBuffers = true) : ∃ c : Client, c.Sound ∧ create c.heap d mode = some f ∧
      f.wbuf.buf ≠ 0 ∧ f.rdbuf.buf ≠ 0 :=
  ⟨_,started_sound started_initial,h,of_decide_eq_true hb⟩
end File
end LensorOS.Libc
