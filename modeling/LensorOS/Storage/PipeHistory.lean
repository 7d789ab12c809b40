import LensorOS.Storage.Buffers

/-!
# First in, first out

The bytes that the reads of a pipe return, followed by those still in its buffer, are the bytes
its writes accepted, over any interleaving of calls.
-/
namespace LensorOS.Storage
open Framework PipeBuffer Transfer
def Transfer.moved : Transfer → List (BitVec 8)
  | .done bytes => bytes
  | _ => []

structure PipeHistory where
  buffer : PipeBuffer
  accepted : List (BitVec 8)
  returned : List (BitVec 8)

inductive PipeCall
  | read (pid byteCount : Nat)
  | write (pid : Nat) (buffer : Bytes) (byteCount : Nat)

def PipeCall.outcome (b : PipeBuffer) : PipeCall → Outcome PipeBuffer
  | .read pid byteCount => b.read pid byteCount
  | .write pid buffer byteCount => b.write pid buffer byteCount

namespace PipeHistory
def step (h : PipeHistory) : PipeCall → Option PipeHistory
  | .read pid byteCount =>
    let outcome := h.buffer.read pid byteCount
    some { h with
      buffer := outcome.buffer
      returned := h.returned ++ outcome.result.moved }
  | .write pid buffer byteCount =>
    let outcome := h.buffer.write pid buffer byteCount
    some { h with
      buffer := outcome.buffer
      accepted := h.accepted ++ outcome.result.moved }

/-- An empty pipe; its ends may be open or closed, and processes may be waiting. -/
structure Started (h : PipeHistory) : Prop where
  empty : h.buffer.stream.offset = 0
  accepted : h.accepted = []
  returned : h.returned = []

/-- The fill level is within the buffer, and no byte is lost, repeated or out of order. -/
structure InOrder (h : PipeHistory) : Prop where
  level : h.buffer.stream.offset ≤ pipeBufSize
  order : h.returned ++ h.buffer.stream.contents = h.accepted
end PipeHistory

variable {call : PipeCall}
section
variable {b : PipeBuffer}
theorem PipeBuffer.read_contents (hl : b.stream.offset ≤ pipeBufSize) (pid byteCount : Nat) :
    (b.read pid byteCount).buffer.stream.offset ≤ pipeBufSize ∧
      (b.read pid byteCount).result.moved ++ (b.read pid byteCount).buffer.stream.contents =
        b.stream.contents := by
  by_cases he : b.stream.offset = 0
  · by_cases hc : b.writeClosed = true
    all_goals simp [read,he,hc,moved]
  simp only [read,he,if_false,moved,truncated_eq_min]
  constructor
  · exact (Nat.sub_le _ _).trans hl
  · exact Stream.contents_pop (min_le_right _ _) hl (by decide)

theorem PipeBuffer.write_contents (hl : b.stream.offset ≤ pipeBufSize) (pid : Nat)
    (buffer : Bytes) (byteCount : Nat) :
    (b.write pid buffer byteCount).buffer.stream.offset ≤ pipeBufSize ∧
      (b.write pid buffer byteCount).buffer.stream.contents =
        b.stream.contents ++ (b.write pid buffer byteCount).result.moved := by
  by_cases hz : byteCount = 0
  · simpa [write,hz,moved] using hl
  simp only [write,hz,if_false,truncated_eq_min]
  have hc := min_le_right byteCount pipeBufSize
  generalize min byteCount pipeBufSize = n at hc ⊢
  have hm : (b.stream.offset+n) % 2^64 = b.stream.offset+n := by
    apply Nat.mod_eq_of_lt
    unfold pipeBufSize at hl hc
    omega
  rw [hm]
  by_cases hf : b.stream.offset+n > pipeBufSize
  · simpa [hf,moved] using hl
  simp only [hf,if_false,moved]
  constructor
  · simp only [Stream.push,hm]
    omega
  apply Stream.contents_push
  unfold pipeBufSize at hl hc
  omega

theorem PipeCall.outcome_blocks (h : (call.outcome b).result = .blocks) :
    (call.outcome b).buffer.stream = b.stream := by
  cases call with
  | read pid byteCount =>
    by_cases he : b.stream.offset = 0
    · by_cases hc : b.writeClosed = true
      all_goals simp [PipeCall.outcome,PipeBuffer.read,he,hc]
    · simp [PipeCall.outcome,PipeBuffer.read,he] at h
  | write pid buffer byteCount =>
    by_cases hz : byteCount = 0
    · simp [PipeCall.outcome,PipeBuffer.write,hz]
    simp only [PipeCall.outcome,PipeBuffer.write,hz,if_false] at h ⊢
    generalize (if byteCount > pipeBufSize then pipeBufSize else byteCount) = n at h ⊢
    by_cases hf : (b.stream.offset+n) % 2^64 > pipeBufSize
    · rw [if_pos hf]
    · rw [if_neg hf] at h
      cases h
end

namespace PipeHistory
variable {h h' : PipeHistory}
theorem InOrder.step (hi : InOrder h) (hs : h.step call = some h') : InOrder h' := by
  cases call with
  | read pid byteCount =>
    cases hs
    obtain ⟨hl,ho⟩ := read_contents hi.level pid byteCount
    refine ⟨hl,?_⟩
    rw [List.append_assoc,ho]
    exact hi.order
  | write pid buffer byteCount =>
    cases hs
    obtain ⟨hl,ho⟩ := write_contents hi.level pid buffer byteCount
    refine ⟨hl,?_⟩
    rw [ho,← List.append_assoc,hi.order]

/-- In every interleaving of reads and writes the bytes stay in order, and a call that returns -2
leaves them alone. -/
theorem fifo_run (hrun : Reachable Started PipeHistory.step anyStep h) :
    InOrder h ∧ ∀ call : PipeCall, (call.outcome h.buffer).result = .blocks →
      (call.outcome h.buffer).buffer.stream = h.buffer.stream := by
  have hi : InOrder h := by
    refine hrun.invariant ?_ fun _ _ _ hs hst _ => hs.step hst
    intro s hs
    constructor
    · rw [hs.empty]
      omega
    · rw [hs.returned,hs.accepted,Stream.contents,hs.empty]
      rfl
  exact ⟨hi,fun _ => PipeCall.outcome_blocks⟩

theorem fifo_run_three : ∃ h, h.returned = [1,2] ∧ InOrder h := by
  obtain ⟨h,hre,hr⟩ : ∃ h, Reachable Started PipeHistory.step anyStep h ∧ h.returned = [1,2] :=
    Reachable.exists_run (s := ⟨⟨⟨fun _ => 0,0⟩,false,false,[],[]⟩,[],[]⟩) ⟨rfl,rfl,rfl⟩
      [.write 1 (fun x => BitVec.ofNat 8 (x+1)) 3,.read 2 2] (by decide)
  exact ⟨h,hr,(fifo_run hre).1⟩
end PipeHistory
end LensorOS.Storage
