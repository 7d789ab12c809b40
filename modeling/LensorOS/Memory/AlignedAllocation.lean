import LensorOS.Memory.HeapWrap

/-!
# Aligned allocation

A block with an alignment above that of the heap lies inside a larger one, whose address is stored
in the eight bytes before it.
-/
namespace LensorOS.Memory
open Framework Heap
namespace Heap
def alignedNew (h : Heap) (size align : Nat) : Except HeapFault (Nat × Heap) :=
  if align ≤ heapByteAlign then h.malloc size
  else do
    let (addr,h) ← h.malloc (add64 (add64 size align) 8)
    let addrInt := add64 addr 8
    let addrInt := add64 addrInt ((align-addrInt % align) % align)
    let ptrToFreeAddr := add64 addrInt (2^64-8)
    return (addrInt, { h with memory := h.memory.write64 ptrToFreeAddr (.ofNat 64 addr) })

def alignedDelete (h : Heap) (addr align : Nat) : Heap := if align ≤ heapByteAlign then h.free addr
  else if addr &&& heapVirtualBase ≠ heapVirtualBase then h
  else h.free (h.memory.read64 (add64 addr (2^64-8))).toNat

theorem alignedNew_ok {h h' : Heap} {size align p : Nat} (ha : heapByteAlign < align)
    (hs : size+align+8 < 2^40) (ho : h.alignedNew size align = .ok (p,h')) :
    ∃ q g, h.malloc (size+align+8) = .ok (q,g) ∧
      p = add64 (add64 q 8) ((align-add64 q 8 % align) % align) ∧
      h' = { g with memory := g.memory.write64 (add64 p (2^64-8)) (.ofNat 64 q) } := by
  have hsu : add64 (add64 size align) 8 = size+align+8 := by
    unfold add64
    omega
  rw [alignedNew,if_neg (by omega),hsu] at ho
  obtain ⟨r,hm,ho⟩ := ok_of_bind ho
  obtain ⟨rfl,rfl⟩ := Prod.mk.inj (Except.ok.inj ho)
  exact ⟨r.1,r.2,hm,rfl,rfl⟩

theorem align_up {a align : Nat} (hp : 0 < align) :
    align ∣ a+(align-a % align) % align ∧ (align-a % align) % align < align := by
  refine ⟨?_,Nat.mod_lt _ hp⟩
  have hm := Nat.mod_lt a hp
  rcases Nat.eq_zero_or_pos (a % align) with hz | hr
  · rw [hz,Nat.sub_zero,Nat.mod_self]
    exact Nat.dvd_of_mod_eq_zero hz
  rw [Nat.mod_eq_of_lt (by omega)]
  refine ⟨a / align+1,?_⟩
  have hd := Nat.div_add_mod a align
  rw [Nat.mul_succ]
  omega
end Heap

namespace HeapRun
variable {s : HeapRun}
private def storedBytes (m : Bytes) (a : Nat) (v : BitVec 64) (k : Nat) : Bytes :=
  fun x => if a ≤ x ∧ x < a+k then v.extractLsb' (8 * (x-a)) 8 else m x

private theorem storedBytes_succ (m : Bytes) (a : Nat) (v : BitVec 64) (k : Nat) :
    storedBytes m a v (k+1) = (storedBytes m a v k).write8 (a+k) (v.extractLsb' (8 * k) 8) := by
  funext x
  unfold storedBytes Bytes.write8
  by_cases hx : x = a+k
  · rw [if_pos (by omega),if_pos hx,hx,Nat.add_sub_cancel_left]
  · rw [if_neg hx]
    exact if_congr (by omega) rfl rfl

theorem write64_run (hr : Reachable Start step Roomy s) {b : Nat × Nat} (hb : b ∈ s.live)
    (offset : Nat) (ho : offset+8 ≤ b.2) (v : BitVec 64) : Reachable Start step Roomy
      ⟨{ s.heap with memory := s.heap.memory.write64 (b.1+offset) v },s.live⟩ := by
  have hby : ∀ k ≤ 8, Reachable Start step Roomy
      ⟨{ s.heap with memory := storedBytes s.heap.memory (b.1+offset) v k },s.live⟩ := by
    intro k hk
    induction k with
    | zero =>
      have hn : storedBytes s.heap.memory (b.1+offset) v 0 = s.heap.memory := by
        funext x
        exact if_neg (by omega)
      rw [hn]
      exact hr
    | succ k ih =>
      refine .next (ih (by omega)) (i := .store b.1 (offset+k) (v.extractLsb' (8 * k) 8)) ?_ fun _ hn => by cases hn
      rw [step,if_pos ⟨b,hb,rfl,by omega⟩,storedBytes_succ,add_assoc]
  exact hby 8 le_rfl

end HeapRun
end LensorOS.Memory
