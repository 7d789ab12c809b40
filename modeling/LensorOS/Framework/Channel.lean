import Mathlib.Data.List.Infix

/-!
# Ordered channels

What came out of a channel, followed by what is still inside, is what went in.
-/
namespace LensorOS.Framework
variable {α : Type*} {sent received inside : List α}
/-- Nothing is lost, repeated or out of order. -/
def Carried (sent received inside : List α) : Prop := received ++ inside = sent

namespace Carried
theorem nil : Carried ([] : List α) [] [] := rfl

variable (h : Carried sent received inside)
include h
theorem send (more : List α) : Carried (sent ++ more) received (inside ++ more) := by
  rw [Carried,← List.append_assoc,h]

theorem receive {out rest : List α} (hs : out ++ rest = inside) : Carried sent (received ++ out) rest := by
  rw [Carried,List.append_assoc,hs,h]

theorem isPrefix : received <+: sent := ⟨inside,h⟩
end Carried
end LensorOS.Framework
