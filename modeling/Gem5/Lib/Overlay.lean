import Mathlib.Data.List.Basic

namespace Lib

namespace Overlay

variable {W K V : Type} (contents : W → K → Option V)

/-- A write gives new contents to some of the places of a memory. -/
def write (memory : K → V) (w : W) : K → V := fun k => (contents w k).getD (memory k)

/-- The writes, oldest first. -/
def writeAll (memory : K → V) (writes : List W) : K → V := writes.foldl (write contents) memory

theorem writeAll_append (memory : K → V) (older younger : List W) :
    writeAll contents memory (older ++ younger) = writeAll contents (writeAll contents memory older) younger :=
  List.foldl_append

variable {contents}

/-- A place that no write gives new contents to. -/
theorem writeAll_of_none (h : ∀ w ∈ writes, contents w k = none) (memory : K → V) :
    writeAll contents memory writes k = memory k := by
  induction writes generalizing memory with
  | nil => rfl
  | cons w writes ih =>
    have hfirst : write contents memory w k = memory k := by rw [write, h w List.mem_cons_self, Option.getD_none]
    exact (ih (fun w' hw' => h w' (List.mem_cons_of_mem w hw')) _).trans hfirst

/-- The youngest write to a place decides. -/
theorem writeAll_of_some (hw : contents w k = some v) (hyounger : ∀ w' ∈ younger, contents w' k = none)
    (memory : K → V) : writeAll contents memory (older ++ w :: younger) k = v := by
  rw [writeAll_append]
  change writeAll contents (write contents _ w) younger k = v
  rw [writeAll_of_none hyounger, write, hw, Option.getD_some]

end Overlay

end Lib
