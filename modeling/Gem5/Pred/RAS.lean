import Gem5.Base.ISA
import Gem5.Lib.Result

open Lib

namespace Gem5

/-- The return address stack, a circular buffer whose top is at `tos`. -/
structure ReturnAddrStack (PC : Type) (numEntries : Nat) where
  addrStack : Vector PC numEntries
  usedEntries : Nat
  tos : Nat

namespace ReturnAddrStack

variable {PC Inst : Type} {numEntries : Nat}

def initial (isa : ISA PC Inst) (numEntries : Nat) : ReturnAddrStack PC numEntries :=
  ⟨Vector.replicate numEntries (isa.pcState 0), 0, 0⟩

variable (ras : ReturnAddrStack PC numEntries)

def top : Result PC := Table.read ras.addrStack ras.tos

def topIdx : Nat := ras.tos

def incrTos (numEntries tos : Nat) : Nat := if tos + 1 = numEntries then 0 else tos + 1

def decrTos (numEntries tos : Nat) : Nat := if tos = 0 then numEntries - 1 else tos - 1

def push (return_addr : PC) : Result (ReturnAddrStack PC numEntries) := do
  let tos := incrTos numEntries ras.tos
  let addrStack ← Table.write ras.addrStack tos return_addr
  .ok ⟨addrStack, if ras.usedEntries ≠ numEntries then ras.usedEntries + 1 else ras.usedEntries, tos⟩

def pop : ReturnAddrStack PC numEntries :=
  { ras with usedEntries := ras.usedEntries - 1, tos := decrTos numEntries ras.tos }

def restore (top_entry_idx : Nat) (restored : PC) : Result (ReturnAddrStack PC numEntries) := do
  let addrStack ← Table.write ras.addrStack top_entry_idx restored
  .ok { ras with addrStack, tos := top_entry_idx }

theorem incrTos_lt {tos : Nat} (h : tos < numEntries) : incrTos numEntries tos < numEntries := by
  unfold incrTos
  split <;> omega

theorem decrTos_lt {tos : Nat} (h : tos < numEntries) : decrTos numEntries tos < numEntries := by
  unfold decrTos
  split <;> omega

theorem decrTos_incrTos (numEntries tos : Nat) : decrTos numEntries (incrTos numEntries tos) = tos := by
  unfold incrTos decrTos
  split <;> split <;> omega

section

variable {ras : ReturnAddrStack PC numEntries} (h : ras.tos < numEntries)

include h

theorem pop_tos_lt : ras.pop.tos < numEntries := decrTos_lt h

end

theorem push_eq_ok_iff {ras ras' : ReturnAddrStack PC numEntries} : ras.push return_addr = .ok ras' ↔
      ∃ h : incrTos numEntries ras.tos < numEntries, ras' = ⟨ras.addrStack.set (incrTos numEntries ras.tos) return_addr,
          if ras.usedEntries ≠ numEntries then ras.usedEntries + 1 else ras.usedEntries,
          incrTos numEntries ras.tos⟩ := by
  simp only [push, Table.write]
  split
  next h =>
    simp only [h, exists_true_left]
    exact ⟨fun hdone => (Except.ok.inj hdone).symm, fun hdone => congrArg Except.ok hdone.symm⟩
  next h =>
    simp only [h, IsEmpty.exists_iff, iff_false]
    intro hdone
    cases hdone

theorem restore_of_lt (h : top_entry_idx < numEntries) (restored : PC) :
    ras.restore top_entry_idx restored =
      .ok { ras with addrStack := ras.addrStack.set top_entry_idx restored, tos := top_entry_idx } :=
  Result.bind_of_ok (Table.write_of_lt ras.addrStack h restored) _

/-- The index of the slot `depth` entries below the index `tos`. -/
def below (numEntries tos depth : Nat) : Nat := (tos + numEntries - depth) % numEntries

theorem below_eq {tos depth : Nat} (htos : tos < numEntries) (hdepth : depth < numEntries) :
    below numEntries tos depth = if depth ≤ tos then tos - depth else tos + numEntries - depth := by
  unfold below
  split
  next hle =>
    rw [show tos + numEntries - depth = tos - depth + numEntries by omega, Nat.add_mod_right]
    exact Nat.mod_eq_of_lt (by omega)
  next hlt => exact Nat.mod_eq_of_lt (by omega)

section

variable {tos depth : Nat} (htos : tos < numEntries)

include htos

theorem below_zero : below numEntries tos 0 = tos := by
  rw [below_eq htos (by omega), if_pos (Nat.zero_le tos), Nat.sub_zero]

variable (hdepth : depth + 1 < numEntries)
include hdepth

/-- Seen from one slot higher, a slot is one entry deeper. -/
theorem below_incrTos : below numEntries (incrTos numEntries tos) (depth + 1) = below numEntries tos depth := by
  rw [below_eq (incrTos_lt htos) hdepth, below_eq htos (by omega)]
  unfold incrTos
  split <;> split <;> split <;> omega

/-- Seen from one slot lower, a slot is one entry less deep. -/
theorem below_decrTos : below numEntries (decrTos numEntries tos) depth = below numEntries tos (depth + 1) := by
  rw [below_eq (decrTos_lt htos) (by omega), below_eq htos hdepth]
  unfold decrTos
  split <;> split <;> split <;> omega

/-- The slot that a push writes is below the top only after a whole round. -/
theorem below_ne_incrTos : below numEntries tos depth ≠ incrTos numEntries tos := by
  rw [below_eq htos (by omega)]
  unfold incrTos
  split <;> split <;> omega

end

end ReturnAddrStack

end Gem5
