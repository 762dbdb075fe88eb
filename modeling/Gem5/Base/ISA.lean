import Gem5.Base.IntMath

namespace Gem5

/-- What the branch prediction unit uses of the instruction set it is built
for: the program counter state, how it advances over an instruction, and
the kinds of control instructions. -/
structure ISA (PCState StaticInst : Type) where
  /-- The state constructed from an address, `PCState(Addr)`. -/
  pcState : Addr → PCState
  instAddr : PCState → Addr
  advancePC : PCState → StaticInst → PCState
  /-- The return address for a call made at the second argument. -/
  buildRetPC : PCState → PCState → PCState
  isUncondCtrl : StaticInst → Bool
  isDirectCtrl : StaticInst → Bool
  isCall : StaticInst → Bool
  isReturn : StaticInst → Bool

/-- The basic program counter state, the current and the next address. -/
structure SimplePCState where
  pc : Addr
  npc : Addr
  deriving DecidableEq, Repr

namespace SimplePCState

/-- `set(val)`, for instructions of 4 bytes. -/
def set (val : Addr) : SimplePCState := ⟨val, val + 4⟩

def advance (state : SimplePCState) : SimplePCState := ⟨state.npc, state.npc + 4⟩

end SimplePCState

/-- The flags of a decoded instruction that the unit reads. -/
structure StaticInst where
  isUncondCtrl : Bool
  isDirectCtrl : Bool
  isCall : Bool
  isReturn : Bool
  deriving DecidableEq, Repr

/-- The Alpha instruction set. -/
def alpha : ISA SimplePCState StaticInst where
  pcState := SimplePCState.set
  instAddr := SimplePCState.pc
  advancePC state _ := state.advance
  buildRetPC _ callPC := callPC.advance
  isUncondCtrl := StaticInst.isUncondCtrl
  isDirectCtrl := StaticInst.isDirectCtrl
  isCall := StaticInst.isCall
  isReturn := StaticInst.isReturn

/-- The Power instruction set, whose program counter advances and returns as that
of Alpha does. Its branches to the link register are conditional returns. -/
def power : ISA SimplePCState StaticInst := alpha

end Gem5
