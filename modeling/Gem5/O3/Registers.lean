import Mathlib.Data.List.Range

namespace Gem5.O3

/-- The classes of registers. -/
inductive RegClass where
  | IntRegClass
  | FloatRegClass
  | VecRegClass
  | VecElemClass
  | CCRegClass
  | MiscRegClass
  deriving DecidableEq, Repr

theorem RegClass.int_ne_vecElem : RegClass.IntRegClass ≠ .VecElemClass := nofun

theorem RegClass.float_ne_vecElem : RegClass.FloatRegClass ≠ .VecElemClass := nofun

theorem RegClass.misc_ne_vecElem : RegClass.MiscRegClass ≠ .VecElemClass := nofun

/-- What the rename stage uses of the instruction set it is built for. The zero
register is one of the registers, also for the instruction sets that reserve
an index for it without having it. -/
structure TheISA where
  /-- `THE_ISA == ALPHA_ISA`, the instruction set with a floating-point zero
      register. -/
  isAlpha : Bool
  NumIntRegs : Nat
  NumFloatRegs : Nat
  NumVecRegs : Nat
  NumVecElemPerVecReg : Nat
  NumCCRegs : Nat
  NumMiscRegs : Nat
  ZeroReg : Nat
  zeroReg_lt : ZeroReg < NumIntRegs
  floatZeroReg_lt : isAlpha = true → ZeroReg < NumFloatRegs

/-- `arch/alpha/registers.hh`. -/
def alpha : TheISA where
  isAlpha := true
  NumIntRegs := 40
  NumFloatRegs := 32
  NumVecRegs := 1
  NumVecElemPerVecReg := 2
  NumCCRegs := 0
  NumMiscRegs := 79
  ZeroReg := 31
  zeroReg_lt := by decide
  floatZeroReg_lt := by decide

/-- `arch/arm/registers.hh`. -/
def arm : TheISA where
  isAlpha := false
  NumIntRegs := 43
  NumFloatRegs := 160
  NumVecRegs := 40
  NumVecElemPerVecReg := 4
  NumCCRegs := 6
  NumMiscRegs := 606
  ZeroReg := 34
  zeroReg_lt := by decide
  floatZeroReg_lt := nofun

/-- An architectural register. The constructors of the class panic unless exactly
the vector elements have an element index. -/
structure RegId where
  regClass : RegClass
  regIdx : Nat
  elemIdx : Option Nat
  elem_iff : elemIdx.isSome = true ↔ regClass = .VecElemClass
  deriving DecidableEq

namespace RegId

/-- `RegId(reg_class, reg_idx)`. -/
def scalar (reg_class : RegClass) (reg_idx : Nat) (h : reg_class ≠ .VecElemClass) : RegId :=
  ⟨reg_class, reg_idx, none, by simpa using h⟩

/-- `RegId(VecElemClass, reg_idx, elem_idx)`. -/
def elem (reg_idx elem_idx : Nat) : RegId :=
  ⟨.VecElemClass, reg_idx, some elem_idx, by simp⟩

def index (reg : RegId) : Nat := reg.regIdx

def flatIndex (isa : TheISA) (reg : RegId) : Nat :=
  match reg.regClass with
  | .VecElemClass => isa.NumVecElemPerVecReg * reg.regIdx + reg.elemIdx.getD 0
  | _ => reg.regIdx

def isZeroReg (isa : TheISA) (reg : RegId) : Bool :=
  (reg.regClass == .IntRegClass && reg.regIdx == isa.ZeroReg) ||
    (isa.isAlpha && reg.regClass == .FloatRegClass && reg.regIdx == isa.ZeroReg)

def isRenameable (reg : RegId) : Bool := reg.regClass != .MiscRegClass

end RegId

/-- A physical register. It is a register id of its own; its place in the
scoreboard is left out. -/
abbrev PhysRegId : Type := RegId

/-- A pointer to a physical register, `none` if it is null. Each physical
register has one id object, so that pointers are equal when the ids are. -/
abbrev PhysRegIdPtr : Type := Option PhysRegId

def PhysRegId.isFixedMapping (reg : PhysRegId) : Bool := !reg.isRenameable

/-- Whether vector registers are renamed as wholes or by their elements. -/
inductive VecMode where
  | Full
  | Elem
  deriving DecidableEq, Repr

/-- The parameters of the processor that the rename stage depends on. -/
structure Params where
  numPhysIntRegs : Nat
  numPhysFloatRegs : Nat
  numPhysVecRegs : Nat
  numPhysCCRegs : Nat
  vecMode : VecMode

/-- The ids that the register file keeps for a class of registers. -/
def PhysRegFile.getRegIds (isa : TheISA) (p : Params) : RegClass → List PhysRegId
  | .IntRegClass => (List.range p.numPhysIntRegs).map fun i => .scalar .IntRegClass i RegClass.int_ne_vecElem
  | .FloatRegClass => (List.range p.numPhysFloatRegs).map fun i => .scalar .FloatRegClass i RegClass.float_ne_vecElem
  | .VecRegClass => (List.range p.numPhysVecRegs).map fun i => .scalar .VecRegClass i nofun
  | .VecElemClass => (List.range p.numPhysVecRegs).flatMap fun i =>
      (List.range isa.NumVecElemPerVecReg).map fun e => .elem i e
  | .CCRegClass => (List.range p.numPhysCCRegs).map fun i => .scalar .CCRegClass i nofun
  | .MiscRegClass => (List.range isa.NumMiscRegs).map fun i => .scalar .MiscRegClass i RegClass.misc_ne_vecElem

/-- The classes whose registers the free lists are filled with. Vector registers
are there as wholes or as elements. -/
def inUse (p : Params) : RegClass → Bool
  | .VecRegClass => p.vecMode == .Full
  | .VecElemClass => p.vecMode == .Elem
  | .MiscRegClass => false
  | _ => true

end Gem5.O3
