import Gem5.Base.IntMath
import Gem5.Lib.Run
import Gem5.O3.Registers

open Lib Result
open Gem5.O3 (TheISA RegId RegClass)

namespace Gem5.Minor

abbrev Cycles : Type := BitVec 64

/-- The elements that the five vectors of the scoreboard have for a register. -/
structure Entry where
  numResults : BitVec 16
  numUnpredictableResults : BitVec 16
  fuIndex : Unsigned
  returnCycle : Cycles
  writingInst : InstSeqNum

def numRegs (isa : TheISA) : Nat := isa.NumIntRegs + isa.NumCCRegs + isa.NumFloatRegs + isa.NumVecRegs

abbrev Scoreboard (isa : TheISA) : Type := Vector Entry (numRegs isa)

/-- The index of a register, an `unsigned short`, if the scoreboard tracks it. -/
def findIndex (isa : TheISA) (reg : RegId) : Option Nat :=
  if reg.isZeroReg isa then none
  else match reg.regClass with
    | .IntRegClass => some (reg.index % 2 ^ 16)
    | .FloatRegClass => some ((isa.NumIntRegs + isa.NumCCRegs + reg.index) % 2 ^ 16)
    | .VecRegClass => some ((isa.NumIntRegs + isa.NumCCRegs + isa.NumFloatRegs + reg.index) % 2 ^ 16)
    | .VecElemClass =>
      some ((isa.NumIntRegs + isa.NumCCRegs + isa.NumFloatRegs + isa.NumVecRegs + reg.index) % 2 ^ 16)
    | .CCRegClass => some ((isa.NumIntRegs + reg.index) % 2 ^ 16)
    | .MiscRegClass => none

/-- A dynamic instruction with the registers of its static instruction, which a
fault does not have. -/
structure MinorDynInst where
  isFault : Bool
  srcRegs : List RegId
  destRegs : List RegId
  flatDestRegIdx : List RegId
  execSeqNum : InstSeqNum
  fuIndex : Unsigned

/-- The bit vector that the constructor of `FUPipeline` makes of the indices in
its description. Each of them resizes the vector to end with its own bit. -/
def cantForwardBits (cant_forward : List Unsigned) : Result (List Bool) :=
  cant_forward.foldlM (fun bits i =>
    let size := (i + 1).toNat
    let bits := (bits ++ List.replicate (size - bits.length) false).take size
    if i.toNat < size then .ok (bits.set i.toNat true) else .error .outOfRange) []

namespace Scoreboard

variable {isa : TheISA}

def construct (isa : TheISA) : Scoreboard isa := Vector.replicate _ ⟨0, 0, 0, 0, 0⟩

/-- Changes what is kept for a register, if it is tracked. -/
def modifyReg (s : Scoreboard isa) (reg : RegId) (f : Entry → Entry) : Result (Scoreboard isa) :=
  match findIndex isa reg with
  | none => .ok s
  | some index => Table.modify s index f

/-- `markupInstDests`, with the registers that it writes to the instruction. -/
def markupInstDests (flatten : RegId → RegId) (s : Scoreboard isa) (inst : MinorDynInst) (retire_time : Cycles)
    (mark_unpredictable : Bool) : Result (MinorDynInst × Scoreboard isa) :=
  if inst.isFault then .ok (inst, s)
  else do
    let s ← (inst.destRegs.map flatten).foldlM (fun s reg => s.modifyReg reg fun e =>
      { numUnpredictableResults :=
          if mark_unpredictable then e.numUnpredictableResults + 1 else e.numUnpredictableResults
        numResults := e.numResults + 1
        returnCycle := retire_time
        writingInst := if inst.execSeqNum > e.writingInst then inst.execSeqNum else e.writingInst
        fuIndex := if inst.execSeqNum > e.writingInst then inst.fuIndex else e.fuIndex }) s
    .ok ({ inst with flatDestRegIdx := (inst.destRegs.map flatten).map fun reg =>
      if (findIndex isa reg).isSome then reg else .scalar .IntRegClass isa.ZeroReg RegClass.int_ne_vecElem }, s)

def clearInstDests (s : Scoreboard isa) (inst : MinorDynInst) (clear_unpredictable : Bool) : Result (Scoreboard isa) :=
  if inst.isFault then .ok s
  else inst.flatDestRegIdx.foldlM (fun s reg => s.modifyReg reg fun e =>
    let e := { e with
      numUnpredictableResults := if clear_unpredictable && e.numUnpredictableResults ≠ 0 then
        e.numUnpredictableResults - 1 else e.numUnpredictableResults
      numResults := e.numResults - 1 }
    if e.numResults = 0 then { e with returnCycle := 0, writingInst := 0, fuIndex := -1 } else e) s

variable (flatten : RegId → RegId) (s : Scoreboard isa) (latencies : List Cycles) (cant_forward : List Bool)
  (now : Cycles)

/-- One turn of the loop of `canInstIssue`. The last relative latency stands for
those that are missing. -/
def srcReady (src_index : Nat) (reg : RegId) : Result Bool :=
  match findIndex isa (flatten reg) with
  | none => .ok true
  | some index => do
    let e ← Table.read s index
    let cant_forward := e.fuIndex ≠ 1 && cant_forward[index]?.getD false
    let relative_latency := if cant_forward then 0 else latencies[src_index]?.getD (latencies.getLast?.getD 0)
    .ok (!(e.returnCycle > now + relative_latency || e.numUnpredictableResults ≠ 0))

def srcsReady : Nat → List RegId → Result Bool
  | _, [] => .ok true
  | src_index, reg :: rest => do
    let ready ← s.srcReady flatten latencies cant_forward now src_index reg
    if ready then srcsReady (src_index + 1) rest else .ok false

def canInstIssue (inst : MinorDynInst) : Result Bool :=
  if inst.isFault then .ok true else s.srcsReady flatten latencies cant_forward now 0 inst.srcRegs

variable {flatten s latencies cant_forward now}

theorem srcReady_of_srcsReady (h : s.srcsReady flatten latencies cant_forward now k regs = .ok true)
    (hreg : reg ∈ regs) :
    ∃ j, s.srcReady flatten latencies cant_forward now j reg = .ok true := by
  induction regs generalizing k with
  | nil => cases hreg
  | cons first rest ih =>
    obtain ⟨ready, hready, h⟩ := bind_ok h
    cases ready with
    | false => cases h
    | true =>
      cases hreg with
      | head => exact ⟨k, hready⟩
      | tail _ hreg => exact ih h hreg

/-- A source is ready when its result is back, but for the latency that it is
given credit for. -/
theorem le_of_srcReady (h : s.srcReady flatten latencies cant_forward now k reg = .ok true)
    (hindex : findIndex isa (flatten reg) = some x) (hentry : Table.read s x = .ok e) : e.numUnpredictableResults = 0 ∧
      ((e.fuIndex ≠ 1 ∧ cant_forward[x]? = some true) → e.returnCycle ≤ now) := by
  rw [srcReady, hindex] at h
  obtain ⟨_, hread, h⟩ := bind_ok h
  cases hentry.symm.trans hread
  simp only [Except.ok.injEq, Bool.not_eq_true', Bool.or_eq_false_iff, decide_eq_false_iff_not] at h
  refine ⟨not_not.mp h.2, fun ⟨hfu, hbit⟩ => ?_⟩
  have hle := h.1
  rw [if_pos (by rw [hbit, decide_eq_true hfu]; rfl)] at hle
  simpa using hle

end Scoreboard

/-- A result that is not there yet. -/
structure InFlight where
  execSeqNum : InstSeqNum
  index : Nat
  fuIndex : Unsigned

/-- The scoreboard with the results in flight, the latest first. -/
structure Board (isa : TheISA) where
  scoreboard : Scoreboard isa
  results : List InFlight

inductive Command where
  | markup (inst : MinorDynInst) (retire_time : Cycles) (mark_unpredictable : Bool)
  | clear (inst : MinorDynInst) (clear_unpredictable : Bool)

variable {isa : TheISA}

/-- The scoreboard under any sequence of calls. -/
def machine (isa : TheISA) (flatten : RegId → RegId) : Machine (Board isa) Command MinorDynInst where
  step
    | b, .markup inst retire_time mark_unpredictable => do
      let (inst, s) ← b.scoreboard.markupInstDests flatten inst retire_time mark_unpredictable
      let started := (inst.flatDestRegIdx.filterMap (findIndex isa)).map (⟨inst.execSeqNum, ·, inst.fuIndex⟩)
      .ok (inst, ⟨s, if inst.isFault then b.results else started ++ b.results⟩)
    | b, .clear inst clear_unpredictable => do
      let s ← b.scoreboard.clearInstDests inst clear_unpredictable
      .ok (inst, ⟨s, b.results.filter fun r => inst.isFault || r.execSeqNum ≠ inst.execSeqNum⟩)

/-- The unit that produces the latest result in flight of a register. -/
def Board.producer (b : Board isa) (index : Nat) : Option Unsigned :=
  (b.results.find? (·.index = index)).map (·.fuIndex)

/-- Whether `inst` may be issued to a unit that cannot forward from the units
listed in its description. -/
def Board.canIssueTo (b : Board isa) (flatten : RegId → RegId) (listed : List Unsigned) (latencies : List Cycles)
    (now : Cycles) (inst : MinorDynInst) : Result Bool := do
  let bits ← cantForwardBits listed
  b.scoreboard.canInstIssue flatten latencies bits now inst

/-- The entry of a register whose latest result in flight comes from a listed unit. -/
def Board.Awaits (b : Board isa) (flatten : RegId → RegId) (listed : List Unsigned) (reg : RegId)
    (x : Nat) (e : Entry) :
    Prop :=
  findIndex isa (flatten reg) = some x ∧ Table.read b.scoreboard x = .ok e ∧ ∃ p ∈ listed, b.producer x = some p

/-- No instruction is ever issued before its sources from listed units are back
exactly if each result of such a unit is there already, cannot be predicted,
or has a set bit at the index of its register, while the unit is not number
one. -/
theorem issued_when_returned_iff (flatten : RegId → RegId) (b : Board isa) (listed : List Unsigned) :
    (∀ latencies now inst, inst.isFault = false → b.canIssueTo flatten listed latencies now inst = .ok true →
      ∀ reg ∈ inst.srcRegs, ∀ x e, b.Awaits flatten listed reg x e → e.returnCycle ≤ now) ↔
    ∀ bits, cantForwardBits listed = .ok bits → ∀ reg x e, b.Awaits flatten listed reg x e →
      e.returnCycle = 0 ∨ e.numUnpredictableResults ≠ 0 ∨ (e.fuIndex ≠ 1 ∧ bits[x]? = some true) := by
  constructor
  · intro h bits hbits reg x e hawaits
    by_contra hcredit
    simp only [not_or, not_not] at hcredit
    obtain ⟨hcycle, hpredictable, hflag⟩ := hcredit
    -- an instruction with this source only, and with all the credit it needs
    refine hcycle (BitVec.le_zero_iff.mp (h [e.returnCycle] 0 ⟨false, [reg], [], [], 0, 0⟩ rfl
      ?_ reg (.head _) x e hawaits))
    have hready : b.scoreboard.srcReady flatten [e.returnCycle] bits 0 0 reg = .ok true := by
      rw [Scoreboard.srcReady, hawaits.1]
      have hcant : (decide (e.fuIndex ≠ 1) && bits[x]?.getD false) = false := by
        rw [Bool.and_eq_false_imp, decide_eq_true_iff]
        intro hfu
        cases hbit : bits[x]? with
        | none => rfl
        | some bit => exact (Bool.not_eq_true bit).mp fun hset => hflag ⟨hfu, hset ▸ hbit⟩
      refine (bind_of_ok hawaits.2.1 _).trans ?_
      simp only [hcant]
      simp [hpredictable]
    refine (bind_of_ok hbits _).trans ?_
    exact bind_of_ok hready _
  · intro h latencies now inst hinst hissue reg hreg x e hawaits
    obtain ⟨bits, hbits, hissue⟩ := bind_ok hissue
    rw [Scoreboard.canInstIssue, hinst, if_neg Bool.false_ne_true] at hissue
    obtain ⟨j, hready⟩ := Scoreboard.srcReady_of_srcsReady hissue hreg
    obtain ⟨hpredictable, hflag⟩ := Scoreboard.le_of_srcReady hready hawaits.1 hawaits.2.1
    rcases h bits hbits reg x e hawaits with hzero | hne | hset
    · rw [hzero]
      exact Nat.zero_le _
    · exact absurd hpredictable hne
    · exact hflag hset

/-- A result of unit 2 in integer register 5 is due in cycle 10, but an
instruction is issued at once to a unit that cannot forward from unit 2. -/
theorem issued_before_returned : ∃ os b e, (machine O3.alpha id).run ⟨.construct O3.alpha, []⟩
        [.markup ⟨false, [], [.scalar .IntRegClass 5 RegClass.int_ne_vecElem], [], 1, 2⟩ 10 false] = .ok (os, b) ∧
      b.Awaits id [2] (.scalar .IntRegClass 5 RegClass.int_ne_vecElem) 5 e ∧ e.returnCycle = 10 ∧
      b.canIssueTo id [2] [10] 0 ⟨false, [.scalar .IntRegClass 5 RegClass.int_ne_vecElem], [], [], 2, 3⟩ = .ok true :=
  ⟨_, _, _, rfl, ⟨rfl, rfl, 2, .head _, rfl⟩, rfl, rfl⟩

end Gem5.Minor
