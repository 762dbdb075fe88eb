import Gem5.Pred.GTriTournament.Refinement
import Gem5.Pred.InFlight

open Lib Result Lib.ShiftRegister

namespace Gem5.GTriTournamentBP

open InFlight (machine start Event)

variable {p : Params} {tid : ThreadID}

/-- The number of bits that both history registers have. -/
def Params.sharedBits (p : Params) : Nat := min p.globalHistoryBits p.globalHistoryBits2

/-- The two history registers of every thread are shifted together, and agree on
the bits they both have. -/
def RegistersAgree (p : Params) (s : State p) : Prop :=
  ∀ tid, AgreeBelow p.sharedBits (s.globalHistory tid) (s.globalHistory2 tid)

def BPHistory.RegistersAgree (p : Params) (h : BPHistory) : Prop :=
  AgreeBelow p.sharedBits h.globalHistory h.globalHistory2

theorem registerMasks2_agree (p : Params) : AgreeBelow p.sharedBits p.historyRegisterMask p.historyRegisterMask2 :=
  p.historyRegisterMask_isLowMask.agreeBelow p.historyRegisterMask2_isLowMask (Nat.min_le_left _ _)
    (Nat.min_le_right _ _)

theorem registersAgree_preserved (p : Params) :
    (predictor p).Preserves (RegistersAgree p) (BPHistory.RegistersAgree p) where
  lookup {s tid pc taken h s'} hs hcall := by
    obtain ⟨_, _, _, _, _, -, -, -, -, -, hcall⟩ := bind₅_eq_ok_iff.mp hcall
    obtain ⟨_, _, _, -, -, -, ⟨⟩⟩ := bind_ok₃ hcall
    exact ⟨AgreeBelow.update hs tid ((hs tid).shiftIn (registerMasks2_agree p) _), hs tid⟩
  uncondBranch {s tid pc h s'} hs hcall := by
    cases hcall
    exact ⟨AgreeBelow.update hs tid ((hs tid).shiftIn (registerMasks2_agree p) true), hs tid⟩
  btbUpdate {s tid pc h s'} hs _ hcall := by
    obtain ⟨_, -, ⟨⟩⟩ := bind_ok hcall
    exact AgreeBelow.update hs tid ((hs tid).clearNewest (registerMasks2_agree p))
  update {s tid pc taken h squashed s'} hs hh hcall := by
    cases squashed with
    | true =>
      obtain ⟨-, _, -, -, ⟨⟩⟩ := bind_ok₂ hcall
      exact AgreeBelow.update hs tid (AgreeBelow.shiftIn hh (registerMasks2_agree p) taken)
    | false =>
      obtain ⟨_, _, _, _, _, -, -, -, -, -, hcall⟩ := bind₅_eq_ok_iff.mp hcall
      obtain ⟨_, _, -, -, ⟨⟩⟩ := bind_ok₂ hcall
      exact hs
  squash {s tid h s'} hs hh hcall := by
    obtain ⟨_, -, ⟨⟩⟩ := bind_ok hcall
    exact AgreeBelow.update hs tid hh

/-- Registers that agree select the same entry of the second choice table. -/
theorem choice2Idx_eq (hp : Accepted p) (h : AgreeBelow p.sharedBits first second) :
    first &&& p.choiceHistoryMask2 = second &&& p.choiceHistoryMask2 := by
  rcases Nat.le_total p.globalHistoryBits p.globalHistoryBits2 with hle | hle
  · have hbits : p.sharedBits = p.globalHistoryBits := Nat.min_eq_left hle
    exact AgreeBelow.and_eq (hbits ▸ h) p.historyRegisterMask_isLowMask hp.choiceHistoryMask2
  · have hbits : p.sharedBits = p.globalHistoryBits2 := Nat.min_eq_right hle
    exact AgreeBelow.and_eq (hbits ▸ h) p.historyRegisterMask2_isLowMask hp.choiceHistoryMask2_register2

/-- Dropping the address from the hash keeps the entry exactly when the address
contributes no bit to it. -/
theorem gshareReadIdx_eq_iff (p : Params) (history2 : Unsigned) (pc : Addr) :
    history2 &&& p.globalHistoryMask2 = p.gshareReadIdx history2 pc ↔
      (shr pc p.instShiftAmt.toNat).setWidth 32 &&& p.globalHistoryMask2 = 0 := by
  have hxor := xor_and_eq_iff history2 0#32 ((shr pc p.instShiftAmt.toNat).setWidth 32) p.globalHistoryMask2
  rw [BitVec.xor_zero, BitVec.zero_and] at hxor
  rw [Params.gshareReadIdx, gshareIdx_eq, BitVec.xor_comm, hxor]
  exact eq_comm

/-- When a conditional branch commits, the gshare and the second choice
prediction of its `lookup` were read from the entries of the state it was
predicted in, and the commit trains the entries of the second saved history. -/
def Entries (p : Params) (tid : ThreadID) (m : InFlight.State (State p) BPHistory) : Event → Prop
  | .commit taken => ∀ younger b, m.inflight = younger ++ [b] → b.conditional = true →
      (∃ ctr ctr2,
        Table.read b.before.globalCtrs2 (p.gshareReadIdx (b.before.globalHistory2 tid) b.pc).toNat =
          .ok ctr ∧ b.history.globalPredTaken2 = decide (p.globalThreshold2.toNat < ctr.read) ∧
        Table.read b.before.choiceCtrs2 (b.before.globalHistory tid &&& p.choiceHistoryMask2).toNat =
          .ok ctr2 ∧ b.history.globalUsed2 = decide (p.choiceThreshold2.toNat < ctr2.read)) ∧
      ∀ s, update p m.predictor tid b.pc taken b.history false = .ok s →
        Table.modify m.predictor.globalCtrs2 (b.history.globalHistory2 &&& p.globalHistoryMask2).toNat
          (SatCounter.train taken) = .ok s.globalCtrs2 ∧
        Table.modifyIf (b.history.trainsChoice2 taken) m.predictor.choiceCtrs2
          (b.history.globalHistory2 &&& p.choiceHistoryMask2).toNat
          (SatCounter.train (b.history.globalPredTaken2 == taken)) = .ok s.choiceCtrs2
  | _ => True

/-- The gshare entry trained at the commit of a conditional branch is the one its
`lookup` read. -/
def TrainsGshareEntryRead (p : Params) (tid : ThreadID) (m : InFlight.State (State p) BPHistory) :
    Event → Prop
  | .commit _ => ∀ younger b, m.inflight = younger ++ [b] → b.conditional = true →
      b.history.globalHistory2 &&& p.globalHistoryMask2 =
        p.gshareReadIdx (b.before.globalHistory2 tid) b.pc
  | _ => True

/-- The second choice entry trained at the commit of a conditional branch is the
one its `lookup` read. -/
def TrainsChoice2EntryRead (p : Params) (tid : ThreadID) (m : InFlight.State (State p) BPHistory) :
    Event → Prop
  | .commit _ => ∀ younger b, m.inflight = younger ++ [b] → b.conditional = true →
      b.history.globalHistory2 &&& p.choiceHistoryMask2 = b.before.globalHistory tid &&& p.choiceHistoryMask2
  | _ => True

/-- The address of a conditional branch that commits contributes no bit to the
gshare hash. -/
def AddressOutsideHash (p : Params) (m : InFlight.State (State p) BPHistory) : Event → Prop
  | .commit _ => ∀ younger b, m.inflight = younger ++ [b] → b.conditional = true →
      (shr b.pc p.instShiftAmt.toNat).setWidth 32 &&& p.globalHistoryMask2 = 0
  | _ => True

variable {m : InFlight.State (State p) BPHistory}

/-- The history object of a conditional branch in flight saves both registers of
the state it was predicted in. -/
theorem saved_registers (hreach : (machine (predictor p) tid).Reaches (start s) m) (hmem : b ∈ m.inflight)
    (hconditional : b.conditional = true) : b.history.globalHistory = b.before.globalHistory tid ∧
      b.history.globalHistory2 = b.before.globalHistory2 tid := by
  obtain ⟨taken, after, hlookup⟩ := InFlight.lookup_of_reaches hreach hmem hconditional
  obtain ⟨_, _, _, _, _, -, -, -, -, -, hlookup⟩ := bind₅_eq_ok_iff.mp hlookup
  obtain ⟨_, _, _, -, -, -, hdone⟩ := bind_ok₃ hlookup
  simp only [Except.ok.injEq, Prod.mk.injEq] at hdone
  rw [← hdone.2.1]
  exact ⟨rfl, rfl⟩

theorem entries_of_reaches (hreach : (machine (predictor p) tid).Reaches (start s) m) (e : Event) :
    Entries p tid m e := by
  cases e with
  | commit taken =>
    intro younger b hinflight hconditional
    obtain ⟨direction, after, hlookup⟩ :=
      InFlight.lookup_of_reaches hreach (by simp [hinflight] : b ∈ m.inflight) hconditional
    obtain ⟨_, _, _, gc2, _, -, -, -, hgc2, -, hlookup⟩ := bind₅_eq_ok_iff.mp hlookup
    obtain ⟨cc2, _, _, hcc2, -, -, hdone⟩ := bind_ok₃ hlookup
    simp only [Except.ok.injEq, Prod.mk.injEq] at hdone
    refine ⟨⟨gc2, cc2, hgc2, by rw [← hdone.2.1], hcc2, by rw [← hdone.2.1]⟩, fun s' hupdate => ?_⟩
    obtain ⟨_, _, _, _, _, -, -, -, htrain2, -, hupdate⟩ := bind₅_eq_ok_iff.mp hupdate
    obtain ⟨_, _, htrain, -, ⟨⟩⟩ := bind_ok₂ hupdate
    exact ⟨htrain, htrain2⟩
  | _ => trivial

theorem trainsGshareEntryRead_iff (hreach : (machine (predictor p) tid).Reaches (start s) m) (e : Event) :
    TrainsGshareEntryRead p tid m e ↔ AddressOutsideHash p m e := by
  cases e with
  | commit taken =>
    refine forall_congr' fun younger => forall_congr' fun b => forall_congr' fun hinflight =>
      forall_congr' fun hconditional => ?_
    obtain ⟨-, hsaved⟩ := saved_registers hreach (by simp [hinflight] : b ∈ m.inflight) hconditional
    rw [hsaved]
    exact gshareReadIdx_eq_iff p _ b.pc
  | _ => exact Iff.rfl

theorem trainsChoice2EntryRead_of_reaches (hp : Accepted p)
    (hreach : (machine (predictor p) tid).Reaches (start (State.initial p)) m)
    (e : Event) : TrainsChoice2EntryRead p tid m e := by
  cases e with
  | commit taken =>
    intro younger b hinflight hconditional
    have hmem : b ∈ m.inflight := by simp [hinflight]
    have hholds := InFlight.reaches_holds (registersAgree_preserved p) (fun _ => AgreeBelow.refl _ _) hreach
    obtain ⟨-, hagree, -⟩ := hholds.2 b hmem
    obtain ⟨hsaved, -⟩ := saved_registers hreach hmem hconditional
    rw [← hsaved]
    exact (choice2Idx_eq hp hagree).symm
  | _ => trivial

/-- In every run of one thread, each commit of a conditional branch trains the
gshare entry that its `lookup` read exactly when no address of a committed
conditional branch enters the hash. The second choice entry is always the
one that was read. -/
theorem gtriTournament_trains_entries_read_iff (p : Params) (s : State p) (hs : construct p = .ok s)
    (tid : ThreadID) (events : List Event) (answers : List (Option Bool)) (m : InFlight.State (State p) BPHistory)
    (hrun : (machine (predictor p) tid).run (start s) events = .ok (answers, m)) :
    (machine (predictor p) tid).StepsAll (Entries p tid) (start s) events ∧
    ((machine (predictor p) tid).StepsAll (TrainsGshareEntryRead p tid) (start s) events ↔
      (machine (predictor p) tid).StepsAll (AddressOutsideHash p) (start s) events) ∧
    (machine (predictor p) tid).StepsAll (TrainsChoice2EntryRead p tid) (start s) events := by
  obtain ⟨hp, rfl⟩ := construct_eq_ok_iff.mp hs
  refine ⟨?_, ?_, ?_⟩
  · exact Machine.stepsAll_of_run (A := fun _ => True)
      (fun m e o m' hreach _ hstep => ⟨entries_of_reaches hreach e, Machine.Reaches.step hreach hstep⟩)
      .start (fun _ _ => trivial) hrun
  · exact Machine.stepsAll_congr
      (fun m e o m' hreach hstep => ⟨trainsGshareEntryRead_iff hreach e, Machine.Reaches.step hreach hstep⟩)
      .start hrun
  · exact Machine.stepsAll_of_run (A := fun _ => True)
      (fun m e o m' hreach _ hstep =>
        ⟨trainsChoice2EntryRead_of_reaches hp hreach e, Machine.Reaches.step hreach hstep⟩)
      .start (fun _ _ => trivial) hrun

/-- A jump leaves a taken branch in the histories; the branch behind it is at an address
that does not enter the hash. -/
theorem gtriTournament_trains_entries_read_behind_jump :
    (machine (predictor (smallParams 4)) 0).StepsAll (TrainsGshareEntryRead (smallParams 4) 0)
      (start (State.initial (smallParams 4))) [.uncondBranch 0, .lookup 16, .commit true, .commit true] := by
  refine (gtriTournament_trains_entries_read_iff (smallParams 4) _ rfl 0 _ _ _ rfl).2.1.mpr ⟨trivial, fun _ _ h => ?_⟩
  cases h
  refine ⟨trivial, fun _ _ h => ?_⟩
  cases h
  refine ⟨fun younger b hinflight hconditional => ?_, fun _ _ h => ?_⟩
  · cases (congrArg List.getLast? hinflight).trans List.getLast?_concat
    cases hconditional
  cases h
  refine ⟨fun younger b hinflight _ => ?_, fun _ _ _ => trivial⟩
  cases (congrArg List.getLast? hinflight).trans List.getLast?_concat
  decide

/-- The `lookup` of the branch at address 4 reads entry 1 of the gshare table,
and the commit trains entry 0. -/
theorem gtriTournament_trains_other_entry : ∃ answers b s m', (machine (predictor (smallParams 4)) 0).run
        (start (State.initial (smallParams 4))) [.lookup 4] = .ok (answers, ⟨s, [b], []⟩) ∧
      (machine (predictor (smallParams 4)) 0).step ⟨s, [b], []⟩ (.commit true) = .ok (none, m') ∧ b.conditional = true ∧
      (smallParams 4).gshareReadIdx (b.before.globalHistory2 0) b.pc = 1 ∧
      b.history.globalHistory2 &&& (smallParams 4).globalHistoryMask2 = 0 := by
  refine ⟨_, _, _, _, rfl, rfl, rfl, ?_, ?_⟩
  · decide
  · decide

end Gem5.GTriTournamentBP
