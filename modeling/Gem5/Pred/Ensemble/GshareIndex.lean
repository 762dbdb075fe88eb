import Gem5.Pred.Ensemble.Spec
import Gem5.Pred.Ensemble2.Spec
import Gem5.Pred.InFlight

open Lib Result
open Gem5.InFlight (machine start Event)

namespace Gem5.Ensemble

/-- What the gshare expert of an ensemble consists of: the history register and
its copy in a history object, the table, the vote, and the constants of the
hash and of the vote. -/
structure Gshare (S H : Type) (size : Nat) where
  register : S → ThreadID → Unsigned
  saved : H → Unsigned
  table : S → Vector SatCounter size
  vote : H → Bool
  instShiftAmt : Unsigned
  mask : Unsigned
  threshold : Nat

namespace Gshare

variable {S H : Type} {size : Nat} {d : DirectionPredictor S H} {g : Gshare S H size} {tid : ThreadID}

/-- The entry that the hash selects in state `s`. -/
def entry (g : Gshare S H size) (s : S) (tid : ThreadID) (pc : Addr) : Unsigned :=
  gshareIdx g.instShiftAmt g.mask (g.register s tid) pc

/-- How the methods of an ensemble use the expert. `lookup` and a commit both
hash with the register as it is when they are called. -/
structure UsedBy (g : Gshare S H size) (d : DirectionPredictor S H) : Prop where
  lookup_reads : ∀ {s tid pc taken h s'}, d.lookup s tid pc = .ok (taken, h, s') →
    ∃ ctr, Table.read (g.table s) (g.entry s tid pc).toNat = .ok ctr ∧
      g.vote h = decide (g.threshold < ctr.read)
  commit_trains : ∀ {s tid pc taken h s'}, d.update s tid pc taken h false = .ok s' →
    Table.modify (g.table s) (g.entry s tid pc).toNat (SatCounter.train taken) = .ok (g.table s')
  lookup_saves : ∀ {s tid pc taken h s'}, d.lookup s tid pc = .ok (taken, h, s') →
    g.register s' tid = g.register s tid ∧ g.saved h = g.register s tid
  commit_keeps : ∀ {s tid pc taken h s'}, d.update s tid pc taken h false = .ok s' →
    g.register s' tid = g.register s tid
  squash_restores : ∀ {s tid h s'}, d.squash s tid h = .ok s' → g.register s' tid = g.saved h

/-- When a conditional branch commits, its vote was read from the entry of the
state it was predicted in, and the entry of the current state is trained. -/
def Entries (g : Gshare S H size) (d : DirectionPredictor S H) (tid : ThreadID)
    (m : InFlight.State S H) : Event → Prop
  | .commit taken => ∀ younger b, m.inflight = younger ++ [b] → b.conditional = true →
      (∃ ctr, Table.read (g.table b.before) (g.entry b.before tid b.pc).toNat = .ok ctr ∧
        g.vote b.history = decide (g.threshold < ctr.read)) ∧
      ∀ s, d.update m.predictor tid b.pc taken b.history false = .ok s →
        Table.modify (g.table m.predictor) (g.entry m.predictor tid b.pc).toNat
          (SatCounter.train taken) = .ok (g.table s)
  | _ => True

/-- The entry trained at the commit of a conditional branch is the one its vote
was read from. -/
def TrainsEntryRead (g : Gshare S H size) (tid : ThreadID) (m : InFlight.State S H) :
    Event → Prop
  | .commit _ => ∀ younger b, m.inflight = younger ++ [b] → b.conditional = true →
      g.entry m.predictor tid b.pc = g.entry b.before tid b.pc
  | _ => True

/-- A conditional branch commits where the register, under the mask, is what it
was when the branch was predicted. -/
def RegisterAsPredicted (g : Gshare S H size) (tid : ThreadID) (m : InFlight.State S H) :
    Event → Prop
  | .commit _ => ∀ younger b, m.inflight = younger ++ [b] → b.conditional = true →
      g.register m.predictor tid &&& g.mask = g.register b.before tid &&& g.mask
  | _ => True

/-- The calls that do not shift the history register. -/
def keepsRegister : Event → Bool
  | .lookup _ | .squash | .commit _ => true
  | .uncondBranch _ | .btbUpdate | .correct _ => false

theorem UsedBy.entries (hg : g.UsedBy d) (hreach : (machine d tid).Reaches (start s) m) (e : Event) :
    g.Entries d tid m e := by
  cases e with
  | commit taken =>
    intro younger b hinflight hconditional
    obtain ⟨direction, after, hlookup⟩ :=
      InFlight.lookup_of_reaches hreach (by simp [hinflight] : b ∈ m.inflight) hconditional
    exact ⟨hg.lookup_reads hlookup, fun s hupdate => hg.commit_trains hupdate⟩
  | _ => trivial

theorem trainsEntryRead_iff (g : Gshare S H size) (tid : ThreadID) (m : InFlight.State S H)
    (e : Event) : g.TrainsEntryRead tid m e ↔ g.RegisterAsPredicted tid m e := by
  cases e with
  | commit taken => simp only [TrainsEntryRead, RegisterAsPredicted, entry, gshareIdx_eq_iff]
  | _ => exact Iff.rfl

/-- As long as no call shifts it, the register of every branch in flight is the
current one. -/
theorem UsedBy.registerAsPredicted (hg : g.UsedBy d) (hevents : ∀ e ∈ events, keepsRegister e = true)
    (hrun : (machine d tid).run (start s) events = .ok (answers, m)) :
    (machine d tid).StepsAll (g.RegisterAsPredicted tid) (start s) events := by
  refine Machine.stepsAll_of_run (A := fun e => keepsRegister e = true)
    (I := fun m : InFlight.State S H => ∀ b ∈ m.inflight,
      g.saved b.history = g.register m.predictor tid ∧
        g.register b.before tid = g.register m.predictor tid)
    ?_ (by simp [start]) hevents hrun
  intro m e o m' hsame hkeeps hstep
  cases InFlight.step_iff.mp hstep with
  | lookup hcall =>
    obtain ⟨hregister, hsaved⟩ := hg.lookup_saves hcall
    refine ⟨trivial, List.forall_mem_cons.mpr ⟨⟨hsaved.trans hregister.symm, hregister.symm⟩, fun b hold => ?_⟩⟩
    exact ⟨(hsame b hold).1.trans hregister.symm, (hsame b hold).2.trans hregister.symm⟩
  | @squash b _ t hinflight hcall =>
    have hregister : g.register t tid = g.register m.predictor tid :=
      (hg.squash_restores hcall).trans (hsame b (by simp [hinflight])).1
    refine ⟨trivial, fun b' hb' => ?_⟩
    obtain ⟨hsaved, hbefore⟩ := hsame b' (by rw [hinflight]; exact List.mem_cons_of_mem b hb')
    exact ⟨hsaved.trans hregister.symm, hbefore.trans hregister.symm⟩
  | commit hinflight hcall =>
    have hregister := hg.commit_keeps hcall
    refine ⟨fun younger' b' hsplit _ => ?_, fun b' hb' => ?_⟩
    · rw [(hsame b' (by simp [hsplit])).2]
    · obtain ⟨hsaved, hbefore⟩ := hsame b' (by rw [hinflight]; exact List.mem_append_left _ hb')
      exact ⟨hsaved.trans hregister.symm, hbefore.trans hregister.symm⟩
  | _ => cases hkeeps

/-- What the runs of one thread do to the gshare table. -/
theorem UsedBy.runs (hg : g.UsedBy d) (hrun : (machine d tid).run (start s) events = .ok (answers, m)) :
    (machine d tid).StepsAll (g.Entries d tid) (start s) events ∧
    ((machine d tid).StepsAll (g.TrainsEntryRead tid) (start s) events ↔
      (machine d tid).StepsAll (g.RegisterAsPredicted tid) (start s) events) ∧ ((∀ e ∈ events, keepsRegister e = true) →
      (machine d tid).StepsAll (g.TrainsEntryRead tid) (start s) events) := by
  have hiff : (machine d tid).StepsAll (g.TrainsEntryRead tid) (start s) events ↔
      (machine d tid).StepsAll (g.RegisterAsPredicted tid) (start s) events :=
    Machine.stepsAll_congr (I := fun _ => True)
      (fun m e _ _ _ _ => ⟨g.trainsEntryRead_iff tid m e, trivial⟩) trivial hrun
  refine ⟨?_, hiff, fun hevents => hiff.mpr (hg.registerAsPredicted hevents hrun)⟩
  refine Machine.stepsAll_of_run (A := fun _ => True)
    (I := (machine d tid).Reaches (start s)) ?_ .start (fun _ _ => trivial) hrun
  intro m e o m' hreach _ hstep
  exact ⟨hg.entries hreach e, .step hreach hstep⟩

end Gshare

end Gem5.Ensemble

namespace Gem5.EnsembleBP

def gshare (p : Params) : Ensemble.Gshare (State p) BPHistory p.gsharePredictorSize.toNat where
  register := State.globalHistory
  saved := BPHistory.globalHistory
  table := State.gshareCtrs
  vote := BPHistory.gsharePredTaken
  instShiftAmt := p.instShiftAmt
  mask := p.globalHistoryMask
  threshold := p.gshareThreshold.toNat

theorem gshare_usedBy_predictor (p : Params) : (gshare p).UsedBy (predictor p) where
  lookup_reads h := by
    obtain ⟨idx, votes, hread, -, rfl, -, -⟩ := lookup_eq_ok_iff.mp h
    obtain ⟨_, _, _, sc, _, -, -, -, hsc, -, ⟨⟩⟩ := bind₅_eq_ok_iff.mp hread
    exact ⟨sc, hsc, rfl⟩
  commit_trains h := by
    obtain ⟨_, _, _, _, _, -, -, -, hgshare, -, ⟨⟩⟩ := bind₅_eq_ok_iff.mp h
    exact hgshare
  lookup_saves h := by
    obtain ⟨idx, votes, -, -, rfl, -, rfl⟩ := lookup_eq_ok_iff.mp h
    exact ⟨rfl, rfl⟩
  commit_keeps h := by
    obtain ⟨_, _, _, _, _, -, -, -, -, -, ⟨⟩⟩ := bind₅_eq_ok_iff.mp h
    rfl
  squash_restores h := by
    obtain ⟨table, -, ⟨⟩⟩ := bind_ok h
    exact Function.update_self ..

end Gem5.EnsembleBP

namespace Gem5.EnsembleBP2

def gshare (p : Params) : Ensemble.Gshare (State p) BPHistory p.gsharePredictorSize.toNat where
  register := State.globalHistory
  saved := BPHistory.globalHistory
  table := State.gshareCtrs
  vote := BPHistory.gsharePredTaken
  instShiftAmt := p.instShiftAmt
  mask := p.globalHistoryMask
  threshold := p.gshareThreshold.toNat

theorem gshare_usedBy_predictor (p : Params) : (gshare p).UsedBy (predictor p) where
  lookup_reads h := by
    obtain ⟨idx, local_prediction, votes, hread, -, rfl, -, -⟩ := lookup_eq_ok_iff.mp h
    obtain ⟨_, _, _, _, _, -, -, -, -, -, hread⟩ := bind₅_eq_ok_iff.mp hread
    obtain ⟨sc, hsc, ⟨⟩⟩ := bind_ok hread
    exact ⟨sc, hsc, rfl⟩
  commit_trains h := by
    obtain ⟨_, _, _, _, _, -, -, -, -, hgshare, h⟩ := bind₅_eq_ok_iff.mp h
    obtain ⟨_, -, ⟨⟩⟩ := bind_ok h
    exact hgshare
  lookup_saves h := by
    obtain ⟨idx, local_prediction, votes, -, -, rfl, -, rfl⟩ := lookup_eq_ok_iff.mp h
    exact ⟨rfl, rfl⟩
  commit_keeps h := by
    obtain ⟨_, _, _, _, _, -, -, -, -, -, h⟩ := bind₅_eq_ok_iff.mp h
    obtain ⟨_, -, ⟨⟩⟩ := bind_ok h
    rfl
  squash_restores h := by
    obtain ⟨table, -, ⟨⟩⟩ := bind_ok h
    exact Function.update_self ..

end Gem5.EnsembleBP2

namespace Gem5.Ensemble

/-- In every run of one thread of either ensemble, each commit of a conditional
branch trains the gshare entry that the vote of the branch was read from
exactly when each finds the history register, under the mask, as it was at
the prediction. Without jumps, BTB misses and corrections it always does. -/
theorem gshare_trains_entry_read_iff (tid : ThreadID) (events : List Event) (answers : List (Option Bool)) :
    (∀ (p : EnsembleBP.Params) (s : EnsembleBP.State p) (m : InFlight.State (EnsembleBP.State p) EnsembleBP.BPHistory),
      EnsembleBP.construct p = .ok s → (machine (EnsembleBP.predictor p) tid).run (start s) events = .ok (answers, m) →
      (machine (EnsembleBP.predictor p) tid).StepsAll
        ((EnsembleBP.gshare p).Entries (EnsembleBP.predictor p) tid) (start s) events ∧
      ((machine (EnsembleBP.predictor p) tid).StepsAll ((EnsembleBP.gshare p).TrainsEntryRead tid) (start s) events ↔
        (machine (EnsembleBP.predictor p) tid).StepsAll ((EnsembleBP.gshare p).RegisterAsPredicted tid)
          (start s) events) ∧ ((∀ e ∈ events, Gshare.keepsRegister e = true) →
        (machine (EnsembleBP.predictor p) tid).StepsAll ((EnsembleBP.gshare p).TrainsEntryRead tid) (start s) events)) ∧
    (∀ (p : EnsembleBP2.Params) (s : EnsembleBP2.State p)
        (m : InFlight.State (EnsembleBP2.State p) EnsembleBP2.BPHistory),
      EnsembleBP2.construct p = .ok s →
      (machine (EnsembleBP2.predictor p) tid).run (start s) events = .ok (answers, m) →
      (machine (EnsembleBP2.predictor p) tid).StepsAll
        ((EnsembleBP2.gshare p).Entries (EnsembleBP2.predictor p) tid) (start s) events ∧
      ((machine (EnsembleBP2.predictor p) tid).StepsAll ((EnsembleBP2.gshare p).TrainsEntryRead tid) (start s) events ↔
        (machine (EnsembleBP2.predictor p) tid).StepsAll ((EnsembleBP2.gshare p).RegisterAsPredicted tid)
          (start s) events) ∧ ((∀ e ∈ events, Gshare.keepsRegister e = true) →
        (machine (EnsembleBP2.predictor p) tid).StepsAll ((EnsembleBP2.gshare p).TrainsEntryRead tid)
          (start s) events)) := by
  constructor
  · intro p s m _ hrun
    exact (EnsembleBP.gshare_usedBy_predictor p).runs hrun
  · intro p s m _ hrun
    exact (EnsembleBP2.gshare_usedBy_predictor p).runs hrun

/-- Three branches, of which the youngest is squashed before the others commit. -/
def branchesInFlight : List Event := [.lookup 0, .lookup 4, .lookup 8, .squash, .commit true, .commit false]

theorem gshare_trains_entry_read_of_branches_in_flight :
    (machine (EnsembleBP.predictor EnsembleBP.smallParams) 0).StepsAll
        ((EnsembleBP.gshare EnsembleBP.smallParams).TrainsEntryRead 0)
        (start (EnsembleBP.State.initial EnsembleBP.smallParams)) branchesInFlight ∧
      (machine (EnsembleBP2.predictor EnsembleBP2.smallParams) 0).StepsAll
        ((EnsembleBP2.gshare EnsembleBP2.smallParams).TrainsEntryRead 0)
        (start (EnsembleBP2.State.initial EnsembleBP2.smallParams)) branchesInFlight := by
  have hruns := gshare_trains_entry_read_iff 0 branchesInFlight
  exact ⟨((hruns _).1 EnsembleBP.smallParams _ _ rfl rfl).2.2 (by decide),
    ((hruns _).2 EnsembleBP2.smallParams _ _ rfl rfl).2.2 (by decide)⟩

/-- A jump fetched between the prediction of a branch and its commit moves the
register, and the commit trains another entry. -/
theorem gshare_trains_other_entry_after_jump :
    (∃ answers b jump s m', (machine (EnsembleBP.predictor EnsembleBP.smallParams) 0).run
        (start (EnsembleBP.State.initial EnsembleBP.smallParams)) [.lookup 0, .uncondBranch 4] =
          .ok (answers, ⟨s, [jump, b], []⟩) ∧
      (machine (EnsembleBP.predictor EnsembleBP.smallParams) 0).step ⟨s, [jump, b], []⟩
        (.commit true) = .ok (none, m') ∧ b.conditional = true ∧
      (EnsembleBP.gshare EnsembleBP.smallParams).entry s 0 b.pc ≠
        (EnsembleBP.gshare EnsembleBP.smallParams).entry b.before 0 b.pc) ∧
    (∃ answers b jump s m', (machine (EnsembleBP2.predictor EnsembleBP2.smallParams) 0).run
        (start (EnsembleBP2.State.initial EnsembleBP2.smallParams)) [.lookup 0, .uncondBranch 4] =
          .ok (answers, ⟨s, [jump, b], []⟩) ∧
      (machine (EnsembleBP2.predictor EnsembleBP2.smallParams) 0).step ⟨s, [jump, b], []⟩
        (.commit true) = .ok (none, m') ∧ b.conditional = true ∧
      (EnsembleBP2.gshare EnsembleBP2.smallParams).entry s 0 b.pc ≠
        (EnsembleBP2.gshare EnsembleBP2.smallParams).entry b.before 0 b.pc) := by
  refine ⟨⟨_, _, _, _, _, rfl, rfl, rfl, ?_⟩, ⟨_, _, _, _, _, rfl, rfl, rfl, ?_⟩⟩
  · decide
  · decide

end Gem5.Ensemble
