import Gem5.Pred.Calls
import Gem5.Pred.Tournament.Spec

open Lib Result Lib.ShiftRegister

namespace Gem5.TournamentBP

variable {S H : Type} {p : Params}

/-- The tables are the same and the registers agree on the bits that the
predictor keeps. The statistics may differ. -/
def Alike (p : Params) (s s' : State p) : Prop :=
  ∃ registers count, s = { s' with globalHistory := registers, atLeastOneCorrectExpertOnMispredict := count } ∧
    ∀ tid, AgreeBelow p.globalHistoryBits (registers tid) (s'.globalHistory tid)

def BPHistory.Alike (p : Params) (h h' : BPHistory) : Prop :=
  ∃ register, h = { h' with globalHistory := register } ∧ AgreeBelow p.globalHistoryBits register h'.globalHistory

theorem Alike.refl (s : State p) : Alike p s s := ⟨_, _, rfl, fun _ => .refl _ _⟩

theorem Alike.after (h' : Alike p s' s'') (h : Alike p s s') : Alike p s s'' := by
  obtain ⟨_, _, rfl, hagree⟩ := h
  obtain ⟨_, _, rfl, hagree'⟩ := h'
  exact ⟨_, _, rfl, fun tid i hi => (hagree tid i hi).trans (hagree' tid i hi)⟩

/-- A predictor that has a tournament predictor in it: while `I` holds of it and
`K` of its history objects, every method that returns does on the part `view`
what the tournament predictor does. -/
structure Extends (d : DirectionPredictor S H) (view : S → State p) (saved : H → BPHistory) (I : S → Prop)
    (K : H → Prop) : Prop where
  lookup : ∀ {s tid pc taken h s'}, I s → d.lookup s tid pc = .ok (taken, h, s') → (I s' ∧ K h) ∧
    ∃ t, TournamentBP.lookup p (view s) tid pc = .ok (taken, saved h, t) ∧ Alike p t (view s')
  uncondBranch : ∀ {s tid pc h s'}, I s → d.uncondBranch s tid pc = .ok (h, s') → (I s' ∧ K h) ∧
    saved h = (TournamentBP.uncondBranch p (view s) tid).1 ∧
      Alike p (TournamentBP.uncondBranch p (view s) tid).2 (view s')
  btbUpdate : ∀ {s tid pc h s'}, I s → K h → d.btbUpdate s tid pc h = .ok s' → I s' ∧
    ∃ t, TournamentBP.btbUpdate p (view s) tid pc = .ok t ∧ Alike p t (view s')
  update : ∀ {s tid pc taken h squashed s'}, I s → K h → d.update s tid pc taken h squashed = .ok s' → I s' ∧
    ∃ t, TournamentBP.update p (view s) tid pc taken (saved h) squashed = .ok t ∧ Alike p t (view s')
  squash : ∀ {s tid h s'}, I s → K h → d.squash s tid h = .ok s' → I s' ∧
    ∃ t, TournamentBP.squash p (view s) tid (saved h) = .ok t ∧ Alike p t (view s')

namespace Extends

variable {d : DirectionPredictor S H} {view : S → State p} {saved : H → BPHistory} {I : S → Prop} {K : H → Prop}
  (h : Extends d view saved I K)
include h

theorem preserves : d.Preserves I K where
  lookup hI hcall := (h.lookup hI hcall).1
  uncondBranch hI hcall := (h.uncondBranch hI hcall).1
  btbUpdate hI hK hcall := (h.btbUpdate hI hK hcall).1
  update hI hK hcall := (h.update hI hK hcall).1
  squash hI hK hcall := (h.squash hI hK hcall).1

/-- The tournament predictor answers alike in states that are alike: its tables
are indexed with masks that the other bits of the register do not pass. -/
theorem simulates (hp : Accepted p) : d.Simulates (predictor p) (fun s₂ s₁ => Alike p s₁ (view s₂) ∧ I s₂)
    (fun h₂ h₁ => BPHistory.Alike p h₁ (saved h₂) ∧ K h₂) (fun _ _ => True) where
  lookup {s₂ s₁ tid pc taken h₂ s₂'} hrel hcall := by
    obtain ⟨⟨registers, count, rfl, hagree⟩, hI⟩ := hrel
    obtain ⟨⟨hI', hK⟩, t, hlookup, hview⟩ := h.lookup hI hcall
    obtain ⟨lh, lc, gc, hlh, hlc, hgc, hrest⟩ := bind_ok₃ hlookup
    obtain ⟨cc, _, table, hcc, hlt, htable, hdone⟩ := bind_ok₃ hrest
    simp only [Except.ok.injEq, Prod.mk.injEq] at hdone
    obtain ⟨rfl, hsaved, rfl⟩ := hdone
    rw [← (hagree tid).and_eq p.historyRegisterMask_isLowMask hp.globalHistoryMask] at hgc
    rw [← (hagree tid).and_eq p.historyRegisterMask_isLowMask hp.choiceHistoryMask] at hcc
    refine ⟨_, _, bind₃_eq_ok_iff.mpr ⟨lh, lc, gc, hlh, hlc, hgc, bind₃_eq_ok_iff.mpr
      ⟨cc, _, table, hcc, hlt, htable, rfl⟩⟩, ⟨hview.after ⟨_, count, rfl, ?_⟩, hI'⟩, ⟨registers tid, ?_, ?_⟩, hK⟩
    · exact AgreeBelow.update hagree tid ((hagree tid).shiftIn (.refl _ _) _)
    · rw [← hsaved]
    · rw [← hsaved]
      exact hagree tid
  uncondBranch {s₂ s₁ tid pc h₂ s₂'} hrel hcall := by
    obtain ⟨⟨registers, count, rfl, hagree⟩, hI⟩ := hrel
    obtain ⟨⟨hI', hK⟩, hsaved, hview⟩ := h.uncondBranch hI hcall
    refine ⟨_, _, rfl, ⟨hview.after ⟨_, count, rfl, ?_⟩, hI'⟩, ⟨registers tid, ?_, ?_⟩, hK⟩
    · exact AgreeBelow.update hagree tid ((hagree tid).shiftIn (.refl _ _) true)
    · rw [hsaved]
      rfl
    · rw [hsaved]
      exact hagree tid
  btbUpdate {s₂ s₁ tid pc h₂ h₁ s₂'} hrel hh hcall := by
    obtain ⟨⟨registers, count, rfl, hagree⟩, hI⟩ := hrel
    obtain ⟨hI', t, hbtb, hview⟩ := h.btbUpdate hI hh.2 hcall
    obtain ⟨table, htable, ⟨⟩⟩ := bind_ok hbtb
    refine ⟨_, bind_of_ok htable _, hview.after ⟨_, count, rfl, ?_⟩, hI'⟩
    exact AgreeBelow.update hagree tid ((hagree tid).clearNewest (.refl _ _))
  update {s₂ s₁ tid pc taken h₂ h₁ squashed s₂'} hrel hh _ hcall := by
    obtain ⟨⟨registers, count, rfl, hagree⟩, hI⟩ := hrel
    obtain ⟨⟨register, rfl, hsaved⟩, hK⟩ := hh
    obtain ⟨hI', t, hupdate, hview⟩ := h.update hI hK hcall
    cases squashed with
    | true =>
      obtain ⟨_, table, hlt, htable, ⟨⟩⟩ := bind_ok₂ hupdate
      refine ⟨_, bind_eq_ok_iff.mpr ⟨_, hlt, bind_of_ok htable _⟩, hview.after ⟨_, _, rfl, ?_⟩, hI'⟩
      exact AgreeBelow.update hagree tid (hsaved.shiftIn (.refl _ _) taken)
    | false =>
      obtain ⟨_, _, cc, gc, lc, hlt, hlocal, hcc, hgc, hlc, ⟨⟩⟩ := bind₅_eq_ok_iff.mp hupdate
      rw [← hsaved.and_eq p.historyRegisterMask_isLowMask hp.globalHistoryMask] at hgc
      rw [← hsaved.and_eq p.historyRegisterMask_isLowMask hp.choiceHistoryMask] at hcc
      exact ⟨_, bind₅_eq_ok_iff.mpr ⟨_, _, cc, gc, lc, hlt, hlocal, hcc, hgc, hlc, rfl⟩,
        hview.after ⟨registers, _, rfl, hagree⟩, hI'⟩
  squash {s₂ s₁ tid h₂ h₁ s₂'} hrel hh hcall := by
    obtain ⟨⟨registers, count, rfl, hagree⟩, hI⟩ := hrel
    obtain ⟨⟨register, rfl, hsaved⟩, hK⟩ := hh
    obtain ⟨hI', t, hsquash, hview⟩ := h.squash hI hK hcall
    obtain ⟨table, htable, ⟨⟩⟩ := bind_ok hsquash
    exact ⟨_, bind_of_ok htable _, hview.after ⟨_, count, rfl, AgreeBelow.update hagree tid hsaved⟩, hI'⟩

/-- Where its methods do not fault, the predictor answers every run of calls as
the tournament predictor does. -/
theorem run {P : Bool → H → Prop} (hp : Accepted p) (htotal : d.Total (fun _ => True) K P) (hI : I s)
    (hview : Alike p s₁ (view s)) (hguard : (Calls.machine d).StepsAll (Calls.CommitGuard P) (Calls.start s) calls)
    (hrun : (Calls.machine (predictor p)).run (Calls.start s₁) calls = .ok (os, m₁)) :
    ∃ m₂, (Calls.machine d).run (Calls.start s) calls = .ok (os, m₂) := by
  have hback := (h.simulates hp).of_total htotal (fun _ => trivial) (fun hh => hh.2)
  obtain ⟨m₂, hrun₂, -⟩ := Machine.run_simulates (Calls.Related.step hback) ⟨⟨hview, hI⟩, Heap.Related.empty _⟩
    hguard hrun
  exact ⟨m₂, hrun₂⟩

end Extends

end Gem5.TournamentBP
