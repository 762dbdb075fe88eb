import Gem5.Base.IntMath
import Gem5.Lib.Result

open Lib Result

namespace Gem5

/-- The virtual interface through which `BPredUnit` drives a direction
predictor with state `S`. The object behind `void *bp_history` has type `H`;
`lookup` and `uncondBranch` allocate it, `squash` and a commit-time `update`
delete it. -/
structure DirectionPredictor (S H : Type) where
  lookup : S → ThreadID → Addr → Result (Bool × H × S)
  uncondBranch : S → ThreadID → Addr → Result (H × S)
  btbUpdate : S → ThreadID → Addr → H → Result S
  update : S → ThreadID → Addr → Bool → H → Bool → Result S
  squash : S → ThreadID → H → Result S
  getGHR : S → ThreadID → H → Result Unsigned

namespace DirectionPredictor

variable {S S₁ S₂ H H₁ H₂ : Type}

/-- `I` holds of the predictor and `K` of the history objects it hands out,
whichever of its methods is called. -/
structure Preserves (d : DirectionPredictor S H) (I : S → Prop) (K : H → Prop) : Prop where
  lookup : ∀ {s tid pc taken h s'}, I s → d.lookup s tid pc = .ok (taken, h, s') → I s' ∧ K h
  uncondBranch : ∀ {s tid pc h s'}, I s → d.uncondBranch s tid pc = .ok (h, s') → I s' ∧ K h
  btbUpdate : ∀ {s tid pc h s'}, I s → K h → d.btbUpdate s tid pc h = .ok s' → I s'
  update : ∀ {s tid pc taken h squashed s'}, I s → K h →
    d.update s tid pc taken h squashed = .ok s' → I s'
  squash : ∀ {s tid h s'}, I s → K h → d.squash s tid h = .ok s' → I s'

/-- Method by method, the second predictor answers as the first one does and
keeps related states and history objects, as long as its commit-time
training satisfies `P`. -/
structure Simulates (d₁ : DirectionPredictor S₁ H₁) (d₂ : DirectionPredictor S₂ H₂)
    (R : S₁ → S₂ → Prop) (K : H₁ → H₂ → Prop) (P : Bool → H₂ → Prop) : Prop where
  lookup : ∀ {s₁ s₂ tid pc taken h₁ s₁'}, R s₁ s₂ → d₁.lookup s₁ tid pc = .ok (taken, h₁, s₁') →
    ∃ h₂ s₂', d₂.lookup s₂ tid pc = .ok (taken, h₂, s₂') ∧ R s₁' s₂' ∧ K h₁ h₂
  uncondBranch : ∀ {s₁ s₂ tid pc h₁ s₁'}, R s₁ s₂ → d₁.uncondBranch s₁ tid pc = .ok (h₁, s₁') →
    ∃ h₂ s₂', d₂.uncondBranch s₂ tid pc = .ok (h₂, s₂') ∧ R s₁' s₂' ∧ K h₁ h₂
  btbUpdate : ∀ {s₁ s₂ tid pc h₁ h₂ s₁'}, R s₁ s₂ → K h₁ h₂ →
    d₁.btbUpdate s₁ tid pc h₁ = .ok s₁' → ∃ s₂', d₂.btbUpdate s₂ tid pc h₂ = .ok s₂' ∧ R s₁' s₂'
  update : ∀ {s₁ s₂ tid pc taken h₁ h₂ squashed s₁'}, R s₁ s₂ → K h₁ h₂ →
    (squashed = false → P taken h₂) → d₁.update s₁ tid pc taken h₁ squashed = .ok s₁' →
    ∃ s₂', d₂.update s₂ tid pc taken h₂ squashed = .ok s₂' ∧ R s₁' s₂'
  squash : ∀ {s₁ s₂ tid h₁ h₂ s₁'}, R s₁ s₂ → K h₁ h₂ →
    d₁.squash s₁ tid h₁ = .ok s₁' → ∃ s₂', d₂.squash s₂ tid h₂ = .ok s₂' ∧ R s₁' s₂'

/-- No method faults in a state that satisfies `I` on a history object that
satisfies `K`, as long as commit-time training satisfies `P`. -/
structure Total (d : DirectionPredictor S H) (I : S → Prop) (K : H → Prop) (P : Bool → H → Prop) :
    Prop where
  lookup : ∀ {s} tid pc, I s → ∃ taken h s', d.lookup s tid pc = .ok (taken, h, s')
  uncondBranch : ∀ {s} tid pc, I s → ∃ h s', d.uncondBranch s tid pc = .ok (h, s')
  btbUpdate : ∀ {s h} tid pc, I s → K h → ∃ s', d.btbUpdate s tid pc h = .ok s'
  update : ∀ {s h} tid pc taken squashed, I s → K h → (squashed = false → P taken h) →
    ∃ s', d.update s tid pc taken h squashed = .ok s'
  squash : ∀ {s h} tid, I s → K h → ∃ s', d.squash s tid h = .ok s'

/-- The methods are functions, so a simulation can be turned around where the
simulating predictor does not fault. -/
theorem Simulates.of_total {d₁ : DirectionPredictor S₁ H₁} {d₂ : DirectionPredictor S₂ H₂}
    {R : S₁ → S₂ → Prop} {K : H₁ → H₂ → Prop} {I : S₂ → Prop} {J : H₂ → Prop} {P : Bool → H₂ → Prop}
    (hback : d₂.Simulates d₁ (fun s₂ s₁ => R s₁ s₂) (fun h₂ h₁ => K h₁ h₂) (fun _ _ => True))
    (htotal : d₂.Total I J P) (hR : ∀ {s₁ s₂}, R s₁ s₂ → I s₂) (hK : ∀ {h₁ h₂}, K h₁ h₂ → J h₂) :
    d₁.Simulates d₂ R K P where
  lookup {_ _ tid pc _ _ _} hrel hcall := by
    obtain ⟨taken, h₂, s₂', hcall₂⟩ := htotal.lookup tid pc (hR hrel)
    obtain ⟨h₁, s₁', hcall₁, hrel', hh⟩ := hback.lookup hrel hcall₂
    rw [hcall₁] at hcall
    cases hcall
    exact ⟨h₂, s₂', hcall₂, hrel', hh⟩
  uncondBranch {_ _ tid pc _ _} hrel hcall := by
    obtain ⟨h₂, s₂', hcall₂⟩ := htotal.uncondBranch tid pc (hR hrel)
    obtain ⟨h₁, s₁', hcall₁, hrel', hh⟩ := hback.uncondBranch hrel hcall₂
    rw [hcall₁] at hcall
    cases hcall
    exact ⟨h₂, s₂', hcall₂, hrel', hh⟩
  btbUpdate {_ _ tid pc _ _ _} hrel hh hcall := by
    obtain ⟨s₂', hcall₂⟩ := htotal.btbUpdate tid pc (hR hrel) (hK hh)
    obtain ⟨s₁', hcall₁, hrel'⟩ := hback.btbUpdate hrel hh hcall₂
    rw [hcall₁] at hcall
    cases hcall
    exact ⟨s₂', hcall₂, hrel'⟩
  update {_ _ tid pc taken _ _ squashed _} hrel hh hguard hcall := by
    obtain ⟨s₂', hcall₂⟩ := htotal.update tid pc taken squashed (hR hrel) (hK hh) hguard
    obtain ⟨s₁', hcall₁, hrel'⟩ := hback.update hrel hh (fun _ => trivial) hcall₂
    rw [hcall₁] at hcall
    cases hcall
    exact ⟨s₂', hcall₂, hrel'⟩
  squash {_ _ tid _ _ _} hrel hh hcall := by
    obtain ⟨s₂', hcall₂⟩ := htotal.squash tid (hR hrel) (hK hh)
    obtain ⟨s₁', hcall₁, hrel'⟩ := hback.squash hrel hh hcall₂
    rw [hcall₁] at hcall
    cases hcall
    exact ⟨s₂', hcall₂, hrel'⟩

/-- One execution of a conditional branch on its own: predict it, correct the
histories when the prediction differs from the outcome, and commit it. -/
def round (d : DirectionPredictor S H) (tid : ThreadID) (pc : Addr) (outcome : Bool) (s : S) : Result (Bool × S) := do
  let (taken, h, s) ← d.lookup s tid pc
  let s ← (if taken ≠ outcome then d.update s tid pc outcome h true else .ok s : Result S)
  let s ← d.update s tid pc outcome h false
  .ok (taken, s)

theorem round_of_ok {d : DirectionPredictor S H} (hlookup : d.lookup s tid pc = .ok (taken, h, s₁))
    (hcorrect : (if taken ≠ outcome then d.update s₁ tid pc outcome h true else .ok s₁ : Result S) = .ok s₂)
    (hcommit : d.update s₂ tid pc outcome h false = .ok s') : d.round tid pc outcome s = .ok (taken, s') := by
  simp only [round, bind_eq_ok_iff]
  exact ⟨_, hlookup, s₂, hcorrect, s', hcommit, rfl⟩

/-- The state after `count` rounds. -/
def rounds (d : DirectionPredictor S H) (tid : ThreadID) (pc : Addr) (outcome : Bool) :
    Nat → S → Result S
  | 0, s => .ok s
  | count + 1, s => do
    let s ← d.rounds tid pc outcome count s
    let (_, s) ← d.round tid pc outcome s
    .ok s

/-- The direction `lookup` returns in round number `count`, counted from 0. -/
def roundPrediction (d : DirectionPredictor S H) (tid : ThreadID) (pc : Addr) (outcome : Bool)
    (count : Nat) (s : S) : Result Bool := do
  let s ← d.rounds tid pc outcome count s
  let (taken, _, _) ← d.lookup s tid pc
  .ok taken

theorem rounds_invariant {d : DirectionPredictor S H} {I : S → Prop}
    (hround : ∀ s, I s → ∃ s', d.round tid pc outcome s = .ok (taken, s') ∧ I s') (hstart : I start) (count : Nat) :
    (∃ s, d.rounds tid pc outcome count start = .ok s ∧ I s) ∧
      d.roundPrediction tid pc outcome count start = .ok taken := by
  have hrounds : ∃ s, d.rounds tid pc outcome count start = .ok s ∧ I s := by
    induction count with
    | zero => exact ⟨start, rfl, hstart⟩
    | succ count ih =>
      obtain ⟨s, hs, hI⟩ := ih
      obtain ⟨s', hs', hI'⟩ := hround s hI
      refine ⟨s', ?_, hI'⟩
      simp only [rounds, bind_eq_ok_iff]
      exact ⟨s, hs, (taken, s'), hs', rfl⟩
  refine ⟨hrounds, ?_⟩
  obtain ⟨s, hs, hI⟩ := hrounds
  obtain ⟨s', hs', -⟩ := hround s hI
  simp only [round, bind_eq_ok_iff] at hs'
  obtain ⟨⟨answer, h, looked⟩, hlookup, _, -, _, -, hdone⟩ := hs'
  cases hdone
  simp only [roundPrediction, bind_eq_ok_iff]
  exact ⟨s, hs, (answer, h, looked), hlookup, rfl⟩

/-- No round is predicted unless the first one is. -/
theorem lookup_of_roundPrediction {d : DirectionPredictor S H}
    (h : d.roundPrediction tid pc outcome count start = .ok taken) : ∃ first, d.lookup start tid pc = .ok first := by
  have hrounds : ∀ count s, d.rounds tid pc outcome (count + 1) start = .ok s →
      ∃ first, d.lookup start tid pc = .ok first := by
    intro count
    induction count with
    | zero =>
      intro s hs
      simp only [rounds, round, bind_eq_ok_iff] at hs
      obtain ⟨_, hstart, _, ⟨first, hlookup, -⟩, -⟩ := hs
      cases hstart
      exact ⟨first, hlookup⟩
    | succ count ih =>
      intro s hs
      obtain ⟨before, hbefore, -⟩ := bind_ok hs
      exact ih before hbefore
  obtain ⟨s, hs, hlast⟩ := bind_ok h
  cases count with
  | zero =>
    cases hs
    obtain ⟨first, hlookup, -⟩ := bind_ok hlast
    exact ⟨first, hlookup⟩
  | succ count => exact hrounds count s hs

/-- From some round on, the predictions of a branch with a constant outcome are
right. -/
def Settles (d : DirectionPredictor S H) (tid : ThreadID) (pc : Addr) (outcome : Bool) (s : S) : Prop :=
  ∃ bound, ∀ count ≥ bound, d.roundPrediction tid pc outcome count s = .ok outcome

/-- A predictor that answers taken in every round, whatever the outcome, settles
on taken branches only. `Fits` says that the first round does not fault. -/
theorem settles_iff_of_always_taken {d : DirectionPredictor S H} {Fits : Prop}
    (hfits : ∀ first, d.lookup start tid pc = .ok first → Fits) (hrounds : Fits → ∀ outcome, ∃ I : S → Prop, I start ∧
      ∀ s, I s → ∃ s', d.round tid pc outcome s = .ok (true, s') ∧ I s') (outcome : Bool) :
    (d.Settles tid pc outcome start ↔ outcome = true ∧ Fits) ∧
      (outcome = true ∧ Fits → ∀ count, d.roundPrediction tid pc outcome count start = .ok outcome) := by
  have htaken : Fits → ∀ count, d.roundPrediction tid pc outcome count start = .ok true := by
    intro h count
    obtain ⟨I, hstart, hround⟩ := hrounds h outcome
    exact (rounds_invariant hround hstart count).2
  have hall : outcome = true ∧ Fits → ∀ count, d.roundPrediction tid pc outcome count start = .ok outcome := by
    rintro ⟨rfl, h⟩
    exact htaken h
  refine ⟨⟨?_, fun h => ⟨0, fun count _ => hall h count⟩⟩, hall⟩
  rintro ⟨bound, hsettled⟩
  have hlast := hsettled bound (Nat.le_refl bound)
  obtain ⟨first, hlookup⟩ := lookup_of_roundPrediction hlast
  have h := hfits first hlookup
  rw [htaken h bound] at hlast
  cases hlast
  exact ⟨rfl, h⟩

end DirectionPredictor

end Gem5
