import Gem5.Lib.Result

namespace Lib

/-- A loop of the modelled code. The body ends the loop with `none`; the fuel
stands for the number of times it is entered. -/
def loop {S : Type} (body : S → Result (Option S)) : Nat → S → Result S
  | 0, _ => .error .assertion
  | fuel + 1, s => do
    match ← body s with
    | none => .ok s
    | some next => loop body fuel next

namespace Loop

variable {S : Type} {body : S → Result (Option S)}

/-- The states at which the body of a loop that is entered at `start` is entered. -/
inductive Reaches (body : S → Result (Option S)) (start : S) : S → Prop where
  | start : Reaches body start start
  | next {s s' : S} (before : Reaches body start s) (h : body s = .ok (some s')) : Reaches body start s'

theorem Reaches.invariant {I : S → Prop} {start s : S} (hreach : Reaches body start s) (hstart : I start)
    (hbody : ∀ s s', I s → body s = .ok (some s') → I s') : I s := by
  induction hreach with
  | start => exact hstart
  | next _ h ih => exact hbody _ _ ih h

/-- The rule for partial correctness: what the body keeps holds at the end. -/
theorem invariant {I : S → Prop} (hbody : ∀ s next, I s → body s = .ok (some next) → I next) (hI : I s)
    (h : loop body fuel s = .ok last) : I last ∧ body last = .ok none := by
  induction fuel generalizing s with
  | zero => cases h
  | succ fuel ih =>
    rw [loop] at h
    obtain ⟨done, hdone, h⟩ := Result.bind_ok h
    cases done with
    | none =>
      cases h
      exact ⟨hI, hdone⟩
    | some next => exact ih (hbody s next hI hdone) h

/-- The rule for total correctness: a body that does not fault while the invariant
holds, keeps it and decreases a measure ends the loop. -/
theorem returns {I : S → Prop} (measure : S → Nat)
    (hbody : ∀ s, I s → body s = .ok none ∨ ∃ next, body s = .ok (some next) ∧ I next ∧ measure next < measure s)
    (hI : I s) (hfuel : measure s < fuel) :
    ∃ last, loop body fuel s = .ok last ∧ I last ∧ body last = .ok none ∧ Reaches body s last := by
  suffices h : ∀ start, Reaches body start s →
      ∃ last, loop body fuel s = .ok last ∧ I last ∧ body last = .ok none ∧ Reaches body start last from h s .start
  induction fuel generalizing s with
  | zero => cases hfuel
  | succ fuel ih =>
    intro start hreach
    rw [loop]
    cases hbody s hI with
    | inl hdone =>
      rw [Result.bind_of_ok hdone]
      exact ⟨s, rfl, hI, hdone, hreach⟩
    | inr hnext =>
      obtain ⟨next, hnext, hInext, hlt⟩ := hnext
      rw [Result.bind_of_ok hnext]
      exact ih hInext (Nat.lt_of_lt_of_le hlt (Nat.le_of_lt_succ hfuel)) start (.next hreach hnext)

end Loop

end Lib
