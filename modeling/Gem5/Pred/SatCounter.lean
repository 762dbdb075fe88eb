import Mathlib.Algebra.Group.Nat.Defs
import Mathlib.Logic.Function.Iterate
import Mathlib.Tactic.Common

open Function

namespace Gem5

/-- The saturating counter of sat_counter.hh. Both fields are `uint8_t`, and no
method moves the counter above the maximum. -/
structure SatCounter where
  maxVal : Nat
  counter : Nat
  maxVal_lt : maxVal < 256
  counter_le : counter ≤ maxVal
  deriving DecidableEq

namespace SatCounter

/-- A default-constructed counter after `setBits(bits)`. The maximum
`(1 << bits) - 1` is an `int` that is stored in eight bits. -/
def setBits (bits : Nat) : SatCounter where
  maxVal := (2 ^ (bits % 32) - 1) % 256
  counter := 0
  maxVal_lt := Nat.mod_lt _ (by decide)
  counter_le := Nat.zero_le _

variable (c : SatCounter)

def increment : SatCounter :=
  if h : c.counter < c.maxVal then { c with counter := c.counter + 1, counter_le := h } else c

def decrement : SatCounter :=
  if c.counter > 0 then
    { c with counter := c.counter - 1, counter_le := Nat.le_trans (Nat.sub_le _ _) c.counter_le }
  else c

def read : Nat := c.counter

/-- The predictors train a counter up on a taken branch and down otherwise. -/
def train (taken : Bool) (c : SatCounter) : SatCounter := if taken then c.increment else c.decrement

/-- How a choice counter learns which of the local and the global prediction was
correct: down for the local one, up for the global one. -/
def trainChoice (localPredTaken globalPredTaken taken : Bool) (c : SatCounter) : SatCounter :=
  if localPredTaken = taken then c.decrement
  else if globalPredTaken = taken then c.increment
  else c

@[simp] theorem setBits_read (bits : Nat) : (setBits bits).read = 0 := rfl

@[simp] theorem increment_maxVal : c.increment.maxVal = c.maxVal := by
  unfold increment
  split <;> rfl

@[simp] theorem decrement_maxVal : c.decrement.maxVal = c.maxVal := by
  unfold decrement
  split <;> rfl

theorem increment_read : c.increment.read = min (c.read + 1) c.maxVal := by
  have := c.counter_le
  unfold increment read
  split
  · simp only
    omega
  · omega

theorem decrement_read : c.decrement.read = c.read - 1 := by
  unfold decrement read
  split
  · rfl
  · omega

theorem read_le_increment_read : c.read ≤ c.increment.read := by
  have := c.counter_le
  rw [increment_read]
  unfold read
  omega

/-- A vote for taken survives training on a taken branch. -/
theorem vote_of_train_true (threshold : Nat) (c : SatCounter) (h : decide (threshold < c.read) = true) :
    decide (threshold < (c.train true).read) = true := by
  rw [decide_eq_true_eq] at h ⊢
  exact Nat.lt_of_lt_of_le h c.read_le_increment_read

theorem setBits_train_false (bits : Nat) : (setBits bits).train false = setBits bits := rfl

@[simp] theorem train_maxVal (taken : Bool) (c : SatCounter) : (c.train taken).maxVal = c.maxVal := by
  cases taken <;> simp [train]

theorem read_le_maxVal : c.read ≤ c.maxVal := c.counter_le

theorem vote_eq_false {c : SatCounter} (h : c.maxVal ≤ threshold) : decide (threshold < c.read) = false :=
  decide_eq_false (Nat.not_lt.mpr (Nat.le_trans c.read_le_maxVal h))

theorem iterate_increment_maxVal (count : Nat) (c : SatCounter) : (increment^[count] c).maxVal = c.maxVal := by
  induction count with
  | zero => rfl
  | succ count ih => rw [iterate_succ_apply', increment_maxVal, ih]

theorem iterate_decrement_maxVal (count : Nat) (c : SatCounter) : (decrement^[count] c).maxVal = c.maxVal := by
  induction count with
  | zero => rfl
  | succ count ih => rw [iterate_succ_apply', decrement_maxVal, ih]

theorem iterate_increment_read (count : Nat) (c : SatCounter) :
    (increment^[count] c).read = min (c.read + count) c.maxVal := by
  induction count with
  | zero => simp [read, c.counter_le]
  | succ count ih =>
    rw [iterate_succ_apply', increment_read, ih, iterate_increment_maxVal]
    omega

theorem iterate_decrement_read (count : Nat) (c : SatCounter) : (decrement^[count] c).read = c.read - count := by
  induction count with
  | zero => rfl
  | succ count ih =>
    rw [iterate_succ_apply', decrement_read, ih]
    omega

end SatCounter

end Gem5
