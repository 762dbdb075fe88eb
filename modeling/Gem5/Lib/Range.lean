import Gem5.Lib.Result

/-! Loops over a range of the entries of a table: copying, filling and testing them. -/

namespace Lib.Table

variable {A : Type} {size size' : Nat}

/-- `memcpy(dest + destOffset, src + srcOffset, count)`, with both ranges checked. -/
def memcpy (dest : Vector A size) (destOffset : Int) (src : Vector A size') (srcOffset count : Int) :
    Result (Vector A size) :=
  if 0 ≤ destOffset ∧ 0 ≤ srcOffset ∧ 0 ≤ count ∧ destOffset + count ≤ size ∧ srcOffset + count ≤ size' then
    .ok (Vector.ofFn fun i =>
      if destOffset ≤ i ∧ i < destOffset + count then (src[(srcOffset + (i - destOffset)).toNat]?).getD dest[i]
      else dest[i])
  else .error .outOfRange

/-- `for (; count > 0; ++i, --count) table[i] = value`. -/
def fill (table : Vector A size) (value : A) (i : Nat) : Nat → Result (Vector A size)
  | 0 => .ok table
  | count + 1 => do
    let table ← write table i value
    fill table value (i + 1) count

/-- `for (; all && count > 0; ++i, --count) all &= table[i]`. -/
def test (table : Vector Bool size) (i : Nat) : Nat → Bool → Result Bool
  | 0, all => .ok all
  | count + 1, all =>
    if all then do
      let value ← read table i
      test table (i + 1) count (all && value)
    else .ok all

theorem memcpy_of_lt (dest : Vector A size) (src : Vector A size') (hdest : destOffset + count ≤ size)
    (hsrc : srcOffset + count ≤ size') : ∃ after, memcpy dest destOffset src srcOffset count = .ok after ∧
      ∀ i, after[i]? =
        if destOffset ≤ i ∧ i < destOffset + count then src[srcOffset + (i - destOffset)]? else dest[i]? := by
  refine ⟨_, if_pos ⟨by omega, by omega, by omega, by omega, by omega⟩, fun i => ?_⟩
  by_cases hi : i < size
  · rw [Vector.getElem?_eq_getElem hi, Vector.getElem_ofFn]
    have hindex : destOffset ≤ i → ((srcOffset : Int) + ((i : Int) - (destOffset : Int))).toNat =
        srcOffset + (i - destOffset) := by omega
    by_cases hrange : destOffset ≤ i ∧ i < destOffset + count
    · have hint : (destOffset : Int) ≤ i ∧ (i : Int) < destOffset + count := by omega
      have hlt : srcOffset + (i - destOffset) < size' := by omega
      rw [if_pos hrange]
      simp only [hint, and_self, if_true, hindex hrange.1]
      rw [Vector.getElem?_eq_getElem hlt]
      rfl
    · have hint : ¬ ((destOffset : Int) ≤ i ∧ (i : Int) < destOffset + count) := by omega
      rw [if_neg hrange, Vector.getElem?_eq_getElem hi]
      simp only [hint, if_false]
      rfl
  · have hrange : ¬ (destOffset ≤ i ∧ i < destOffset + count) := by omega
    rw [if_neg hrange, Vector.getElem?_eq_none (by omega), Vector.getElem?_eq_none (by omega)]

theorem memcpy_of_neg (dest : Vector A size) (src : Vector A size') (h : destOffset < 0) :
    memcpy dest destOffset src srcOffset count = .error .outOfRange :=
  if_neg fun hrange => absurd hrange.1 (by omega)

theorem memcpy_of_gt (dest : Vector A size) (src : Vector A size') {destOffset srcOffset count : Int}
    (h : size < destOffset + count) : memcpy dest destOffset src srcOffset count = .error .outOfRange :=
  if_neg fun hrange => absurd hrange.2.2.2.1 (by omega)

theorem fill_of_le (table : Vector A size) (value : A) (h : i + count ≤ size) :
    ∃ after, fill table value i count = .ok after ∧
      ∀ j, after[j]? = if i ≤ j ∧ j < i + count then some value else table[j]? := by
  induction count generalizing table i with
  | zero =>
    refine ⟨table, rfl, fun j => ?_⟩
    rw [if_neg (by omega)]
  | succ count ih =>
    have hi : i < size := by omega
    obtain ⟨after, hfill, hafter⟩ := ih (table.set i value) (i := i + 1) (by omega)
    refine ⟨after, ?_, fun j => ?_⟩
    · rw [fill, Result.bind_of_ok (write_of_lt table hi value), hfill]
    · rw [hafter j, Vector.getElem?_set]
      by_cases hj : i = j
      · subst hj
        rw [if_neg (by omega), if_pos rfl, if_pos (by omega)]
      · by_cases hlater : i + 1 ≤ j ∧ j < i + 1 + count
        · rw [if_pos hlater, if_pos (by omega)]
        · rw [if_neg hlater, if_neg hj, if_neg (by omega)]

theorem test_of_le (table : Vector Bool size) (all : Bool) (h : i + count ≤ size) :
    ∃ result, test table i count all = .ok result ∧
      (result = true ↔ all = true ∧ ∀ j, i ≤ j → j < i + count → table[j]? = some true) := by
  induction count generalizing i all with
  | zero =>
    refine ⟨all, by cases all <;> rfl, ?_⟩
    constructor
    · intro hall
      exact ⟨hall, fun j hle hlt => absurd hlt (by omega)⟩
    · exact fun hall => hall.1
  | succ count ih =>
    cases all with
    | false => exact ⟨false, rfl, by simp⟩
    | true =>
      have hi : i < size := by omega
      obtain ⟨result, htest, hresult⟩ := ih (i := i + 1) (true && table[i]) (by omega)
      refine ⟨result, ?_, ?_⟩
      · rw [test, if_pos rfl, Result.bind_of_ok (read_of_lt table hi), htest]
      · rw [hresult, Bool.true_and]
        constructor
        · rintro ⟨hvalue, hlater⟩
          refine ⟨rfl, fun j hle hlt => ?_⟩
          by_cases hj : i = j
          · subst hj
            rw [Vector.getElem?_eq_getElem hi, hvalue]
          · exact hlater j (by omega) (by omega)
        · rintro ⟨-, hall⟩
          have hvalue := hall i (by omega) (by omega)
          rw [Vector.getElem?_eq_getElem hi] at hvalue
          exact ⟨Option.some.inj hvalue, fun j hle hlt => hall j (by omega) (by omega)⟩

end Lib.Table
