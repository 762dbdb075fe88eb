import Gem5.Base.IntMath
import Gem5.Lib.Result

open Lib Result Function List

namespace Gem5

/-- `TimeBuffer<T>`. The pointers in `index` are never changed, so that the place of
its pointer names an object. -/
structure TimeBuffer (A : Type) where
  past : BitVec 32
  future : BitVec 32
  size : Unsigned
  data : Nat → A
  base : Unsigned

namespace TimeBuffer

variable {A : Type}

/-- The size is a sum of `int`s. Its overflow is undefined in C++; the hardware
wraps around, and so does the model. -/
def construct [Inhabited A] (past future : BitVec 32) : Result (TimeBuffer A) := do
  require (0 ≤ past.toInt ∧ 0 ≤ future.toInt)
  .ok ⟨past, future, past + future + 1, fun _ => default, 0⟩

variable (b : TimeBuffer A)

def valid (idx : BitVec 32) : Result Unit :=
  require (-b.past.toInt ≤ idx.toInt ∧ idx.toInt ≤ b.future.toInt)

/-- `index[i]` for an `int`. -/
def index (i : BitVec 32) : Result Nat :=
  if 0 ≤ i.toInt ∧ i.toInt < b.size.toNat then .ok i.toNat else .error .outOfRange

/-- The sum is `unsigned` and is stored in an `int`; the size is compared as one. -/
def advance [Inhabited A] (b : TimeBuffer A) : Result (TimeBuffer A) := do
  let base := if b.base + 1 ≥ b.size then 0 else b.base + 1
  let ptr := base + b.future
  let object ← b.index (if ptr.toInt ≥ b.size.toInt then ptr - b.size else ptr)
  .ok { b with base, data := update b.data object default }

def calculateVectorIndex (idx : BitVec 32) : Result (BitVec 32) := do
  b.valid idx
  let vector_index := idx + b.base
  .ok (if vector_index.toInt ≥ b.size.toInt then vector_index - b.size
    else if vector_index.toInt < 0 then vector_index + b.size else vector_index)

def access (idx : BitVec 32) : Result Nat := do
  let vector_index ← b.calculateVectorIndex idx
  b.index vector_index

/-- `*access(idx) = value`. -/
def write (idx : BitVec 32) (value : A) : Result (TimeBuffer A) := do
  let object ← b.access idx
  .ok { b with data := update b.data object value }

variable {b}

inductive Call (A : Type) where
  | advance
  | write (idx : BitVec 32) (value : A)

def call [Inhabited A] : TimeBuffer A → Call A → Result (TimeBuffer A)
  | b, .advance => b.advance
  | b, .write idx value => b.write idx value

/-- The call writes to a position of the buffer, if it writes. -/
def Call.Within (past future : Int) : Call A → Prop
  | .advance => True
  | .write idx _ => -past ≤ idx.toInt ∧ idx.toInt ≤ future

def advances : List (Call A) → Nat
  | [] => 0
  | .advance :: calls => advances calls + 1
  | .write _ _ :: calls => advances calls

/-- The value last written to the object that is at the position before the calls
and holds `value` then. Each advance takes it one position down. -/
def lastWritten : List (Call A) → Int → A → A
  | [], _, value => value
  | .advance :: calls, position, value => lastWritten calls (position - 1) value
  | .write idx new :: calls, position, value => lastWritten calls position (if idx.toInt = position then new else value)

/-- Every sequence of calls within the buffer is answered. After any further calls
the object at a position is the one that was as many positions up as there were
advances, with the value last written to it. The one that an advance brings to
the last position is default-constructed. -/
def Moves (A : Type) [Inhabited A] (past future : BitVec 32) : Prop :=
  ∃ start : TimeBuffer A, construct past future = .ok start ∧
    ∀ before : List (Call A), (∀ c ∈ before, c.Within past.toInt future.toInt) →
      ∃ b, before.foldlM call start = .ok b ∧
        (∀ calls : List (Call A), (∀ c ∈ calls, c.Within past.toInt future.toInt) →
          ∃ b', calls.foldlM call b = .ok b' ∧
            ∀ j k : BitVec 32, -past.toInt ≤ j.toInt → k.toInt = j.toInt + advances calls → k.toInt ≤ future.toInt →
              ∃ object, b.access k = .ok object ∧ b'.access j = .ok object ∧
                b'.data object = lastWritten calls k.toInt (b.data object)) ∧
        ∃ b' object, b.advance = .ok b' ∧ b'.access future = .ok object ∧ b'.data object = default

/-- What the buffer is for: a window that moves along a line of objects. -/
structure Timeline (A : Type) where
  now : Int
  objects : Int → A

namespace Timeline

def call : Timeline A → Call A → Timeline A
  | t, .advance => { t with now := t.now + 1 }
  | t, .write idx value => { t with objects := update t.objects (t.now + idx.toInt) value }

theorem now_calls (t : Timeline A) (calls : List (Call A)) : (calls.foldl call t).now = t.now + advances calls := by
  induction calls generalizing t with
  | nil => exact (Int.add_zero t.now).symm
  | cons c calls ih =>
    rw [foldl_cons, ih]
    cases c with
    | advance =>
      simp only [call, advances]
      omega
    | write idx value => rfl

theorem objects_calls (t : Timeline A) (calls : List (Call A)) (position : Int) :
    (calls.foldl call t).objects (t.now + position) = lastWritten calls position (t.objects (t.now + position)) := by
  induction calls generalizing t position with
  | nil => rfl
  | cons c calls ih =>
    rw [foldl_cons]
    cases c with
    | advance =>
      have hmoved := ih (t.call .advance) (position - 1)
      have hsame : t.now + 1 + (position - 1) = t.now + position := by omega
      simp only [call, hsame] at hmoved
      exact hmoved
    | write idx value =>
      refine (ih (t.call (.write idx value)) position).trans (congrArg (lastWritten calls position) ?_)
      simp only [call, update_apply, Int.add_right_inj, eq_comm]

end Timeline

theorem toNat_eq_toInt {x : BitVec 32} (h : 0 ≤ x.toInt) : (x.toNat : Int) = x.toInt := by
  have hlt := x.isLt
  rw [BitVec.toInt_eq_toNat_cond] at h ⊢
  split <;> omega

theorem toInt_add_eq {x y : BitVec 32} (hlow : -2 ^ 31 ≤ x.toInt + y.toInt) (hhigh : x.toInt + y.toInt < 2 ^ 31) :
    (x + y).toInt = x.toInt + y.toInt :=
  (BitVec.toInt_add x y).trans (Int.bmod_eq_of_le hlow hhigh)

theorem toInt_sub_eq {x y : BitVec 32} (hlow : -2 ^ 31 ≤ x.toInt - y.toInt) (hhigh : x.toInt - y.toInt < 2 ^ 31) :
    (x - y).toInt = x.toInt - y.toInt :=
  BitVec.toInt_sub.trans (Int.bmod_eq_of_le hlow hhigh)

/-- Positions of one window have slots of their own. -/
theorem emod_ne {x y n : Int} (hne : x ≠ y) (hlt : x - y < n) (hgt : y - x < n) : x % n ≠ y % n := by
  intro heq
  have hdvd := Int.dvd_of_emod_eq_zero (Int.emod_eq_emod_iff_emod_sub_eq_zero.mp heq)
  exact hne (Int.sub_eq_zero.mp (Int.eq_zero_of_abs_lt_dvd hdvd (abs_lt.mpr ⟨by omega, hlt⟩)))

/-- A size that an `int` cannot hold is taken for a negative one. -/
theorem access_error {past future : BitVec 32} (hpast : 0 ≤ past.toInt) (hfuture : 0 ≤ future.toInt)
    (hsize : 2 ^ 31 ≤ past.toInt + future.toInt + 1) (data : Nat → A) :
    access ⟨past, future, past + future + 1, data, 0⟩ future = .error .outOfRange := by
  have hpast' := toNat_eq_toInt hpast
  have hfuture' := toNat_eq_toInt hfuture
  have hlt := past.toInt_lt
  have hlt' := future.toInt_lt
  have hone : (1 : BitVec 32).toNat = 1 := rfl
  have hnegative : (past + future + 1).toInt < 0 := by
    rw [BitVec.toInt_neg_iff, BitVec.toNat_add, BitVec.toNat_add, hone]
    omega
  have hindex : (future - (past + future + 1)).toInt < 0 := by
    rw [BitVec.toInt_neg_iff, BitVec.toNat_sub, BitVec.toNat_add, BitVec.toNat_add, hone]
    omega
  have hvalid : -past.toInt ≤ future.toInt ∧ future.toInt ≤ future.toInt := by omega
  have hbase : future + 0 = future := BitVec.add_zero future
  rw [access, calculateVectorIndex, valid, bind_of_ok (require_of_decide hvalid)]
  simp only [hbase]
  rw [if_pos (by omega)]
  exact if_neg (by omega)

variable [Inhabited A]

/-- The buffer holds the window of `n` positions from `past` before now to `future`
after. -/
structure Shows (past future n : Int) (b : TimeBuffer A) (t : Timeline A) : Prop where
  span : 0 ≤ past ∧ 0 ≤ future ∧ n = past + future + 1 ∧ n < 2 ^ 31
  past_eq : b.past.toInt = past
  future_eq : b.future.toInt = future
  size : b.size.toInt = n
  base : b.base.toInt = t.now % n
  slots : ∀ i, -past ≤ i → i ≤ future → b.data ((t.now + i) % n).toNat = t.objects (t.now + i)
  later : ∀ x, t.now + future < x → t.objects x = default

namespace Shows

variable {past future n : Int} {t : Timeline A} (h : Shows past future n b t)
include h

theorem bounds (x : Int) : 0 ≤ x % n ∧ x % n < n := by
  have hpos : 0 < n := by
    have hspan := h.span
    omega
  exact ⟨Int.emod_nonneg x (Int.ne_of_gt hpos), Int.emod_lt_of_pos x hpos⟩

theorem index {i : BitVec 32} {x : Int} (hi : i.toInt = x % n) : b.index i = .ok (x % n).toNat := by
  obtain ⟨hlow, hhigh⟩ := h.bounds x
  have hsize : (b.size.toNat : Int) = n := (toNat_eq_toInt (by rw [h.size]; omega)).trans h.size
  have hnat : (i.toNat : Int) = x % n := (toNat_eq_toInt (by omega)).trans hi
  rw [TimeBuffer.index, if_pos ⟨by omega, by omega⟩, ← hnat, Int.toNat_natCast]

/-- A sum that is at most one size outside the vector is brought back into it. -/
theorem wrap {v : BitVec 32} (hlow : -n ≤ v.toInt) (hhigh : v.toInt < 2 * n) :
    (if v.toInt ≥ b.size.toInt then v - b.size else if v.toInt < 0 then v + b.size else v).toInt = v.toInt % n := by
  have hspan := h.span
  have hsize := h.size
  split
  · rw [toInt_sub_eq (by omega) (by omega), hsize, ← Int.sub_emod_right, Int.emod_eq_of_lt (by omega) (by omega)]
  split
  · rw [toInt_add_eq (by omega) (by omega), hsize, ← Int.add_emod_right, Int.emod_eq_of_lt (by omega) (by omega)]
  · rw [Int.emod_eq_of_lt (by omega) (by omega)]

theorem access {idx : BitVec 32} (hidx : -past ≤ idx.toInt ∧ idx.toInt ≤ future)
    (hroom : t.now % n + future < 2 ^ 31) : b.access idx = .ok ((t.now + idx.toInt) % n).toNat := by
  have hspan := h.span
  have hbase := h.base
  obtain ⟨hnow, hnow'⟩ := h.bounds t.now
  have hsum : (idx + b.base).toInt = idx.toInt + b.base.toInt := toInt_add_eq (by omega) (by omega)
  have hwrap := h.wrap (by omega) (by omega : (idx + b.base).toInt < 2 * n)
  have hslot : (idx + b.base).toInt % n = (t.now + idx.toInt) % n := by
    rw [hsum, hbase, Int.add_comm, Int.emod_add_emod]
  have hvalid : b.valid idx = .ok () := by
    apply require_of_decide
    rwa [h.past_eq, h.future_eq]
  rw [TimeBuffer.access, calculateVectorIndex, bind_of_ok hvalid]
  exact h.index (hwrap.trans hslot)

/-- The slots after one object is replaced. -/
theorem slots_update {now position i : Int} (value : A) (hposition : -past ≤ position ∧ position ≤ future)
    (hlow : -past ≤ i) (hhigh : i ≤ future) :
    update b.data ((now + position) % n).toNat value ((now + i) % n).toNat =
      if i = position then value else b.data ((now + i) % n).toNat := by
  have hspan := h.span
  split
  · rename_i heq
    rw [heq, update_self]
  · have hne : (now + i) % n ≠ (now + position) % n := emod_ne (by omega) (by omega) (by omega)
    obtain ⟨hle, -⟩ := h.bounds (now + i)
    obtain ⟨hle', -⟩ := h.bounds (now + position)
    exact update_of_ne (by omega) _ _

theorem write {idx : BitVec 32} (hidx : -past ≤ idx.toInt ∧ idx.toInt ≤ future)
    (hroom : t.now % n + future < 2 ^ 31) (value : A) :
    ∃ b', b.write idx value = .ok b' ∧ Shows past future n b' (t.call (.write idx value)) := by
  refine ⟨_, bind_of_ok (h.access hidx hroom) _, { h with slots := fun i hlow hhigh => ?_, later := fun x hx => ?_ }⟩
  · simp only [h.slots_update value hidx hlow hhigh, Timeline.call, update_apply, Int.add_right_inj,
      h.slots i hlow hhigh]
  · have hne : x ≠ t.now + idx.toInt := by
      simp only [Timeline.call] at hx
      omega
    exact (update_of_ne hne _ _).trans (h.later x hx)

/-- The base moves on, and starts again at the end of the vector. -/
theorem base_advance : (if b.base + 1 ≥ b.size then 0 else b.base + 1).toInt = (t.now + 1) % n := by
  obtain ⟨hnow, hnow'⟩ := h.bounds t.now
  have hspan := h.span
  have hsize := h.size
  have hbase := h.base
  have hone : (1 : BitVec 32).toInt = 1 := rfl
  have hnext : (b.base + 1).toInt = t.now % n + 1 := by
    rw [toInt_add_eq (by omega) (by omega), hbase, hone]
  have hnat := toNat_eq_toInt (x := b.base + 1) (by omega)
  have hnat' := toNat_eq_toInt (x := b.size) (by omega)
  rw [← Int.emod_add_emod]
  split
  · rename_i hwrap
    have hle := BitVec.le_def.mp hwrap
    obtain hend : t.now % n + 1 = n := by omega
    rw [hend, Int.emod_self]
    rfl
  · rename_i hwrap
    have hle := mt BitVec.le_def.mpr hwrap
    exact hnext.trans (Int.emod_eq_of_lt (by omega) (by omega)).symm

theorem advance (hroom : (t.now + 1) % n + future < 2 ^ 31) :
    ∃ b', b.advance = .ok b' ∧ Shows past future n b' (t.call .advance) := by
  have hspan := h.span
  have hbase := h.base_advance
  obtain ⟨hnow, hnow'⟩ := h.bounds (t.now + 1)
  simp only [TimeBuffer.advance]
  generalize (if b.base + 1 ≥ b.size then 0 else b.base + 1) = base at hbase ⊢
  have hfuture := h.future_eq
  have hsum : (base + b.future).toInt = (t.now + 1) % n + future := by
    rw [toInt_add_eq (by omega) (by omega), hbase, hfuture]
  have hwrap := h.wrap (by omega) (by omega : (base + b.future).toInt < 2 * n)
  have hslot : (base + b.future).toInt % n = (t.now + 1 + future) % n := by rw [hsum, Int.emod_add_emod]
  rw [if_neg (by omega : ¬(base + b.future).toInt < 0)] at hwrap
  refine ⟨_, bind_of_ok (h.index (hwrap.trans hslot)) _,
    { h with base := hbase, slots := fun i hlow hhigh => ?_, later := fun x hx => h.later x ?_ }⟩
  · simp only [h.slots_update default ⟨by omega, Int.le_refl future⟩ hlow hhigh, Timeline.call]
    split
    · exact (h.later _ (by omega)).symm
    · have hslot := h.slots (i + 1) (by omega) (by omega)
      have hsame : t.now + (i + 1) = t.now + 1 + i := by omega
      rwa [hsame] at hslot
  · simp only [Timeline.call] at hx
    omega

/-- A sum of the base and `future` that an `int` cannot hold is taken for a negative
index. -/
theorem advance_error (hnow : 0 ≤ t.now) (hend : t.now + 1 + future = 2 ^ 31) (hlt : t.now + 1 < n) :
    b.advance = .error .outOfRange := by
  have hsize := h.size
  have hbase := h.base_advance
  simp only [TimeBuffer.advance]
  generalize (if b.base + 1 ≥ b.size then 0 else b.base + 1) = base at hbase ⊢
  have hsum : (base + b.future).toInt = -2 ^ 31 := by
    rw [BitVec.toInt_add, hbase, h.future_eq, Int.emod_eq_of_lt (by omega) hlt, hend]
    rfl
  have hnegative : b.index (base + b.future) = .error .outOfRange := if_neg (by omega)
  rw [if_neg (by omega)]
  exact bind_of_error hnegative _

theorem advances_error {d : Nat} (hnow : 0 ≤ t.now) (hend : t.now + (d + 1) + future = 2 ^ 31)
    (hlt : t.now + (d + 1) < n) : (replicate (d + 1) Call.advance).foldlM TimeBuffer.call b = .error .outOfRange := by
  induction d generalizing b t with
  | zero => exact bind_of_error (h.advance_error hnow (by omega) (by omega)) _
  | succ d ih =>
    have hroom : (t.now + 1) % n + future < 2 ^ 31 := by
      rw [Int.emod_eq_of_lt (by omega) (by omega)]
      omega
    obtain ⟨b', hadvance, h'⟩ := h.advance hroom
    rw [replicate_succ, foldlM_cons]
    refine (bind_of_ok hadvance _).trans (ih h' ?_ ?_ ?_) <;> simp only [Timeline.call] <;> omega

variable (hfits : past + 2 * future < 2 ^ 31)
include hfits

/-- No sum of an index and the base leaves the range of an `int`. -/
theorem room (x : Int) : x % n + future < 2 ^ 31 := by
  have hspan := h.span
  obtain ⟨-, hlt⟩ := h.bounds x
  omega

theorem call {c : Call A} (hc : c.Within past future) :
    ∃ b', b.call c = .ok b' ∧ Shows past future n b' (t.call c) := by
  cases c with
  | advance => exact h.advance (h.room hfits _)
  | write idx value => exact h.write hc (h.room hfits _) value

variable {calls : List (Call A)}

theorem run (hcalls : ∀ c ∈ calls, c.Within past future) :
    ∃ b', calls.foldlM TimeBuffer.call b = .ok b' ∧ Shows past future n b' (calls.foldl Timeline.call t) := by
  induction calls generalizing b t with
  | nil => exact ⟨b, rfl, h⟩
  | cons c calls ih =>
    obtain ⟨hc, hcalls⟩ := forall_mem_cons.mp hcalls
    obtain ⟨next, hcall, hnext⟩ := h.call hfits hc
    rw [foldlM_cons, bind_of_ok hcall]
    exact ih hnext hcalls

theorem moved (h' : Shows past future n b' (calls.foldl Timeline.call t)) {j k : BitVec 32} (hj : -past ≤ j.toInt)
    (hjk : k.toInt = j.toInt + advances calls) (hk : k.toInt ≤ future) :
    ∃ object, b.access k = .ok object ∧ b'.access j = .ok object ∧
      b'.data object = lastWritten calls k.toInt (b.data object) := by
  have hsame : (calls.foldl Timeline.call t).now + j.toInt = t.now + k.toInt := by
    rw [Timeline.now_calls]
    omega
  have haccess := h'.access ⟨hj, by omega⟩ (h'.room hfits _)
  have hslot := h'.slots j.toInt hj (by omega)
  rw [hsame] at haccess hslot
  refine ⟨_, h.access ⟨by omega, hk⟩ (h.room hfits _), haccess, ?_⟩
  rw [hslot, Timeline.objects_calls, h.slots k.toInt (by omega) hk]

theorem entering {last : BitVec 32} (hlast : last.toInt = future) :
    ∃ b' object, b.advance = .ok b' ∧ b'.access last = .ok object ∧ b'.data object = default := by
  have hspan := h.span
  obtain ⟨b', hadvance, h'⟩ := h.advance (h.room hfits _)
  refine ⟨b', _, hadvance, h'.access (by omega) (h'.room hfits _), ?_⟩
  rw [h'.slots last.toInt (by omega) (by omega)]
  refine h.later _ ?_
  simp only [Timeline.call]
  omega

end Shows

variable {past future : BitVec 32}

theorem construct_shows (hpast : 0 ≤ past.toInt) (hfuture : 0 ≤ future.toInt)
    (hsize : past.toInt + future.toInt + 1 < 2 ^ 31) :
    Shows past.toInt future.toInt (past.toInt + future.toInt + 1)
      (⟨past, future, past + future + 1, fun _ => default, 0⟩ : TimeBuffer A) ⟨0, fun _ => default⟩ := by
  have hsum : (past + future).toInt = past.toInt + future.toInt := toInt_add_eq (by omega) (by omega)
  have hone : (1 : BitVec 32).toInt = 1 := rfl
  refine ⟨⟨hpast, hfuture, rfl, hsize⟩, rfl, rfl, ?_, (Int.zero_emod _).symm, fun _ _ _ => rfl, fun _ _ => rfl⟩
  rw [toInt_add_eq (by omega) (by omega), hsum, hone]

/-- A buffer works exactly if its size and `past + 2 * future` are values of an
`int`. -/
theorem moves_iff (hpast : 0 ≤ past.toInt) (hfuture : 0 ≤ future.toInt) :
    Moves A past future ↔ past.toInt + future.toInt + max future.toInt 1 < 2 ^ 31 := by
  have hconstruct : construct past future =
    .ok (⟨past, future, past + future + 1, fun _ => default, 0⟩ : TimeBuffer A) :=
    bind_of_ok (require_of_decide ⟨hpast, hfuture⟩) _
  constructor
  · rintro ⟨start, hstart, hruns⟩
    cases hconstruct.symm.trans hstart
    by_contra hnot
    by_cases hsize : past.toInt + future.toInt + 1 < 2 ^ 31
    · -- the advance that brings the base to `2 ^ 31 - future`
      obtain ⟨d, hd⟩ : ∃ d : Nat, (d : Int) = 2 ^ 31 - future.toInt - 1 := ⟨_, Int.toNat_of_nonneg (by omega)⟩
      have hend : (0 : Int) + (d + 1) + future.toInt = 2 ^ 31 := by omega
      have hlt : (0 : Int) + (d + 1) < past.toInt + future.toInt + 1 := by omega
      have herror := (construct_shows (A := A) hpast hfuture hsize).advances_error (Int.le_refl 0) hend hlt
      obtain ⟨b, hrun, -⟩ := hruns (replicate (d + 1) .advance) fun c hc => (mem_replicate.mp hc).2 ▸ trivial
      cases herror.symm.trans hrun
    · have herror := access_error hpast hfuture (by omega) fun _ => (default : A)
      obtain ⟨b, hrun, -⟩ := hruns [.write future default] (forall_mem_singleton.mpr ⟨by omega, Int.le_refl _⟩)
      obtain ⟨b, hwrite, -⟩ := bind_ok hrun
      obtain ⟨object, haccess, -⟩ := bind_ok hwrite
      cases herror.symm.trans haccess
  · intro hbound
    have hfits : past.toInt + 2 * future.toInt < 2 ^ 31 := by omega
    have hshows := construct_shows (A := A) hpast hfuture (by omega)
    refine ⟨_, hconstruct, fun before hbefore => ?_⟩
    obtain ⟨b, hrun, hb⟩ := hshows.run hfits hbefore
    refine ⟨b, hrun, fun calls hcalls => ?_, hb.entering hfits rfl⟩
    obtain ⟨b', hrun', hb'⟩ := hb.run hfits hcalls
    exact ⟨b', hrun', fun j k => hb.moved hfits hb'⟩

/-- The buffers between the stages of the O3 pipeline have five positions on either
side of now. -/
theorem moves_five : Moves Nat 5 5 := (moves_iff (by decide) (by decide)).mpr (by decide)

/-- The second advance of a buffer with `past = 0` and `future = 0x7ffffffe`. -/
theorem advance_twice_error : (∃ start : TimeBuffer Nat, construct 0 0x7ffffffe = .ok start ∧
    [Call.advance, .advance].foldlM call start = .error .outOfRange) ∧ ¬Moves Nat 0 0x7ffffffe := by
  refine ⟨⟨_, rfl, rfl⟩, ?_⟩
  rintro ⟨start, hstart, hruns⟩
  cases hstart
  obtain ⟨b, hrun, -⟩ := hruns [.advance, .advance] (by simp [Call.Within])
  cases hrun

end TimeBuffer

end Gem5
