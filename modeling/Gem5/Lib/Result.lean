import Mathlib.Data.Vector.Basic

open Vector

namespace Lib

/-- What a run of the modelled code can do instead of returning a value. -/
inductive Fault where
  /-- A vector is indexed at or past its size. -/
  | outOfRange
  /-- An `assert` does not hold. -/
  | assertion
  /-- A pointer to an object that was never allocated, or was deleted, is used. -/
  | dangling
  /-- An integer is divided by zero. -/
  | divisionByZero
  deriving DecidableEq, Repr

/-- Computations that either return or fault. -/
abbrev Result (A : Type) : Type := Except Fault A

namespace Result

variable {E A B : Type} {x : Except E A} {f : A → Except E B} {g : A → B → Except E C}
  {k : A → B → C → Except E D} {condition : Bool}

theorem bind_eq_ok_iff : (x >>= f) = .ok y ↔ ∃ a, x = .ok a ∧ f a = .ok y := by
  cases x <;> simp [Bind.bind, Except.bind]

theorem bind_ok (h : (x >>= f) = .ok y) : ∃ a, x = .ok a ∧ f a = .ok y :=
  bind_eq_ok_iff.mp h

theorem bind_ok₂ (h : (x >>= fun a => f a >>= g a) = .ok y) : ∃ a b, x = .ok a ∧ f a = .ok b ∧ g a b = .ok y := by
  obtain ⟨a, ha, h⟩ := bind_ok h
  obtain ⟨b, hb, h⟩ := bind_ok h
  exact ⟨a, b, ha, hb, h⟩

theorem bind₃_eq_ok_iff : (x >>= fun a => f a >>= fun b => g a b >>= k a b) = .ok y ↔
    ∃ a b c, x = .ok a ∧ f a = .ok b ∧ g a b = .ok c ∧ k a b c = .ok y := by
  simp only [bind_eq_ok_iff, exists_and_left]

theorem bind_ok₃ (h : (x >>= fun a => f a >>= fun b => g a b >>= k a b) = .ok y) :
    ∃ a b c, x = .ok a ∧ f a = .ok b ∧ g a b = .ok c ∧ k a b c = .ok y :=
  bind₃_eq_ok_iff.mp h

theorem bind₅_eq_ok_iff {l : A → B → C → D → Except E F} {m : A → B → C → D → F → Except E G} :
    (x >>= fun a => f a >>= fun b => g a b >>= fun c => k a b c >>= fun d => l a b c d >>= m a b c d) = .ok y ↔
      ∃ a b c d e, x = .ok a ∧ f a = .ok b ∧ g a b = .ok c ∧ k a b c = .ok d ∧ l a b c d = .ok e ∧
        m a b c d e = .ok y := by
  simp only [bind_eq_ok_iff, exists_and_left]

theorem bind_of_ok (h : x = .ok a) (f : A → Except E B) : (x >>= f) = f a := by
  rw [h]
  rfl

theorem bind_of_error (h : x = .error e) (f : A → Except E B) : (x >>= f) = .error e := by
  rw [h]
  rfl

theorem map_eq_ok_iff {f : A → B} : x.map f = .ok y ↔ ∃ a, x = .ok a ∧ f a = y := by
  cases x <;> simp [Except.map]

theorem map_ok {f : A → B} (h : x.map f = .ok y) : ∃ a, x = .ok a ∧ f a = y :=
  map_eq_ok_iff.mp h

theorem map_bind {C : Type} (x : Except E A) (f : A → Except E B) (g : B → C) :
    (x >>= f).map g = x >>= fun a => (f a).map g := by
  cases x <;> rfl

theorem bind_map {C : Type} (x : Except E A) (f : A → B) (g : B → Except E C) :
    x.map f >>= g = x >>= fun a => g (f a) := by
  cases x <;> rfl

/-- What every pass of a loop keeps, where `I` may speak of the elements that are
still to come. -/
theorem foldlM_induction {f : B → A → Except E B} {I : List A → B → Prop}
    (hstep : ∀ a later b b', I (a :: later) b → f b a = .ok b' → I later b') (h : I as b)
    (hloop : as.foldlM f b = .ok b') : I [] b' := by
  induction as generalizing b with
  | nil =>
    cases hloop
    exact h
  | cons a later ih =>
    rw [List.foldlM_cons] at hloop
    obtain ⟨next, hfirst, hrest⟩ := bind_ok hloop
    exact ih (hstep a later b next h hfirst) hrest

/-- What `mapM` returns, element by element. -/
theorem forall₂_of_mapM {f : A → Except E B} (h : as.mapM f = .ok bs) :
    List.Forall₂ (fun a b => f a = .ok b) as bs := by
  induction as generalizing bs with
  | nil =>
    cases h
    exact .nil
  | cons a as ih =>
    rw [List.mapM_cons] at h
    obtain ⟨first, hfirst, h⟩ := bind_ok h
    obtain ⟨rest, hrest, hdone⟩ := bind_ok h
    cases hdone
    exact .cons hfirst (ih hrest)

theorem exists_of_mem_forall₂ {R : A → B → Prop} (h : List.Forall₂ R as bs) (hb : b ∈ bs) : ∃ a ∈ as, R a b := by
  induction h with
  | nil => cases hb
  | @cons a _ as _ hab _ ih =>
    cases List.mem_cons.mp hb with
    | inl heq => exact ⟨a, List.mem_cons_self, heq ▸ hab⟩
    | inr hb =>
      obtain ⟨other, hmem, hother⟩ := ih hb
      exact ⟨other, List.mem_cons_of_mem a hmem, hother⟩

/-- The C++ `assert`. -/
def require (condition : Bool) : Result Unit :=
  if condition then .ok () else .error .assertion

theorem require_eq_ok_iff : require condition = .ok u ↔ condition = true := by
  cases condition <;> simp [require]

theorem require_of_true (h : condition = true) : require condition = .ok () := by
  simp [require, h]

theorem require_of_decide {P : Prop} [Decidable P] (h : P) : require P = .ok () :=
  require_of_true (decide_eq_true h)

theorem require_of_lt {x y : BitVec w} (h : x.toNat < y.toNat) : require (x < y) = .ok () :=
  require_of_decide (BitVec.lt_def.mpr h)

/-- Giving up with a message when a condition holds. -/
def fatalIf (condition : Bool) (message : String) : Except String Unit :=
  if condition then .error message else .ok ()

theorem fatalIf_eq_ok_iff : fatalIf condition message = .ok u ↔ condition = false := by
  cases condition <;> simp [fatalIf]

end Result

namespace Table

variable {A : Type} {size : Nat} (table : Vector A size)

/-- Reading `table[index]`, with the access checked. -/
def read (index : Nat) : Result A :=
  if h : index < size then .ok table[index] else .error .outOfRange

/-- Writing `table[index]`, with the access checked. -/
def write (index : Nat) (value : A) : Result (Vector A size) :=
  if h : index < size then .ok (table.set index value) else .error .outOfRange

/-- Calling a mutating method on `table[index]`, with the access checked. -/
def modify (index : Nat) (f : A → A) : Result (Vector A size) :=
  if h : index < size then .ok (table.set index (f table[index])) else .error .outOfRange

/-- A write guarded by a condition. -/
def writeIf (condition : Bool) (table : Vector A size) (index : Nat) (value : A) : Result (Vector A size) :=
  if condition then write table index value else .ok table

/-- A mutating call guarded by a condition. -/
def modifyIf (condition : Bool) (table : Vector A size) (index : Nat) (f : A → A) : Result (Vector A size) :=
  if condition then modify table index f else .ok table

variable {index : Nat}

theorem read_of_lt (h : index < size) : read table index = .ok table[index] := by
  simp [read, h]

theorem read_of_le (h : size ≤ index) : read table index = .error .outOfRange := by
  simp [read, Nat.not_lt.mpr h]

variable {table} {value : A}

theorem read_eq_ok_iff : read table index = .ok value ↔ ∃ h : index < size, table[index] = value := by
  unfold read
  split <;> simp_all

theorem write_of_lt (table : Vector A size) (h : index < size) (value : A) :
    write table index value = .ok (table.set index value) := by
  simp [write, h]

variable {after : Vector A size}

theorem write_eq_ok_iff : write table index value = .ok after ↔ ∃ _ : index < size, table.set index value = after := by
  unfold write
  split <;> simp_all

theorem modify_of_lt (table : Vector A size) (h : index < size) (f : A → A) :
    modify table index f = .ok (table.set index (f table[index])) := by
  simp [modify, h]

theorem modify_of_le (table : Vector A size) (h : size ≤ index) (f : A → A) :
    modify table index f = .error .outOfRange := by
  simp [modify, Nat.not_lt.mpr h]

variable {f : A → A}

theorem modify_eq_ok_iff : modify table index f = .ok after ↔
      ∃ h : index < size, table.set index (f table[index]) = after := by
  unfold modify
  split <;> simp_all

/-- Reading back the entry that was just changed. -/
theorem read_of_modify (hmodify : modify table index f = .ok after) (hread : read table index = .ok value) :
    read after index = .ok (f value) := by
  obtain ⟨h, rfl⟩ := modify_eq_ok_iff.mp hmodify
  obtain ⟨-, rfl⟩ := read_eq_ok_iff.mp hread
  rw [read_of_lt _ h, getElem_set_self]

/-- An entry that can be read can be changed and read back. -/
theorem modify_of_read (hread : read table index = .ok value) (f : A → A) :
    ∃ after, modify table index f = .ok after ∧ read after index = .ok (f value) := by
  obtain ⟨h, -⟩ := read_eq_ok_iff.mp hread
  exact ⟨_, modify_of_lt table h f, read_of_modify (modify_of_lt table h f) hread⟩

theorem read_replicate (h : index < size) (value : A) : read (replicate size value) index = .ok value := by
  rw [read_of_lt _ h, getElem_replicate]

theorem write_replicate (h : index < size) (value : A) :
    write (replicate size value) index value = .ok (replicate size value) := by
  rw [write_of_lt _ h, set_replicate_self]

theorem modify_replicate (h : index < size) (hf : f value = value) :
    modify (replicate size value) index f = .ok (replicate size value) := by
  rw [modify_of_lt _ h, getElem_replicate, hf, set_replicate_self]

/-- A loop over a list that does not fault at any of its elements. -/
theorem mapM_list_of_forall {entries : List A} {f : A → Result B} {g : A → B}
    (h : ∀ value ∈ entries, f value = .ok (g value)) : entries.mapM f = .ok (entries.map g) := by
  induction entries with
  | nil => rfl
  | cons value later ih =>
    have hlater := ih fun other hmem => h other (List.mem_cons_of_mem value hmem)
    rw [List.mapM_cons, Result.bind_of_ok (h value List.mem_cons_self), Result.bind_of_ok hlater]
    rfl

/-- A loop over a table that does not fault at any of its entries. -/
theorem mapM_of_forall {f : A → Result B} {g : A → B} (h : ∀ value ∈ table, f value = .ok (g value)) :
    table.mapM f = .ok (table.map g) := by
  have hlist : table.toList.mapM f = .ok (table.toList.map g) := by
    apply mapM_list_of_forall
    intro value hmem
    exact h value (mem_toList_iff.mp hmem)
  have hsame : Array.toList <$> toArray <$> table.mapM f = .ok (table.toList.map g) := by
    rw [toArray_mapM, Array.toList_mapM]
    exact hlist
  cases hmap : table.mapM f with
  | error fault =>
    rw [hmap] at hsame
    cases hsame
  | ok after =>
    rw [hmap] at hsame
    congr 1
    apply toArray_inj.mp
    apply Array.toList_inj.mp
    rw [toArray_map, Array.toList_map]
    exact Except.ok.inj hsame

/-- Every entry of the table satisfies `P`. -/
def All (P : A → Prop) (table : Vector A size) : Prop := ∀ value ∈ table, P value

theorem All.replicate {P : A → Prop} (h : P value) : All P (replicate size value) := by
  intro other hmem
  obtain ⟨-, rfl⟩ := mem_replicate.mp hmem
  exact h

theorem All.read {P : A → Prop} (h : All P table) (hread : read table index = .ok value) : P value := by
  obtain ⟨hlt, rfl⟩ := read_eq_ok_iff.mp hread
  exact h _ (getElem_mem hlt)

theorem All.modifyIf {P : A → Prop} (h : All P table) (hf : ∀ value, P value → P (f value))
    (hmodify : modifyIf condition table index f = .ok after) : All P after := by
  unfold Table.modifyIf at hmodify
  split at hmodify
  · obtain ⟨hlt, rfl⟩ := modify_eq_ok_iff.mp hmodify
    intro value hmem
    rcases mem_or_eq_of_mem_set hmem with hold | rfl
    · exact h value hold
    · exact hf _ (h _ (getElem_mem hlt))
  · cases hmodify
    exact h

theorem writeIf_of_lt (h : index < size) :
    writeIf condition table index value = .ok (if condition then table.set index value else table) := by
  cases condition with
  | true => exact write_of_lt table h value
  | false => rfl

theorem modifyIf_of_lt (h : index < size) :
    modifyIf condition table index f = .ok (if condition then table.set index (f table[index]) else table) := by
  cases condition with
  | true => exact modify_of_lt table h f
  | false => rfl

theorem exists_writeIf (h : condition = true → index < size) :
    ∃ after, writeIf condition table index value = .ok after := by
  cases condition with
  | true => exact ⟨_, writeIf_of_lt (h rfl)⟩
  | false => exact ⟨table, rfl⟩

theorem exists_modifyIf (h : condition = true → index < size) :
    ∃ after, modifyIf condition table index f = .ok after := by
  cases condition with
  | true => exact ⟨_, modifyIf_of_lt (h rfl)⟩
  | false => exact ⟨table, rfl⟩

/-- A guarded mutating call that returns was inside the table. -/
theorem lt_of_modifyIf (h : modifyIf true table index f = .ok after) : index < size :=
  (modify_eq_ok_iff.mp h).1

end Table

end Lib
