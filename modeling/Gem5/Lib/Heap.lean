import Gem5.Lib.Result

namespace Lib

/-- A heap of objects of one type, named in allocation order. A cell is empty
before its object is allocated and after it is deleted. -/
structure Heap (A : Type) where
  next : Nat
  cell : Nat → Option A

namespace Heap

variable {A B : Type}

def empty : Heap A := ⟨0, fun _ => none⟩

variable (heap : Heap A)

/-- `new`: the object is stored under the name `next`. -/
def alloc (a : A) : Heap A :=
  ⟨heap.next + 1, fun i => if i = heap.next then some a else heap.cell i⟩

/-- `delete`. -/
def free (name : Nat) : Heap A :=
  { heap with cell := fun i => if i = name then none else heap.cell i }

/-- Dereferencing a pointer. -/
def get (name : Nat) : Result A :=
  match heap.cell name with
  | some a => .ok a
  | none => .error .dangling

/-- Changing an object through a pointer to it. -/
def modify (name : Nat) (f : A → A) : Heap A :=
  { heap with cell := fun i => if i = name then (heap.cell i).map f else heap.cell i }

variable {heap}

/-- Every live object satisfies `K`. -/
def All (K : A → Prop) (heap : Heap A) : Prop := ∀ i a, heap.cell i = some a → K a

/-- The same names are live in both heaps, with related objects. -/
def Related (K : A → B → Prop) (first : Heap A) (second : Heap B) : Prop :=
  first.next = second.next ∧ ∀ i, Option.Rel K (first.cell i) (second.cell i)

variable {name : Nat}

theorem get_eq_ok_iff : heap.get name = .ok a ↔ heap.cell name = some a := by
  unfold get
  split <;> simp_all

theorem get_eq_ok_or_error (heap : Heap A) (name : Nat) :
    (∃ a, heap.get name = .ok a) ∨ heap.get name = .error .dangling := by
  unfold get
  split
  · exact .inl ⟨_, rfl⟩
  · exact .inr rfl

theorem cell_modify_of_ne (h : other ≠ name) (f : A → A) : (heap.modify name f).cell other = heap.cell other := if_neg h

theorem cell_modify_self (heap : Heap A) (name : Nat) (f : A → A) :
    (heap.modify name f).cell name = (heap.cell name).map f := if_pos rfl

theorem isSome_cell_modify (heap : Heap A) (name other : Nat) (f : A → A) :
    ((heap.modify name f).cell other).isSome = (heap.cell other).isSome := by
  by_cases h : other = name
  · rw [h, cell_modify_self, Option.isSome_map]
  · rw [cell_modify_of_ne h]

theorem cell_alloc_self (heap : Heap A) (a : A) : (heap.alloc a).cell heap.next = some a := if_pos rfl

/-- Allocation does not change the cells allocated before. -/
theorem map_cell_alloc (heap : Heap A) (a : A) {names : List Nat} (h : ∀ name ∈ names, name < heap.next) :
    names.map (heap.alloc a).cell = names.map heap.cell := by
  apply List.map_congr_left
  intro name hmem
  exact if_neg (Nat.ne_of_lt (h name hmem))

/-- Deletion does not change the other cells. -/
theorem map_cell_free (heap : Heap A) {names : List Nat} (h : name ∉ names) :
    names.map (heap.free name).cell = names.map heap.cell := by
  apply List.map_congr_left
  intro other hmem
  apply if_neg
  rintro rfl
  exact h hmem

theorem All.empty (K : A → Prop) : (empty : Heap A).All K := by
  intro i a h
  cases h

theorem All.alloc {K : A → Prop} (h : heap.All K) (ha : K a) : (heap.alloc a).All K := by
  intro i b hb
  simp only [Heap.alloc] at hb
  split at hb
  · cases hb
    exact ha
  · exact h i b hb

theorem All.free {K : A → Prop} (h : heap.All K) (name : Nat) : (heap.free name).All K := by
  intro i b hb
  simp only [Heap.free] at hb
  split at hb
  · cases hb
  · exact h i b hb

theorem Related.empty (K : A → B → Prop) : Related K (Heap.empty : Heap A) (Heap.empty : Heap B) :=
  ⟨rfl, fun _ => .none⟩

variable {K : A → B → Prop} {first : Heap A} {second : Heap B} (h : Related K first second)
include h

theorem Related.alloc (hab : K a b) : Related K (first.alloc a) (second.alloc b) := by
  obtain ⟨hnext, hcell⟩ := h
  refine ⟨by simp [Heap.alloc, hnext], fun i => ?_⟩
  simp only [Heap.alloc, hnext]
  split
  · exact .some hab
  · exact hcell i

theorem Related.free (name : Nat) : Related K (first.free name) (second.free name) := by
  obtain ⟨hnext, hcell⟩ := h
  refine ⟨hnext, fun i => ?_⟩
  simp only [Heap.free]
  split
  · exact .none
  · exact hcell i

theorem Related.get (ha : first.get name = .ok a) : ∃ b, second.get name = .ok b ∧ K a b := by
  have hrel := h.2 name
  rw [get_eq_ok_iff.mp ha] at hrel
  cases hb : second.cell name with
  | none =>
    rw [hb] at hrel
    cases hrel
  | some b =>
    rw [hb] at hrel
    cases hrel with
    | some hab => exact ⟨b, get_eq_ok_iff.mpr hb, hab⟩

end Heap

end Lib
