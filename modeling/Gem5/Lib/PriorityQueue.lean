import Mathlib.Data.List.Sort

namespace Lib

/-- A priority queue that keeps an element with the least key on top. As the
standard library does, it leaves open which of several such elements that is. -/
structure PriorityQueue (A : Type) (key : A → Nat) where
  Queue : Type
  items : Queue → List A
  empty : Queue
  push : Queue → A → Queue
  top : Queue → Option A
  pop : Queue → Queue
  items_empty : items empty = []
  items_push : ∀ q a, (items (push q a)).Perm (a :: items q)
  top_eq_none_iff : ∀ q, top q = none ↔ items q = []
  top_mem : ∀ q a, top q = some a → a ∈ items q
  top_le : ∀ q a, top q = some a → ∀ b ∈ items q, key a ≤ key b
  items_pop : ∀ q a, top q = some a → (items q).Perm (a :: items (pop q))

namespace PriorityQueue

variable {A : Type} {key : A → Nat} (pq : PriorityQueue A key) {q : pq.Queue}

def size (q : pq.Queue) : Nat := (pq.items q).length

/-- The least key. -/
def least (q : pq.Queue) : Option Nat := (pq.top q).map key

theorem top_empty : pq.top pq.empty = none := (pq.top_eq_none_iff _).mpr pq.items_empty

theorem mem_push : b ∈ pq.items (pq.push q a) ↔ b = a ∨ b ∈ pq.items q :=
  (pq.items_push q a).mem_iff.trans List.mem_cons

theorem mem_pop (h : pq.top q = some a) : b ∈ pq.items q ↔ b = a ∨ b ∈ pq.items (pq.pop q) :=
  (pq.items_pop q a h).mem_iff.trans List.mem_cons

theorem least_push (q : pq.Queue) (a : A) :
    pq.least (pq.push q a) = some (match pq.least q with | none => key a | some k => min (key a) k) := by
  have hmem : ∀ b, b ∈ pq.items (pq.push q a) ↔ b = a ∨ b ∈ pq.items q := fun b => pq.mem_push
  obtain ⟨first, hfirst⟩ : ∃ first, pq.top (pq.push q a) = some first := by
    apply Option.ne_none_iff_exists'.mp
    rw [ne_eq, pq.top_eq_none_iff, List.eq_nil_iff_forall_not_mem]
    intro h
    exact h a ((hmem a).mpr (.inl rfl))
  have hle := pq.top_le _ _ hfirst
  have hlea := hle a ((hmem a).mpr (.inl rfl))
  have hwhere := (hmem first).mp (pq.top_mem _ _ hfirst)
  rw [least, hfirst, Option.map_some, Option.some.injEq, least]
  cases hold : pq.top q with
  | none =>
    cases hwhere with
    | inl heq => exact congrArg key heq
    | inr hmem =>
      rw [(pq.top_eq_none_iff q).mp hold] at hmem
      cases hmem
  | some old =>
    have hleold := hle old ((hmem old).mpr (.inr (pq.top_mem _ _ hold)))
    have hge : min (key a) (key old) ≤ key first := by
      cases hwhere with
      | inl heq => exact heq ▸ Nat.min_le_left _ _
      | inr hmem => exact Nat.le_trans (Nat.min_le_right _ _) (pq.top_le _ _ hold first hmem)
    exact Nat.le_antisymm (Nat.le_min.mpr ⟨hlea, hleold⟩) hge

/-- What is on top after a removal has no smaller key. -/
theorem top_le_top_pop (ha : pq.top q = some a) (hb : pq.top (pq.pop q) = some b) : key a ≤ key b :=
  pq.top_le _ _ ha b ((pq.items_pop _ _ ha).mem_iff.mpr (List.mem_cons_of_mem a (pq.top_mem _ _ hb)))

theorem size_push (q : pq.Queue) (a : A) : pq.size (pq.push q a) = pq.size q + 1 := (pq.items_push q a).length_eq

theorem items_foldl_push (l : List A) (q : pq.Queue) : (pq.items (l.foldl pq.push q)).Perm (l ++ pq.items q) := by
  induction l generalizing q with
  | nil => exact .refl _
  | cons a l ih => exact (ih _).trans (((pq.items_push q a).append_left l).trans List.perm_middle)

theorem size_pop (h : pq.top q = some a) : pq.size q = pq.size (pq.pop q) + 1 :=
  (pq.items_pop _ _ h).length_eq

section

variable (A) (key)

/-- The order of the keys, as a relation on the elements. -/
def KeyLE (a b : A) : Prop := key a ≤ key b

instance : DecidableRel (KeyLE A key) := fun a b => inferInstanceAs (Decidable (key a ≤ key b))

instance : Std.Total (KeyLE A key) := ⟨fun a b => Nat.le_total (key a) (key b)⟩

instance : IsTrans A (KeyLE A key) := ⟨fun _ _ _ => Nat.le_trans⟩

/-- The queue kept as a sorted list. -/
def sorted : PriorityQueue A key where
  Queue := { l : List A // l.Pairwise (KeyLE A key) }
  items q := q.1
  empty := ⟨[], .nil⟩
  push q a := ⟨q.1.orderedInsert (KeyLE A key) a, q.2.orderedInsert a⟩
  top q := q.1.head?
  pop q := ⟨q.1.tail, q.2.tail⟩
  items_empty := rfl
  items_push q a := List.perm_orderedInsert _ a q.1
  top_eq_none_iff q := List.head?_eq_none_iff
  top_mem q a h := List.mem_of_head? h
  top_le q a h b hb := by
    obtain ⟨rest, hrest⟩ := List.head?_eq_some_iff.mp h
    rw [hrest] at hb
    cases List.mem_cons.mp hb with
    | inl heq => exact heq ▸ Nat.le_refl _
    | inr hmem => exact (List.pairwise_cons.mp (hrest ▸ q.2)).1 b hmem
  items_pop q a h := by
    obtain ⟨rest, hrest⟩ := List.head?_eq_some_iff.mp h
    simp [hrest]

end

end PriorityQueue

end Lib
