import Mathlib.Data.List.Nodup

open List

/-! Linearizations of the reads and writes of one register. -/

namespace Lib

/-- Reads and writes of a register: what they return or write, and which of them come
before which others in time. -/
structure Register (A V : Type) where
  write : A → Prop
  value : A → V
  precedes : A → A → Prop

namespace Register

variable {A V : Type} {R : Register A V} {init : V} {order pre post : List A} {r : A}

/-- Executed in this order, every read returns what was written last. -/
inductive Replays (R : Register A V) : V → List A → Prop where
  | nil {v : V} : Replays R v []
  | write {v : V} {a : A} {l : List A} (h : R.write a) (rest : Replays R (R.value a) l) : Replays R v (a :: l)
  | read {v : V} {a : A} {l : List A} (h : ¬R.write a) (hv : R.value a = v) (rest : Replays R v l) :
      Replays R v (a :: l)

/-- An order of the operations that agrees with the one in time, in which the reads are
right. -/
structure Linearizes (R : Register A V) (init : V) (order : List A) : Prop where
  inTime : order.Pairwise fun a b => ¬R.precedes b a
  replays : R.Replays init order

/-- A read returns what the last write before it has written, or the initial value. -/
theorem Replays.value_of_read (h : R.Replays init (pre ++ r :: post)) (hr : ¬R.write r) :
    (∃ p u q, pre = p ++ u :: q ∧ R.write u ∧ (∀ x ∈ q, ¬R.write x) ∧ R.value r = R.value u) ∨
      (∀ x ∈ pre, ¬R.write x) ∧ R.value r = init := by
  induction pre generalizing init with
  | nil =>
    cases h with
    | write hw _ => exact absurd hw hr
    | read _ hv _ => exact .inr ⟨fun x hx => absurd hx not_mem_nil, hv⟩
  | cons a pre ih =>
    cases h with
    | write hw rest =>
      rcases ih rest with ⟨p, u, q, rfl, hu, hq, hv⟩ | ⟨hpre, hv⟩
      · exact .inl ⟨a :: p, u, q, rfl, hu, hq, hv⟩
      · exact .inl ⟨[], a, pre, rfl, hw, hpre, hv⟩
    | read hnot _ rest =>
      rcases ih rest with ⟨p, u, q, rfl, hu, hq, hv⟩ | ⟨hpre, hv⟩
      · exact .inl ⟨a :: p, u, q, rfl, hu, hq, hv⟩
      exact .inr ⟨forall_mem_cons.mpr ⟨hnot, hpre⟩, hv⟩

/-- Reads with no write between them return the same. -/
theorem Replays.value_eq_of_no_write (h : R.Replays init (p ++ o :: q ++ r :: post)) (ho : ¬R.write o)
    (hr : ¬R.write r) (hq : ∀ x ∈ q, ¬R.write x) : R.value o = R.value r := by
  induction p generalizing init with
  | cons a p ih =>
    cases h with
    | write _ rest => exact ih rest
    | read _ _ rest => exact ih rest
  | nil =>
    cases h with
    | write hw _ => exact absurd hw ho
    | read _ hv rest =>
      rcases rest.value_of_read hr with ⟨p, u, q', rfl, hu, -, -⟩ | ⟨-, hv'⟩
      · exact absurd hu (hq u (mem_append_right p mem_cons_self))
      · exact hv.trans hv'.symm

namespace Linearizes

variable (h : R.Linearizes init (pre ++ r :: post)) (hirrefl : ∀ a, ¬R.precedes a a)
include h hirrefl

theorem mem_pre_of_precedes (ha : a ∈ pre ++ r :: post) (hbefore : R.precedes a r) : a ∈ pre := by
  rcases mem_append.mp ha with hpre | hpost
  · exact hpre
  have hpair := (pairwise_append.mp h.inTime).2.1
  rcases mem_cons.mp hpost with rfl | hpost
  · exact absurd hbefore (hirrefl a)
  · exact absurd hbefore ((pairwise_cons.mp hpair).1 a hpost)

/-- Where the value of a read comes from, in terms of the order in time. Either it comes
from a write `u` with no other write in time between `u` and the read, and then reads
between `u` and this one return the same and have no write after them; or there is no
write before it. -/
theorem read_cases (hr : ¬R.write r) : (∃ u ∈ pre, R.write u ∧ R.value r = R.value u ∧
        (∀ w ∈ pre ++ r :: post, R.write w → R.precedes u w → ¬R.precedes w r) ∧
        ∀ o ∈ pre ++ r :: post, ¬R.write o → R.precedes u o → R.precedes o r →
          R.value o = R.value r ∧ ∀ w ∈ pre ++ r :: post, R.write w → R.precedes o w → ¬R.precedes w r) ∨
      (∀ w ∈ pre ++ r :: post, R.write w → ¬R.precedes w r) ∧
        ∀ o ∈ pre ++ r :: post, ¬R.write o → R.precedes o r → R.value o = R.value r := by
  have hpair := (pairwise_append.mp h.inTime).1
  rcases h.replays.value_of_read hr with ⟨p, u, q, rfl, hu, hq, hv⟩ | ⟨hpre, hv⟩
  · obtain ⟨-, hrest, hacross⟩ := pairwise_append.mp hpair
    -- a write before the read is before `u` in the order, or `u` itself
    have hwrites : ∀ w ∈ p ++ u :: q ++ r :: post, R.write w → R.precedes w r → w ∈ p ∨ w = u := by
      intro w hw hwrite hbefore
      rcases mem_append.mp (h.mem_pre_of_precedes hirrefl hw hbefore) with hp | hw
      · exact .inl hp
      · rcases mem_cons.mp hw with heq | hw
        · exact .inr heq
        · exact absurd hwrite (hq w hw)
    refine .inl ⟨u, mem_append_right p mem_cons_self, hu, hv, ?_, ?_⟩
    · intro w hw hwrite hafter hbefore
      rcases hwrites w hw hwrite hbefore with hp | rfl
      · exact hacross w hp u mem_cons_self hafter
      · exact hirrefl w hafter
    · intro o ho hread hafter hbefore
      -- the read `o` comes after `u` in the order
      have hoq : o ∈ q := by
        rcases mem_append.mp (h.mem_pre_of_precedes hirrefl ho hbefore) with hp | ho
        · exact absurd hafter (hacross o hp u mem_cons_self)
        · rcases mem_cons.mp ho with rfl | ho
          · exact absurd hu hread
          · exact ho
      refine ⟨?_, fun w hw hwrite hafter' hbefore' => ?_⟩
      · obtain ⟨q₁, q₂, rfl⟩ := append_of_mem hoq
        have hreplays := h.replays
        rw [← cons_append, ← append_assoc p (u :: q₁) (o :: q₂)] at hreplays
        exact hreplays.value_eq_of_no_write hread hr fun x hx => hq x (mem_append_right q₁ (mem_cons_of_mem o hx))
      · rcases hwrites w hw hwrite hbefore' with hp | rfl
        · exact hacross w hp o (mem_cons_of_mem u hoq) hafter'
        · exact (pairwise_cons.mp hrest).1 o hoq hafter'
  · refine .inr ⟨fun w hw hwrite hbefore => ?_, fun o ho hread hbefore => ?_⟩
    · exact hpre w (h.mem_pre_of_precedes hirrefl hw hbefore) hwrite
    · obtain ⟨p, q, rfl⟩ := append_of_mem (h.mem_pre_of_precedes hirrefl ho hbefore)
      exact h.replays.value_eq_of_no_write hread hr fun x hx => hpre x (mem_append_right p (mem_cons_of_mem o hx))

end Linearizes

end Register

end Lib
