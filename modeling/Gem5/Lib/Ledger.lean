import Mathlib.Logic.Function.Basic

open Function List

namespace Lib

/-- What a call does to the object it is made with. -/
inductive Stage where
  | allocation
  | use
  | release
  deriving DecidableEq

namespace Ledger

variable {Owner M : Type}

/-- The calls made with one object, oldest first, out of all calls, newest
first. Each call carries the name of its object. -/
def life (calls : List (Nat × M)) (name : Nat) : List M :=
  ((calls.filter fun call => call.1 = name).map Prod.snd).reverse

/-- Calls that allocate an object and then use it. -/
def Alive (stage : M → Stage) (calls : List M) : Prop :=
  ∃ first uses, calls = first :: uses ∧ stage first = .allocation ∧ ∀ m ∈ uses, stage m = .use

/-- Calls that allocate an object, use it and at last release it. -/
def Released (stage : M → Stage) (calls : List M) : Prop :=
  ∃ before last, calls = before ++ [last] ∧ Alive stage before ∧ stage last = .release

/-- An account of objects that are named in the order of their allocation. The
objects that are held are alive, each with one owner that holds it once, and
all others have been released. -/
structure Balanced (stage : M → Stage) (next : Nat) (calls : List (Nat × M)) (held : Owner → List Nat) : Prop where
  fresh : ∀ name ≥ next, life calls name = []
  alive : ∀ owner, ∀ name ∈ held owner, name < next ∧ Alive stage (life calls name)
  released : ∀ name < next, (∀ owner, name ∉ held owner) → Released stage (life calls name)
  once : ∀ owner, (held owner).Nodup
  owner : ∀ owner₁ owner₂ name, name ∈ held owner₁ → name ∈ held owner₂ → owner₁ = owner₂

theorem life_cons_self (calls : List (Nat × M)) (name : Nat) (m : M) :
    life ((name, m) :: calls) name = life calls name ++ [m] := by
  simp [life]

variable {name : Nat}

theorem life_cons_of_ne (calls : List (Nat × M)) (h : other ≠ name) (m : M) :
    life ((other, m) :: calls) name = life calls name := by
  simp [life, h]

theorem Alive.use {stage : M → Stage} (h : Alive stage calls) (hm : stage m = .use) : Alive stage (calls ++ [m]) := by
  obtain ⟨first, uses, rfl, hfirst, huses⟩ := h
  exact ⟨first, uses ++ [m], rfl, hfirst, forall_mem_append.mpr ⟨huses, forall_mem_singleton.mpr hm⟩⟩

/-- No call with an object that is alive releases it. -/
theorem Alive.not_release {stage : M → Stage} (h : Alive stage (life calls name)) (hmem : (name, m) ∈ calls) :
    stage m ≠ .release := by
  obtain ⟨first, uses, hlife, hfirst, huses⟩ := h
  have hcall : m ∈ life calls name := by
    rw [life, mem_reverse]
    exact mem_map.mpr ⟨(name, m), mem_filter.mpr ⟨hmem, by simp⟩, rfl⟩
  rw [hlife] at hcall
  rcases mem_cons.mp hcall with rfl | huse
  · rw [hfirst]
    nofun
  · rw [huses m huse]
    nofun

theorem Balanced.empty (stage : M → Stage) : Balanced stage 0 [] (fun _ : Owner => []) where
  fresh _ _ := rfl
  alive _ _ := nofun
  released _ := nofun
  once _ := nodup_nil
  owner _ _ _ := nofun

variable {stage : M → Stage} {next : Nat} {calls : List (Nat × M)} {held : Owner → List Nat}

variable {owner : Owner}

/-- An object that is held is used. -/
theorem Balanced.use (h : Balanced stage next calls held) (hname : name ∈ held owner) (hm : stage m = .use) :
    Balanced stage next ((name, m) :: calls) held := by
  constructor
  · intro other hother
    have hlt := (h.alive owner name hname).1
    rw [life_cons_of_ne calls (by omega) m]
    exact h.fresh other hother
  · intro other object hmem
    obtain ⟨hlt, halive⟩ := h.alive other object hmem
    refine ⟨hlt, ?_⟩
    by_cases heq : name = object
    · subst heq
      rw [life_cons_self]
      exact halive.use hm
    · rw [life_cons_of_ne calls heq m]
      exact halive
  · intro object hlt hfree
    have hne : name ≠ object := by
      rintro rfl
      exact hfree owner hname
    rw [life_cons_of_ne calls hne m]
    exact h.released object hlt hfree
  · exact h.once
  · exact h.owner

variable [DecidableEq Owner]

variable {objects : List Nat}

theorem mem_update : name ∈ update held owner objects other ↔
      other = owner ∧ name ∈ objects ∨ other ≠ owner ∧ name ∈ held other := by
  by_cases hother : other = owner
  · subst hother
    simp
  · simp [hother]

theorem nodup_update (hobjects : objects.Nodup) (h : ∀ other, other ≠ owner → (held other).Nodup) (other : Owner) :
    (update held owner objects other).Nodup := by
  by_cases hother : other = owner
  · subst hother
    rw [update_self]
    exact hobjects
  · rw [update_of_ne hother]
    exact h other hother

/-- A new object is handed to an owner. -/
theorem Balanced.allocate (h : Balanced stage next calls held) (owner : Owner) (hm : stage m = .allocation) :
    Balanced stage (next + 1) ((next, m) :: calls) (update held owner (next :: held owner)) := by
  have hnew : next ∉ held owner := fun hmem => Nat.lt_irrefl _ (h.alive owner next hmem).1
  have hheld : ∀ other name, name ∈ update held owner (next :: held owner) other →
      other = owner ∧ name = next ∨ name ∈ held other := by
    intro other name hmem
    rcases mem_update.mp hmem with ⟨rfl, hself⟩ | ⟨-, hheld⟩
    · exact (mem_cons.mp hself).imp_left fun heq => ⟨rfl, heq⟩
    · exact .inr hheld
  constructor
  · intro name hname
    rw [life_cons_of_ne calls (by omega) m]
    exact h.fresh name (by omega)
  · intro other name hmem
    rcases hheld other name hmem with ⟨-, rfl⟩ | hold
    · rw [life_cons_self, h.fresh name (Nat.le_refl name)]
      exact ⟨Nat.lt_succ_self name, m, [], rfl, hm, nofun⟩
    · obtain ⟨hlt, halive⟩ := h.alive other name hold
      rw [life_cons_of_ne calls (by omega) m]
      exact ⟨Nat.lt_succ_of_lt hlt, halive⟩
  · intro name hname hfree
    have hne : next ≠ name := by
      rintro rfl
      exact hfree owner (mem_update.mpr (.inl ⟨rfl, mem_cons_self⟩))
    rw [life_cons_of_ne calls hne m]
    apply h.released name (by omega)
    intro other hmem
    apply hfree other
    rw [mem_update]
    by_cases hother : other = owner
    · exact .inl ⟨hother, mem_cons_of_mem _ (hother ▸ hmem)⟩
    · exact .inr ⟨hother, hmem⟩
  · exact nodup_update (nodup_cons.mpr ⟨hnew, h.once owner⟩) fun other _ => h.once other
  · intro first second name hfirst hsecond
    rcases hheld first name hfirst with ⟨rfl, rfl⟩ | hold
    · rcases hheld second name hsecond with ⟨rfl, -⟩ | hold
      · rfl
      · exact absurd (h.alive second name hold).1 (Nat.lt_irrefl name)
    · rcases hheld second name hsecond with ⟨rfl, rfl⟩ | hold'
      · exact absurd (h.alive first name hold).1 (Nat.lt_irrefl name)
      · exact h.owner first second name hold hold'

/-- The order in which an owner holds its objects does not matter. -/
theorem Balanced.perm (h : Balanced stage next calls (update held owner objects)) (hperm : objects.Perm objects') :
    Balanced stage next calls (update held owner objects') := by
  have hmem : ∀ other name, name ∈ update held owner objects' other ↔
      name ∈ update held owner objects other := by
    intro other name
    rw [mem_update, mem_update, hperm.mem_iff]
  constructor
  · exact h.fresh
  · intro other name hname
    exact h.alive other name ((hmem other name).mp hname)
  · intro name hlt hfree
    exact h.released name hlt fun other hname => hfree other ((hmem other name).mpr hname)
  · refine nodup_update (hperm.nodup_iff.mp ?_) ?_
    · have honce := h.once owner
      rw [update_self] at honce
      exact honce
    · intro other hother
      have honce := h.once other
      rw [update_of_ne hother] at honce
      exact honce
  · intro first second name hfirst hsecond
    exact h.owner first second name ((hmem first name).mp hfirst) ((hmem second name).mp hsecond)

/-- An owner releases one of its objects. -/
theorem Balanced.release (h : Balanced stage next calls (update held owner (name :: rest))) (hm : stage m = .release) :
    Balanced stage next ((name, m) :: calls) (update held owner rest) := by
  have hself : update held owner (name :: rest) owner = name :: rest := update_self ..
  have hnodup : (name :: rest).Nodup := hself ▸ h.once owner
  have hname : name ∈ update held owner (name :: rest) owner := mem_update.mpr (.inl ⟨rfl, mem_cons_self⟩)
  have hkept : ∀ other object, object ∈ update held owner rest other →
      object ≠ name ∧ object ∈ update held owner (name :: rest) other := by
    intro other object hmem
    rcases mem_update.mp hmem with ⟨rfl, hrest⟩ | ⟨hother, hheld⟩
    · refine ⟨?_, mem_update.mpr (.inl ⟨rfl, mem_cons_of_mem _ hrest⟩)⟩
      rintro rfl
      exact (nodup_cons.mp hnodup).1 hrest
    have hold : object ∈ update held owner (name :: rest) other := mem_update.mpr (.inr ⟨hother, hheld⟩)
    refine ⟨?_, hold⟩
    rintro rfl
    exact hother (h.owner other owner object hold hname)
  constructor
  · intro object hobject
    have hlt := (h.alive owner name hname).1
    rw [life_cons_of_ne calls (by rintro rfl; exact absurd hlt (Nat.not_lt.mpr hobject)) m]
    exact h.fresh object hobject
  · intro other object hmem
    obtain ⟨hne, hold⟩ := hkept other object hmem
    rw [life_cons_of_ne calls hne.symm m]
    exact h.alive other object hold
  · intro object hlt hfree
    by_cases heq : name = object
    · subst heq
      rw [life_cons_self]
      exact ⟨_, m, rfl, (h.alive owner name hname).2, hm⟩
    rw [life_cons_of_ne calls heq m]
    apply h.released object hlt
    intro other hmem
    apply hfree other
    rw [mem_update] at hmem ⊢
    refine hmem.imp_left ?_
    rintro ⟨rfl, hobject⟩
    exact ⟨rfl, (mem_cons.mp hobject).resolve_left fun h => heq h.symm⟩
  · refine nodup_update (nodup_cons.mp hnodup).2 ?_
    intro other hother
    have honce := h.once other
    rw [update_of_ne hother] at honce
    exact honce
  · intro first second object hfirst hsecond
    exact h.owner first second object (hkept first object hfirst).2 (hkept second object hsecond).2

end Ledger

end Lib
