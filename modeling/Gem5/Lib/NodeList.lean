import Gem5.Lib.FirstPart
import Gem5.Lib.Result

open List

namespace Lib

/-- A doubly linked list whose iterators stay valid while their nodes are in the
list. A node is named in the order of insertion, and an iterator is the name of
its node, or `none` at the end. -/
structure NodeList (A : Type) where
  nodes : List (Nat × A)
  next : Nat
  nodup : (nodes.map Prod.fst).Nodup
  fresh : ∀ node ∈ nodes, node.1 < next

namespace NodeList

variable {A : Type}

def empty : NodeList A := ⟨[], 0, .nil, fun _ h => by cases h⟩

/-- The iterator at the first of the nodes. -/
def iterator (nodes : List (Nat × A)) : Option Nat := nodes.head?.map Prod.fst

variable (l : NodeList A)

def begin_ : Option Nat := iterator l.nodes

/-- The nodes before an iterator. -/
def before (it : Option Nat) : List (Nat × A) := l.nodes.takeWhile fun node => some node.1 ≠ it

/-- The nodes from an iterator on. -/
def since (it : Option Nat) : List (Nat × A) := l.nodes.dropWhile fun node => some node.1 ≠ it

/-- Dereferences an iterator. -/
def get (it : Nat) : Result A :=
  match l.since (some it) with
  | [] => .error .dangling
  | node :: _ => .ok node.2

/-- Increments an iterator. -/
def succ (it : Nat) : Result (Option Nat) :=
  match l.since (some it) with
  | [] => .error .dangling
  | _ :: rest => .ok (iterator rest)

/-- Increments an iterator until the end or a node that satisfies `p`. -/
def find (it : Option Nat) (p : A → Bool) : Option Nat :=
  iterator ((l.since it).dropWhile fun node => !p node.2)

theorem before_append_since (it : Option Nat) : l.before it ++ l.since it = l.nodes :=
  takeWhile_append_dropWhile

/-- The list with a new node between the two parts. -/
def insertBetween (pre post : List (Nat × A)) (h : pre ++ post = l.nodes) (a : A) : NodeList A where
  nodes := pre ++ (l.next, a) :: post
  next := l.next + 1
  nodup := by
    rw [map_append, map_cons, nodup_middle, ← map_append, h, nodup_cons]
    refine ⟨fun hmem => ?_, l.nodup⟩
    obtain ⟨node, hnode, heq⟩ := mem_map.mp hmem
    exact absurd heq (Nat.ne_of_lt (l.fresh node hnode))
  fresh := by
    intro node hmem
    rw [mem_append, mem_cons, or_left_comm, ← mem_append, h] at hmem
    cases hmem with
    | inl heq => exact heq ▸ Nat.lt_succ_self _
    | inr hmem => exact Nat.lt_succ_of_lt (l.fresh node hmem)

variable {pre post : List (Nat × A)}

theorem nodes_insertBetween (h : pre ++ post = l.nodes) (a : A) :
    (l.insertBetween pre post h a).nodes = pre ++ (l.next, a) :: post := rfl

/-- Inserts a node before an iterator. -/
def insert (it : Option Nat) (a : A) : Result (Nat × NodeList A) :=
  if it.isSome && (l.since it).isEmpty then .error .dangling
  else .ok (l.next, l.insertBetween (l.before it) (l.since it) (l.before_append_since it) a)

/-- The list without some of its nodes. -/
def restrict (nodes : List (Nat × A)) (h : nodes.Sublist l.nodes) : NodeList A where
  nodes := nodes
  next := l.next
  nodup := l.nodup.sublist (h.map Prod.fst)
  fresh node hmem := l.fresh node (h.subset hmem)

theorem nodes_restrict {nodes : List (Nat × A)} (h : nodes.Sublist l.nodes) : (l.restrict nodes h).nodes = nodes := rfl

theorem before_append_tail_sublist (it : Option Nat) : (l.before it ++ (l.since it).tail).Sublist l.nodes := by
  conv => rhs; rw [← l.before_append_since it]
  exact (List.Sublist.refl _).append (tail_sublist _)

/-- Erases the node of an iterator. -/
def erase (it : Nat) : Result (NodeList A) :=
  if (l.since (some it)).isEmpty then .error .dangling
  else .ok (l.restrict (l.before (some it) ++ (l.since (some it)).tail) (l.before_append_tail_sublist _))

variable {l}

/-- The iterator stands between the two parts of the list. -/
structure At (l : NodeList A) (it : Option Nat) (pre post : List (Nat × A)) : Prop where
  nodes : l.nodes = pre ++ post
  it : it = iterator post

theorem At.begin_ (l : NodeList A) : l.At l.begin_ [] l.nodes := ⟨rfl, rfl⟩

variable {it : Option Nat}

theorem At.ne (h : l.At it pre post) (hmem : node ∈ pre) : some node.1 ≠ it := by
  have hnodup := l.nodup
  rw [h.nodes, map_append, nodup_append] at hnodup
  rw [h.it, iterator]
  cases post with
  | nil => exact Option.some_ne_none _
  | cons first rest =>
    intro heq
    exact hnodup.2.2 node.1 (mem_map_of_mem hmem) first.1 mem_cons_self (Option.some.inj heq)

theorem At.before_eq (h : l.At it pre post) : l.before it = pre ∧ l.since it = post := by
  have hpre : ∀ node ∈ pre, decide (some node.1 ≠ it) = true := fun node hmem => decide_eq_true (h.ne hmem)
  have hpost : post.takeWhile (fun node => decide (some node.1 ≠ it)) = [] ∧
      post.dropWhile (fun node => decide (some node.1 ≠ it)) = post := by
    rw [h.it]
    cases post with
    | nil => exact ⟨rfl, rfl⟩
    | cons first rest => simp [iterator]
  rw [before, since, h.nodes, takeWhile_append_of_pos hpre, dropWhile_append_of_pos hpre, hpost.1, hpost.2,
    append_nil]
  exact ⟨rfl, rfl⟩

theorem At.since_eq (h : l.At it pre post) : l.since it = post := h.before_eq.2

theorem At.get {it : Nat} {a : A} (h : l.At (some it) pre ((it, a) :: post)) : l.get it = .ok a := by
  rw [NodeList.get, h.since_eq]

theorem At.succ {it : Nat} {a : A} (h : l.At (some it) pre ((it, a) :: post)) : l.succ it = .ok (iterator post) := by
  rw [NodeList.succ, h.since_eq]

theorem At.next (h : l.At it pre (node :: post)) : l.At (iterator post) (pre ++ [node]) post :=
  ⟨by rw [h.nodes, append_assoc]; rfl, rfl⟩

theorem At.find (h : l.At it pre post) (p : A → Bool) :
    l.At (l.find it p) (pre ++ post.takeWhile fun node => !p node.2) (post.dropWhile fun node => !p node.2) :=
  ⟨by rw [h.nodes, append_assoc, takeWhile_append_dropWhile], by rw [NodeList.find, h.since_eq]⟩

theorem At.insert (h : l.At it pre post) (a : A) :
    ∃ l', l.insert it a = .ok (l.next, l') ∧ l'.nodes = pre ++ (l.next, a) :: post := by
  refine ⟨_, if_neg ?_, ?_⟩
  · rw [h.since_eq, h.it]
    cases post <;> simp [iterator]
  · rw [nodes_insertBetween, h.before_eq.1, h.since_eq]

theorem At.erase {it : Nat} {a : A} (h : l.At (some it) pre ((it, a) :: post)) :
    ∃ l', l.erase it = .ok l' ∧ l'.nodes = pre ++ post := by
  refine ⟨_, if_neg ?_, ?_⟩
  · rw [h.since_eq]
    simp
  · rw [nodes_restrict, h.before_eq.1, h.since_eq, tail_cons]

end NodeList

end Lib
