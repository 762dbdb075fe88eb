import Mathlib.Data.List.Nodup
import Mathlib.Order.Lattice

open List

namespace Lib.Bins

variable {E K : Type} [LinearOrder K]

/-- The elements `queued`, newest first, are kept in bins of equal keys: the bins
are in the order of their keys, and each is a stack, given by its top and by
what lies below it. -/
structure Binned (key : E → K) (queued : List E) (bins : List (E × List E)) : Prop where
  sorted : bins.Pairwise fun b c => key b.1 < key c.1
  stack : ∀ b ∈ bins, b.1 :: b.2 = queued.filter fun e => key e = key b.1
  cover : ∀ e ∈ queued, ∃ b ∈ bins, key e = key b.1

/-- Pushes an element in front of bins whose keys are not less than its own. -/
def pushFront (key : E → K) (e : E) : List (E × List E) → List (E × List E)
  | [] => [(e, [])]
  | b :: bins => if key e < key b.1 then (e, []) :: b :: bins else (e, b.1 :: b.2) :: bins

/-- A stack as the bins it makes up: one, or none if it is empty. -/
def ofStack : List E → List (E × List E)
  | [] => []
  | top :: rest => [(top, rest)]

theorem map_fst_ofStack (stack : List E) : (ofStack stack).map Prod.fst = stack.head?.toList := by
  cases stack <;> rfl

variable {key : E → K} {queued : List E} {bins before after : List (E × List E)} {b : E × List E} {e : E}

theorem fst_of_mem_pushFront (h : b ∈ pushFront key e bins) : b.1 = e ∨ b ∈ bins := by
  cases bins with
  | nil =>
    obtain rfl := mem_singleton.mp h
    exact .inl rfl
  | cons c bins =>
    by_cases hlt : key e < key c.1
    · rw [pushFront, if_pos hlt] at h
      rcases mem_cons.mp h with rfl | h
      · exact .inl rfl
      · exact .inr h
    rw [pushFront, if_neg hlt] at h
    rcases mem_cons.mp h with rfl | h
    · exact .inl rfl
    · exact .inr (mem_cons_of_mem c h)

/-- Sorted bins are split by a key into those with a lesser key and the others. -/
theorem exists_split (h : bins.Pairwise fun b c => key b.1 < key c.1) (k : K) :
    ∃ before after, bins = before ++ after ∧ (∀ b ∈ before, key b.1 < k) ∧ ∀ b ∈ after, k ≤ key b.1 := by
  induction bins with
  | nil => exact ⟨[], [], rfl, by simp, by simp⟩
  | cons b bins ih =>
    obtain ⟨hb, hbins⟩ := pairwise_cons.mp h
    by_cases hlt : key b.1 < k
    · obtain ⟨before, after, rfl, hbefore, hafter⟩ := ih hbins
      exact ⟨b :: before, after, rfl, forall_mem_cons.mpr ⟨hlt, hbefore⟩, hafter⟩
    · have hle := not_lt.mp hlt
      exact ⟨[], b :: bins, rfl, by simp, forall_mem_cons.mpr ⟨hle, fun c hc => le_trans hle (le_of_lt (hb c hc))⟩⟩

namespace Binned

theorem mem_iff (h : Binned key queued bins) (hb : b ∈ bins) : e ∈ b.1 :: b.2 ↔ e ∈ queued ∧ key e = key b.1 := by
  rw [h.stack b hb, mem_filter, decide_eq_true_iff]

theorem fst_mem (h : Binned key queued bins) (hb : b ∈ bins) : b.1 ∈ queued :=
  ((h.mem_iff hb).mp mem_cons_self).1

theorem fst_nodup (h : Binned key queued bins) : (bins.map Prod.fst).Nodup := by
  rw [Nodup, pairwise_map]
  refine h.sorted.imp ?_
  intro b c hlt heq
  rw [heq] at hlt
  exact lt_irrefl _ hlt

/-- The first bin has the least key, and its top is the newest element with it. -/
theorem first (h : Binned key queued (b :: bins)) :
    (∀ e ∈ queued, key b.1 ≤ key e) ∧ (queued.filter fun e => key e = key b.1).head? = some b.1 := by
  constructor
  · intro e he
    obtain ⟨c, hc, heq⟩ := h.cover e he
    rw [heq]
    rcases mem_cons.mp hc with rfl | hc
    · exact le_refl _
    · exact le_of_lt ((pairwise_cons.mp h.sorted).1 c hc)
  · rw [← h.stack b mem_cons_self]
    rfl

/-- What does not change the keys of the elements changes nothing. -/
theorem congr {key' : E → K} (h : Binned key queued bins) (hkey : ∀ e ∈ queued, key' e = key e) :
    Binned key' queued bins := by
  have hfst : ∀ b ∈ bins, key' b.1 = key b.1 := fun b hb => hkey b.1 (h.fst_mem hb)
  refine ⟨?_, ?_, ?_⟩
  · refine Pairwise.imp_of_mem ?_ h.sorted
    intro b c hb hc hlt
    rwa [hfst b hb, hfst c hc]
  · intro b hb
    rw [h.stack b hb, hfst b hb]
    apply filter_congr
    intro e he
    rw [hkey e he]
  · intro e he
    obtain ⟨b, hb, heq⟩ := h.cover e he
    exact ⟨b, hb, by rw [hkey e he, hfst b hb, heq]⟩

/-- The bin of a new element replaces the bins with its key, of which there is at
most one. -/
theorem push_bin (h : Binned key queued (before ++ after)) (hbefore : ∀ b ∈ before, key b.1 < key e)
    (hbelow : below = queued.filter fun x => key x = key e) (hsub : bins.Sublist after)
    (hbins : ∀ b ∈ bins, key e < key b.1) (hafter : ∀ b ∈ after, key b.1 = key e ∨ b ∈ bins) :
    Binned key (e :: queued) (before ++ (e, below) :: bins) := by
  obtain ⟨hsortedBefore, hsortedAfter, hcross⟩ := pairwise_append.mp h.sorted
  have hother : ∀ b ∈ before ++ after, key b.1 ≠ key e →
      b.1 :: b.2 = (e :: queued).filter fun x => key x = key b.1 := by
    intro b hb hne
    rw [filter_cons_of_neg (by simpa using hne.symm)]
    exact h.stack b hb
  refine ⟨?_, ?_, ?_⟩
  · refine pairwise_append.mpr ⟨hsortedBefore, pairwise_cons.mpr ⟨hbins, hsortedAfter.sublist hsub⟩, ?_⟩
    exact fun b hb => forall_mem_cons.mpr ⟨hbefore b hb, fun c hc => hcross b hb c (hsub.subset hc)⟩
  · intro b hb
    rcases mem_append.mp hb with hb | hb
    · exact hother b (mem_append_left _ hb) (ne_of_lt (hbefore b hb))
    · rcases mem_cons.mp hb with rfl | hb
      · rw [filter_cons_of_pos (by simp), hbelow]
      · exact hother b (mem_append_right _ (hsub.subset hb)) (ne_of_gt (hbins b hb))
  · intro x hx
    rcases mem_cons.mp hx with rfl | hx
    · exact ⟨(x, below), by simp, rfl⟩
    obtain ⟨b, hb, heq⟩ := h.cover x hx
    rcases mem_append.mp hb with hb | hb
    · exact ⟨b, mem_append_left _ hb, heq⟩
    · rcases hafter b hb with hsame | hb
      · exact ⟨(e, below), by simp, heq.trans hsame⟩
      · exact ⟨b, mem_append_right _ (mem_cons_of_mem _ hb), heq⟩

/-- No element has a key that no bin has. -/
theorem filter_eq_nil (h : Binned key queued bins) (hne : ∀ b ∈ bins, key b.1 ≠ k) :
    [] = queued.filter fun x => key x = k := by
  rw [eq_comm, filter_eq_nil_iff]
  intro x hx heq
  obtain ⟨b, hb, hkey⟩ := h.cover x hx
  exact hne b hb (hkey.symm.trans (of_decide_eq_true heq))

/-- A new element goes in front of the bins whose keys are not less. -/
theorem push (h : Binned key queued (before ++ after)) (hbefore : ∀ b ∈ before, key b.1 < key e)
    (hafter : ∀ b ∈ after, key e ≤ key b.1) : Binned key (e :: queued) (before ++ pushFront key e after) := by
  cases after with
  | nil =>
    rw [append_nil] at h
    refine push_bin (h := by simpa using h) hbefore (h.filter_eq_nil fun b hb => ne_of_lt (hbefore b hb))
      (Sublist.refl []) ?_ ?_
    · intro b hb
      cases hb
    · intro b hb
      cases hb
  | cons b rest =>
    have hsorted := (pairwise_append.mp h.sorted).2.1
    rw [pairwise_cons] at hsorted
    by_cases hlt : key e < key b.1
    · have hbins : ∀ c ∈ b :: rest, key e < key c.1 :=
        forall_mem_cons.mpr ⟨hlt, fun c hc => lt_trans hlt (hsorted.1 c hc)⟩
      have hnone : [] = queued.filter fun x => key x = key e := by
        apply h.filter_eq_nil
        exact forall_mem_append.mpr ⟨fun c hc => ne_of_lt (hbefore c hc), fun c hc => ne_of_gt (hbins c hc)⟩
      rw [pushFront, if_pos hlt]
      exact h.push_bin hbefore hnone (Sublist.refl _) hbins fun c hc => .inr hc
    · have heq : key b.1 = key e := le_antisymm (not_lt.mp hlt) (hafter b mem_cons_self)
      rw [pushFront, if_neg hlt]
      refine h.push_bin hbefore ?_ (sublist_cons_self b rest) ?_ ?_
      · rw [← heq]
        exact h.stack b (mem_append_right _ mem_cons_self)
      · intro c hc
        rw [← heq]
        exact hsorted.1 c hc
      · exact forall_mem_cons.mpr ⟨.inl heq, fun _ => .inr⟩

/-- An element leaves its bin, and takes the bin with it if it was alone. -/
theorem erase [DecidableEq E] (h : Binned key queued (before ++ b :: after)) (hnodup : queued.Nodup)
    (heq : key e = key b.1) : Binned key (queued.erase e) (before ++ ofStack ((b.1 :: b.2).erase e) ++ after) := by
  have hfilter : ∀ k, (queued.erase e).filter (fun x => key x = k) = (queued.filter fun x => key x = k).erase e := by
    intro k
    rw [hnodup.erase_eq_filter, (hnodup.filter _).erase_eq_filter, filter_comm]
  have hb : b ∈ before ++ b :: after := by simp
  have hstack : (b.1 :: b.2).erase e = (queued.erase e).filter fun x => key x = key b.1 := by
    rw [hfilter, h.stack b hb]
  -- The bins with other keys are as they were.
  have hother : ∀ c ∈ before ++ after, c.1 :: c.2 = (queued.erase e).filter fun x => key x = key c.1 := by
    intro c hc
    have hne : key e ≠ key c.1 := by
      rw [heq]
      rcases mem_append.mp hc with hc | hc
      · exact ne_of_gt ((pairwise_append.mp h.sorted).2.2 c hc b mem_cons_self)
      · exact ne_of_lt ((pairwise_cons.mp (pairwise_append.mp h.sorted).2.1).1 c hc)
    rw [hfilter, erase_of_not_mem]
    · exact h.stack c (((sublist_cons_self b after).append_left before).subset hc)
    · intro hmem
      exact hne (of_decide_eq_true (mem_filter.mp hmem).2)
  have hcover : ∀ x ∈ queued.erase e, key x = key b.1 ∨ ∃ c ∈ before ++ after, key x = key c.1 := by
    intro x hx
    obtain ⟨c, hc, hkey⟩ := h.cover x (mem_of_mem_erase hx)
    rcases mem_append.mp hc with hc | hc
    · exact .inr ⟨c, mem_append_left _ hc, hkey⟩
    · rcases mem_cons.mp hc with rfl | hc
      · exact .inl hkey
      · exact .inr ⟨c, mem_append_right _ hc, hkey⟩
  cases hlist : (b.1 :: b.2).erase e with
  | nil =>
    rw [ofStack, append_nil]
    refine ⟨h.sorted.sublist ((sublist_cons_self b after).append_left before), hother, ?_⟩
    intro x hx
    rcases hcover x hx with hsame | hin
    · have hmem : x ∈ (queued.erase e).filter fun x => key x = key b.1 :=
        mem_filter.mpr ⟨hx, decide_eq_true hsame⟩
      rw [← hstack, hlist] at hmem
      cases hmem
    · exact hin
  | cons top rest =>
    have htop : key top = key b.1 := by
      have hmem : top ∈ (queued.erase e).filter fun x => key x = key b.1 := by simp [← hstack, hlist]
      exact of_decide_eq_true (mem_filter.mp hmem).2
    rw [ofStack, append_assoc, singleton_append]
    obtain ⟨hsortedBefore, hsortedAfter, hcross⟩ := pairwise_append.mp h.sorted
    rw [pairwise_cons] at hsortedAfter
    refine ⟨pairwise_append.mpr ⟨hsortedBefore, pairwise_cons.mpr ⟨?_, hsortedAfter.2⟩, ?_⟩, ?_, ?_⟩
    · intro c hc
      rw [htop]
      exact hsortedAfter.1 c hc
    · intro c hc d hd
      rcases mem_cons.mp hd with rfl | hd
      · rw [htop]
        exact hcross c hc b mem_cons_self
      · exact hcross c hc d (mem_cons_of_mem b hd)
    · intro c hc
      rcases mem_append.mp hc with hc | hc
      · exact hother c (mem_append_left _ hc)
      · rcases mem_cons.mp hc with rfl | hc
        · rw [htop, ← hstack, hlist]
        · exact hother c (mem_append_right _ hc)
    · intro x hx
      rcases hcover x hx with hsame | ⟨c, hc, hkey⟩
      · exact ⟨(top, rest), by simp, hsame.trans htop.symm⟩
      exact ⟨c, ((sublist_cons_self _ after).append_left before).subset hc, hkey⟩

end Binned

end Lib.Bins
