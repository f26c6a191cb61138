import Bytecode.Flow.Loop
import Bytecode.Proofs.Graph.Dominance

/-!
# Natural loops of a graph

The loop of a header and its latches has the header and every node that reaches a latch without
passing through the header. It is found by searching backwards from one latch after the other; what
the loop has so far is never entered again, and need not be, since with a node it has every node
that leads there past the header. If the header dominates the latches, then it dominates every node
of the loop that the entry reaches, and two loops that share such a node lie one inside the other.
-/

namespace Bytecode.Digraph

variable {α : Type} {g : Digraph α} {entry header header' a b d m n u v w x : Nat}
  {latches latches' : List Nat} {marks : Array Bool} {p q : List Nat}

/-! ### Paths that avoid a node -/

/-- There is a path from `u` to `v` that does not meet `d`. -/
def ReachesAvoiding (g : Digraph α) (d u v : Nat) : Prop := ∃ p, g.Path u v p ∧ d ∉ p

private theorem ReachesAvoiding.trans (h : g.ReachesAvoiding d u v)
    (h' : g.ReachesAvoiding d v w) : g.ReachesAvoiding d u w := by
  obtain ⟨p, hp, hdp⟩ := h
  obtain ⟨q, hq, hdq⟩ := h'
  refine ⟨p ++ q.tail, hp.append hq, fun hd ↦ ?_⟩
  rcases List.mem_append.mp hd with hd | hd
  · exact hdp hd
  · exact hdq (List.mem_of_mem_tail hd)

private theorem ReachesAvoiding.cons (hu : d ≠ u) (he : v ∈ g.successors u)
    (h : g.ReachesAvoiding d v w) : g.ReachesAvoiding d u w := by
  obtain ⟨p, hp, hd⟩ := h
  exact ⟨u :: p, .cons he hp, by simp [hu, hd]⟩

private theorem Path.avoiding_split (h : g.Path u v p) (hd : d ∉ p) (hx : x ∈ p) :
    g.ReachesAvoiding d u x ∧ g.ReachesAvoiding d x v := by
  obtain ⟨q, r, rfl, hq, hr⟩ := h.split hx
  refine ⟨⟨q ++ [x], hq, fun hmem ↦ hd ?_⟩, x :: r, hr, fun hmem ↦ hd ?_⟩
  · rw [← List.singleton_append, ← List.append_assoc]
    exact List.mem_append_left r hmem
  · exact List.mem_append_right q hmem

/-- A node dominates another one that is reached if no path to that one avoids it. -/
theorem dominates_iff_not_avoiding :
    g.Dominates entry a b ↔ g.Reaches entry b ∧ ¬g.ReachesAvoiding a entry b := by
  constructor
  · intro h
    refine ⟨h.reaches_right, ?_⟩
    rintro ⟨p, hp, ha⟩
    exact ha (h.mem_path p hp)
  · rintro ⟨⟨p, hp⟩, hnone⟩
    have hmem (q : List Nat) (hq : g.Path entry b q) : a ∈ q := by
      by_contra ha
      exact hnone ⟨q, hq, ha⟩
    obtain ⟨q, _, _, hq, _⟩ := hp.split (hmem p hp)
    exact ⟨⟨_, hq⟩, ⟨p, hp⟩, hmem⟩

private theorem Dominates.refl (h : g.Reaches entry n) : g.Dominates entry n n :=
  ⟨h, h, fun _ hp ↦ hp.mem_right⟩

/-! ### Edges turned round -/

private theorem WF.reverse (hg : g.WF) : g.reverse.WF where
  succ_nodup := hg.pred_nodup
  pred_nodup := hg.succ_nodup
  succ_lt u v hv := lt_of_mem_successors (g := g) ((hg.mem_preds v u).mp hv)
  mem_preds u v := (hg.mem_preds v u).symm

private theorem Path.reverse (hg : g.WF) (h : g.Path u v p) : g.reverse.Path v u p.reverse := by
  induction h with
  | single hn => exact .single hn
  | cons he _ ih =>
    rw [List.reverse_cons]
    exact ih.snoc hg.reverse ((hg.mem_preds _ _).mpr he)

/-! ### What the search finds -/

/-- The node is the header, or reaches one of the latches without passing through it. -/
def InLoop (g : Digraph α) (header : Nat) (latches : List Nat) (n : Nat) : Prop :=
  n = header ∨ ∃ l ∈ latches, g.ReachesAvoiding header n l

private theorem InLoop.reachesAvoiding (h : g.InLoop header latches n) (hne : n ≠ header) :
    ∃ l ∈ latches, g.ReachesAvoiding header n l :=
  h.resolve_left hne

/-- The loop has every node that leads to one of its nodes other than the header. -/
theorem InLoop.of_edge (h : g.InLoop header latches n) (hne : n ≠ header)
    (he : n ∈ g.successors m) : g.InLoop header latches m := by
  by_cases hm : m = header
  · exact .inl hm
  · obtain ⟨l, hl, hreach⟩ := h.reachesAvoiding hne
    exact .inr ⟨l, hl, hreach.cons (Ne.symm hm) he⟩

private theorem InLoop.lt (hh : header < g.size) (h : g.InLoop header latches n) :
    n < g.size := by
  rcases h with rfl | ⟨l, _, p, hp, _⟩
  · exact hh
  · exact hp.lt_left

/-- The marks are those of the loop of the given latches. -/
structure Grown (g : Digraph α) (header : Nat) (latches : List Nat) (marks : Array Bool) :
    Prop where
  size : marks.size = g.size
  marked : ∀ n, n < g.size → (isMarked marks n = true ↔ g.InLoop header latches n)

private theorem grown_start (g : Digraph α) (header : Nat) :
    g.Grown header [] ((Array.replicate g.size false).setIfInBounds header true) where
  size := by simp
  marked n hn := by
    rw [isMarked_set, isMarked_replicate, InLoop]
    simp only [List.not_mem_nil, false_and, exists_false, or_false]
    omega

/-- A search from one more latch takes in what reaches it. A path to the latch that enters the loop
on its way need not be followed: from there on it reaches another latch. -/
theorem Grown.expand (hg : g.WF) (hh : header < g.size) (h : g.Grown header latches marks)
    (latch : Nat) : g.Grown header (latches ++ [latch]) (g.expandLoop marks latch) where
  size := by rw [expandLoop, size_foldl_mark, h.size]
  marked n hn := by
    rw [expandLoop, isMarked_foldl_mark, mem_traverse_iff (g := g.reverse) h.size (by simp),
      h.marked n hn]
    simp only [List.mem_singleton, exists_eq_left]
    constructor
    · rintro ((rfl | ⟨l, hl, hreach⟩) | ⟨p, hp, hfree⟩)
      · exact .inl rfl
      · exact .inr ⟨l, List.mem_append_left _ hl, hreach⟩
      · refine .inr ⟨latch, List.mem_append_right _ List.mem_cons_self, p.reverse,
          hp.reverse hg.reverse, fun hmem ↦ ?_⟩
        have hmark := (h.marked header hh).mpr (.inl rfl)
        rw [hfree header (List.mem_reverse.mp hmem)] at hmark
        contradiction
    · rintro (rfl | ⟨l, hl, p, hp, havoid⟩)
      · exact .inl (.inl rfl)
      · rcases List.mem_append.mp hl with hl | hl
        · exact .inl (.inr ⟨l, hl, p, hp, havoid⟩)
        · obtain rfl := List.mem_singleton.mp hl
          by_cases hfree : ∀ x ∈ p, isMarked marks x = false
          · refine .inr ⟨p.reverse, hp.reverse hg, fun x hx ↦ hfree x (List.mem_reverse.mp hx)⟩
          · simp only [not_forall, Bool.not_eq_false] at hfree
            obtain ⟨x, hx, hmark⟩ := hfree
            have hxh : x ≠ header := fun heq ↦ havoid (heq ▸ hx)
            obtain ⟨k, hk, hreach⟩ :=
              ((h.marked x (hp.lt_of_mem hx)).mp hmark).reachesAvoiding hxh
            exact .inl (.inr ⟨k, hk, (hp.avoiding_split havoid hx).1.trans hreach⟩)

private theorem Grown.foldl_expand (hg : g.WF) (hh : header < g.size)
    (h : g.Grown header latches marks) (more : List Nat) :
    g.Grown header (latches ++ more) (more.foldl g.expandLoop marks) := by
  induction more generalizing latches marks with
  | nil => simpa using h
  | cons latch more ih => simpa using ih (h.expand hg hh latch)

/-- The search finds the nodes of the loop. -/
theorem mem_loopNodes_iff (hg : g.WF) (hh : header < g.size) :
    n ∈ g.loopNodes header latches ↔ g.InLoop header latches n := by
  have hgrown := (g.grown_start header).foldl_expand hg hh latches
  simp only [loopNodes, List.mem_filter, List.mem_range]
  constructor
  · rintro ⟨hn, hmark⟩
    exact (hgrown.marked n hn).mp hmark
  · intro h
    have hn := h.lt hh
    exact ⟨hn, (hgrown.marked n hn).mpr h⟩

/-! ### Loops and dominance -/

/-- Edges lead back from the latches to the header, which dominates them. -/
structure Heads (g : Digraph α) (entry header : Nat) (latches : List Nat) : Prop where
  nonempty : latches ≠ []
  edge : ∀ l ∈ latches, header ∈ g.successors l
  dominates : ∀ l ∈ latches, g.Dominates entry header l

/-- The entry reaches the header, as it dominates its latches. -/
theorem Heads.reaches (h : g.Heads entry header latches) : g.Reaches entry header := by
  obtain ⟨l, hl⟩ := List.exists_mem_of_ne_nil latches h.nonempty
  exact (h.dominates l hl).reaches_left

/-- What reaches a latch past the header is not reached past the header. -/
theorem Heads.not_avoiding (h : g.Heads entry header latches)
    (hn : ∃ l ∈ latches, g.ReachesAvoiding header n l) : ¬g.ReachesAvoiding header entry n := by
  obtain ⟨l, hl, hreach⟩ := hn
  intro havoid
  exact (dominates_iff_not_avoiding.mp (h.dominates l hl)).2 (havoid.trans hreach)

/-- The header dominates every node of its loop that the entry reaches. -/
theorem InLoop.dominates (hh : g.Heads entry header latches) (h : g.InLoop header latches n)
    (hn : g.Reaches entry n) : g.Dominates entry header n := by
  rcases h with rfl | h
  · exact .refl hn
  · exact dominates_iff_not_avoiding.mpr ⟨hn, hh.not_avoiding h⟩

/-- Of two loops that share a node that the entry reaches, one has the header of the other. -/
theorem InLoop.header_or_header (hh : g.Heads entry header latches)
    (hh' : g.Heads entry header' latches') (h : g.InLoop header latches n)
    (h' : g.InLoop header' latches' n) (hn : g.Reaches entry n) :
    g.InLoop header latches header' ∨ g.InLoop header' latches' header := by
  by_cases hx : n = header
  · exact .inr (hx ▸ h')
  by_cases hx' : n = header'
  · exact .inl (hx' ▸ h)
  obtain ⟨l, hl, hreach⟩ := h.reachesAvoiding hx
  obtain ⟨l', hl', hreach'⟩ := h'.reachesAvoiding hx'
  by_cases heq : header = header'
  · exact .inl (.inl heq.symm)
  -- From the header that is met last, the node is reached past the other one.
  obtain ⟨p, hp⟩ := hn
  have hmem := (h.dominates hh ⟨p, hp⟩).mem_path p hp
  obtain ⟨y, q, hy, hq, hnone⟩ :=
    hp.exists_last (P := fun x ↦ x = header ∨ x = header') ⟨header, hmem, .inl rfl⟩
  rcases hy with rfl | rfl
  · refine .inr (.inr ⟨l', hl', .trans ⟨_, hq, ?_⟩ hreach'⟩)
    rw [List.mem_cons, not_or]
    exact ⟨Ne.symm heq, fun hmem ↦ hnone header' hmem (.inr rfl)⟩
  · refine .inl (.inr ⟨l, hl, .trans ⟨_, hq, ?_⟩ hreach⟩)
    rw [List.mem_cons, not_or]
    exact ⟨heq, fun hmem ↦ hnone header hmem (.inl rfl)⟩

section

variable (hg : g.WF)

include hg

private theorem Heads.avoiding_of_inLoop (hh : g.Heads entry header latches)
    (hh' : g.Heads entry header' latches') (hne : header ≠ header')
    (hin : g.InLoop header latches header') : g.ReachesAvoiding header' entry header := by
  by_contra hnone
  have hdom := hin.dominates hh hh'.reaches
  have hdom' := dominates_iff_not_avoiding.mpr ⟨hh.reaches, hnone⟩
  exact hne (hdom.antisymm hg hdom')

/-- A loop that has the header of another one has all of its nodes. -/
theorem InLoop.nested (hh : g.Heads entry header latches) (hh' : g.Heads entry header' latches')
    (hne : header ≠ header') (hin : g.InLoop header latches header')
    (hn : g.InLoop header' latches' n) : g.InLoop header latches n := by
  rcases hn with rfl | ⟨l, hl, p, hp, havoid⟩
  · exact hin
  · by_cases hmem : header ∈ p
    · -- Otherwise the entry would reach the latch past its header, by way of the outer one.
      have hreach := (hp.avoiding_split havoid hmem).2
      have hentry := hh.avoiding_of_inLoop hg hh' hne hin
      exact absurd hentry (hh'.not_avoiding ⟨l, hl, hreach⟩)
    · obtain ⟨k, hk, hreach⟩ := hin.reachesAvoiding (Ne.symm hne)
      have hlast : header ≠ l := fun heq ↦ hmem (heq ▸ hp.mem_right)
      exact .inr ⟨k, hk, .trans ⟨p, hp, hmem⟩ (hreach.cons hlast (hh'.edge l hl))⟩

/-- Two loops do not have each other's headers. -/
theorem InLoop.not_inLoop (hh : g.Heads entry header latches)
    (hh' : g.Heads entry header' latches') (hne : header ≠ header')
    (hin : g.InLoop header latches header') : ¬g.InLoop header' latches' header := by
  intro hin'
  exact hh'.not_avoiding (hin'.reachesAvoiding hne) (hh.avoiding_of_inLoop hg hh' hne hin)

end

end Bytecode.Digraph
