import Bytecode.Proofs.Graph.Search

/-!
# Flooding

A flood marks exactly the nodes that its roots reach. Every marked node is in the queue or has
marked successors only, so once the queue is empty the marks are closed under edges. The fuel is
enough: a node is marked when it enters the queue, so no node enters twice.
-/

namespace Bytecode.Digraph

variable {α : Type} {g : Digraph α}

/-! ### Entering the queue -/

/-- How many nodes have no mark. -/
def unmarked (marks : Array Bool) : Nat :=
  ((Finset.range marks.size).filter (isMarked marks · = false)).card

private theorem unmarked_le (marks : Array Bool) : unmarked marks ≤ marks.size := by
  have hle := Finset.card_filter_le (Finset.range marks.size) (isMarked marks · = false)
  rwa [Finset.card_range] at hle

private theorem unmarked_set {marks : Array Bool} {n : Nat} (hn : isMarked marks n = false) :
    unmarked (marks.setIfInBounds n true) + 1 = unmarked marks := by
  have hlt : n < marks.size := lt_of_unmarked (by simp [hn])
  have herase : (Finset.range (marks.setIfInBounds n true).size).filter
      (isMarked (marks.setIfInBounds n true) · = false) =
        ((Finset.range marks.size).filter (isMarked marks · = false)).erase n := by
    ext m
    simp only [Finset.mem_filter, Finset.mem_range, Finset.mem_erase, ← Bool.not_eq_true,
      isMarked_set, not_or, Array.size_setIfInBounds]
    tauto
  rw [unmarked, herase]
  exact Finset.card_erase_add_one (by simp [hlt, hn])

section

variable (ns : List Nat) (state : List Nat × Array Bool)

private theorem isMarked_foldl_enqueue (n : Nat) :
    isMarked (ns.foldl enqueue state).2 n = true ↔ isMarked state.2 n = true ∨ n ∈ ns := by
  induction ns generalizing state with
  | nil => simp
  | cons m ns ih =>
    rw [List.foldl_cons, ih, enqueue, List.mem_cons]
    split
    · next hm =>
      constructor
      · tauto
      · rintro (hn | rfl | hn)
        · exact .inl hn
        · exact .inl hm
        · exact .inr hn
    · rw [isMarked_set]
      tauto

private theorem mem_foldl_enqueue (n : Nat) :
    n ∈ (ns.foldl enqueue state).1 ↔ n ∈ state.1 ∨ n ∈ ns ∧ isMarked state.2 n = false := by
  induction ns generalizing state with
  | nil => simp
  | cons m ns ih =>
    rw [List.foldl_cons, ih, enqueue, List.mem_cons]
    split
    · next hm =>
      have hne (hn : isMarked state.2 n = false) : n ≠ m := by
        rintro rfl
        simp [hm] at hn
      tauto
    · next hm =>
      simp only [← Bool.not_eq_true, isMarked_set, List.mem_append, List.mem_singleton] at hm ⊢
      by_cases hnm : n = m
      · subst hnm
        tauto
      · tauto

private theorem size_foldl_enqueue : (ns.foldl enqueue state).2.size = state.2.size := by
  induction ns generalizing state with
  | nil => rfl
  | cons m ns ih =>
    rw [List.foldl_cons, ih, enqueue]
    split
    · rfl
    · exact Array.size_setIfInBounds

/-- A node that enters the queue loses the place it had among the nodes without a mark. -/
theorem unmarked_foldl_enqueue :
    unmarked (ns.foldl enqueue state).2 + (ns.foldl enqueue state).1.length =
      unmarked state.2 + state.1.length := by
  induction ns generalizing state with
  | nil => rfl
  | cons m ns ih =>
    rw [List.foldl_cons, ih, enqueue]
    split
    · rfl
    · next hm =>
      have hset := unmarked_set (Bool.eq_false_iff.mpr hm)
      simp only [List.length_append, List.length_singleton]
      omega

end

/-! ### Working off the queue -/

/-- The state of a flood from `roots`: only what they reach is marked, and what leaves the marked
nodes is marked too, but for the nodes in the queue. -/
structure Flooded (g : Digraph α) (roots : List Nat) (state : List Nat × Array Bool) : Prop where
  size : state.2.size = g.size
  queued : ∀ n ∈ state.1, n < g.size ∧ isMarked state.2 n = true
  rooted : ∀ r ∈ roots, isMarked state.2 r = true
  reached : ∀ n < g.size, isMarked state.2 n = true → ∃ r ∈ roots, g.Reaches r n
  closed : ∀ u < g.size, isMarked state.2 u = true →
    u ∈ state.1 ∨ ∀ v ∈ g.successors u, isMarked state.2 v = true

private theorem flooded_start (g : Digraph α) (roots : List Nat) :
    Flooded g roots (roots.foldl enqueue ([], Array.replicate g.size false)) where
  size := by rw [size_foldl_enqueue, Array.size_replicate]
  queued n hn := by
    rw [mem_foldl_enqueue, ← Bool.not_eq_true, isMarked_replicate] at hn
    obtain ⟨hmem, hlt⟩ := hn.resolve_left List.not_mem_nil
    exact ⟨by omega, (isMarked_foldl_enqueue _ _ n).mpr (.inr hmem)⟩
  rooted r hr := (isMarked_foldl_enqueue _ _ r).mpr (.inr hr)
  reached n hlt hn := by
    rw [isMarked_foldl_enqueue, isMarked_replicate] at hn
    exact ⟨n, hn.resolve_left (by omega), .refl hlt⟩
  closed u hlt hu := by
    rw [isMarked_foldl_enqueue, isMarked_replicate] at hu
    refine .inl ((mem_foldl_enqueue _ _ u).mpr (.inr ⟨hu.resolve_left (by omega), ?_⟩))
    rw [← Bool.not_eq_true, isMarked_replicate]
    omega

/-- The next node leaves the queue, and its successors enter. -/
theorem Flooded.step (hg : g.WF) {roots queue : List Nat} {marks : Array Bool} {n : Nat}
    (h : Flooded g roots (n :: queue, marks)) :
    Flooded g roots ((g.successors n).foldl enqueue (queue, marks)) where
  size := (size_foldl_enqueue _ _).trans h.size
  queued m hm := by
    rw [isMarked_foldl_enqueue]
    rcases (mem_foldl_enqueue _ _ m).mp hm with hm | ⟨hm, _⟩
    · exact (h.queued m (List.mem_cons_of_mem n hm)).imp_right .inl
    · exact ⟨hg.succ_lt n m hm, .inr hm⟩
  rooted r hr := (isMarked_foldl_enqueue _ _ r).mpr (.inl (h.rooted r hr))
  reached m hlt hm := by
    rcases (isMarked_foldl_enqueue _ _ m).mp hm with hm | hm
    · exact h.reached m hlt hm
    · obtain ⟨hn, hmark⟩ := h.queued n List.mem_cons_self
      obtain ⟨r, hr, hreach⟩ := h.reached n hn hmark
      exact ⟨r, hr, hreach.snoc hg hm⟩
  closed u hlt hu := by
    simp only [mem_foldl_enqueue, isMarked_foldl_enqueue] at hu ⊢
    by_cases hmark : isMarked marks u = true
    · rcases h.closed u hlt hmark with hqueue | hsucc
      · rcases List.mem_cons.mp hqueue with rfl | hqueue
        -- The node that leaves the queue has marked successors only from now on.
        · exact .inr fun v hv ↦ .inr hv
        · exact .inl (.inl hqueue)
      · exact .inr fun v hv ↦ .inl (hsucc v hv)
    · exact .inl (.inr ⟨hu.resolve_left hmark, by simpa using hmark⟩)

/-- With fuel for the queue and for the nodes that may still enter it, the flood ends with an empty
queue. -/
theorem Flooded.flood (hg : g.WF) {roots : List Nat} (fuel : Nat) {state : List Nat × Array Bool}
    (h : Flooded g roots state) (hf : unmarked state.2 + state.1.length ≤ fuel) :
    Flooded g roots ([], g.flood fuel state) := by
  induction fuel generalizing state with
  | zero =>
    obtain ⟨queue, marks⟩ := state
    dsimp only at hf
    obtain rfl : queue = [] := List.length_eq_zero_iff.mp (by omega)
    exact h
  | succ fuel ih =>
    obtain ⟨queue, marks⟩ := state
    cases queue with
    | nil => exact h
    | cons n queue =>
      apply ih (h.step hg)
      simp only [List.length_cons] at hf
      rw [unmarked_foldl_enqueue]
      exact Nat.le_of_succ_le_succ hf

private theorem flooded_reachable (hg : g.WF) (roots : List Nat) :
    Flooded g roots ([], g.reachable roots) := by
  apply (flooded_start g roots).flood hg
  have hle := unmarked_le (Array.replicate g.size false)
  rw [Array.size_replicate] at hle
  rw [unmarked_foldl_enqueue, List.length_nil]
  omega

/-- The marks say which nodes some root reaches. -/
theorem reachable_iff (hg : g.WF) (roots : List Nat) (n : Nat) :
    (g.reachable roots)[n]?.getD false = true ↔ ∃ r ∈ roots, g.Reaches r n := by
  have h := flooded_reachable hg roots
  have hmarked : (g.reachable roots)[n]?.getD false = true ↔
      n < g.size ∧ isMarked (g.reachable roots) n = true := by
    rw [isMarked, ← h.size]
    by_cases hn : n < (g.reachable roots).size <;> simp [hn]
  rw [hmarked]
  constructor
  · rintro ⟨hlt, hmark⟩
    exact h.reached n hlt hmark
  · rintro ⟨r, hr, hreach⟩
    have hmark : isMarked (g.reachable roots) n = true := by
      apply hreach.induct (P := fun u ↦ isMarked (g.reachable roots) u = true) (h.rooted r hr)
      intro u v hu hv
      exact (h.closed u (lt_of_mem_successors hv) hu).resolve_left List.not_mem_nil v hv
    obtain ⟨p, hp⟩ := hreach
    exact ⟨hp.lt_right, hmark⟩

private theorem size_flood (g : Digraph α) (fuel : Nat) (state : List Nat × Array Bool) :
    (g.flood fuel state).size = state.2.size := by
  fun_induction flood g fuel state with
  | case1 => rfl
  | case2 => rfl
  | case3 fuel n queue marks ih => rw [ih, size_foldl_enqueue]

/-- There is a mark for every node. -/
theorem size_reachable (g : Digraph α) (roots : List Nat) : (g.reachable roots).size = g.size := by
  rw [reachable, size_flood, size_foldl_enqueue, Array.size_replicate]

end Bytecode.Digraph
