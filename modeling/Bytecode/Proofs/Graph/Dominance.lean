import Bytecode.Proofs.Graph.ImmediateDominators
import Bytecode.Proofs.Graph.Numbering

/-!
# The dominator tree is right

The dominator tree of a graph, computed over depth-first numbers, agrees with dominance as said by
paths: a node stands on the chain of another exactly when every path from the entry to that one
meets it, and the parent in the tree is the immediate dominator.
-/

namespace Bytecode.Digraph

variable {α : Type} {g : Digraph α} {entry : Nat}

/-! ### Numbers of the reached nodes -/

section

variable (entry)

private theorem visits_lt : ∀ v ∈ g.visits [entry], v.node < g.size := by
  intro v hv
  obtain ⟨r, _, p, hp⟩ := (mem_visits_iff [entry] v.node).mp (List.mem_map.mpr ⟨v, hv, rfl⟩)
  exact hp.lt_right

private theorem number?_numbering_iff (n w : Nat) :
    (g.numbering entry).number? n = some w ↔
      w < (g.numbering entry).size ∧ (g.numbering entry).nodeOf w = n := by
  rw [numbering_eq_ofVisits, Numbering.size_ofVisits]
  exact Numbering.number?_ofVisits_iff (nodup_visits g [entry]) (visits_lt entry) n w

/-- The nodes with numbers are those that the entry reaches. -/
theorem exists_number_iff (n : Nat) :
    (∃ w, w < (g.numbering entry).size ∧ (g.numbering entry).nodeOf w = n) ↔
      g.Reaches entry n := by
  have hmem := mem_visits_iff (g := g) [entry] n
  simp only [List.mem_singleton, exists_eq_left] at hmem
  rw [← hmem, numbering_eq_ofVisits, Numbering.size_ofVisits]
  constructor
  · rintro ⟨w, hw, rfl⟩
    rw [Numbering.nodeOf_ofVisits hw]
    exact List.mem_map.mpr ⟨_, List.getElem_mem hw, rfl⟩
  · intro h
    obtain ⟨v, hv, rfl⟩ := List.mem_map.mp h
    obtain ⟨w, hw, rfl⟩ := List.mem_iff_getElem.mp hv
    exact ⟨w, hw, Numbering.nodeOf_ofVisits hw⟩

private theorem nodeOf_numbering_inj {v w : Nat} (hv : v < (g.numbering entry).size)
    (hw : w < (g.numbering entry).size)
    (h : (g.numbering entry).nodeOf v = (g.numbering entry).nodeOf w) : v = w := by
  have h1 := (number?_numbering_iff entry _ v).mpr ⟨hv, rfl⟩
  have h2 := (number?_numbering_iff entry _ w).mpr ⟨hw, h.symm⟩
  exact Option.some.inj (h1.symm.trans h2)

private theorem size_numbering_le : (g.numbering entry).size ≤ g.size := by
  have hlen : (g.numbering entry).size = ((g.visits [entry]).map Visit.node).toFinset.card := by
    rw [List.toFinset_card_of_nodup (nodup_visits g [entry]), numbering_eq_ofVisits,
      Numbering.size_ofVisits, List.length_map]
  rw [hlen, ← Finset.card_range g.size]
  apply Finset.card_le_card
  intro n hn
  obtain ⟨v, hv, rfl⟩ := List.mem_map.mp (List.mem_toFinset.mp hn)
  exact Finset.mem_range.mpr (visits_lt entry v hv)

private theorem nodeOf_numbering_zero (he : entry < g.size) :
    0 < (g.numbering entry).size ∧ (g.numbering entry).nodeOf 0 = entry := by
  have hlen : 0 < (g.visits [entry]).length := by simp [visits_singleton he]
  rw [numbering_eq_ofVisits]
  refine ⟨by simpa using hlen, ?_⟩
  rw [Numbering.nodeOf_ofVisits hlen]
  simp [visits_singleton he]

variable (hg : g.WF)

include hg

/-- The predecessors of a number are the numbers from which an edge leads to it. -/
theorem mem_preds_numbering {w : Nat} (hw : w < (g.numbering entry).size) (v : Nat) :
    v ∈ (g.numbering entry).preds g w ↔ (g.numbering entry).Edge g v w := by
  simp only [Numbering.preds, List.mem_filterMap, number?_numbering_iff entry, hg.mem_preds,
    Numbering.Edge]
  constructor
  · rintro ⟨n, hn, hv, rfl⟩
    exact ⟨hv, hw, hn⟩
  · rintro ⟨hv, _, he⟩
    exact ⟨_, he, hv, rfl⟩

/-- The numbers and parents that the search gives are those of a depth-first tree. -/
theorem depthFirst_numbering (he : entry < g.size) :
    DepthFirst (g.numbering entry).size ((g.numbering entry).Edge g)
      (g.numbering entry).parentOf := by
  have hroot : (g.visits [entry]).head? = some ⟨entry, entry⟩ := by
    rw [visits_singleton he, List.head?_cons]
  rw [numbering_eq_ofVisits]
  exact Numbering.depthFirst_ofVisits (depthFirstOrder_visits hg he) hroot
    (nodup_visits g [entry]) (visits_lt entry)

/-! ### Paths over nodes and over numbers -/

omit hg in
private theorem path_of_evades {d v w : Nat} (hdw : w < (g.numbering entry).size)
    (hd : d < (g.numbering entry).size)
    (h : Evades ((g.numbering entry).Edge g) d w v) :
    ∃ p, g.Path ((g.numbering entry).nodeOf v) ((g.numbering entry).nodeOf w) p ∧
      (g.numbering entry).nodeOf d ∉ p := by
  have hne {x : Nat} (hx : x < (g.numbering entry).size) (hxd : x ≠ d) :
      (g.numbering entry).nodeOf d ≠ (g.numbering entry).nodeOf x :=
    fun h ↦ hxd (nodeOf_numbering_inj entry hx hd h.symm)
  induction h with
  | here hwd =>
    obtain ⟨p, hp⟩ := (exists_number_iff entry _).mp ⟨w, hdw, rfl⟩
    exact ⟨_, .single hp.lt_right, by simpa using hne hdw hwd⟩
  | step hvd he _ ih =>
    obtain ⟨p, hp, hmem⟩ := ih
    exact ⟨_, .cons he.2.2 hp, by simpa using ⟨hne he.1 hvd, hmem⟩⟩

private theorem evades_of_path {d v w m n : Nat} {p : List Nat} (h : g.Path m n p)
    (hv : v < (g.numbering entry).size) (hm : (g.numbering entry).nodeOf v = m)
    (hw : w < (g.numbering entry).size) (hn : (g.numbering entry).nodeOf w = n)
    (hd : (g.numbering entry).nodeOf d ∉ p) :
    Evades ((g.numbering entry).Edge g) d w v := by
  induction h generalizing v with
  | single _ =>
    obtain rfl := nodeOf_numbering_inj entry hv hw (hm.trans hn.symm)
    exact .here (fun h ↦ hd (by simp [← h, hm]))
  | @cons m k n p he _ ih =>
    -- The next node is reached as well, so it has a number.
    have hk : g.Reaches entry k :=
      ((exists_number_iff entry m).mp ⟨v, hv, hm⟩).snoc hg he
    obtain ⟨x, hx, rfl⟩ := (exists_number_iff entry k).mpr hk
    have hvd : v ≠ d := fun h ↦ hd (by simp [← h, hm])
    exact .step hvd ⟨hv, hx, hm ▸ he⟩ (ih hx rfl hn fun h ↦ hd (List.mem_cons_of_mem _ h))

private theorem dominates_nodeOf_iff (he : entry < g.size) {d w : Nat}
    (hd : d < (g.numbering entry).size) (hw : w < (g.numbering entry).size) :
    g.Dominates entry ((g.numbering entry).nodeOf d) ((g.numbering entry).nodeOf w) ↔
      Dominance ((g.numbering entry).Edge g) d w := by
  obtain ⟨h0, hentry⟩ := nodeOf_numbering_zero entry he
  constructor
  · intro h hev
    obtain ⟨p, hp, hmem⟩ := path_of_evades entry hw hd hev
    rw [hentry] at hp
    exact hmem (h.mem_path p hp)
  · intro h
    refine ⟨(exists_number_iff entry _).mp ⟨d, hd, rfl⟩,
      (exists_number_iff entry _).mp ⟨w, hw, rfl⟩, ?_⟩
    intro p hp
    refine Decidable.byContradiction fun hmem ↦ h ?_
    exact evades_of_path entry hg hp h0 hentry hw rfl hmem

/-- Dominance over nodes is dominance over their numbers. -/
theorem dominates_iff_numbers (he : entry < g.size) {a b : Nat} :
    g.Dominates entry a b ↔ ∃ d w, w < (g.numbering entry).size ∧
      (g.numbering entry).nodeOf d = a ∧ (g.numbering entry).nodeOf w = b ∧
      Dominance ((g.numbering entry).Edge g) d w := by
  have T := depthFirst_numbering entry hg he
  constructor
  · intro h
    obtain ⟨d, hd, rfl⟩ := (exists_number_iff entry a).mpr h.reaches_left
    obtain ⟨w, hw, rfl⟩ := (exists_number_iff entry b).mpr h.reaches_right
    exact ⟨d, w, hw, rfl, rfl, (dominates_nodeOf_iff entry hg he hd hw).mp h⟩
  · rintro ⟨d, w, hw, rfl, rfl, h⟩
    have hle := T.le_of_above hw (T.above_of_dominance hw h)
    exact (dominates_nodeOf_iff entry hg he (by omega) hw).mpr h

end

/-! ### The tree -/

private theorem getElem?_foldl_set {β : Type} (f : Nat → Nat) (b : Nat → β) (ws : List Nat)
    (arr : Array (Option β)) (hnodup : (ws.map f).Nodup) (hlt : ∀ w ∈ ws, f w < arr.size)
    (n : Nat) :
    (ws.foldl (fun arr w ↦ arr.setIfInBounds (f w) (some (b w))) arr)[n]?.join =
      match ws.find? (fun w ↦ f w = n) with
      | some w => some (b w)
      | none => arr[n]?.join := by
  induction ws generalizing arr with
  | nil => rfl
  | cons w ws ih =>
    rw [List.map_cons, List.nodup_cons] at hnodup
    rw [List.foldl_cons, ih _ hnodup.2 (fun v hv ↦ by
      simpa using hlt v (List.mem_cons_of_mem w hv))]
    by_cases hw : f w = n
    · have hnone : ws.find? (fun v ↦ f v = n) = none := by
        simp only [List.find?_eq_none, decide_eq_true_eq]
        intro v hv hvn
        exact hnodup.1 (List.mem_map.mpr ⟨v, hv, hvn.trans hw.symm⟩)
      have hsize : n < arr.size := hw ▸ hlt w (.head ws)
      simp [hnone, hw, hsize]
    · simp [hw]

private theorem size_foldl_set {β : Type} (f : Nat → Nat) (b : Nat → β) (ws : List Nat)
    (arr : Array (Option β)) :
    (ws.foldl (fun arr w ↦ arr.setIfInBounds (f w) (some (b w))) arr).size = arr.size := by
  induction ws generalizing arr with
  | nil => rfl
  | cons w ws ih => rw [List.foldl_cons, ih, Array.size_setIfInBounds]

/-- The dominator tree has a place for every node. -/
theorem nodeCount_dominators : (g.dominators entry).nodeCount = g.size := by
  rw [DominatorTree.nodeCount, dominators, DominatorTree.ofNumbers, size_foldl_set,
    Array.size_replicate]

/-- The tree lists its nodes in the order of the traversal. -/
theorem preorder_dominators : (g.dominators entry).preorder = g.dfs entry := by
  rw [dominators, DominatorTree.ofNumbers, numbering_eq_ofVisits]
  rfl

/-- The tree lists no node twice. -/
theorem nodup_preorder : (g.dominators entry).preorder.Nodup := by
  rw [preorder_dominators]
  exact nodup_visits g [entry]

private theorem idom?_dominators (n : Nat) :
    (g.dominators entry).idom? n =
      match (List.range' 1 ((g.numbering entry).size - 1)).find?
        (fun w ↦ (g.numbering entry).nodeOf w = n) with
      | some w => some ((g.numbering entry).nodeOf
          ((Semidominators.idoms (g.numbering entry) g)[w]?.getD 0))
      | none => none := by
  have hlt (w : Nat) (hw : w ∈ List.range' 1 ((g.numbering entry).size - 1)) :
      w < (g.numbering entry).size := by
    simp only [List.mem_range'_1] at hw
    omega
  have hnodup : ((List.range' 1 ((g.numbering entry).size - 1)).map
      (g.numbering entry).nodeOf).Nodup := by
    refine List.Nodup.map_on (fun v hv w hw h ↦ ?_) List.nodup_range'
    exact nodeOf_numbering_inj entry (hlt v hv) (hlt w hw) h
  have hsize (w : Nat) (hw : w ∈ List.range' 1 ((g.numbering entry).size - 1)) :
      (g.numbering entry).nodeOf w < (Array.replicate g.size (none : Option Nat)).size := by
    obtain ⟨p, hp⟩ := (exists_number_iff entry _).mp ⟨w, hlt w hw, rfl⟩
    simpa using hp.lt_right
  have h := getElem?_foldl_set (g.numbering entry).nodeOf
    (fun w ↦ (g.numbering entry).nodeOf
      ((Semidominators.idoms (g.numbering entry) g)[w]?.getD 0)) _ _ hnodup hsize n
  rw [DominatorTree.idom?, dominators, DominatorTree.ofNumbers, h]
  split <;> simp [Array.getElem?_replicate]
  split <;> rfl

/-- The immediate dominator of a node is read off from its number, unless that is the root's. -/
theorem idom?_dominators_iff {n m : Nat} :
    (g.dominators entry).idom? n = some m ↔ ∃ w, 0 < w ∧ w < (g.numbering entry).size ∧
      (g.numbering entry).nodeOf w = n ∧ (g.numbering entry).nodeOf
        ((Semidominators.idoms (g.numbering entry) g)[w]?.getD 0) = m := by
  rw [idom?_dominators]
  constructor
  · intro h
    split at h
    · next w hfind =>
      have hmem := List.mem_of_find?_eq_some hfind
      have hw := List.find?_some hfind
      simp only [List.mem_range'_1] at hmem
      exact ⟨w, by omega, by omega, by simpa using hw, Option.some.inj h⟩
    · contradiction
  · rintro ⟨w, hpos, hw, hn, hm⟩
    split
    · next v hfind =>
      have hmem := List.mem_of_find?_eq_some hfind
      have hv := List.find?_some hfind
      simp only [List.mem_range'_1] at hmem
      obtain rfl := nodeOf_numbering_inj entry (by omega) hw
        ((of_decide_eq_true hv).trans hn.symm)
      rw [hm]
    · next hfind =>
      have := List.find?_eq_none.mp hfind w (by simp only [List.mem_range'_1]; omega)
      simp [hn] at this

/-- The tree calls a node reachable exactly if the entry reaches it. -/
theorem isReachable_dominators_iff {n : Nat} :
    (g.dominators entry).isReachable n = true ↔ g.Reaches entry n := by
  have hentry : (g.dominators entry).entry = entry := rfl
  simp only [DominatorTree.isReachable, nodeCount_dominators, hentry, Bool.or_eq_true,
    Bool.and_eq_true, decide_eq_true_eq, Option.isSome_iff_exists, idom?_dominators_iff]
  constructor
  · rintro (⟨rfl, hn⟩ | ⟨m, w, _, hw, hn, _⟩)
    · exact .refl hn
    · exact (exists_number_iff entry n).mp ⟨w, hw, hn⟩
  · intro h
    obtain ⟨w, hw, hn⟩ := (exists_number_iff entry n).mpr h
    obtain ⟨p, hp⟩ := h
    rcases Nat.eq_zero_or_pos w with rfl | hpos
    · rw [(nodeOf_numbering_zero entry hp.lt_left).2] at hn
      exact .inl ⟨hn.symm, hp.lt_right⟩
    · exact .inr ⟨_, w, hpos, hw, hn, rfl⟩

private theorem eq_root_iff {a : Nat}
    (T : DepthFirst (g.numbering entry).size ((g.numbering entry).Edge g)
      (g.numbering entry).parentOf) (hw : 0 < (g.numbering entry).size) :
    a = (g.numbering entry).nodeOf 0 ↔
      ∃ d, (g.numbering entry).nodeOf d = a ∧ Dominance ((g.numbering entry).Edge g) d 0 := by
  constructor
  · rintro rfl
    exact ⟨0, rfl, T.dominance_self hw⟩
  · rintro ⟨d, rfl, hd⟩
    have hle := T.le_of_above hw (T.above_of_dominance hw hd)
    rw [Nat.le_zero.mp hle]

section

variable (hg : g.WF)

include hg

/-- Every number but the root's has an immediate dominator, and the array gives it. -/
theorem isImmediate_numbering {w : Nat} (hpos : 0 < w) (hw : w < (g.numbering entry).size) :
    IsImmediate ((g.numbering entry).Edge g)
      ((Semidominators.idoms (g.numbering entry) g)[w]?.getD 0) w := by
  obtain ⟨p, hp⟩ := (exists_number_iff entry _).mp ⟨w, hw, rfl⟩
  exact Semidominators.isImmediate_idoms (g.numbering entry) g
    (depthFirst_numbering entry hg hp.lt_left)
    (fun w hw v ↦ mem_preds_numbering entry hg hw v) hpos hw

-- What is met on the way up the tree from a numbered node are its dominators.
private theorem mem_ascend_iff (he : entry < g.size) {a : Nat} (fuel : Nat) {w : Nat}
    (hw : w < (g.numbering entry).size) (hfuel : w ≤ fuel) :
    a ∈ (g.dominators entry).ascend fuel ((g.numbering entry).nodeOf w) ↔
      ∃ d, (g.numbering entry).nodeOf d = a ∧ Dominance ((g.numbering entry).Edge g) d w := by
  have T := depthFirst_numbering entry hg he
  induction fuel generalizing w with
  | zero =>
    obtain rfl : w = 0 := by omega
    rw [DominatorTree.ascend, List.mem_singleton]
    exact eq_root_iff T hw
  | succ fuel ih =>
    rw [DominatorTree.ascend]
    split
    · next hnone =>
      rcases Nat.eq_zero_or_pos w with rfl | hpos
      · rw [List.mem_singleton]
        exact eq_root_iff T hw
      · have hsome := idom?_dominators_iff.mpr ⟨w, hpos, hw, rfl, rfl⟩
        rw [hnone] at hsome
        contradiction
    · next m hsome =>
      obtain ⟨v, hpos, hv, hvw, hm⟩ := idom?_dominators_iff.mp hsome
      obtain rfl := nodeOf_numbering_inj entry hv hw hvw
      have him := isImmediate_numbering hg hpos hv
      generalize (Semidominators.idoms (g.numbering entry) g)[v]?.getD 0 = i at him hm
      have hle := T.le_of_above hv (T.above_of_dominance hv him.dominance)
      have hne := him.ne
      have hup := ih (w := i) (by omega) (by omega)
      rw [List.mem_cons, ← hm]
      simp only [T.dominance_iff_of_immediate hv him]
      refine (or_congr_right hup).trans ⟨?_, ?_⟩
      · rintro (rfl | ⟨d, hd, hdom⟩)
        · exact ⟨v, rfl, .inl rfl⟩
        · exact ⟨d, hd, .inr hdom⟩
      · rintro ⟨d, rfl, rfl | hdom⟩
        · exact .inl rfl
        · exact .inr ⟨d, rfl, hdom⟩

/-- The tree answers by dominance. -/
theorem dominates_dominators_iff {a b : Nat} :
    (g.dominators entry).dominates a b = true ↔ g.Dominates entry a b := by
  rw [DominatorTree.dominates, Bool.and_eq_true, isReachable_dominators_iff,
    List.contains_iff_mem, DominatorTree.chain, nodeCount_dominators]
  by_cases hb : g.Reaches entry b
  · rw [if_pos (isReachable_dominators_iff.mpr hb)]
    obtain ⟨w, hw, rfl⟩ := (exists_number_iff entry b).mpr hb
    obtain ⟨p, hp⟩ := hb
    have he := hp.lt_left
    have hsize := size_numbering_le (g := g) entry
    rw [mem_ascend_iff hg he g.size hw (by omega)]
    constructor
    · rintro ⟨_, d, rfl, hd⟩
      exact (dominates_iff_numbers entry hg he).mpr ⟨d, w, hw, rfl, rfl, hd⟩
    · intro h
      obtain ⟨d, v, hv, hd, hvw, hdom⟩ := (dominates_iff_numbers entry hg he).mp h
      obtain rfl := nodeOf_numbering_inj entry hv hw hvw
      exact ⟨h.reaches_left, d, hd, hdom⟩
  · rw [if_neg (fun h ↦ hb (isReachable_dominators_iff.mp h))]
    constructor
    · rintro ⟨_, h⟩
      exact absurd h List.not_mem_nil
    · intro h
      exact absurd h.reaches_right hb

/-- Two nodes that dominate each other are one. -/
theorem Dominates.antisymm {a b : Nat} (hab : g.Dominates entry a b)
    (hba : g.Dominates entry b a) : a = b := by
  obtain ⟨p, hp⟩ := hab.reaches_left
  have he := hp.lt_left
  have T := depthFirst_numbering entry hg he
  obtain ⟨d, w, hw, rfl, rfl, hdw⟩ := (dominates_iff_numbers entry hg he).mp hab
  have hle := T.le_of_above hw (T.above_of_dominance hw hdw)
  have hwd := (dominates_nodeOf_iff entry hg he hw (by omega)).mp hba
  have hge := T.le_of_above (by omega) (T.above_of_dominance (by omega) hwd)
  rw [Nat.le_antisymm hle hge]

/-- A node has at most one immediate dominator. -/
theorem DominatesImmediately.unique {c d b : Nat} (hc : g.DominatesImmediately entry c b)
    (hd : g.DominatesImmediately entry d b) : c = d := by
  by_cases hcd : c = d
  · exact hcd
  · exact (hd.least c hc.ne hcd hc.dominates).antisymm hg
      (hc.least d hd.ne (Ne.symm hcd) hd.dominates)

-- The immediate dominator over numbers is the one over nodes.
private theorem dominatesImmediately_nodeOf (he : entry < g.size) {i w : Nat}
    (hw : w < (g.numbering entry).size)
    (h : IsImmediate ((g.numbering entry).Edge g) i w) :
    g.DominatesImmediately entry ((g.numbering entry).nodeOf i)
      ((g.numbering entry).nodeOf w) := by
  have T := depthFirst_numbering entry hg he
  have hi : i < (g.numbering entry).size :=
    Nat.lt_of_le_of_lt (T.le_of_above hw (T.above_of_dominance hw h.dominance)) hw
  refine ⟨fun hn ↦ h.ne (nodeOf_numbering_inj entry hi hw hn),
    (dominates_nodeOf_iff entry hg he hi hw).mpr h.dominance, ?_⟩
  intro c hcw _ hc
  obtain ⟨d, hd, rfl⟩ := (exists_number_iff entry c).mpr hc.reaches_left
  have hdw := (dominates_nodeOf_iff entry hg he hd hw).mp hc
  have hdi := h.least d (fun hdw ↦ hcw (by rw [hdw])) hdw
  exact (dominates_nodeOf_iff entry hg he hd hi).mpr hdi

/-- The tree has the immediate dominator of every node that is reached, other than the entry. -/
theorem idom?_eq_some_iff {b d : Nat} :
    (g.dominators entry).idom? b = some d ↔
      g.Reaches entry b ∧ b ≠ entry ∧ g.DominatesImmediately entry d b := by
  -- What the array says of numbers, the tree says of nodes.
  have hidom (w : Nat) (hpos : 0 < w) (hw : w < (g.numbering entry).size) :
      (g.numbering entry).nodeOf w ≠ entry ∧
        ∃ i, (g.dominators entry).idom? ((g.numbering entry).nodeOf w) = some i ∧
          g.DominatesImmediately entry i ((g.numbering entry).nodeOf w) := by
    obtain ⟨p, hp⟩ := (exists_number_iff entry _).mp ⟨w, hw, rfl⟩
    have he := hp.lt_left
    obtain ⟨h0, hentry⟩ := nodeOf_numbering_zero entry he
    have him := isImmediate_numbering hg hpos hw
    refine ⟨fun h ↦ ?_, _, idom?_dominators_iff.mpr ⟨w, hpos, hw, rfl, rfl⟩,
      dominatesImmediately_nodeOf hg he hw him⟩
    have := nodeOf_numbering_inj entry hw h0 (h.trans hentry.symm)
    omega
  constructor
  · intro h
    obtain ⟨w, hpos, hw, rfl, _⟩ := idom?_dominators_iff.mp h
    obtain ⟨hne, i, hi, him⟩ := hidom w hpos hw
    obtain rfl := Option.some.inj (hi.symm.trans h)
    exact ⟨(exists_number_iff entry _).mp ⟨w, hw, rfl⟩, hne, him⟩
  · rintro ⟨hb, hne, him⟩
    obtain ⟨w, hw, rfl⟩ := (exists_number_iff entry b).mpr hb
    obtain ⟨p, hp⟩ := hb
    rcases Nat.eq_zero_or_pos w with rfl | hpos
    · exact absurd (nodeOf_numbering_zero entry hp.lt_left).2 hne
    · obtain ⟨_, i, hi, him'⟩ := hidom w hpos hw
      rw [hi, him'.unique hg him]

end

/-- The dominator tree of a graph decides dominance and gives the immediate dominators, for every
entry; from an entry that is no node, nothing is reached and nothing has a dominator. -/
theorem dominators_decide_dominance (hg : g.Built) (entry : Nat) :
    (∀ n, (g.dominators entry).isReachable n = true ↔ g.Reaches entry n) ∧
    (∀ a b, (g.dominators entry).dominates a b = true ↔ g.Dominates entry a b) ∧
    (∀ b d, (g.dominators entry).idom? b = some d ↔
      g.Reaches entry b ∧ b ≠ entry ∧ g.DominatesImmediately entry d b) ∧
    (g.size ≤ entry → ∀ n,
      (g.dominators entry).isReachable n = false ∧ (g.dominators entry).idom? n = none) := by
  have hwf := hg.wf
  refine ⟨fun n ↦ isReachable_dominators_iff, fun a b ↦ dominates_dominators_iff hwf,
    fun b d ↦ idom?_eq_some_iff hwf, ?_⟩
  intro he n
  have hnot : ¬g.Reaches entry n := by
    rintro ⟨p, hp⟩
    exact absurd hp.lt_left (by omega)
  constructor
  · rw [Bool.eq_false_iff]
    exact fun h ↦ hnot (isReachable_dominators_iff.mp h)
  · rw [Option.eq_none_iff_forall_ne_some]
    exact fun d h ↦ hnot ((idom?_eq_some_iff hwf).mp h).1

/-- Two arms that also jump into each other, a loop on the node where they meet, and a node that
nothing enters. -/
def crossing : Digraph Unit :=
  let nodes := ((((empty.addNode ()).addNode ()).addNode ()).addNode ()).addNode ()
  ((((nodes.addEdges 0 [1, 2]).addEdges 1 [2, 3]).addEdges 2 [1, 3]).addEdge 3 3).addEdge 4 3

/-- The graph `crossing` is made by adding nodes and edges. -/
theorem crossing_built : crossing.Built :=
  .addEdge 4 3 <| .addEdge 3 3 <| .addEdges 2 [1, 3] <| .addEdges 1 [2, 3] <| .addEdges 0 [1, 2] <|
    .addNode () <| .addNode () <| .addNode () <| .addNode () <| .addNode () .empty

/-- In `crossing` the entry and not the arm immediately dominates the node where the arms meet, and
an entry out of range dominates nothing. -/
theorem crossing_dominance :
    crossing.Built ∧ crossing.DominatesImmediately 0 0 3 ∧ ¬crossing.Dominates 0 1 3 ∧
      ¬crossing.Reaches 0 4 ∧ crossing.size ≤ 5 ∧ (crossing.dominators 5).idom? 3 = none := by
  obtain ⟨hreach, hdom, hidom, _⟩ := dominators_decide_dominance crossing_built 0
  obtain ⟨_, _, _, hout⟩ := dominators_decide_dominance crossing_built 5
  refine ⟨crossing_built, ((hidom 3 0).mp (by decide +kernel)).2.2, ?_, ?_, by decide,
    (hout (by decide) 3).2⟩
  · rw [← hdom]
    decide +kernel
  · rw [← hreach]
    decide +kernel

end Bytecode.Digraph
