import Bytecode.Proofs.Graph.Dominance

/-!
# Views of the dominator tree

The tree keeps one immediate dominator for each node and an order of the nodes. What else it offers
is read off from these two: the dominators of a node one after the other, the same as sets, depths,
and the test of dominance. That the order lists every node after its immediate dominator makes all
of these agree.
-/

namespace Bytecode.DominatorTree

/-- The way up from a node, from one immediate dominator to the next, up to a node that has
none. -/
inductive Ascends (t : DominatorTree) : Nat → List Nat → Prop
  | top {n : Nat} : t.idom? n = none → Ascends t n [n]
  | up {n d : Nat} {way : List Nat} : t.idom? n = some d → Ascends t d way → Ascends t n (n :: way)

/-- The order lists the reached nodes once, and each of them after its immediate dominator. -/
structure Ordered (t : DominatorTree) : Prop where
  nodup : t.preorder.Nodup
  mem_iff : ∀ n, n ∈ t.preorder ↔ t.isReachable n = true
  lt_nodeCount : ∀ n ∈ t.preorder, n < t.nodeCount
  idom_mem : ∀ n d, t.idom? n = some d → d ∈ t.preorder
  idom_before : ∀ n d, t.idom? n = some d → t.preorder.idxOf d < t.preorder.idxOf n

variable {t : DominatorTree} {n d : Nat} {way : List Nat}

/-! ### Ways up -/

private theorem Ascends.unique {way' : List Nat} (hw : t.Ascends n way) (hw' : t.Ascends n way') :
    way = way' := by
  induction hw generalizing way' with
  | top hnone =>
    cases hw' with
    | top _ => rfl
    | up hd _ => rw [hnone] at hd; contradiction
  | up hd _ ih =>
    cases hw' with
    | top hnone => rw [hnone] at hd; contradiction
    | up hd' hw' =>
      obtain rfl := Option.some.inj (hd.symm.trans hd')
      rw [ih hw']

private theorem Ascends.head?_eq (hw : t.Ascends n way) : way.head? = some n := by
  cases hw <;> rfl

/-- The way up from a node that is met is the end of the way that meets it. -/
theorem Ascends.exists_suffix {a : Nat} (hw : t.Ascends n way) (ha : a ∈ way) :
    ∃ upper, t.Ascends a upper ∧ upper <:+ way := by
  induction hw with
  | top hnone =>
    obtain rfl := List.mem_singleton.mp ha
    exact ⟨_, .top hnone, List.suffix_rfl⟩
  | @up n d way hd hw ih =>
    rcases List.mem_cons.mp ha with rfl | ha
    · exact ⟨_, .up hd hw, List.suffix_rfl⟩
    · obtain ⟨upper, hupper, hsuffix⟩ := ih ha
      exact ⟨upper, hupper, hsuffix.trans (List.suffix_cons n way)⟩

namespace Ordered

variable (h : t.Ordered)

include h

private theorem idxOf_le_of_ascends (hw : t.Ascends n way) {a : Nat} (ha : a ∈ way) :
    t.preorder.idxOf a ≤ t.preorder.idxOf n := by
  induction hw with
  | top _ => rw [List.mem_singleton.mp ha]
  | @up n d way hd _ ih =>
    rcases List.mem_cons.mp ha with rfl | ha
    · exact Nat.le_refl _
    · exact Nat.le_of_lt (Nat.lt_of_le_of_lt (ih ha) (h.idom_before n d hd))

private theorem nodup_of_ascends (hw : t.Ascends n way) : way.Nodup := by
  induction hw with
  | top _ => exact List.nodup_singleton _
  | @up n d way hd hw ih =>
    refine List.nodup_cons.mpr ⟨fun hn ↦ ?_, ih⟩
    have hle := h.idxOf_le_of_ascends hw hn
    have hlt := h.idom_before n d hd
    omega

private theorem mem_of_ascends (hw : t.Ascends n way) (hn : n ∈ t.preorder) {a : Nat}
    (ha : a ∈ way) : a ∈ t.preorder := by
  induction hw with
  | top _ => rwa [List.mem_singleton.mp ha]
  | @up n d way hd _ ih =>
    rcases List.mem_cons.mp ha with rfl | ha
    · exact hn
    · exact ih (h.idom_mem n d hd) ha

private theorem eq_entry (hn : n ∈ t.preorder) (hnone : t.idom? n = none) : n = t.entry := by
  have hreach := (h.mem_iff n).mp hn
  simp only [isReachable, hnone, Option.isSome_none, Bool.or_false, Bool.and_eq_true,
    decide_eq_true_eq] at hreach
  exact hreach.1

/-- All ways up from reached nodes end at the entry. -/
theorem getLast?_of_ascends (hw : t.Ascends n way) (hn : n ∈ t.preorder) :
    way.getLast? = some t.entry := by
  induction hw with
  | top hnone => rw [List.getLast?_singleton, h.eq_entry hn hnone]
  | @up n d way hd _ ih =>
    rw [List.getLast?_cons, ih (h.idom_mem n d hd), Option.getD_some]

/-! ### Chains -/

private theorem length_preorder_le : t.preorder.length ≤ t.nodeCount := by
  have hsub : t.preorder ⊆ List.range t.nodeCount :=
    fun n hn ↦ List.mem_range.mpr (h.lt_nodeCount n hn)
  simpa using (h.nodup.subperm hsub).length_le

private theorem ascends_ascend {fuel : Nat} (hf : t.preorder.idxOf n ≤ fuel) :
    t.Ascends n (t.ascend fuel n) := by
  induction fuel generalizing n with
  | zero =>
    -- Nothing comes before the first node, so it has no immediate dominator.
    refine .top (Option.eq_none_iff_forall_ne_some.mpr fun d hd ↦ ?_)
    have := h.idom_before n d hd
    omega
  | succ fuel ih =>
    rw [ascend]
    split
    · next hnone => exact .top hnone
    · next d hd =>
      have := h.idom_before n d hd
      exact .up hd (ih (by omega))

private theorem ascends_chain (hn : n ∈ t.preorder) : t.Ascends n (t.chain n) := by
  rw [chain, if_pos ((h.mem_iff n).mp hn)]
  apply h.ascends_ascend
  exact Nat.le_trans List.idxOf_le_length h.length_preorder_le

private theorem chain_eq_nil (hn : n ∉ t.preorder) : t.chain n = [] := by
  rw [chain, if_neg (mt (h.mem_iff n).mpr hn)]

private theorem mem_preorder_of_mem_chain {a : Nat} (ha : a ∈ t.chain n) :
    n ∈ t.preorder ∧ a ∈ t.preorder := by
  by_cases hn : n ∈ t.preorder
  · exact ⟨hn, h.mem_of_ascends (h.ascends_chain hn) hn ha⟩
  · rw [h.chain_eq_nil hn] at ha
    exact absurd ha List.not_mem_nil

private theorem chain_of_idom? (hn : n ∈ t.preorder) (hd : t.idom? n = some d) :
    t.chain n = n :: t.chain d :=
  (h.ascends_chain hn).unique (.up hd (h.ascends_chain (h.idom_mem n d hd)))

private theorem chain_of_idom?_eq_none (hn : n ∈ t.preorder) (hnone : t.idom? n = none) :
    t.chain n = [n] :=
  (h.ascends_chain hn).unique (.top hnone)

/-- A node is one deeper than its immediate dominator. -/
theorem depth_of_idom? (hd : t.idom? n = some d) : t.depth n = t.depth d + 1 := by
  have hn : n ∈ t.preorder := (h.mem_iff n).mpr (by simp [isReachable, hd])
  have hpos : 0 < (t.chain d).length :=
    List.length_pos_of_mem (List.mem_of_mem_head? (h.ascends_chain (h.idom_mem n d hd)).head?_eq)
  rw [depth, depth, h.chain_of_idom? hn hd, List.length_cons]
  omega

/-! ### The test of dominance -/

private theorem dominates_iff {a b : Nat} : t.dominates a b = true ↔ a ∈ t.chain b := by
  rw [dominates, Bool.and_eq_true, List.contains_iff_mem, ← h.mem_iff]
  exact and_iff_right_of_imp fun ha ↦ (h.mem_preorder_of_mem_chain ha).2

private theorem dominates_self_iff : t.dominates n n = true ↔ n ∈ t.preorder := by
  rw [h.dominates_iff]
  constructor
  · intro hn
    exact (h.mem_preorder_of_mem_chain hn).1
  · intro hn
    exact List.mem_of_mem_head? (h.ascends_chain hn).head?_eq

private theorem dominates_trans {a b c : Nat} (hab : t.dominates a b = true)
    (hbc : t.dominates b c = true) : t.dominates a c = true := by
  rw [h.dominates_iff] at hab hbc ⊢
  obtain ⟨hc, hb⟩ := h.mem_preorder_of_mem_chain hbc
  obtain ⟨upper, hupper, hsuffix⟩ := (h.ascends_chain hc).exists_suffix hbc
  rw [(h.ascends_chain hb).unique hupper] at hab
  exact hsuffix.mem hab

private theorem dominates_antisymm {a b : Nat} (hab : t.dominates a b = true)
    (hba : t.dominates b a = true) : a = b := by
  rw [h.dominates_iff] at hab hba
  obtain ⟨hb, ha⟩ := h.mem_preorder_of_mem_chain hab
  have hle := h.idxOf_le_of_ascends (h.ascends_chain hb) hab
  have hge := h.idxOf_le_of_ascends (h.ascends_chain ha) hba
  exact (List.idxOf_inj ha).mp (Nat.le_antisymm hle hge)

end Ordered

/-! ### Sets of dominators -/

/-- The nodes of `done` have their sets of dominators, and the others have empty ones. -/
structure Filled (t : DominatorTree) (done : List Nat) (sets : Array (Std.TreeSet Nat)) :
    Prop where
  size : sets.size = t.nodeCount
  mem_set : ∀ n a, a ∈ sets[n]?.getD ∅ ↔ n ∈ done ∧ a ∈ t.chain n

private theorem filled_nil (t : DominatorTree) : t.Filled [] (Array.replicate t.nodeCount ∅) where
  size := Array.size_replicate
  mem_set n a := by
    rw [Array.getElem?_replicate]
    split <;> simp

private theorem Filled.extendSet {done rest : List Nat} {sets : Array (Std.TreeSet Nat)}
    (h : t.Ordered) (hpre : t.preorder = done ++ n :: rest) (hf : t.Filled done sets) :
    t.Filled (done ++ [n]) (t.extendSet sets n) := by
  have hn : n ∈ t.preorder := by simp [hpre]
  have hnew : n ∉ done := by
    have hnodup := h.nodup
    rw [hpre, List.nodup_middle, List.nodup_cons, List.mem_append, not_or] at hnodup
    exact hnodup.1.1
  have hlt : n < sets.size := hf.size ▸ h.lt_nodeCount n hn
  -- The immediate dominator comes earlier, so its set is there already.
  have hdone (d : Nat) (hd : t.idom? n = some d) : d ∈ done := by
    have hbefore := h.idom_before n d hd
    by_contra hnot
    rw [hpre, List.idxOf_append_of_notMem hnot, List.idxOf_append_of_notMem hnew,
      List.idxOf_cons_self] at hbefore
    omega
  have hset (a : Nat) : a ∈ (t.extendSet sets n)[n]?.getD ∅ ↔ a ∈ t.chain n := by
    rw [DominatorTree.extendSet, Array.getElem?_setIfInBounds_self_of_lt hlt, Option.getD_some,
      Std.TreeSet.mem_insert, compare_eq_iff_eq]
    cases hd : t.idom? n with
    | none => simp [h.chain_of_idom?_eq_none hn hd, eq_comm]
    | some d => simp [h.chain_of_idom? hn hd, hf.mem_set, hdone d hd, eq_comm]
  refine ⟨by rw [DominatorTree.extendSet, Array.size_setIfInBounds, hf.size], fun m a ↦ ?_⟩
  by_cases hm : m = n
  · rw [hm, hset]
    simp
  · rw [DominatorTree.extendSet, Array.getElem?_setIfInBounds_ne (Ne.symm hm), hf.mem_set]
    simp [hm]

private theorem Filled.foldl {done rest : List Nat} {sets : Array (Std.TreeSet Nat)}
    (h : t.Ordered) (hpre : t.preorder = done ++ rest) (hf : t.Filled done sets) :
    t.Filled t.preorder (rest.foldl t.extendSet sets) := by
  induction rest generalizing done sets with
  | nil =>
    rw [hpre, List.append_nil]
    exact hf
  | cons n rest ih =>
    rw [List.foldl_cons]
    exact ih (by simpa using hpre) (hf.extendSet h hpre)

private theorem Ordered.filled_dominatorSets (h : t.Ordered) :
    t.Filled t.preorder t.dominatorSets :=
  (filled_nil t).foldl h (List.nil_append _).symm

private theorem Ordered.mem_dominatorSets (h : t.Ordered) (n a : Nat) :
    a ∈ t.dominatorSets[n]?.getD ∅ ↔ a ∈ t.chain n := by
  rw [h.filled_dominatorSets.mem_set]
  exact and_iff_right_of_imp fun ha ↦ (h.mem_preorder_of_mem_chain ha).1

end Bytecode.DominatorTree

namespace Bytecode.Digraph

variable {α : Type} {g : Digraph α} {entry : Nat}

/-- A node stands in the order where its number says. -/
theorem idxOf_preorder {w : Nat} (hw : w < (g.numbering entry).size) :
    (g.dominators entry).preorder.idxOf ((g.numbering entry).nodeOf w) = w := by
  have hnodup : (g.numbering entry).order.toList.Nodup := nodup_preorder
  have hlt : w < (g.numbering entry).order.toList.length := hw
  have hnode : (g.numbering entry).nodeOf w = (g.numbering entry).order.toList[w] := by
    rw [Numbering.nodeOf, ← Array.getElem?_toList, List.getElem?_eq_getElem hlt, Option.getD_some]
  rw [hnode]
  exact hnodup.idxOf_getElem w hlt

/-- An immediate dominator has a smaller number. -/
theorem idoms_lt (hg : g.WF) {w : Nat} (hpos : 0 < w) (hw : w < (g.numbering entry).size) :
    (Semidominators.idoms (g.numbering entry) g)[w]?.getD 0 < w := by
  obtain ⟨p, hp⟩ := (exists_number_iff entry _).mp ⟨w, hw, rfl⟩
  have T := depthFirst_numbering entry hg hp.lt_left
  have him := isImmediate_numbering hg hpos hw
  have hle := T.le_of_above hw (T.above_of_dominance hw him.dominance)
  exact Nat.lt_of_le_of_ne hle him.ne

private theorem mem_preorder_iff {n : Nat} :
    n ∈ (g.dominators entry).preorder ↔ g.Reaches entry n := by
  rw [preorder_dominators, mem_dfs_iff]

private theorem ordered_dominators (hg : g.WF) (entry : Nat) : (g.dominators entry).Ordered where
  nodup := nodup_preorder
  mem_iff n := by rw [mem_preorder_iff, isReachable_dominators_iff]
  lt_nodeCount n hn := by
    obtain ⟨p, hp⟩ := mem_preorder_iff.mp hn
    rw [nodeCount_dominators]
    exact hp.lt_right
  idom_mem n d hd := by
    rw [mem_preorder_iff]
    exact ((idom?_eq_some_iff hg).mp hd).2.2.dominates.reaches_left
  idom_before n d hd := by
    obtain ⟨w, hpos, hw, rfl, rfl⟩ := idom?_dominators_iff.mp hd
    have hlt := idoms_lt hg hpos hw
    rwa [idxOf_preorder hw, idxOf_preorder (Nat.lt_trans hlt hw)]

/-- The views of the dominator tree agree, for every entry: the order lists every node after its
immediate dominator, the chain of a reached node climbs from it to the entry without repetition,
sets and depths are those of the chains, and dominance is a partial order on the reached nodes. -/
theorem dominator_views_agree (hg : g.Built) (entry : Nat) :
    let t := g.dominators entry
    (t.preorder.Nodup ∧ ∀ n, g.Reaches entry n → n ≠ entry →
      ∃ d, t.idom? n = some d ∧ d ∈ t.preorder ∧ n ∈ t.preorder ∧
        t.preorder.idxOf d < t.preorder.idxOf n) ∧
    (∀ n, g.Reaches entry n → t.Ascends n (t.chain n) ∧ (t.chain n).Nodup ∧
      (t.chain n).head? = some n ∧ (t.chain n).getLast? = some entry) ∧
    (∀ n, ¬g.Reaches entry n → t.chain n = []) ∧
    (t.dominatorSets.size = g.size ∧ ∀ n a, a ∈ t.dominatorSets[n]?.getD ∅ ↔ a ∈ t.chain n) ∧
    (∀ n, t.depth n = (t.chain n).length - 1 ∧
      ∀ d, t.idom? n = some d → t.depth n = t.depth d + 1) ∧
    (∀ n, t.dominates n n = true ↔ g.Reaches entry n) ∧
    (∀ a b c, t.dominates a b = true → t.dominates b c = true → t.dominates a c = true) ∧
    (∀ a b, t.dominates a b = true → t.dominates b a = true → a = b) := by
  have h := ordered_dominators hg.wf entry
  have hmem (n : Nat) : n ∈ (g.dominators entry).preorder ↔ g.Reaches entry n :=
    mem_preorder_iff
  refine ⟨⟨h.nodup, fun n hn hne ↦ ?_⟩, fun n hn ↦ ?_,
    fun n hn ↦ h.chain_eq_nil (mt (hmem n).mp hn),
    ⟨h.filled_dominatorSets.size.trans nodeCount_dominators, h.mem_dominatorSets⟩,
    fun n ↦ ⟨rfl, fun d ↦ h.depth_of_idom?⟩, fun n ↦ h.dominates_self_iff.trans (hmem n),
    fun a b c ↦ h.dominates_trans, fun a b ↦ h.dominates_antisymm⟩
  · have hpre := (hmem n).mpr hn
    cases hd : (g.dominators entry).idom? n with
    | none => exact absurd (h.eq_entry hpre hd) hne
    | some d => exact ⟨d, rfl, h.idom_mem n d hd, hpre, h.idom_before n d hd⟩
  · have hpre := (hmem n).mpr hn
    have hway := h.ascends_chain hpre
    exact ⟨hway, h.nodup_of_ascends hway, hway.head?_eq, h.getLast?_of_ascends hway hpre⟩

/-- The chain, the sets and the order of the tree of `crossing` all place the entry above the node
where the arms meet, and skip both arms. -/
theorem crossing_views :
    crossing.Built ∧ crossing.Reaches 0 3 ∧ (crossing.dominators 0).chain 3 = [3, 0] ∧
      3 ∈ (crossing.dominators 0).dominatorSets[3]?.getD ∅ ∧
      1 ∉ (crossing.dominators 0).dominatorSets[3]?.getD ∅ ∧
      (crossing.dominators 0).preorder.idxOf 0 < (crossing.dominators 0).preorder.idxOf 3 ∧
      ¬crossing.Reaches 0 4 ∧ (crossing.dominators 0).chain 4 = [] := by
  obtain ⟨⟨_, horder⟩, _, hnone, ⟨_, hsets⟩, _, hself, _⟩ := dominator_views_agree crossing_built 0
  have hchain : (crossing.dominators 0).chain 3 = [3, 0] := by decide +kernel
  have hreach : crossing.Reaches 0 3 := (hself 3).mp (by decide +kernel)
  have hout : ¬crossing.Reaches 0 4 := fun h ↦ absurd ((hself 4).mpr h) (by decide +kernel)
  obtain ⟨d, hd, _, _, hlt⟩ := horder 3 hreach (by decide)
  obtain rfl : d = 0 := Option.some.inj (hd.symm.trans (by decide +kernel))
  refine ⟨crossing_built, hreach, hchain, ?_, ?_, hlt, hout, hnone 4 hout⟩
  · rw [hsets, hchain]
    decide
  · rw [hsets, hchain]
    decide

end Bytecode.Digraph
