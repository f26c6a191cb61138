import Bytecode.Graph.Dominators
import Bytecode.Proofs.Graph.LinkForest
import Mathlib.Data.Nat.Find

/-!
# The computation of immediate dominators

Nodes are taken in reverse preorder. `Semidominators.Progress` is the state of affairs once the
numbers from `bound` on were taken: their candidates are their semidominators, and each of them is
settled or waits in the bucket of its semidominator until the child of that node above it is taken.
A settled node has its immediate dominator, or defers to a smaller node with the same one; the last
pass, in preorder, replaces what was deferred.
-/

namespace Bytecode

variable {size bound : Nat} {E : Nat → Nat → Prop} {parent : Nat → Nat} {semi : Nat → Nat}

/-- Every number but the root has a semidominator. -/
theorem DepthFirst.exists_semi (T : DepthFirst size E parent) :
    ∃ semi : Nat → Nat, ∀ w, 0 < w → w < size → IsSemidominator E w (semi w) := by
  classical
  have hex (w : Nat) (hpos : 0 < w) (hw : w < size) : ∃ v, Through E w v :=
    ⟨parent w, .edge (T.parent_edge w hpos hw)⟩
  refine ⟨fun w ↦ if h : ∃ v, Through E w v then Nat.find h else 0, ?_⟩
  intro w hpos hw
  have h := hex w hpos hw
  simp only [h, ↓reduceDIte]
  exact ⟨Nat.find_spec h, fun v hv ↦ Nat.find_min' h hv⟩

namespace Semidominators

/-! ### The candidates of the predecessors -/

/-- What is known of the candidate of `w` once the predecessors in `done` were considered. -/
structure Considered (E : Nat → Nat → Prop) (parent : Nat → Nat) (size : Nat) (semi : Nat → Nat)
    (w : Nat) (done : List Nat) (F : LinkForest) : Prop where
  forest : F.Linked parent size (w + 1)
  taken : ∀ v, w < v → v < size → F.semiOf v = semi v
  untaken : ∀ v, v < w → F.semiOf v = v
  reached : F.semiOf w = w ∨ Through E w (F.semiOf w)
  le_pred : ∀ v ∈ done, v < w → F.semiOf w ≤ v
  le_semi : ∀ v ∈ done, ∀ x, w < x → Above parent x v → F.semiOf w ≤ semi x

section

variable (T : DepthFirst size E parent)
  (hsemi : ∀ w, 0 < w → w < size → IsSemidominator E w (semi w))

include T

private theorem semiOf_consider {F : LinkForest} {w v : Nat} (h : F.Linked parent size (w + 1))
    (hw : w < size) (hv : v < size) (x : Nat) :
    (consider w F v).semiOf x =
      if x = w then min (F.semiOf w) (F.semiOf (F.eval v).1) else F.semiOf x := by
  obtain ⟨hl, hs⟩ := h.eval T hv
  have hsemi (y : Nat) : (F.eval v).2.semiOf y = F.semiOf y := by
    rw [LinkForest.semiOf, hs, LinkForest.semiOf]
  have hsize : w < (F.eval v).2.semi.size := by
    rw [hl.semi_size]
    exact hw
  simp only [consider]
  rw [LinkForest.semiOf_lowerSemi _ w _ x hsize, hsemi, hsemi, hsemi]

include hsemi

-- The candidate that a predecessor brings: itself if it is smaller, and otherwise the least
-- semidominator of the nodes above it that were taken.
private theorem Considered.candidate {F : LinkForest} {w v : Nat} {done : List Nat}
    (h : Considered E parent size semi w done F) (he : E v w) :
    (v = w ∧ F.semiOf (F.eval v).1 = F.semiOf w ∨ Through E w (F.semiOf (F.eval v).1)) ∧
      (v < w → F.semiOf (F.eval v).1 = v) ∧
      ∀ x, w < x → Above parent x v → F.semiOf (F.eval v).1 ≤ semi x := by
  obtain ⟨hv, hw⟩ := T.edge_lt v w he
  rcases Nat.lt_or_ge w v with hwv | hvw
  · obtain ⟨hu, huv, hmin⟩ := h.forest.eval_linked T hwv hv
    have hus := T.le_of_above hv huv
    have htaken := h.taken (F.eval v).1 (by omega) (by omega)
    refine ⟨.inr ?_, by omega, ?_⟩
    · rw [htaken]
      exact T.through_of_above (hsemi _ (by omega) (by omega)).1 (by omega) huv he
    · intro x hx hxv
      have hxs := T.le_of_above hv hxv
      rw [← h.taken x hx (by omega)]
      exact hmin x (by omega) hxv
  · have heval := h.forest.eval_unlinked (v := v) (by omega)
    rw [heval]
    refine ⟨?_, h.untaken v, ?_⟩
    · by_cases hvw' : v = w
      · exact .inl ⟨hvw', by rw [hvw']⟩
      · rw [h.untaken v (by omega)]
        exact .inr (.edge he)
    · intro x hx hxv
      have := T.le_of_above hv hxv
      omega

-- One more predecessor is considered.
private theorem Considered.consider {F : LinkForest} {w v : Nat} {done : List Nat}
    (h : Considered E parent size semi w done F) (he : E v w) :
    Considered E parent size semi w (v :: done) (consider w F v) := by
  obtain ⟨hv, hw⟩ := T.edge_lt v w he
  obtain ⟨hreach, hself, hle⟩ := h.candidate T hsemi he
  have hsemiOf := semiOf_consider T h.forest hw hv
  have hat := hsemiOf w
  rw [if_pos rfl] at hat
  refine ⟨(h.forest.eval T hv).1.lowerSemi _ (by omega) hw, ?_, ?_, ?_, ?_, ?_⟩
  · intro x hx hxs
    rw [hsemiOf, if_neg (by omega)]
    exact h.taken x hx hxs
  · intro x hx
    rw [hsemiOf, if_neg (by omega)]
    exact h.untaken x hx
  · rw [hat]
    rcases Nat.le_total (F.semiOf w) (F.semiOf (F.eval v).1) with hm | hm
    · rw [Nat.min_eq_left hm]
      exact h.reached
    · rw [Nat.min_eq_right hm]
      rcases hreach with ⟨_, heq⟩ | hthrough
      · rw [heq]
        exact h.reached
      · exact .inr hthrough
  · intro x hx hxw
    rw [hat]
    rcases List.mem_cons.mp hx with rfl | hx
    · rw [hself hxw]
      exact Nat.min_le_right _ _
    · exact Nat.le_trans (Nat.min_le_left _ _) (h.le_pred x hx hxw)
  · intro x hx y hy hyx
    rw [hat]
    rcases List.mem_cons.mp hx with rfl | hx
    · exact Nat.le_trans (Nat.min_le_right _ _) (hle y hy hyx)
    · exact Nat.le_trans (Nat.min_le_left _ _) (h.le_semi x hx y hy hyx)

private theorem Considered.foldl {w : Nat} (preds : List Nat) {F : LinkForest} {done : List Nat}
    (h : Considered E parent size semi w done F) (he : ∀ v ∈ preds, E v w) :
    Considered E parent size semi w (preds.reverse ++ done)
      (preds.foldl (Semidominators.consider w) F) := by
  induction preds generalizing F done with
  | nil => exact h
  | cons v rest ih =>
    rw [List.foldl_cons, List.reverse_cons, List.append_assoc]
    apply ih (h.consider T hsemi (he v List.mem_cons_self))
    intro x hx
    exact he x (List.mem_cons_of_mem v hx)

-- Once all predecessors are considered, the candidate is the semidominator.
private theorem Considered.semiOf_eq {F : LinkForest} {w : Nat} {done : List Nat}
    (h : Considered E parent size semi w done F) (hpos : 0 < w) (hw : w < size)
    (hall : ∀ v, E v w → v ∈ done) : F.semiOf w = semi w := by
  have hs := hsemi w hpos hw
  have hedge := T.parent_edge w hpos hw
  have hlt := T.parent_lt w hpos hw
  have hle := h.le_pred (parent w) (hall _ hedge) hlt
  apply Nat.le_antisymm
  · have hsw := (T.semidominator_above hpos hw hs).1
    rcases T.through_cases hs.1 with he | ⟨p, u, hp, hu, hup, hthrough⟩
    · exact h.le_pred (semi w) (hall _ he) hsw
    · have hus := (T.lt_of_through hthrough).2
      have hsu := (hsemi u (by omega) hus).2 (semi w) hthrough
      exact Nat.le_trans (h.le_semi p (hall p hp) u hu hup) hsu
  · rcases h.reached with he | hthrough
    · omega
    · exact hs.2 _ hthrough

end

/-! ### Settling -/

/-- The unsettled nodes with semidominator `p`. -/
def bucket (S : Semidominators) (p : Nat) : List Nat := S.buckets[p]?.getD []

/-- The dominator recorded for a node, which may be deferred. -/
def idomOf (S : Semidominators) (v : Nat) : Nat := S.idom[v]?.getD 0

/-- The number recorded for `v` is its immediate dominator, which is then its semidominator, or a
smaller node, between the two, that has the same one. -/
def Settled (E : Nat → Nat → Prop) (parent semi : Nat → Nat) (v d : Nat) : Prop :=
  d = semi v ∧ IsImmediate E d v ∨
    semi v < d ∧ d < v ∧ Above parent d v ∧ ∀ x, semi v < x → Above parent x v → semi d ≤ semi x

/-- What settling nodes does: the candidates and buckets stay, and what is settled stays so. -/
structure Settles (E : Nat → Nat → Prop) (parent : Nat → Nat) (size bound : Nat)
    (semi : Nat → Nat) (S S' : Semidominators) : Prop where
  forest : S'.forest.Linked parent size bound
  semi_eq : S'.forest.semi = S.forest.semi
  buckets_eq : S'.buckets = S.buckets
  idom_size : S'.idom.size = S.idom.size
  settled : ∀ v, Settled E parent semi v (S.idomOf v) → Settled E parent semi v (S'.idomOf v)

private theorem idomOf_settle (p : Nat) (S : Semidominators) (v x : Nat) (hv : v < S.idom.size) :
    (settle p S v).idomOf x =
      if x = v then
        if (S.forest.eval v).2.semiOf (S.forest.eval v).1 < (S.forest.eval v).2.semiOf v then
          (S.forest.eval v).1
        else p
      else S.idomOf x := by
  simp only [settle, idomOf]
  by_cases h : x = v
  · subst h
    simp [hv]
  · rw [Array.getElem?_setIfInBounds_ne (Ne.symm h), if_neg h]

section

variable (T : DepthFirst size E parent)
  (hsemi : ∀ w, 0 < w → w < size → IsSemidominator E w (semi w))

include T hsemi

-- Settling a node whose semidominator is the parent of the number that was just linked.
private theorem settles_settle {S : Semidominators} {w v : Nat} (hpos : 0 < w)
    (hf : S.forest.Linked parent size w) (hs : ∀ x, w ≤ x → x < size → S.forest.semiOf x = semi x)
    (hi : S.idom.size = size) (hwv : w ≤ v) (hv : v < size) (hp : semi v = parent w) :
    Settles E parent size w semi S (settle (parent w) S v) ∧
      Settled E parent semi v ((settle (parent w) S v).idomOf v) := by
  obtain ⟨hl, hse⟩ := hf.eval T hv
  obtain ⟨hu, huv, hmin⟩ := hf.eval_linked T hwv hv
  have hul := T.le_of_above hv huv
  have hsemiOf (x : Nat) (hx : w ≤ x) (hxs : x < size) :
      (S.forest.eval v).2.semiOf x = semi x := by
    rw [LinkForest.semiOf, hse]
    exact hs x hx hxs
  have hplt := T.parent_lt w hpos (by omega)
  obtain ⟨hslt, hsab⟩ := T.semidominator_above (by omega) hv (hsemi v (by omega) hv)
  -- The nodes between the semidominator and `v` are the linked nodes above `v`.
  have hlinked (x : Nat) (hx : semi v < x) (hxv : Above parent x v) : w ≤ x := by
    have hpx : Above parent (parent w) x := by
      rw [← hp]
      exact T.above_of_le hv hsab hxv (by omega)
    exact T.le_child hv hpos hwv hpx (by omega) hxv
  have hleast (x : Nat) (hx : semi v < x) (hxv : Above parent x v) :
      semi (S.forest.eval v).1 ≤ semi x := by
    have hwx := hlinked x hx hxv
    have hxs := T.le_of_above hv hxv
    rw [← hs x hwx (by omega), ← hs _ hu (by omega)]
    exact hmin x hwx hxv
  have hself : Settled E parent semi v ((settle (parent w) S v).idomOf v) := by
    rw [idomOf_settle _ S v v (by omega), if_pos rfl, hsemiOf _ hu (by omega), hsemiOf v hwv hv]
    split
    · next hless =>
      refine .inr ⟨by omega, ?_, huv, hleast⟩
      have hne : (S.forest.eval v).1 ≠ v := by
        intro he
        rw [he] at hless
        omega
      omega
    · next hless =>
      refine .inl ⟨hp.symm, ?_⟩
      rw [← hp]
      apply T.isImmediate_semi hsemi (by omega) hv
      intro x hx hxv
      have := hleast x hx hxv
      omega
  refine ⟨⟨hl, hse, rfl, by simp [settle], ?_⟩, hself⟩
  intro x hx
  by_cases hxv : x = v
  · subst hxv
    exact hself
  · rw [idomOf_settle _ S v x (by omega), if_neg hxv]
    exact hx

private theorem settles_foldl {w : Nat} (hpos : 0 < w) (vs : List Nat) {S : Semidominators}
    (hf : S.forest.Linked parent size w) (hs : ∀ x, w ≤ x → x < size → S.forest.semiOf x = semi x)
    (hi : S.idom.size = size)
    (hvs : ∀ v ∈ vs, w ≤ v ∧ v < size ∧ semi v = parent w) :
    Settles E parent size w semi S (vs.foldl (settle (parent w)) S) ∧
      ∀ v ∈ vs, Settled E parent semi v ((vs.foldl (settle (parent w)) S).idomOf v) := by
  induction vs generalizing S with
  | nil => exact ⟨⟨hf, rfl, rfl, rfl, fun _ h ↦ h⟩, by simp⟩
  | cons v rest ih =>
    obtain ⟨hwv, hv, hp⟩ := hvs v List.mem_cons_self
    obtain ⟨h1, hself⟩ := settles_settle T hsemi hpos hf hs hi hwv hv hp
    have hs' (x : Nat) (hx : w ≤ x) (hxs : x < size) :
        (settle (parent w) S v).forest.semiOf x = semi x := by
      rw [LinkForest.semiOf, h1.semi_eq]
      exact hs x hx hxs
    obtain ⟨h2, hrest⟩ := ih h1.forest hs' (h1.idom_size.trans hi)
      (fun x hx ↦ hvs x (List.mem_cons_of_mem v hx))
    refine ⟨⟨h2.forest, h2.semi_eq.trans h1.semi_eq, h2.buckets_eq.trans h1.buckets_eq,
      h2.idom_size.trans h1.idom_size, fun x hx ↦ h2.settled x (h1.settled x hx)⟩, ?_⟩
    intro x hx
    rcases List.mem_cons.mp hx with rfl | hx
    · exact h2.settled x hself
    · exact hrest x hx

end

/-! ### Taking the nodes -/

/-- The state of affairs once exactly the numbers from `bound` on were taken. -/
structure Progress (E : Nat → Nat → Prop) (parent : Nat → Nat) (size : Nat) (semi : Nat → Nat)
    (bound : Nat) (S : Semidominators) : Prop where
  forest : S.forest.Linked parent size bound
  taken : ∀ v, bound ≤ v → v < size → S.forest.semiOf v = semi v
  untaken : ∀ v, v < bound → v < size → S.forest.semiOf v = v
  buckets_size : S.buckets.size = size
  idom_size : S.idom.size = size
  waiting : ∀ p, ∀ v ∈ S.bucket p, bound ≤ v ∧ v < size ∧ semi v = p ∧
    ∀ c, bound ≤ c → parent c = p → ¬Above parent c v
  settled : ∀ v, bound ≤ v → v < size →
    v ∈ S.bucket (semi v) ∨ Settled E parent semi v (S.idomOf v)

private theorem progress_start (E : Nat → Nat → Prop) (parent : Nat → Nat) (size : Nat)
    (semi : Nat → Nat) : Progress E parent size semi size (start size) where
  forest := LinkForest.linked_start parent size
  taken v hle hlt := by omega
  untaken v _ hlt := LinkForest.semiOf_start hlt
  buckets_size := by simp [start]
  idom_size := by simp [start]
  waiting p v hv := by
    simp only [bucket, start, Array.getElem?_replicate] at hv
    split at hv <;> simp at hv
  settled v hle hlt := by omega

private theorem bucket_file (S : Semidominators) (w p : Nat)
    (hp : S.forest.semiOf w < S.buckets.size) :
    (S.file w).bucket p = S.bucket p ++ if p = S.forest.semiOf w then [w] else [] := by
  simp only [bucket, file, Array.getElem?_modify]
  by_cases h : S.forest.semiOf w = p
  · subst h
    simp [hp]
  · simp [h, Ne.symm h]

private theorem bucket_settleBucket (S : Semidominators) (p q : Nat)
    (hb : ((S.bucket p).foldl (settle p) S).buckets = S.buckets) :
    (S.settleBucket p).bucket q = if q = p then [] else S.bucket q := by
  change (((S.bucket p).foldl (settle p) S).buckets.setIfInBounds p [])[q]?.getD [] = _
  rw [hb]
  by_cases h : q = p
  · subst h
    rw [Array.getElem?_setIfInBounds_self]
    split <;> simp
  · rw [Array.getElem?_setIfInBounds_ne (Ne.symm h), if_neg h, bucket]

-- Nobody but `w` itself comes to wait below a child that was taken.
private theorem Progress.waiting_filed {S : Semidominators} {w p v : Nat}
    (h : Progress E parent size semi (w + 1) S) (T : DepthFirst size E parent) (hw : w < size)
    (hv : v ∈ S.bucket p ++ if p = semi w then [w] else []) :
    w ≤ v ∧ v < size ∧ semi v = p ∧
      (p ≠ parent w → ∀ c, w ≤ c → parent c = p → ¬Above parent c v) := by
  rw [List.mem_append] at hv
  rcases hv with hv | hv
  · obtain ⟨h1, h2, h3, h4⟩ := h.waiting p v hv
    refine ⟨by omega, h2, h3, ?_⟩
    intro hp c hc hcp
    by_cases hcw : c = w
    · exact absurd (hcw ▸ hcp.symm) hp
    · exact h4 c (by omega) hcp
  · split at hv
    · next hp =>
      rw [List.mem_singleton] at hv
      subst hv
      refine ⟨Nat.le_refl v, hw, hp.symm, ?_⟩
      intro hpv c hc hcp hcv
      have := T.le_of_above hw hcv
      obtain rfl : c = v := by omega
      exact hpv hcp.symm
    · simp at hv

section

variable (T : DepthFirst size E parent)
  (hsemi : ∀ w, 0 < w → w < size → IsSemidominator E w (semi w))

include T hsemi

-- The state once the candidate of `w` stands, `w` is filed and linked, and nothing is settled.
private theorem Progress.linked {S : Semidominators} {w : Nat} {preds : List Nat}
    (h : Progress E parent size semi (w + 1) S) (hpos : 0 < w) (hw : w < size)
    (hpreds : ∀ v, v ∈ preds ↔ E v w) {F : LinkForest}
    (hF : F = preds.foldl (consider w) S.forest) :
    (F.link (parent w) w).Linked parent size w ∧
      (∀ v, w ≤ v → v < size → (F.link (parent w) w).semiOf v = semi v) ∧
      (∀ v, v < w → v < size → (F.link (parent w) w).semiOf v = v) := by
  have h0 : Considered E parent size semi w [] S.forest :=
    ⟨h.forest, fun v hv hvs ↦ h.taken v hv hvs, fun v hv ↦ h.untaken v (by omega) (by omega),
      .inl (h.untaken w (by omega) hw), by simp, by simp⟩
  have h1 := h0.foldl T hsemi preds (fun v hv ↦ (hpreds v).mp hv)
  have hat := h1.semiOf_eq T hsemi hpos hw (fun v hv ↦ by simpa using (hpreds v).mpr hv)
  rw [← hF] at h1 hat
  refine ⟨h1.forest.link T hpos hw, ?_, ?_⟩
  · intro v hv hvs
    by_cases hvw : v = w
    · subst hvw
      exact hat
    · exact h1.taken v (by omega) hvs
  · intro v hv _
    exact h1.untaken v hv

/-- Taking the next number. -/
theorem Progress.take {S : Semidominators} {w : Nat} {preds : List Nat}
    (h : Progress E parent size semi (w + 1) S) (hpos : 0 < w) (hw : w < size)
    (hpreds : ∀ v, v ∈ preds ↔ E v w) :
    Progress E parent size semi w (S.take w (parent w) preds) := by
  obtain ⟨hl, ht, hu⟩ := h.linked T hsemi hpos hw hpreds rfl
  let F := preds.foldl (consider w) S.forest
  let S₂ : Semidominators := { S with forest := F }
  let S₃ : Semidominators := { S₂.file w with forest := F.link (parent w) w }
  have hsw := (T.semidominator_above hpos hw (hsemi w hpos hw)).1
  have hbucket (p : Nat) : S₃.bucket p = S.bucket p ++ if p = semi w then [w] else [] := by
    have hFw : F.semiOf w = semi w := ht w (Nat.le_refl w) hw
    have := bucket_file S₂ w p (by
      change F.semiOf w < S.buckets.size
      rw [hFw, h.buckets_size]
      omega)
    rw [← hFw]
    exact this
  have hwait (p v : Nat) (hv : v ∈ S₃.bucket p) : w ≤ v ∧ v < size ∧ semi v = p ∧
      (p ≠ parent w → ∀ c, w ≤ c → parent c = p → ¬Above parent c v) :=
    h.waiting_filed T hw (hbucket p ▸ hv)
  obtain ⟨hset, hdone⟩ := settles_foldl T hsemi hpos (S₃.bucket (parent w)) (S := S₃) hl ht
    h.idom_size (fun v hv ↦ ⟨(hwait _ v hv).1, (hwait _ v hv).2.1, (hwait _ v hv).2.2.1⟩)
  have hemptied (q : Nat) : (S₃.settleBucket (parent w)).bucket q =
      if q = parent w then [] else S₃.bucket q :=
    bucket_settleBucket S₃ (parent w) q hset.buckets_eq
  change Progress E parent size semi w (S₃.settleBucket (parent w))
  refine ⟨hset.forest, ?_, ?_, ?_, hset.idom_size.trans h.idom_size, ?_, ?_⟩
  · intro v hv hvs
    change (LinkForest.semiOf ((S₃.bucket (parent w)).foldl (settle (parent w)) S₃).forest v) = _
    rw [LinkForest.semiOf, hset.semi_eq]
    exact ht v hv hvs
  · intro v hv hvs
    change (LinkForest.semiOf ((S₃.bucket (parent w)).foldl (settle (parent w)) S₃).forest v) = _
    rw [LinkForest.semiOf, hset.semi_eq]
    exact hu v hv hvs
  · change
      (((S₃.bucket (parent w)).foldl (settle (parent w)) S₃).buckets.setIfInBounds _ []).size = _
    rw [Array.size_setIfInBounds, hset.buckets_eq]
    simp [S₃, S₂, file, h.buckets_size]
  · intro p v hv
    rw [hemptied] at hv
    split at hv
    · simp at hv
    · next hp =>
      obtain ⟨h1, h2, h3, h4⟩ := hwait p v hv
      exact ⟨h1, h2, h3, h4 hp⟩
  · intro v hv hvs
    change _ ∨ Settled E parent semi v
      (((S₃.bucket (parent w)).foldl (settle (parent w)) S₃).idomOf v)
    rw [hemptied]
    by_cases hin : v ∈ S₃.bucket (semi v)
    · by_cases hp : semi v = parent w
      · rw [hp] at hin
        exact .inr (hdone v hin)
      · rw [if_neg hp]
        exact .inl hin
    · rw [hbucket, List.mem_append, not_or] at hin
      by_cases hvw : v = w
      · subst hvw
        simp at hin
      · exact .inr (hset.settled v ((h.settled v (by omega) hvs).resolve_left hin.1))

-- Taking all numbers but the root settles all of them.
private theorem Progress.settled_all {S : Semidominators} (h : Progress E parent size semi 1 S)
    {v : Nat} (hpos : 0 < v) (hv : v < size) : Settled E parent semi v (S.idomOf v) := by
  rcases h.settled v hpos hv with hin | hs
  · obtain ⟨hlt, habove⟩ := T.semidominator_above hpos hv (hsemi v hpos hv)
    obtain ⟨c, hc, hcp, hcv⟩ := habove.exists_child (by omega)
    exact absurd hcv ((h.waiting _ v hin).2.2.2 c hc hcp)
  · exact hs

end

private theorem progress_takeDown {α : Type} (N : Numbering) (g : Digraph α)
    (T : DepthFirst N.size E N.parentOf)
    (hsemi : ∀ w, 0 < w → w < N.size → IsSemidominator E w (semi w))
    (hpreds : ∀ w, w < N.size → ∀ v, v ∈ N.preds g w ↔ E v w) (w : Nat) {S : Semidominators}
    (hw : w < N.size) (h : Progress E N.parentOf N.size semi (w + 1) S) :
    Progress E N.parentOf N.size semi 1 (takeDown N g w S) := by
  induction w generalizing S with
  | zero => exact h
  | succ w ih =>
    exact ih (by omega) (h.take T hsemi (by omega) hw (hpreds (w + 1) hw))

/-! ### Replacing what was deferred -/

private theorem getD_resolve (sd idom : Array Nat) (w x : Nat) (hw : w < idom.size) :
    (resolve sd idom w)[x]?.getD 0 =
      if x = w ∧ idom[w]?.getD 0 ≠ sd[w]?.getD 0 then idom[idom[w]?.getD 0]?.getD 0
      else idom[x]?.getD 0 := by
  simp only [resolve]
  by_cases hd : idom[w]?.getD 0 = sd[w]?.getD 0
  · simp [hd]
  · by_cases h : x = w
    · subst h
      simp only [hd, ↓reduceIte, ne_eq, not_false_eq_true, and_self]
      rw [Array.getElem?_setIfInBounds_self_of_lt hw, Option.getD_some]
    · simp only [hd, ↓reduceIte, h, false_and]
      rw [Array.getElem?_setIfInBounds_ne (Ne.symm h)]

-- The pass in preorder, from number `w` on.
private theorem isImmediate_foldl_resolve (T : DepthFirst size E parent)
    (hsemi : ∀ w, 0 < w → w < size → IsSemidominator E w (semi w)) {sd : Array Nat}
    (hsd : ∀ v, 0 < v → v < size → sd[v]?.getD 0 = semi v) (n w : Nat) {idom : Array Nat}
    (hn : w + n = size) (hpos : 0 < w) (hi : idom.size = size)
    (hdone : ∀ v, 0 < v → v < w → IsImmediate E (idom[v]?.getD 0) v)
    (hleft : ∀ v, w ≤ v → v < size → Settled E parent semi v (idom[v]?.getD 0)) :
    ∀ v, 0 < v → v < size →
      IsImmediate E (((List.range' w n).foldl (resolve sd) idom)[v]?.getD 0) v := by
  induction n generalizing w idom with
  | zero =>
    intro v hv hvs
    exact hdone v hv (by omega)
  | succ n ih =>
    rw [List.range'_succ, List.foldl_cons]
    have hget := fun x ↦ getD_resolve sd idom w x (by omega)
    have hsize : (resolve sd idom w).size = size := by
      simp only [resolve]
      split
      · exact hi
      · simpa using hi
    apply ih (w + 1) (by omega) (by omega) hsize
    · intro v hv hvw
      rw [hget, hsd w hpos (by omega)]
      by_cases hv' : v = w
      · subst hv'
        rcases hleft v (Nat.le_refl v) (by omega) with ⟨hd, him⟩ | ⟨hlt, hdv, habove, hmin⟩
        · rw [if_neg (by simp [hd])]
          exact him
        · rw [if_pos ⟨rfl, by omega⟩]
          exact T.isImmediate_of_least hsemi (by omega) hlt habove hmin
            (hdone _ (by omega) hdv)
      · rw [if_neg (by simp [hv'])]
        exact hdone v hv (by omega)
    · intro v hv hvs
      rw [hget, if_neg (by omega)]
      exact hleft v (by omega) hvs

/-- The computed dominators are immediate. -/
theorem isImmediate_idoms {α : Type} (N : Numbering) (g : Digraph α)
    (T : DepthFirst N.size E N.parentOf)
    (hpreds : ∀ w, w < N.size → ∀ v, v ∈ N.preds g w ↔ E v w) {v : Nat} (hpos : 0 < v)
    (hv : v < N.size) : IsImmediate E ((idoms N g)[v]?.getD 0) v := by
  obtain ⟨semi, hsemi⟩ := T.exists_semi
  have h := progress_takeDown N g T hsemi hpreds (N.size - 1) (S := start N.size) (by omega) (by
    rw [Nat.sub_add_cancel (by omega)]
    exact progress_start E N.parentOf N.size semi)
  exact isImmediate_foldl_resolve T hsemi (fun v hv hvs ↦ h.taken v hv hvs) (N.size - 1) 1
    (by omega) Nat.one_pos h.idom_size (fun v hv hvs ↦ by omega)
    (fun v hv hvs ↦ h.settled_all T hsemi hv hvs) v hpos hv

end Semidominators

end Bytecode
