import Bytecode.Proofs.Graph.DepthFirst

/-!
# Semidominators

Over the numbers of a depth-first tree, the semidominator of `w` is the smallest number from which
a path leads to `w` through larger numbers only. Dominance can be read off from semidominators: `d`
dominates `w` exactly when it lies above `w` in the tree and no node on the way from `d` down to
`w` has a semidominator smaller than `d`. Immediate dominators follow by comparing numbers on the
tree.
-/

namespace Bytecode

/-- A path of at least one edge leads from a number to `w`, and its inner numbers exceed `w`. -/
inductive Through (E : Nat → Nat → Prop) (w : Nat) : Nat → Prop
  | edge {v : Nat} : E v w → Through E w v
  | step {v x : Nat} : E v x → w < x → Through E w x → Through E w v

/-- `s` is the smallest number from which `w` is reached through larger numbers only. -/
def IsSemidominator (E : Nat → Nat → Prop) (w s : Nat) : Prop :=
  Through E w s ∧ ∀ v, Through E w v → s ≤ v

/-- A path from a number to `w` does not meet `d`. -/
inductive Evades (E : Nat → Nat → Prop) (d w : Nat) : Nat → Prop
  | here : w ≠ d → Evades E d w w
  | step {v x : Nat} : v ≠ d → E v x → Evades E d w x → Evades E d w v

/-- Every path from the root to `w` meets `d`. -/
def Dominance (E : Nat → Nat → Prop) (d w : Nat) : Prop := ¬Evades E d w 0

/-- `d` is the strict dominator of `w` that all strict dominators of `w` dominate. -/
structure IsImmediate (E : Nat → Nat → Prop) (d w : Nat) : Prop where
  ne : d ≠ w
  dominance : Dominance E d w
  least : ∀ c, c ≠ w → Dominance E c w → Dominance E c d

namespace DepthFirst

variable {size : Nat} {E : Nat → Nat → Prop} {parent : Nat → Nat} {d u v w x : Nat}

/-! ### Paths through larger numbers -/

/-- A path through larger numbers runs between numbers in range. -/
theorem lt_of_through (T : DepthFirst size E parent) (h : Through E w v) :
    v < size ∧ w < size := by
  induction h with
  | edge he => exact T.edge_lt _ _ he
  | step he _ _ ih => exact ⟨(T.edge_lt _ _ he).1, ih.2⟩

private theorem above_of_through_below (T : DepthFirst size E parent) (h : Through E w x)
    (hx : Above parent v x) (hw : v ≤ w) : Above parent v w := by
  induction h with
  | edge he => exact T.above_of_edge hx he hw
  | step he hlt _ ih => exact ih (T.above_of_edge hx he (by omega))

/-- A path through larger numbers from a smaller one comes from above. -/
theorem above_of_through (T : DepthFirst size E parent) (h : Through E w v) (hw : v ≤ w) :
    Above parent v w :=
  T.above_of_through_below h .refl hw

/-- A path through larger numbers is an edge, or enters `w` from a node below some `u > w` which is
itself reached through larger numbers. -/
theorem through_cases (T : DepthFirst size E parent) (h : Through E w v) :
    E v w ∨ ∃ p u, E p w ∧ w < u ∧ Above parent u p ∧ Through E u v := by
  induction h with
  | edge he => exact .inl he
  | @step v x he hlt _ ih =>
    rcases ih with hxw | ⟨p, u, hp, hu, hup, hux⟩
    · exact .inr ⟨x, x, hxw, hlt, .refl, .edge he⟩
    · by_cases hxu : u < x
      · exact .inr ⟨p, u, hp, hu, hup, .step he hxu hux⟩
      · -- Here `x ≤ u`, so `x` is above `u` and can take its place.
        have hxu' := T.above_of_through hux (by omega)
        exact .inr ⟨p, x, hp, hlt, hxu'.trans hup, .edge he⟩

private theorem through_up (T : DepthFirst size E parent) (hp : Above parent u x) (hw : w < u)
    (hx : x < size) (h : Through E w x) : Through E w u := by
  induction hp with
  | refl => exact h
  | @step x hpos hup ih =>
    have hlt := T.parent_lt x hpos hx
    have hle := T.le_of_above (by omega) hup
    exact ih (by omega) (.step (T.parent_edge x hpos hx) (by omega) h)

/-- A path to some `u > w` goes on down the tree and by an edge to `w`. -/
theorem through_of_above (T : DepthFirst size E parent) (hu : Through E u v) (hw : w < u)
    (hp : Above parent u x) (he : E x w) : Through E w v := by
  have down : Through E w u := T.through_up hp hw (T.edge_lt x w he).1 (.edge he)
  induction hu with
  | edge h => exact .step h hw down
  | step h hlt _ ih => exact .step h (by omega) ih

/-- The semidominator lies above, strictly. -/
theorem semidominator_above (T : DepthFirst size E parent) {s : Nat} (hpos : 0 < w)
    (hw : w < size) (h : IsSemidominator E w s) : s < w ∧ Above parent s w := by
  have hle := h.2 (parent w) (.edge (T.parent_edge w hpos hw))
  have hlt := T.parent_lt w hpos hw
  exact ⟨by omega, T.above_of_through h.1 (by omega)⟩

/-! ### Dominance from semidominators -/

private theorem evades_down (T : DepthFirst size E parent) (h : Above parent u x) (hx : x < size)
    (hd : ∀ y, Above parent u y → Above parent y x → y ≠ d) (he : Evades E d w x) :
    Evades E d w u := by
  induction h with
  | refl => exact he
  | @step x hpos hup ih =>
    have hlt := T.parent_lt x hpos hx
    have hne := hd (parent x) hup (.step hpos .refl)
    exact ih (by omega) (fun y huy hyx ↦ hd y huy (.step hpos hyx))
      (.step hne (T.parent_edge x hpos hx) he)

private theorem evades_through (h : Through E u v) (hu : d < u) (hv : v ≠ d)
    (he : Evades E d w u) : Evades E d w v := by
  induction h with
  | edge hvu => exact .step hv hvu he
  | step hvx hux _ ih => exact .step hv hvx (ih (by omega))

/-- What dominates a node lies above it. -/
theorem above_of_dominance (T : DepthFirst size E parent) (hw : w < size)
    (h : Dominance E d w) : Above parent d w := by
  apply Classical.byContradiction
  intro hn
  have hd (y : Nat) (hy : Above parent y w) : y ≠ d := fun he ↦ hn (he ▸ hy)
  exact h (T.evades_down (T.zero_above hw) hw (fun y _ hy ↦ hd y hy) (.here (hd w .refl)))

/-- No node between a dominator and the node it dominates is entered from a smaller number. -/
theorem le_of_dominance (T : DepthFirst size E parent) (hw : w < size) (h : Dominance E d w)
    (hdx : d < x) (hx : Above parent x w) (hv : Through E x v) : d ≤ v := by
  rcases Nat.lt_or_ge v d with hlt | hle
  · -- Down the tree to `v`, through larger numbers to `x`, down the tree to `w`.
    have hvs := (T.lt_of_through hv).1
    have hxw := T.le_of_above hw hx
    have h3 : Evades E d w x := by
      apply T.evades_down hx hw _ (.here (by omega))
      intro y hxy hyw
      have := T.le_of_above (by have := T.le_of_above hw hyw; omega) hxy
      omega
    have h2 : Evades E d w v := evades_through hv hdx (by omega) h3
    have h1 : Evades E d w 0 := by
      apply T.evades_down (T.zero_above hvs) hvs _ h2
      intro y _ hyv
      have := T.le_of_above hvs hyv
      omega
    exact absurd h1 h
  · exact hle

-- A path to `w` that evades `d` meets only numbers beyond `d`: from each of them, the first node
-- between `d` and `w` that the path meets is reached through larger numbers.
private theorem evades_beyond (T : DepthFirst size E parent) (hw : w < size)
    (hd : Above parent d w)
    (hs : ∀ x, d < x → Above parent x w → ∀ v, Through E x v → d ≤ v) (h : Evades E d w v) :
    ∃ x, d < x ∧ Above parent x w ∧ x ≤ v ∧ (v = x ∨ Through E x v) := by
  induction h with
  | here hne =>
    have := T.le_of_above hw hd
    exact ⟨w, by omega, .refl, Nat.le_refl w, .inl rfl⟩
  | @step v y hv he _ ih =>
    obtain ⟨x, hdx, hx, hxy, hyx⟩ := ih
    have hthrough : Through E x v := by
      rcases hyx with rfl | hyx
      · exact .edge he
      · by_cases hxy' : y = x
        · subst hxy'
          exact .edge he
        · exact .step he (by omega) hyx
    have hdv := hs x hdx hx v hthrough
    by_cases hxv : x ≤ v
    · exact ⟨x, hdx, hx, hxv, .inr hthrough⟩
    · exact ⟨v, by omega, (T.above_of_through hthrough (by omega)).trans hx, Nat.le_refl v,
        .inl rfl⟩

/-- Dominance in terms of the tree and of paths through larger numbers. -/
theorem dominance_iff (T : DepthFirst size E parent) (hw : w < size) :
    Dominance E d w ↔ Above parent d w ∧
      ∀ x, d < x → Above parent x w → ∀ v, Through E x v → d ≤ v := by
  constructor
  · intro h
    exact ⟨T.above_of_dominance hw h, fun x hdx hx v hv ↦ T.le_of_dominance hw h hdx hx hv⟩
  · rintro ⟨hd, hs⟩ he
    obtain ⟨x, hdx, _, hx0, _⟩ := T.evades_beyond hw hd hs he
    omega

/-- Every number dominates itself. -/
theorem dominance_self (T : DepthFirst size E parent) (hw : w < size) : Dominance E w w := by
  rw [T.dominance_iff hw]
  refine ⟨.refl, ?_⟩
  intro x hwx hx
  have := T.le_of_above hw hx
  omega

private theorem dominance_trans (T : DepthFirst size E parent) (hw : w < size)
    (hdu : Dominance E d u) (huw : Dominance E u w) : Dominance E d w := by
  obtain ⟨hu, hus⟩ := (T.dominance_iff hw).mp huw
  have hule := T.le_of_above hw hu
  obtain ⟨hd, hds⟩ := (T.dominance_iff (by omega)).mp hdu
  have hdle := T.le_of_above (by omega) hd
  rw [T.dominance_iff hw]
  refine ⟨hd.trans hu, ?_⟩
  intro x hdx hx v hv
  rcases Nat.lt_or_ge u x with hux | hxu
  · exact Nat.le_trans hdle (hus x hux hx v hv)
  · exact hds x hdx (T.above_of_le hw hx hu hxu) v hv

/-- The dominators of a node are the node and the dominators of its immediate one. -/
theorem dominance_iff_of_immediate (T : DepthFirst size E parent) (hw : w < size)
    (h : IsImmediate E u w) : Dominance E d w ↔ d = w ∨ Dominance E d u := by
  constructor
  · intro hd
    by_cases hdw : d = w
    · exact .inl hdw
    · exact .inr (h.least d hdw hd)
  · rintro (rfl | hd)
    · exact T.dominance_self hw
    · exact T.dominance_trans hw hd h.dominance

/-! ### Immediate dominators -/

section

variable {semi : Nat → Nat} (T : DepthFirst size E parent)
  (hsemi : ∀ w, 0 < w → w < size → IsSemidominator E w (semi w))

include T hsemi

/-- Dominance in terms of the tree and of semidominators. -/
theorem dominance_iff_semi (hw : w < size) :
    Dominance E d w ↔ Above parent d w ∧ ∀ x, d < x → Above parent x w → d ≤ semi x := by
  rw [T.dominance_iff hw]
  refine and_congr_right fun _ ↦ ⟨fun h x hdx hx ↦ ?_, fun h x hdx hx v hv ↦ ?_⟩
  · have hxs := T.le_of_above hw hx
    exact h x hdx hx _ (hsemi x (by omega) (by omega)).1
  · have hxs := T.le_of_above hw hx
    exact Nat.le_trans (h x hdx hx) ((hsemi x (by omega) (by omega)).2 v hv)

/-- A strict dominator is no larger than the semidominator. -/
theorem le_semi_of_dominance (hw : w < size) (hne : d ≠ w) (h : Dominance E d w) :
    d ≤ semi w := by
  obtain ⟨hd, hs⟩ := (T.dominance_iff_semi hsemi hw).mp h
  have := T.le_of_above hw hd
  exact hs w (by omega) .refl

/-- A semidominator with no smaller one below it, on the way to the node, dominates immediately. -/
theorem isImmediate_semi (hpos : 0 < w) (hw : w < size)
    (hmin : ∀ x, semi w < x → Above parent x w → semi w ≤ semi x) :
    IsImmediate E (semi w) w := by
  obtain ⟨hlt, habove⟩ := T.semidominator_above hpos hw (hsemi w hpos hw)
  refine ⟨by omega, (T.dominance_iff_semi hsemi hw).mpr ⟨habove, hmin⟩, ?_⟩
  intro c hc hcw
  obtain ⟨hca, hcs⟩ := (T.dominance_iff_semi hsemi hw).mp hcw
  have hle := T.le_semi_of_dominance hsemi hw hc hcw
  rw [T.dominance_iff_semi hsemi (by omega)]
  exact ⟨T.above_of_le hw hca habove hle, fun x hcx hx ↦ hcs x hcx (hx.trans habove)⟩

/-- A node between the semidominator of `w` and `w` whose own semidominator is least there has the
same strict dominators as `w`. -/
theorem dominance_of_least (hw : w < size) (hu : semi w < u) (huw : Above parent u w)
    (hmin : ∀ x, semi w < x → Above parent x w → semi u ≤ semi x) :
    (d ≠ w ∧ Dominance E d w) ↔ (d ≠ u ∧ Dominance E d u) := by
  have hule := T.le_of_above hw huw
  constructor
  · rintro ⟨hne, h⟩
    obtain ⟨hd, hs⟩ := (T.dominance_iff_semi hsemi hw).mp h
    have hle := T.le_semi_of_dominance hsemi hw hne h
    refine ⟨by omega, (T.dominance_iff_semi hsemi (by omega)).mpr ?_⟩
    exact ⟨T.above_of_le hw hd huw (by omega), fun x hdx hx ↦ hs x hdx (hx.trans huw)⟩
  · rintro ⟨hne, h⟩
    obtain ⟨hd, hs⟩ := (T.dominance_iff_semi hsemi (by omega)).mp h
    have hle := T.le_semi_of_dominance hsemi (by omega) hne h
    have hdu := T.le_of_above (by omega) hd
    refine ⟨by omega, (T.dominance_iff_semi hsemi hw).mpr ⟨hd.trans huw, ?_⟩⟩
    intro x hdx hx
    -- Above `u` the dominator of `u` decides, from `u` down the choice of `u` does.
    rcases Nat.lt_or_ge u x with hux | hxu
    · exact Nat.le_trans hle (hmin x (by omega) hx)
    · exact hs x hdx (T.above_of_le hw hx huw hxu)

/-- Such a node has the same immediate dominator as `w`. -/
theorem isImmediate_of_least (hw : w < size) (hu : semi w < u) (huw : Above parent u w)
    (hmin : ∀ x, semi w < x → Above parent x w → semi u ≤ semi x) (h : IsImmediate E d u) :
    IsImmediate E d w := by
  have hiff (c : Nat) := T.dominance_of_least hsemi (d := c) hw hu huw hmin
  obtain ⟨hne, hdom⟩ := (hiff d).mpr ⟨h.ne, h.dominance⟩
  refine ⟨hne, hdom, ?_⟩
  intro c hc hcw
  obtain ⟨hcu, hcd⟩ := (hiff c).mp ⟨hc, hcw⟩
  exact h.least c hcu hcd

end

end DepthFirst

end Bytecode
