/-!
# Depth-first trees

The numbers below `size` are the nodes of a graph in the order in which a depth-first search met
them; `0` is the root and `parent` gives the tree edges. Two facts make the numbering a preorder:
the parent of a number lies above the number just before it, and an edge to a larger number leads
down the tree. From them, the numbers below a node form an interval, and a path that starts at a
number and meets no smaller one stays below it in the tree.
-/

namespace Bytecode

/-- `a` is `b`, or lies on the way from `b` up to the root. -/
inductive Above (parent : Nat → Nat) (a : Nat) : Nat → Prop
  | refl : Above parent a a
  | step {b : Nat} : 0 < b → Above parent a (parent b) → Above parent a b

/-- The numbers below `size` with the edges `E` between them are numbered depth first. -/
structure DepthFirst (size : Nat) (E : Nat → Nat → Prop) (parent : Nat → Nat) : Prop where
  edge_lt : ∀ u v, E u v → u < size ∧ v < size
  parent_lt : ∀ w, 0 < w → w < size → parent w < w
  parent_edge : ∀ w, 0 < w → w < size → E (parent w) w
  parent_above : ∀ w, 0 < w → w < size → Above parent (parent w) (w - 1)
  forward : ∀ u v, E u v → u < v → Above parent u v

/-- What is above an ancestor is above. -/
theorem Above.trans {parent : Nat → Nat} {a b c : Nat} (hab : Above parent a b)
    (hbc : Above parent b c) : Above parent a c := by
  induction hbc with
  | refl => exact hab
  | step hc _ ih => exact .step hc ih

/-- Strictly below a node there is a parent to go up to. -/
theorem Above.to_parent {parent : Nat → Nat} {a b : Nat} (h : Above parent a b) (hne : a ≠ b) :
    0 < b ∧ Above parent a (parent b) := by
  cases h with
  | refl => exact absurd rfl hne
  | step hb hp => exact ⟨hb, hp⟩

/-- The way down from a node starts with one of its children. -/
theorem Above.exists_child {parent : Nat → Nat} {a b : Nat} (h : Above parent a b) (hne : a ≠ b) :
    ∃ c, 0 < c ∧ parent c = a ∧ Above parent c b := by
  induction h with
  | refl => exact absurd rfl hne
  | @step b hb _ ih =>
    by_cases hp : a = parent b
    · exact ⟨b, hb, hp.symm, .refl⟩
    · obtain ⟨c, hc, hca, hcb⟩ := ih hp
      exact ⟨c, hc, hca, .step hb hcb⟩

namespace DepthFirst

variable {size : Nat} {E : Nat → Nat → Prop} {parent : Nat → Nat} {a b c x y : Nat}

/-- Ancestors have smaller numbers. -/
theorem le_of_above (T : DepthFirst size E parent) (hb : b < size) (h : Above parent a b) :
    a ≤ b := by
  induction h with
  | refl => exact Nat.le_refl a
  | @step b hpos _ ih =>
    have hp := T.parent_lt b hpos hb
    have := ih (by omega)
    omega

/-- The root is above every number. -/
theorem zero_above (T : DepthFirst size E parent) (hb : b < size) : Above parent 0 b := by
  induction b using Nat.strongRecOn with
  | ind b ih =>
    by_cases h : b = 0
    · subst h
      exact .refl
    · have hp := T.parent_lt b (by omega) hb
      exact .step (by omega) (ih (parent b) hp (by omega))

/-- The numbers below a node form an interval. -/
theorem above_of_between (T : DepthFirst size E parent) (hb : b < size) (h : Above parent a b)
    (hac : a ≤ c) (hcb : c ≤ b) : Above parent a c := by
  induction b with
  | zero =>
    obtain rfl : c = 0 := by omega
    exact h
  | succ b ih =>
    by_cases hc : c = b + 1
    · rw [hc]
      exact h
    · -- One step back in the numbering: the parent of `b + 1` lies above `b`.
      have hp := (h.to_parent (by omega)).2
      exact ih (by omega) (hp.trans (T.parent_above (b + 1) (by omega) hb)) (by omega)

/-- The nodes above a common one lie above each other, in the order of their numbers. -/
theorem above_of_le (T : DepthFirst size E parent) (hc : c < size) (ha : Above parent a c)
    (hb : Above parent b c) (hab : a ≤ b) : Above parent a b :=
  T.above_of_between hc ha hab (T.le_of_above hc hb)

/-- An edge that leads to no number smaller than `a` does not leave the subtree of `a`. -/
theorem above_of_edge (T : DepthFirst size E parent) (h : Above parent a x) (he : E x y)
    (hy : a ≤ y) : Above parent a y := by
  by_cases hxy : x < y
  · exact h.trans (T.forward x y he hxy)
  · exact T.above_of_between (T.edge_lt x y he).1 h hy (by omega)

/-- Every number comes down from the child of a node above it. A child that is no larger than a
number below another child of the same parent is no larger than that child. -/
theorem le_child (T : DepthFirst size E parent) (hx : x < size) {w : Nat} (hw : 0 < w)
    (hwx : w ≤ x) (hp : Above parent (parent w) y) (hne : parent w ≠ y) (hy : Above parent y x) :
    w ≤ y := by
  rcases Nat.lt_or_ge y w with hlt | hle
  · -- Here `w` lies between `y` and `x`, hence below `y`, and so does its parent.
    have hyw : Above parent y w := T.above_of_between hx hy (by omega) hwx
    have hyp := (hyw.to_parent (by omega)).2
    have hpw := T.parent_lt w hw (by omega)
    have h1 := T.le_of_above (by omega) hp
    have h2 := T.le_of_above (by omega) hyp
    omega
  · exact hle

end DepthFirst

end Bytecode
