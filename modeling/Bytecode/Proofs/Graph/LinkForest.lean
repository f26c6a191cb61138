import Bytecode.Graph.LinkEval
import Bytecode.Proofs.Graph.Semidominator

/-!
# Evaluation in the link-eval forest

`LinkForest.Linked` says what a forest is worth in which exactly the numbers from `bound` on are
linked: `best` is right about the stretch of tree path that `ancestor` skips. Compression lengthens
such stretches and keeps this true, so evaluation finds a node with the least candidate among all
linked ones on its path, whatever was compressed before.
-/

namespace Bytecode.LinkForest

variable {size bound : Nat} {E : Nat → Nat → Prop} {parent : Nat → Nat}

/-- `u` has the least candidate among the nodes strictly below `a` and above `v`, of which it is
one. -/
structure Least (parent : Nat → Nat) (F : LinkForest) (a v u : Nat) : Prop where
  lt : a < u
  above : Above parent u v
  le : ∀ x, a < x → Above parent x v → F.semiOf u ≤ F.semiOf x

/-- What `ancestor` and `best` say of the linked node `v`: `a` lies strictly above, all nodes
between are linked, and `best` is one of them with the least candidate. -/
structure Entry (parent : Nat → Nat) (bound : Nat) (F : LinkForest) (v a : Nat) : Prop where
  ancestor : F.ancestor? v = some a
  lt : a < v
  above : Above parent a v
  linked : ∀ x, a < x → Above parent x v → bound ≤ x
  best : Least parent F a v (F.bestOf v)

/-- Exactly the numbers from `bound` on are linked, and all entries are right. -/
structure Linked (parent : Nat → Nat) (size bound : Nat) (F : LinkForest) : Prop where
  semi_size : F.semi.size = size
  ancestor_size : F.ancestor.size = size
  best_size : F.best.size = size
  unlinked : ∀ v, v < bound → F.ancestor? v = none
  best_self : ∀ v, v < bound → v < size → F.bestOf v = v
  entry : ∀ v, bound ≤ v → v < size → ∃ a, Entry parent bound F v a

/-- At the start nothing is linked. -/
theorem linked_start (parent : Nat → Nat) (size : Nat) :
    Linked parent size size (start size) where
  semi_size := by simp [start]
  ancestor_size := by simp [start]
  best_size := by simp [start]
  unlinked v hv := by simp [ancestor?, start, hv]
  best_self v _ hv := by simp [bestOf, start, hv]
  entry v hle hlt := by omega

/-- At the start every number is its own candidate. -/
theorem semiOf_start {v : Nat} (hv : v < size) : (start size).semiOf v = v := by
  simp [semiOf, start, hv]

/-! ### Lowering and linking -/

/-- Lowering changes one candidate, and only downwards. -/
theorem semiOf_lowerSemi (F : LinkForest) (w s v : Nat) (hw : w < F.semi.size) :
    (F.lowerSemi w s).semiOf v = if v = w then min (F.semiOf w) s else F.semiOf v := by
  simp only [semiOf, lowerSemi]
  by_cases h : v = w
  · subst h
    simp [hw]
  · rw [Array.getElem?_setIfInBounds_ne (Ne.symm h)]
    simp [h]

/-- The candidate of an unlinked node can be changed: no entry is about it. -/
theorem Linked.lowerSemi {F : LinkForest} (h : Linked parent size bound F) {w : Nat} (s : Nat)
    (hw : w < bound) (hs : w < size) : Linked parent size bound (F.lowerSemi w s) where
  semi_size := by simp [LinkForest.lowerSemi, h.semi_size]
  ancestor_size := h.ancestor_size
  best_size := h.best_size
  unlinked := h.unlinked
  best_self := h.best_self
  entry v hle hlt := by
    obtain ⟨a, he⟩ := h.entry v hle hlt
    have hsemi (x : Nat) (hx : a < x) (hxv : Above parent x v) :
        (F.lowerSemi w s).semiOf x = F.semiOf x := by
      rw [semiOf_lowerSemi F w s x (by rw [h.semi_size]; exact hs)]
      have := he.linked x hx hxv
      rw [if_neg (by omega)]
    refine ⟨a, he.ancestor, he.lt, he.above, he.linked, he.best.lt, he.best.above, ?_⟩
    intro x hx hxv
    change (F.lowerSemi w s).semiOf (F.bestOf v) ≤ _
    rw [hsemi _ he.best.lt he.best.above, hsemi x hx hxv]
    exact he.best.le x hx hxv

private theorem ancestor?_link (F : LinkForest) (p w v : Nat) (hw : w < F.ancestor.size) :
    (F.link p w).ancestor? v = if v = w then some p else F.ancestor? v := by
  simp only [ancestor?, link]
  by_cases h : v = w
  · subst h
    simp [hw]
  · rw [Array.getElem?_setIfInBounds_ne (Ne.symm h)]
    simp [h]

/-- The last unlinked number can be linked to its parent. -/
theorem Linked.link {F : LinkForest} (T : DepthFirst size E parent)
    (h : Linked parent size (bound + 1) F) (hpos : 0 < bound) (hs : bound < size) :
    Linked parent size bound (F.link (parent bound) bound) where
  semi_size := h.semi_size
  ancestor_size := by simp [LinkForest.link, h.ancestor_size]
  best_size := h.best_size
  unlinked v hv := by
    rw [ancestor?_link F _ _ v (by rw [h.ancestor_size]; exact hs), if_neg (by omega)]
    exact h.unlinked v (by omega)
  best_self v hv hvs := h.best_self v (by omega) hvs
  entry v hv hvs := by
    have hanc := ancestor?_link F (parent bound) bound v (by rw [h.ancestor_size]; exact hs)
    by_cases hvb : v = bound
    · subst hvb
      rw [if_pos rfl] at hanc
      have hp := T.parent_lt v hpos hvs
      have hself (x : Nat) (hx : parent v < x) (hxv : Above parent x v) : x = v := by
        apply Decidable.byContradiction
        intro hne
        have := T.le_of_above (by omega) (hxv.to_parent hne).2
        omega
      refine ⟨parent v, hanc, hp, .step hpos .refl, ?_, ?_⟩
      · intro x hx hxv
        exact Nat.le_of_eq (hself x hx hxv).symm
      · have hbest : (F.link (parent v) v).bestOf v = v := h.best_self v (by omega) hvs
        rw [hbest]
        refine ⟨hp, .refl, ?_⟩
        intro x hx hxv
        exact Nat.le_of_eq (by rw [hself x hx hxv])
    · rw [if_neg hvb] at hanc
      obtain ⟨a, he⟩ := h.entry v (by omega) hvs
      refine ⟨a, hanc.trans he.ancestor, he.lt, he.above, ?_, he.best.lt, he.best.above,
        he.best.le⟩
      intro x hx hxv
      have := he.linked x hx hxv
      omega

/-! ### Compression -/

section

variable (F : LinkForest) (v a next x : Nat)

private theorem ancestor?_absorb (hv : v < F.ancestor.size) :
    (F.absorb v a next).ancestor? x = if x = v then some next else F.ancestor? x := by
  simp only [ancestor?, absorb]
  by_cases h : x = v
  · subst h
    simp [hv]
  · rw [Array.getElem?_setIfInBounds_ne (Ne.symm h)]
    simp [h]

private theorem bestOf_absorb_self (hv : v < F.best.size) :
    (F.absorb v a next).bestOf v =
      if F.semiOf (F.bestOf a) < F.semiOf (F.bestOf v) then F.bestOf a else F.bestOf v := by
  by_cases hless : F.semiOf (F.bestOf a) < F.semiOf (F.bestOf v)
  · simp only [absorb, hless, ↓reduceIte]
    simp [bestOf, hv]
  · simp only [absorb, hless, ↓reduceIte]
    rfl

private theorem bestOf_absorb_of_ne (h : x ≠ v) : (F.absorb v a next).bestOf x = F.bestOf x := by
  by_cases hless : F.semiOf (F.bestOf a) < F.semiOf (F.bestOf v)
  · simp only [absorb, hless, ↓reduceIte]
    rw [bestOf, Array.getElem?_setIfInBounds_ne (Ne.symm h), bestOf]
  · simp only [absorb, hless, ↓reduceIte]
    rfl

end

-- Two stretches that meet make one, and the better of their best nodes is best on it.
private theorem Entry.absorb {F : LinkForest} (T : DepthFirst size E parent) {v a next : Nat}
    (hv : v < size) (hsa : F.ancestor.size = size) (hsb : F.best.size = size)
    (hva : Entry parent bound F v a) (han : Entry parent bound F a next) :
    Entry parent bound (F.absorb v a next) v next := by
  have hbelow (x : Nat) (hx : Above parent x v) (hxa : x ≤ a) : Above parent x a :=
    T.above_of_le hv hx hva.above hxa
  have hlt := hva.lt
  have hlt' := han.lt
  refine ⟨?_, by omega, han.above.trans hva.above, ?_, ?_⟩
  · rw [ancestor?_absorb F v a next v (by omega), if_pos rfl]
  · intro x hx hxv
    rcases Nat.lt_or_ge a x with hax | hxa
    · exact hva.linked x hax hxv
    · exact han.linked x hx (hbelow x hxv hxa)
  · rw [bestOf_absorb_self F v a next (by omega)]
    have hbv := hva.best
    have hba := han.best
    split
    · next hless =>
      refine ⟨hba.lt, hba.above.trans hva.above, ?_⟩
      intro x hx hxv
      change F.semiOf _ ≤ F.semiOf x
      rcases Nat.lt_or_ge a x with hax | hxa
      · have := hbv.le x hax hxv
        omega
      · exact hba.le x hx (hbelow x hxv hxa)
    · next hless =>
      refine ⟨by have := hbv.lt; omega, hbv.above, ?_⟩
      intro x hx hxv
      change F.semiOf _ ≤ F.semiOf x
      rcases Nat.lt_or_ge a x with hax | hxa
      · exact hbv.le x hax hxv
      · have := hba.le x hx (hbelow x hxv hxa)
        omega

private theorem Entry.of_eq {F G : LinkForest} {v a : Nat} (h : Entry parent bound F v a)
    (hs : G.semi = F.semi) (ha : G.ancestor? v = F.ancestor? v) (hb : G.bestOf v = F.bestOf v) :
    Entry parent bound G v a := by
  have hsemi (x : Nat) : G.semiOf x = F.semiOf x := by rw [semiOf, hs, semiOf]
  refine ⟨ha.trans h.ancestor, h.lt, h.above, h.linked, ?_⟩
  rw [hb]
  refine ⟨h.best.lt, h.best.above, ?_⟩
  intro x hx hxv
  rw [hsemi, hsemi]
  exact h.best.le x hx hxv

private theorem Linked.absorb {F : LinkForest} (T : DepthFirst size E parent) {v a next : Nat}
    (h : Linked parent size bound F) (hv : v < size) (hb : bound ≤ v)
    (hva : Entry parent bound F v a) (han : Entry parent bound F a next) :
    Linked parent size bound (F.absorb v a next) where
  semi_size := h.semi_size
  ancestor_size := by simp [LinkForest.absorb, h.ancestor_size]
  best_size := by
    simp only [LinkForest.absorb]
    split <;> simp [h.best_size]
  unlinked x hx := by
    rw [ancestor?_absorb F v a next x (by rw [h.ancestor_size]; exact hv), if_neg (by omega)]
    exact h.unlinked x hx
  best_self x hx hxs := by
    rw [bestOf_absorb_of_ne F v a next x (by omega)]
    exact h.best_self x hx hxs
  entry x hx hxs := by
    by_cases hxv : x = v
    · subst hxv
      exact ⟨next, Entry.absorb T hv h.ancestor_size h.best_size hva han⟩
    · obtain ⟨b, he⟩ := h.entry x hx hxs
      refine ⟨b, he.of_eq rfl ?_ (bestOf_absorb_of_ne F v a next x hxv)⟩
      rw [ancestor?_absorb F v a next x (by rw [h.ancestor_size]; exact hv), if_neg hxv]

/-- What compressing the path of `v` leaves behind: the candidates and the entries of larger
numbers as they were, and no linked node above `v` but those it skips. -/
structure Compressed (parent : Nat → Nat) (size bound : Nat) (F : LinkForest) (v : Nat)
    (G : LinkForest) : Prop where
  linked : Linked parent size bound G
  semi : G.semi = F.semi
  ancestor_of_gt : ∀ x, v < x → G.ancestor? x = F.ancestor? x
  best_of_gt : ∀ x, v < x → G.bestOf x = F.bestOf x
  done : bound ≤ v → ∃ a, a < bound ∧ G.ancestor? v = some a

private theorem Linked.compressed_self {F : LinkForest} (h : Linked parent size bound F) {v : Nat}
    (hd : bound ≤ v → ∃ a, a < bound ∧ F.ancestor? v = some a) :
    Compressed parent size bound F v F :=
  ⟨h, rfl, fun _ _ ↦ rfl, fun _ _ ↦ rfl, hd⟩

/-- The numbers below the bound are those without an ancestor. -/
theorem Linked.ancestor?_eq_none_iff {F : LinkForest} (h : Linked parent size bound F) {v : Nat}
    (hv : v < size) : F.ancestor? v = none ↔ v < bound := by
  constructor
  · intro hn
    rcases Nat.lt_or_ge v bound with hlt | hge
    · exact hlt
    · obtain ⟨a, he⟩ := h.entry v hge hv
      rw [he.ancestor] at hn
      exact absurd hn (by simp)
  · exact h.unlinked v

-- The way back over a trail does what compression should. The induction is on the fuel, which
-- bounds the number.
private theorem Linked.compressed_trail {F : LinkForest} (T : DepthFirst size E parent)
    (h : Linked parent size bound F) (fuel v : Nat) (hf : v ≤ fuel) (hv : v < size) :
    Compressed parent size bound F v ((F.trail fuel v).foldr shorten F) := by
  induction fuel generalizing v with
  | zero =>
    apply h.compressed_self
    intro hb
    obtain ⟨a, he⟩ := h.entry v hb hv
    have := he.lt
    omega
  | succ fuel ih =>
    cases hva : F.ancestor? v with
    | none =>
      have := (h.ancestor?_eq_none_iff hv).mp hva
      simp only [trail, hva, List.foldr_nil]
      exact h.compressed_self (by omega)
    | some a =>
      have hb : bound ≤ v := by
        rcases Nat.lt_or_ge v bound with hlt | hge
        · rw [h.unlinked v hlt] at hva
          exact absurd hva (by simp)
        · exact hge
      obtain ⟨a', he⟩ := h.entry v hb hv
      obtain rfl : a' = a := Option.some.inj (he.ancestor.symm.trans hva)
      have hlt := he.lt
      have hcase := h.ancestor?_eq_none_iff (v := a') (by omega)
      by_cases hn : F.ancestor? a' = none
      · simp only [trail, hva, hn, Option.isNone_none, ↓reduceIte, List.foldr_nil]
        exact h.compressed_self fun _ ↦ ⟨a', hcase.mp hn, hva⟩
      · have hba : bound ≤ a' := Nat.le_of_not_lt fun hlt ↦ hn (hcase.mpr hlt)
        have hsome : (F.ancestor? a').isNone = false := by
          rw [Option.isNone_eq_false_iff, Option.isSome_iff_ne_none]
          exact hn
        simp only [trail, hva, hsome, Bool.false_eq_true, ↓reduceIte, List.foldr_cons]
        have hc := ih a' (by omega) (by omega)
        generalize (F.trail fuel a').foldr shorten F = G at hc
        obtain ⟨b, hbb, hab⟩ := hc.done hba
        have hev : Entry parent bound G v a' :=
          he.of_eq hc.semi (hc.ancestor_of_gt v hlt) (hc.best_of_gt v hlt)
        obtain ⟨b', hea⟩ := hc.linked.entry a' hba (by omega)
        obtain rfl : b' = b := Option.some.inj (hea.ancestor.symm.trans hab)
        have hshorten : shorten v G = G.absorb v a' b' := by
          simp only [shorten, hev.ancestor, hab]
        have hsize : v < G.ancestor.size := by
          rw [hc.linked.ancestor_size]
          exact hv
        rw [hshorten]
        refine ⟨hc.linked.absorb T hv hb hev hea, hc.semi, ?_, ?_, ?_⟩
        · intro x hx
          rw [ancestor?_absorb _ v a' b' x hsize, if_neg (by omega)]
          exact hc.ancestor_of_gt x (by omega)
        · intro x hx
          rw [bestOf_absorb_of_ne _ v a' b' x (by omega)]
          exact hc.best_of_gt x (by omega)
        · intro _
          exact ⟨b', hbb, by rw [ancestor?_absorb _ v a' b' v hsize, if_pos rfl]⟩

/-- Compression does what it should. -/
theorem Linked.compress {F : LinkForest} (T : DepthFirst size E parent)
    (h : Linked parent size bound F) {v : Nat} (hv : v < size) :
    Compressed parent size bound F v (F.compress v) :=
  h.compressed_trail T v v (Nat.le_refl v) hv

/-! ### Evaluation -/

/-- Evaluation keeps the forest right and its candidates as they are. -/
theorem Linked.eval {F : LinkForest} (T : DepthFirst size E parent)
    (h : Linked parent size bound F) {v : Nat} (hv : v < size) :
    Linked parent size bound (F.eval v).2 ∧ (F.eval v).2.semi = F.semi := by
  simp only [LinkForest.eval]
  split
  · exact ⟨h, rfl⟩
  · have hc := h.compress T hv
    exact ⟨hc.linked, hc.semi⟩

/-- A node that is not linked evaluates to itself. -/
theorem Linked.eval_unlinked {F : LinkForest} (h : Linked parent size bound F) {v : Nat}
    (hv : v < bound) : (F.eval v).1 = v := by
  simp only [LinkForest.eval, h.unlinked v hv, Option.isNone_none, ↓reduceIte]

/-- A linked node evaluates to one with the least candidate among the linked nodes above it. -/
theorem Linked.eval_linked {F : LinkForest} (T : DepthFirst size E parent)
    (h : Linked parent size bound F) {v : Nat} (hb : bound ≤ v) (hv : v < size) :
    bound ≤ (F.eval v).1 ∧ Above parent (F.eval v).1 v ∧
      ∀ x, bound ≤ x → Above parent x v → F.semiOf (F.eval v).1 ≤ F.semiOf x := by
  obtain ⟨a, he⟩ := h.entry v hb hv
  have hc := h.compress T hv
  obtain ⟨b, hbb, hvb⟩ := hc.done hb
  obtain ⟨b', hev⟩ := hc.linked.entry v hb hv
  obtain rfl : b' = b := Option.some.inj (hev.ancestor.symm.trans hvb)
  have heval : (F.eval v).1 = (F.compress v).bestOf v := by
    simp only [LinkForest.eval, he.ancestor, Option.isNone_some, Bool.false_eq_true, ↓reduceIte]
  have hsemi (x : Nat) : (F.compress v).semiOf x = F.semiOf x := by
    rw [semiOf, hc.semi, semiOf]
  have hbest := hev.best
  rw [heval]
  refine ⟨hev.linked _ hbest.lt hbest.above, hbest.above, ?_⟩
  intro x hx hxv
  rw [← hsemi, ← hsemi]
  exact hbest.le x (by omega) hxv

end Bytecode.LinkForest
