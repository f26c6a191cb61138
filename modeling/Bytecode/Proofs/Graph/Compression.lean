import Bytecode.Proofs.Graph.Dominance
import Mathlib.Logic.Relation

/-!
# Evaluation at every point of the computation

The computation of immediate dominators is cut into steps: a predecessor is considered, a node is
linked, a node of a bucket is settled. Between any two of them nodes may be evaluated any number of
times, which compresses paths of the forest and leaves its meaning alone. So at every point
evaluation comes to an end, and finds the least candidate on the way up from a node through the
linked ones.
-/

namespace Bytecode

namespace LinkForest

/-- `x` is met on the way up the tree from `v`, before the first node that is not linked. -/
inductive Meets (parent : Nat → Nat) (linked : Nat → Prop) (x : Nat) : Nat → Prop
  | here : linked x → Meets parent linked x x
  | up {v : Nat} : linked v → Meets parent linked x (parent v) → Meets parent linked x v

/-- The search from the linked node `v` for one whose ancestor is not linked comes to an end, past
these nodes. -/
inductive Trails (F : LinkForest) : Nat → List Nat → Prop
  | stop {v a : Nat} : F.ancestor? v = some a → F.ancestor? a = none → Trails F v []
  | climb {v a : Nat} {way : List Nat} : F.ancestor? v = some a → F.ancestor? a ≠ none →
      Trails F a way → Trails F v (v :: way)

variable {size bound : Nat} {E : Nat → Nat → Prop} {parent : Nat → Nat} {F : LinkForest}

private theorem meets_iff (T : DepthFirst size E parent) (hpos : 0 < bound) {x v : Nat}
    (hv : v < size) : Meets parent (bound ≤ ·) x v ↔ bound ≤ x ∧ Above parent x v := by
  constructor
  · intro h
    induction h with
    | here hx => exact ⟨hx, .refl⟩
    | @up v hl _ ih =>
      have hlt := T.parent_lt v (by omega) hv
      obtain ⟨hx, habove⟩ := ih (by omega)
      exact ⟨hx, .step (by omega) habove⟩
  · rintro ⟨hx, habove⟩
    induction habove with
    | refl => exact .here hx
    | @step v hv0 habove ih =>
      have hlt := T.parent_lt v hv0 hv
      have hle := T.le_of_above (by omega) habove
      exact .up (by omega) (ih (by omega))

/-- Ancestors have smaller numbers, so a number is enough fuel for its own trail. -/
theorem Linked.trails (h : Linked parent size bound F) {fuel v : Nat} (hf : v ≤ fuel)
    (hb : bound ≤ v) (hv : v < size) : F.Trails v (F.trail fuel v) := by
  induction fuel generalizing v with
  | zero =>
    obtain ⟨a, he⟩ := h.entry v hb hv
    have := he.lt
    omega
  | succ fuel ih =>
    obtain ⟨a, he⟩ := h.entry v hb hv
    have hlt := he.lt
    cases ha : F.ancestor? a with
    | none =>
      simp only [trail, he.ancestor, ha, Option.isNone_none, ↓reduceIte]
      exact .stop he.ancestor ha
    | some b =>
      simp only [trail, he.ancestor, ha, Option.isNone_some, Bool.false_eq_true, ↓reduceIte]
      have hba : bound ≤ a := by
        by_contra hnot
        rw [h.unlinked a (by omega)] at ha
        contradiction
      exact .climb he.ancestor (by simp [ha]) (ih (by omega) hba (by omega))

end LinkForest

namespace Semidominators

open LinkForest

/-! ### The computation step by step -/

/-- How far the computation has come. -/
inductive Stage where
  /-- `w` is taken next, or all nodes are taken if it is `0`. -/
  | next (w : Nat)
  /-- `w` is taken, and these of its predecessors are left. -/
  | considering (w : Nat) (preds : List Nat)
  /-- `w` is linked, and these nodes from the bucket of its tree parent are left. -/
  | settling (w : Nat) (nodes : List Nat)

/-- The least number that has been linked. -/
def Stage.bound : Stage → Nat
  | next w => w + 1
  | considering w _ => w + 1
  | settling w _ => w

/-- The node has been linked. -/
def Stage.HasLinked (stage : Stage) (v : Nat) : Prop := stage.bound ≤ v

/-- A point of the computation. -/
structure Point where
  stage : Stage
  state : Semidominators

/-- The point before any node is taken. -/
def Point.start (N : Numbering) : Point := ⟨.next (N.size - 1), Semidominators.start N.size⟩

/-- One step of the computation. -/
inductive Step {α : Type} (N : Numbering) (g : Digraph α) : Point → Point → Prop
  | take (w : Nat) (S : Semidominators) :
      Step N g ⟨.next (w + 1), S⟩ ⟨.considering (w + 1) (N.preds g (w + 1)), S⟩
  | consider (w v : Nat) (preds : List Nat) (S : Semidominators) :
      Step N g ⟨.considering w (v :: preds), S⟩
        ⟨.considering w preds, { S with forest := consider w S.forest v }⟩
  | link (w : Nat) (S : Semidominators) :
      Step N g ⟨.considering w [], S⟩
        ⟨.settling w ((S.file w).bucket (N.parentOf w)),
          { S.file w with forest := S.forest.link (N.parentOf w) w }⟩
  | settle (w v : Nat) (nodes : List Nat) (S : Semidominators) :
      Step N g ⟨.settling w (v :: nodes), S⟩ ⟨.settling w nodes, settle (N.parentOf w) S v⟩
  | leave (w : Nat) (S : Semidominators) :
      Step N g ⟨.settling (w + 1) [], S⟩
        ⟨.next w, { S with buckets := S.buckets.setIfInBounds (N.parentOf (w + 1)) [] }⟩

/-- A node is evaluated, and nothing else happens. -/
def Evaluates (N : Numbering) (p q : Point) : Prop :=
  ∃ v, v < N.size ∧ q = ⟨p.stage, { p.state with forest := (p.state.forest.eval v).2 }⟩

/-- The computation can come to this point, with nodes evaluated between its steps. -/
def Point.Occurs {α : Type} (N : Numbering) (g : Digraph α) (p : Point) : Prop :=
  Relation.ReflTransGen (fun p q ↦ Step N g p q ∨ Evaluates N p q) (Point.start N) p

section

variable {α : Type} (N : Numbering) (g : Digraph α)

private theorem runs_consider (w : Nat) (preds : List Nat) (S : Semidominators) :
    Relation.ReflTransGen (Step N g) ⟨.considering w preds, S⟩
      ⟨.considering w [], { S with forest := preds.foldl (consider w) S.forest }⟩ := by
  induction preds generalizing S with
  | nil => exact .refl
  | cons v preds ih => exact .head (.consider w v preds S) (ih _)

private theorem runs_settle (w : Nat) (nodes : List Nat) (S : Semidominators) :
    Relation.ReflTransGen (Step N g) ⟨.settling w nodes, S⟩
      ⟨.settling w [], nodes.foldl (settle (N.parentOf w)) S⟩ := by
  induction nodes generalizing S with
  | nil => exact .refl
  | cons v nodes ih => exact .head (.settle w v nodes S) (ih _)

private theorem runs_take (w : Nat) (S : Semidominators) :
    Relation.ReflTransGen (Step N g) ⟨.next (w + 1), S⟩
      ⟨.next w, S.take (w + 1) (N.parentOf (w + 1)) (N.preds g (w + 1))⟩ := by
  refine .head (.take w S) ((runs_consider N g (w + 1) _ S).trans ?_)
  refine .head (.link (w + 1) _) ((runs_settle N g (w + 1) _ _).trans ?_)
  exact .single (.leave w _)

/-- The steps make up the computation. -/
theorem runs_takeDown (w : Nat) (S : Semidominators) :
    Relation.ReflTransGen (Step N g) ⟨.next w, S⟩ ⟨.next 0, takeDown N g w S⟩ := by
  induction w generalizing S with
  | zero => exact .refl
  | succ w ih => exact (runs_take N g w S).trans (ih _)

end

/-! ### What holds at every point -/

/-- All nodes that the stage speaks of have numbers, and the root is never taken. -/
def Stage.Fits (size : Nat) : Stage → Prop
  | next w => w < size
  | considering w left => 0 < w ∧ w < size ∧ ∀ v ∈ left, v < size
  | settling w left => 0 < w ∧ w < size ∧ ∀ v ∈ left, v < size

private theorem Stage.Fits.bound_pos {size : Nat} {stage : Stage} (h : stage.Fits size) :
    0 < stage.bound := by
  cases stage with
  | next w => exact Nat.succ_pos w
  | considering w left => exact Nat.succ_pos w
  | settling w left => exact h.1

/-- The forest is right about the nodes linked so far, and only numbers are in the buckets. -/
structure Point.Sound (N : Numbering) (p : Point) : Prop where
  forest : p.state.forest.Linked N.parentOf N.size p.stage.bound
  fits : p.stage.Fits N.size
  bucket_lt : ∀ n, ∀ v ∈ p.state.bucket n, v < N.size

private theorem mem_bucket_of_file {S : Semidominators} {w n v : Nat}
    (hv : v ∈ (S.file w).bucket n) : v ∈ S.bucket n ∨ v = w := by
  simp only [bucket, file, Array.getElem?_modify] at hv
  split at hv
  · cases hn : S.buckets[n]? with
    | none => simp [hn] at hv
    | some nodes => simpa [hn, bucket] using hv
  · exact .inl hv

section

variable {α : Type} {N : Numbering} {g : Digraph α} {E : Nat → Nat → Prop} {p q : Point}

private theorem Point.sound_start (hpos : 0 < N.size) : (Point.start N).Sound N where
  forest := by
    have hbound : (Point.start N).stage.bound = N.size := by
      simp only [Point.start, Stage.bound]
      omega
    rw [hbound]
    exact linked_start N.parentOf N.size
  fits := by
    simp only [Point.start, Stage.Fits]
    omega
  bucket_lt n v hv := by
    simp only [Point.start, bucket, Semidominators.start, Array.getElem?_replicate] at hv
    split at hv <;> simp at hv

private theorem Point.Sound.evaluates (T : DepthFirst N.size E N.parentOf) (h : p.Sound N)
    (hq : Evaluates N p q) : q.Sound N := by
  obtain ⟨v, hv, rfl⟩ := hq
  exact ⟨(h.forest.eval T hv).1, h.fits, h.bucket_lt⟩

private theorem Point.Sound.step (T : DepthFirst N.size E N.parentOf)
    (hpreds : ∀ w, w < N.size → ∀ v ∈ N.preds g w, v < N.size) (h : p.Sound N)
    (hq : Step N g p q) : q.Sound N := by
  obtain ⟨hforest, hfits, hbucket⟩ := h
  cases hq with
  | take w S => exact ⟨hforest, ⟨Nat.succ_pos w, hfits, hpreds (w + 1) hfits⟩, hbucket⟩
  | consider w v preds S =>
    obtain ⟨hpos, hw, hleft⟩ := hfits
    obtain ⟨hv, hpreds⟩ := List.forall_mem_cons.mp hleft
    have heval := (hforest.eval T hv).1
    exact ⟨heval.lowerSemi _ (Nat.lt_succ_self w) hw, ⟨hpos, hw, hpreds⟩, hbucket⟩
  | link w S =>
    obtain ⟨hpos, hw, _⟩ := hfits
    have hfiled (n v : Nat) (hv : v ∈ (S.file w).bucket n) : v < N.size := by
      rcases mem_bucket_of_file hv with hv | rfl
      · exact hbucket n v hv
      · exact hw
    exact ⟨hforest.link T hpos hw, ⟨hpos, hw, hfiled _⟩, hfiled⟩
  | settle w v nodes S =>
    obtain ⟨hpos, hw, hleft⟩ := hfits
    obtain ⟨hv, hnodes⟩ := List.forall_mem_cons.mp hleft
    exact ⟨(hforest.eval T hv).1, ⟨hpos, hw, hnodes⟩, hbucket⟩
  | leave w S =>
    obtain ⟨_, hw, _⟩ := hfits
    refine ⟨hforest, Nat.lt_of_succ_lt hw, fun n v hv ↦ ?_⟩
    -- The bucket that was worked off is emptied, and the others stay.
    simp only [bucket, Array.getElem?_setIfInBounds] at hv
    split at hv
    · split at hv <;> simp at hv
    · exact hbucket n v hv

private theorem Point.Occurs.sound (T : DepthFirst N.size E N.parentOf)
    (hpreds : ∀ w, w < N.size → ∀ v ∈ N.preds g w, v < N.size) (hpos : 0 < N.size)
    (hp : p.Occurs N g) : p.Sound N := by
  induction hp with
  | refl => exact Point.sound_start hpos
  | tail _ hnext ih =>
    rcases hnext with hstep | heval
    · exact ih.step T hpreds hstep
    · exact ih.evaluates T heval

end

end Semidominators

open LinkForest Semidominators in
/-- At every point of the computation, and whatever was evaluated before, evaluation comes to an
end: a node that is not linked yet evaluates to itself, and a linked one to a node that is met on
its way up through linked nodes and whose candidate is the least of all that are met there. -/
theorem Digraph.eval_at_every_point {α : Type} {g : Digraph α} (hg : g.Built) (entry : Nat) :
    let N := g.numbering entry
    Relation.ReflTransGen (Step N g) (Point.start N)
      ⟨.next 0, takeDown N g (N.size - 1) (Semidominators.start N.size)⟩ ∧
    ∀ p : Point, p.Occurs N g → ∀ v, v < N.size →
      (p.state.forest.ancestor? v = none ↔ ¬p.stage.HasLinked v) ∧
      (p.state.forest.eval v).2.semi = p.state.forest.semi ∧
      (¬p.stage.HasLinked v → (p.state.forest.eval v).1 = v) ∧
      (p.stage.HasLinked v →
        p.state.forest.Trails v (p.state.forest.trail v v) ∧
        Meets N.parentOf p.stage.HasLinked (p.state.forest.eval v).1 v ∧
        ∀ x, Meets N.parentOf p.stage.HasLinked x v →
          p.state.forest.semiOf (p.state.forest.eval v).1 ≤ p.state.forest.semiOf x) := by
  refine ⟨runs_takeDown _ g _ _, fun p hp v hv ↦ ?_⟩
  obtain ⟨path, hpath⟩ := (exists_number_iff entry _).mp ⟨v, hv, rfl⟩
  have T := depthFirst_numbering entry hg.wf hpath.lt_left
  have hsound := hp.sound T (fun w hw u hu ↦ ((mem_preds_numbering entry hg.wf hw u).mp hu).1)
    (Nat.zero_lt_of_lt hv)
  have hforest := hsound.forest
  have hnone := hforest.ancestor?_eq_none_iff hv
  refine ⟨hnone.trans Nat.not_le.symm, (hforest.eval T hv).2,
    fun hl ↦ hforest.eval_unlinked (Nat.not_le.mp hl), fun hl ↦ ?_⟩
  obtain ⟨hbound, habove, hleast⟩ := hforest.eval_linked T hl hv
  have hmeets (x : Nat) : Meets (g.numbering entry).parentOf p.stage.HasLinked x v ↔
      p.stage.bound ≤ x ∧ Above (g.numbering entry).parentOf x v :=
    meets_iff T hsound.fits.bound_pos hv
  refine ⟨hforest.trails (Nat.le_refl v) hl hv, (hmeets _).mpr ⟨hbound, habove⟩, fun x hx ↦ ?_⟩
  obtain ⟨hx, hxv⟩ := (hmeets x).mp hx
  exact hleast x hx hxv

open LinkForest Semidominators in
/-- In `crossing` there is a point at which a linked number evaluates to one with a smaller
candidate, while a number that is not linked evaluates to itself. -/
theorem Digraph.crossing_eval :
    crossing.Built ∧ 3 < (crossing.numbering 0).size ∧
      ∃ p : Point, p.Occurs (crossing.numbering 0) crossing ∧
        p.stage.HasLinked 3 ∧ p.state.forest.semiOf 3 = 1 ∧
        Meets (crossing.numbering 0).parentOf p.stage.HasLinked (p.state.forest.eval 3).1 3 ∧
        p.state.forest.semiOf (p.state.forest.eval 3).1 = 0 ∧
        ¬p.stage.HasLinked 0 ∧ (p.state.forest.eval 0).1 = 0 := by
  obtain ⟨hrun, hpoints⟩ := eval_at_every_point crossing_built 0
  have hlt : 3 < (crossing.numbering 0).size := by decide +kernel
  have hend : Point.Occurs (crossing.numbering 0) crossing _ :=
    Relation.ReflTransGen.mono (fun _ _ ↦ Or.inl) _ _ hrun
  -- One more evaluation after the last step compresses the path once more.
  have hp : Point.Occurs (crossing.numbering 0) crossing _ := hend.tail (.inr ⟨3, hlt, rfl⟩)
  have hroot : ¬(Stage.next 0).HasLinked 0 := Nat.not_succ_le_zero 0
  have hlinked : (Stage.next 0).HasLinked 3 := Nat.succ_le_succ (Nat.zero_le 2)
  refine ⟨crossing_built, hlt, _, hp, hlinked, by decide +kernel, ?_, by decide +kernel, hroot, ?_⟩
  · exact ((hpoints _ hp 3 hlt).2.2.2 hlinked).2.1
  · exact (hpoints _ hp 0 (Nat.zero_lt_of_lt hlt)).2.2.1 hroot

end Bytecode
