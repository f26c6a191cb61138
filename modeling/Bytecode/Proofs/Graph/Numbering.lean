import Bytecode.Graph.Dominators
import Bytecode.Proofs.Graph.DepthFirst
import Bytecode.Proofs.Graph.Search

/-!
# Depth-first numbers

The visits of a traversal give each node that is reached a number. Between the numbers and the
reached nodes there is a bijection, and the visits of a depth-first search make the numbering depth
first in the sense of `DepthFirst`.
-/

namespace Bytecode.Numbering

open Bytecode.Digraph

/-! ### Numbers and nodes -/

/-- Give number `entry.2` to node `entry.1`. -/
def assign (number : Array (Option Nat)) (entry : Nat × Nat) : Array (Option Nat) :=
  number.setIfInBounds entry.1 (some entry.2)

/-- The visits of a traversal of a graph with `size` nodes, numbered in order. -/
def ofVisits (size : Nat) (visits : List Digraph.Visit) : Numbering :=
  let nodes := visits.map Digraph.Visit.node
  let number := nodes.zipIdx.foldl assign (Array.replicate size none)
  { order := nodes.toArray
    number := number
    parent := (visits.map fun v => number[v.parent]?.join.getD 0).toArray }

private theorem getElem?_assign (number : Array (Option Nat)) (entry : Nat × Nat) (n : Nat)
    (hn : n < number.size) :
    (assign number entry)[n]?.join = if n = entry.1 then some entry.2 else number[n]?.join := by
  rw [assign]
  by_cases h : n = entry.1
  · subst h
    simp [hn]
  · rw [Array.getElem?_setIfInBounds_ne (Ne.symm h), if_neg h]

private theorem size_foldl_assign (entries : List (Nat × Nat)) (number : Array (Option Nat)) :
    (entries.foldl assign number).size = number.size := by
  induction entries generalizing number with
  | nil => rfl
  | cons entry entries ih => rw [List.foldl_cons, ih, assign, Array.size_setIfInBounds]

private theorem getElem?_foldl_assign (nodes : List Nat) (k : Nat) (number : Array (Option Nat))
    (n : Nat) (hn : n < number.size) (hd : nodes.Nodup) :
    ((nodes.zipIdx k).foldl assign number)[n]?.join =
      if n ∈ nodes then some (k + nodes.idxOf n) else number[n]?.join := by
  induction nodes generalizing k number with
  | nil => simp
  | cons x rest ih =>
    obtain ⟨hx, hr⟩ := List.nodup_cons.mp hd
    have hsize : n < (assign number (x, k)).size := by simpa [assign] using hn
    rw [List.zipIdx_cons, List.foldl_cons, ih (k + 1) _ hsize hr,
      getElem?_assign number (x, k) n hn]
    by_cases h : n = x
    · subst h
      simp [hx]
    · by_cases hm : n ∈ rest
      · rw [if_pos hm, if_pos (List.mem_cons_of_mem x hm), List.idxOf_cons_ne rest (Ne.symm h)]
        congr 1
        omega
      · simp [h, hm]

section

variable {size : Nat} {visits : List Visit} (hd : (visits.map Visit.node).Nodup)
  (hlt : ∀ v ∈ visits, v.node < size)

/-- There are as many numbers as visits. -/
@[simp] theorem size_ofVisits (size : Nat) (visits : List Visit) :
    (ofVisits size visits).size = visits.length := by
  simp [Numbering.size, ofVisits]

/-- The visits are numbered in their order. -/
theorem nodeOf_ofVisits {w : Nat} (hw : w < visits.length) :
    (ofVisits size visits).nodeOf w = visits[w].node := by
  simp [nodeOf, ofVisits, hw]

include hd hlt

/-- A number belongs to a node exactly when the node has that number. -/
theorem number?_ofVisits_iff (n w : Nat) :
    (ofVisits size visits).number? n = some w ↔
      w < visits.length ∧ (ofVisits size visits).nodeOf w = n := by
  have hnum : (ofVisits size visits).number? n =
      if n ∈ visits.map Visit.node then some ((visits.map Visit.node).idxOf n) else none := by
    by_cases hn : n < size
    · have := getElem?_foldl_assign (visits.map Visit.node) 0 (Array.replicate size none) n
        (by simpa using hn) hd
      simp only [number?, ofVisits]
      rw [this]
      simp [hn]
    · have hm : n ∉ visits.map Visit.node := by
        intro hm
        obtain ⟨v, hv, rfl⟩ := List.mem_map.mp hm
        exact hn (hlt v hv)
      rw [if_neg hm]
      simp only [number?, ofVisits]
      rw [Array.getElem?_eq_none (by rw [size_foldl_assign]; simpa using hn)]
      rfl
  rw [hnum]
  constructor
  · intro h
    split at h
    · next hm =>
      obtain rfl := Option.some.inj h
      have hi : (visits.map Visit.node).idxOf n < (visits.map Visit.node).length :=
        List.idxOf_lt_length_of_mem hm
      have hi' : (visits.map Visit.node).idxOf n < visits.length := by simpa using hi
      refine ⟨hi', ?_⟩
      rw [nodeOf_ofVisits hi', ← List.getElem_map Visit.node (h := hi)]
      exact List.getElem_idxOf hi
    · simp at h
  · rintro ⟨hw, rfl⟩
    rw [nodeOf_ofVisits hw]
    have hw' : w < (visits.map Visit.node).length := by simpa using hw
    have hget : (visits.map Visit.node)[w] = visits[w].node := List.getElem_map Visit.node
    have hm : visits[w].node ∈ visits.map Visit.node := by
      rw [← hget]
      exact List.getElem_mem hw'
    rw [if_pos hm, ← hget, hd.idxOf_getElem]

/-- Different numbers belong to different nodes. -/
theorem nodeOf_inj {v w : Nat} (hv : v < visits.length) (hw : w < visits.length)
    (h : visits[v].node = visits[w].node) : v = w := by
  have h1 := (number?_ofVisits_iff hd hlt visits[v].node v).mpr ⟨hv, nodeOf_ofVisits hv⟩
  have h2 := (number?_ofVisits_iff hd hlt visits[v].node w).mpr
    ⟨hw, (nodeOf_ofVisits hw).trans h.symm⟩
  exact Option.some.inj (h1.symm.trans h2)

private theorem parentOf_ofVisits {v w : Nat} (hv : v < visits.length) (hw : w < visits.length)
    (h : visits[w].parent = visits[v].node) : (ofVisits size visits).parentOf w = v := by
  have hnum := (number?_ofVisits_iff hd hlt visits[v].node v).mpr ⟨hv, nodeOf_ofVisits hv⟩
  have hp : (ofVisits size visits).parentOf w =
      ((ofVisits size visits).number? visits[w].parent).getD 0 := by
    simp [parentOf, number?, ofVisits, hw]
  rw [hp, h, hnum, Option.getD_some]

end

/-! ### Depth-first visits -/

section

variable {α : Type} {g : Digraph α} {visits : List Visit}

private theorem LiesAbove.of_subset {visits visits' : List Visit} {a b : Nat}
    (h : LiesAbove visits a b) (hs : ∀ v ∈ visits, v ∈ visits') : LiesAbove visits' a b :=
  Relation.ReflTransGen.mono (fun _ _ hm ↦ hs _ hm) _ _ h

private theorem depthFirstOrder_suffix {later rest : List Visit} {e : Visit}
    (h : DepthFirstOrder g (later ++ e :: rest)) : DepthFirstOrder g (e :: rest) := by
  induction later with
  | nil => exact h
  | cons x later ih =>
    generalize hl : x :: later ++ e :: rest = all at h
    cases h with
    | root r =>
      have := congrArg List.length hl
      simp at this
    | visit h _ _ _ _ _ =>
      rw [List.cons_append, List.cons.injEq] at hl
      rw [← hl.2] at h
      exact ih h

private theorem depthFirstOrder_inv {e last : Visit} {rest : List Visit}
    (h : DepthFirstOrder g (e :: last :: rest)) :
    e.parent ∈ (last :: rest).map Visit.node ∧ e.node ∈ g.successors e.parent ∧
      LiesAbove (last :: rest) e.parent last.node ∧
      ∀ u ∈ (last :: rest).map Visit.node, e.node ∈ g.successors u →
        LiesAbove (last :: rest) u e.parent := by
  cases h with
  | visit _ _ hparent hedge habove hpreds => exact ⟨hparent, hedge, habove, hpreds⟩

-- What the order says of the visit with number `w + 1`, in terms of the earlier ones.
private theorem depthFirstOrder_visit (h : DepthFirstOrder g visits.reverse) {w : Nat}
    (hw : w + 1 < visits.length) :
    visits[w + 1].parent ∈ (visits.take (w + 1)).map Visit.node ∧
      visits[w + 1].node ∈ g.successors visits[w + 1].parent ∧
      LiesAbove (visits.take (w + 1)) visits[w + 1].parent visits[w].node ∧
      ∀ u ∈ (visits.take (w + 1)).map Visit.node, visits[w + 1].node ∈ g.successors u →
        LiesAbove (visits.take (w + 1)) u visits[w + 1].parent := by
  have hearlier : (visits.take (w + 1)).reverse = visits[w] :: (visits.take w).reverse := by
    rw [← List.take_append_getElem (by omega), List.reverse_append]
    rfl
  have hsplit : visits.reverse = (visits.drop (w + 2)).reverse ++
      visits[w + 1] :: visits[w] :: (visits.take w).reverse := by
    rw [← hearlier, ← List.reverse_reverse (visits[w + 1] :: _), ← List.reverse_append,
      List.reverse_cons, List.reverse_reverse, List.append_assoc, List.singleton_append,
      ← List.drop_eq_getElem_cons hw, List.take_append_drop]
  have hsub : ∀ v ∈ visits[w] :: (visits.take w).reverse, v ∈ visits.take (w + 1) := by
    rw [← hearlier]
    simp
  have hmem (u : Nat) : u ∈ (visits[w] :: (visits.take w).reverse).map Visit.node ↔
      u ∈ (visits.take (w + 1)).map Visit.node := by
    rw [← hearlier, List.map_reverse, List.mem_reverse]
  rw [hsplit] at h
  obtain ⟨hparent, hedge, habove, hpreds⟩ := depthFirstOrder_inv (depthFirstOrder_suffix h)
  refine ⟨(hmem _).mp hparent, hedge, LiesAbove.of_subset habove hsub, ?_⟩
  intro u hu hv
  exact LiesAbove.of_subset (hpreds u ((hmem u).mpr hu) hv) hsub

private theorem mem_take_map {k : Nat} {n : Nat} (h : n ∈ (visits.take k).map Visit.node) :
    ∃ (i : Nat) (hi : i < visits.length), i < k ∧ visits[i].node = n := by
  obtain ⟨v, hv, rfl⟩ := List.mem_map.mp h
  obtain ⟨i, hi, rfl⟩ := List.mem_take_iff_getElem.mp hv
  exact ⟨i, by omega, by omega, rfl⟩

end

/-- The edges between numbers. -/
def Edge {α : Type} (N : Numbering) (g : Digraph α) (v w : Nat) : Prop :=
  v < N.size ∧ w < N.size ∧ N.nodeOf w ∈ g.successors (N.nodeOf v)

section

variable {α : Type} {g : Digraph α} {entry size : Nat} {visits : List Visit}
  (h : DepthFirstOrder g visits.reverse) (hroot : visits.head? = some ⟨entry, entry⟩)
  (hd : (visits.map Visit.node).Nodup) (hlt : ∀ v ∈ visits, v.node < size)

include h hd hlt

private theorem exists_parent {w : Nat} (hpos : 0 < w) (hw : w < visits.length) :
    ∃ (v : Nat) (hv : v < visits.length), v < w ∧ visits[w].parent = visits[v].node ∧
      (ofVisits size visits).parentOf w = v := by
  obtain ⟨k, rfl⟩ : ∃ k, w = k + 1 := ⟨w - 1, by omega⟩
  obtain ⟨v, hv, hvw, he⟩ := mem_take_map (depthFirstOrder_visit h hw).1
  exact ⟨v, hv, hvw, he.symm, parentOf_ofVisits hd hlt hv hw he.symm⟩

include hroot

-- Above in terms of nodes is above in terms of numbers.
private theorem above_of_liesAbove {k a b : Nat} (ha : LiesAbove (visits.take k) a b) {w : Nat}
    (hw : w < visits.length) (hb : visits[w].node = b) :
    ∃ (v : Nat) (hv : v < visits.length), visits[v].node = a ∧
      Above (ofVisits size visits).parentOf v w := by
  induction ha generalizing w with
  | refl => exact ⟨w, hw, hb, .refl⟩
  | @tail b c _ he ih =>
    obtain ⟨j, hj, hjc⟩ := List.mem_take_iff_getElem.mp he
    have hjv : visits[j].node = visits[w].node := by rw [hb, hjc]
    obtain rfl := nodeOf_inj hd hlt (by omega) hw hjv
    have hparent : visits[j].parent = b := by rw [hjc]
    rcases Nat.eq_zero_or_pos j with rfl | hpos
    · -- The root is its own parent.
      have h0 : visits[0] = ⟨entry, entry⟩ := by
        rw [List.head?_eq_getElem?, List.getElem?_eq_getElem hw] at hroot
        exact Option.some.inj hroot
      apply ih hw
      rw [← hparent, h0]
    · obtain ⟨m, hm, _, hmp, hpar⟩ := exists_parent h hd hlt hpos hw
      obtain ⟨v, hv, hva, habove⟩ := ih hm (hmp.symm.trans hparent)
      refine ⟨v, hv, hva, .step hpos ?_⟩
      rw [hpar]
      exact habove

/-- Visits in the order of a depth-first search number the nodes depth first. -/
theorem depthFirst_ofVisits :
    DepthFirst (ofVisits size visits).size ((ofVisits size visits).Edge g)
      (ofVisits size visits).parentOf where
  edge_lt v w he := ⟨he.1, he.2.1⟩
  parent_lt w hpos hw := by
    rw [size_ofVisits] at hw
    obtain ⟨v, _, hvw, _, hpar⟩ := exists_parent h hd hlt hpos hw
    rw [hpar]
    exact hvw
  parent_edge w hpos hw := by
    rw [size_ofVisits] at hw
    obtain ⟨v, hv, _, hp, hpar⟩ := exists_parent h hd hlt hpos hw
    obtain ⟨k, rfl⟩ : ∃ k, w = k + 1 := ⟨w - 1, by omega⟩
    have hedge := (depthFirstOrder_visit h hw).2.1
    rw [hpar]
    refine ⟨by simpa using hv, by simpa using hw, ?_⟩
    rw [nodeOf_ofVisits hv, nodeOf_ofVisits hw, ← hp]
    exact hedge
  parent_above w hpos hw := by
    rw [size_ofVisits] at hw
    obtain ⟨v, hv, _, hp, hpar⟩ := exists_parent h hd hlt hpos hw
    obtain ⟨k, rfl⟩ : ∃ k, w = k + 1 := ⟨w - 1, by omega⟩
    have habove := (depthFirstOrder_visit h hw).2.2.1
    obtain ⟨i, hi, hia, hik⟩ := above_of_liesAbove h hroot hd hlt habove (w := k) (by omega) rfl
    rw [hp] at hia
    obtain rfl := nodeOf_inj hd hlt hi hv hia
    rw [hpar, Nat.add_sub_cancel]
    exact hik
  forward u w he huw := by
    obtain ⟨hu, hw, hedge⟩ := he
    rw [size_ofVisits] at hu hw
    rw [nodeOf_ofVisits hu, nodeOf_ofVisits hw] at hedge
    obtain ⟨v, hv, _, hp, hpar⟩ := exists_parent h hd hlt (by omega) hw
    obtain ⟨k, rfl⟩ : ∃ k, w = k + 1 := ⟨w - 1, by omega⟩
    have hmem : visits[u].node ∈ (visits.take (k + 1)).map Visit.node :=
      List.mem_map.mpr ⟨visits[u], List.mem_take_iff_getElem.mpr ⟨u, by omega, rfl⟩, rfl⟩
    have habove := (depthFirstOrder_visit h hw).2.2.2 _ hmem hedge
    obtain ⟨i, hi, hia, hik⟩ := above_of_liesAbove h hroot hd hlt habove hv hp.symm
    obtain rfl := nodeOf_inj hd hlt hi hu hia
    refine .step (by omega) ?_
    rw [hpar]
    exact hik

end

/-! ### The search numbers the visits -/

/-- With an empty stack the search is over. -/
@[simp] theorem search_nil {α : Type} (g : Digraph α) (fuel : Nat) (N : Numbering) :
    search g fuel [] N = N := by
  cases fuel <;> rfl

/-- One more visit, of a new node from an old one, has the next number. -/
theorem ofVisits_concat {size : Nat} {done : List Visit} {v : Visit}
    (hparents : ∀ u ∈ v :: done, u.parent ≠ v.node) :
    ofVisits size (done ++ [v]) =
      (ofVisits size done).push v.node (((ofVisits size done).number? v.parent).getD 0) := by
  have hnumber : (ofVisits size (done ++ [v])).number =
      assign (ofVisits size done).number (v.node, done.length) := by
    simp [ofVisits, List.zipIdx_append]
  have hsame (u : Visit) (hu : u ∈ v :: done) :
      (ofVisits size (done ++ [v])).number[u.parent]? =
        (ofVisits size done).number[u.parent]? := by
    rw [hnumber, assign, Array.getElem?_setIfInBounds_ne (hparents u hu).symm]
  have hparent : (ofVisits size (done ++ [v])).parent = (ofVisits size done).parent.push
      (((ofVisits size done).number? v.parent).getD 0) := by
    have hdone : done.map (fun u ↦ (ofVisits size (done ++ [v])).number[u.parent]?.join.getD 0) =
        done.map fun u ↦ (ofVisits size done).number[u.parent]?.join.getD 0 := by
      apply List.map_congr_left
      intro u hu
      rw [hsame u (List.mem_cons_of_mem v hu)]
    change ((done ++ [v]).map fun u ↦
      (ofVisits size (done ++ [v])).number[u.parent]?.join.getD 0).toArray = _
    rw [List.map_append, hdone, List.map_singleton, hsame v List.mem_cons_self,
      ← List.push_toArray]
    rfl
  have horder : (ofVisits size (done ++ [v])).order = (ofVisits size done).order.push v.node := by
    simp [ofVisits]
  have hsize : (ofVisits size done).size = done.length := size_ofVisits size done
  rw [push, hsize, ← horder, ← hparent]
  change _ = Numbering.mk _ (assign _ (v.node, done.length)) _
  rw [← hnumber]

private theorem awaits_push (N : Numbering) (n p m : Nat) :
    (N.push n p).awaits m = (N.awaits m && m ≠ n) := by
  rw [awaits, awaits, push]
  by_cases h : m = n
  · subst h
    rw [Array.getElem?_setIfInBounds_self]
    split <;> simp
  · rw [Array.getElem?_setIfInBounds_ne (Ne.symm h)]
    simp [h]

private theorem number?_push_of_ne (N : Numbering) (p : Nat) {n m : Nat} (h : m ≠ n) :
    (N.push n p).number? m = N.number? m := by
  rw [number?, push, Array.getElem?_setIfInBounds_ne (Ne.symm h), number?]

/-- The stack of a traversal, with the number of each entry's parent. -/
def stackOf (N : Numbering) (stack : List Visit) : List (Nat × Nat) :=
  stack.map fun e ↦ (e.node, (N.number? e.parent).getD 0)

-- A visit adds the same entries to both stacks.
private theorem stackOf_visitsFrom {α : Type} {N : Numbering} {marks : Array Bool} {n w : Nat}
    (g : Digraph α) (hawaits : ∀ m, N.awaits m = !isMarked marks m) (hn : N.number? n = some w) :
    N.stackOf (g.visitsFrom marks n) = ((g.successors n).filter N.awaits).map (·, w) := by
  have hfilter : (g.successors n).filter N.awaits =
      (g.successors n).filter fun s ↦ !isMarked marks s :=
    List.filter_congr fun s _ ↦ hawaits s
  rw [stackOf, visitsFrom, List.map_map, hfilter]
  apply List.map_congr_left
  intro s _
  rw [Function.comp_apply, hn, Option.getD_some]

/-- What holds of the two searches after the visits `done`: the nodes without a number are those
without a mark, and what is on the stack was put there by a visit. -/
private structure Alongside (size : Nat) (done stack : List Visit) (marks : Array Bool) :
    Prop where
  awaits_eq : ∀ n, (ofVisits size done).awaits n = !isMarked marks n
  marked : ∀ u ∈ done, isMarked marks u.node = true
  parents : ∀ u ∈ done, u.parent ∈ done.map Visit.node
  stacked : ∀ e ∈ stack, e.parent ∈ done.map Visit.node

section

variable {α : Type} {g : Digraph α} {size : Nat} {done stack : List Visit} {marks : Array Bool}
  {v : Visit}

private theorem Alongside.ne (h : Alongside size done stack marks)
    (hv : isMarked marks v.node = false) {u : Nat} (hu : u ∈ done.map Visit.node) :
    u ≠ v.node := by
  obtain ⟨e, he, rfl⟩ := List.mem_map.mp hu
  intro heq
  have hmark := h.marked e he
  rw [heq, hv] at hmark
  contradiction

private theorem Alongside.concat (h : Alongside size done (v :: stack) marks)
    (hv : isMarked marks v.node = false) :
    ofVisits size (done ++ [v]) =
      (ofVisits size done).push v.node (((ofVisits size done).number? v.parent).getD 0) := by
  apply ofVisits_concat
  intro u hu
  rcases List.mem_cons.mp hu with rfl | hu
  · exact h.ne hv (h.stacked _ List.mem_cons_self)
  · exact h.ne hv (h.parents u hu)

private theorem Alongside.visit (h : Alongside size done (v :: stack) marks)
    (hv : isMarked marks v.node = false) (g : Digraph α) :
    Alongside size (done ++ [v])
      (g.visitsFrom (marks.setIfInBounds v.node true) v.node ++ stack)
      (marks.setIfInBounds v.node true) := by
  have hmem (u : Nat) (hu : u ∈ done.map Visit.node) : u ∈ (done ++ [v]).map Visit.node := by
    rw [List.map_append]
    exact List.mem_append_left _ hu
  refine ⟨fun n ↦ ?_, fun u hu ↦ ?_, fun u hu ↦ ?_, fun e he ↦ ?_⟩
  · rw [h.concat hv, awaits_push, h.awaits_eq, Bool.eq_iff_iff]
    simp only [Bool.and_eq_true, Bool.not_eq_true', decide_eq_true_eq, ← Bool.not_eq_true,
      isMarked_set]
    tauto
  · rw [isMarked_set]
    rcases List.mem_append.mp hu with hu | hu
    · exact .inr (h.marked u hu)
    · exact .inl (by rw [List.mem_singleton.mp hu])
  · rcases List.mem_append.mp hu with hu | hu
    · exact hmem _ (h.parents u hu)
    · rw [List.mem_singleton.mp hu]
      exact hmem _ (h.stacked v List.mem_cons_self)
  · rcases List.mem_append.mp he with he | he
    · rw [(mem_visitsFrom.mp he).1]
      simp
    · exact hmem _ (h.stacked e (List.mem_cons_of_mem v he))

-- The stack that the search goes on with after a visit.
private theorem Alongside.stackOf_visit (h : Alongside size done (v :: stack) marks)
    (hv : isMarked marks v.node = false) (hlt : v.node < size) (g : Digraph α) :
    (ofVisits size (done ++ [v])).stackOf
        (g.visitsFrom (marks.setIfInBounds v.node true) v.node ++ stack) =
      ((g.successors v.node).filter (ofVisits size (done ++ [v])).awaits).map (·, done.length) ++
        (ofVisits size done).stackOf stack := by
  have hnext := h.visit hv g
  have hnumber : (ofVisits size (done ++ [v])).number? v.node = some done.length := by
    rw [h.concat hv, number?, push, size_ofVisits, Array.getElem?_setIfInBounds_self_of_lt]
    · rfl
    · simpa [ofVisits, size_foldl_assign] using hlt
  rw [stackOf, List.map_append, ← stackOf, stackOf_visitsFrom g hnext.awaits_eq hnumber]
  congr 1
  apply List.map_congr_left
  intro e he
  have hne := h.ne hv (h.stacked e (List.mem_cons_of_mem v he))
  rw [h.concat hv, number?_push_of_ne _ _ hne]

-- The numbering search and the traversal go step by step alongside each other.
private theorem search_eq (fuel : Nat) (h : Alongside size done stack marks)
    (hsize : marks.size = size) :
    search g fuel ((ofVisits size done).stackOf stack) (ofVisits size done) =
      ofVisits size (done ++ g.traverse fuel stack marks) := by
  induction fuel generalizing done stack marks with
  | zero => simp [search, Digraph.traverse]
  | succ fuel ih =>
    cases stack with
    | nil => simp [stackOf]
    | cons v stack =>
      have hawaits := h.awaits_eq v.node
      rw [stackOf, List.map_cons, search, hawaits, Digraph.traverse]
      cases hv : isMarked marks v.node with
      | true =>
        exact ih ⟨h.awaits_eq, h.marked, h.parents,
          fun e he ↦ h.stacked e (List.mem_cons_of_mem v he)⟩ hsize
      | false =>
        have hlt : v.node < size := hsize ▸ lt_of_unmarked (by simp [hv])
        simp only [Bool.not_false, ↓reduceIte, Bool.false_eq_true, size_ofVisits]
        rw [← h.concat hv, ← stackOf, ← h.stackOf_visit hv hlt g,
          ih (h.visit hv g) (by simpa using hsize), List.append_assoc, List.singleton_append]

end

end Bytecode.Numbering

namespace Bytecode.Digraph

open Bytecode.Numbering

/-- The numbering of a graph numbers the visits of its depth-first traversal. -/
theorem numbering_eq_ofVisits {α : Type} (g : Digraph α) (entry : Nat) :
    g.numbering entry = ofVisits g.size (g.visits [entry]) := by
  have hawaits (n : Nat) :
      (Numbering.empty g.size).awaits n = !isMarked (Array.replicate g.size false) n := by
    rw [awaits, Numbering.empty, isMarked, Array.getElem?_replicate, Array.getElem?_replicate]
    split <;> simp
  rw [Digraph.numbering, search, hawaits]
  by_cases he : entry < g.size
  · -- The root is its own parent and has number `0`; after it the two searches agree.
    have hmark : isMarked (Array.replicate g.size false) entry = false := by
      rw [← Bool.not_eq_true, isMarked_replicate]
      omega
    have hroot : ofVisits g.size [⟨entry, entry⟩] = (Numbering.empty g.size).push entry 0 := by
      simp [Numbering.empty, push, ofVisits, assign, Numbering.size, he]
    have hnumber : (ofVisits g.size [⟨entry, entry⟩]).number? entry = some 0 := by
      simp [number?, ofVisits, assign, he]
    have hstart : Alongside g.size [⟨entry, entry⟩]
        (g.visitsFrom ((Array.replicate g.size false).setIfInBounds entry true) entry)
        ((Array.replicate g.size false).setIfInBounds entry true) := by
      refine ⟨fun n ↦ ?_, by simp [isMarked_set], by simp, fun e he ↦ ?_⟩
      · rw [hroot, awaits_push, hawaits, Bool.eq_iff_iff]
        simp only [Bool.and_eq_true, Bool.not_eq_true', decide_eq_true_eq, ← Bool.not_eq_true,
          isMarked_set]
        tauto
      · rw [(mem_visitsFrom.mp he).1]
        simp
    rw [visits_singleton he, ← List.singleton_append, ← search_eq _ hstart (by simp),
      stackOf_visitsFrom g hstart.awaits_eq hnumber, hroot, hmark]
    simp [Numbering.size, Numbering.empty]
  · have hmark : isMarked (Array.replicate g.size false) entry = true := by
      rw [isMarked_replicate]
      omega
    have hnone : g.visits [entry] = [] := by simp [visits, traverse, hmark]
    rw [hnone, hmark]
    exact search_nil g _ _

end Bytecode.Digraph
