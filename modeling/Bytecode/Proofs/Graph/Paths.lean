import Bytecode.Proofs.Graph.Adjacency

/-!
# Paths and dominance

A path lists the nodes that it meets, both ends included. Reachability and dominance are said in
terms of paths alone, without any tree or numbering.
-/

namespace Bytecode.Digraph

variable {α : Type}

/-- The path from one node to another that meets the listed nodes. -/
inductive Path (g : Digraph α) : Nat → Nat → List Nat → Prop
  | single {n : Nat} : n < g.size → Path g n n [n]
  | cons {u v w : Nat} {p : List Nat} : v ∈ g.successors u → Path g v w p → Path g u w (u :: p)

/-- There is a path from `u` to `v`. -/
def Reaches (g : Digraph α) (u v : Nat) : Prop := ∃ p, g.Path u v p

/-- Both nodes are reached from the entry, and every path from there to `b` meets `a`. -/
structure Dominates (g : Digraph α) (entry a b : Nat) : Prop where
  reaches_left : g.Reaches entry a
  reaches_right : g.Reaches entry b
  mem_path : ∀ p, g.Path entry b p → a ∈ p

/-- `d` is the strict dominator of `b` that every other strict dominator of `b` dominates. -/
structure DominatesImmediately (g : Digraph α) (entry d b : Nat) : Prop where
  ne : d ≠ b
  dominates : g.Dominates entry d b
  least : ∀ c, c ≠ b → c ≠ d → g.Dominates entry c b → g.Dominates entry c d

variable {g : Digraph α} {u v w x : Nat} {p q : List Nat}

/-- A path ends at a node. -/
theorem Path.lt_right (h : g.Path u v p) : v < g.size := by
  induction h with
  | single hn => exact hn
  | cons _ _ ih => exact ih

/-- A path starts at a node. -/
theorem Path.lt_left (h : g.Path u v p) : u < g.size := by
  cases h with
  | single hn => exact hn
  | cons he _ => exact lt_of_mem_successors he

/-- A path meets its end. -/
theorem Path.mem_right (h : g.Path u v p) : v ∈ p := by
  induction h with
  | single _ => exact List.mem_cons_self
  | cons _ _ ih => exact List.mem_cons_of_mem _ ih

/-- A path meets nodes only. -/
theorem Path.lt_of_mem (h : g.Path u v p) (hw : w ∈ p) : w < g.size := by
  induction h with
  | single hn => exact List.mem_singleton.mp hw ▸ hn
  | cons he _ ih =>
    rcases List.mem_cons.mp hw with rfl | hw
    · exact lt_of_mem_successors he
    · exact ih hw

/-- A path can be extended by an edge at its end. -/
theorem Path.snoc (hg : g.WF) (h : g.Path u v p) (he : w ∈ g.successors v) :
    g.Path u w (p ++ [w]) := by
  induction h with
  | single _ => exact .cons he (.single (hg.succ_lt _ _ he))
  | cons h1 _ ih => exact .cons h1 (ih he)

/-- Two paths that meet are one path. -/
theorem Path.append (h : g.Path u v p) (h' : g.Path v w q) : g.Path u w (p ++ q.tail) := by
  induction h with
  | single _ =>
    cases h' with
    | single hn => exact .single hn
    | cons he hq => exact .cons he hq
  | cons he _ ih => exact .cons he (ih h')

/-- A path can be cut at any node that it meets. -/
theorem Path.split (h : g.Path u v p) (hx : x ∈ p) :
    ∃ q r, p = q ++ x :: r ∧ g.Path u x (q ++ [x]) ∧ g.Path x v (x :: r) := by
  induction h with
  | @single n hn =>
    obtain rfl := List.mem_singleton.mp hx
    exact ⟨[], [], rfl, .single hn, .single hn⟩
  | @cons u y v p he hp ih =>
    rcases List.mem_cons.mp hx with rfl | hx
    · exact ⟨[], p, rfl, .single (lt_of_mem_successors he), .cons he hp⟩
    · obtain ⟨q, r, rfl, hq, hr⟩ := ih hx
      exact ⟨u :: q, r, rfl, .cons he hq, hr⟩

/-- After the last node of a kind, a path meets no other of that kind. -/
theorem Path.exists_last {P : Nat → Prop} (h : g.Path u v p) (hP : ∃ x ∈ p, P x) :
    ∃ y q, P y ∧ g.Path y v (y :: q) ∧ ∀ x ∈ q, ¬P x := by
  induction h with
  | @single n hn =>
    obtain ⟨x, hx, hPx⟩ := hP
    obtain rfl := List.mem_singleton.mp hx
    exact ⟨x, [], hPx, .single hn, by simp⟩
  | @cons u y v p he hp ih =>
    by_cases hlater : ∃ x ∈ p, P x
    · exact ih hlater
    · obtain ⟨x, hx, hPx⟩ := hP
      have hxu : x = u := (List.mem_cons.mp hx).resolve_right fun hx ↦ hlater ⟨x, hx, hPx⟩
      exact ⟨u, p, hxu ▸ hPx, .cons he hp, fun x hx hPx ↦ hlater ⟨x, hx, hPx⟩⟩

/-- Every node reaches itself. -/
theorem Reaches.refl (h : u < g.size) : g.Reaches u u := ⟨[u], .single h⟩

/-- What a node reaches leads on to more that it reaches. -/
theorem Reaches.snoc (hg : g.WF) (h : g.Reaches u v) (he : w ∈ g.successors v) :
    g.Reaches u w := by
  obtain ⟨p, hp⟩ := h
  exact ⟨p ++ [w], hp.snoc hg he⟩

/-- What holds at the start and passes along edges holds of every node that is reached. -/
theorem Reaches.induct {P : Nat → Prop} (h : g.Reaches u v) (h0 : P u)
    (hstep : ∀ x y, P x → y ∈ g.successors x → P y) : P v := by
  obtain ⟨p, hp⟩ := h
  induction hp with
  | single _ => exact h0
  | cons he _ ih => exact ih (hstep _ _ h0 he)

end Bytecode.Digraph
