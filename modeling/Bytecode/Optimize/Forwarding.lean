import Bytecode.Index

/-!
# Forwarding

A forwarding map sends some blocks on to others, which may be sent on in turn. Following it ends at
the first block that is not sent on, or never ends when it runs into a cycle. Nothing here depends
on what a block is, so a map may be about anything that can be compared.
-/

namespace Bytecode

/-- Blocks with the block each is sent on to. Of two entries for one block the first counts. -/
structure Forwarding (α : Type := BlockId) where
  entries : List (α × α)

namespace Forwarding

variable {α : Type} [DecidableEq α]

/-- Where a block is sent on to, if it is. -/
def next? (m : Forwarding α) (b : α) : Option α := m.entries.lookup b

/-- The entries for blocks that have not been visited. -/
def unvisited (m : Forwarding α) (visited : List α) : List (α × α) :=
  m.entries.filter (·.1 ∉ visited)

/-- The next name after `b` comes from an entry of the map. -/
theorem mem_of_next? {m : Forwarding α} {b c : α} (h : m.next? b = some c) :
    (b, c) ∈ m.entries := by
  rw [next?, List.lookup_eq_some_iff] at h
  obtain ⟨l, r, hl, _⟩ := h
  simp [hl]

/-- Visiting a block that is sent on leaves fewer entries unvisited. -/
theorem length_unvisited_lt {m : Forwarding α} {b c : α} {visited : List α}
    (h : m.next? b = some c) (hb : b ∉ visited) :
    (m.unvisited (b :: visited)).length < (m.unvisited visited).length := by
  have hrest : m.unvisited (b :: visited) = (m.unvisited visited).filter (·.1 ≠ b) := by
    simp [unvisited, List.filter_filter]
  rw [hrest, List.length_filter_lt_length_iff_exists]
  refine ⟨(b, c), ?_, by simp⟩
  simp [unvisited, mem_of_next? h, hb]

/-- Follow the map from block `b` to a block that is not sent on; none if the way comes to one of
the blocks visited before. -/
def walk (m : Forwarding α) (visited : List α) (b : α) : Option α :=
  match _ : m.next? b with
  | none => some b
  | some c => if b ∈ visited then none else m.walk (b :: visited) c
termination_by (m.unvisited visited).length
decreasing_by exact length_unvisited_lt ‹_› ‹_›

/-- The block at which following the map from `b` ends; none if it runs into a cycle. -/
def resolve (m : Forwarding α) (b : α) : Option α := m.walk [] b

end Forwarding

end Bytecode
