/-!
# Indices and counts

Blocks, graph nodes, registers and constants are named by their position. The positions are plain
natural numbers; the labels below are how listings show them. Operand and register counts are
32-bit quantities, so the sums that the instruction set forms from them stop at `countLimit`.
-/

namespace Bytecode

/-- The handle of a block: the arena slot it lives in, which never changes. -/
abbrev BlockId := Nat

/-- A register; those below a function's argument count hold its parameters. -/
abbrev Register := Nat

/-- A position in a function's constant pool. -/
abbrev ConstIndex := Nat

/-- How listings show a block. -/
def BlockId.label (b : BlockId) : String := s!"b{b}"

/-- How listings show a graph node. -/
def nodeLabel (n : Nat) : String := s!"n{n}"

/-- How listings show a register. -/
def Register.label (r : Register) : String := s!"r{r}"

/-- How listings show a constant pool position. -/
def ConstIndex.label (i : ConstIndex) : String := s!"#{i}"

/-- The block handle spelled out with its kind. -/
def BlockId.verbose (b : BlockId) : String := s!"BlockId({b})"

/-- The graph node spelled out with its kind. -/
def nodeVerbose (n : Nat) : String := s!"NodeId({n})"

/-- The register spelled out with its kind. -/
def Register.verbose (r : Register) : String := s!"Register({r})"

/-- The substitution that sends `old` to `new` and keeps every other block. -/
def retarget (old new b : BlockId) : BlockId := if b = old then new else b

/-- To name a block where it was named before changes nothing. -/
@[simp] theorem retarget_self (b : BlockId) : retarget b b = id := by
  funext x
  by_cases h : x = b <;> simp [retarget, h]

/-- The largest operand or register count. -/
def countLimit : Nat := 4294967295

/-- The sum of two counts, held at the largest count. -/
def addCapped (a b : Nat) : Nat := min (a + b) countLimit

/-- A capped sum does not pass the limit of counts. -/
theorem addCapped_le (a b : Nat) : addCapped a b ≤ countLimit := Nat.min_le_right _ _

end Bytecode
