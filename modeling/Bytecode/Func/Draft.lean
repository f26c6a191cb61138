import Bytecode.Func.Edit

/-!
# Functions from declarations

A function is drafted by declaring constants and blocks in any order; blocks may name others that
are declared later or never. Of two declarations of one handle the first counts. Finishing a draft
marks as exported what is pinned, what a table of the pool names, and what handles the exceptions
of a block.
-/

namespace Bytecode

/-- The declaration of a block. -/
structure BlockDecl where
  id : BlockId
  code : List Instr
  handler : Option BlockId := none
  /-- The block is entered from outside the function. -/
  pinned : Bool := false

/-- One declaration of a function under construction. -/
inductive Declaration where
  | constant (c : Constant)
  | block (decl : BlockDecl)

/-- A function under construction. -/
structure Draft where
  func : Func
  /-- The blocks declared to be entered from outside. -/
  pinned : List BlockId := []
  /-- The first refused declaration. -/
  fault : Option Fault := none

namespace Draft

/-- A draft without declarations. -/
def start (name : String) (argCount registerCount : Nat) : Draft :=
  { func := Func.empty name argCount registerCount }

/-- Take up one declaration. -/
def declare (d : Draft) : Declaration → Draft
  | .constant c => { d with func := d.func.addConstant c }
  | .block decl =>
    let attempt := d.func.tryInsertBlock decl.id { code := decl.code, handler := decl.handler }
    match attempt.fault with
    | none =>
      { d with
        func := attempt.func
        pinned := if decl.pinned then decl.id :: d.pinned else d.pinned }
    | some fault => { d with func := attempt.func, fault := d.fault.or (some fault) }

/-- Take up declarations in order. -/
def declareAll (d : Draft) (decls : List Declaration) : Draft := decls.foldl declare d

/-- The block is entered otherwise than by ordinary control flow. -/
def exports (d : Draft) (id : BlockId) : Bool :=
  d.pinned.contains id || d.func.tables.any (fun t => t.targets.contains id) ||
    d.func.blocks.any fun b => b.2.handler = some id

/-- Mark block `id` if the draft exports it. -/
def markExport (d : Draft) (id : BlockId) (b : Block) : Block :=
  if d.exports id then { b with exported := true } else b

/-- The finished function; refused declarations have left no trace. -/
def build (d : Draft) : Func :=
  { d.func with arena := d.func.arena.mapIdx fun id slot => slot.map (d.markExport id) }

/-- The finished function, unless a declaration was refused. -/
def tryBuild (d : Draft) : Except Fault Func :=
  match d.fault with
  | some fault => .error fault
  | none => .ok d.build

/-- A block whose handle is in use leaves its fault, if it is the first, and nothing else. -/
theorem declare_block_of_contains {d : Draft} {decl : BlockDecl}
    (h : d.func.contains decl.id = true) :
    d.declare (.block decl) =
      { d with fault := d.fault.or (some (.duplicateBlock decl.id)) } := by
  rw [declare, Func.tryInsertBlock_of_contains h]

/-- A block with a handle of its own is placed as it is declared. -/
theorem declare_block_of_insertBlock {d : Draft} {decl : BlockDecl} {func : Func}
    (h : d.func.insertBlock decl.id { code := decl.code, handler := decl.handler } = .ok func) :
    d.declare (.block decl) =
      { d with func, pinned := if decl.pinned then decl.id :: d.pinned else d.pinned } := by
  obtain ⟨hfree, rfl⟩ := Func.insertBlock_eq_ok_iff.mp h
  rw [declare, Func.tryInsertBlock_of_not_contains hfree]

end Draft

end Bytecode
