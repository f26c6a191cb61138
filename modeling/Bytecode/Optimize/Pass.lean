import Bytecode.Optimize.Handlers
import Bytecode.Optimize.Merge
import Bytecode.Optimize.Placement
import Bytecode.Optimize.Slots

/-!
# Passes

The four passes of the optimiser under one roof: their names, when they apply, and what they do.
-/

namespace Bytecode

/-- A pass of the optimiser. -/
inductive Pass where
  | handlers
  | merge
  | placement
  | slots
  deriving DecidableEq, Repr

namespace Pass

/-- All passes. -/
def all : List Pass := [handlers, merge, placement, slots]

/-- The name of a pass. -/
def name : Pass → String
  | handlers => Handlers.passName
  | merge => Merge.passName
  | placement => Placement.passName
  | slots => Slots.passName

/-- What a pass does, in words. -/
def description : Pass → String
  | handlers => Handlers.passDescription
  | merge => Merge.passDescription
  | placement => Placement.passDescription
  | slots => Slots.passDescription

/-- The pass with a name. -/
def ofName? (s : String) : Option Pass := all.find? (·.name = s)

/-- The pass may find something to do in the function. -/
def applies (settings : Settings) (f : Func) : Pass → Bool
  | handlers => true
  | merge => 1 < f.blockCount
  | placement => true
  | slots => Slots.isWorthwhile settings f

/-- Run a pass; the result is whether the function changed. -/
def run (settings : Settings) : Pass → Transform Bool
  | handlers => Handlers.run
  | merge => Merge.run settings
  | placement => Placement.run
  | slots => Slots.run settings

end Pass

end Bytecode
