import Bytecode.Flow.Loop
import Bytecode.Func.Validate
import Bytecode.Optimize.Pass
import Bytecode.StackHeight

/-!
# The optimiser

A function is checked, taken through the passes that the settings ask for, and checked again. The
passes work on a copy: a function that cannot be optimised stays what it was.
-/

namespace Bytecode

/-- What the optimiser found out about a function. -/
structure Report where
  /-- Some pass changed the function. -/
  changed : Bool
  backEdges : BackEdges
  loops : List NaturalLoop
  registerCount : Nat
  /-- The largest stack height, if heights were checked. -/
  maxStackDepth : Option Nat
  blocksBefore : Nat
  blocksAfter : Nat

namespace Report

/-- The function has a loop. -/
def hasLoops (r : Report) : Bool := !r.backEdges.isEmpty

/-- How many blocks went. -/
def blocksRemoved (r : Report) : Nat := r.blocksBefore - r.blocksAfter

end Report

namespace Optimizer

/-- The faults of a function that is handed in. -/
def checkInput (settings : Settings) (f : Func) : Except Fault Unit :=
  match f.fault? with
  | some fault => .error fault
  | none =>
    if settings.validateStack then
      match f.stackLayout with
      | .error fault => .error fault
      | .ok _ => .ok ()
    else .ok ()

/-- Check a function that the passes have produced; a fault now is their doing. The result is the
largest stack height, if heights are checked. -/
def checkResult (settings : Settings) (f : Func) : Except Fault (Option Nat) :=
  match f.fault? with
  | some fault => .error (.invalidAfterPasses f.name fault)
  | none =>
    if settings.validateStack then
      match f.stackLayout with
      | .error fault => .error (.unbalancedAfterPasses f.name fault)
      | .ok layout => .ok (some layout.maxDepth)
    else .ok none

/-- Check the function at hand. -/
def checkCurrent (settings : Settings) : Transform (Option Nat) := do
  let f ← Transform.current
  Transform.ofExcept (checkResult settings f)

/-- Run a pass if it applies, and record that it ran or did not. -/
def runPass (settings : Settings) (pass : Pass) : Transform Bool := do
  let f ← Transform.current
  if pass.applies settings f then do
    Transform.record
      { kind := .passStarted, message := pass.description, pass := some pass.name }
    let changed ← pass.run settings
    Transform.record
      { kind := .passCompleted
        message := if changed then "changed" else "unchanged"
        pass := some pass.name }
    pure changed
  else do
    Transform.record
      { kind := .passSkipped, message := "not applicable", pass := some pass.name }
    pure false

/-- Do a step if it is asked for. -/
def onlyIf (asked : Bool) (step : Transform Bool) : Transform Bool :=
  if asked then step else pure false

/-- Record one loop. -/
def recordLoop (l : NaturalLoop) : Transform Unit :=
  Transform.record
    { kind := .loopDetected
      block := some l.header
      message := s!"{l.body.size} blocks, {l.latches.size} latches, depth {l.depth}"
      pass := some "loop-finder" }

/-- Record loops in order. -/
def recordLoops : List NaturalLoop → Transform Unit
  | [] => pure ()
  | l :: rest => do
    recordLoop l
    recordLoops rest

/-- The back edges and loops of the function at hand, if they are asked for. -/
def detectLoops (asked : Bool) : Transform (BackEdges × List NaturalLoop) :=
  if asked then do
    let f ← Transform.current
    let c ← Transform.ofExcept (FlowGraph.ofFunc f)
    let edges := c.backEdges
    let loops := c.loops edges
    recordLoops loops
    pure (edges, loops)
  else pure (.empty, [])

/-- Merge blocks and check the result. -/
def mergeChecked (settings : Settings) : Transform Bool := do
  let changed ← runPass settings .merge
  let _ ← checkCurrent settings
  pure changed

/-- Take a function through all that the settings ask for. -/
def transform (settings : Settings) : Transform Report := do
  let before ← Transform.current
  Transform.ofExcept (checkInput settings before)
  let first ← onlyIf settings.simplifyHandlers (runPass settings .handlers)
  let merged ← onlyIf settings.mergeBlocks (mergeChecked settings)
  let second ← onlyIf settings.simplifyHandlers (runPass settings .handlers)
  let placed ← onlyIf settings.placeBlocks (runPass settings .placement)
  let (edges, loops) ← detectLoops settings.findLoops
  let reduced ← onlyIf settings.reduceRegisters (runPass settings .slots)
  let depth ← checkCurrent settings
  let after ← Transform.current
  pure
    { changed := first || merged || second || placed || reduced
      backEdges := edges
      loops := loops
      registerCount := after.registerCount
      maxStackDepth := depth
      blocksBefore := before.blockCount
      blocksAfter := after.blockCount }

/-- Optimise a function. On a fault, and when nothing changed, the function is the one handed
in. -/
def optimize (settings : Settings) : Transform Report := fun f =>
  let done := transform settings f
  match done.result with
  | .ok report => ⟨if report.changed then done.func else f, done.events, .ok report⟩
  | .error fault =>
    ⟨f, done.events ++
      [{ kind := .error, function := some f.name, message := fault.message }], .error fault⟩

end Optimizer

end Bytecode
