import Bytecode.Flow.FlowGraph
import Bytecode.Optimize.Trampolines

/-!
# Chains

A block that ends in a jump to a block which nothing else leads to can take that block in. Such
links form chains, and a whole chain is fused into its first block at once. Links respect handlers
and the identity of entry and exported blocks; predecessors that nothing reaches do not count, and
their references move to the head of the chain.
-/

namespace Bytecode.Merge

/-- The block that block `a` can take in. `live` says which blocks are reached. -/
def link? (f : Func) (c : FlowGraph) (live : BlockId → Bool) (a : BlockId) (block : Block) :
    Option BlockId :=
  match block.terminator? with
  | some (.jump b) =>
    match f.block? b with
    | some next =>
      if live a && b ≠ a && b ≠ c.entryBlock && !next.exported && next.handler = block.handler &&
          (c.predecessorBlocks b).filter live = [a] then some b
      else none
    | none => none
  | _ => none

/-- All links, in layout order. -/
def links (f : Func) (c : FlowGraph) : Forwarding :=
  let marks := c.live
  let live (b : BlockId) : Bool := (c.node? b).any fun n => marks[n]?.getD false
  ⟨f.blocks.filterMap fun b => (link? f c live b.1 b.2).map (b.1, ·)⟩

/-- A chain of links: its first block and those to be taken in, in order. -/
structure Chain where
  head : BlockId
  rest : List BlockId
  deriving DecidableEq, Repr

/-- The blocks that links lead to from block `b`, for at most `fuel` links. -/
def linked (m : Forwarding) : Nat → BlockId → List BlockId
  | 0, _ => []
  | fuel + 1, b =>
    match m.next? b with
    | none => []
    | some next => next :: linked m fuel next

/-- The blocks at which chains start: they have a link, and none leads to them. -/
def heads (f : Func) (m : Forwarding) : List BlockId :=
  f.layout.filter fun b => (m.next? b).isSome && !(m.entries.map Prod.snd).contains b

/-- The chains of the given links. -/
def chains (f : Func) (m : Forwarding) : List Chain :=
  (heads f m).map fun b => ⟨b, linked m m.entries.length b⟩

/-- The instructions of a chain with the given head and handler: the bodies of its blocks, and the
terminator of the last one. -/
def fusedCode (f : Func) (head : BlockId) (handler : Option BlockId) :
    List BlockId → Except Fault (List Instr)
  | [] => .ok []
  | id :: rest =>
    match f.block? id with
    | none => .error (.foreignBlock id f.name)
    | some b =>
      if b.handler ≠ handler then .error (.chainCrossesHandler id head)
      else if rest.isEmpty then .ok b.code
      else
        match fusedCode f head handler rest with
        | .error fault => .error fault
        | .ok code => .ok (b.body ++ code)

/-- The instructions of a chain. -/
def Chain.code (chain : Chain) (f : Func) : Except Fault (List Instr) :=
  match f.block? chain.head with
  | none => .error (.foreignBlock chain.head f.name)
  | some b => fusedCode f chain.head b.handler (chain.head :: chain.rest)

/-- Remove a block that was taken in, and let the head stand for it. -/
def dropLink (head : BlockId) (f : Func) (link : BlockId) : Func :=
  (f.removeBlock link).redirect link head

/-- Put the code of a chain into its head and remove the other blocks. -/
def Chain.collapse (chain : Chain) (code : List Instr) (f : Func) : Func :=
  chain.rest.foldl (dropLink chain.head)
    (f.modifyBlock chain.head fun b => { b with code := code })

/-- Fuse one chain; the result is how many blocks were taken in. -/
def fuse (chain : Chain) : Transform Nat := do
  let f ← Transform.current
  let code ← Transform.ofExcept (chain.code f)
  Transform.update (chain.collapse code)
  Transform.record
    { kind := .blocksFused
      block := some chain.head
      message := BlockId.label chain.head ++ " <- " ++
        ", ".intercalate (chain.rest.map BlockId.label)
      pass := some passName
      absorbed := chain.rest }
  pure chain.rest.length

/-- Fuse all chains; the result is how many blocks were taken in. -/
def fuseChains : Transform Nat := do
  let f ← Transform.current
  let c ← Transform.ofExcept (FlowGraph.ofFunc f)
  Transform.sumOver fuse (chains f (links f c))

end Bytecode.Merge
