import Bytecode.Flow.FlowGraph
import Bytecode.Func.Edit
import Bytecode.Liveness
import Bytecode.Optimize.Settings
import Bytecode.Optimize.Transform
import Std.Data.TreeSet

/-!
# Register slots

Registers whose live ranges do not meet can share a slot. Slots are handed out in one walk over the
instructions in layout order: a register takes the lowest free slot at its first write and gives it
back at its last access. Arguments keep their slots. Ranges over the layout tell the truth only
while control runs forward through it, so functions with loops or backward transfers are left
alone.
-/

namespace Bytecode.Slots

/-- The name of the pass. -/
def passName : String := "register-reducer"

/-- What the pass does, in words. -/
def passDescription : String :=
  "Reuses physical register slots once a virtual register's live range ends"

/-- The slots handed out so far. -/
structure Assignment where
  /-- The slot of each register that has had one. -/
  slotOf : Std.TreeMap Register Nat
  /-- Slots that were given back. -/
  free : Std.TreeSet Nat
  /-- The first slot that was never handed out. -/
  next : Nat

namespace Assignment

/-- Give back the slot of a register whose range ends at the point. -/
def release (live : Liveness) (a : Assignment) (r : Register) (p : Nat) : Assignment :=
  match live.range? r, a.slotOf[r]? with
  | some range, some slot =>
    if range.endsAt p then { a with free := a.free.insert slot } else a
  | _, _ => a

/-- Hand a slot to a register: the lowest free one, or else a new one. -/
def take (a : Assignment) (r : Register) : Assignment :=
  match a.free.min? with
  | some slot => { a with slotOf := a.slotOf.insert r slot, free := a.free.erase slot }
  | none => { a with slotOf := a.slotOf.insert r a.next, next := a.next + 1 }

/-- Hand a slot to a register whose range starts at the point. -/
def acquire (live : Liveness) (a : Assignment) (r : Register) (p : Nat) : Assignment :=
  match live.range? r with
  | some range => if range.start = p then a.take r else a
  | none => a

/-- Walk over the instruction at a position: its read, then its write. -/
def step (live : Liveness) (a : Assignment) (position : Nat) (i : Instr) : Assignment :=
  let afterRead := match i.reads with
    | some r => a.release live r (Point.read position)
    | none => a
  match i.writes with
  | some r =>
    (afterRead.acquire live r (Point.write position)).release live r (Point.write position)
  | none => afterRead

/-- Walk over instructions of which the first is at `position`. -/
def walk (live : Liveness) : Nat → List Instr → Assignment → Assignment
  | _, [], a => a
  | position, i :: rest, a => walk live (position + 1) rest (a.step live position i)

/-- The slots of all registers that have a live range. -/
def ofFunc (f : Func) (live : Liveness) : Assignment :=
  walk live 0 (f.sites.map Site.instr) ⟨∅, ∅, f.argCount⟩

/-- The slot of a register; a register without a range keeps its number. -/
def slot (a : Assignment) (r : Register) : Nat := a.slotOf.getD r r

/-- Some register moves to another slot. -/
def moves (a : Assignment) : Bool := a.slotOf.toList.any fun s => s.1 ≠ s.2

end Assignment

/-- Every block that `b` names stands after position `position` of the layout. -/
def isForward (f : Func) (position : Nat) (targets : List BlockId) : Bool :=
  targets.all fun t => (f.layout.idxOf? t).any (position < ·)

/-- Every successor and handler of the given blocks, of which the first is at `position` in the
layout, stands further back in it. -/
def allForward (f : Func) : Nat → List (BlockId × Block) → Except Fault Bool
  | _, [] => .ok true
  | position, (id, b) :: rest =>
    match f.successors id with
    | .error fault => .error fault
    | .ok targets =>
      if isForward f position (targets ++ b.handler.toList) then allForward f (position + 1) rest
      else .ok false

/-- There are enough registers beyond the arguments to make the effort. -/
def isWorthwhile (settings : Settings) (f : Func) : Bool :=
  addCapped f.argCount settings.reductionHeadroom ≤ f.registerCount

/-- Why the function is left alone, if it is. -/
def obstacle? (f : Func) : Except Fault (Option String) :=
  match FlowGraph.ofFunc f with
  | .error fault => .error fault
  | .ok c =>
    if c.hasBackEdges then .ok (some "function contains loops")
    else
      match allForward f 0 f.blocks with
      | .error fault => .error fault
      | .ok true => .ok none
      | .ok false => .ok (some "layout has backward control transfers")

/-- The function with its registers renamed and counted anew. -/
def rename (slot : Register → Register) (count : Nat) (f : Func) : Func :=
  { f with
    arena := f.arena.map (Option.map (Block.mapCode (Instr.mapRegisters slot slot)))
    registerCount := count }

/-- Let registers share slots; the result is whether the function changed. -/
def reduce (settings : Settings) : Transform Bool := do
  let f ← Transform.current
  let live ← Transform.ofExcept (Liveness.ofFunc f)
  let a := Assignment.ofFunc f live
  let count := max a.next settings.minRegisters
  if !a.moves && f.registerCount = count then pure false
  else do
    Transform.update (rename a.slot count)
    Transform.record
      { kind := .registersReduced
        message := s!"{f.registerCount} -> {count} registers"
        pass := some passName }
    pure true

/-- Let registers share slots unless control does not run forward. -/
def run (settings : Settings) : Transform Bool := do
  let f ← Transform.current
  match ← Transform.ofExcept (obstacle? f) with
  | some reason =>
    Transform.record { kind := .passSkipped, message := reason, pass := some passName }
    pure false
  | none => reduce settings

end Bytecode.Slots
