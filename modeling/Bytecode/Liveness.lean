import Bytecode.Func
import Std.Data.TreeMap

/-!
# Live ranges

The instructions of a function are numbered in layout order. Each has a point at which it reads its
register and, just after it, one at which it writes; the point with number `2 * p` is the read of
position `p`, and `2 * p + 1` the write. A register that is no argument is live from its first
write to its last access.
-/

namespace Bytecode

namespace Point

/-- Where the instruction at a position reads. -/
def read (position : Nat) : Nat := 2 * position

/-- Where the instruction at a position writes. -/
def write (position : Nat) : Nat := 2 * position + 1

/-- The position of the instruction. -/
def position (p : Nat) : Nat := p / 2

/-- It is a point of writing. -/
def isWrite (p : Nat) : Bool := p % 2 = 1

/-- The point just after. -/
def next (p : Nat) : Nat := p + 1

end Point

/-- The points from `start` to before `stop`. -/
structure LiveRange where
  /-- The first write. -/
  start : Nat
  /-- Just after the last access. -/
  stop : Nat
  deriving DecidableEq, Repr

namespace LiveRange

/-- The two ranges share a point, if neither is empty. -/
def overlaps (r s : LiveRange) : Bool := r.start < s.stop && s.start < r.stop

/-- The point lies in the range. -/
def contains (r : LiveRange) (p : Nat) : Bool := r.start ≤ p && p < r.stop

/-- The point is the last one of the range. -/
def endsAt (r : LiveRange) (p : Nat) : Bool := Point.next p = r.stop

end LiveRange

/-- An instruction with its place. -/
structure Site where
  block : BlockId
  offset : Nat
  instr : Instr

/-- The instructions of a block with their places. -/
def Block.sites (b : Block) (id : BlockId) : List Site :=
  b.code.zipIdx.map fun i => ⟨id, i.2, i.1⟩

/-- All instructions in layout order; the index in this list is the position. -/
def Func.sites (f : Func) : List Site := f.blocks.flatMap fun b => b.2.sites b.1

/-- The live ranges of registers. -/
abbrev LiveRanges := Std.TreeMap Register LiveRange

/-- The live ranges of the registers of a function that are no arguments. -/
structure Liveness where
  argCount : Nat
  ranges : LiveRanges
  sites : Array Site

namespace Liveness

/-- Extend the range of register `r` to just after point `p`. -/
def extendTo (ranges : LiveRanges) (r : Register) (p : Nat) (range : LiveRange) : LiveRanges :=
  ranges.insert r { range with stop := Point.next p }

/-- Account for what the instruction at position `p` reads. -/
def noteRead (argCount p : Nat) (s : Site) (ranges : LiveRanges) : Except Fault LiveRanges :=
  match s.instr.reads with
  | none => .ok ranges
  | some r =>
    if r < argCount then .ok ranges
    else
      match ranges[r]? with
      | none => .error (.registerReadBeforeWrite r s.block s.offset)
      | some range => .ok (extendTo ranges r (Point.read p) range)

/-- Account for what the instruction at position `p` writes. -/
def noteWrite (argCount p : Nat) (s : Site) (ranges : LiveRanges) : LiveRanges :=
  match s.instr.writes with
  | none => ranges
  | some r =>
    if r < argCount then ranges
    else
      extendTo ranges r (Point.write p) (ranges.getD r ⟨Point.write p, Point.next (Point.write p)⟩)

/-- Account for instructions of which the first is at position `p`. -/
def scan (argCount : Nat) : Nat → List Site → LiveRanges → Except Fault LiveRanges
  | _, [], ranges => .ok ranges
  | p, s :: rest, ranges =>
    match noteRead argCount p s ranges with
    | .error fault => .error fault
    | .ok ranges' => scan argCount (p + 1) rest (noteWrite argCount p s ranges')

/-- The live ranges of a function. It fails at the first read of a register that nothing before it
in the layout has written. -/
def ofFunc (f : Func) : Except Fault Liveness :=
  match scan f.argCount 0 f.sites ∅ with
  | .error fault => .error fault
  | .ok ranges => .ok ⟨f.argCount, ranges, f.sites.toArray⟩

/-- The range of a register; none for arguments and registers never written. -/
def range? (l : Liveness) (r : Register) : Option LiveRange := l.ranges[r]?

/-- The register is an argument. -/
def isArgument (l : Liveness) (r : Register) : Bool := r < l.argCount

/-- The block of a point and the offset of its instruction in it. -/
def location? (l : Liveness) (p : Nat) : Option (BlockId × Nat) :=
  (l.sites[Point.position p]?).map fun s => (s.block, s.offset)

/-- The registers must not share a slot. Arguments keep theirs to themselves. -/
def interferes (l : Liveness) (a b : Register) : Bool :=
  if a = b then true
  else if l.isArgument a || l.isArgument b then true
  else
    match l.range? a, l.range? b with
    | some r, some s => r.overlaps s
    | _, _ => false

end Liveness

end Bytecode
