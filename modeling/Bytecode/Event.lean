import Bytecode.Index

/-!
# Events

What happens to a function on its way through the optimiser is kept as a log of events. Some kinds
stand for a change of the code; a summary counts those.
-/

namespace Bytecode

/-- The kinds of event. -/
inductive EventKind where
  | trampolineRemoved
  | blocksFused
  | handlerCleared
  | blockRemoved
  | registersReduced
  | loopDetected
  | passSkipped
  | passStarted
  | passCompleted
  | error
  deriving DecidableEq, Repr

namespace EventKind

/-- All kinds, in order. -/
def all : List EventKind :=
  [trampolineRemoved, blocksFused, handlerCleared, blockRemoved, registersReduced, loopDetected,
    passSkipped, passStarted, passCompleted, error]

/-- The list of all kinds leaves none out. -/
theorem mem_all (k : EventKind) : k ∈ all := by cases k <;> decide

/-- The kind in words. -/
def description : EventKind → String
  | trampolineRemoved => "trampoline removed"
  | blocksFused => "blocks fused"
  | handlerCleared => "handler cleared"
  | blockRemoved => "block removed"
  | registersReduced => "registers reduced"
  | loopDetected => "loop detected"
  | passSkipped => "pass skipped"
  | passStarted => "pass started"
  | passCompleted => "pass completed"
  | error => "error"

/-- The name of the kind: the words of its description, capitalised and joined. -/
def name (k : EventKind) : String :=
  String.join ((k.description.splitOn " ").map String.capitalize)

/-- The kind stands for a change of the code. -/
def isTransformation : EventKind → Bool
  | trampolineRemoved | blocksFused | handlerCleared | blockRemoved | registersReduced => true
  | _ => false

end EventKind

/-- Something that happened. -/
structure Event where
  kind : EventKind
  /-- The function it happened to. -/
  function : Option String := none
  /-- The block it happened to. -/
  block : Option BlockId := none
  /-- What to tell the reader. -/
  message : String := kind.description
  /-- The pass that did it. -/
  pass : Option String := none
  /-- The blocks that were taken into `block`. -/
  absorbed : List BlockId := []
  deriving DecidableEq

/-- The event as a line of text. -/
def Event.text (e : Event) : String :=
  "[" ++ e.kind.description ++ "]" ++ (e.function.map (" " ++ ·)).getD "" ++
    (e.block.map (":" ++ BlockId.label ·)).getD "" ++ " " ++ e.message

/-- Events in the order they happened. -/
structure EventLog where
  events : List Event := []

namespace EventLog

/-- The log with an event added. -/
def record (log : EventLog) (e : Event) : EventLog := ⟨log.events ++ [e]⟩

/-- The log with the events of another one added. -/
def append (log other : EventLog) : EventLog := ⟨log.events ++ other.events⟩

/-- How many events of a kind there are. -/
def count (log : EventLog) (k : EventKind) : Nat := log.events.countP (·.kind = k)

/-- There is an event of the kind. -/
def has (log : EventLog) (k : EventKind) : Bool := log.events.any (·.kind = k)

/-- The events of one function. -/
def ofFunction (log : EventLog) (function : String) : List Event :=
  log.events.filter (·.function = some function)

/-- The events that stand for changes of the code. -/
def transformations (log : EventLog) : List Event :=
  log.events.filter (·.kind.isTransformation)

/-- The kinds that occur with their counts, in order of kind. -/
def counts (log : EventLog) : List (EventKind × Nat) :=
  (EventKind.all.map fun k => (k, log.count k)).filter (0 < ·.2)

/-- The changes of the code in words, in alphabetical order of the text. -/
def summary (log : EventLog) : String :=
  let parts := (log.counts.filter (·.1.isTransformation)).map fun c =>
    toString c.2 ++ " " ++ c.1.description
  if log.events.isEmpty then "no events"
  else if parts.isEmpty then toString log.events.length ++ " events"
  else ", ".intercalate (parts.mergeSort fun a b => !(b < a))

end EventLog

end Bytecode
