import Bytecode.Event
import Bytecode.Func

/-!
# Transformations of a function

A transformation changes a function, records events, and ends with a value or a fault. What was
done before a fault stays done: the function and the events are there in either case.
-/

namespace Bytecode

/-- What a transformation leaves behind. -/
structure Outcome (α : Type) where
  func : Func
  events : List Event
  result : Except Fault α

/-- A step that changes a function, records events, and may fail. -/
def Transform (α : Type) : Type := Func → Outcome α

namespace Transform

variable {α β : Type}

/-- End with a value, having done nothing. -/
protected def pure (a : α) : Transform α := fun f => ⟨f, [], .ok a⟩

/-- Do one step and, unless it fails, another one that depends on its value. -/
protected def bind (x : Transform α) (k : α → Transform β) : Transform β := fun f =>
  let first := x f
  match first.result with
  | .error fault => ⟨first.func, first.events, .error fault⟩
  | .ok a =>
    let second := k a first.func
    ⟨second.func, first.events ++ second.events, second.result⟩

instance : Monad Transform where
  pure := Transform.pure
  bind := Transform.bind

/-- The function as it is now. -/
def current : Transform Func := fun f => ⟨f, [], .ok f⟩

/-- Change the function. -/
def update (g : Func → Func) : Transform Unit := fun f => ⟨g f, [], .ok ()⟩

/-- Record an event of the function at hand. -/
def record (e : Event) : Transform Unit := fun f =>
  ⟨f, [{ e with function := some f.name }], .ok ()⟩

/-- End with the given result, having done nothing. -/
def ofExcept (r : Except Fault α) : Transform α := fun f => ⟨f, [], r⟩

/-- Fail. -/
def fail (fault : Fault) : Transform α := ofExcept (.error fault)

/-- A pure step leaves the function and records nothing. -/
theorem pure_apply (a : α) (f : Func) : (pure a : Transform α) f = ⟨f, [], .ok a⟩ := rfl

/-- A sequence of two steps ends well exactly when both do. -/
theorem bind_result_eq_ok_iff (x : Transform α) (k : α → Transform β) (f : Func) (b : β) :
    ((x >>= k) f).result = .ok b ↔
      ∃ a, (x f).result = .ok a ∧ (k a (x f).func).result = .ok b := by
  show (Transform.bind x k f).result = .ok b ↔ _
  cases h : (x f).result <;> simp [Transform.bind, h]

/-- After a first step that ends well, the second one goes on from the function it left. -/
theorem bind_apply_of_ok {x : Transform α} (k : α → Transform β) {f : Func} {a : α}
    (h : (x f).result = .ok a) :
    (x >>= k) f = ⟨(k a (x f).func).func, (x f).events ++ (k a (x f).func).events,
      (k a (x f).func).result⟩ := by
  show Transform.bind x k f = _
  simp only [Transform.bind, h]

/-- After a first step that fails, nothing more is done. -/
theorem bind_apply_of_error {x : Transform α} (k : α → Transform β) {f : Func} {fault : Fault}
    (h : (x f).result = .error fault) :
    (x >>= k) f = ⟨(x f).func, (x f).events, .error fault⟩ := by
  show Transform.bind x k f = _
  simp only [Transform.bind, h]

/-- Do something for every element of a list, in order, and add up what comes out. -/
def sumOver (step : β → Transform Nat) : List β → Transform Nat
  | [] => pure 0
  | b :: rest => do
    let m ← step b
    let n ← sumOver step rest
    pure (m + n)

end Transform

end Bytecode
