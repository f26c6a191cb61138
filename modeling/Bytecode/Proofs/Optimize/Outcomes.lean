import Bytecode.Proofs.Optimize.Ensures

/-!
# Outcomes of transformations

`Transform.Yields x f Q E` says how a transformation that starts from `f` ends: with a value, a
function and events that satisfy `Q`, or with a fault that satisfies `E`. Where no fault does, the
transformation ends well. The rules compute the condition on `f`, as those of `Transform.Ensures`
do.
-/

namespace Bytecode.Transform

variable {α β : Type} {f : Func} {Q Q' : α → Func → List Event → Prop} {E E' : Fault → Prop}

/-- The transformation ends well with what satisfies `Q`, or with a fault that satisfies `E`. -/
def Yields (x : Transform α) (f : Func) (Q : α → Func → List Event → Prop) (E : Fault → Prop) :
    Prop :=
  match (x f).result with
  | .ok a => Q a (x f).func (x f).events
  | .error fault => E fault

/-- What is yielded may be weakened, for results and for faults. -/
theorem Yields.mono {x : Transform α} (h : x.Yields f Q E)
    (hQ : ∀ a g es, Q a g es → Q' a g es) (hE : ∀ fault, E fault → E' fault) :
    x.Yields f Q' E' := by
  unfold Yields at h ⊢
  split
  · next a ha =>
    rw [ha] at h
    exact hQ a _ _ h
  · next fault hfault =>
    rw [hfault] at h
    exact hE fault h

/-- What is yielded may be weakened for results alone. -/
theorem Yields.imp {x : Transform α} (h : x.Yields f Q E)
    (hQ : ∀ a g es, Q a g es → Q' a g es) : x.Yields f Q' E :=
  h.mono hQ fun _ hfault ↦ hfault

/-- Besides what is known of it, a transformation yields its result. -/
theorem Yields.with_result {x : Transform α} (h : x.Yields f Q E) :
    x.Yields f (fun a g es ↦ Q a g es ∧ (x f).result = .ok a)
      fun fault ↦ E fault ∧ (x f).result = .error fault := by
  unfold Yields at h ⊢
  split
  · next a ha =>
    rw [ha] at h
    exact ⟨h, ha⟩
  · next fault hfault =>
    rw [hfault] at h
    exact ⟨h, hfault⟩

/-- A run that ends well satisfies the first predicate. -/
theorem Yields.of_ok {x : Transform α} (h : x.Yields f Q E) {a : α} (ha : (x f).result = .ok a) :
    Q a (x f).func (x f).events := by
  unfold Yields at h
  rwa [ha] at h

/-- A run that fails does so with a fault that satisfies the second predicate. -/
theorem Yields.of_error {x : Transform α} (h : x.Yields f Q E) {fault : Fault}
    (hfault : (x f).result = .error fault) : E fault := by
  unfold Yields at h
  rwa [hfault] at h

/-- A pure step yields its value and no events. -/
@[simp] theorem yields_pure {a : α} : Yields (pure a : Transform α) f Q E ↔ Q a f [] := Iff.rfl

/-- To ask for the function yields it without events. -/
@[simp] theorem yields_current {Q : Func → Func → List Event → Prop} :
    Yields current f Q E ↔ Q f f [] := Iff.rfl

/-- An update yields the updated function without events. -/
@[simp] theorem yields_update {g : Func → Func} {Q : Unit → Func → List Event → Prop} :
    Yields (update g) f Q E ↔ Q () (g f) [] := Iff.rfl

/-- To record an event yields it under the function's name. -/
@[simp] theorem yields_record {e : Event} {Q : Unit → Func → List Event → Prop} :
    Yields (record e) f Q E ↔ Q () f [{ e with function := some f.name }] := Iff.rfl

/-- A given result yields its value, or its fault. -/
theorem yields_ofExcept {r : Except Fault α} :
    Yields (ofExcept r) f Q E ↔
      (∀ a, r = .ok a → Q a f []) ∧ ∀ fault, r = .error fault → E fault := by
  cases r <;> simp [Yields, ofExcept]

/-- A step that is known to succeed goes on with its result. -/
theorem yields_ofExcept_of_ok {r : Except Fault α} {a : α} (h : r = .ok a) :
    Yields (ofExcept r) f Q E ↔ Q a f [] := by
  subst h
  exact Iff.rfl

/-- A failure yields its fault. -/
theorem yields_fail {fault : Fault} : Yields (fail fault) f Q E ↔ E fault := Iff.rfl

/-- A sequence yields what its second step does after the first, with the events of both. -/
@[simp] theorem yields_bind {x : Transform β} {k : β → Transform α} :
    Yields (x >>= k) f Q E ↔
      x.Yields f (fun b g es ↦ (k b).Yields g (fun a g' es' ↦ Q a g' (es ++ es')) E) E := by
  cases hb : (x f).result with
  | error fault => simp only [Yields, bind_apply_of_error k hb, hb]
  | ok b => simp only [Yields, bind_apply_of_ok k hb, hb]

/-- The invariant of a loop speaks of the elements yet to come, of what has come out so far, and of
the function and the events at that point. -/
theorem yields_sumOver {step : β → Transform Nat} (I : List β → Nat → Func → List Event → Prop)
    {l : List β} (hl : I l 0 f [])
    (hstep : ∀ b rest n g es, I (b :: rest) n g es →
      (step b).Yields g (fun m g' es' ↦ I rest (n + m) g' (es ++ es')) E) :
    (sumOver step l).Yields f (I []) E := by
  suffices h : ∀ n es, I l n f es →
      (sumOver step l).Yields f (fun m g es' ↦ I [] (n + m) g (es ++ es')) E by
    simpa using h 0 [] hl
  clear hl
  induction l generalizing f with
  | nil =>
    intro n es hI
    rw [sumOver, yields_pure]
    simpa using hI
  | cons b rest ih =>
    intro n es hI
    rw [sumOver, yields_bind]
    apply (hstep b rest n f es hI).imp
    intro m g es' hI'
    rw [yields_bind]
    apply (ih (n + m) (es ++ es') hI').imp
    intro m' g' es'' hI''
    rw [yields_pure]
    simpa [Nat.add_assoc] using hI''

end Bytecode.Transform
