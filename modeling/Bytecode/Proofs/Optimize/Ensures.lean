import Bytecode.Optimize.Transform

/-!
# Reasoning about transformations

`Transform.Ensures x f Q` says that a transformation which starts from `f` and ends well leaves a
value and a function that satisfy `Q`. Each way to make a transformation has its rule, stated as an
equivalence so that simplification computes the condition on `f`; a loop has an invariant.
-/

namespace Bytecode.Transform

variable {α β : Type} {f : Func} {Q Q' : α → Func → Prop}

/-- If the transformation ends well, what it leaves satisfies `Q`. -/
def Ensures (x : Transform α) (f : Func) (Q : α → Func → Prop) : Prop :=
  ∀ a, (x f).result = .ok a → Q a (x f).func

/-- What is ensured may be weakened. -/
theorem Ensures.mono {x : Transform α} (h : x.Ensures f Q) (hQ : ∀ a g, Q a g → Q' a g) :
    x.Ensures f Q' :=
  fun a ha ↦ hQ a _ (h a ha)

/-- A pure step ensures what holds of its value and the function. -/
@[simp] theorem ensures_pure {a : α} : Ensures (pure a : Transform α) f Q ↔ Q a f := by
  simp [Ensures, pure_apply]

/-- A sequence ensures what its second step does after the first. -/
@[simp] theorem ensures_bind {x : Transform β} {k : β → Transform α} :
    Ensures (x >>= k) f Q ↔ x.Ensures f fun b g ↦ (k b).Ensures g Q := by
  constructor
  · intro h b hb a ha
    have hrun := bind_apply_of_ok k hb
    have hres := h a (by rw [hrun]; exact ha)
    rwa [hrun] at hres
  · intro h a ha
    obtain ⟨b, hb, hba⟩ := (bind_result_eq_ok_iff x k f a).mp ha
    rw [bind_apply_of_ok k hb]
    exact h b hb a hba

/-- To ask for the function leaves it. -/
@[simp] theorem ensures_current {Q : Func → Func → Prop} :
    Ensures current f Q ↔ Q f f := by
  simp [Ensures, current]

/-- An update ensures what holds of the updated function. -/
@[simp] theorem ensures_update {g : Func → Func} {Q : Unit → Func → Prop} :
    Ensures (update g) f Q ↔ Q () (g f) :=
  ⟨fun h ↦ h () rfl, fun h _ _ ↦ h⟩

/-- To record an event leaves the function. -/
@[simp] theorem ensures_record {e : Event} {Q : Unit → Func → Prop} :
    Ensures (record e) f Q ↔ Q () f :=
  ⟨fun h ↦ h () rfl, fun h _ _ ↦ h⟩

/-- A given result ensures what holds of its value, if it has one. -/
@[simp] theorem ensures_ofExcept {r : Except Fault α} :
    Ensures (ofExcept r) f Q ↔ ∀ a, r = .ok a → Q a f := by
  simp [Ensures, ofExcept]

/-- A failure ensures everything. -/
@[simp] theorem ensures_fail {fault : Fault} : Ensures (fail fault) f Q := by
  simp [fail]

/-- What every step keeps, with the elements yet to come in view, holds at the end of a loop. -/
theorem ensures_sumOver {step : β → Transform Nat} (I : List β → Func → Prop) {l : List β}
    (hl : I l f) (hstep : ∀ b rest f, I (b :: rest) f → (step b).Ensures f fun _ g ↦ I rest g) :
    (sumOver step l).Ensures f fun _ g ↦ I [] g := by
  induction l generalizing f with
  | nil =>
    rw [sumOver, ensures_pure]
    exact hl
  | cons b rest ih =>
    rw [sumOver, ensures_bind]
    refine (hstep b rest f hl).mono fun _ g hg ↦ ?_
    rw [ensures_bind]
    refine (ih hg).mono fun _ k hk ↦ ?_
    rw [ensures_pure]
    exact hk

end Bytecode.Transform
