import Bytecode.Optimize.Handlers
import Bytecode.Proofs.Behaviour.Trace
import Bytecode.Proofs.Optimize.Ensures

/-!
# Dropping handlers keeps the behaviour

A handler is asked for only by an instruction that may throw. Where none is left, two spots with
the same instructions and different handlers show the same.
-/

namespace Bytecode

namespace Func

variable {f g : Func} {b : BlockId}

/-- Spots with the same instructions and, as long as one of these may throw, the same handler. -/
inductive Unhandled : Spot → Spot → Prop
  | same {s : Spot} : Unhandled s s
  | within {h h' : Option BlockId} {code : List Instr} : (∀ i ∈ code, i.canThrow = false) →
      Unhandled (.within h code) (.within h' code)

private theorem Unhandled.symm {s t : Spot} (h : Unhandled s t) : Unhandled t s := by
  cases h with
  | same => exact .same
  | within hcode => exact .within hcode

private theorem simulates_unhandled
    (hblock : ∀ b B, f.block? b = some B → ∃ B', g.block? b = some B' ∧
      Unhandled (.within B.handler B.code) (.within B'.handler B'.code))
    (htable : ∀ k, g.table? k = f.table? k) : Simulates f g Unhandled where
  step s t ms s' hR hstep := by
    cases hR with
    | same =>
      cases hstep with
      | enter hB =>
        obtain ⟨B', hB', hrel⟩ := hblock _ _ hB
        exact ⟨_, .single (.enter hB'), hrel⟩
      | plain hi => exact ⟨_, .single (.plain hi), .same⟩
      | raised hi ht => exact ⟨_, .single (.raised hi ht), .same⟩
      | transfer htr => exact ⟨_, .single (.transfer (htr.congr htable)), .same⟩
      | returned => exact ⟨_, .single .returned, .same⟩
      | thrown => exact ⟨_, .single .thrown, .same⟩
    | within hcode =>
      cases hstep with
      | plain hi =>
        exact ⟨_, .single (.plain hi), .within fun j hj ↦ hcode j (List.mem_cons_of_mem _ hj)⟩
      | raised hi ht => simp [hcode _ List.mem_cons_self] at ht
      | transfer htr => exact ⟨_, .single (.transfer (htr.congr htable)), .same⟩
      | returned => exact ⟨_, .single .returned, .same⟩
      | thrown => exact absurd (hcode .raise List.mem_cons_self) (by decide)
  outside t hR := by
    cases hR
    rfl

/-! ### One block -/

/-- Drop the handler of a block. -/
def clearHandler (f : Func) (b : BlockId) : Func :=
  f.modifyBlock b fun block => { block with handler := none }

/-- The block is not there or cannot throw. -/
def CannotThrow (f : Func) (b : BlockId) : Prop := ∀ B, f.block? b = some B → B.canThrow = false

/-- Clearing the handler of one block changes nothing else about the blocks. -/
theorem block?_clearHandler_eq_some_iff {x : BlockId} {B : Block} :
    (f.clearHandler b).block? x = some B ↔
      ∃ B', f.block? x = some B' ∧
        B = { B' with handler := if x = b then none else B'.handler } := by
  rw [clearHandler, block?_modifyBlock]
  cases f.block? x with
  | none => simp
  | some B' => by_cases hx : x = b <;> simp [hx, eq_comm]

private theorem unhandled_clearHandler (h : f.CannotThrow b) {x : BlockId} {B : Block}
    (hB : f.block? x = some B) :
    Unhandled (.within B.handler B.code) (.within (if x = b then none else B.handler) B.code) := by
  by_cases hx : x = b
  · subst hx
    have hthrow := h B hB
    rw [Block.canThrow, List.any_eq_false] at hthrow
    exact .within fun i hi ↦ by simpa using hthrow i hi
  · rw [if_neg hx]
    exact .same

/-- Handlers have no part in the successors. -/
theorem successors_clearHandler (f : Func) (b x : BlockId) :
    (f.clearHandler b).successors x = f.successors x := by
  have hname : (f.clearHandler b).name = f.name := rfl
  have hterm (l : Nat) (t : Instr) :
      (f.clearHandler b).terminatorTargets x l t = f.terminatorTargets x l t := rfl
  cases hB : f.block? x with
  | none =>
    have hnone : (f.clearHandler b).block? x = none := by
      simp [clearHandler, block?_modifyBlock, hB]
    simp only [successors, hB, hnone, hname]
  | some B =>
    have hsome := block?_clearHandler_eq_some_iff (b := b).mpr ⟨B, hB, rfl⟩
    simp only [successors, hB, hsome, Block.terminator?, hterm]

/-- An exported block stays exported when a handler is cleared. -/
theorem isExported_clearHandler {x : BlockId} (h : f.IsExported x) :
    (f.clearHandler b).IsExported x := by
  obtain ⟨B, hB, hexp⟩ := h
  exact ⟨_, block?_clearHandler_eq_some_iff.mpr ⟨B, hB, rfl⟩, hexp⟩

/-- Clearing a handler leaves a sound function sound. -/
theorem Sound.clearHandler (h : f.Sound) (b : BlockId) : (f.clearHandler b).Sound where
  wf := h.wf.modifyBlock b _
  nonempty := h.nonempty
  shape x B hB := by
    obtain ⟨B', hB', rfl⟩ := block?_clearHandler_eq_some_iff.mp hB
    obtain ⟨body, t, hshape⟩ := h.shape x B' hB'
    exact ⟨body, t, hshape.code_eq, hshape.terminates, hshape.plain⟩
  successors x hx := by
    rw [Func.clearHandler, contains_modifyBlock] at hx
    rw [successors_clearHandler]
    exact h.successors x hx
  leads a x hx := by
    rw [Leads, successors_clearHandler] at hx
    rw [Func.clearHandler, contains_modifyBlock]
    exact h.leads a x hx
  handler_exported x B k hB hk := by
    obtain ⟨B', hB', rfl⟩ := block?_clearHandler_eq_some_iff.mp hB
    by_cases hx : x = b
    · simp [hx] at hk
    · exact isExported_clearHandler (h.handler_exported x B' k hB' (by simpa [hx] using hk))
  table_exported k T x hT hx hlive := by
    rw [Func.clearHandler, contains_modifyBlock] at hlive
    exact isExported_clearHandler (h.table_exported k T x hT hx hlive)

/-- Dropping the handler of a block that cannot throw keeps the behaviour. -/
theorem preserves_clearHandler (h : f.CannotThrow b) : Preserves f (f.clearHandler b) := by
  have hfg : Simulates f (f.clearHandler b) Unhandled := by
    refine simulates_unhandled (fun x B hB ↦ ?_) fun _ ↦ rfl
    exact ⟨_, block?_clearHandler_eq_some_iff.mpr ⟨B, hB, rfl⟩, unhandled_clearHandler h hB⟩
  have hgf : Simulates (f.clearHandler b) f Unhandled := by
    refine simulates_unhandled (fun x B hB ↦ ?_) fun _ ↦ rfl
    obtain ⟨B', hB', rfl⟩ := block?_clearHandler_eq_some_iff.mp hB
    exact ⟨B', hB', (unhandled_clearHandler h hB').symm⟩
  have hsame (x : BlockId) : SameBehaviour f x (f.clearHandler b) x :=
    ⟨(hfg.subset .same).1.antisymm (hgf.subset .same).1,
      (hfg.subset .same).2.antisymm (hgf.subset .same).2⟩
  exact ⟨fun e he ↦ ⟨e, he, hsame e⟩, fun x hx ↦ ⟨isExported_clearHandler hx, hsame x⟩⟩

end Func

/-! ### The pass -/

namespace Handlers

variable {f : Func}

/-- A block that cannot throw cannot do so when a handler is cleared. -/
theorem cannotThrow_clearHandler {b x : BlockId} (h : f.CannotThrow x) :
    (f.clearHandler b).CannotThrow x := by
  intro B hB
  obtain ⟨B', hB', rfl⟩ := Func.block?_clearHandler_eq_some_iff.mp hB
  exact h B' hB'

/-- The blocks whose handlers the pass finds idle cannot throw. -/
theorem cannotThrow_of_mem_idle (hw : f.WF) {p : BlockId × BlockId} (h : p ∈ idle f) :
    f.CannotThrow p.1 := by
  intro B hB
  obtain ⟨⟨x, B'⟩, hmem, hp⟩ := List.mem_filterMap.mp h
  split at hp
  · contradiction
  · next hthrow =>
    obtain ⟨k, _, rfl⟩ := Option.map_eq_some_iff.mp hp
    obtain rfl := Option.some.inj ((hw.mem_blocks.mp hmem).symm.trans hB)
    simpa using hthrow

/-- The pass keeps the behaviour. -/
theorem ensures_run (h : f.Sound) : run.Ensures f fun _ g ↦ g.Sound ∧ f.Preserves g := by
  rw [run, Transform.ensures_bind, Transform.ensures_current, Transform.ensures_bind]
  refine (Transform.ensures_sumOver
    (fun l g ↦ g.Sound ∧ f.Preserves g ∧ ∀ p ∈ l, g.CannotThrow p.1)
    ⟨h, .refl f, fun p hp ↦ cannotThrow_of_mem_idle h.wf hp⟩ ?_).mono fun n g hg ↦ ?_
  · rintro p rest g ⟨hsound, hpres, hidle⟩
    simp only [clear, Transform.ensures_bind, Transform.ensures_update, Transform.ensures_record,
      Transform.ensures_pure]
    refine ⟨hsound.clearHandler p.1, hpres.trans ?_, fun q hq ↦ ?_⟩
    · exact Func.preserves_clearHandler (hidle p List.mem_cons_self)
    · exact cannotThrow_clearHandler (hidle q (List.mem_cons_of_mem p hq))
  · rw [Transform.ensures_pure]
    exact ⟨hg.1, hg.2.1⟩

end Handlers

end Bytecode
