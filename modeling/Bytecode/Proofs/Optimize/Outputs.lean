import Bytecode.Proofs.Behaviour.Optimizer
import Bytecode.Proofs.Optimize.Passes

/-!
# What the optimiser hands back

The function that comes back has the exported blocks and the pool of the one that was handed in.
The report and the events tell exactly what became of the other blocks. A second run has nothing to
do and says so.
-/

namespace Bytecode

namespace Optimizer

open Func Transform

variable {f g : Func} {settings : Settings} {report : Report}

/-! ### Runs that end well -/

private theorem fault?_eq_none_of_transform (h : (transform settings f).result = .ok report) :
    f.fault? = none := by
  have hchecked : (transform settings).Ensures f fun _ _ ↦ f.fault? = none := by
    rw [transform, ensures_bind, ensures_current, ensures_bind, ensures_ofExcept]
    intro _ hinput _ _
    exact fault?_of_checkInput settings hinput
  exact hchecked report h

/-- The optimizer reports what the passes come to. -/
theorem result_optimize (settings : Settings) (f : Func) :
    (optimize settings f).result = (transform settings f).result := by
  rw [optimize]
  split
  · next report hreport => exact hreport.symm
  · next fault hfault => exact hfault.symm

/-- A run that reports no change has none to lose, so the outcome is that of the passes. -/
theorem optimize_eq_of_ok (hf : f.Drafted) (h : (optimize settings f).result = .ok report) :
    optimize settings f = transform settings f ∧ f.Sound ∧
      Completed settings f report (transform settings f).func (transform settings f).events := by
  have hresult : (transform settings f).result = .ok report := result_optimize settings f ▸ h
  have hsound := hf.sound (fault?_eq_none_of_transform hresult)
  have hdone := (yields_transform hsound).of_ok hresult
  refine ⟨?_, hsound, hdone⟩
  have hfunc : (if report.changed then (transform settings f).func else f) =
      (transform settings f).func := by
    split
    · rfl
    · next hchanged => exact (hdone.accounted.rest (by simpa using hchanged)).symm
  simp only [optimize, hresult, hfunc]
  rw [← hresult]

private theorem checkInput_of_checkResult {depth : Option Nat}
    (h : checkResult settings f = .ok depth) : checkInput settings f = .ok () := by
  rw [checkResult] at h
  rw [checkInput]
  split at h
  · contradiction
  · split at h
    · next hvalidate =>
      rw [if_pos hvalidate]
      split at h
      · contradiction
      · rfl
    · next hvalidate => rw [if_neg hvalidate]

/-! ### Exported blocks, tables and handlers -/

/-- The optimised function has the exported blocks of the one it was made from and no others, the
same pool with all its tables, and no new blocks. A block keeps its handler, or loses it if the
settings let handlers go. -/
theorem optimize_keeps_exports (hf : f.Drafted) (h : (optimize settings f).result = .ok report) :
    (∀ b, (optimize settings f).func.IsExported b ↔ f.IsExported b) ∧
      (optimize settings f).func.constants = f.constants ∧
      ∀ b B', (optimize settings f).func.block? b = some B' → ∃ B, f.block? b = some B ∧
        (B'.handler = B.handler ∨ B'.handler = none) ∧
        (settings.simplifyHandlers = false → B'.handler = B.handler) := by
  obtain ⟨heq, hsound, hdone⟩ := optimize_eq_of_ok hf h
  have hdescends := hdone.accounted.edits.descends hsound
  rw [heq]
  refine ⟨hdescends.exported, hdescends.constants, fun b B' hB' ↦ ?_⟩
  obtain ⟨B, hB, hhandler, _⟩ := hdescends.block? b B' hB'
  refine ⟨B, hB, hhandler.imp_right And.right, fun hoff ↦ ?_⟩
  rw [hoff] at hhandler
  simpa using hhandler

/-- Of `winding` the exports and constants are kept, one handler is cleared and another one
stays. -/
theorem winding_keeps_exports :
    winding.Drafted ∧ (optimize {} winding).func.layout = [1, 2, 3, 5, 6, 8] ∧
      (∀ b, (optimize {} winding).func.IsExported b ↔ winding.IsExported b) ∧
      (optimize {} winding).func.constants = winding.constants ∧
      (winding.block? 5).map Block.handler = some (some 8) ∧
      ((optimize {} winding).func.block? 5).map Block.handler = some none ∧
      ∃ B B', winding.block? 6 = some B ∧ (optimize {} winding).func.block? 6 = some B' ∧
        B'.handler = B.handler := by
  have hdrafted : winding.Drafted := ⟨_, _, _, _, rfl⟩
  have hok : (optimize {} winding).result.toOption.isSome = true := by decide +kernel
  have hsix : ((optimize {} winding).func.block? 6).any (·.handler.isSome) = true := by
    decide +kernel
  obtain ⟨report, hresult⟩ := Except.exists_eq_ok_of_isSome hok
  obtain ⟨hexported, hconstants, hblock⟩ := optimize_keeps_exports hdrafted hresult
  refine ⟨hdrafted, by decide +kernel, hexported, hconstants, by decide +kernel,
    by decide +kernel, ?_⟩
  obtain ⟨B', hB', hsome⟩ := (Option.any_eq_true _ _).mp hsix
  obtain ⟨B, hB, hhandler, _⟩ := hblock 6 B' hB'
  refine ⟨B, B', hB, hB', hhandler.resolve_right fun hnone ↦ ?_⟩
  rw [hnone] at hsome
  exact absurd hsome Bool.false_ne_true

/-! ### The account -/

private theorem same_eq_false (h : g.arena ≠ f.arena ∨ g.registerCount ≠ f.registerCount) :
    f.same g = false := by
  rw [Bool.eq_false_iff]
  intro hsame
  simp only [same, Bool.and_eq_true, decide_eq_true_eq] at hsame
  cases h with
  | inl harena => exact harena hsame.1.2.symm
  | inr hcount => exact hcount hsame.1.1.1.1.2.symm

/-- The report says that something changed exactly when the passes have left another function, and
exactly when some event stands for a change; then the two functions are not structurally equal. The
register and block counts of the report are those of the function that comes back. Every block that
is gone is named once by the events, and no other block is, and a fusion's message lists the blocks
that it took in. -/
theorem optimize_accounts (hf : f.Drafted) (h : (optimize settings f).result = .ok report) :
    (report.changed = true ↔ (transform settings f).func ≠ f) ∧
      (report.changed = true → f.same (transform settings f).func = false) ∧
      (report.changed = true ↔
        ∃ e ∈ (optimize settings f).events, e.kind.isTransformation = true) ∧
      (optimize settings f).func = (transform settings f).func ∧
      report.registerCount = (optimize settings f).func.registerCount ∧
      report.blocksAfter = (optimize settings f).func.blockCount ∧
      (∀ b, ((optimize settings f).events.flatMap Event.removes).count b =
        if f.contains b && !(optimize settings f).func.contains b then 1 else 0) ∧
      ∀ e ∈ (optimize settings f).events, e.ListsAbsorbed := by
  obtain ⟨heq, hsound, hdone⟩ := optimize_eq_of_ok hf h
  have hapart (hchanged : report.changed = true) := same_eq_false (hdone.apart hchanged)
  rw [heq]
  refine ⟨⟨fun hchanged ↦ ?_, fun hne ↦ ?_⟩, hapart, ?_, rfl, hdone.registerCount,
    hdone.blocksAfter, hdone.accounted.edits.count_removed hsound, hdone.accounted.listed⟩
  · intro hsame
    rcases hdone.apart hchanged with harena | hcount
    · exact harena (by rw [hsame])
    · exact hcount (by rw [hsame])
  · by_contra hchanged
    exact hne (hdone.accounted.rest (by simpa using hchanged))
  · rw [hdone.accounted.told, List.any_eq_true]

/-- The report on `winding` says that it changed and counts what is left; a block that is gone is
named once, and one that stayed is not. -/
theorem winding_accounts :
    winding.Drafted ∧ ∃ report, (optimize {} winding).result = .ok report ∧
      report.changed = true ∧ (transform {} winding).func ≠ winding ∧
      (∃ e ∈ (optimize {} winding).events, e.kind.isTransformation = true) ∧
      report.blocksAfter = 6 ∧ report.registerCount = 2 ∧
      ((optimize {} winding).events.flatMap Event.removes).count 7 = 1 ∧
      ((optimize {} winding).events.flatMap Event.removes).count 2 = 0 := by
  have hdrafted : winding.Drafted := ⟨_, _, _, _, rfl⟩
  have hok : (optimize {} winding).result.toOption.map Report.changed = some true := by
    decide +kernel
  cases hresult : (optimize {} winding).result with
  | error fault => simp [hresult, Except.toOption] at hok
  | ok report =>
    have hchanged : report.changed = true := by simpa [hresult, Except.toOption] using hok
    obtain ⟨hdiffers, _, htold, _, hregisters, hblocks, hcount, _⟩ :=
      optimize_accounts hdrafted hresult
    refine ⟨hdrafted, report, rfl, hchanged, hdiffers.mp hchanged, htold.mp hchanged, ?_, ?_, ?_,
      ?_⟩
    · rw [hblocks]
      decide +kernel
    · rw [hregisters]
      decide +kernel
    · rw [hcount 7]
      decide +kernel
    · rw [hcount 2]
      decide +kernel

/-! ### A second run -/

/-- Optimising a function that was optimised with the same settings succeeds, reports no change,
and gives it back as it is. -/
theorem optimize_idempotent (hf : f.Drafted) (h : (optimize settings f).result = .ok report) :
    ∃ again, (optimize settings (optimize settings f).func).result = .ok again ∧
      again.changed = false ∧
      (optimize settings (optimize settings f).func).func = (optimize settings f).func := by
  obtain ⟨heq, hsound, hdone⟩ := optimize_eq_of_ok hf h
  rw [heq]
  generalize (transform settings f).func = g at hdone
  have hsecond : (transform settings).Yields g (Completed settings g) (Breaks settings g) :=
    yields_transform (hdone.accounted.edits.sound hsound)
  cases hresult : (transform settings g).result with
  | ok again =>
    have hunchanged := (hsecond.of_ok hresult).unchanged hdone.rested
    exact ⟨again, (result_optimize settings g).trans hresult, hunchanged,
      by simp [optimize, hresult, hunchanged]⟩
  | error fault =>
    cases hsecond.of_error hresult with
    | input hinput =>
      rw [checkInput_of_checkResult hdone.checked] at hinput
      contradiction
    | rounds _ hnot => exact absurd hdone.rested hnot
    | result _ hsame hfault =>
      rw [hsame hdone.rested, hdone.checked] at hfault
      contradiction
    | registers _ hnot => exact absurd hdone.rested hnot

/-- A function with a trampoline at its entry, a handler without use, a block that nothing reaches
and more registers than it names. -/
def tapering : Func :=
  ((Draft.start "tapering" 1 4).declareAll
    [.block { id := 0, code := [.jump 1] },
      .block { id := 1, code := [.loadReg 0, .branch 2 3] },
      .block { id := 2, code := [.push .null, .jump 4] },
      .block { id := 3, code := [.loadReg 0, .jump 4] },
      .block { id := 4, code := [.jump 5], handler := some 6 },
      .block { id := 5, code := [.ret] },
      .block { id := 6, code := [.caught, .raise] },
      .block { id := 7, code := [.push .null, .ret] }]).build

/-- Settings under which registers are reduced wherever that saves one. -/
def thrifty : Settings :=
  { reduceRegisters := true, reductionHeadroom := 0 }

/-- A second run on `tapering` finds nothing to do. -/
theorem tapering_idempotent :
    tapering.Drafted ∧ (optimize thrifty tapering).func.layout = [1, 2, 3, 5, 6] ∧
      (optimize thrifty tapering).func.registerCount = 1 ∧
      ∃ again, (optimize thrifty (optimize thrifty tapering).func).result = .ok again ∧
        again.changed = false ∧
        (optimize thrifty (optimize thrifty tapering).func).func =
          (optimize thrifty tapering).func := by
  have hdrafted : tapering.Drafted := ⟨_, _, _, _, rfl⟩
  have hok : (optimize thrifty tapering).result.toOption.isSome = true := by decide +kernel
  obtain ⟨report, hresult⟩ := Except.exists_eq_ok_of_isSome hok
  exact ⟨hdrafted, by decide +kernel, by decide +kernel, optimize_idempotent hdrafted hresult⟩

end Optimizer

end Bytecode
