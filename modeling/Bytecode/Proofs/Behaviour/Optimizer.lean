import Bytecode.Optimize.Pipeline
import Bytecode.Proofs.Behaviour.Chains
import Bytecode.Proofs.Behaviour.Handlers

/-!
# The optimiser keeps the behaviour

Every pass but slot reduction leaves the entry and the exported blocks of a sound function as they
behave, so the optimiser does. Slot reduction renames registers, which the marks of a trace show.
-/

namespace Bytecode

/-! ### Steps that keep the behaviour -/

namespace Transform

variable {α β : Type} {f g : Func} {x : Transform α} {k : α → Transform β}

/-- The step leaves sound functions sound, and as they behave. -/
def Keeps (x : Transform α) : Prop :=
  ∀ f, f.Sound → x.Ensures f fun _ g ↦ g.Sound ∧ f.Preserves g

private theorem Keeps.ensures (h : x.Keeps) (hg : g.Sound ∧ f.Preserves g) :
    x.Ensures g fun _ k ↦ k.Sound ∧ f.Preserves k :=
  (h g hg.1).mono fun _ _ hk ↦ ⟨hk.1, hg.2.trans hk.2⟩

private theorem keeps_pure (a : α) : Keeps (pure a : Transform α) := by
  intro f hf
  rw [ensures_pure]
  exact ⟨hf, .refl f⟩

private theorem keeps_current : Keeps current := by
  intro f hf
  rw [ensures_current]
  exact ⟨hf, .refl f⟩

private theorem keeps_record (e : Event) : Keeps (record e) := by
  intro f hf
  rw [ensures_record]
  exact ⟨hf, .refl f⟩

private theorem keeps_ofExcept (r : Except Fault α) : Keeps (ofExcept r) := by
  intro f hf
  rw [ensures_ofExcept]
  exact fun _ _ ↦ ⟨hf, .refl f⟩

private theorem Keeps.bind (hx : x.Keeps) (hk : ∀ a, (k a).Keeps) : Keeps (x >>= k) := by
  intro f hf
  rw [ensures_bind]
  exact (hx f hf).mono fun a g hg ↦ (hk a).ensures hg

end Transform

open Transform

variable {f g : Func}

/-! ### Merging -/

namespace Merge

private theorem keeps_round : round.Keeps :=
  .bind (fun _ hf ↦ ensures_removeTrampolines hf) fun _ ↦
    .bind (fun _ hf ↦ ensures_fuseChains hf) fun _ ↦ keeps_pure _

private theorem keeps_rounds (limit left : Nat) (changed : Bool) :
    (rounds limit left changed).Keeps := by
  induction left generalizing changed with
  | zero => exact .bind keeps_current fun _ ↦ keeps_ofExcept _
  | succ left ih =>
    refine .bind keeps_round fun gone ↦ ?_
    split
    · exact keeps_pure changed
    · exact ih true

end Merge

/-! ### The passes in order -/

namespace Optimizer

variable (settings : Settings)

private theorem keeps_runPass {pass : Pass} (h : (pass.run settings).Keeps) :
    (runPass settings pass).Keeps := by
  refine .bind keeps_current fun f ↦ ?_
  split
  · exact .bind (keeps_record _) fun _ ↦ .bind h fun _ ↦
      .bind (keeps_record _) fun _ ↦ keeps_pure _
  · exact .bind (keeps_record _) fun _ ↦ keeps_pure _

private theorem keeps_onlyIf {asked : Bool} {step : Transform Bool} (h : step.Keeps) :
    (onlyIf asked step).Keeps := by
  rw [onlyIf]
  split
  · exact h
  · exact keeps_pure false

private theorem keeps_checkCurrent : (checkCurrent settings).Keeps :=
  .bind keeps_current fun _ ↦ keeps_ofExcept _

private theorem keeps_handlers : (runPass settings .handlers).Keeps :=
  keeps_runPass settings fun _ hf ↦ Handlers.ensures_run hf

private theorem keeps_mergeChecked : (mergeChecked settings).Keeps :=
  .bind (keeps_runPass settings (Merge.keeps_rounds _ _ _)) fun _ ↦
    .bind (keeps_checkCurrent settings) fun _ ↦ keeps_pure _

/-- Placement is the last pass to change control flow; only the behaviour matters after it. -/
theorem ensures_placement (hg : g.Sound ∧ f.Preserves g) :
    (runPass settings .placement).Ensures g fun _ k ↦ f.Preserves k := by
  have hrun := (Placement.ensures_run hg.1).mono fun _ _ hk ↦ hg.2.trans hk
  rw [runPass, ensures_bind, ensures_current]
  split
  · simp only [ensures_bind, ensures_record, ensures_pure]
    exact hrun
  · simp only [ensures_bind, ensures_record, ensures_pure]
    exact hg.2

private theorem ensures_recordLoops {Q : Func → Prop} (loops : List NaturalLoop) (hf : Q f) :
    (recordLoops loops).Ensures f fun _ g ↦ Q g := by
  induction loops with
  | nil =>
    rw [recordLoops, ensures_pure]
    exact hf
  | cons l rest ih =>
    rw [recordLoops, ensures_bind, recordLoop, ensures_record]
    exact ih

private theorem ensures_detectLoops {Q : Func → Prop} (asked : Bool) (hf : Q f) :
    (detectLoops asked).Ensures f fun _ g ↦ Q g := by
  rw [detectLoops]
  split
  · simp only [ensures_bind, ensures_current, ensures_ofExcept, ensures_pure]
    exact fun c _ ↦ ensures_recordLoops _ hf
  · rw [ensures_pure]
    exact hf

/-- What passes the check of its input is valid. -/
theorem fault?_of_checkInput {u : Unit} (h : checkInput settings f = .ok u) :
    f.fault? = none := by
  rw [checkInput] at h
  split at h
  · contradiction
  · next hnone => exact hnone

/-- Without slot reduction, a drafted function that is accepted is sound, and what becomes of it
behaves as it did. -/
theorem ensures_transform (hf : f.Drafted) (hs : settings.reduceRegisters = false) :
    (transform settings).Ensures f fun _ g ↦ f.Sound ∧ f.Preserves g := by
  rw [transform, ensures_bind, ensures_current, ensures_bind, ensures_ofExcept]
  intro u hu
  have hsound := hf.sound (fault?_of_checkInput settings hu)
  rw [ensures_bind]
  refine ((keeps_onlyIf (keeps_handlers settings)).ensures ⟨hsound, .refl f⟩).mono fun _ g₁ h₁ ↦ ?_
  rw [ensures_bind]
  refine ((keeps_onlyIf (keeps_mergeChecked settings)).ensures h₁).mono fun _ g₂ h₂ ↦ ?_
  rw [ensures_bind]
  refine ((keeps_onlyIf (keeps_handlers settings)).ensures h₂).mono fun _ g₃ h₃ ↦ ?_
  have hplaced : (onlyIf settings.placeBlocks (runPass settings .placement)).Ensures g₃
      fun _ g ↦ f.Preserves g := by
    rw [onlyIf]
    split
    · exact ensures_placement settings h₃
    · rw [ensures_pure]
      exact h₃.2
  rw [ensures_bind]
  refine hplaced.mono fun _ g₄ h₄ ↦ ?_
  rw [ensures_bind]
  refine (ensures_detectLoops settings.findLoops h₄).mono fun loops g₅ h₅ ↦ ?_
  simp only [hs, onlyIf, checkCurrent, Bool.false_eq_true, ↓reduceIte, ensures_bind, ensures_pure,
    ensures_current, ensures_ofExcept]
  exact fun _ _ ↦ ⟨hsound, h₅⟩

/-- Without slot reduction, an optimised function shows from its entry and from every block
exported before exactly the traces that it showed before. -/
theorem optimize_keeps_traces (hf : f.Drafted) (hs : settings.reduceRegisters = false)
    {report : Report} (h : (optimize settings f).result = .ok report) :
    (∃ e e', f.entry? = some e ∧ Func.entry? (optimize settings f).func = some e' ∧
      f.traces e = (optimize settings f).func.traces e' ∧
      f.completed e = (optimize settings f).func.completed e') ∧
    ∀ b, f.IsExported b → (optimize settings f).func.IsExported b ∧
      f.traces b = (optimize settings f).func.traces b ∧
      f.completed b = (optimize settings f).func.completed b := by
  have hdone : f.Sound ∧ f.Preserves (optimize settings f).func := by
    rw [optimize] at h ⊢
    split at h
    · next report' hreport =>
      obtain ⟨hsound, hpres⟩ := ensures_transform settings hf hs report' hreport
      dsimp only
      split
      · exact ⟨hsound, hpres⟩
      · exact ⟨hsound, .refl f⟩
    · contradiction
  obtain ⟨hsound, hpres⟩ := hdone
  obtain ⟨e, he⟩ := hsound.exists_entry
  obtain ⟨e', he', hsame⟩ := hpres.entry e he
  exact ⟨⟨e, e', he, he', hsame⟩, hpres.exported⟩

/-- A function whose entry is a trampoline, with a table, a handler without use, a chain, an
endless loop and a block that nothing reaches. -/
def winding : Func :=
  ((Draft.start "winding" 1 2).declareAll
    [.constant (.table (.ofList [(0, 2), (7, 3)])),
      .block { id := 0, code := [.jump 1] },
      .block { id := 1, code := [.loadReg 0, .jumpTable 0 5] },
      .block { id := 2, code := [.jump 6] },
      .block { id := 3, code := [.jump 3] },
      .block { id := 5, code := [.loadReg 0, .unary .not, .branch 2 6], handler := some 8 },
      .block { id := 6, code := [.push .null, .unary .neg, .jump 7], handler := some 8 },
      .block { id := 7, code := [.unary .neg, .ret], handler := some 8 },
      .block { id := 8, code := [.caught, .raise] },
      .block { id := 9, code := [.jump 7] }]).build

/-- The optimizer drops blocks of `winding` and moves its entry, and the entry and the exported
block keep their traces. -/
theorem winding_keeps_traces :
    winding.Drafted ∧ (optimize {} winding).func.layout = [1, 2, 3, 5, 6, 8] ∧
      winding.traces 0 = (optimize {} winding).func.traces 1 ∧
      winding.traces 3 = (optimize {} winding).func.traces 3 := by
  have hdrafted : winding.Drafted := ⟨_, _, _, _, rfl⟩
  have hok : (optimize {} winding).result.toOption.isSome = true := by decide +kernel
  obtain ⟨report, hresult⟩ := Except.exists_eq_ok_of_isSome hok
  obtain ⟨⟨e, e', he, he', htraces, _⟩, hexported⟩ :=
    optimize_keeps_traces {} hdrafted rfl hresult
  have hentry : winding.entry? = some 0 := by decide +kernel
  have hentry' : Func.entry? (optimize {} winding).func = some 1 := by decide +kernel
  obtain rfl := Option.some.inj (hentry.symm.trans he)
  obtain rfl := Option.some.inj (hentry'.symm.trans he')
  have hthree : winding.IsExported 3 :=
    ⟨{ code := [.jump 3], exported := true }, by decide +kernel⟩
  exact ⟨hdrafted, by decide +kernel, htraces, (hexported 3 hthree).2.1⟩

end Optimizer

end Bytecode
