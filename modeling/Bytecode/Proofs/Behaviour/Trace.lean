import Bytecode.Proofs.Func.Drafts
import Mathlib.Data.Set.Basic

/-!
# Traces

A run of a function goes through its instructions one by one and leaves a trace of marks: the plain
instructions it did, the exceptions they raised instead, and the choices its terminators made. A
jump leaves no mark. `traces` collects what finite runs from a block can show, and `completed` what
those show that leave the function. Two functions are compared by weak simulation: a step of one is
answered by finitely many steps of the other with the same marks.
-/

namespace Bytecode

/-- What a step of a run shows. -/
inductive Mark where
  /-- A plain instruction was done. -/
  | did (i : Instr)
  /-- A plain instruction raised an exception instead. -/
  | raised
  /-- A branch went to its first or second arm. -/
  | side (taken : Bool)
  /-- A table was entered with a discriminant. -/
  | chose (disc : Int64)
  | returned
  | thrown
  deriving DecidableEq

/-- Where a run stands. -/
inductive Spot where
  /-- Before the first instruction of a block. -/
  | entering (b : BlockId)
  /-- Inside a block with the given handler, before the given instructions. -/
  | within (handler : Option BlockId) (code : List Instr)
  /-- The function has been left. -/
  | outside

/-- Where an exception takes control, given the handler. -/
def Spot.arrive : Option BlockId → Spot
  | some b => .entering b
  | none => .outside

namespace Func

/-- A terminator passes control to a block and shows its choice. -/
inductive Transfer (f : Func) : Instr → List Mark → BlockId → Prop
  | jump {b : BlockId} : Transfer f (.jump b) [] b
  | ifTrue {a b : BlockId} : Transfer f (.branch a b) [.side true] a
  | ifFalse {a b : BlockId} : Transfer f (.branch a b) [.side false] b
  | table {k : ConstIndex} {T : JumpTable} {b : BlockId} (disc : Int64) : f.table? k = some T →
      Transfer f (.jumpTable k b) [.chose disc] ((T.get? disc).getD b)

/-- One step of a run, with the marks it leaves. -/
inductive Step (f : Func) : Spot → List Mark → Spot → Prop
  | enter {b : BlockId} {B : Block} : f.block? b = some B →
      Step f (.entering b) [] (.within B.handler B.code)
  | plain {h : Option BlockId} {i : Instr} {rest : List Instr} : i.isTerminator = false →
      Step f (.within h (i :: rest)) [.did i] (.within h rest)
  | raised {h : Option BlockId} {i : Instr} {rest : List Instr} : i.isTerminator = false →
      i.canThrow = true → Step f (.within h (i :: rest)) [.raised] (.arrive h)
  | transfer {h : Option BlockId} {i : Instr} {rest : List Instr} {ms : List Mark} {b : BlockId} :
      f.Transfer i ms b → Step f (.within h (i :: rest)) ms (.entering b)
  | returned {h : Option BlockId} {rest : List Instr} :
      Step f (.within h (.ret :: rest)) [.returned] .outside
  | thrown {h : Option BlockId} {rest : List Instr} :
      Step f (.within h (.raise :: rest)) [.thrown] (.arrive h)

/-- A finite run, with the marks of all its steps. -/
inductive Runs (f : Func) : Spot → List Mark → Spot → Prop
  | refl {s : Spot} : Runs f s [] s
  | step {s s' s'' : Spot} {ms ns : List Mark} : f.Step s ms s' → Runs f s' ns s'' →
      Runs f s (ms ++ ns) s''

/-- What finite runs from the start of a block can show. -/
def traces (f : Func) (b : BlockId) : Set (List Mark) := {ms | ∃ s, f.Runs (.entering b) ms s}

/-- What runs from the start of a block show that leave the function. -/
def completed (f : Func) (b : BlockId) : Set (List Mark) := {ms | f.Runs (.entering b) ms .outside}

/-- Runs from the two blocks cannot be told apart by what they show. -/
def SameBehaviour (f : Func) (a : BlockId) (g : Func) (b : BlockId) : Prop :=
  f.traces a = g.traces b ∧ f.completed a = g.completed b

variable {f g k : Func} {a b c : BlockId} {s s' s'' t : Spot} {ms ns : List Mark}

/-- All that a step inside a block can do. -/
theorem step_within_iff {h : Option BlockId} {i : Instr} {rest : List Instr} :
    f.Step (.within h (i :: rest)) ms s' ↔
      (i.isTerminator = false ∧ ms = [.did i] ∧ s' = .within h rest) ∨
      (i.isTerminator = false ∧ i.canThrow = true ∧ ms = [.raised] ∧ s' = .arrive h) ∨
      (∃ b, f.Transfer i ms b ∧ s' = .entering b) ∨
      (i = .ret ∧ ms = [.returned] ∧ s' = .outside) ∨
      (i = .raise ∧ ms = [.thrown] ∧ s' = .arrive h) := by
  constructor
  · intro hstep
    cases hstep with
    | plain hi => exact .inl ⟨hi, rfl, rfl⟩
    | raised hi ht => exact .inr (.inl ⟨hi, ht, rfl, rfl⟩)
    | transfer htr => exact .inr (.inr (.inl ⟨_, htr, rfl⟩))
    | returned => exact .inr (.inr (.inr (.inl ⟨rfl, rfl, rfl⟩)))
    | thrown => exact .inr (.inr (.inr (.inr ⟨rfl, rfl, rfl⟩)))
  · rintro (⟨hi, rfl, rfl⟩ | ⟨hi, ht, rfl, rfl⟩ | ⟨b, htr, rfl⟩ | ⟨rfl, rfl, rfl⟩
      | ⟨rfl, rfl, rfl⟩)
    · exact .plain hi
    · exact .raised hi ht
    · exact .transfer htr
    · exact .returned
    · exact .thrown

/-- To enter a block is to start on its code, without a mark. -/
theorem step_entering_iff :
    f.Step (.entering b) ms s' ↔
      ∃ B, f.block? b = some B ∧ ms = [] ∧ s' = .within B.handler B.code := by
  constructor
  · intro hstep
    cases hstep with
    | enter hB => exact ⟨_, hB, rfl, rfl⟩
  · rintro ⟨B, hB, rfl, rfl⟩
    exact .enter hB

/-- One step is a run. -/
theorem Runs.single (h : f.Step s ms s') : f.Runs s ms s' := by
  have hrun := Runs.step h .refl
  rwa [List.append_nil] at hrun

private theorem Runs.trans (h : f.Runs s ms s') (h' : f.Runs s' ns s'') :
    f.Runs s (ms ++ ns) s'' := by
  induction h with
  | refl => exact h'
  | step hstep _ ih =>
    rw [List.append_assoc]
    exact .step hstep (ih h')

/-- Silent steps may be put in front. -/
theorem Runs.silent (h : f.Runs s [] s') (h' : f.Runs s' ms s'') : f.Runs s ms s'' :=
  h.trans h'

/-- A terminator passes control only to successors of its block. -/
theorem Transfer.leads {i : Instr} {B : Block} {body : List Instr} (h : f.Transfer i ms b)
    (hB : f.block? a = some B) (hshape : B.Shape body i) : f.Leads a b := by
  rw [leads_iff_of_shape hB hshape]
  cases h with
  | jump => exact ⟨_, rfl, .head _⟩
  | ifTrue => exact ⟨_, rfl, .head _⟩
  | ifFalse => exact ⟨_, rfl, .tail _ (.head _)⟩
  | @table k T d disc hT =>
    refine ⟨T.targets ++ [d], by simp only [terminatorTargets, hT], ?_⟩
    cases hget : T.get? disc with
    | none => simp
    | some x => simp [JumpTable.mem_targets_iff.mpr ⟨disc, hget⟩]

/-- Only terminators transfer control. -/
theorem Transfer.isTerminator {i : Instr} (h : f.Transfer i ms b) : i.isTerminator = true := by
  cases h <;> rfl

/-- Where control is transferred depends on the tables only. -/
theorem Transfer.congr {i : Instr} (h : f.Transfer i ms b)
    (htable : ∀ k, g.table? k = f.table? k) : g.Transfer i ms b := by
  cases h with
  | jump => exact .jump
  | ifTrue => exact .ifTrue
  | ifFalse => exact .ifFalse
  | table disc hT => exact .table disc ((htable _).trans hT)

/-- With the same tables, control is transferred alike. -/
theorem transfer_iff_of_tables (htable : ∀ k, g.table? k = f.table? k) {i : Instr} :
    g.Transfer i ms b ↔ f.Transfer i ms b :=
  ⟨fun h ↦ h.congr fun k ↦ (htable k).symm, fun h ↦ h.congr htable⟩

/-! ### Simulation -/

/-- Related spots stay related: every step of `f` is answered by a run of `g` with its marks. -/
structure Simulates (f g : Func) (R : Spot → Spot → Prop) : Prop where
  step : ∀ s t ms s', R s t → f.Step s ms s' → ∃ t', g.Runs t ms t' ∧ R s' t'
  outside : ∀ t, R .outside t → t = .outside

private theorem Simulates.runs {R : Spot → Spot → Prop} (h : Simulates f g R) (hR : R s t)
    (hrun : f.Runs s ms s') : ∃ t', g.Runs t ms t' ∧ R s' t' := by
  induction hrun generalizing t with
  | refl => exact ⟨t, .refl, hR⟩
  | step hstep _ ih =>
    obtain ⟨u, hu, hRu⟩ := h.step _ _ _ _ hR hstep
    obtain ⟨t', ht', hR'⟩ := ih hRu
    exact ⟨t', hu.trans ht', hR'⟩

/-- Under a simulation, what one function can do the other can. -/
theorem Simulates.subset {R : Spot → Spot → Prop} (h : Simulates f g R)
    (hR : R (.entering a) (.entering b)) :
    f.traces a ⊆ g.traces b ∧ f.completed a ⊆ g.completed b := by
  constructor
  · rintro ms ⟨s, hrun⟩
    obtain ⟨t, ht, _⟩ := h.runs hR hrun
    exact ⟨t, ht⟩
  · intro ms hrun
    obtain ⟨t, ht, hRt⟩ := h.runs hR hrun
    rwa [h.outside t hRt] at ht

/-- A relation that is a simulation both ways relates blocks of the same behaviour. -/
theorem sameBehaviour_of_simulates {R : Spot → Spot → Prop} (hfg : Simulates f g R)
    (hgf : Simulates g f fun t s ↦ R s t) (hR : R (.entering a) (.entering b)) :
    SameBehaviour f a g b := by
  obtain ⟨htraces, hcompleted⟩ := hfg.subset hR
  obtain ⟨htraces', hcompleted'⟩ := hgf.subset hR
  exact ⟨htraces.antisymm htraces', hcompleted.antisymm hcompleted'⟩

private theorem SameBehaviour.trans (h : SameBehaviour f a g b) (h' : SameBehaviour g b k c) :
    SameBehaviour f a k c :=
  ⟨h.1.trans h'.1, h.2.trans h'.2⟩

/-! ### Preservation -/

/-- The entry and the exported blocks behave alike in both functions, and stay exported. -/
structure Preserves (f g : Func) : Prop where
  entry : ∀ e, f.entry? = some e → ∃ e', g.entry? = some e' ∧ SameBehaviour f e g e'
  exported : ∀ b, f.IsExported b → g.IsExported b ∧ SameBehaviour f b g b

/-- A function preserves itself. -/
theorem Preserves.refl (f : Func) : Preserves f f :=
  ⟨fun e he ↦ ⟨e, he, rfl, rfl⟩, fun _ hb ↦ ⟨hb, rfl, rfl⟩⟩

/-- Preservation passes on. -/
theorem Preserves.trans (h : Preserves f g) (h' : Preserves g k) : Preserves f k := by
  constructor
  · intro e he
    obtain ⟨e', he', hsame⟩ := h.entry e he
    obtain ⟨e'', he'', hsame'⟩ := h'.entry e' he'
    exact ⟨e'', he'', hsame.trans hsame'⟩
  · intro b hb
    obtain ⟨hb', hsame⟩ := h.exported b hb
    obtain ⟨hb'', hsame'⟩ := h'.exported b hb'
    exact ⟨hb'', hsame.trans hsame'⟩

end Func

end Bytecode
