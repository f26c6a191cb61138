import Bytecode.Proofs.Optimize.Balance
import Bytecode.Proofs.Optimize.Outputs

/-!
# Where the optimiser can fail

A valid function stays valid under all edits. So of a valid function whose stack is in order, the
optimiser can make one with a fault in one way only: it takes away the handlers by which an
exported block was reached that is entered with something on the stack. That is so exactly if the
check of the stack does not accept the function without these handlers. Apart from that the
optimiser fails only where registers are to be reduced and one of them is read before it is
written.
-/

namespace Bytecode

/-- A renamed instruction names the renamed registers. -/
@[simp] theorem Instr.registers_mapRegisters (m : Register → Register) (i : Instr) :
    (i.mapRegisters m m).registers = i.registers.map m := by
  cases i <;> rfl

private theorem Block.mem_code_of_mem_body {B : Block} {i : Instr} (h : i ∈ B.body) :
    i ∈ B.code := by
  rw [body] at h
  split at h
  · exact List.mem_of_mem_dropLast h
  · exact h

namespace Func

variable {f g : Func} {settings : Settings} {H : BlockId → Nat} {l : List BlockId}
  {a b t T x : BlockId} {r : Register}

/-! ### Names and registers -/

private theorem name_bypass (f : Func) (t T : BlockId) : (f.bypass t T).name = f.name := by
  rw [bypass, name_removeBlock, name_redirect]

private theorem registerCount_bypass (f : Func) (t T : BlockId) :
    (f.bypass t T).registerCount = f.registerCount := by
  rw [bypass, registerCount_removeBlock, registerCount_redirect]

/-- Removals keep the function's name. -/
theorem name_removeBlocks (f : Func) (l : List BlockId) : (f.removeBlocks l).name = f.name := by
  induction l generalizing f with
  | nil => rfl
  | cons b l ih => exact (ih (f.removeBlock b)).trans (name_removeBlock f b)

/-- Removals keep the number of registers. -/
theorem registerCount_removeBlocks (f : Func) (l : List BlockId) :
    (f.removeBlocks l).registerCount = f.registerCount := by
  induction l generalizing f with
  | nil => rfl
  | cons b l ih => exact (ih (f.removeBlock b)).trans (registerCount_removeBlock f b)

private theorem Edit.name_eq (h : Edit settings f l g) : g.name = f.name := by
  cases h with
  | hop | cut => exact name_bypass f _ _
  | prune => exact name_removeBlocks f l
  | _ => rfl

private theorem Edits.name_eq (h : Edits settings f l g) : g.name = f.name := by
  induction h with
  | refl => rfl
  | tail _ hstep ih => exact hstep.name_eq.trans ih

/-- All registers that instructions name are there. -/
def Ranged (f : Func) : Prop := ∀ r, f.Names r → r < f.registerCount

private theorem Valid.ranged (h : f.Valid) : f.Ranged := by
  rintro r ⟨b, B, i, hB, hi, hr⟩
  exact h.registers b B hB i hi r hr

private theorem Sound.valid (hf : f.Sound) (hr : f.Ranged) : f.Valid where
  intact := hf.intact
  registers b B hB i hi r hir := hr r ⟨b, B, i, hB, hi, hir⟩

private theorem Replaceable.names_of_bypass (h : f.Replaceable t T) (hf : f.Sound)
    (hr : (f.bypass t T).Names r) : f.Names r := by
  obtain ⟨b, B, i, hB, hi, hir⟩ := hr
  rw [h.block?_bypass_eq hf] at hB
  split at hB
  · contradiction
  · obtain ⟨B₀, hB₀, rfl⟩ := Option.map_eq_some_iff.mp hB
    obtain ⟨j, hj, rfl⟩ := List.mem_map.mp hi
    exact ⟨b, B₀, j, hB₀, hj, Instr.registers_redirect t T j ▸ hir⟩

/-- Fused code has its instructions from the blocks of the chain. -/
theorem mem_of_fusedCode {a head : BlockId} {handler : Option BlockId} {code : List Instr}
    {i : Instr} (hcode : Merge.fusedCode f head handler (a :: l) = .ok code) (hi : i ∈ code) :
    ∃ b B, f.block? b = some B ∧ i ∈ B.code := by
  induction l generalizing a code with
  | nil =>
    obtain ⟨A, hA, _, rfl⟩ := fusedCode_singleton_eq_ok_iff.mp hcode
    exact ⟨a, A, hA, hi⟩
  | cons b l ih =>
    obtain ⟨A, rest, hA, _, hrest, rfl⟩ :=
      (fusedCode_cons_eq_ok_iff (List.cons_ne_nil b l)).mp hcode
    rcases List.mem_append.mp hi with hi | hi
    · exact ⟨a, A, hA, Block.mem_code_of_mem_body hi⟩
    · exact ih hrest hi

private theorem Ranged.clearHandler (h : f.Ranged) : (f.clearHandler b).Ranged := by
  rintro r ⟨x, B, i, hB, hi, hir⟩
  obtain ⟨B₀, hB₀, rfl⟩ := block?_clearHandler_eq_some_iff.mp hB
  exact h r ⟨x, B₀, i, hB₀, hi, hir⟩

/-- Registers stay in range. -/
theorem Edit.ranged (hf : f.Sound) (h : Edit settings f l g) (hr : f.Ranged) : g.Ranged := by
  cases h with
  | clear => exact hr.clearHandler
  | hop _ hrow hne =>
    intro r hnames
    rw [registerCount_bypass]
    exact hr r ((replaceable_of_forwards hf hrow hne).names_of_bypass hf hnames)
  | @inline P K code _ _ hK hcode =>
    rintro r ⟨b, B, i, hB, hi, hir⟩
    obtain ⟨B₀, hB₀, rfl⟩ := block?_setCode_eq_some_iff.mp hB
    by_cases hb : b = K.head
    · obtain ⟨_, _, hcode⟩ := Merge.Chain.code_eq_ok_iff.mp hcode
      obtain ⟨x, X, hX, hiX⟩ := mem_of_fusedCode hcode (by simpa [hb] using hi)
      exact hr r ⟨x, X, i, hX, hiX, hir⟩
    · exact hr r ⟨b, B₀, i, hB₀, by simpa [hb] using hi, hir⟩
  | cut _ hP ha hb hla hlb =>
    intro r hnames
    rw [registerCount_bypass]
    exact hr r ((hP.replaceable ha hb hla hlb).names_of_bypass hf hnames)
  | prune =>
    rintro r ⟨b, B, i, hB, hi, hir⟩
    rw [registerCount_removeBlocks]
    rw [block?_removeBlocks] at hB
    split at hB
    · contradiction
    · exact hr r ⟨b, B, i, hB, hi, hir⟩
  | @rename m count _ hcount =>
    rintro r ⟨b, B, i, hB, hi, hir⟩
    obtain ⟨B₀, hB₀, rfl⟩ := (Slots.renames_rename m count f).block?_eq_some_iff.mp hB
    obtain ⟨j, hj, rfl⟩ := List.mem_map.mp hi
    rw [Instr.registers_mapRegisters] at hir
    obtain ⟨r', hr', rfl⟩ := List.mem_map.mp hir
    exact hcount r' ⟨b, B₀, j, hB₀, hj, hr'⟩

/-- Edits leave a sound and valid function valid. -/
theorem Edits.valid (hf : f.Sound) (hv : f.Valid) (h : Edits settings f l g) : g.Valid := by
  have hranged : g.Ranged := by
    induction h with
    | refl => exact hv.ranged
    | tail hsteps hstep ih => exact hstep.ranged (hsteps.sound hf) ih
  exact (h.sound hf).valid hranged

/-! ### Functions without their idle handlers -/

/-- Drop the handlers of some blocks. -/
def clearHandlers (f : Func) (l : List BlockId) : Func := l.foldl clearHandler f

/-- Drop all handlers that the passes may take away. -/
def dropIdle (settings : Settings) (f : Func) : Func :=
  f.clearHandlers ((f.blocks.filter (·.2.isIdle settings)).map Prod.fst)

/-- What holds whenever one more handler is dropped holds in the end. -/
theorem clearHandlers_induction {P : Func → Prop} (h : P f)
    (hstep : ∀ g b, P g → P (g.clearHandler b)) (l : List BlockId) : P (f.clearHandlers l) := by
  induction l generalizing f with
  | nil => exact h
  | cons b l ih => exact ih (hstep f b h)

private theorem block?_clearHandlers_eq_some_iff {B : Block} :
    (f.clearHandlers l).block? x = some B ↔
      ∃ B', f.block? x = some B' ∧
        B = { B' with handler := if x ∈ l then none else B'.handler } := by
  induction l generalizing f with
  | nil => simp [clearHandlers, eq_comm]
  | cons b l ih =>
    rw [clearHandlers, List.foldl_cons, ← clearHandlers, ih]
    simp only [block?_clearHandler_eq_some_iff, List.mem_cons]
    constructor
    · rintro ⟨_, ⟨B', hB', rfl⟩, rfl⟩
      refine ⟨B', hB', ?_⟩
      by_cases hx : x = b <;> simp [hx]
    · rintro ⟨B', hB', rfl⟩
      refine ⟨_, ⟨B', hB', rfl⟩, ?_⟩
      by_cases hx : x = b <;> simp [hx]

private theorem WF.mem_idle_iff (hw : f.WF) {B : Block} (hB : f.block? x = some B) :
    x ∈ (f.blocks.filter (·.2.isIdle settings)).map Prod.fst ↔ B.isIdle settings = true := by
  simp [hw.mem_blocks, hB]

private theorem leads_clearHandlers_iff : (f.clearHandlers l).Leads a b ↔ f.Leads a b :=
  clearHandlers_induction (P := fun g ↦ g.Leads a b ↔ f.Leads a b) Iff.rfl
    (fun g c h ↦ (leads_congr (successors_clearHandler g c a)).trans h) l

private theorem layout_clearHandlers (f : Func) (l : List BlockId) :
    (f.clearHandlers l).layout = f.layout :=
  clearHandlers_induction (P := (·.layout = f.layout)) rfl (fun _ _ h ↦ h) l

/-- Clearing handlers keeps which blocks are exported. -/
theorem isExported_clearHandlers_iff : (f.clearHandlers l).IsExported b ↔ f.IsExported b := by
  constructor
  · rintro ⟨B, hB, hexp⟩
    obtain ⟨B', hB', rfl⟩ := block?_clearHandlers_eq_some_iff.mp hB
    exact ⟨B', hB', hexp⟩
  · rintro ⟨B, hB, hexp⟩
    exact ⟨_, block?_clearHandlers_eq_some_iff.mpr ⟨B, hB, rfl⟩, hexp⟩

private theorem Sound.clearHandlers (hf : f.Sound) (l : List BlockId) :
    (f.clearHandlers l).Sound :=
  clearHandlers_induction hf (fun _ b h ↦ h.clearHandler b) l

private theorem Balances.clearHandlers (h : f.Balances H) (l : List BlockId) :
    (f.clearHandlers l).Balances H :=
  clearHandlers_induction (P := (·.Balances H)) h (fun _ _ h ↦ h.clearHandler) l

private theorem Valid.clearHandlers (h : f.Valid) (hf : f.Sound) (l : List BlockId) :
    (f.clearHandlers l).Valid :=
  (hf.clearHandlers l).valid (clearHandlers_induction h.ranged (fun _ _ h ↦ h.clearHandler) l)

/-- Clearing handlers keeps the order in which the check starts. -/
theorem startsBefore_clearHandlers_iff :
    (f.clearHandlers l).StartsBefore a b ↔ f.StartsBefore a b := by
  simp only [StartsBefore, Precedes, entry?, layout_clearHandlers, isExported_clearHandlers_iff]

/-- The edges that are left. -/
theorem follows_clearHandlers_iff : (f.clearHandlers l).Follows a b ↔
    f.Leads a b ∨ ∃ A, f.block? a = some A ∧ A.handler = some b ∧ a ∉ l := by
  apply or_congr leads_clearHandlers_iff
  constructor
  · rintro ⟨A, hA, hh⟩
    obtain ⟨A', hA', rfl⟩ := block?_clearHandlers_eq_some_iff.mp hA
    by_cases ha : a ∈ l
    · simp [ha] at hh
    · exact ⟨A', hA', by simpa [ha] using hh, ha⟩
  · rintro ⟨A, hA, hh, ha⟩
    refine ⟨_, block?_clearHandlers_eq_some_iff.mpr ⟨A, hA, rfl⟩, ?_⟩
    rw [if_neg ha, hh]

/-- The check accepts a function without some idle handlers exactly if all exported blocks stay
grounded. -/
theorem exists_stackLayout_clearHandlers_iff {heights : StackLayout} (hf : f.Sound) (hv : f.Valid)
    (h : f.stackLayout = .ok heights)
    (hl : ∀ b ∈ l, ∀ B, f.block? b = some B → B.isIdle settings = true) :
    (∃ heights', (f.clearHandlers l).stackLayout = .ok heights') ↔
      (f.clearHandlers l).Grounded (f.clearHandlers l).Follows heights.entryHeight := by
  have hbalances := (balances_of_stackLayout hv h).clearHandlers l
  constructor
  · rintro ⟨_, h'⟩
    have hroutes : Routes settings f (f.clearHandlers l) := by
      apply routes_of_edges hf (congrArg List.head? (layout_clearHandlers f l))
      rintro a b _ (hab | ⟨A, hA, hh, hbusy⟩)
      · exact .inl (leads_clearHandlers_iff.mpr hab)
      · have ha : a ∉ l := fun ha ↦ hbusy (hl a ha A hA)
        refine .inr ⟨_, block?_clearHandlers_eq_some_iff.mpr ⟨A, hA, rfl⟩, ?_, hbusy⟩
        rw [if_neg ha, hh]
    exact grounded_of_accepted hf hv h (hf.clearHandlers l) (hv.clearHandlers hf l) h'
      (fun _ ↦ isExported_clearHandlers_iff) hroutes hbalances
  · exact hbalances.exists_stackLayout (hf.clearHandlers l)

/-- Without all idle handlers, the edges that are left are those that the passes keep. -/
theorem WF.follows_dropIdle_iff (hw : f.WF) :
    (f.dropIdle settings).Follows a b ↔ f.Carries settings a b := by
  rw [dropIdle, follows_clearHandlers_iff, Carries]
  refine or_congr_right (exists_congr fun A ↦ and_congr_right fun hA ↦ and_congr_right fun _ ↦ ?_)
  rw [hw.mem_idle_iff hA]

private theorem exists_stackLayout_dropIdle_iff {heights : StackLayout} (hf : f.Sound)
    (hv : f.Valid) (h : f.stackLayout = .ok heights) :
    (∃ heights', (f.dropIdle settings).stackLayout = .ok heights') ↔
      f.Grounded (f.Carries settings) heights.entryHeight := by
  have hedges : (f.dropIdle settings).Follows = f.Carries settings :=
    funext₂ fun _ _ ↦ propext hf.wf.follows_dropIdle_iff
  rw [dropIdle, exists_stackLayout_clearHandlers_iff hf hv h
    fun b hb B hB ↦ (hf.wf.mem_idle_iff hB).mp hb, ← dropIdle, hedges, dropIdle]
  simp only [Grounded, startsBefore_clearHandlers_iff, isExported_clearHandlers_iff]

end Func

namespace Optimizer

open Func

variable {f g : Func} {settings : Settings} {l : StackLayout} {fault : Fault}

/-! ### The check of the result -/

/-- The check finds nothing but a stack that is out of order. -/
theorem checkResult_eq_error (hv : f.Valid) (h : checkResult settings f = .error fault) :
    settings.validateStack = true ∧ ∃ inner, f.stackLayout = .error inner ∧
      fault = .unbalancedAfterPasses f.name inner := by
  rw [checkResult, hv.wf.fault?_eq_none_iff.mpr hv] at h
  split at h
  · contradiction
  · split at h
    · next hvalidate =>
      split at h
      · next inner hlayout =>
        cases h
        exact ⟨hvalidate, inner, hlayout, rfl⟩
      · contradiction
    · contradiction

private theorem checkInput_eq_ok (hv : f.fault? = none) (hl : f.stackLayout = .ok l) :
    checkInput settings f = .ok () := by
  rw [checkInput, hv, hl]
  exact ite_self _

private theorem exists_stackLayout_of_checkResult {depth : Option Nat}
    (hasked : settings.validateStack = true)
    (h : checkResult settings f = .ok depth) : ∃ l, f.stackLayout = .ok l := by
  rw [checkResult, if_pos hasked] at h
  split at h
  · contradiction
  · split at h
    · contradiction
    · next l hl => exact ⟨l, hl⟩

/-- What the passes make of a function is accepted if the function is without its idle handlers. -/
theorem dropIdle_rejected {gone : List BlockId} {cause : Fault} (hf : f.Sound) (hv : f.Valid)
    (hl : f.stackLayout = .ok l) (hedits : Edits settings f gone g)
    (hg : g.stackLayout = .error cause) :
    ∃ cause, (f.dropIdle settings).stackLayout = .error cause := by
  have hbalances := balances_of_stackLayout hv hl
  cases hdrop : (f.dropIdle settings).stackLayout with
  | error cause => exact ⟨cause, rfl⟩
  | ok l' =>
    have hground := (hedits.grounded_iff hf hbalances).mpr
      ((exists_stackLayout_dropIdle_iff hf hv hl).mp ⟨l', hdrop⟩)
    obtain ⟨_, hok⟩ := (hedits.balances hf hbalances).exists_stackLayout (hedits.sound hf)
      (hground.mono fun _ _ hab ↦ hab.follows)
    rw [hg] at hok
    contradiction

/-- If the passes drop all idle handlers and the result is accepted, then so is the function
without them. -/
theorem dropIdle_accepted {gone : List BlockId} {l' : StackLayout} (hf : f.Sound) (hv : f.Valid)
    (hl : f.stackLayout = .ok l) (hedits : Edits settings f gone g) (hneeded : Handlers.Needed g)
    (hg : g.stackLayout = .ok l') : ∃ l', (f.dropIdle settings).stackLayout = .ok l' := by
  have hbalances := balances_of_stackLayout hv hl
  have hground := grounded_of_accepted hf hv hl (hedits.sound hf) (hedits.valid hf hv) hg
    (hedits.descends hf).exported (hedits.routes hf) (hedits.balances hf hbalances)
  have hcarries (a b : BlockId) (hab : g.Follows a b) : g.Carries settings a b := by
    refine hab.imp_right fun ⟨A, hA, hh⟩ ↦ ⟨A, hA, hh, fun hidle ↦ ?_⟩
    have hthrows := hneeded a A hA (by simp [hh])
    rw [Block.canThrow_of_isIdle hidle] at hthrows
    contradiction
  exact (exists_stackLayout_dropIdle_iff hf hv hl).mpr
    ((hedits.grounded_iff hf hbalances).mp (hground.mono hcarries))

/-! ### The outcome -/

/-- With three rounds for merging, optimising a valid function whose stack is in order succeeds,
with two exceptions. If registers are to be reduced, one may be read before it is written. If
heights are checked, the stack of the result may be out of order; then it is out of order already
in the function without the handlers that the passes may take away. Where the passes take all these
handlers away, a run cannot succeed in that case. -/
theorem optimize_outcomes (hf : f.Drafted) (hv : f.fault? = none) (hl : f.stackLayout = .ok l)
    (hrounds : 3 ≤ settings.maxMergeRounds) :
    ((∃ report, (optimize settings f).result = .ok report) ∨
      (settings.reduceRegisters = true ∧
        ∃ r b offset,
          (optimize settings f).result = .error (.registerReadBeforeWrite r b offset)) ∨
      (settings.validateStack = true ∧
        (∃ cause, (f.dropIdle settings).stackLayout = .error cause) ∧
        ∃ cause, (optimize settings f).result = .error (.unbalancedAfterPasses f.name cause))) ∧
    (settings.validateStack = true → settings.simplifyHandlers = true →
      (∃ report, (optimize settings f).result = .ok report) →
      ∃ l', (f.dropIdle settings).stackLayout = .ok l') := by
  have hsound := hf.sound hv
  have hvalid := hf.wf.fault?_eq_none_iff.mp hv
  constructor
  · rw [result_optimize]
    cases hresult : (transform settings f).result with
    | ok report => exact .inl ⟨report, rfl⟩
    | error fault =>
      cases (yields_transform hsound).of_error hresult with
      | input hinput =>
        rw [checkInput_eq_ok hv hl] at hinput
        contradiction
      | rounds _ _ hlt _ => omega
      | registers hasked _ hfault => exact .inr (.inl ⟨hasked, _, _, _, by rw [hfault]⟩)
      | result hedits _ hfault =>
        obtain ⟨hvalidate, cause, hcause, hfault⟩ := checkResult_eq_error
          (hedits.valid hsound hvalid) hfault
        exact .inr (.inr ⟨hvalidate, dropIdle_rejected hsound hvalid hl hedits hcause, cause,
          by rw [hfault, hedits.name_eq]⟩)
  · rintro hvalidate hsimplify ⟨report, hreport⟩
    obtain ⟨_, _, hdone⟩ := optimize_eq_of_ok hf hreport
    obtain ⟨_, haccepted⟩ := exists_stackLayout_of_checkResult hvalidate hdone.checked
    exact dropIdle_accepted hsound hvalid hl hdone.accounted.edits (hdone.rested.needed hsimplify)
      haccepted

/-- The entry sets a handler that it does not need, and leads itself to the exported block after it
with the value that is returned there. -/
def anchored : Func :=
  ((Draft.start "anchored" 0 0).declareAll
    [.block { id := 0, code := [.push .null, .jump 1], handler := some 2 },
      .block { id := 1, code := [.ret], pinned := true },
      .block { id := 2, code := [.caught, .jump 1] }]).build

/-- The optimizer succeeds on `anchored`, whose stack is in order without the handler as well. -/
theorem anchored_succeeds :
    anchored.Drafted ∧ anchored.fault? = none ∧ (∃ l, anchored.stackLayout = .ok l) ∧
      3 ≤ ({} : Settings).maxMergeRounds ∧
      ((anchored.dropIdle {}).block? 0).map Block.handler = some none ∧
      (∃ report, (optimize {} anchored).result = .ok report) ∧
      ∃ l', (anchored.dropIdle {}).stackLayout = .ok l' := by
  have hdrafted : anchored.Drafted := ⟨_, _, _, _, rfl⟩
  have hv : anchored.fault? = none := by decide +kernel
  have hrounds : 3 ≤ ({} : Settings).maxMergeRounds := by decide
  have hok : anchored.stackLayout.toOption.isSome = true := by decide +kernel
  have hdrop : (anchored.dropIdle {}).stackLayout.toOption.isSome = true := by decide +kernel
  obtain ⟨l, hl⟩ := Except.exists_eq_ok_of_isSome hok
  obtain ⟨hcases, haccepted⟩ := optimize_outcomes hdrafted hv hl hrounds
  have hreport : ∃ report, (optimize {} anchored).result = .ok report := by
    rcases hcases with hreport | ⟨hasked, _⟩ | ⟨_, ⟨cause, hcause⟩, _⟩
    · exact hreport
    · exact absurd hasked Bool.false_ne_true
    · simp [hcause, Except.toOption] at hdrop
  exact ⟨hdrafted, hv, ⟨l, hl⟩, hrounds, by decide +kernel, hreport, haccepted rfl rfl hreport⟩

/-- The exported block is entered with a value only by way of the handler, and no instruction of
the entry can throw. -/
def stranded : Func :=
  ((Draft.start "stranded" 0 0).declareAll
    [.block { id := 0, code := [.push .null, .ret], handler := some 2 },
      .block { id := 1, code := [.ret], pinned := true },
      .block { id := 2, code := [.caught, .jump 1] }]).build

/-- Without its handler, the check starts the exported block with an empty stack. -/
theorem stranded_unbalanced :
    stranded.Drafted ∧ stranded.fault? = none ∧ (∃ l, stranded.stackLayout = .ok l) ∧
      3 ≤ ({} : Settings).maxMergeRounds ∧
      (optimize {} stranded).result =
        .error (.unbalancedAfterPasses "stranded" (.invalidReturnHeight 2 0)) ∧
      (Fault.unbalancedAfterPasses "stranded" (.invalidReturnHeight 2 0)).isInternal = true := by
  have hok : stranded.stackLayout.toOption.isSome = true := by decide +kernel
  have hfault : (optimize {} stranded).result.map (fun _ ↦ ()) =
      .error (.unbalancedAfterPasses "stranded" (.invalidReturnHeight 2 0)) := by decide +kernel
  refine ⟨⟨_, _, _, _, rfl⟩, by decide +kernel, Except.exists_eq_ok_of_isSome hok, by decide, ?_,
    rfl⟩
  cases hresult : (optimize {} stranded).result with
  | error fault =>
    rw [hresult] at hfault
    exact congrArg Except.error (Except.error.inj hfault)
  | ok report => simp [hresult, Except.map] at hfault

end Optimizer

end Bytecode
