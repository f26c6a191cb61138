import Bytecode.Optimize.Chains
import Bytecode.Proofs.Behaviour.Trace

/-!
# Inlining keeps the behaviour

In place of a jump to a block with the same handler, the instructions of that block may stand. A
run of the original does the jump in silence where the other one just goes on. The code that fuses
a chain of blocks arises from its first block in this way.
-/

namespace Bytecode

namespace Func

variable {f g : Func} {h : Option BlockId} {b : BlockId} {B : Block}
  {code code' : List Instr} {s s' u' : Spot} {ms : List Mark}

/-- Under the given handler, a final jump is replaced by the code of its target, and so on. -/
inductive Expands (f : Func) (h : Option BlockId) : List Instr → List Instr → Prop
  | refl {code : List Instr} : Expands f h code code
  | inline {front code : List Instr} {b : BlockId} {B : Block} :
      (∀ i ∈ front, i.isTerminator = false) → f.block? b = some B → B.handler = h →
      Expands f h B.code code → Expands f h (front ++ [.jump b]) (front ++ code)

/-- Spots of a function and of one with expanded code. -/
inductive Inlined (f : Func) : Spot → Spot → Prop
  | same {s : Spot} : Inlined f s s
  | within {h : Option BlockId} {code code' : List Instr} : f.Expands h code code' →
      Inlined f (.within h code) (.within h code')
  | entering {b : BlockId} {B : Block} {code' : List Instr} : f.block? b = some B →
      f.Expands B.handler B.code code' → Inlined f (.entering b) (.within B.handler code')

/-- The second function has the blocks of the first, with expanded code. -/
structure Inlines (f g : Func) : Prop where
  block? : ∀ b, g.block? b = none ∧ f.block? b = none ∨
    ∃ B code, f.block? b = some B ∧ g.block? b = some { B with code := code } ∧
      f.Expands B.handler B.code code
  table? : ∀ k, g.table? k = f.table? k

section

variable (hfg : Inlines f g)

include hfg

private theorem Inlines.step_within (hexp : f.Expands h code code')
    (hstep : f.Step (.within h code) ms s') :
    ∃ u', g.Runs (.within h code') ms u' ∧ f.Inlined s' u' := by
  cases hexp with
  | refl =>
    cases code with
    | nil => cases hstep
    | cons i rest =>
      refine ⟨s', .single ?_, .same⟩
      rw [step_within_iff] at hstep ⊢
      simpa only [transfer_iff_of_tables hfg.table?] using hstep
  | @inline front code' b B hfront hB hh hexp =>
    cases front with
    | nil =>
      -- The jump is silent and leads to the start of the inlined block.
      rcases step_within_iff.mp hstep with ⟨hi, _⟩ | ⟨hi, _⟩ | ⟨c, htr, rfl⟩ | ⟨hi, _⟩ | ⟨hi, _⟩
      · exact Bool.noConfusion hi
      · exact Bool.noConfusion hi
      · cases htr
        subst hh
        exact ⟨_, .refl, .entering hB hexp⟩
      · contradiction
      · contradiction
    | cons i front =>
      have hi := hfront i List.mem_cons_self
      have hfront' (j : Instr) (hj : j ∈ front) := hfront j (List.mem_cons_of_mem i hj)
      rcases step_within_iff.mp hstep with ⟨_, rfl, rfl⟩ | ⟨_, ht, rfl, rfl⟩ | ⟨c, htr, rfl⟩ |
        ⟨rfl, _⟩ | ⟨rfl, _⟩
      · exact ⟨_, .single (.plain hi), .within (.inline hfront' hB hh hexp)⟩
      · exact ⟨_, .single (.raised hi ht), .same⟩
      · simp [htr.isTerminator] at hi
      · exact Bool.noConfusion hi
      · exact Bool.noConfusion hi

private theorem Inlines.step_entering (hstep : f.Step (.entering b) ms s') :
    ∃ u', g.Runs (.entering b) ms u' ∧ f.Inlined s' u' := by
  obtain ⟨B, hB, rfl, rfl⟩ := step_entering_iff.mp hstep
  rcases hfg.block? b with ⟨_, hnone⟩ | ⟨B', code, hB', hg, hexp⟩
  · simp [hB] at hnone
  · obtain rfl := Option.some.inj (hB.symm.trans hB')
    exact ⟨_, .single (.enter hg), .within hexp⟩

private theorem Inlines.simulates : Simulates f g f.Inlined where
  step s u ms s' hR hstep := by
    cases hR with
    | same =>
      cases s with
      | entering b => exact hfg.step_entering hstep
      | within h code => exact hfg.step_within .refl hstep
      | outside => cases hstep
    | within hexp => exact hfg.step_within hexp hstep
    | entering hB hexp =>
      obtain ⟨B', hB', rfl, rfl⟩ := step_entering_iff.mp hstep
      obtain rfl := Option.some.inj (hB.symm.trans hB')
      exact ⟨_, .refl, .within hexp⟩
  outside u hR := by
    cases hR
    rfl

-- A step inside expanded code is answered after the silent steps into the inlined blocks.
private theorem Inlines.step_within_back (hexp : f.Expands h code code')
    (hstep : g.Step (.within h code') ms u') :
    ∃ s', f.Runs (.within h code) ms s' ∧ f.Inlined s' u' := by
  induction hexp with
  | @refl code =>
    cases code with
    | nil => cases hstep
    | cons i rest =>
      refine ⟨u', .single ?_, .same⟩
      rw [step_within_iff] at hstep ⊢
      simpa only [transfer_iff_of_tables hfg.table?] using hstep
  | @inline front code' b B hfront hB hh hexp ih =>
    cases front with
    | nil =>
      obtain ⟨s', hrun, hR⟩ := ih hstep
      subst hh
      exact ⟨s', .step (.transfer .jump) (.step (.enter hB) hrun), hR⟩
    | cons i front =>
      have hi := hfront i List.mem_cons_self
      have hfront' (j : Instr) (hj : j ∈ front) := hfront j (List.mem_cons_of_mem i hj)
      rcases step_within_iff.mp hstep with ⟨_, rfl, rfl⟩ | ⟨_, ht, rfl, rfl⟩ | ⟨c, htr, rfl⟩ |
        ⟨rfl, _⟩ | ⟨rfl, _⟩
      · exact ⟨_, .single (.plain hi), .within (.inline hfront' hB hh hexp)⟩
      · exact ⟨_, .single (.raised hi ht), .same⟩
      · simp [htr.isTerminator] at hi
      · exact Bool.noConfusion hi
      · exact Bool.noConfusion hi

private theorem Inlines.simulates_back : Simulates g f fun u s ↦ f.Inlined s u where
  step u s ms u' hR hstep := by
    cases hR with
    | same =>
      cases u with
      | entering b =>
        obtain ⟨B', hB', rfl, rfl⟩ := step_entering_iff.mp hstep
        rcases hfg.block? b with ⟨hnone, _⟩ | ⟨B, code, hB, hg, hexp⟩
        · simp [hB'] at hnone
        · obtain rfl := Option.some.inj (hB'.symm.trans hg)
          exact ⟨_, .single (.enter hB), .within hexp⟩
      | within h code => exact hfg.step_within_back .refl hstep
      | outside => cases hstep
    | within hexp => exact hfg.step_within_back hexp hstep
    | entering hB hexp =>
      obtain ⟨s', hrun, hR⟩ := hfg.step_within_back hexp hstep
      exact ⟨s', .step (.enter hB) hrun, hR⟩
  outside s hR := by
    cases hR
    rfl

/-- Expanded code shows the same. -/
theorem Inlines.sameBehaviour (b : BlockId) : SameBehaviour f b g b :=
  sameBehaviour_of_simulates hfg.simulates hfg.simulates_back .same

end

/-! ### The code of a chain -/

/-- The first block ends in a jump to the second. -/
def Jumps (f : Func) (a b : BlockId) : Prop :=
  ∃ A, f.block? a = some A ∧ A.terminator? = some (.jump b)

/-- What is known about the code of a chain of blocks from `a` to `last`: it expands the code of
the first one, and ends as the last one does. -/
structure Fuses (f : Func) (h : Option BlockId) (a last : BlockId) (code : List Instr) : Prop where
  expands : ∃ A, f.block? a = some A ∧ A.handler = h ∧ f.Expands h A.code code
  ends : ∃ L body t front, f.block? last = some L ∧ L.Shape body t ∧ code = front ++ [t] ∧
    ∀ i ∈ front, i.isTerminator = false

private theorem fuses_single (hf : f.Sound) (hB : f.block? b = some B) :
    f.Fuses B.handler b b B.code where
  expands := ⟨B, hB, rfl, .refl⟩
  ends := by
    obtain ⟨body, t, hshape⟩ := hf.shape b B hB
    exact ⟨B, body, t, body, hB, hshape, hshape.code_eq, hshape.plain⟩

private theorem Fuses.cons (hf : f.Sound) {a last : BlockId} {A : Block}
    (hA : f.block? a = some A) (hjump : A.terminator? = some (.jump b))
    (hcode : f.Fuses A.handler b last code) : f.Fuses A.handler a last (A.body ++ code) := by
  obtain ⟨body, t, hshape⟩ := hf.shape a A hA
  have hplain : ∀ i ∈ A.body, i.isTerminator = false := hshape.body_eq ▸ hshape.plain
  obtain ⟨⟨B, hB, hh, hexp⟩, L, bodyL, t, front, hL, hLs, rfl, hfront⟩ := hcode
  constructor
  · refine ⟨A, hA, rfl, ?_⟩
    rw [Block.code_eq_of_terminator? hjump]
    exact .inline hplain hB hh hexp
  · refine ⟨L, bodyL, t, A.body ++ front, hL, hLs, by rw [List.append_assoc], ?_⟩
    intro i hi
    rcases List.mem_append.mp hi with hi | hi
    · exact hplain i hi
    · exact hfront i hi

/-- The last block is fused in whole, if it has the handler. -/
theorem fusedCode_singleton_eq_ok_iff {a head : BlockId} :
    Merge.fusedCode f head h [a] = .ok code ↔
      ∃ A, f.block? a = some A ∧ A.handler = h ∧ code = A.code := by
  rw [Merge.fusedCode]
  cases f.block? a with
  | none => simp
  | some A =>
    by_cases hh : A.handler = h
    · simp [hh, eq_comm]
    · simp [hh]

/-- The other blocks are fused without their terminators, if they have the handler. -/
theorem fusedCode_cons_eq_ok_iff {a head : BlockId} {l : List BlockId} (hl : l ≠ []) :
    Merge.fusedCode f head h (a :: l) = .ok code ↔
      ∃ A rest, f.block? a = some A ∧ A.handler = h ∧ Merge.fusedCode f head h l = .ok rest ∧
        code = A.body ++ rest := by
  rw [Merge.fusedCode]
  cases f.block? a with
  | none => simp
  | some A =>
    by_cases hh : A.handler = h
    · cases Merge.fusedCode f head h l with
      | error fault => simp [hh, hl]
      | ok rest => simp [hh, hl, eq_comm (a := code)]
    · simp [hh]

/-- Along jumps, the fused code expands the code of the first block and ends as the last one
does. -/
theorem fuses_fusedCode (hf : f.Sound) {a head : BlockId} {l : List BlockId}
    (hl : List.IsChain f.Jumps (a :: l)) (h' : Merge.fusedCode f head h (a :: l) = .ok code) :
    f.Fuses h a ((a :: l).getLast (List.cons_ne_nil a l)) code := by
  induction l generalizing a code with
  | nil =>
    obtain ⟨A, hA, rfl, rfl⟩ := fusedCode_singleton_eq_ok_iff.mp h'
    exact fuses_single hf hA
  | cons b l ih =>
    obtain ⟨A, rest, hA, rfl, hrest, rfl⟩ :=
      (fusedCode_cons_eq_ok_iff (List.cons_ne_nil b l)).mp h'
    obtain ⟨⟨A', hA', hjump⟩, hl'⟩ := List.isChain_cons_cons.mp hl
    obtain rfl := Option.some.inj (hA.symm.trans hA')
    rw [List.getLast_cons (List.cons_ne_nil b l)]
    exact (ih hl' hrest).cons hf hA hjump

end Func

end Bytecode
