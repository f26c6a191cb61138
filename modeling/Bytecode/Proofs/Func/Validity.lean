import Bytecode.Func.Validate
import Bytecode.Proofs.Func.Edits

/-!
# What validation accepts

A well-formed function has no fault exactly when it is valid: it has a block, every block is plain
instructions and one terminator, and every register, table and block that is named is there.
-/

namespace Bytecode

/-- A redirection keeps the registers of an instruction. -/
theorem Instr.registers_redirect (old new : BlockId) (i : Instr) :
    (i.redirect old new).registers = i.registers := by
  cases i <;> rfl

namespace Func

variable {f : Func} {a b : BlockId} {B : Block} {body : List Instr} {t : Instr}

/-- Control may pass from the end of one block to the start of another. -/
def Leads (f : Func) (a b : BlockId) : Prop := ∃ ts, f.successors a = .ok ts ∧ b ∈ ts

/-- What following control takes for granted: the layout lists the blocks, every block ends in its
only terminator, and every block that is named is there. -/
structure Intact (f : Func) : Prop extends wf : WF f where
  nonempty : f.layout ≠ []
  shape : ∀ b B, f.block? b = some B → ∃ body t, B.Shape body t
  successors : ∀ b, f.contains b = true → ∃ ts, f.successors b = .ok ts
  leads : ∀ a b, f.Leads a b → f.contains b = true
  handler : ∀ b B h, f.block? b = some B → B.handler = some h → f.contains h = true

/-- What validation accepts: registers are there as well. -/
structure Valid (f : Func) : Prop extends intact : Intact f where
  registers : ∀ b B, f.block? b = some B → ∀ i ∈ B.code, ∀ r ∈ i.registers, r < f.registerCount

/-- An intact function has an entry. -/
theorem Intact.exists_entry (h : f.Intact) : ∃ e, f.entry? = some e :=
  ⟨f.layout.head h.nonempty, List.head?_eq_some_head h.nonempty⟩

/-- Only a live block has successors. -/
theorem contains_of_successors {ts : List BlockId} (h : f.successors a = .ok ts) :
    f.contains a = true := by
  rw [Func.successors] at h
  split at h
  · contradiction
  · next B hB => exact contains_of_block? hB

/-- Only a live block leads somewhere. -/
theorem contains_of_leads (h : f.Leads a b) : f.contains a = true := by
  obtain ⟨ts, hts, _⟩ := h
  exact contains_of_successors hts

/-- The successors of a block of the usual shape are the targets of its terminator. -/
theorem successors_of_shape (hB : f.block? b = some B) (h : B.Shape body t) :
    f.successors b = f.terminatorTargets b B.code.length t := by
  rw [Func.successors, hB]
  simp only [h.terminator?_eq]

/-- Such a block leads where its terminator does. -/
theorem leads_iff_of_shape (hB : f.block? b = some B) (h : B.Shape body t) {x : BlockId} :
    f.Leads b x ↔ ∃ ts, f.terminatorTargets b B.code.length t = .ok ts ∧ x ∈ ts := by
  rw [Leads, successors_of_shape hB h]

/-- A block leads to all that its terminator names, unless its table is missing. -/
theorem leads_of_mem_targets (hB : f.block? a = some B) (h : B.Shape body t)
    (hs : ∃ ts, f.successors a = .ok ts) (hb : b ∈ t.targets) : f.Leads a b := by
  obtain ⟨ts, hts⟩ := hs
  refine ⟨ts, hts, ?_⟩
  rw [successors_of_shape hB h] at hts
  cases t with
  | jumpTable k d =>
    rw [terminatorTargets] at hts
    split at hts
    · obtain rfl := Except.ok.inj hts
      exact List.mem_append_right _ hb
    · contradiction
  | _ =>
    obtain rfl := Except.ok.inj hts
    exact hb

/-- A block whose terminator is a jump leads to its target only. -/
theorem leads_jump_iff (hB : f.block? b = some B) (h : B.terminator? = some (.jump a))
    {x : BlockId} : f.Leads b x ↔ x = a := by
  have hsucc : f.successors b = .ok [a] := by
    rw [Func.successors, hB]
    simp only [h]
    rfl
  simp [Leads, hsucc]

/-- Blocks with the same successors lead to the same blocks. -/
theorem leads_congr {g : Func} (h : g.successors a = f.successors a) :
    g.Leads a b ↔ f.Leads a b := by
  rw [Leads, Leads, h]

/-- Where a block leads depends on that block and on the tables only. -/
theorem leads_iff_of_block? {g : Func} (hblock : g.block? a = f.block? a)
    (htable : ∀ k, g.table? k = f.table? k) : g.Leads a b ↔ f.Leads a b := by
  have hterm (l : Nat) (t : Instr) : g.terminatorTargets a l t = f.terminatorTargets a l t := by
    cases t <;> simp [terminatorTargets, htable]
  cases hB : f.block? a with
  | none =>
    rw [hB] at hblock
    simp [Leads, Func.successors, hB, hblock]
  | some B =>
    rw [hB] at hblock
    simp [Leads, Func.successors, hB, hblock, hterm]

/-! ### Successors under edits -/

private theorem terminatorTargets_redirect (f : Func) (old new b : BlockId) (length : Nat)
    (t : Instr) : (f.redirect old new).terminatorTargets b length (t.redirect old new) =
      (f.terminatorTargets b length t).map (List.map (retarget old new)) := by
  cases t with
  | jumpTable k d =>
    simp only [Instr.redirect, Instr.mapTargets, terminatorTargets, table?_redirect]
    cases f.table? k <;> simp [JumpTable.redirect, Except.map]
  | _ => simp [Instr.redirect, Instr.mapTargets, terminatorTargets, Instr.targets, Except.map]

/-- A redirection is applied to all successors of a block. -/
theorem successors_redirect (f : Func) (old new b : BlockId) :
    (f.redirect old new).successors b =
      (f.successors b).map (List.map (retarget old new)) := by
  rw [Func.successors, Func.successors, block?_redirect, name_redirect]
  cases f.block? b with
  | none => rfl
  | some B =>
    have hterm : (B.redirect old new).terminator? =
        B.terminator?.map (Instr.redirect old new) := by
      have h := Block.terminator?_mapTerminator (Instr.redirect old new) B
        (Instr.isTerminator_redirect old new)
      exact h
    simp only [Option.map_some, hterm]
    cases ht : B.terminator? with
    | none => rfl
    | some t =>
      have hlength : (B.redirect old new).code.length = B.code.length := by
        rw [Block.code_eq_of_terminator? ht]
        simp [Block.redirect, Block.mapTerminator, ht]
      simp only [Option.map_some, hlength, terminatorTargets_redirect]

/-- A removal keeps the successors of the other blocks. -/
theorem successors_removeBlock {x : BlockId} (h : x ≠ b) :
    (f.removeBlock b).successors x = f.successors x := by
  have hterm (l : Nat) (t : Instr) :
      (f.removeBlock b).terminatorTargets x l t = f.terminatorTargets x l t := by
    cases t <;> simp [terminatorTargets, table?_removeBlock]
  rw [Func.successors, Func.successors, block?_removeBlock, if_neg h, name_removeBlock]
  simp only [hterm]

/-! ### Instructions -/

private theorem codeFault?_eq_none_iff (f : Func) (b : BlockId) (offset : Nat)
    (code : List Instr) :
    f.codeFault? b offset code = none ↔
      (∀ i ∈ code.dropLast, i.isTerminator = false) ∧
        ∀ i ∈ code, ∀ r ∈ i.registers, r < f.registerCount := by
  induction code generalizing offset with
  | nil => simp [codeFault?]
  | cons i rest ih =>
    have hreg : i.registers.find? (f.registerCount ≤ ·) = none ↔
        ∀ r ∈ i.registers, r < f.registerCount := by
      simp [List.find?_eq_none]
    rw [codeFault?]
    split
    · next hterm =>
      simp only [Bool.and_eq_true, Bool.not_eq_true', List.isEmpty_eq_false_iff] at hterm
      simp [List.dropLast_cons_of_ne_nil hterm.2, hterm.1]
    · next hterm =>
      have hdrop : (∀ j ∈ (i :: rest).dropLast, j.isTerminator = false) ↔
          ∀ j ∈ rest.dropLast, j.isTerminator = false := by
        by_cases hr : rest = []
        · simp [hr]
        · have hi : i.isTerminator = false := by simpa [hr] using hterm
          simp [List.dropLast_cons_of_ne_nil hr, hi]
      rw [hdrop, List.forall_mem_cons, ← hreg]
      split
      · next r hr => simp [hr]
      · next hr => simp [hr, ih]

private theorem exists_shape_iff :
    (∃ body t, B.Shape body t) ↔
      (∀ i ∈ B.code.dropLast, i.isTerminator = false) ∧ ∃ t, B.terminator? = some t := by
  constructor
  · rintro ⟨body, t, h⟩
    exact ⟨by simpa [h.code_eq] using h.plain, t, h.terminator?_eq⟩
  · rintro ⟨hplain, t, ht⟩
    have hcode := Block.code_eq_of_terminator? ht
    have hdrop : B.code.dropLast = B.body := by rw [hcode, List.dropLast_concat]
    exact ⟨B.body, t, hcode, Block.isTerminator_of_terminator? ht, hdrop ▸ hplain⟩

/-! ### Blocks -/

private theorem referenceFault?_eq_none_iff :
    f.referenceFault? b B = none ↔
      ∃ ts, f.successors b = .ok ts ∧ (∀ x ∈ ts, f.contains x = true) ∧
        ∀ h, B.handler = some h → f.contains h = true := by
  rw [referenceFault?]
  split
  · next fault hs => simp [hs]
  · next ts hs =>
    simp [hs, List.find?_eq_none]

private theorem blockFault?_eq_none_iff (hB : f.block? b = some B) :
    f.blockFault? b B = none ↔
      (∃ body t, B.Shape body t) ∧ (∀ i ∈ B.code, ∀ r ∈ i.registers, r < f.registerCount) ∧
        ∃ ts, f.successors b = .ok ts ∧ (∀ x ∈ ts, f.contains x = true) ∧
          ∀ h, B.handler = some h → f.contains h = true := by
  rw [blockFault?]
  constructor
  · intro h
    split at h
    · contradiction
    · rw [Option.or_eq_none_iff, codeFault?_eq_none_iff, referenceFault?_eq_none_iff] at h
      obtain ⟨⟨hplain, hreg⟩, ts, hts, href⟩ := h
      have hterm : ∃ t, B.terminator? = some t := by
        simp only [Func.successors, hB] at hts
        split at hts
        · contradiction
        · next t ht => exact ⟨t, ht⟩
      exact ⟨exists_shape_iff.mpr ⟨hplain, hterm⟩, hreg, ts, hts, href⟩
  · rintro ⟨hshape, hreg, href⟩
    have hne : B.code.isEmpty = false := by
      obtain ⟨body, t, h⟩ := hshape
      simp [h.code_eq]
    rw [hne, if_neg Bool.false_ne_true, Option.or_eq_none_iff, codeFault?_eq_none_iff,
      referenceFault?_eq_none_iff]
    exact ⟨⟨(exists_shape_iff.mp hshape).1, hreg⟩, href⟩

/-- Validation finds no fault exactly in the valid functions. -/
theorem WF.fault?_eq_none_iff (hw : f.WF) : f.fault? = none ↔ f.Valid := by
  have hblocks : f.fault? = none ↔
      f.layout ≠ [] ∧ ∀ b B, f.block? b = some B → f.blockFault? b B = none := by
    rw [fault?]
    split
    · next hempty => simp [List.isEmpty_iff.mp hempty]
    · next hne =>
      rw [List.isEmpty_iff] at hne
      rw [List.findSome?_eq_none_iff]
      constructor
      · intro h
        exact ⟨hne, fun b B hB ↦ h (b, B) (hw.mem_blocks.mpr hB)⟩
      · rintro ⟨_, h⟩ ⟨b, B⟩ hmem
        exact h b B (hw.mem_blocks.mp hmem)
  rw [hblocks]
  constructor
  · rintro ⟨hne, h⟩
    have hspec (b : BlockId) (B : Block) (hB : f.block? b = some B) :=
      (blockFault?_eq_none_iff hB).mp (h b B hB)
    refine ⟨⟨hw, hne, fun b B hB ↦ (hspec b B hB).1, ?_, ?_, ?_⟩, fun b B hB ↦ (hspec b B hB).2.1⟩
    · intro b hb
      obtain ⟨B, hB⟩ := contains_iff.mp hb
      obtain ⟨ts, hts, _⟩ := (hspec b B hB).2.2
      exact ⟨ts, hts⟩
    · rintro a b ⟨ts, hts, hb⟩
      obtain ⟨A, hA⟩ := contains_iff.mp (contains_of_leads ⟨ts, hts, hb⟩)
      obtain ⟨ts', hts', hlive, _⟩ := (hspec a A hA).2.2
      obtain rfl := Except.ok.inj (hts.symm.trans hts')
      exact hlive b hb
    · intro b B h hB hh
      obtain ⟨_, _, _, hhandler⟩ := (hspec b B hB).2.2
      exact hhandler h hh
  · intro h
    refine ⟨h.nonempty, fun b B hB ↦ (blockFault?_eq_none_iff hB).mpr ?_⟩
    obtain ⟨ts, hts⟩ := h.successors b (contains_of_block? hB)
    exact ⟨h.shape b B hB, h.registers b B hB, ts, hts, fun x hx ↦ h.leads b x ⟨ts, hts, hx⟩,
      fun x hx ↦ h.handler b B x hB hx⟩

end Func

end Bytecode
