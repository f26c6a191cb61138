import Bytecode.Func.Edit
import Mathlib.Data.List.Nodup
import Mathlib.Data.List.Perm.Subperm

/-!
# Layout and entry under edits

Every edit keeps the layout and the arena in step, and the entry moves only where a redirection
moves it. A block of the usual shape, plain instructions and one terminator, keeps that shape under
a redirection, and only the targets of the terminator change. Another order of the blocks is
accepted exactly if it is a permutation of the layout.
-/

namespace Bytecode

/-! ### Instructions and tables -/

namespace Instr

/-- A redirected instruction is a terminator if it was one. -/
theorem isTerminator_redirect (old new : BlockId) (i : Instr) :
    (i.redirect old new).isTerminator = i.isTerminator := by
  rw [isTerminator, isTerminator, redirect, opcode_mapTargets]

/-- A redirected instruction can throw if it could before. -/
theorem canThrow_redirect (old new : BlockId) (i : Instr) :
    (i.redirect old new).canThrow = i.canThrow := by
  rw [canThrow, canThrow, redirect, opcode_mapTargets]

/-- Only terminators name blocks. -/
theorem redirect_of_plain {i : Instr} (h : i.isTerminator = false) (old new : BlockId) :
    i.redirect old new = i := by
  cases i <;> first | rfl | simp [isTerminator, opcode, Opcode.traits] at h

/-- Only a return is redirected to a return. -/
theorem redirect_eq_ret_iff {old new : BlockId} {i : Instr} :
    i.redirect old new = .ret ↔ i = .ret := by
  cases i <;> simp [redirect, mapTargets]

/-- Only a raise is redirected to a raise. -/
theorem redirect_eq_raise_iff {old new : BlockId} {i : Instr} :
    i.redirect old new = .raise ↔ i = .raise := by
  cases i <;> simp [redirect, mapTargets]

private theorem redirect_of_not_mem {i : Instr} {old : BlockId} (h : old ∉ i.targets)
    (new : BlockId) : i.redirect old new = i := by
  cases i <;> simp_all [redirect, mapTargets, targets, retarget, eq_comm]

end Instr

/-- A redirected table has the retargeted target of each discriminant. -/
theorem JumpTable.get?_redirect (old new : BlockId) (table : JumpTable) (disc : Int64) :
    (table.redirect old new).get? disc = (table.get? disc).map (retarget old new) := by
  simp only [redirect, mapTargets, get?]
  induction table.entries with
  | nil => rfl
  | cons e rest ih =>
    obtain ⟨d, b⟩ := e
    simp only [List.map_cons, List.lookup_cons]
    split
    · rfl
    · exact ih

/-- A table that does not name the block stays as it is. -/
theorem JumpTable.redirect_of_not_mem {table : JumpTable} {old : BlockId} (h : old ∉ table.targets)
    (new : BlockId) : table.redirect old new = table := by
  obtain ⟨entries, ascending⟩ := table
  have hentry (e : Int64 × BlockId) (he : e ∈ entries) : (e.1, retarget old new e.2) = e := by
    have hne : e.2 ≠ old := fun heq ↦ h (List.mem_map.mpr ⟨e, he, heq⟩)
    rw [retarget, if_neg hne]
  simp only [redirect, mapTargets, mk.injEq]
  rw [List.map_congr_left hentry, List.map_id']

/-- The table of a redirected constant is the redirected table. -/
theorem Constant.table?_redirect (old new : BlockId) (c : Constant) :
    (c.redirect old new).table? = c.table?.map (JumpTable.redirect old new) := by
  cases c <;> rfl

/-! ### The shape of a block -/

/-- The block is plain instructions followed by a terminator. -/
structure Block.Shape (B : Block) (body : List Instr) (t : Instr) : Prop where
  code_eq : B.code = body ++ [t]
  terminates : t.isTerminator = true
  plain : ∀ i ∈ body, i.isTerminator = false

namespace Block

variable {B : Block} {body : List Instr} {t : Instr}

/-- A block of that shape ends in its terminator. -/
theorem Shape.terminator?_eq (h : B.Shape body t) : B.terminator? = some t := by
  simp [terminator?, h.code_eq, h.terminates]

/-- Before its terminator a block of that shape has its body. -/
theorem Shape.body_eq (h : B.Shape body t) : B.body = body := by
  simp [Block.body, h.terminator?_eq, h.code_eq]

/-- Only the last instruction is a terminator. -/
theorem Shape.isTerminator_iff {i : Instr} {n : Nat} (h : B.Shape body t)
    (hi : B.code[n]? = some i) : i.isTerminator = true ↔ n + 1 = B.code.length := by
  have hlen : B.code.length = body.length + 1 := by simp [h.code_eq]
  rw [h.code_eq, List.getElem?_append] at hi
  split at hi
  · next hlt =>
    have hplain := h.plain i (List.mem_of_getElem? hi)
    simp only [hplain, Bool.false_eq_true, false_iff]
    omega
  · next hge =>
    rw [List.getElem?_singleton] at hi
    split at hi
    · next hn =>
      cases hi
      simp only [h.terminates, true_iff]
      omega
    · contradiction

/-- Only the terminator of such a block is redirected. -/
theorem Shape.code_redirect (h : B.Shape body t) (old new : BlockId) :
    (B.redirect old new).code = body ++ [t.redirect old new] := by
  simp only [redirect, mapTerminator, h.terminator?_eq, h.body_eq]

/-- To redirect every instruction of such a block comes to the same. -/
theorem Shape.code_redirect_eq_map (h : B.Shape body t) (old new : BlockId) :
    (B.redirect old new).code = B.code.map (Instr.redirect old new) := by
  have hbody : body.map (Instr.redirect old new) = body :=
    (List.map_congr_left fun j hj ↦ Instr.redirect_of_plain (h.plain j hj) old new).trans
      (List.map_id body)
  rw [h.code_redirect, h.code_eq, List.map_append, hbody, List.map_singleton]

/-- A redirected block has the shape it had, with its terminator redirected. -/
theorem Shape.redirect (h : B.Shape body t) (old new : BlockId) :
    (B.redirect old new).Shape body (t.redirect old new) where
  code_eq := h.code_redirect old new
  terminates := by rw [Instr.isTerminator_redirect, h.terminates]
  plain := h.plain

/-- A redirection that no reference of the block is subject to leaves it alone. -/
theorem Shape.redirect_eq_self (h : B.Shape body t) {old : BlockId} (ht : old ∉ t.targets)
    (hh : B.handler ≠ some old) (new : BlockId) : B.redirect old new = B := by
  obtain ⟨code, handler, exported⟩ := B
  have hcode := h.code_redirect old new
  rw [Instr.redirect_of_not_mem ht, ← h.code_eq] at hcode
  have hhandler : handler.map (retarget old new) = handler := by
    cases handler with
    | none => rfl
    | some x =>
      have hx : x ≠ old := fun he ↦ hh (by rw [he])
      simp [retarget, hx]
  rw [Block.mk.injEq]
  exact ⟨hcode, hhandler, exported_redirect old new _⟩

end Block

namespace Func

variable {f g : Func} {b old new : BlockId} {B : Block}

/-! ### The blocks of a well-formed function -/

/-- A block is live exactly if it is found. -/
theorem contains_iff : f.contains b = true ↔ ∃ B, f.block? b = some B :=
  Option.isSome_iff_exists

/-- A block that is found is live. -/
theorem contains_of_block? (h : f.block? b = some B) : f.contains b = true :=
  contains_iff.mpr ⟨B, h⟩

/-- The listed blocks are those that are found, under their numbers. -/
theorem WF.mem_blocks (h : f.WF) : (b, B) ∈ f.blocks ↔ f.block? b = some B := by
  simp only [blocks, List.mem_filterMap, Option.map_eq_some_iff, Prod.mk.injEq, h.mem_layout]
  constructor
  · rintro ⟨x, _, B', hB, rfl, rfl⟩
    exact hB
  · intro hB
    exact ⟨b, contains_of_block? hB, B, hB, rfl, rfl⟩

/-- The blocks are listed in layout order. -/
theorem WF.map_fst_blocks (h : f.WF) : f.blocks.map Prod.fst = f.layout := by
  have hlive (l : List BlockId) (hl : ∀ x ∈ l, f.contains x = true) :
      (l.filterMap fun id ↦ (f.block? id).map (id, ·)).map Prod.fst = l := by
    induction l with
    | nil => rfl
    | cons x l ih =>
      obtain ⟨B, hB⟩ := contains_iff.mp (hl x (.head l))
      simp only [List.filterMap_cons, hB, Option.map_some, List.map_cons]
      rw [ih fun y hy ↦ hl y (.tail x hy)]
  exact hlive f.layout fun x hx ↦ (h.mem_layout x).mp hx

/-- A live block has a position in the layout. -/
theorem WF.exists_index (h : f.WF) (hb : f.contains b = true) : ∃ n : Nat, f.layout[n]? = some b :=
  List.mem_iff_getElem?.mp ((h.mem_layout b).mpr hb)

/-- A block has one position in the layout. -/
theorem WF.index_unique (h : f.WF) {m n : Nat} (hm : f.layout[m]? = some b)
    (hn : f.layout[n]? = some b) : m = n :=
  (List.getElem?_inj (List.getElem?_eq_some_iff.mp hm).1 h.nodup).mp (hm.trans hn.symm)

/-- What is selected from the blocks, under their handles, stands in layout order. -/
theorem WF.map_fst_filterMap_sublist {γ : Type} (h : f.WF)
    {k : BlockId × Block → Option (BlockId × γ)} (hk : ∀ b p, k b = some p → p.1 = b.1) :
    ((f.blocks.filterMap k).map Prod.fst).Sublist f.layout := by
  rw [← h.map_fst_blocks]
  induction f.blocks with
  | nil => exact .slnil
  | cons b l ih =>
    rw [List.filterMap_cons]
    split
    · exact .cons _ ih
    · next p hp =>
      rw [List.map_cons, List.map_cons, hk b p hp]
      exact .cons_cons _ ih

/-- The entry is live. -/
theorem WF.contains_entry (h : f.WF) (he : f.entry? = some b) : f.contains b = true :=
  (h.mem_layout b).mp (List.mem_of_head? he)

/-! ### Layout and arena in step -/

/-- The function without blocks is well formed. -/
theorem wf_empty (name : String) (argCount registerCount : Nat) :
    (empty name argCount registerCount).WF where
  nodup := List.nodup_nil
  mem_layout := by simp [empty, contains, block?]

/-- A constant more leaves a function well formed. -/
theorem WF.addConstant (h : f.WF) (c : Constant) : (f.addConstant c).WF :=
  ⟨h.nodup, h.mem_layout⟩

/-- An inserted block leaves a function well formed. -/
theorem WF.insertBlock (h : f.WF) (hg : f.insertBlock b B = .ok g) : g.WF := by
  have hblock := block?_insertBlock hg
  obtain ⟨hfree, hplace⟩ := insertBlock_eq_ok_iff.mp hg
  have hlayout : g.layout = f.layout ++ [b] := by
    rw [hplace]
    rfl
  have hnot : b ∉ f.layout := fun hb ↦ hfree ((h.mem_layout b).mp hb)
  constructor
  · rw [hlayout, ← List.concat_eq_append]
    exact h.nodup.concat hnot
  · intro x
    rw [hlayout, List.mem_append, List.mem_singleton, h.mem_layout, contains, contains, hblock]
    by_cases hx : x = b <;> simp [hx]

/-- Modifying a block keeps which blocks are live. -/
theorem contains_modifyBlock (k : Block → Block) (x : BlockId) :
    (f.modifyBlock b k).contains x = f.contains x := by
  rw [contains, contains, block?_modifyBlock]
  split <;> simp

/-- A modified block leaves a function well formed. -/
theorem WF.modifyBlock (h : f.WF) (b : BlockId) (k : Block → Block) : (f.modifyBlock b k).WF where
  nodup := h.nodup
  mem_layout x := by
    rw [contains_modifyBlock]
    exact h.mem_layout x

/-- A block is live after a removal exactly if it was and is another one. -/
theorem contains_removeBlock (x : BlockId) :
    (f.removeBlock b).contains x = true ↔ x ≠ b ∧ f.contains x = true := by
  rw [contains, contains, block?_removeBlock]
  by_cases hx : x = b <;> simp [hx]

/-- A removed block is gone from the layout, in which the others keep their order. -/
theorem WF.layout_removeBlock (h : f.WF) (b : BlockId) :
    (f.removeBlock b).layout = f.layout.filter (· != b) := by
  rw [removeBlock]
  split
  · rfl
  · next hc =>
    symm
    rw [List.filter_eq_self]
    intro x hx
    have hne : x ≠ b := by
      rintro rfl
      exact hc ((h.mem_layout x).mp hx)
    simpa using hne

/-- A removal leaves a function well formed. -/
theorem WF.removeBlock (h : f.WF) (b : BlockId) : (f.removeBlock b).WF where
  nodup := by
    rw [h.layout_removeBlock]
    exact h.nodup.filter _
  mem_layout x := by
    rw [contains_removeBlock, h.layout_removeBlock, List.mem_filter, h.mem_layout]
    simp [and_comm]

private theorem WF.makeEntry (h : f.WF) (b : BlockId) : (f.makeEntry b).WF := by
  by_cases hb : b ∈ f.layout
  · have hlayout : (f.makeEntry b).layout = b :: f.layout.erase b := by simp [Func.makeEntry, hb]
    constructor
    · rw [hlayout, List.nodup_cons]
      exact ⟨h.nodup.not_mem_erase, h.nodup.erase b⟩
    · intro x
      rw [hlayout, contains, block?_makeEntry, ← contains, ← h.mem_layout, List.mem_cons,
        h.nodup.mem_erase_iff]
      by_cases hx : x = b <;> simp [hx, hb]
  · rwa [Func.makeEntry, if_neg hb]

private theorem WF.redirectUses (h : f.WF) (old new : BlockId) : (f.redirectUses old new).WF where
  nodup := h.nodup
  mem_layout x := by
    rw [contains, block?_redirectUses, Option.isSome_map]
    exact h.mem_layout x

/-- A redirection leaves a function well formed. -/
theorem WF.redirect (h : f.WF) (old new : BlockId) : (f.redirect old new).WF := by
  rw [Func.redirect]
  split
  · exact (h.redirectUses old new).makeEntry new
  · exact h.redirectUses old new

/-! ### The entry -/

/-- Removing another block keeps the entry. -/
theorem WF.entry?_removeBlock (h : f.WF) {e : BlockId} (he : f.entry? = some e) (hne : e ≠ b) :
    Func.entry? (f.removeBlock b) = some e := by
  rw [ entry?, h.layout_removeBlock]
  rw [ entry?] at he
  cases hl : f.layout with
  | nil => simp [hl] at he
  | cons x rest =>
    rw [hl, List.head?_cons, Option.some.injEq] at he
    subst he
    simp [hne]

private theorem entry?_redirect_of_moves (h : f.WF) (hm : f.movesEntry old new = true) :
    Func.entry? (f.redirect old new) = some new := by
  have hmem : new ∈ f.layout := by
    simp only [movesEntry, Bool.and_eq_true] at hm
    exact (h.mem_layout new).mpr hm.2
  have hlayout : (f.redirectUses old new).layout = f.layout := rfl
  simp [Func.redirect, hm, Func.makeEntry, hlayout, hmem, entry?]

private theorem entry?_redirect_of_not_moves (hm : f.movesEntry old new = false) :
    Func.entry? (f.redirect old new) = f.entry? := by
  rw [Func.redirect, if_neg (by simp [hm])]
  rfl

/-- The entry after a redirection to a live block is the old one, redirected. -/
theorem WF.entry?_redirect (h : f.WF) {e : BlockId} (he : f.entry? = some e)
    (hnew : f.contains new = true) (old : BlockId) :
    Func.entry? (f.redirect old new) = some (retarget old new e) := by
  by_cases hm : f.movesEntry old new = true
  · have hold : e = old := by
      simp only [movesEntry, he, Bool.and_eq_true, decide_eq_true_eq] at hm
      simpa using hm.1.2
    rw [entry?_redirect_of_moves h hm, retarget, if_pos hold]
  · rw [entry?_redirect_of_not_moves (by simpa using hm), he]
    by_cases hold : e = old
    · -- Then the redirection is trivial.
      have hsame : old = new := by
        simpa [movesEntry, he, hold, hnew] using hm
      rw [hsame, retarget_self, id]
    · rw [retarget, if_neg hold]

/-! ### Name, registers and pool -/

/-- A redirection keeps the function's name. -/
theorem name_redirect (f : Func) (old new : BlockId) : (f.redirect old new).name = f.name := by
  rw [Func.redirect]
  split
  · rw [makeEntry]
    split <;> rfl
  · rfl

/-- A removal keeps the function's name. -/
theorem name_removeBlock (f : Func) (b : BlockId) : (f.removeBlock b).name = f.name := by
  rw [removeBlock]
  split <;> rfl

/-- A redirection keeps the number of registers. -/
theorem registerCount_redirect (f : Func) (old new : BlockId) :
    (f.redirect old new).registerCount = f.registerCount := by
  rw [Func.redirect]
  split
  · rw [makeEntry]
    split <;> rfl
  · rfl

/-- A removal keeps the number of registers. -/
theorem registerCount_removeBlock (f : Func) (b : BlockId) :
    (f.removeBlock b).registerCount = f.registerCount := by
  rw [removeBlock]
  split <;> rfl

/-- A redirection redirects every constant. -/
theorem constants_redirect (f : Func) (old new : BlockId) :
    (f.redirect old new).constants = f.constants.map (Constant.redirect old new) := by
  rw [Func.redirect]
  split
  · rw [makeEntry]
    split <;> rfl
  · rfl

/-- A redirection redirects every table. -/
theorem table?_redirect (f : Func) (old new : BlockId) (k : ConstIndex) :
    (f.redirect old new).table? k = (f.table? k).map (JumpTable.redirect old new) := by
  rw [table?, table?, constants_redirect, List.getElem?_map]
  cases f.constants[k]? with
  | none => rfl
  | some c => exact Constant.table?_redirect old new c

/-- A removal keeps the constants. -/
theorem constants_removeBlock (f : Func) (b : BlockId) :
    (f.removeBlock b).constants = f.constants := by
  rw [removeBlock]
  split <;> rfl

/-- A removal keeps the tables. -/
theorem table?_removeBlock (f : Func) (b : BlockId) (k : ConstIndex) :
    (f.removeBlock b).table? k = f.table? k := by
  rw [removeBlock]
  split <;> rfl

/-! ### Other orders -/

private theorem invalidEntry?_eq_none_iff {seen l : List BlockId} : f.invalidEntry? seen l = none ↔
    (∀ x ∈ l, f.contains x = true ∧ x ∉ seen) ∧ l.Nodup := by
  induction l generalizing seen with
  | nil => simp [ invalidEntry?]
  | cons y l ih =>
    rw [ invalidEntry?]
    split
    · next hy =>
      simp only [Bool.and_eq_true, Bool.not_eq_true', List.contains_eq_mem,
        decide_eq_false_iff_not] at hy
      rw [ih, List.forall_mem_cons, List.nodup_cons]
      constructor
      · rintro ⟨hall, hnodup⟩
        refine ⟨⟨hy, fun x hx ↦ ?_⟩, fun hmem ↦ ?_, hnodup⟩
        · exact ⟨(hall x hx).1, fun hseen ↦ (hall x hx).2 (List.mem_cons_of_mem y hseen)⟩
        · exact (hall y hmem).2 List.mem_cons_self
      · rintro ⟨⟨_, hall⟩, hnot, hnodup⟩
        refine ⟨fun x hx ↦ ⟨(hall x hx).1, fun hseen ↦ ?_⟩, hnodup⟩
        rcases List.mem_cons.mp hseen with rfl | hseen
        · exact hnot hx
        · exact (hall x hx).2 hseen
    · next hy =>
      simp only [Bool.and_eq_true, Bool.not_eq_true', List.contains_eq_mem,
        decide_eq_false_iff_not] at hy
      simp only [reduceCtorEq, List.forall_mem_cons, false_iff, not_and]
      intro hall
      exact absurd hall.1 hy

/-- Another order is accepted exactly if it is a permutation of the layout. -/
theorem WF.reorder_eq_ok_iff {l : List BlockId} (hw : f.WF) :
    f.reorder l = .ok g ↔ l.Perm f.layout ∧ g = { f with layout := l } := by
  have hvalid : f.invalidEntry? [] l = none ∧ l.length = f.layout.length ↔ l.Perm f.layout := by
    rw [ invalidEntry?_eq_none_iff]
    constructor
    · rintro ⟨⟨hall, hnodup⟩, hlength⟩
      have hsub : l ⊆ f.layout := fun x hx ↦ (hw.mem_layout x).mpr (hall x hx).1
      exact (hnodup.subperm hsub).perm_of_length_le (Nat.le_of_eq hlength.symm)
    · intro hperm
      refine ⟨⟨fun x hx ↦ ⟨?_, List.not_mem_nil⟩, hperm.nodup_iff.mpr hw.nodup⟩, hperm.length_eq⟩
      exact (hw.mem_layout x).mp (hperm.mem_iff.mp hx)
  rw [← hvalid, reorder, tryReorder]
  split
  · next b hb => simp [hb, Attempt.result]
  · next hnone =>
    split
    · next hlength => simp [hnone, hlength, Attempt.result, eq_comm]
    · next hlength => simp [hlength, Attempt.result]

/-- Another order of the blocks leaves a function well formed. -/
theorem WF.of_perm {l : List BlockId} (hw : f.WF) (h : l.Perm f.layout) :
    WF { f with layout := l } where
  nodup := h.nodup_iff.mpr hw.nodup
  mem_layout x := h.mem_iff.trans (hw.mem_layout x)

end Func

end Bytecode
