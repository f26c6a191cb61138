import Bytecode.Optimize.Settings
import Bytecode.Proofs.Behaviour.Chains
import Bytecode.Proofs.Behaviour.Handlers
import Bytecode.Proofs.Registers.LastWrites
import Mathlib.Data.List.Nodup
import Mathlib.Logic.Relation

/-!
# What the passes do to a function

Whatever the settings, the passes change a function by six kinds of edit only. `Edit` lists them
with what is known when each is made, and `Edits` is any number of them in a row. What every edit
keeps, the optimiser keeps: soundness, the pool, the exported blocks, and the origin of every
block.
-/

namespace Bytecode

namespace Func

variable {f g k : Func} {t T a b x y : BlockId} {B : Block} {l : List BlockId}

/-! ### Replacing a block -/

/-- The block is not exported and does nothing but jump. -/
def Forwards (f : Func) (a b : BlockId) : Prop :=
  ∃ B, f.block? a = some B ∧ B.exported = false ∧ B.code = [.jump b]

/-- A trampoline leads to its target. -/
theorem Forwards.leads (h : f.Forwards a b) : f.Leads a b := by
  obtain ⟨B, hB, _, hcode⟩ := h
  have hterm : B.terminator? = some (.jump b) := by
    rw [Block.terminator?, hcode]
    rfl
  exact (leads_jump_iff hB hterm).mpr rfl

/-- A trampoline is not exported. -/
theorem Forwards.unexported (h : f.Forwards a b) : ¬f.IsExported a := by
  rintro ⟨B, hB, hexp⟩
  obtain ⟨B', hB', hexp', _⟩ := h
  rw [hB, Option.some.injEq] at hB'
  rw [← hB', hexp] at hexp'
  contradiction

/-- A trampoline leads to its target only. -/
theorem Forwards.eq_of_leads (h : f.Forwards a b) (hx : f.Leads a x) : x = b := by
  obtain ⟨B, hB, _, hcode⟩ := h
  have hterm : B.terminator? = some (.jump b) := by
    rw [Block.terminator?, hcode]
    rfl
  exact (leads_jump_iff hB hterm).mp hx

private theorem contains_of_forwards (hf : f.Sound) (hlive : f.contains a = true)
    (h : Relation.ReflTransGen f.Forwards a b) : f.contains b = true := by
  induction h with
  | refl => exact hlive
  | tail _ hstep _ => exact hf.leads _ _ hstep.leads

/-- Another live block can stand for the block, which no handler and no table names. -/
structure Replaceable (f : Func) (t T : BlockId) : Prop where
  live : f.contains t = true
  unexported : ¬f.IsExported t
  target : f.contains T = true
  ne : T ≠ t

/-- A block from which jumps lead to another one can be replaced by it. -/
theorem replaceable_of_forwards (hf : f.Sound) (h : Relation.ReflTransGen f.Forwards t T)
    (hne : T ≠ t) : f.Replaceable t T := by
  rcases h.cases_head with rfl | ⟨y, hty, _⟩
  · contradiction
  · have hlive := contains_of_leads hty.leads
    exact ⟨hlive, hty.unexported, contains_of_forwards hf hlive h, hne⟩

/-- A block out of a closed set can be replaced by one in it. -/
theorem Closed.replaceable {P : BlockId → Prop} (hP : f.Closed P) (ha : P a) (hb : ¬P b)
    (hla : f.contains a = true) (hlb : f.contains b = true) : f.Replaceable b a where
  live := hlb
  unexported := fun hexp ↦ hb (hP.exported b hexp)
  target := hla
  ne := fun he ↦ hb (he ▸ ha)

namespace Replaceable

variable (h : f.Replaceable t T) (hf : f.Sound)

include h

/-- Bypassing a replaceable block keeps which blocks are exported. -/
theorem isExported_bypass_iff : (f.bypass t T).IsExported b ↔ f.IsExported b := by
  constructor
  · rintro ⟨B, hB, hexp⟩
    obtain ⟨_, B', hB', rfl⟩ := block?_bypass_eq_some_iff.mp hB
    exact ⟨B', hB', by simpa using hexp⟩
  · exact isExported_bypass h.unexported

include hf

/-- No handler names the block, so handlers stay, and only terminators change. -/
theorem block?_bypass_eq (b : BlockId) :
    (f.bypass t T).block? b =
      if b = t then none else (f.block? b).map (Block.mapCode (Instr.redirect t T)) := by
  rw [block?_bypass]
  split
  · rfl
  · cases hB : f.block? b with
    | none => rfl
    | some B =>
      obtain ⟨body, i, hshape⟩ := hf.shape b B hB
      have hhandler : B.handler.map (retarget t T) = B.handler := by
        cases hh : B.handler with
        | none => rfl
        | some x =>
          have hx : x ≠ t := by
            rintro rfl
            exact h.unexported (hf.handler_exported b B x hB hh)
          rw [Option.map_some, retarget, if_neg hx]
      have hcode := hshape.code_redirect_eq_map t T
      have hblock : B.redirect t T = B.mapCode (Instr.redirect t T) := by
        cases hr : B.redirect t T
        have hexp := Block.exported_redirect t T B
        have hh := Block.handler_redirect t T B
        rw [hr] at hcode hexp hh
        rw [Block.mapCode, Block.mk.injEq]
        exact ⟨hcode, hh.trans hhandler, hexp⟩
      rw [Option.map_some, Option.map_some, hblock]

/-- No table names the block, so the pool stays. -/
theorem constants_bypass : (f.bypass t T).constants = f.constants := by
  rw [bypass, constants_removeBlock, constants_redirect]
  rw [List.map_congr_left (g := id), List.map_id]
  intro c hc
  cases c with
  | table value =>
    obtain ⟨n, hn⟩ := List.mem_iff_getElem?.mp hc
    have htable : f.table? n = some value := by
      rw [table?, hn]
      rfl
    have hmem : t ∉ value.targets :=
      fun hmem ↦ h.unexported (hf.table_exported n value t htable hmem h.live)
    exact congrArg Constant.table (JumpTable.redirect_of_not_mem hmem T)
  | _ => rfl

/-- Bypassing a replaceable block leaves a sound function sound. -/
theorem sound_bypass : (f.bypass t T).Sound := hf.bypass h.target h.ne h.unexported h.live

end Replaceable

/-! ### Taking out several blocks -/

/-- Remove blocks one after the other. -/
def removeBlocks (f : Func) (l : List BlockId) : Func := l.foldl removeBlock f

/-- The blocks left by removals are the others, as they were. -/
theorem block?_removeBlocks (f : Func) (l : List BlockId) (x : BlockId) :
    (f.removeBlocks l).block? x = if x ∈ l then none else f.block? x := by
  induction l generalizing f with
  | nil => simp [removeBlocks]
  | cons b l ih =>
    show (((f.removeBlock b).removeBlocks l).block? x) = _
    rw [ih, block?_removeBlock]
    by_cases hb : x = b <;> by_cases hl : x ∈ l <;> simp [hb, hl]

/-- A block is live after removals exactly if it was and is not one of them. -/
theorem contains_removeBlocks :
    (f.removeBlocks l).contains x = true ↔ f.contains x = true ∧ x ∉ l := by
  rw [contains, contains, block?_removeBlocks]
  by_cases hx : x ∈ l <;> simp [hx]

/-- Removals keep the constants. -/
theorem constants_removeBlocks (f : Func) (l : List BlockId) :
    (f.removeBlocks l).constants = f.constants := by
  induction l generalizing f with
  | nil => rfl
  | cons b l ih => exact (ih (f.removeBlock b)).trans (constants_removeBlock f b)

private theorem WF.removeBlocks (h : f.WF) (l : List BlockId) : (f.removeBlocks l).WF := by
  induction l generalizing f with
  | nil => exact h
  | cons b l ih => exact ih (h.removeBlock b)

/-- Removed blocks are gone from the layout, in which the others keep their order. -/
theorem WF.layout_removeBlocks (h : f.WF) (l : List BlockId) :
    (f.removeBlocks l).layout = f.layout.filter fun x ↦ !l.contains x := by
  induction l generalizing f with
  | nil => simp [Func.removeBlocks]
  | cons b l ih =>
    show ((f.removeBlock b).removeBlocks l).layout = _
    rw [ih (h.removeBlock b), h.layout_removeBlock, List.filter_filter]
    apply List.filter_congr
    intro x _
    by_cases hx : x = b <;> simp [hx]

private theorem WF.entry?_removeBlocks (h : f.WF) {e : BlockId} (he : f.entry? = some e)
    (hel : e ∉ l) : Func.entry? (f.removeBlocks l) = some e := by
  induction l generalizing f with
  | nil => exact he
  | cons b l ih =>
    rw [List.mem_cons, not_or] at hel
    exact ih (h.removeBlock b) (h.entry?_removeBlock he hel.1) hel.2

/-- Removing blocks that are not live leaves the live ones as they were. -/
theorem Sound.agrees_removeBlocks (hf : f.Sound) (hl : ∀ b ∈ l, ¬f.Live b) :
    Agrees f.Live f (f.removeBlocks l) where
  block? b hb := by
    rw [block?_removeBlocks, if_neg fun hmem ↦ hl b hmem hb]
  table? i := by rw [table?, table?, constants_removeBlocks]
  entry_eq := by
    obtain ⟨e, he⟩ := hf.exists_entry
    rw [hf.wf.entry?_removeBlocks he fun hmem ↦ hl e hmem (.entry he), he]

/-- Removing blocks that are not live keeps which blocks are exported. -/
theorem Sound.isExported_removeBlocks (hl : ∀ b ∈ l, ¬f.Live b) :
    (f.removeBlocks l).IsExported x ↔ f.IsExported x := by
  have hblock (hx : x ∉ l) : (f.removeBlocks l).block? x = f.block? x := by
    rw [block?_removeBlocks, if_neg hx]
  constructor
  · rintro ⟨B, hB, hexp⟩
    rw [hblock (contains_removeBlocks.mp (contains_of_block? hB)).2] at hB
    exact ⟨B, hB, hexp⟩
  · intro hx
    obtain ⟨B, hB, hexp⟩ := hx
    exact ⟨B, by rw [hblock fun hmem ↦ hl x hmem (.exported ⟨B, hB, hexp⟩), hB], hexp⟩

/-- Functions that agree on the live blocks of one have the same live blocks. -/
theorem Agrees.live_iff (h : Agrees f.Live f g) (hexp : ∀ b, g.IsExported b ↔ f.IsExported b) :
    g.Live b ↔ f.Live b := by
  constructor
  · intro hb
    induction hb with
    | entry he => exact .entry (h.entry_eq ▸ he)
    | exported hb => exact .exported ((hexp _).mp hb)
    | leads _ hab ih => exact .leads ih ((h.leads_iff ih).mp hab)
  · intro hb
    induction hb with
    | entry he => exact .entry (h.entry_eq.trans he)
    | exported hb => exact .exported ((hexp _).mpr hb)
    | leads ha hab ih => exact .leads ih ((h.leads_iff ha).mpr hab)

/-- Removing exactly the blocks that are not live keeps the function sound. -/
theorem Sound.removeBlocks (hf : f.Sound)
    (hl : ∀ b, b ∈ l ↔ f.contains b = true ∧ ¬f.Live b) : (f.removeBlocks l).Sound := by
  have hdead : ∀ b ∈ l, ¬f.Live b := fun b hb ↦ ((hl b).mp hb).2
  have hagrees := hf.agrees_removeBlocks hdead
  have hlive {x : BlockId} (hx : (f.removeBlocks l).contains x = true) : f.Live x := by
    rw [contains_removeBlocks] at hx
    by_contra hnot
    exact hx.2 ((hl x).mpr ⟨hx.1, hnot⟩)
  have hthere {x : BlockId} (hx : f.Live x) : (f.removeBlocks l).contains x = true :=
    contains_removeBlocks.mpr ⟨hx.contains hf.intact, fun hmem ↦ hdead x hmem hx⟩
  have hleads {x y : BlockId} (hx : f.Live x) : (f.removeBlocks l).Leads x y ↔ f.Leads x y :=
    hagrees.leads_iff hx
  have hexported (b : BlockId) (B : Block) (h : BlockId)
      (hB : (f.removeBlocks l).block? b = some B) (hh : B.handler = some h) :
      (f.removeBlocks l).IsExported h := by
    rw [hagrees.block? b (hlive (contains_of_block? hB))] at hB
    exact (isExported_removeBlocks hdead).mpr (hf.handler_exported b B h hB hh)
  refine ⟨⟨hf.wf.removeBlocks l, ?_, ?_, ?_, ?_, ?_⟩, hexported, ?_⟩
  · obtain ⟨e, he⟩ := hf.exists_entry
    exact List.ne_nil_of_mem (((hf.wf.removeBlocks l).mem_layout e).mpr (hthere (.entry he)))
  · intro b B hB
    rw [hagrees.block? b (hlive (contains_of_block? hB))] at hB
    exact hf.shape b B hB
  · intro b hb
    obtain ⟨ts, hts⟩ := hf.successors b (contains_removeBlocks.mp hb).1
    obtain ⟨B, hB⟩ := contains_iff.mp hb
    have hB' := hB
    rw [hagrees.block? b (hlive hb)] at hB'
    obtain ⟨body, i, hshape⟩ := hf.shape b B hB'
    refine ⟨ts, ?_⟩
    rw [successors_of_shape hB hshape, ← hts, successors_of_shape hB' hshape]
    cases i <;> simp only [terminatorTargets, hagrees.table?]
  · intro a b hab
    have ha := hlive (contains_of_leads hab)
    exact hthere (.leads ha ((hleads ha).mp hab))
  · intro b B h hB hh
    exact (hexported b B h hB hh).contains
  · intro i table x htable hx hlive'
    rw [hagrees.table?] at htable
    exact (isExported_removeBlocks hdead).mpr
      (hf.table_exported i table x htable hx (contains_removeBlocks.mp hlive').1)

/-! ### Renaming registers -/

namespace Renames

variable {m : Register → Register} (h : Renames m f g)

include h

/-- A renamed function has every block with its registers renamed. -/
theorem block?_eq_some_iff : g.block? b = some B ↔
    ∃ B', f.block? b = some B' ∧ B = B'.mapCode (Instr.mapRegisters m m) := by
  rw [h.block?, Option.map_eq_some_iff]
  simp only [eq_comm]

/-- Renaming registers keeps which blocks are live. -/
theorem contains_eq (b : BlockId) : g.contains b = f.contains b := by
  rw [contains, contains, h.block?, Option.isSome_map]

/-- Renaming registers keeps the entry. -/
theorem entry?_eq : g.entry? = f.entry? := by
  rw [ entry?, entry?, h.layout]

private theorem table?_eq (i : ConstIndex) : g.table? i = f.table? i := by
  rw [table?, table?, h.constants]

/-- Renaming registers keeps where blocks lead. -/
theorem leads_iff : g.Leads a b ↔ f.Leads a b := by
  rw [Leads, Leads, h.successors]

/-- Renaming registers keeps which blocks are exported. -/
theorem isExported_iff : g.IsExported b ↔ f.IsExported b := by
  constructor
  · rintro ⟨B, hB, hexp⟩
    obtain ⟨B', hB', rfl⟩ := h.block?_eq_some_iff.mp hB
    exact ⟨B', hB', hexp⟩
  · rintro ⟨B, hB, hexp⟩
    exact ⟨_, h.block?_eq_some_iff.mpr ⟨B, hB, rfl⟩, hexp⟩

private theorem sound (hf : f.Sound) : g.Sound where
  wf := by
    refine ⟨h.layout ▸ hf.wf.nodup, fun b ↦ ?_⟩
    rw [h.contains_eq, h.layout]
    exact hf.wf.mem_layout b
  nonempty := h.layout ▸ hf.nonempty
  shape b B hB := by
    obtain ⟨B', hB', rfl⟩ := h.block?_eq_some_iff.mp hB
    obtain ⟨body, i, hshape⟩ := hf.shape b B' hB'
    refine ⟨body.map (Instr.mapRegisters m m), i.mapRegisters m m, ?_, ?_, ?_⟩
    · rw [Block.mapCode, hshape.code_eq, List.map_append, List.map_singleton]
    · rw [Instr.isTerminator_mapRegisters, hshape.terminates]
    · intro j hj
      obtain ⟨j', hj', rfl⟩ := List.mem_map.mp hj
      rw [Instr.isTerminator_mapRegisters, hshape.plain j' hj']
  successors b hb := by
    rw [h.contains_eq] at hb
    rw [h.successors]
    exact hf.successors b hb
  leads a b hab := by
    rw [h.contains_eq]
    exact hf.leads a b (h.leads_iff.mp hab)
  handler_exported b B x hB hx := by
    obtain ⟨B', hB', rfl⟩ := h.block?_eq_some_iff.mp hB
    exact h.isExported_iff.mpr (hf.handler_exported b B' x hB' hx)
  table_exported i table x htable hx hlive := by
    rw [h.table?_eq] at htable
    rw [h.contains_eq] at hlive
    exact h.isExported_iff.mpr (hf.table_exported i table x htable hx hlive)

end Renames

/-- Some instruction of the function names the register. -/
def Names (f : Func) (r : Register) : Prop :=
  ∃ b B i, f.block? b = some B ∧ i ∈ B.code ∧ r ∈ i.registers

/-! ### The kinds of edit -/

/-- One change that a pass makes to a function, with the blocks that it takes out. -/
inductive Edit (settings : Settings) (f : Func) : List BlockId → Func → Prop
  /-- Drop the handler of a block that cannot throw. -/
  | clear {b : BlockId} : settings.simplifyHandlers = true → f.CannotThrow b →
      Edit settings f [] (f.clearHandler b)
  /-- Let the end of a row of jumps stand for the start of it. -/
  | hop {t T : BlockId} : settings.mergeBlocks = true →
      Relation.ReflTransGen f.Forwards t T → T ≠ t → Edit settings f [t] (f.bypass t T)
  /-- Give the head of a chain the code of the whole chain. -/
  | inline {P : BlockId → Prop} {K : Merge.Chain} {code : List Instr} :
      settings.mergeBlocks = true → f.Closed P → Merge.Fusible f P K → K.code f = .ok code →
      Edit settings f [] (f.setCode K.head code)
  /-- Take out a block that is out of reach, and let another one stand for it. -/
  | cut {P : BlockId → Prop} {a b : BlockId} : settings.mergeBlocks = true → f.Closed P → P a →
      ¬P b → f.contains a = true → f.contains b = true → Edit settings f [b] (f.bypass b a)
  /-- Remove the blocks that are not live. -/
  | prune {l : List BlockId} : settings.placeBlocks = true →
      (∀ b, b ∈ l ↔ f.contains b = true ∧ ¬f.Live b) → l.Nodup →
      Edit settings f l (f.removeBlocks l)
  /-- Rename and count registers. -/
  | rename {m : Register → Register} {count : Nat} : settings.reduceRegisters = true →
      (∀ r, f.Names r → m r < count) → Edit settings f [] (Slots.rename m count f)

/-- Edits one after the other, with all blocks that they take out. -/
inductive Edits (settings : Settings) (f : Func) : List BlockId → Func → Prop
  | refl : Edits settings f [] f
  | tail {l l' : List BlockId} {g k : Func} : Edits settings f l g → Edit settings g l' k →
      Edits settings f (l ++ l') k

variable {settings : Settings} {l' : List BlockId}

/-- One edit is a sequence of edits. -/
theorem Edits.single (h : Edit settings f l g) : Edits settings f l g := .tail .refl h

/-- Edits can be followed by more, and take out what either sequence does. -/
theorem Edits.trans (h : Edits settings f l g) (h' : Edits settings g l' k) :
    Edits settings f (l ++ l') k := by
  induction h' with
  | refl => rwa [List.append_nil]
  | tail _ hstep ih =>
    rw [← List.append_assoc]
    exact .tail ih hstep

/-! ### Soundness -/

/-- The code of a fusible chain expands that of its head and ends as its last block does. -/
theorem fuses_of_code {P : BlockId → Prop} {K : Merge.Chain} {code : List Instr} (hf : f.Sound)
    (hK : Merge.Fusible f P K) (hcode : K.code f = .ok code) :
    ∃ h, f.Fuses h K.head K.last code := by
  rw [Merge.Chain.code] at hcode
  split at hcode
  · contradiction
  · exact ⟨_, fuses_fusedCode hf (hK.linked.imp fun _ _ hlink ↦ hlink.jumps) hcode⟩

/-- An edit leaves a sound function sound. -/
theorem Edit.sound (hf : f.Sound) (h : Edit settings f l g) : g.Sound := by
  cases h with
  | clear => exact hf.clearHandler _
  | hop _ hhops hne => exact (replaceable_of_forwards hf hhops hne).sound_bypass hf
  | inline _ _ hK hcode =>
    obtain ⟨h, hfuses⟩ := fuses_of_code hf hK hcode
    exact hfuses.sound_setCode hf
  | cut _ hP ha hb hla hlb => exact (hP.replaceable ha hb hla hlb).sound_bypass hf
  | prune _ hl _ => exact hf.removeBlocks hl
  | rename => exact (Slots.renames_rename _ _ f).sound hf

/-- Edits leave a sound function sound. -/
theorem Edits.sound (hf : f.Sound) (h : Edits settings f l g) : g.Sound := by
  induction h with
  | refl => exact hf
  | tail _ hstep ih => exact hstep.sound ih

/-! ### Which blocks go -/

/-- An edit takes out the blocks it names, and no others. -/
theorem Edit.contains_iff (h : Edit settings f l g) :
    g.contains x = true ↔ f.contains x = true ∧ x ∉ l := by
  cases h with
  | clear => simp [clearHandler, contains_modifyBlock]
  | hop | cut => rw [contains_bypass, and_comm, List.mem_singleton]
  | inline => simp [setCode, contains_modifyBlock]
  | prune => exact contains_removeBlocks
  | rename => simp [(Slots.renames_rename _ _ f).contains_eq]

private theorem Edit.removed (hf : f.Sound) (h : Edit settings f l g) :
    l.Nodup ∧ ∀ b ∈ l, f.contains b = true := by
  cases h with
  | hop _ hhops hne =>
    simpa using (replaceable_of_forwards hf hhops hne).live
  | cut _ _ _ _ _ hlb => simpa using hlb
  | prune _ hl hnodup => exact ⟨hnodup, fun b hb ↦ ((hl b).mp hb).1⟩
  | _ => simp

/-- Edits take out the blocks they name, and no others. -/
theorem Edits.contains_iff (h : Edits settings f l g) :
    g.contains x = true ↔ f.contains x = true ∧ x ∉ l := by
  induction h with
  | refl => simp
  | tail _ hstep ih =>
    rw [hstep.contains_iff, ih, List.mem_append, not_or, and_assoc]

/-- No block is taken out twice, and only blocks that were there are. -/
theorem Edits.removed (hf : f.Sound) (h : Edits settings f l g) :
    l.Nodup ∧ ∀ b ∈ l, f.contains b = true := by
  induction h with
  | refl => simp
  | @tail l l' g k hsteps hstep ih =>
    obtain ⟨hnodup, hlive⟩ := hstep.removed (hsteps.sound hf)
    have hlive' (b : BlockId) (hb : b ∈ l') := hsteps.contains_iff.mp (hlive b hb)
    constructor
    · rw [List.nodup_append]
      refine ⟨ih.1, hnodup, ?_⟩
      rintro a ha b hb rfl
      exact (hlive' a hb).2 ha
    · intro b hb
      rw [List.mem_append] at hb
      exact hb.elim (ih.2 b) fun hb ↦ (hlive' b hb).1

/-- The list of the removed blocks names a block once if it is gone, and not at all otherwise. -/
theorem Edits.count_removed (hf : f.Sound) (h : Edits settings f l g) (b : BlockId) :
    l.count b = if f.contains b && !g.contains b then 1 else 0 := by
  obtain ⟨hnodup, hlive⟩ := h.removed hf
  have hiff := h.contains_iff (x := b)
  by_cases hb : b ∈ l
  · have hg : g.contains b = false := by simpa [hb] using hiff
    rw [hnodup.count, if_pos hb, hlive b hb, hg]
    rfl
  · rw [hnodup.count, if_neg hb]
    cases hf' : f.contains b <;> simp_all

/-! ### Where blocks come from -/

/-- The second function has the pool and the exported blocks of the first, and no new blocks. A
block has the handler it had, or none if handlers may be dropped, and throws if it did before. -/
structure Descends (clears : Prop) (f g : Func) : Prop where
  constants : g.constants = f.constants
  exported : ∀ b, g.IsExported b ↔ f.IsExported b
  block? : ∀ b B, g.block? b = some B → ∃ B₀, f.block? b = some B₀ ∧
    (B.handler = B₀.handler ∨ clears ∧ B.handler = none) ∧
    (B₀.canThrow = true → B.canThrow = true)

private theorem Descends.refl (clears : Prop) (f : Func) : Descends clears f f :=
  ⟨rfl, fun _ ↦ Iff.rfl, fun _ B hB ↦ ⟨B, hB, .inl rfl, fun h ↦ h⟩⟩

private theorem Descends.trans {clears : Prop} (h : Descends clears f g)
    (h' : Descends clears g k) : Descends clears f k where
  constants := h'.constants.trans h.constants
  exported b := (h'.exported b).trans (h.exported b)
  block? b B hB := by
    obtain ⟨B₁, hB₁, hhandler₁, hthrow₁⟩ := h'.block? b B hB
    obtain ⟨B₀, hB₀, hhandler₀, hthrow₀⟩ := h.block? b B₁ hB₁
    refine ⟨B₀, hB₀, ?_, fun hthrow ↦ hthrow₁ (hthrow₀ hthrow)⟩
    cases hhandler₁ with
    | inr hnone => exact .inr hnone
    | inl heq =>
      rw [heq]
      exact hhandler₀

/-- A block can throw after a map of its code that keeps which instructions can. -/
theorem canThrow_mapCode {φ : Instr → Instr} (hφ : ∀ i, (φ i).canThrow = i.canThrow) (B : Block) :
    (B.mapCode φ).canThrow = B.canThrow := by
  rw [Block.canThrow, Block.canThrow, Block.mapCode, List.any_map]
  congr 1
  funext i
  exact hφ i

private theorem Replaceable.descends {clears : Prop} (h : f.Replaceable t T) (hf : f.Sound) :
    Descends clears f (f.bypass t T) where
  constants := h.constants_bypass hf
  exported _ := h.isExported_bypass_iff
  block? b B hB := by
    rw [h.block?_bypass_eq hf] at hB
    split at hB
    · contradiction
    · obtain ⟨B₀, hB₀, rfl⟩ := Option.map_eq_some_iff.mp hB
      have hthrow := canThrow_mapCode (Instr.canThrow_redirect t T) B₀
      exact ⟨B₀, hB₀, .inl rfl, fun h ↦ hthrow.trans h⟩

/-- Expanded code still has the instructions that may throw. -/
theorem Expands.any_canThrow {h : Option BlockId} {code code' : List Instr}
    (hexp : f.Expands h code code') (hthrow : code.any Instr.canThrow = true) :
    code'.any Instr.canThrow = true := by
  cases hexp with
  | refl => exact hthrow
  | inline =>
    rw [List.any_append] at hthrow ⊢
    rw [Bool.or_eq_true] at hthrow ⊢
    exact .inl (hthrow.resolve_right Bool.false_ne_true)

private theorem Fuses.descends {clears : Prop} {h : Option BlockId} {last : BlockId}
    {code : List Instr}
    (hcode : f.Fuses h a last code) : Descends clears f (f.setCode a code) where
  constants := rfl
  exported _ := isExported_setCode
  block? b B hB := by
    obtain ⟨B₀, hB₀, rfl⟩ := block?_setCode_eq_some_iff.mp hB
    refine ⟨B₀, hB₀, .inl rfl, fun hthrow ↦ ?_⟩
    by_cases hb : b = a
    · subst hb
      obtain ⟨A, hA, _, hexp⟩ := hcode.expands
      rw [hB₀, Option.some.injEq] at hA
      subst hA
      simpa [Block.canThrow] using hexp.any_canThrow hthrow
    · simpa [Block.canThrow, hb] using hthrow

/-- After an edit, pool, exports and blocks come from before. -/
theorem Edit.descends (hf : f.Sound) (h : Edit settings f l g) :
    Descends (settings.simplifyHandlers = true) f g := by
  cases h with
  | @clear b hasked _ =>
    refine ⟨rfl, fun x ↦ ⟨?_, isExported_clearHandler⟩, fun x B hB ↦ ?_⟩
    · rintro ⟨B, hB, hexp⟩
      obtain ⟨B₀, hB₀, rfl⟩ := block?_clearHandler_eq_some_iff.mp hB
      exact ⟨B₀, hB₀, hexp⟩
    · obtain ⟨B₀, hB₀, rfl⟩ := block?_clearHandler_eq_some_iff.mp hB
      refine ⟨B₀, hB₀, ?_, fun hthrow ↦ hthrow⟩
      by_cases hx : x = b
      · exact .inr ⟨hasked, by simp [hx]⟩
      · exact .inl (by simp [hx])
  | hop _ hhops hne => exact (replaceable_of_forwards hf hhops hne).descends hf
  | inline _ _ hK hcode =>
    obtain ⟨h, hfuses⟩ := fuses_of_code hf hK hcode
    exact hfuses.descends
  | cut _ hP ha hb hla hlb => exact (hP.replaceable ha hb hla hlb).descends hf
  | prune _ hl _ =>
    refine ⟨constants_removeBlocks f l, fun x ↦ ?_, fun b B hB ↦ ?_⟩
    · exact Sound.isExported_removeBlocks fun b hb ↦ ((hl b).mp hb).2
    · rw [block?_removeBlocks] at hB
      split at hB
      · contradiction
      · exact ⟨B, hB, .inl rfl, fun h ↦ h⟩
  | @rename m count =>
    have hrenames := Slots.renames_rename m count f
    refine ⟨rfl, fun x ↦ hrenames.isExported_iff, fun b B hB ↦ ?_⟩
    obtain ⟨B₀, hB₀, rfl⟩ := hrenames.block?_eq_some_iff.mp hB
    have hthrow := canThrow_mapCode (Instr.canThrow_mapRegisters m) B₀
    exact ⟨B₀, hB₀, .inl rfl, fun h ↦ hthrow.trans h⟩

/-- After edits, pool, exports and blocks come from before. -/
theorem Edits.descends (hf : f.Sound) (h : Edits settings f l g) :
    Descends (settings.simplifyHandlers = true) f g := by
  induction h with
  | refl => exact .refl _ f
  | tail hsteps hstep ih => exact ih.trans (hstep.descends (hsteps.sound hf))

end Func

end Bytecode
