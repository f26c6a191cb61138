import Bytecode.Proofs.Optimize.Survivors

/-!
# Functions and their histories

Blocks are added, removed and changed, the layout is put in another order, and passes run, in any
order and on any function. All the while the layout lists the live blocks once each, so that
another order is accepted exactly if it is a permutation of the layout; and a handle goes on to
name its block until the block is removed.
-/

namespace Bytecode

/-- Something that can be done to a function. -/
inductive Operation where
  | addConstant (c : Constant)
  | addBlock (B : Block)
  | insertBlock (b : BlockId) (B : Block)
  | removeBlock (b : BlockId)
  | reorder (layout : List BlockId)
  | redirect (old new : BlockId)
  | modifyBlock (b : BlockId) (φ : Block → Block)
  | pass (p : Pass) (settings : Settings)

namespace Operation

/-- Do it. An edit that is refused and a pass that fails leave what they have done so far. -/
def apply (f : Func) : Operation → Func
  | addConstant c => f.addConstant c
  | addBlock B => f.addBlock B
  | insertBlock b B => (f.tryInsertBlock b B).func
  | removeBlock b => f.removeBlock b
  | reorder layout => (f.tryReorder layout).func
  | redirect old new => f.redirect old new
  | modifyBlock b φ => f.modifyBlock b φ
  | pass p settings => (p.run settings f).func

/-- Do some things in a row. -/
def applyAll (f : Func) (ops : List Operation) : Func := ops.foldl apply f

/-- The blocks that it removes: for a pass, those that its events report. -/
def removed (f : Func) : Operation → List BlockId
  | removeBlock b => [b]
  | pass p settings => (p.run settings f).events.flatMap Event.removes
  | _ => []

/-- What it makes of block `b` if it does not remove it; `ρ` tells what a pass does to all
blocks. -/
def Keeps (f : Func) (ρ : Renaming) (b : BlockId) (B B' : Block) : Operation → Prop
  | redirect old new => B' = B.redirect old new
  | modifyBlock a φ => B' = if b = a then φ B else B
  | pass p settings => p.Keeps f ((pass p settings).removed f) ρ b B B'
  | _ => B' = B

/-- None of the things removes the block. -/
def Spare (b : BlockId) : Func → List Operation → Prop
  | _, [] => True
  | f, op :: ops => b ∉ op.removed f ∧ Spare b (op.apply f) ops

instance decidableSpare (b : BlockId) : (f : Func) → (ops : List Operation) →
    Decidable (Spare b f ops)
  | _, [] => isTrue trivial
  | f, op :: ops =>
    have := decidableSpare b (op.apply f) ops
    inferInstanceAs (Decidable (b ∉ op.removed f ∧ Spare b (op.apply f) ops))

/-- What the things in a row, each with its renaming, make of a block that none of them removes. -/
def Becomes (b : BlockId) : Func → List Renaming → Block → Block → List Operation → Prop
  | _, _, B, B', [] => B' = B
  | _, [], _, _, _ :: _ => False
  | f, ρ :: ρs, B, B'', op :: ops =>
    ∃ B', op.Keeps f ρ b B B' ∧ Becomes b (op.apply f) ρs B' B'' ops

end Operation

namespace Func

variable {f g : Func} {b : BlockId} {B : Block} {l : List BlockId}

/-- The function came about from an empty or a drafted one. -/
inductive Evolved : Func → Prop
  | empty (name : String) (argCount registerCount : Nat) :
      Evolved (Func.empty name argCount registerCount)
  | drafted {f : Func} : f.Drafted → Evolved f
  | apply {f : Func} (op : Operation) : Evolved f → Evolved (op.apply f)

/-! ### One operation -/

private theorem not_contains_size (f : Func) : ¬f.contains f.arena.size = true := by
  simp [contains, block?]

private theorem WF.addBlock (hw : f.WF) (B : Block) : (f.addBlock B).WF := by
  have hfresh : f.arena.size ∉ f.layout := mt (hw.mem_layout _).mp f.not_contains_size
  have hlayout : (f.addBlock B).layout = f.layout ++ [f.arena.size] := rfl
  constructor
  · rw [hlayout, List.nodup_append]
    refine ⟨hw.nodup, List.nodup_singleton _, fun x hx y hy ↦ ?_⟩
    rintro rfl
    exact hfresh (List.mem_singleton.mp hy ▸ hx)
  · intro x
    rw [hlayout, List.mem_append, List.mem_singleton, hw.mem_layout, contains, contains,
      block?_addBlock]
    by_cases hx : x = f.arena.size <;> simp [hx]

/-- An order that is no permutation of the layout changes nothing. -/
theorem WF.apply_reorder (hw : f.WF) (l : List BlockId) :
    (Operation.reorder l).apply f = if l.Perm f.layout then { f with layout := l } else f := by
  rw [Operation.apply]
  by_cases hperm : l.Perm f.layout
  · rw [if_pos hperm]
    exact Attempt.func_eq_of_result (hw.reorder_eq_ok_iff.mpr ⟨hperm, rfl⟩)
  · rw [if_neg hperm]
    cases hg : f.reorder l with
    | ok g => exact absurd (hw.reorder_eq_ok_iff.mp hg).1 hperm
    | error fault => exact func_tryReorder_of_error hg

private theorem WF.apply (hw : f.WF) (op : Operation) : (op.apply f).WF := by
  cases op with
  | addConstant c => exact hw.addConstant c
  | addBlock B => exact hw.addBlock B
  | insertBlock b B =>
    rw [Operation.apply]
    cases hg : f.insertBlock b B with
    | ok g => exact Attempt.func_eq_of_result hg ▸ hw.insertBlock hg
    | error fault => exact (func_tryInsertBlock_of_error hg).symm ▸ hw
  | removeBlock b => exact hw.removeBlock b
  | reorder layout =>
    rw [hw.apply_reorder]
    split
    · next hperm => exact hw.of_perm hperm
    · exact hw
  | redirect old new => exact hw.redirect old new
  | modifyBlock b φ => exact hw.modifyBlock b φ
  | pass p settings => exact (p.spares_run hw).wf

private theorem Evolved.wf (h : f.Evolved) : f.WF := by
  induction h with
  | empty name argCount registerCount => exact wf_empty name argCount registerCount
  | drafted h => exact h.wf
  | apply op _ ih => exact ih.apply op

-- An edit of one function that is no pass treats each block by itself.
private theorem keeps_edit {op : Operation} (hedit : ∀ p settings, op ≠ .pass p settings)
    (hw : f.WF) (ρ : Renaming) (hB : f.block? b = some B) (hb : b ∉ op.removed f) :
    ∃ B', (op.apply f).block? b = some B' ∧ op.Keeps f ρ b B B' := by
  have hlive := contains_of_block? hB
  cases op with
  | addConstant c => exact ⟨B, hB, rfl⟩
  | addBlock B₁ =>
    have hne : b ≠ f.arena.size := by
      rintro rfl
      exact f.not_contains_size hlive
    exact ⟨B, by rw [Operation.apply, block?_addBlock, if_neg hne, hB], rfl⟩
  | insertBlock a B₁ =>
    rw [Operation.apply]
    cases hg : f.insertBlock a B₁ with
    | ok g =>
      have hne : b ≠ a := by
        rintro rfl
        exact (insertBlock_eq_ok_iff.mp hg).1 hlive
      exact ⟨B, by rw [Attempt.func_eq_of_result hg, block?_insertBlock hg, if_neg hne, hB], rfl⟩
    | error fault => exact ⟨B, by rw [func_tryInsertBlock_of_error hg, hB], rfl⟩
  | removeBlock a =>
    have hne : b ≠ a := by simpa [Operation.removed] using hb
    exact ⟨B, by rw [Operation.apply, block?_removeBlock, if_neg hne, hB], rfl⟩
  | reorder layout =>
    refine ⟨B, ?_, rfl⟩
    rw [hw.apply_reorder]
    split <;> exact hB
  | redirect old new =>
    exact ⟨B.redirect old new, by rw [Operation.apply, block?_redirect, hB, Option.map_some], rfl⟩
  | modifyBlock a φ =>
    refine ⟨if b = a then φ B else B, ?_, rfl⟩
    rw [Operation.apply, block?_modifyBlock, hB]
    split <;> rfl
  | pass p settings => exact absurd rfl (hedit p settings)

/-- A handle goes on to name its block, and what a pass does to its block it does to all. -/
theorem WF.keeps_apply (hw : f.WF) (op : Operation) :
    ∃ ρ : Renaming, ∀ b B, f.block? b = some B → b ∉ op.removed f →
      ∃ B', (op.apply f).block? b = some B' ∧ op.Keeps f ρ b B B' := by
  cases op with
  | pass p settings => exact (p.spares_run hw).exists_renaming
  | _ => exact ⟨{}, fun b B hB hb ↦ keeps_edit (by simp) hw {} hB hb⟩

/-- The blocks that are no longer live are those that were removed. -/
theorem WF.contains_apply_iff (hw : f.WF) (op : Operation) (hb : f.contains b = true) :
    (op.apply f).contains b = true ↔ b ∉ op.removed f := by
  constructor
  · intro hlive
    cases op with
    | removeBlock a => simpa [Operation.removed] using (contains_removeBlock b).mp hlive |>.1
    | pass p settings => exact (((p.spares_run hw).contains_iff b).mp hlive).2
    | _ => exact List.not_mem_nil
  · intro hspared
    obtain ⟨B, hB⟩ := contains_iff.mp hb
    obtain ⟨_, hkeeps⟩ := hw.keeps_apply op
    obtain ⟨B', hB', _⟩ := hkeeps b B hB hspared
    exact contains_of_block? hB'

/-! ### Histories -/

private theorem WF.keeps_applyAll (hw : f.WF) (ops : List Operation) :
    ∃ ρs : List Renaming, ∀ b B, f.block? b = some B → Operation.Spare b f ops →
      ∃ B', (Operation.applyAll f ops).block? b = some B' ∧
        Operation.Becomes b f ρs B B' ops := by
  induction ops generalizing f with
  | nil => exact ⟨[], fun b B hB _ ↦ ⟨B, hB, rfl⟩⟩
  | cons op ops ih =>
    obtain ⟨ρ, hfirst⟩ := hw.keeps_apply op
    obtain ⟨ρs, hrest⟩ := ih (hw.apply op)
    refine ⟨ρ :: ρs, fun b B hB hb ↦ ?_⟩
    obtain ⟨B', hB', hkeeps⟩ := hfirst b B hB hb.1
    obtain ⟨B'', hB'', hbecomes⟩ := hrest b B' hB' hb.2
    exact ⟨B'', hB'', B', hkeeps, hbecomes⟩

private theorem apply_insertBlock_of_contains (hb : f.contains b = true) :
    f.insertBlock b B = .error (.duplicateBlock b) ∧
      (Operation.insertBlock b B).apply f = f := by
  have hrefused := (insertBlock_eq_error_iff f b B _).mpr ⟨hb, rfl⟩
  exact ⟨hrefused, func_tryInsertBlock_of_error hrefused⟩

/-- Whatever was done to a function, its layout lists the live blocks once each. Whatever is done
further, only blocks that are removed go, and the handles of the others go on to name them. Another
order is accepted exactly if it is a permutation of the layout, and what is refused leaves the
function, or the draft of one, as it was. -/
theorem Evolved.layout_in_step (h : f.Evolved) :
    (f.layout.Nodup ∧ ∀ b, b ∈ f.layout ↔ ∃ B, f.block? b = some B) ∧
    (∀ (op : Operation) b, f.contains b = true →
      ((op.apply f).contains b = true ↔ b ∉ op.removed f)) ∧
    (∀ ops, ∃ ρs : List Renaming, ∀ b B, f.block? b = some B → Operation.Spare b f ops →
      ∃ B', (Operation.applyAll f ops).block? b = some B' ∧
        Operation.Becomes b f ρs B B' ops) ∧
    (∀ l, ((∃ g, f.reorder l = .ok g) ↔ l.Perm f.layout) ∧
      (Operation.reorder l).apply f = if l.Perm f.layout then { f with layout := l } else f) ∧
    (∀ b B, f.contains b = true → f.insertBlock b B = .error (.duplicateBlock b) ∧
      (Operation.insertBlock b B).apply f = f) ∧
    ∀ (d : Draft) (decl : BlockDecl), d.func = f → f.contains decl.id = true →
      d.declare (.block decl) =
        { d with fault := d.fault.or (some (.duplicateBlock decl.id)) } := by
  have hw := h.wf
  refine ⟨⟨hw.nodup, fun b ↦ (hw.mem_layout b).trans contains_iff⟩, ?_, ?_, ?_, ?_, ?_⟩
  · intro op b hb
    exact hw.contains_apply_iff op hb
  · exact hw.keeps_applyAll
  · intro l
    exact ⟨by simp [hw.reorder_eq_ok_iff], hw.apply_reorder l⟩
  · intro b B hb
    exact apply_insertBlock_of_contains hb
  · rintro d decl rfl hb
    exact Draft.declare_block_of_contains hb

/-- Two blocks, with slots between them that were never used. -/
def patched : Func :=
  ((Draft.start "patched" 0 0).declareAll
    [.block { id := 0, code := [.push .null, .jump 4] },
      .block { id := 4, code := [.ret] }]).build

/-- A block is added and one put in between; two things are refused; then the entry is sent to the
new block, takes it in, and the added block is found to be a trampoline. -/
def patches : List Operation :=
  [.addBlock { code := [.jump 0] }, .insertBlock 4 { code := [] },
    .insertBlock 2 { code := [.pop, .push .undefined, .ret] }, .reorder [0, 5, 4],
    .reorder [0, 4, 5, 2], .redirect 4 2, .removeBlock 4, .pass .merge {}]

/-- Through all of `patches`, the two that are refused included, the layout of `patched` stays in
step, and its entry becomes what the renamings say. -/
theorem patched_in_step :
    patched.Evolved ∧ patched.layout = [0, 4] ∧
      (∃ ρs B', (Operation.applyAll patched patches).block? 0 = some B' ∧
        Operation.Becomes 0 patched ρs { code := [.push .null, .jump 4] } B' patches) ∧
      (Operation.applyAll patched patches).block? 0 =
        some { code := [.push .null, .pop, .push .undefined, .ret] } ∧
      (Operation.applyAll patched patches).layout = [0] ∧
      (∃ g, patched.reorder [4, 0] = .ok g) ∧ (¬∃ g, patched.reorder [4, 4] = .ok g) ∧
      (Operation.insertBlock 4 { code := [] }).apply patched = patched := by
  have hevolved : patched.Evolved := .drafted ⟨_, _, _, _, rfl⟩
  have hentry : patched.block? 0 = some { code := [.push .null, .jump 4] } := by decide +kernel
  have hspared : Operation.Spare 0 patched patches := by decide +kernel
  obtain ⟨_, _, hkeeps, horder, hrefuses, _⟩ := hevolved.layout_in_step
  obtain ⟨ρs, hbecomes⟩ := hkeeps patches
  refine ⟨hevolved, rfl, ⟨ρs, hbecomes 0 _ hentry hspared⟩, by decide +kernel, by decide +kernel,
    (horder [4, 0]).1.mpr (by decide), fun hok ↦ ?_, (hrefuses 4 _ (by decide +kernel)).2⟩
  exact absurd ((horder [4, 4]).1.mp hok) (by decide)

end Func

end Bytecode
