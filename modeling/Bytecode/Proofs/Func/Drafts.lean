import Bytecode.Func.Draft
import Bytecode.Proofs.Func.Validity

/-!
# Functions built from declarations

A drafted function is well formed, and of its live blocks it exports at least those that a handler
or a table of the pool names. Validity and this discipline together are what the passes of the
optimiser rely on and keep; `Func.Sound` is their conjunction.
-/

namespace Bytecode

/-- The block is live and exported. -/
def Func.IsExported (f : Func) (b : BlockId) : Prop :=
  ∃ B, f.block? b = some B ∧ B.exported = true

/-- The function is the result of a sequence of declarations. -/
def Func.Drafted (f : Func) : Prop :=
  ∃ name argCount registerCount decls,
    f = ((Draft.start name argCount registerCount).declareAll decls).build

namespace Draft

variable {d : Draft}

private theorem wf_declareAll (hd : d.func.WF) (decls : List Declaration) :
    (d.declareAll decls).func.WF := by
  induction decls generalizing d with
  | nil => exact hd
  | cons decl rest ih =>
    apply ih
    cases decl with
    | constant c => exact hd.addConstant c
    | block decl =>
      cases hfunc : d.func.insertBlock decl.id { code := decl.code, handler := decl.handler } with
      | ok func =>
        rw [declare_block_of_insertBlock hfunc]
        exact hd.insertBlock hfunc
      | error fault =>
        rw [declare_block_of_contains ((Func.insertBlock_eq_error_iff ..).mp hfunc).1]
        exact hd

/-- Whatever is declared, a draft is well formed. -/
theorem wf_start (name : String) (argCount registerCount : Nat) (decls : List Declaration) :
    ((start name argCount registerCount).declareAll decls).func.WF :=
  wf_declareAll (d := start name argCount registerCount)
    (Func.wf_empty name argCount registerCount) decls

/-- Building a draft marks its exports and leaves the blocks otherwise. -/
theorem block?_build (d : Draft) (b : BlockId) :
    d.build.block? b = (d.func.block? b).map (d.markExport b) := by
  simp only [build, Func.block?, Array.getElem?_mapIdx]
  cases d.func.arena[b]? with
  | none => rfl
  | some slot => cases slot <;> rfl

private theorem handler_markExport (d : Draft) (b : BlockId) (B : Block) :
    (d.markExport b B).handler = B.handler := by
  rw [markExport]
  split <;> rfl

private theorem wf_build (hd : d.func.WF) : d.build.WF where
  nodup := hd.nodup
  mem_layout b := by
    rw [Func.contains, block?_build, Option.isSome_map]
    exact hd.mem_layout b

private theorem isExported_build {b : BlockId} (hb : d.build.contains b = true)
    (he : d.exports b = true) : d.build.IsExported b := by
  obtain ⟨B, hB⟩ := Func.contains_iff.mp hb
  refine ⟨B, hB, ?_⟩
  rw [block?_build, Option.map_eq_some_iff] at hB
  obtain ⟨B', _, rfl⟩ := hB
  rw [markExport, if_pos he]

private theorem exports_of_handler (hd : d.func.WF) {b h : BlockId} {B : Block}
    (hB : d.build.block? b = some B) (hh : B.handler = some h) : d.exports h = true := by
  rw [block?_build, Option.map_eq_some_iff] at hB
  obtain ⟨B', hB', rfl⟩ := hB
  rw [handler_markExport] at hh
  have hmem := hd.mem_blocks.mpr hB'
  simp only [exports, Bool.or_eq_true]
  exact .inr (List.any_eq_true.mpr ⟨_, hmem, by simpa using hh⟩)

private theorem exports_of_table {k : ConstIndex} {T : JumpTable} {x : BlockId}
    (hT : d.build.table? k = some T) (hx : x ∈ T.targets) : d.exports x = true := by
  have hmem : T ∈ d.func.tables := by
    obtain ⟨c, hc, hcT⟩ := Option.bind_eq_some_iff.mp hT
    exact List.mem_filterMap.mpr ⟨c, List.mem_of_getElem? hc, hcT⟩
  simp only [exports, Bool.or_eq_true]
  exact .inl (.inr (List.any_eq_true.mpr ⟨T, hmem, by simpa using hx⟩))

end Draft

namespace Func

variable {f : Func}

/-- An exported block is live. -/
theorem IsExported.contains {b : BlockId} (h : f.IsExported b) : f.contains b = true := by
  obtain ⟨B, hB, _⟩ := h
  exact contains_of_block? hB

/-- What the passes rely on: the function is intact, and the blocks that are entered otherwise than
by a terminator are exported. -/
structure Sound (f : Func) : Prop extends intact : Intact f where
  handler_exported : ∀ b B h, f.block? b = some B → B.handler = some h → f.IsExported h
  table_exported : ∀ k T x, f.table? k = some T → x ∈ T.targets → f.contains x = true →
    f.IsExported x
  handler := fun b B h hB hh ↦ (handler_exported b B h hB hh).contains

/-- What can be drafted is well formed. -/
theorem Drafted.wf (h : f.Drafted) : f.WF := by
  obtain ⟨name, argCount, registerCount, decls, rfl⟩ := h
  exact Draft.wf_build (Draft.wf_start name argCount registerCount decls)

/-- A drafted function that passes validation is sound. -/
theorem Drafted.sound (h : f.Drafted) (hv : f.fault? = none) : f.Sound := by
  have hvalid := h.wf.fault?_eq_none_iff.mp hv
  obtain ⟨name, argCount, registerCount, decls, rfl⟩ := h
  have hd := Draft.wf_start name argCount registerCount decls
  refine ⟨hvalid.intact, ?_, ?_⟩
  · intro b B h hB hh
    exact Draft.isExported_build (hvalid.handler b B h hB hh) (Draft.exports_of_handler hd hB hh)
  · intro k T x hT hx hlive
    exact Draft.isExported_build hlive (Draft.exports_of_table hT hx)

end Func

end Bytecode
