import Bytecode.Proofs.Func.Drafts
import Mathlib.Data.List.Induction

/-!
# What declarations amount to

Of several declarations of one handle the first counts, and the others leave no trace but the fault
of the first of them. Everything a draft holds can therefore be told from the list of its
declarations: `Draft.Holds` says how, and taking up one more declaration keeps it so.
-/

namespace Bytecode

/-- The constant, if one is declared. -/
def Declaration.constant? : Declaration → Option Constant
  | .constant c => some c
  | .block _ => none

/-- The declaration of a block, if it is one. -/
def Declaration.block? : Declaration → Option BlockDecl
  | .constant _ => none
  | .block decl => some decl

/-- The block as it is declared. -/
def BlockDecl.toBlock (decl : BlockDecl) : Block := { code := decl.code, handler := decl.handler }

/-- The declarations of blocks, in order. -/
def blockDecls (decls : List Declaration) : List BlockDecl := decls.filterMap Declaration.block?

/-- The handles of the declared blocks, in order. -/
def declaredIds (decls : List Declaration) : List BlockId := (blockDecls decls).map BlockDecl.id

/-- The declaration of a block that counts. -/
def firstDecl? (decls : List Declaration) (b : BlockId) : Option BlockDecl :=
  (blockDecls decls).find? (·.id = b)

/-- The handle is the first to be declared again. -/
def FirstRepeat (ids : List BlockId) (b : BlockId) : Prop :=
  ∃ before after, ids = before ++ b :: after ∧ before.Nodup ∧ b ∈ before

/-- The block is entered otherwise than by ordinary control flow: its declaration pins it, a
declared table names it, or it is the handler of a block. -/
def Exposes (decls : List Declaration) (b : BlockId) : Prop :=
  (∃ decl, firstDecl? decls b = some decl ∧ decl.pinned = true) ∨
    (∃ T disc, Declaration.constant (.table T) ∈ decls ∧ (disc, b) ∈ T.entries) ∨
      ∃ a decl, firstDecl? decls a = some decl ∧ decl.handler = some b

/-! ### One more declaration -/

section

variable {decls : List Declaration} {decl : BlockDecl} {b x : BlockId} {ids : List BlockId}

private theorem blockDecls_snoc (decls : List Declaration) (decl : BlockDecl) :
    blockDecls (decls ++ [.block decl]) = blockDecls decls ++ [decl] := by
  simp [blockDecls, Declaration.block?]

private theorem declaredIds_snoc (decls : List Declaration) (decl : BlockDecl) :
    declaredIds (decls ++ [.block decl]) = declaredIds decls ++ [decl.id] := by
  rw [declaredIds, blockDecls_snoc, List.map_append]
  rfl

private theorem firstDecl?_eq_none_iff : firstDecl? decls b = none ↔ b ∉ declaredIds decls := by
  simp [firstDecl?, declaredIds]

private theorem firstDecl?_snoc (decls : List Declaration) (decl : BlockDecl) (b : BlockId) :
    firstDecl? (decls ++ [.block decl]) b =
      (firstDecl? decls b).or (if decl.id = b then some decl else none) := by
  rw [firstDecl?, blockDecls_snoc, List.find?_append]
  by_cases h : decl.id = b <;> simp [firstDecl?, h]

/-- A declaration of a handle that has one already does not count. -/
theorem firstDecl?_snoc_of_mem (h : decl.id ∈ declaredIds decls) (b : BlockId) :
    firstDecl? (decls ++ [.block decl]) b = firstDecl? decls b := by
  rw [firstDecl?_snoc]
  cases hb : firstDecl? decls b with
  | none =>
    have hne : decl.id ≠ b := by
      rintro rfl
      exact firstDecl?_eq_none_iff.mp hb h
    rw [if_neg hne, Option.or_none]
  | some first => rfl

private theorem firstDecl?_snoc_of_notMem (h : decl.id ∉ declaredIds decls) (b : BlockId) :
    firstDecl? (decls ++ [.block decl]) b =
      if b = decl.id then some decl else firstDecl? decls b := by
  rw [firstDecl?_snoc]
  by_cases hb : b = decl.id
  · subst hb
    rw [firstDecl?_eq_none_iff.mpr h, Option.none_or, if_pos rfl]
  · rw [if_neg (Ne.symm hb), if_neg hb, Option.or_none]

/-- Of the occurrences of an element the first stays. -/
theorem eraseDups_snoc {α : Type} [DecidableEq α] (l : List α) (x : α) :
    (l ++ [x]).eraseDups = if x ∈ l then l.eraseDups else l.eraseDups ++ [x] := by
  rw [List.eraseDups_append]
  by_cases h : x ∈ l <;> simp [List.removeAll, h, List.eraseDups_cons]

/-- The last handle of a list is the first repeated one if it repeats a handle and nothing before
does. -/
theorem firstRepeat_snoc :
    FirstRepeat (ids ++ [x]) b ↔ FirstRepeat ids b ∨ (ids.Nodup ∧ x ∈ ids ∧ b = x) := by
  constructor
  · rintro ⟨before, after, heq, hnodup, hb⟩
    rcases List.eq_nil_or_concat after with rfl | ⟨after, y, rfl⟩
    · obtain ⟨rfl, hx⟩ := List.append_inj' heq rfl
      obtain rfl := List.singleton_inj.mp hx
      exact .inr ⟨hnodup, hb, rfl⟩
    · rw [List.concat_eq_append, ← List.cons_append, ← List.append_assoc] at heq
      exact .inl ⟨before, after, (List.append_inj' heq rfl).1, hnodup, hb⟩
  · rintro (⟨before, after, rfl, hnodup, hb⟩ | ⟨hnodup, hx, rfl⟩)
    · exact ⟨before, after ++ [x], by simp, hnodup, hb⟩
    · exact ⟨ids, [], rfl, hnodup, hx⟩

private theorem not_nodup_iff_firstRepeat : ¬ids.Nodup ↔ ∃ b, FirstRepeat ids b := by
  induction ids using List.reverseRecOn with
  | nil => simp [FirstRepeat]
  | append_singleton ids x ih =>
    simp only [firstRepeat_snoc, exists_or, ← ih, exists_and_left, exists_eq, and_true]
    rw [← List.concat_eq_append, List.nodup_concat]
    tauto

end

namespace Draft

variable {d : Draft} {decls : List Declaration} {decl : BlockDecl} {b : BlockId}

/-- The draft holds what the declarations say, the first of every handle only. -/
structure Holds (d : Draft) (decls : List Declaration) : Prop where
  constants : d.func.constants = decls.filterMap Declaration.constant?
  layout : d.func.layout = (declaredIds decls).eraseDups
  slots : d.func.arena.size = (declaredIds decls).foldl (fun size b ↦ max size (b + 1)) 0
  block : ∀ b, d.func.block? b = (firstDecl? decls b).map BlockDecl.toBlock
  pinned : ∀ b, b ∈ d.pinned ↔ ∃ decl, firstDecl? decls b = some decl ∧ decl.pinned = true
  fault : ∀ fault, d.fault = some fault ↔
    ∃ b, FirstRepeat (declaredIds decls) b ∧ fault = .duplicateBlock b

private theorem Holds.contains_iff (h : d.Holds decls) :
    d.func.contains b = true ↔ b ∈ declaredIds decls := by
  rw [Func.contains, h.block, Option.isSome_map, Option.isSome_iff_ne_none, ne_eq,
    firstDecl?_eq_none_iff, not_not]

private theorem Holds.fault_eq_none_iff (h : d.Holds decls) :
    d.fault = none ↔ (declaredIds decls).Nodup := by
  rw [← not_iff_not, not_nodup_iff_firstRepeat, ← ne_eq, Option.ne_none_iff_exists']
  constructor
  · rintro ⟨fault, hfault⟩
    obtain ⟨b, hb, _⟩ := (h.fault fault).mp hfault
    exact ⟨b, hb⟩
  · rintro ⟨b, hb⟩
    exact ⟨_, (h.fault _).mpr ⟨b, hb, rfl⟩⟩

/-- A constant is put at the end of the pool, and nothing else happens. -/
theorem Holds.declare_constant (h : d.Holds decls) (c : Constant) :
    (d.declare (.constant c)).Holds (decls ++ [.constant c]) := by
  have hblocks : blockDecls (decls ++ [.constant c]) = blockDecls decls := by
    simp [blockDecls, Declaration.block?]
  have hids : declaredIds (decls ++ [.constant c]) = declaredIds decls := by
    rw [declaredIds, hblocks, declaredIds]
  have hfirst (b : BlockId) : firstDecl? (decls ++ [.constant c]) b = firstDecl? decls b := by
    rw [firstDecl?, hblocks, firstDecl?]
  have hpool : (d.declare (.constant c)).func.constants = d.func.constants ++ [c] := rfl
  refine ⟨?_, hids ▸ h.layout, hids ▸ h.slots, fun b ↦ hfirst b ▸ h.block b,
    fun b ↦ hfirst b ▸ h.pinned b, hids ▸ h.fault⟩
  rw [hpool, h.constants, List.filterMap_append]
  rfl

private theorem constants_snoc_block (decls : List Declaration) (decl : BlockDecl) :
    (decls ++ [Declaration.block decl]).filterMap Declaration.constant? =
      decls.filterMap Declaration.constant? := by
  simp [Declaration.constant?]

private theorem Holds.declare_refused (h : d.Holds decls) (hmem : decl.id ∈ declaredIds decls) :
    (d.declare (.block decl)).Holds (decls ++ [.block decl]) := by
  have hlive := h.contains_iff.mpr hmem
  have hsize : decl.id < d.func.arena.size := by
    by_contra hge
    rw [Func.contains, Func.block?, Array.getElem?_eq_none (Nat.le_of_not_lt hge)] at hlive
    contradiction
  rw [declare_block_of_contains hlive]
  constructor
  · rw [constants_snoc_block]
    exact h.constants
  · rw [declaredIds_snoc, eraseDups_snoc, if_pos hmem]
    exact h.layout
  · rw [declaredIds_snoc, List.foldl_append, ← h.slots]
    exact (Nat.max_eq_left hsize).symm
  · intro b
    rw [firstDecl?_snoc_of_mem hmem]
    exact h.block b
  · intro b
    rw [firstDecl?_snoc_of_mem hmem]
    exact h.pinned b
  · intro fault
    simp only [declaredIds_snoc, firstRepeat_snoc]
    cases hfault : d.fault with
    | none =>
      have hnodup := h.fault_eq_none_iff.mp hfault
      have hnone (b : BlockId) : ¬FirstRepeat (declaredIds decls) b :=
        fun hb ↦ not_nodup_iff_firstRepeat.mpr ⟨b, hb⟩ hnodup
      simp [hnodup, hmem, hnone, eq_comm]
    | some first =>
      have hrepeats : ¬(declaredIds decls).Nodup := by
        rw [← h.fault_eq_none_iff, hfault]
        exact Option.some_ne_none first
      simp [hrepeats, ← h.fault, hfault]

/-- What placing a block does to the rest of the function. -/
theorem of_insertBlock {f g : Func} {B : Block} (h : f.insertBlock b B = .ok g) :
    (g.name = f.name ∧ g.argCount = f.argCount ∧ g.registerCount = f.registerCount) ∧
      g.constants = f.constants ∧ g.layout = f.layout ++ [b] ∧
      g.arena.size = max f.arena.size (b + 1) := by
  obtain ⟨_, rfl⟩ := Func.insertBlock_eq_ok_iff.mp h
  refine ⟨⟨rfl, rfl, rfl⟩, rfl, rfl, ?_⟩
  rw [Func.place, Array.size_setIfInBounds, Func.size_grow]

private theorem Holds.declare_placed (h : d.Holds decls) (hnew : decl.id ∉ declaredIds decls) :
    (d.declare (.block decl)).Holds (decls ++ [.block decl]) := by
  have hfree : ¬d.func.contains decl.id = true := mt h.contains_iff.mp hnew
  obtain ⟨func, hfunc⟩ : ∃ func, d.func.insertBlock decl.id
      { code := decl.code, handler := decl.handler } = .ok func :=
    ⟨_, Func.insertBlock_eq_ok_iff.mpr ⟨hfree, rfl⟩⟩
  obtain ⟨_, hpool, hlayout, hsize⟩ := of_insertBlock hfunc
  rw [declare_block_of_insertBlock hfunc]
  constructor
  · rw [constants_snoc_block, ← h.constants]
    exact hpool
  · rw [declaredIds_snoc, eraseDups_snoc, if_neg hnew, ← h.layout]
    exact hlayout
  · rw [declaredIds_snoc, List.foldl_append, ← h.slots]
    exact hsize
  · intro b
    rw [Func.block?_insertBlock hfunc, firstDecl?_snoc_of_notMem hnew, h.block]
    split <;> rfl
  · intro b
    rw [firstDecl?_snoc_of_notMem hnew]
    by_cases hb : b = decl.id
    · have hpin : b ∉ d.pinned := by
        rw [h.pinned, firstDecl?_eq_none_iff.mpr (hb ▸ hnew)]
        simp
      cases hp : decl.pinned <;> simp [hb, hp, hb ▸ hpin]
    · rw [if_neg hb, ← h.pinned]
      split <;> simp [hb]
  · intro fault
    simp only [declaredIds_snoc, firstRepeat_snoc, hnew, false_and, and_false, or_false]
    exact h.fault fault

/-- Whatever is declared next, the draft goes on to hold what was declared. -/
theorem Holds.declare (h : d.Holds decls) (decl : Declaration) :
    (d.declare decl).Holds (decls ++ [decl]) := by
  cases decl with
  | constant c => exact h.declare_constant c
  | block decl =>
    by_cases hmem : decl.id ∈ declaredIds decls
    · exact h.declare_refused hmem
    · exact h.declare_placed hmem

private theorem Holds.declareAll (h : d.Holds decls) (more : List Declaration) :
    (d.declareAll more).Holds (decls ++ more) := by
  induction more generalizing d decls with
  | nil => rwa [List.append_nil]
  | cons decl more ih =>
    rw [List.append_cons]
    exact ih (h.declare decl)

private theorem holds_start (name : String) (argCount registerCount : Nat) :
    (start name argCount registerCount).Holds [] := by
  constructor <;>
    simp [start, Func.empty, declaredIds, blockDecls, firstDecl?, FirstRepeat, Func.block?]

/-! ### The finished function -/

private theorem signature_declareAll (d : Draft) (decls : List Declaration) :
    (d.declareAll decls).func.name = d.func.name ∧
      (d.declareAll decls).func.argCount = d.func.argCount ∧
      (d.declareAll decls).func.registerCount = d.func.registerCount := by
  induction decls generalizing d with
  | nil => exact ⟨rfl, rfl, rfl⟩
  | cons decl decls ih =>
    have hone : (d.declare decl).func.name = d.func.name ∧
        (d.declare decl).func.argCount = d.func.argCount ∧
        (d.declare decl).func.registerCount = d.func.registerCount := by
      cases decl with
      | constant c => exact ⟨rfl, rfl, rfl⟩
      | block decl =>
        cases hfunc : d.func.insertBlock decl.id
            { code := decl.code, handler := decl.handler } with
        | ok func =>
          rw [declare_block_of_insertBlock hfunc]
          exact (of_insertBlock hfunc).1
        | error fault =>
          rw [declare_block_of_contains ((Func.insertBlock_eq_error_iff ..).mp hfunc).1]
          exact ⟨rfl, rfl, rfl⟩
    obtain ⟨hname, hargs, hregs⟩ := ih (d.declare decl)
    exact ⟨hname.trans hone.1, hargs.trans hone.2.1, hregs.trans hone.2.2⟩

/-- A draft exports what its declarations expose. -/
theorem Holds.exports_iff (h : d.Holds decls) (hw : d.func.WF) :
    d.exports b = true ↔ Exposes decls b := by
  have htables (T : JumpTable) : T ∈ d.func.tables ↔ Declaration.constant (.table T) ∈ decls := by
    simp only [Func.tables, h.constants, List.mem_filterMap]
    constructor
    · rintro ⟨c, ⟨decl, hdecl, hc⟩, hT⟩
      cases decl with
      | constant c' =>
        cases c' with
        | table T' => cases hc; cases hT; exact hdecl
        | _ => cases hc; cases hT
      | block decl => cases hc
    · intro hT
      exact ⟨.table T, ⟨_, hT, rfl⟩, rfl⟩
  have hhandler : d.func.blocks.any (fun x ↦ x.2.handler = some b) = true ↔
      ∃ a decl, firstDecl? decls a = some decl ∧ decl.handler = some b := by
    simp only [List.any_eq_true, Prod.exists, hw.mem_blocks, h.block, Option.map_eq_some_iff,
      decide_eq_true_eq]
    constructor
    · rintro ⟨a, _, ⟨decl, hdecl, rfl⟩, hh⟩
      exact ⟨a, decl, hdecl, hh⟩
    · rintro ⟨a, decl, hdecl, hh⟩
      exact ⟨a, _, ⟨decl, hdecl, rfl⟩, hh⟩
  have htargets (T : JumpTable) : b ∈ T.targets ↔ ∃ disc, (disc, b) ∈ T.entries := by
    simp [JumpTable.targets]
  simp only [exports, Bool.or_eq_true, hhandler, Exposes, or_assoc, List.contains_iff_mem,
    h.pinned, List.any_eq_true, htables, htargets, exists_and_left]

end Draft

/-- The function is what the declarations amount to: the blocks in the order of their first
declarations, as these say, and exported if they are exposed. -/
structure Func.Realises (f : Func) (decls : List Declaration) : Prop where
  constants : f.constants = decls.filterMap Declaration.constant?
  layout : f.layout = (declaredIds decls).eraseDups
  slots : f.arena.size = (declaredIds decls).foldl (fun size b ↦ max size (b + 1)) 0
  live : ∀ b, f.contains b = true ↔ b ∈ declaredIds decls
  block : ∀ b decl, firstDecl? decls b = some decl → ∃ B, f.block? b = some B ∧
    B.code = decl.code ∧ B.handler = decl.handler ∧ (B.exported = true ↔ Exposes decls b)

namespace Draft

variable {d : Draft} {decls : List Declaration}

private theorem Holds.realises (h : d.Holds decls) (hw : d.func.WF) : d.build.Realises decls where
  constants := h.constants
  layout := h.layout
  slots := by
    rw [← h.slots]
    exact Array.size_mapIdx
  live b := by
    rw [Func.contains, block?_build, Option.isSome_map, ← h.contains_iff, Func.contains]
  block b decl hdecl := by
    refine ⟨d.markExport b decl.toBlock, ?_, ?_⟩
    · rw [block?_build, h.block, hdecl]
      rfl
    · rw [← h.exports_iff hw, markExport]
      split
      · next hexports => exact ⟨rfl, rfl, iff_of_true rfl hexports⟩
      · next hexports => exact ⟨rfl, rfl, iff_of_false (by simp [BlockDecl.toBlock]) hexports⟩

/-- Whatever is declared, in whatever order and however often, the finished function is what the
first declarations of the handles amount to. It is refused, when that is asked for, exactly if a
handle was declared again, and the fault names the first handle that was. -/
theorem build_realises (name : String) (argCount registerCount : Nat) (decls : List Declaration) :
    let d := (start name argCount registerCount).declareAll decls
    (d.build.name = name ∧ d.build.argCount = argCount ∧ d.build.registerCount = registerCount) ∧
    d.build.Realises decls ∧
    ((declaredIds decls).Nodup → d.tryBuild = .ok d.build) ∧
    (¬(declaredIds decls).Nodup →
      ∃ b, FirstRepeat (declaredIds decls) b ∧ d.tryBuild = .error (.duplicateBlock b)) := by
  intro d
  have hd : d.Holds decls := (holds_start name argCount registerCount).declareAll decls
  have hw : d.func.WF := wf_start name argCount registerCount decls
  refine ⟨signature_declareAll _ decls, hd.realises hw, fun hnodup ↦ ?_, fun hrepeats ↦ ?_⟩
  · rw [tryBuild, hd.fault_eq_none_iff.mpr hnodup]
  · obtain ⟨b, hb⟩ := not_nodup_iff_firstRepeat.mp hrepeats
    exact ⟨b, hb, by rw [tryBuild, (hd.fault _).mpr ⟨b, hb, rfl⟩]⟩

end Draft

end Bytecode
