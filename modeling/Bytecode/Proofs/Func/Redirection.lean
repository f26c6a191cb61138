import Bytecode.Proofs.Func.Drafts

/-!
# Replacing a block by another

A function refers to blocks in terminators, handlers and the tables of its pool, whether or not an
instruction uses these. A redirection applies to all references, so nothing refers to the replaced
block afterwards, and a block that nothing refers to can be removed.
-/

namespace Bytecode

private theorem retarget_ne {old new : BlockId} (hne : old ≠ new) (b : BlockId) :
    retarget old new b ≠ old := by
  rw [retarget]
  split
  · exact hne.symm
  · assumption

namespace Func

variable {f : Func} {a b old new x : BlockId} {B : Block}

/-! ### References -/

/-- Some instruction, handler or table names the block. -/
inductive Refers (f : Func) (x : BlockId) : Prop
  | code {b : BlockId} {B : Block} {i : Instr} : f.block? b = some B → i ∈ B.code →
      x ∈ i.targets → Refers f x
  | handler {b : BlockId} {B : Block} : f.block? b = some B → B.handler = some x → Refers f x
  | table {T : JumpTable} : T ∈ f.tables → x ∈ T.targets → Refers f x

private theorem mem_tables_of_table? {k : ConstIndex} {T : JumpTable} (h : f.table? k = some T) :
    T ∈ f.tables := by
  obtain ⟨c, hc, hT⟩ := Option.bind_eq_some_iff.mp h
  exact List.mem_filterMap.mpr ⟨c, List.mem_of_getElem? hc, hT⟩

/-- A block refers to its successors. -/
theorem Leads.refers (h : f.Leads a b) : f.Refers b := by
  obtain ⟨ts, hts, hb⟩ := h
  rw [successors] at hts
  split at hts
  · contradiction
  · next B hB =>
    split at hts
    · contradiction
    · next t ht =>
      have hmem : t ∈ B.code := by
        rw [Block.code_eq_of_terminator? ht]
        exact List.mem_append_right _ List.mem_cons_self
      cases t with
      | jumpTable k d =>
        rw [terminatorTargets] at hts
        split at hts
        · next T hT =>
          obtain rfl := Except.ok.inj hts
          rcases List.mem_append.mp hb with hentry | hdefault
          · exact .table (mem_tables_of_table? hT) hentry
          · exact .code hB hmem hdefault
        · contradiction
      | _ =>
        obtain rfl := Except.ok.inj hts
        exact .code hB hmem hb

/-! ### References under a redirection -/

private theorem block?_redirect_eq_some_iff : (f.redirect old new).block? b = some B ↔
    ∃ B₀, f.block? b = some B₀ ∧ B₀.redirect old new = B := by
  rw [block?_redirect, Option.map_eq_some_iff]

private theorem tables_redirect (f : Func) (old new : BlockId) :
    (f.redirect old new).tables = f.tables.map (JumpTable.redirect old new) := by
  rw [tables, tables, constants_redirect, List.filterMap_map, List.map_filterMap]
  exact List.filterMap_congr fun c _ ↦ Constant.table?_redirect old new c

private theorem leads_redirect_iff :
    (f.redirect old new).Leads a x ↔ ∃ y, f.Leads a y ∧ retarget old new y = x := by
  rw [Leads, successors_redirect]
  cases hs : f.successors a with
  | error fault => simp [Leads, hs, Except.map]
  | ok ts => simp [Leads, hs, Except.map]

/-- Every reference is redirected, and there are no others. -/
theorem Valid.refers_redirect_iff (hv : f.Valid) :
    (f.redirect old new).Refers x ↔ ∃ y, f.Refers y ∧ retarget old new y = x := by
  have hcode {b : BlockId} {B : Block} (hB : f.block? b = some B) :
      (B.redirect old new).code = B.code.map (Instr.redirect old new) := by
    obtain ⟨body, t, hshape⟩ := hv.shape b B hB
    exact hshape.code_redirect_eq_map old new
  constructor
  · intro h
    cases h with
    | code hB hi hx =>
      obtain ⟨B₀, hB₀, rfl⟩ := block?_redirect_eq_some_iff.mp hB
      rw [hcode hB₀] at hi
      obtain ⟨j, hj, rfl⟩ := List.mem_map.mp hi
      rw [Instr.redirect, Instr.targets_mapTargets] at hx
      obtain ⟨y, hy, hyx⟩ := List.mem_map.mp hx
      exact ⟨y, .code hB₀ hj hy, hyx⟩
    | handler hB hx =>
      obtain ⟨B₀, hB₀, rfl⟩ := block?_redirect_eq_some_iff.mp hB
      obtain ⟨y, hy, hyx⟩ := Option.map_eq_some_iff.mp hx
      exact ⟨y, .handler hB₀ hy, hyx⟩
    | table hT hx =>
      rw [tables_redirect] at hT
      obtain ⟨T₀, hT₀, rfl⟩ := List.mem_map.mp hT
      rw [JumpTable.redirect, JumpTable.targets_mapTargets] at hx
      obtain ⟨y, hy, hyx⟩ := List.mem_map.mp hx
      exact ⟨y, .table hT₀ hy, hyx⟩
  · rintro ⟨y, h, rfl⟩
    cases h with
    | code hB hi hy =>
      refine .code (block?_redirect_eq_some_iff.mpr ⟨_, hB, rfl⟩)
        (hcode hB ▸ List.mem_map_of_mem hi) ?_
      rw [Instr.redirect, Instr.targets_mapTargets]
      exact List.mem_map_of_mem hy
    | handler hB hy =>
      exact .handler (block?_redirect_eq_some_iff.mpr ⟨_, hB, rfl⟩)
        (Option.map_eq_some_iff.mpr ⟨y, hy, rfl⟩)
    | table hT hy =>
      refine .table (tables_redirect f old new ▸ List.mem_map_of_mem hT) ?_
      rw [JumpTable.redirect, JumpTable.targets_mapTargets]
      exact List.mem_map_of_mem hy

/-! ### Validity -/

/-- A redirection to a block that is there keeps the function valid. -/
theorem Valid.redirect (hv : f.Valid) (hnew : f.contains new = true) (old : BlockId) :
    (f.redirect old new).Valid := by
  have hthere {x : BlockId} (hx : f.contains x = true) :
      (f.redirect old new).contains (retarget old new x) = true := by
    rw [contains_redirect, retarget]
    split
    · exact hnew
    · exact hx
  have hw' := hv.wf.redirect old new
  refine ⟨⟨hw', ?_, ?_, ?_, ?_, ?_⟩, ?_⟩
  · exact List.ne_nil_of_mem
      ((hw'.mem_layout new).mpr ((contains_redirect f old new new).trans hnew))
  · intro b B hB
    obtain ⟨B₀, hB₀, rfl⟩ := block?_redirect_eq_some_iff.mp hB
    obtain ⟨body, t, hshape⟩ := hv.shape b B₀ hB₀
    exact ⟨body, _, hshape.redirect old new⟩
  · intro b hb
    obtain ⟨ts, hts⟩ := hv.successors b ((contains_redirect f old new b).symm.trans hb)
    exact ⟨_, by rw [successors_redirect, hts]; rfl⟩
  · intro a b hab
    obtain ⟨y, hy, rfl⟩ := leads_redirect_iff.mp hab
    exact hthere (hv.leads a y hy)
  · intro b B h hB hh
    obtain ⟨B₀, hB₀, rfl⟩ := block?_redirect_eq_some_iff.mp hB
    obtain ⟨y, hy, rfl⟩ := Option.map_eq_some_iff.mp hh
    exact hthere (hv.handler b B₀ y hB₀ hy)
  · intro b B hB i hi r hr
    obtain ⟨B₀, hB₀, rfl⟩ := block?_redirect_eq_some_iff.mp hB
    obtain ⟨body, t, hshape⟩ := hv.shape b B₀ hB₀
    rw [hshape.code_redirect_eq_map] at hi
    obtain ⟨j, hj, rfl⟩ := List.mem_map.mp hi
    rw [Instr.registers_redirect] at hr
    rw [registerCount_redirect]
    exact hv.registers b B₀ hB₀ j hj r hr

/-- A block that nothing refers to can be removed, if it is not the only one. -/
theorem Valid.removeBlock (hv : f.Valid) (hx : ¬f.Refers x) (hb : f.contains b = true)
    (hne : b ≠ x) : (f.removeBlock x).Valid := by
  have hthere {y : BlockId} (hy : f.contains y = true) (hy' : f.Refers y) :
      (f.removeBlock x).contains y = true :=
    (contains_removeBlock y).mpr ⟨fun heq ↦ hx (heq ▸ hy'), hy⟩
  have hblock {y : BlockId} {B : Block} (hB : (f.removeBlock x).block? y = some B) :
      y ≠ x ∧ f.block? y = some B := by
    rw [block?_removeBlock] at hB
    split at hB
    · contradiction
    · next hyx => exact ⟨hyx, hB⟩
  have hw' := hv.wf.removeBlock x
  refine ⟨⟨hw', ?_, ?_, ?_, ?_, ?_⟩, ?_⟩
  · exact List.ne_nil_of_mem ((hw'.mem_layout b).mpr ((contains_removeBlock b).mpr ⟨hne, hb⟩))
  · intro y B hB
    exact hv.shape y B (hblock hB).2
  · intro y hy
    obtain ⟨hyx, hlive⟩ := (contains_removeBlock y).mp hy
    rw [successors_removeBlock hyx]
    exact hv.successors y hlive
  · intro y z hyz
    have hyx : y ≠ x := ((contains_removeBlock y).mp (contains_of_leads hyz)).1
    have hleads := (leads_congr (successors_removeBlock hyx)).mp hyz
    exact hthere (hv.leads y z hleads) hleads.refers
  · intro y B z hB hz
    exact hthere (hv.handler y B z (hblock hB).2 hz) (.handler (hblock hB).2 hz)
  · intro y B hB
    rw [registerCount_removeBlock]
    exact hv.registers y B (hblock hB).2

/-- For every valid function and a block that is there: after every reference to another block is
redirected to it, nothing refers to that one. The successors of all blocks are the former ones with
the one block in the place of the other, and the entry is redirected likewise. The blocks are the
same, and all their plain instructions, exports and registers stay. Without the replaced block, the
function is still valid. -/
theorem redirect_removes_references (hw : f.WF) (hf : f.fault? = none)
    (hnew : f.contains new = true) (hne : old ≠ new) :
    ¬(f.redirect old new).Refers old ∧
    (∀ b, f.contains b = true → ∃ ts, f.successors b = .ok ts ∧
      (f.redirect old new).successors b = .ok (ts.map fun x ↦ if x = old then new else x)) ∧
    (∀ b, (f.redirect old new).contains b = f.contains b) ∧
    (∀ b B, f.block? b = some B → ∃ B', (f.redirect old new).block? b = some B' ∧
      B'.body = B.body ∧ B'.exported = B.exported ∧
      B'.code.map Instr.registers = B.code.map Instr.registers) ∧
    (∃ e, f.entry? = some e ∧
      Func.entry? (f.redirect old new) = some (if e = old then new else e)) ∧
    ((f.redirect old new).removeBlock old).fault? = none := by
  have hv := hw.fault?_eq_none_iff.mp hf
  have hw' := hw.redirect old new
  have hgone : ¬(f.redirect old new).Refers old := by
    rw [hv.refers_redirect_iff]
    rintro ⟨y, _, hy⟩
    exact retarget_ne hne y hy
  refine ⟨hgone, fun b hb ↦ ?_, contains_redirect f old new, fun b B hB ↦ ?_, ?_, ?_⟩
  · obtain ⟨ts, hts⟩ := hv.successors b hb
    exact ⟨ts, hts, by rw [successors_redirect, hts]; rfl⟩
  · obtain ⟨body, t, hshape⟩ := hv.shape b B hB
    refine ⟨_, block?_redirect_eq_some_iff.mpr ⟨B, hB, rfl⟩, ?_,
      Block.exported_redirect old new B, ?_⟩
    · rw [(hshape.redirect old new).body_eq, hshape.body_eq]
    · rw [hshape.code_redirect_eq_map, List.map_map]
      exact List.map_congr_left fun i _ ↦ Instr.registers_redirect old new i
  · obtain ⟨e, he⟩ := hv.intact.exists_entry
    exact ⟨e, he, hw.entry?_redirect he hnew old⟩
  · rw [(hw'.removeBlock old).fault?_eq_none_iff]
    exact (hv.redirect hnew old).removeBlock hgone
      ((contains_redirect f old new new).trans hnew) hne.symm

/-- Everything that can refer to a block refers to block `0`, which is also the entry. -/
def besieged : Func :=
  ((Draft.start "besieged" 1 1).declareAll
    [.constant (.table (.ofList [(0, 0), (1, 1)])),
      .block { id := 0, code := [.loadReg 0, .branch 1 0], handler := some 0 },
      .block { id := 1, code := [.loadReg 0, .jumpTable 0 0] },
      .block { id := 2, code := [.jump 0], handler := some 0 }]).build

/-- In `besieged` every kind of reference names the entry, and after a redirection none does. -/
theorem besieged_removes_references :
    besieged.WF ∧ besieged.fault? = none ∧ besieged.contains 0 = true ∧
      besieged.contains 1 = true ∧ besieged.Refers 0 ∧ ¬(besieged.redirect 0 1).Refers 0 ∧
      (besieged.redirect 0 1).successors 0 = .ok [1, 1] ∧
      (besieged.redirect 0 1).successors 1 = .ok [1, 1, 1] ∧
      Func.entry? (besieged.redirect 0 1) = some 1 ∧
      ((besieged.redirect 0 1).removeBlock 0).fault? = none := by
  have hdrafted : besieged.Drafted := ⟨_, _, _, _, rfl⟩
  have hf : besieged.fault? = none := by decide +kernel
  have hnew : besieged.contains 1 = true := by decide +kernel
  have hold : besieged.contains 0 = true := by decide +kernel
  have hleads : besieged.Leads 2 0 := ⟨[0], by decide +kernel, by decide⟩
  obtain ⟨hgone, hsuccessors, _, _, ⟨e, he, hentry⟩, hvalid⟩ :=
    redirect_removes_references hdrafted.wf hf hnew (show (0 : BlockId) ≠ 1 by decide)
  obtain ⟨ts, hts, hfirst⟩ := hsuccessors 0 hold
  obtain ⟨ts', hts', hsecond⟩ := hsuccessors 1 hnew
  obtain rfl : ts = [1, 0] := Except.ok.inj (hts.symm.trans (by decide +kernel))
  obtain rfl : ts' = [0, 1, 0] := Except.ok.inj (hts'.symm.trans (by decide +kernel))
  obtain rfl : e = 0 := Option.some.inj (he.symm.trans (by decide +kernel))
  exact ⟨hdrafted.wf, hf, hold, hnew, hleads.refers, hgone, hfirst, hsecond, hentry, hvalid⟩

end Func

end Bytecode
