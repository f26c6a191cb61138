import Bytecode.Optimize.Placement
import Bytecode.Proofs.Behaviour.Trace
import Bytecode.Proofs.Flow.Edges
import Bytecode.Proofs.Optimize.Ensures

/-!
# Removing unreachable blocks keeps the behaviour

A set of blocks that holds the entry and the exported blocks and is closed under successors is
never left by a run from one of them. So only the blocks of such a set matter: a function that
agrees on them behaves the same. The live blocks are the smallest such set.
-/

namespace Bytecode

namespace Func

variable {f g : Func} {P : BlockId → Prop} {b : BlockId} {s s' : Spot} {ms : List Mark}

/-- The entry and the exported blocks are in the set, and no block of it leads out. -/
structure Closed (f : Func) (P : BlockId → Prop) : Prop where
  entry : ∀ b, f.entry? = some b → P b
  exported : ∀ b, f.IsExported b → P b
  leads : ∀ a b, P a → f.Leads a b → P b

/-- The live blocks are a closed set. -/
theorem closed_live (f : Func) : f.Closed f.Live :=
  ⟨fun _ h ↦ .entry h, fun _ h ↦ .exported h, fun _ _ ha hab ↦ .leads ha hab⟩

/-- The live blocks are the least closed set. -/
theorem Closed.of_live (hP : f.Closed P) (hb : f.Live b) : P b := by
  induction hb with
  | entry he => exact hP.entry _ he
  | exported hexp => exact hP.exported _ hexp
  | leads _ hab ih => exact hP.leads _ _ ih hab

/-- No chain of successors leads out of a closed set. -/
theorem Closed.mem_of_isChain (hP : f.Closed P) {a x : BlockId} {l : List BlockId}
    (hl : List.IsChain f.Leads (a :: l)) (ha : P a) (hx : x ∈ a :: l) : P x := by
  induction l generalizing a with
  | nil =>
    rw [List.mem_singleton] at hx
    exact hx ▸ ha
  | cons b l ih =>
    obtain ⟨hab, hl'⟩ := List.isChain_cons_cons.mp hl
    rcases List.mem_cons.mp hx with rfl | hx
    · exact ha
    · exact ih hl' (hP.leads a b ha hab) hx

/-- The functions have the same blocks in the set, the same tables and the same entry. -/
structure Agrees (P : BlockId → Prop) (f g : Func) : Prop where
  block? : ∀ b, P b → g.block? b = f.block? b
  table? : ∀ k, g.table? k = f.table? k
  entry_eq : g.entry? = f.entry?

/-- A function agrees with itself. -/
theorem Agrees.refl (P : BlockId → Prop) (f : Func) : Agrees P f f :=
  ⟨fun _ _ ↦ rfl, fun _ ↦ rfl, rfl⟩

/-- Agreement on a set passes on. -/
theorem Agrees.trans {k : Func} (h : Agrees P f g) (h' : Agrees P g k) : Agrees P f k :=
  ⟨fun b hb ↦ (h'.block? b hb).trans (h.block? b hb), fun i ↦ (h'.table? i).trans (h.table? i),
    h'.entry_eq.trans h.entry_eq⟩

/-- Functions agree on every part of a set on which they agree. -/
theorem Agrees.mono {Q : BlockId → Prop} (h : Agrees P f g) (hQ : ∀ b, Q b → P b) :
    Agrees Q f g :=
  ⟨fun b hb ↦ h.block? b (hQ b hb), h.table?, h.entry_eq⟩

/-- Blocks of the set lead to the same blocks in both functions. -/
theorem Agrees.leads_iff {a : BlockId} (h : Agrees P f g) (ha : P a) :
    g.Leads a b ↔ f.Leads a b :=
  leads_iff_of_block? (h.block? a ha) h.table?

/-- Control passes from the spot to blocks of the set only. -/
def Confined (f : Func) (P : BlockId → Prop) : Spot → Prop
  | .entering b => P b
  | .within h code =>
    (∀ x, h = some x → P x) ∧ ∀ i ∈ code, ∀ ms x, f.Transfer i ms x → P x
  | .outside => True

private theorem confined_block (hf : f.Sound) (hP : f.Closed P) {B : Block} (hb : P b)
    (hB : f.block? b = some B) : f.Confined P (.within B.handler B.code) := by
  obtain ⟨body, t, hshape⟩ := hf.shape b B hB
  refine ⟨fun x hx ↦ hP.exported x (hf.handler_exported b B x hB hx), fun i hi ms x htr ↦ ?_⟩
  rw [hshape.code_eq, List.mem_append, List.mem_singleton] at hi
  have hterm := htr.isTerminator
  rcases hi with hi | rfl
  · simp [hshape.plain i hi] at hterm
  · exact hP.leads b x hb (htr.leads hB hshape)

private theorem confined_arrive {h : Option BlockId} (hh : ∀ x, h = some x → P x) :
    f.Confined P (.arrive h) := by
  cases h with
  | none => trivial
  | some x => exact hh x rfl

/-- A run does not leave a closed set. -/
theorem Confined.step (hf : f.Sound) (hP : f.Closed P) (h : f.Confined P s)
    (hstep : f.Step s ms s') : f.Confined P s' := by
  cases hstep with
  | enter hB => exact confined_block hf hP h hB
  | plain _ => exact ⟨h.1, fun i hi ↦ h.2 i (List.mem_cons_of_mem _ hi)⟩
  | raised _ _ => exact confined_arrive h.1
  | transfer htr => exact h.2 _ List.mem_cons_self _ _ htr
  | returned => trivial
  | thrown => exact confined_arrive h.1

-- Functions that agree on a closed set do the same steps there.
private theorem Agrees.step_iff (hfg : Agrees P f g) (h : f.Confined P s) :
    g.Step s ms s' ↔ f.Step s ms s' := by
  cases s with
  | entering b => rw [step_entering_iff, step_entering_iff, hfg.block? b h]
  | within k code =>
    cases code with
    | nil => exact ⟨nofun, nofun⟩
    | cons i rest =>
      simp only [step_within_iff, transfer_iff_of_tables hfg.table?]
  | outside => exact ⟨nofun, nofun⟩

/-- Functions that agree on a closed set behave the same. -/
theorem Agrees.preserves (h : Agrees P f g) (hf : f.Sound) (hP : f.Closed P) : Preserves f g := by
  have hfg : Simulates f g fun s t ↦ s = t ∧ f.Confined P s := by
    refine ⟨?_, fun t hR ↦ hR.1.symm⟩
    rintro s t ms s' ⟨rfl, hs⟩ hstep
    exact ⟨s', .single ((h.step_iff hs).mpr hstep), rfl, hs.step hf hP hstep⟩
  have hgf : Simulates g f fun t s ↦ s = t ∧ f.Confined P s := by
    refine ⟨?_, fun t hR ↦ hR.1⟩
    rintro t s ms t' ⟨rfl, hs⟩ hstep
    have hstep' := (h.step_iff hs).mp hstep
    exact ⟨t', .single hstep', rfl, hs.step hf hP hstep'⟩
  have hsame (b : BlockId) (hb : P b) : SameBehaviour f b g b :=
    sameBehaviour_of_simulates hfg hgf ⟨rfl, hb⟩
  refine ⟨fun e he ↦ ⟨e, h.entry_eq.trans he, hsame e (hP.entry e he)⟩, fun b hb ↦ ?_⟩
  have hbP := hP.exported b hb
  obtain ⟨B, hB, hexp⟩ := hb
  exact ⟨⟨B, (h.block? b hbP).trans hB, hexp⟩, hsame b hbP⟩

end Func

/-! ### The pass -/

namespace Placement

variable {f g : Func} {c : FlowGraph}

private theorem not_live_of_mem_dead (hf : f.Sound) (hc : c.Depicts f) {b : BlockId}
    (hb : b ∈ dead c) : ¬f.Live b := by
  obtain ⟨⟨mark, n⟩, hmem, hn⟩ := List.mem_filterMap.mp hb
  rw [List.mem_filter, List.mk_mem_zipIdx_iff_getElem?, Array.getElem?_toList] at hmem
  rw [hc.block?_eq] at hn
  rw [← hc.live_iff hf.intact hn, hmem.1]
  simpa using hmem.2

/-- What holds while the blocks `l` are still to be dropped. -/
structure Dropping (f : Func) (l : List BlockId) (g : Func) : Prop where
  wf : g.WF
  agrees : Func.Agrees f.Live f g
  dead : ∀ b ∈ l, ¬f.Live b

private theorem Dropping.step (hf : f.Sound) {b : BlockId} {l : List BlockId}
    (h : Dropping f (b :: l) g) : (drop b).Ensures g fun _ k ↦ Dropping f l k := by
  have hb := h.dead b List.mem_cons_self
  have hne (x : BlockId) (hx : f.Live x) : x ≠ b := by
    rintro rfl
    exact hb hx
  simp only [drop, Transform.ensures_bind, Transform.ensures_update, Transform.ensures_record,
    Transform.ensures_pure]
  refine ⟨h.wf.removeBlock b, h.agrees.trans ⟨fun x hx ↦ ?_, fun k ↦ ?_, ?_⟩, fun x hx ↦ ?_⟩
  · rw [Func.block?_removeBlock, if_neg (hne x hx)]
  · rw [Func.table?_removeBlock]
  · obtain ⟨e, he⟩ := hf.exists_entry
    have he' := h.agrees.entry_eq.trans he
    rw [h.wf.entry?_removeBlock he' (hne e (.entry he)), he']
  · exact h.dead x (List.mem_cons_of_mem b hx)

/-- The pass keeps the behaviour. -/
theorem ensures_run (hf : f.Sound) : run.Ensures f fun _ g ↦ f.Preserves g := by
  rw [run, Transform.ensures_bind, Transform.ensures_current, Transform.ensures_bind,
    Transform.ensures_ofExcept]
  intro c hc
  have hdepicts := FlowGraph.depicts_of_ofFunc hf.wf hc
  rw [Transform.ensures_bind]
  refine (Transform.ensures_sumOver (Dropping f) ?_ fun b rest g hg ↦ hg.step hf).mono
    fun n g hg ↦ ?_
  · exact ⟨hf.wf, .refl _ f, fun b hb ↦ not_live_of_mem_dead hf hdepicts hb⟩
  · rw [Transform.ensures_pure]
    exact hg.agrees.preserves hf f.closed_live

end Placement

end Bytecode
