import Bytecode.Proofs.Merge.Condensing
import Bytecode.Proofs.Optimize.Faults

/-!
# The stack of merged functions

A merged function is valid. Its stack is in order exactly if that of the function is without the
handlers of those mere jumps that are gone; then all live blocks have the heights they had, and the
largest height is the same. Otherwise the check came to some exported block with something on the
stack only by way of such a handler, and now starts it with an empty stack.
-/

namespace Bytecode

namespace Func

open Relation

variable {f g : Func} {H H' : BlockId → Nat} {D : Nat} {ρ : BlockId → BlockId} {l l' : StackLayout}
  {a b x : BlockId}

/-! ### What the check finds -/

/-- The largest height is the largest one in a live block. -/
theorem maxDepth_le_iff (hf : f.Sound) (hv : f.Valid) (h : f.stackLayout = .ok l) :
    l.maxDepth ≤ D ↔ f.Within l.entryHeight D := by
  obtain ⟨known, hknown, hl⟩ := exists_lays h
  have hrec {b : BlockId} {k : Nat} : known[b]? = some k ↔ f.Reached b ∧ l.entryHeight b = k :=
    hl.getElem?_eq_some_iff hv hknown
  rw [hl.maxDepth_le_iff hf.wf]
  constructor
  · intro hle b B hb hB k hk
    have hdepth := hle b B hB
    rw [blockDepth, hrec.mpr ⟨hb.reached, rfl⟩] at hdepth
    exact Nat.le_trans (le_foldl_max hk) hdepth
  · intro hwithin b B hB
    rw [blockDepth]
    split
    · next h₀ hh₀ =>
      obtain ⟨hb, rfl⟩ := hrec.mp hh₀
      exact foldl_max_le_iff.mpr ⟨Nat.zero_le D, hwithin b B (hb.live hf) hB⟩
    · exact Nat.zero_le D

/-- Heights that balance are the same if they are so at exported blocks. -/
theorem Balances.eq_of_live (hf : f.Sound) (h : f.Balances H) (h' : f.Balances H')
    (hexp : ∀ x, f.IsExported x → H x = H' x) (hb : f.Live b) : H b = H' b := by
  induction hb with
  | entry he => rw [h.entry _ he, h'.entry _ he]
  | exported hx => exact hexp _ hx
  | @leads a b ha hab ih =>
    obtain ⟨A, hA⟩ := contains_iff.mp (ha.contains hf.intact)
    obtain ⟨final, hwalk, hleads, _⟩ := h.walk a A ha hA
    obtain ⟨final', hwalk', hleads', _⟩ := h'.walk a A ha hA
    rw [← ih, hwalk, Except.ok.injEq] at hwalk'
    rw [hleads b hab, hleads' b hab, hwalk']

private theorem Within.congr (h : f.Within H D) (heq : ∀ b, f.Live b → H b = H' b) :
    f.Within H' D := by
  intro b B hb hB k hk
  rw [← heq b hb] at hk
  exact h b B hb hB k hk

/-! ### Handlers that are gone -/

/-- The mere jumps of the first function that are gone in the second. -/
def spent (f g : Func) : List BlockId :=
  (f.blocks.filter fun b ↦ !b.2.exported && (b.2.code matches [.jump _]) && !g.contains b.1).map
    Prod.fst

private theorem WF.mem_spent_iff (hw : f.WF) :
    b ∈ f.spent g ↔ (∃ x, f.Forwards b x) ∧ ¬g.contains b = true := by
  have hjump (B : Block) : (B.code matches [.jump _]) = true ↔ ∃ x, B.code = [.jump x] :=
    Block.matches_jump_iff
  simp only [spent, List.mem_map, List.mem_filter, Prod.exists, exists_and_right, exists_eq_right,
    hw.mem_blocks, Bool.and_eq_true, Bool.not_eq_true', hjump, Bool.not_eq_true]
  constructor
  · rintro ⟨B, hB, ⟨hexp, x, hx⟩, hgone⟩
    exact ⟨⟨x, B, hB, hexp, hx⟩, hgone⟩
  · rintro ⟨⟨x, B, hB, hexp, hx⟩, hgone⟩
    exact ⟨B, hB, ⟨hexp, x, hx⟩, hgone⟩

private theorem WF.isIdle_of_mem_spent {B : Block} (hw : f.WF) (hb : b ∈ f.spent g)
    (hB : f.block? b = some B) : B.isIdle merging = true := by
  obtain ⟨⟨x, B', hB', hexp, hcode⟩, _⟩ := hw.mem_spent_iff.mp hb
  obtain rfl := Option.some.inj (hB.symm.trans hB')
  exact Block.isIdle_iff.mpr (.inr ⟨rfl, hexp, x, hcode⟩)

section

variable (hf : f.Sound) (h : Condenses ρ f g)

include hf h

/-- Without the handlers that are gone, every edge of a live block becomes a way. -/
theorem Condenses.way (ha : f.Live a) (hab : (f.clearHandlers (f.spent g)).Follows a b) :
    ReflTransGen g.Follows (ρ a) (ρ b) := by
  rcases follows_clearHandlers_iff.mp hab with hab | ⟨A, hA, hh, hkept⟩
  · exact ReflTransGen.mono (fun _ _ ↦ .inl) _ _ (h.leads a b ha hab)
  · rw [hf.wf.mem_spent_iff, not_and_or, not_not] at hkept
    rw [h.exported b (hf.handler_exported a A b hA hh)]
    rcases hkept with hbusy | hkept
    · obtain ⟨⟨A', hA', hsame⟩, _⟩ := h.busy a A ha hA hbusy
      exact .single (.inr ⟨A', hA', hsame.trans hh⟩)
    · obtain ⟨A', hA'⟩ := contains_iff.mp hkept
      obtain ⟨A₀, hA₀, hsame⟩ := h.handler_eq hf hA'
      obtain rfl := Option.some.inj (hA.symm.trans hA₀)
      rw [h.kept a ha hkept]
      exact .single (.inr ⟨A', hA', hsame.trans hh⟩)

private theorem Condenses.ways (ha : f.Live a)
    (hab : ReflTransGen (f.clearHandlers (f.spent g)).Follows a b) :
    f.Live b ∧ ReflTransGen g.Follows (ρ a) (ρ b) := by
  induction hab with
  | refl => exact ⟨ha, .refl⟩
  | tail _ hstep ih =>
    have hstep' : f.Follows _ _ :=
      (follows_clearHandlers_iff.mp hstep).imp_right fun ⟨A, hA, hh, _⟩ ↦ ⟨A, hA, hh⟩
    exact ⟨hstep'.live hf ih.1, ih.2.trans (h.way hf ih.1 hstep)⟩

/-- Every edge of the result is a way that needs none of the handlers that are gone. -/
theorem Condenses.way_back (hback : Retraces f g) (ha : g.Live a) (hab : g.Follows a b) :
    ReflTransGen (f.clearHandlers (f.spent g)).Follows a b := by
  rcases hab with hab | ⟨A', hA', hh⟩
  · refine ReflTransGen.mono (fun _ _ hstep ↦ ?_) _ _ (hback.leads a b ha hab)
    exact follows_clearHandlers_iff.mpr (.inl hstep)
  · obtain ⟨A, hA, hsame⟩ := h.handler_eq hf hA'
    refine .single (follows_clearHandlers_iff.mpr (.inr ⟨A, hA, hsame ▸ hh, fun hspent ↦ ?_⟩))
    exact (hf.wf.mem_spent_iff.mp hspent).2 (contains_of_block? hA')

private theorem Condenses.ways_back (hback : Retraces f g) (ha : g.Live a)
    (hab : ReflTransGen g.Follows a b) :
    g.Live b ∧ ReflTransGen (f.clearHandlers (f.spent g)).Follows a b := by
  have hg := h.sound hf
  induction hab with
  | refl => exact ⟨ha, .refl⟩
  | tail _ hstep ih => exact ⟨hstep.live hg ih.1, ih.2.trans (h.way_back hf hback ih.1 hstep)⟩

/-- Exported blocks are grounded in the result if they are so in the function without the handlers
that are gone. -/
theorem Condenses.grounded (hH : g.Balances H)
    (hground : (f.clearHandlers (f.spent g)).Grounded (f.clearHandlers (f.spent g)).Follows H) :
    g.Grounded g.Follows H := by
  have hexp := h.isExported_iff hf
  obtain ⟨_, hedits⟩ := h.edits
  intro x hx hne
  have hx' := (hexp x).mp hx
  obtain ⟨r, hstart, hway⟩ := hground x (isExported_clearHandlers_iff.mpr hx') hne
  rcases startsBefore_clearHandlers_iff.mp hstart with he | ⟨hr, hprec⟩
  · have hway' := (h.ways hf (.entry he) hway).2
    rw [h.exported x hx'] at hway'
    exact ⟨ρ r, .inl (h.entry r he), hway'⟩
  · -- A block that becomes the entry has an empty stack.
    have hprec' := (hedits.precedes hf hr hx' hprec).resolve_right fun he ↦ hne (hH.entry x he)
    have hway' := (h.ways hf (.exported hr) hway).2
    rw [h.exported x hx', h.exported r hr] at hway'
    exact ⟨r, .inr ⟨(hexp r).mpr hr, hprec'⟩, hway'⟩

private theorem Condenses.grounded_back (hback : Retraces f g) (hground : g.Grounded g.Follows H) :
    (f.clearHandlers (f.spent g)).Grounded (f.clearHandlers (f.spent g)).Follows H := by
  have hexp := h.isExported_iff hf
  obtain ⟨_, hedits⟩ := h.edits
  intro x hx hne
  rw [isExported_clearHandlers_iff] at hx
  obtain ⟨r, hstart, hway⟩ := hground x ((hexp x).mpr hx) hne
  have hfirst (he : g.entry? = some r) : ∃ e, f.entry? = some e ∧
      ReflTransGen (f.clearHandlers (f.spent g)).Follows e x := by
    obtain ⟨e, he₀, hpath⟩ := hback.entry r he
    refine ⟨e, he₀, ReflTransGen.trans ?_ (h.ways_back hf hback (.entry he) hway).2⟩
    exact ReflTransGen.mono (fun _ _ hstep ↦ follows_clearHandlers_iff.mpr (.inl hstep)) _ _ hpath
  simp only [startsBefore_clearHandlers_iff]
  rcases hstart with he | ⟨hr, hprec⟩
  · obtain ⟨e, he₀, hway'⟩ := hfirst he
    exact ⟨e, .inl he₀, hway'⟩
  · rcases hedits.precedes_back hf ((hexp r).mp hr) hx hprec with hprec' | he
    · exact ⟨r, .inr ⟨(hexp r).mp hr, hprec'⟩, (h.ways_back hf hback (.exported hr) hway).2⟩
    · obtain ⟨e, he₀, hway'⟩ := hfirst he
      exact ⟨e, .inl he₀, hway'⟩

end

end Func

namespace Merge

open Func Transform

variable {f : Func} {settings : Settings} {l : StackLayout}

/-- Merging keeps a function valid. The stack of the result is in order exactly if the function's
is without the handlers of the mere jumps that are gone, and then live blocks start with the
heights they had and the largest height is the same. -/
theorem run_keeps_heights (hf : f.Drafted) (hv : f.fault? = none) (hl : f.stackLayout = .ok l)
    {changed : Bool} (hrun : (run settings f).result = .ok changed) :
    (run settings f).func.fault? = none ∧
    ((∃ l', (run settings f).func.stackLayout = .ok l') ↔
      ∃ l', (f.clearHandlers (f.spent (run settings f).func)).stackLayout = .ok l') ∧
    ∀ l', (run settings f).func.stackLayout = .ok l' → l'.maxDepth = l.maxDepth ∧
      ∀ b, (run settings f).func.Live b →
        ∃ k, l'.heightBefore? ⟨b, 0⟩ = some k ∧ l.heightBefore? ⟨b, 0⟩ = some k := by
  have hsound := hf.sound hv
  have hvalid := hf.wf.fault?_eq_none_iff.mp hv
  have hyields :=
    yields_condensed_rounds hsound settings.maxMergeRounds settings.maxMergeRounds false
  have hdone : Condensed f (run settings f).func := hyields.of_ok hrun
  obtain ⟨ρ, hcondenses⟩ := hdone.condenses
  obtain ⟨gone, hedits⟩ := hcondenses.edits
  generalize (run settings f).func = g at hdone hcondenses hedits ⊢
  have hg := hcondenses.sound hsound
  have hgv := hedits.valid hsound hvalid
  have hexp := hcondenses.isExported_iff hsound
  have hbalances := balances_of_stackLayout hvalid hl
  have hbalances' := hedits.balances hsound hbalances
  refine ⟨hg.wf.fault?_eq_none_iff.mpr hgv, ?_, fun l' hl' ↦ ?_⟩
  · rw [exists_stackLayout_clearHandlers_iff hsound hvalid hl
      fun b hb B hB ↦ hsound.wf.isIdle_of_mem_spent hb hB]
    constructor
    · rintro ⟨l', hl'⟩
      exact hcondenses.grounded_back hsound hdone.retraces
        (grounded_of_accepted hsound hvalid hl hg hgv hl' hexp (hedits.routes hsound) hbalances')
    · intro hground
      exact hbalances'.exists_stackLayout hg (hcondenses.grounded hsound hbalances' hground)
  · have hsame (b : BlockId) (hb : g.Live b) : l.entryHeight b = l'.entryHeight b :=
      hbalances'.eq_of_live hg (balances_of_stackLayout hgv hl')
        (fun x hx ↦ entryHeight_eq_of_accepted hsound hvalid hl hg hgv hl' hexp
          (hedits.routes hsound) hbalances' hx) hb
    constructor
    · apply eq_of_forall_ge_iff
      intro D
      rw [maxDepth_le_iff hg hgv hl', maxDepth_le_iff hsound hvalid hl,
        ← hdone.within_iff l.entryHeight D hbalances]
      exact ⟨fun h ↦ h.congr fun b hb ↦ (hsame b hb).symm, fun h ↦ h.congr hsame⟩
    · intro b hb
      refine ⟨l'.entryHeight b, heightBefore?_of_reached hgv hl' hb.reached, ?_⟩
      rw [← hsame b hb]
      exact heightBefore?_of_reached hvalid hl (hdone.retraces.live hexp hb).reached

/-- A way through block `3` is lost with its handler, but the exported block is reached from the
entry with the value that is returned there. -/
def detoured : Func :=
  ((Draft.start "detoured" 0 0).declareAll
    [.block { id := 0, code := [.push .null, .push .null, .branch 3 4] },
      .block { id := 1, code := [.ret], pinned := true },
      .block { id := 2, code := [.caught, .jump 1] },
      .block { id := 3, code := [.jump 1], handler := some 2 },
      .block { id := 4, code := [.unary .neg, .jump 1] }]).build

/-- Merging takes block `3` out of `detoured`, and all else keeps its heights. -/
theorem detoured_keeps_heights :
    detoured.Drafted ∧ detoured.fault? = none ∧ (run {} detoured).result = .ok true ∧
      detoured.spent (run {} detoured).func = [3] ∧
      (detoured.block? 3).map Block.handler = some (some 2) ∧
      ∃ l l', detoured.stackLayout = .ok l ∧ (run {} detoured).func.stackLayout = .ok l' ∧
        l.maxDepth = 2 ∧ l'.maxDepth = l.maxDepth ∧
        ∃ k, l'.heightBefore? ⟨1, 0⟩ = some k ∧ l.heightBefore? ⟨1, 0⟩ = some k := by
  have hdrafted : detoured.Drafted := ⟨_, _, _, _, rfl⟩
  have hv : detoured.fault? = none := by decide +kernel
  have hrun : (run {} detoured).result = .ok true := by decide +kernel
  have hdepth : detoured.stackLayout.toOption.map StackLayout.maxDepth = some 2 := by
    decide +kernel
  have hspent : detoured.spent (run {} detoured).func = [3] := by decide +kernel
  have hcleared : (detoured.clearHandlers [3]).stackLayout.toOption.isSome = true := by
    decide +kernel
  have hblock : (run {} detoured).func.block? 1 = some { code := [.ret], exported := true } := by
    decide +kernel
  cases hl : detoured.stackLayout with
  | error fault => simp [hl, Except.toOption] at hdepth
  | ok l =>
    obtain ⟨_, haccepted, hkeeps⟩ := run_keeps_heights hdrafted hv hl hrun
    rw [hspent] at haccepted
    obtain ⟨l', hl'⟩ := haccepted.mpr (Except.exists_eq_ok_of_isSome hcleared)
    obtain ⟨hsame, hheights⟩ := hkeeps l' hl'
    have hlive : (run {} detoured).func.Live 1 := .exported ⟨_, hblock, rfl⟩
    refine ⟨hdrafted, hv, hrun, hspent, by decide +kernel, l, l', rfl, hl', ?_, hsame,
      hheights 1 hlive⟩
    simpa [hl, Except.toOption] using hdepth

/-- The entry does nothing but jump, and by its handler only is the exported block entered with a
value. -/
def severed : Func :=
  ((Draft.start "severed" 0 0).declareAll
    [.block { id := 0, code := [.jump 3], handler := some 2 },
      .block { id := 1, code := [.ret], pinned := true },
      .block { id := 2, code := [.caught, .jump 1] },
      .block { id := 3, code := [.push .null, .ret] }]).build

/-- Without the entry, the check starts the exported block with an empty stack. -/
theorem severed_unbalanced :
    severed.Drafted ∧ severed.fault? = none ∧ (∃ l, severed.stackLayout = .ok l) ∧
      (run {} severed).result = .ok true ∧
      (run {} severed).func.stackLayout = .error (.invalidReturnHeight 2 0) := by
  have hok : severed.stackLayout.toOption.isSome = true := by decide +kernel
  have hfault : (match (run {} severed).func.stackLayout with
      | .ok _ => none
      | .error fault => some fault) = some (.invalidReturnHeight 2 0) := by decide +kernel
  refine ⟨⟨_, _, _, _, rfl⟩, by decide +kernel, Except.exists_eq_ok_of_isSome hok,
    by decide +kernel, ?_⟩
  cases hl : (run {} severed).func.stackLayout with
  | error fault =>
    rw [hl] at hfault
    exact congrArg Except.error (Option.some.inj hfault)
  | ok l =>
    rw [hl] at hfault
    contradiction

end Merge

end Bytecode
