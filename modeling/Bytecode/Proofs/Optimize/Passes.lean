import Bytecode.Optimize.Pipeline
import Bytecode.Proofs.Merge.Fusion
import Bytecode.Proofs.Registers.Stability

/-!
# The passes in a row

Each pass leaves a function in which it finds nothing to do, and the later ones keep it so. For the
second run over handlers this holds from the start: merging brings up no handlers that are not
needed. Merging itself comes to rest in the third round at the latest.
-/

namespace Bytecode

open Func Transform

variable {f g : Func} {settings : Settings} {E : Fault → Prop} {l : List BlockId}
  {a b x y : BlockId}

/-! ### Rounds of merging -/

namespace Merge

/-- Nothing is left to merge. -/
structure Merged (f : Func) : Prop where
  circling : Circling f
  unlinked : Unlinked f

private theorem yields_round (hf : f.Sound) (hasked : settings.mergeBlocks = true) :
    round.Yields f (fun n g es ↦ Recorded settings f (n ≠ 0) g es ∧ Settling g ∧
      (Settling f → Merged g) ∧ (Merged f → n = 0) ∧ (n = 0 → Merged g)) E := by
  rw [round, yields_bind]
  apply (yields_removeTrampolines hf hasked).imp
  rintro n k es ⟨hrecorded, hcircling, hunlinked, hnone⟩
  rw [yields_bind]
  apply (yields_fuseChains (hrecorded.edits.sound hf) hasked).imp
  rintro m g es' ⟨hrecorded', hunlinked', hsettling', hnone'⟩
  rw [yields_pure, List.append_nil]
  have hstay (hm : m = 0) : g = k := hrecorded'.rest (by simp [hm])
  refine ⟨hrecorded.count hf hrecorded', hsettling' hcircling, fun hsettling ↦ ?_,
    fun hmerged ↦ ?_, fun hsum ↦ ?_⟩
  · have hm := hnone' (hunlinked hsettling)
    exact ⟨hstay hm ▸ hcircling, hunlinked'⟩
  · have hn := hnone hmerged.circling
    have hk : k = f := hrecorded.rest (by simp [hn])
    rw [hn, hnone' (hk ▸ hmerged.unlinked)]
  · exact ⟨hstay (Nat.eq_zero_of_add_eq_zero_left hsum) ▸ hcircling, hunlinked'⟩

/-- Three rounds are enough from anywhere, and each round of which the effect is known leaves one
less to go. -/
theorem yields_rounds (hf : f.Sound) (hasked : settings.mergeBlocks = true) (limit left : Nat)
    (changed : Bool) :
    (rounds limit left changed).Yields f
      (fun result g es ↦ ∃ here, result = (changed || here) ∧ Recorded settings f here g es ∧
        Merged g ∧ (Merged f → here = false) ∧ 0 < left)
      (fun fault ↦ (∃ name, fault = .mergeUnfinished limit name) ∧ left < 3 ∧
        (Settling f → left < 2) ∧ (Merged f → left < 1)) := by
  induction left generalizing f changed with
  | zero =>
    rw [rounds, yields_bind, yields_current, yields_fail]
    exact ⟨⟨_, rfl⟩, by omega, by omega, by omega⟩
  | succ left ih =>
    rw [rounds, yields_bind]
    apply (yields_round hf hasked).imp
    rintro n g es ⟨hrecorded, hsettling, hmerges, hnone, hdone⟩
    split
    · next hn =>
      rw [yields_pure, List.append_nil]
      refine ⟨false, (Bool.or_false changed).symm, ?_, hdone hn, fun _ ↦ rfl, Nat.succ_pos left⟩
      simpa [hn] using hrecorded
    · next hn =>
      apply (ih (hrecorded.edits.sound hf) true).mono
      · rintro _ k es' ⟨here, rfl, hrecorded', hmerged, _⟩
        have hall := hrecorded.trans hf hrecorded'
        rw [decide_eq_true hn, Bool.true_or] at hall
        refine ⟨true, ?_, hall, hmerged, fun hrest ↦ absurd (hnone hrest) hn, Nat.succ_pos left⟩
        rw [Bool.true_or, Bool.or_true]
      · rintro fault ⟨hfault, _, hleft, hleft'⟩
        have := hleft hsettling
        refine ⟨hfault, by omega, fun hsettles ↦ ?_, fun hrest ↦ absurd (hnone hrest) hn⟩
        have := hleft' (hmerges hsettles)
        omega

/-- Merging leaves nothing to merge. It fails only if it has less than three rounds. -/
theorem yields_run (hf : f.Sound) (hasked : settings.mergeBlocks = true) :
    (run settings).Yields f
      (fun changed g es ↦ Recorded settings f changed g es ∧ Merged g ∧
        (Merged f → changed = false) ∧ 0 < settings.maxMergeRounds)
      (fun fault ↦ (∃ name, fault = .mergeUnfinished settings.maxMergeRounds name) ∧
        settings.maxMergeRounds < 3 ∧ (Merged f → settings.maxMergeRounds < 1)) := by
  apply (yields_rounds hf hasked settings.maxMergeRounds settings.maxMergeRounds false).mono
  · rintro _ g es ⟨here, rfl, hrest⟩
    exact hrest
  · rintro fault ⟨hfault, hlt, _, hlt'⟩
    exact ⟨hfault, hlt, hlt'⟩

end Merge

/-! ### What later passes keep -/

namespace Func.Renames

private theorem refl (f : Func) : Renames id f f where
  name := rfl
  argCount := rfl
  constants := rfl
  layout := rfl
  block? b := by
    have hblock : Block.mapCode (Instr.mapRegisters id id) = id := by
      funext B
      rw [Instr.mapRegisters_id, Block.mapCode, List.map_id, id]
    rw [hblock, Option.map_id, id]

variable {m : Register → Register} (h : Renames m f g)

include h

private theorem forwards_iff : g.Forwards a b ↔ f.Forwards a b := by
  constructor
  · rintro ⟨B, hB, hexp, hcode⟩
    obtain ⟨B₀, hB₀, rfl⟩ := h.block?_eq_some_iff.mp hB
    obtain ⟨i, hi, hjump⟩ := List.map_eq_singleton_iff.mp hcode
    cases i with
    | jump x => exact ⟨B₀, hB₀, hexp, hjump ▸ hi⟩
    | _ => contradiction
  · rintro ⟨B₀, hB₀, hexp, hcode⟩
    refine ⟨_, h.block?_eq_some_iff.mpr ⟨B₀, hB₀, rfl⟩, hexp, ?_⟩
    rw [Block.mapCode, hcode]
    rfl

private theorem jumps_of_jumps (hab : g.Jumps a b) : f.Jumps a b := by
  obtain ⟨A, hA, hjump⟩ := hab
  obtain ⟨A₀, hA₀, rfl⟩ := h.block?_eq_some_iff.mp hA
  rw [Block.terminator?_mapCode fun i ↦ i.isTerminator_mapRegisters m,
    Option.map_eq_some_iff] at hjump
  obtain ⟨i, hi, hjump⟩ := hjump
  cases i with
  | jump x => exact ⟨A₀, hA₀, hjump ▸ hi⟩
  | _ => contradiction

private theorem live_iff : g.Live b ↔ f.Live b := by
  constructor
  · intro hb
    induction hb with
    | entry he => exact .entry (h.entry?_eq ▸ he)
    | exported hb => exact .exported (h.isExported_iff.mp hb)
    | leads _ hab ih => exact .leads ih (h.leads_iff.mp hab)
  · intro hb
    induction hb with
    | entry he => exact .entry (h.entry?_eq.trans he)
    | exported hb => exact .exported (h.isExported_iff.mpr hb)
    | leads _ hab ih => exact .leads ih (h.leads_iff.mpr hab)

end Func.Renames

namespace Merge

private theorem Merged.pruned (h : Merged f) (hf : f.Sound) (hg : Placement.Pruned f g) :
    Merged g := by
  have hagrees := hg.agrees hf
  have hlive {b : BlockId} : g.Live b ↔ f.Live b := hg.live_iff hf
  constructor
  · intro x y hxy hne
    have hx : f.Live x := (hg.contains_iff hf).mp (contains_of_leads hxy.leads)
    have hy : f.Live y := .leads hx ((hagrees.leads_iff hx).mp hxy.leads)
    have hxy' : f.Forwards x y := by
      rwa [Forwards, ← hagrees.block? x hx]
    obtain ⟨z, hyz, hzy⟩ := h.circling x y hxy' hne
    refine ⟨z, ?_, hzy⟩
    rwa [Forwards, hagrees.block? y hy]
  · intro a b hab
    have ha := hlive.mp hab.live
    have hb := hlive.mp hab.liveTarget
    apply h.unlinked a b
    refine ⟨ha, hab.ne, ⟨?_, mt hg.isExported_iff.mpr hab.link.unexported, ?_, fun x hx hxb ↦ ?_⟩,
      ?_⟩
    · have hjumps := hab.link.jumps
      rwa [Jumps, hagrees.block? a ha] at hjumps
    · rw [← hagrees.entry_eq]
      exact hab.link.not_entry
    · exact hab.link.only x (hlive.mpr hx) ((hagrees.leads_iff hx).mpr hxb)
    · rw [← hagrees.block? a ha, ← hagrees.block? b hb]
      exact hab.handler_eq

private theorem Merged.renamed {m : Register → Register} (h : Merged f) (hg : Renames m f g) :
    Merged g := by
  constructor
  · intro x y hxy hne
    obtain ⟨z, hyz, hzy⟩ := h.circling x y (hg.forwards_iff.mp hxy) hne
    exact ⟨z, hg.forwards_iff.mpr hyz, hzy⟩
  · intro a b hab
    apply h.unlinked a b
    refine ⟨hg.live_iff.mp hab.live, hab.ne, ⟨hg.jumps_of_jumps hab.link.jumps,
      mt hg.isExported_iff.mpr hab.link.unexported, ?_, fun x hx hxb ↦ ?_⟩, fun A B hA hB ↦ ?_⟩
    · rw [← hg.entry?_eq]
      exact hab.link.not_entry
    · exact hab.link.only x (hg.live_iff.mpr hx) (hg.leads_iff.mpr hxb)
    · exact hab.handler_eq (A.mapCode _) (B.mapCode _) (hg.block?_eq_some_iff.mpr ⟨A, hA, rfl⟩)
        (hg.block?_eq_some_iff.mpr ⟨B, hB, rfl⟩)

end Merge

private theorem Placement.Reached.renamed {m : Register → Register} (h : Placement.Reached f)
    (hg : Renames m f g) : Placement.Reached g := by
  intro b hb
  rw [hg.contains_eq] at hb
  exact hg.live_iff.mpr (h b hb)

/-! ### Sharing slots -/

namespace Slots

variable {live : Liveness} {r : Register}

private theorem liveness_error {fault : Fault} (h : Liveness.ofFunc f = .error fault) :
    ∃ r b o, fault = .registerReadBeforeWrite r b o := by
  obtain ⟨_, s, r, _, _, _, _, hfault⟩ := Liveness.ofFunc_error h
  exact ⟨r, s.block, s.offset, hfault⟩

/-- Registers that the function names go to slots that are counted. -/
theorem slot_lt_next (hw : f.WF) (hlive : Liveness.ofFunc f = .ok live) (hr : f.Names r) :
    (Assignment.ofFunc f live).slot r < (Assignment.ofFunc f live).next := by
  have hfits := Assignment.ofFunc_fits hlive
  by_cases harg : r < f.argCount
  · rw [Assignment.slot_of_lt_argCount hlive harg]
    exact Nat.lt_of_lt_of_le harg hfits.argCount_le
  · obtain ⟨b, B, i, hB, hi, hmem⟩ := hr
    obtain ⟨n, hn⟩ := List.mem_iff_getElem?.mp hi
    have hsite :=
      hw.getElem?_sites (instrAt?_eq_some_iff.mpr ⟨B, hB, hn⟩ : f.instrAt? ⟨b, n⟩ = some i)
    obtain ⟨p, hp⟩ : ∃ p, accessAt? f.sites p = some r := by
      rw [Instr.registers, List.mem_append, Option.mem_toList, Option.mem_toList] at hmem
      cases hmem with
      | inl hread => exact ⟨_, (accessAt?_read hsite).trans hread⟩
      | inr hwrite => exact ⟨_, (accessAt?_write hsite).trans hwrite⟩
    have hrec := Liveness.ofFunc_records hlive
    obtain ⟨range, hrange, _⟩ := hrec.exists_range (Nat.le_of_not_lt harg) hp
    obtain ⟨s, hs⟩ := (hfits.held r).mpr
      ⟨range, hrange, lt_of_accessAt? (hrec.spans r range hrange).starts⟩
    rw [Assignment.slot, Std.TreeMap.getD_eq_getD_getElem?, hs]
    exact (hfits.slot_bound r s hs).2

/-- If a register moves, so does some instruction that names it. -/
theorem arena_rename_ne (hlive : Liveness.ofFunc f = .ok live)
    (hmoves : (Assignment.ofFunc f live).moves = true)
    (hg : Renames (Assignment.ofFunc f live).slot f g) :
    g.arena ≠ f.arena := by
  intro harena
  rw [Assignment.moves, List.any_eq_true] at hmoves
  obtain ⟨⟨r, s⟩, hmem, hne⟩ := hmoves
  have hs := Std.TreeMap.mem_toList_iff_getElem?_eq_some.mp hmem
  obtain ⟨range, hrange, _⟩ := ((Assignment.ofFunc_fits hlive).held r).mp ⟨s, hs⟩
  have hstarts := ((Liveness.ofFunc_records hlive).spans r range hrange).starts
  have hsites : g.sites = f.sites := by
    simp only [sites, blocks, block?, hg.layout, harena]
  have hfixed := hg.accessAt?_eq range.start
  rw [hsites, hstarts, Option.map_some, Option.some.injEq, Assignment.slot,
    Std.TreeMap.getD_eq_getD_getElem?, hs, Option.getD_some] at hfixed
  simp [hfixed] at hne

/-- The pass renames registers by their slots, if it does anything. -/
theorem yields_renamed (hf : f.Sound) (hasked : settings.reduceRegisters = true) :
    (run settings).Yields f (fun changed g es ↦ Accounted settings f changed g es ∧
      (changed = true → ∃ live, obstacle? f = .ok none ∧ Liveness.ofFunc f = .ok live ∧
        g = rename (Assignment.ofFunc f live).slot
          (max (Assignment.ofFunc f live).next settings.minRegisters) f ∧
        (g.arena ≠ f.arena ∨ g.registerCount ≠ f.registerCount)))
      fun fault ↦ ∃ r b o, fault = .registerReadBeforeWrite r b o := by
  rw [run, yields_bind, yields_current, yields_bind, yields_ofExcept]
  refine ⟨fun reason hreason ↦ ?_, fun fault hfault ↦ ?_⟩
  rotate_left
  · obtain ⟨reason, hreason⟩ := exists_obstacle hf.intact
    rw [hreason] at hfault
    contradiction
  cases reason with
  | some reason =>
    simp only [yields_bind, yields_record, yields_pure]
    exact ⟨accounted_quiet settings f (by simp [EventKind.isTransformation]), by simp⟩
  | none =>
    simp only [reduce]
    rw [yields_bind, yields_current, yields_bind, yields_ofExcept]
    refine ⟨fun live hlive ↦ ?_, fun fault hfault ↦ liveness_error hfault⟩
    split
    · rw [yields_pure]
      exact ⟨accounted_quiet settings f (by simp), by simp⟩
    · next hchanged =>
      simp only [yields_bind, yields_update, yields_record, yields_pure]
      refine ⟨⟨.single (.rename hasked fun r hr ↦ ?_), rfl, by simp,
        by simp [Event.ListsAbsorbed]⟩, fun _ ↦ ⟨live, hreason, hlive, rfl, ?_⟩⟩
      · exact Nat.lt_of_lt_of_le (slot_lt_next hf.wf hlive hr) (Nat.le_max_left _ _)
      · rw [Bool.and_eq_true, not_and_or] at hchanged
        cases hchanged with
        | inl hmoves =>
          exact .inl (arena_rename_ne hlive (by simpa using hmoves) (renames_rename _ _ f))
        | inr hcount => exact .inr fun he ↦ hcount (decide_eq_true he.symm)

/-- Another run, if there is one, does nothing. -/
def Steady (settings : Settings) (f : Func) : Prop :=
  isWorthwhile settings f = true → (run settings f).result = .ok false

/-- The pass leaves a function that it would not change again. -/
theorem yields_run (hf : f.Sound) (hasked : settings.reduceRegisters = true) :
    (run settings).Yields f (fun changed g es ↦ Accounted settings f changed g es ∧
      (changed = true → g.arena ≠ f.arena ∨ g.registerCount ≠ f.registerCount) ∧
      (∃ m, Renames m f g) ∧ (run settings g).result = .ok false ∧
      ((run settings f).result = .ok false → changed = false))
      fun fault ↦ (∃ r b o, fault = .registerReadBeforeWrite r b o) ∧
        (run settings f).result ≠ .ok false := by
  apply (yields_renamed hf hasked).with_result.mono
  · rintro changed g es ⟨⟨haccounted, hrenamed⟩, hresult⟩
    have hback (h : (run settings f).result = .ok false) : changed = false := by
      rw [hresult, Except.ok.injEq] at h
      exact h
    cases changed with
    | false =>
      obtain rfl := haccounted.rest rfl
      exact ⟨haccounted, by simp, ⟨id, .refl g⟩, hresult, hback⟩
    | true =>
      obtain ⟨live, hobstacle, hlive, rfl, hapart⟩ := hrenamed rfl
      exact ⟨haccounted, fun _ ↦ hapart, ⟨_, renames_rename _ _ f⟩,
        run_rename_result settings hobstacle hlive, hback⟩
  · rintro fault ⟨hfault, hresult⟩
    refine ⟨hfault, ?_⟩
    simp [hresult]

end Slots

/-! ### The run as a whole -/

namespace Optimizer

variable {pass : Pass} {Q : Bool → Func → List Event → Prop}

private theorem yields_onlyIf {asked : Bool} {step : Transform Bool}
    (hrun : asked = true → step.Yields f Q E)
    (hskip : asked = false → Q false f []) : (onlyIf asked step).Yields f Q E := by
  rw [onlyIf]
  split
  · next hasked => exact hrun hasked
  · next hasked => exact hskip (by simpa using hasked)

/-- A pass is noted before and after, or it is noted that it did not run. -/
theorem yields_runPass (hquiet : ∀ changed g es before after, Q changed g es →
      (∀ e ∈ before, e.kind.isTransformation = false) →
      (∀ e ∈ after, e.kind.isTransformation = false) → Q changed g (before ++ es ++ after))
    (hrun : pass.applies settings f = true → (pass.run settings).Yields f Q E)
    (hskip : pass.applies settings f = false → Q false f []) :
    (runPass settings pass).Yields f Q E := by
  rw [runPass, yields_bind, yields_current]
  split
  · next happlies =>
    rw [yields_bind, yields_record, yields_bind]
    apply (hrun happlies).imp
    intro changed g es hQ
    rw [yields_bind, yields_record, yields_pure, List.nil_append, List.append_nil,
      ← List.append_assoc]
    apply hquiet changed g es _ _ hQ <;> simp [EventKind.isTransformation]
  · next happlies =>
    rw [yields_bind, yields_record, yields_pure, List.nil_append, ← List.append_nil (_ ++ [])]
    apply hquiet false f [] _ _ (hskip (by simpa using happlies)) <;>
      simp [EventKind.isTransformation]

private theorem yields_checkCurrent {Q : Option Nat → Func → List Event → Prop} :
    (checkCurrent settings).Yields f Q E ↔
      (∀ depth, checkResult settings f = .ok depth → Q depth f []) ∧
        ∀ fault, checkResult settings f = .error fault → E fault := by
  rw [checkCurrent, yields_bind, yields_current, yields_ofExcept]
  rfl

private theorem yields_recordLoops (loops : List NaturalLoop) :
    (recordLoops loops).Yields f
      (fun _ g es ↦ g = f ∧ ∀ e ∈ es, e.kind.isTransformation = false) E := by
  induction loops with
  | nil =>
    rw [recordLoops, yields_pure]
    exact ⟨rfl, by simp⟩
  | cons loop loops ih =>
    rw [recordLoops, yields_bind, recordLoop, yields_record]
    apply ih.imp
    rintro _ g es ⟨rfl, hquiet⟩
    refine ⟨rfl, fun e he ↦ ?_⟩
    rcases List.mem_cons.mp he with rfl | he
    · rfl
    · exact hquiet e he

private theorem yields_detectLoops (hf : f.Sound) (asked : Bool) :
    (detectLoops asked).Yields f
      (fun _ g es ↦ g = f ∧ ∀ e ∈ es, e.kind.isTransformation = false) E := by
  rw [detectLoops]
  split
  · obtain ⟨c, hc⟩ := FlowGraph.exists_ofFunc hf.intact
    rw [yields_bind, yields_current, yields_bind, yields_ofExcept_of_ok hc, yields_bind]
    apply (yields_recordLoops _).imp
    rintro _ g es ⟨rfl, hquiet⟩
    rw [yields_pure]
    exact ⟨rfl, by simpa using hquiet⟩
  · rw [yields_pure]
    exact ⟨rfl, by simp⟩

/-- The pass over blocks that can be merged would not run, or finds nothing to do. -/
def Compact (settings : Settings) (f : Func) : Prop :=
  f.blockCount ≤ 1 ∨ Merge.Merged f ∧ 0 < settings.maxMergeRounds

/-- No pass that the settings ask for finds anything to do. -/
structure Rested (settings : Settings) (f : Func) : Prop where
  needed : settings.simplifyHandlers = true → Handlers.Needed f
  compact : settings.mergeBlocks = true → Compact settings f
  reached : settings.placeBlocks = true → Placement.Reached f
  steady : settings.reduceRegisters = true → Slots.Steady settings f

private theorem yields_handlers (hf : f.Sound) :
    (onlyIf settings.simplifyHandlers (runPass settings .handlers)).Yields f
      (fun changed g es ↦ Recorded settings f changed g es ∧
        (settings.simplifyHandlers = true → Handlers.Needed g) ∧
        ((settings.simplifyHandlers = true → Handlers.Needed f) → changed = false)) E := by
  apply yields_onlyIf
  · intro hasked
    apply yields_runPass
    · rintro changed g es before after ⟨hrecorded, hrest⟩ hbefore hafter
      exact ⟨hrecorded.quiet hbefore hafter, hrest⟩
    · intro _
      apply (Handlers.yields_run hf hasked).imp
      rintro changed g es ⟨hrecorded, hneeded, hnone⟩
      exact ⟨hrecorded, fun _ ↦ hneeded, fun h ↦ hnone (h hasked)⟩
    · intro hskip
      contradiction
  · intro hasked
    exact ⟨.refl settings f, by simp [hasked], fun _ ↦ rfl⟩

private theorem yields_merge (hf : f.Sound) :
    (onlyIf settings.mergeBlocks (mergeChecked settings)).Yields f
      (fun changed g es ↦ Recorded settings f changed g es ∧
        (settings.mergeBlocks = true → Compact settings g) ∧
        ((settings.mergeBlocks = true → Compact settings f) → changed = false))
      (fun fault ↦
        (settings.mergeBlocks = true ∧ ¬Compact settings f ∧ settings.maxMergeRounds < 3 ∧
          ∃ name, fault = .mergeUnfinished settings.maxMergeRounds name) ∨
        ∃ l g, Edits settings f l g ∧
          ((settings.mergeBlocks = true → Compact settings f) → g = f) ∧
          checkResult settings g = .error fault) := by
  apply yields_onlyIf
  · intro hasked
    rw [mergeChecked, yields_bind]
    refine Yields.imp (Q := fun changed g es ↦ Recorded settings f changed g es ∧
      Compact settings g ∧ (Compact settings f → changed = false)) ?_ ?_
    · apply yields_runPass
      · rintro changed g es before after ⟨hrecorded, hrest⟩ hbefore hafter
        exact ⟨hrecorded.quiet hbefore hafter, hrest⟩
      · intro happlies
        have hcount : 1 < f.blockCount := of_decide_eq_true happlies
        apply (Merge.yields_run hf hasked).mono
        · rintro changed g es ⟨hrecorded, hmerged, hnone, hrounds⟩
          refine ⟨hrecorded, .inr ⟨hmerged, hrounds⟩, fun hcompact ↦ ?_⟩
          rcases hcompact with hle | ⟨hrest, _⟩
          · omega
          · exact hnone hrest
        · rintro fault ⟨hfault, hlt, hrounds⟩
          refine .inl ⟨hasked, fun hcompact ↦ ?_, hlt, hfault⟩
          rcases hcompact with hle | ⟨hrest, hpos⟩
          · omega
          · have := hrounds hrest
            omega
      · intro hskip
        have hcount : f.blockCount ≤ 1 := Nat.le_of_not_lt (of_decide_eq_false hskip)
        exact ⟨.refl settings f, .inl hcount, fun _ ↦ rfl⟩
    · rintro changed g es ⟨hrecorded, hcompact, hnone⟩
      rw [yields_bind, yields_checkCurrent]
      refine ⟨fun depth _ ↦ ?_, fun fault hfault ↦ .inr ⟨_, g, hrecorded.edits, ?_, hfault⟩⟩
      · rw [yields_pure, List.append_nil, List.append_nil]
        exact ⟨hrecorded, fun _ ↦ hcompact, fun h ↦ hnone (h hasked)⟩
      · exact fun h ↦ hrecorded.rest (hnone (h hasked))
  · intro hasked
    exact ⟨.refl settings f, by simp [hasked], fun _ ↦ rfl⟩

private theorem yields_placement (hf : f.Sound) :
    (onlyIf settings.placeBlocks (runPass settings .placement)).Yields f
      (fun changed g es ↦ Recorded settings f changed g es ∧ (g = f ∨ Placement.Pruned f g) ∧
        (settings.placeBlocks = true → Placement.Reached g) ∧
        ((settings.placeBlocks = true → Placement.Reached f) → changed = false)) E := by
  apply yields_onlyIf
  · intro hasked
    apply yields_runPass
    · rintro changed g es before after ⟨hrecorded, hrest⟩ hbefore hafter
      exact ⟨hrecorded.quiet hbefore hafter, hrest⟩
    · intro _
      apply (Placement.yields_run hf hasked).imp
      rintro changed g es ⟨hrecorded, hpruned, hreached, hnone⟩
      exact ⟨hrecorded, .inr hpruned, fun _ ↦ hreached, fun h ↦ hnone (h hasked)⟩
    · intro hskip
      contradiction
  · intro hasked
    exact ⟨.refl settings f, .inl rfl, by simp [hasked], fun _ ↦ rfl⟩

private theorem yields_slots (hf : f.Sound) :
    (onlyIf settings.reduceRegisters (runPass settings .slots)).Yields f
      (fun changed g es ↦ Accounted settings f changed g es ∧
        (changed = true → g.arena ≠ f.arena ∨ g.registerCount ≠ f.registerCount) ∧
        (∃ m, Renames m f g) ∧ (settings.reduceRegisters = true → Slots.Steady settings g) ∧
        ((settings.reduceRegisters = true → Slots.Steady settings f) → changed = false))
      (fun fault ↦ settings.reduceRegisters = true ∧ ¬Slots.Steady settings f ∧
        ∃ r b o, fault = .registerReadBeforeWrite r b o) := by
  apply yields_onlyIf
  · intro hasked
    apply yields_runPass
    · rintro changed g es before after ⟨haccounted, hrest⟩ hbefore hafter
      exact ⟨haccounted.quiet hbefore hafter, hrest⟩
    · intro happlies
      apply (Slots.yields_run hf hasked).mono
      · rintro changed g es ⟨haccounted, hapart, hrenames, hagain, hnone⟩
        exact ⟨haccounted, hapart, hrenames, fun _ _ ↦ hagain, fun h ↦ hnone (h hasked happlies)⟩
      · rintro fault ⟨hfault, hresult⟩
        exact ⟨hasked, fun hsteady ↦ hresult (hsteady happlies), hfault⟩
    · intro hskip
      have hsteady : Slots.Steady settings f := by
        intro hworth
        have := hworth.symm.trans hskip
        contradiction
      exact ⟨accounted_quiet settings f (by simp), by simp, ⟨id, .refl f⟩, fun _ ↦ hsteady,
        fun _ ↦ rfl⟩
  · intro hasked
    exact ⟨accounted_quiet settings f (by simp), by simp, ⟨id, .refl f⟩, by simp [hasked],
      fun _ ↦ rfl⟩

private theorem Compact.pruned (h : Compact settings f) (hf : f.Sound)
    (hg : g = f ∨ Placement.Pruned f g) : Compact settings g := by
  rcases hg with rfl | hg
  · exact h
  refine h.imp (fun hle ↦ ?_) fun hmerged ↦ ⟨hmerged.1.pruned hf hg, hmerged.2⟩
  exact (hg.layout_sublist hf).length_le.trans hle

private theorem Compact.renamed {m : Register → Register} (h : Compact settings f)
    (hg : Renames m f g) : Compact settings g := by
  refine h.imp (fun hle ↦ ?_) fun hmerged ↦ ⟨hmerged.1.renamed hg, hmerged.2⟩
  rwa [blockCount, hg.layout]

/-- The ways in which a run can fail. -/
inductive Breaks (settings : Settings) (f : Func) (fault : Fault) : Prop
  /-- The function that is handed in has a fault. -/
  | input : checkInput settings f = .error fault → Breaks settings f fault
  /-- Merging ran out of rounds. -/
  | rounds {name : String} : settings.mergeBlocks = true → ¬Rested settings f →
      settings.maxMergeRounds < 3 → fault = .mergeUnfinished settings.maxMergeRounds name →
      Breaks settings f fault
  /-- The passes have produced a function with a fault. -/
  | result {l : List BlockId} {g : Func} : Edits settings f l g → (Rested settings f → g = f) →
      checkResult settings g = .error fault → Breaks settings f fault
  /-- A register is read before anything in the layout has written it. -/
  | registers {r : Register} {b : BlockId} {offset : Nat} : settings.reduceRegisters = true →
      ¬Rested settings f → fault = .registerReadBeforeWrite r b offset → Breaks settings f fault

/-- What is known of a run that comes to its end. -/
structure Completed (settings : Settings) (f : Func) (report : Report) (g : Func)
    (es : List Event) : Prop where
  accounted : Accounted settings f report.changed g es
  apart : report.changed = true → g.arena ≠ f.arena ∨ g.registerCount ≠ f.registerCount
  rested : Rested settings g
  checked : checkResult settings g = .ok report.maxStackDepth
  registerCount : report.registerCount = g.registerCount
  blocksAfter : report.blocksAfter = g.blockCount
  unchanged : Rested settings f → report.changed = false

/-- A run of all passes comes to its end as described, or breaks in one of the known ways. -/
theorem yields_transform (hf : f.Sound) :
    (transform settings).Yields f (Completed settings f) (Breaks settings f) := by
  rw [transform, yields_bind, yields_current, yields_bind, yields_ofExcept]
  refine ⟨fun _ _ ↦ ?_, fun fault hfault ↦ .input hfault⟩
  rw [yields_bind]
  apply (yields_handlers hf).imp
  rintro first g₁ es₁ ⟨hrec₁, hneeded₁, hnone₁⟩
  have hf₁ := hrec₁.edits.sound hf
  have hrest₁ (h : Rested settings f) : g₁ = f := hrec₁.rest (hnone₁ h.needed)
  rw [yields_bind]
  apply (yields_merge hf₁).mono
  rotate_left
  · rintro fault (⟨hasked, hnot, hlt, name, hfault⟩ | ⟨l, g, hedits, hrest, hfault⟩)
    · exact .rounds hasked (fun h ↦ hnot (hrest₁ h ▸ h.compact hasked)) hlt hfault
    · exact .result (hrec₁.edits.trans hedits)
        (fun h ↦ (hrest (hrest₁ h ▸ h.compact)).trans (hrest₁ h)) hfault
  rintro merged g₂ es₂ ⟨hrec₂, hcompact₂, hnone₂⟩
  have hrec₂' := hrec₁.trans hf hrec₂
  have hf₂ := hrec₂.edits.sound hf₁
  have hrest₂ (h : Rested settings f) : g₂ = f :=
    (hrec₂.rest (hnone₂ (hrest₁ h ▸ h.compact))).trans (hrest₁ h)
  rw [yields_bind]
  apply (yields_handlers hf₂).imp
  rintro second g₃ es₃ ⟨hrec₃, hneeded₃, hnone₃⟩
  -- Whatever handlers were needed before merging are so after it.
  have hsecond : second = false := hnone₃ fun hasked ↦
    Handlers.needed_of_descends (hneeded₁ hasked) (hrec₂.edits.descends hf₁)
  have hrec₃' := hrec₂'.trans hf hrec₃
  obtain rfl := hrec₃.rest hsecond
  rw [yields_bind]
  apply (yields_placement hf₂).imp
  rintro placed g₄ es₄ ⟨hrec₄, hpruned₄, hreached₄, hnone₄⟩
  have hrec₄' := hrec₃'.trans hf hrec₄
  have hf₄ := hrec₄.edits.sound hf₂
  have hplaced (h : Rested settings f) : placed = false := hnone₄ (hrest₂ h ▸ h.reached)
  have hrest₄ (h : Rested settings f) : g₄ = f := (hrec₄.rest (hplaced h)).trans (hrest₂ h)
  rw [yields_bind]
  apply (yields_detectLoops hf₄ settings.findLoops).imp
  rintro ⟨edges, loops⟩ _ esLoops ⟨hsame, hquiet⟩
  rw [hsame, yields_bind]
  apply (yields_slots hf₄).mono
  rotate_left
  · rintro fault ⟨hasked, hnot, r, b, offset, hfault⟩
    exact .registers hasked (fun h ↦ hnot (hrest₄ h ▸ h.steady hasked)) hfault
  rintro reduced g₅ es₅ ⟨hacc₅, hapart₅, ⟨m, hrenames₅⟩, hsteady₅, hnone₅⟩
  have hreduced (h : Rested settings f) : reduced = false := hnone₅ (hrest₄ h ▸ h.steady)
  have hacc := (hrec₄'.toAccounted.trans (accounted_quiet settings g₄ hquiet)).trans hacc₅
  rw [Bool.or_false] at hacc
  rw [yields_bind, yields_checkCurrent]
  refine ⟨fun depth hdepth ↦ ?_, fun fault hfault ↦ .result hacc.edits (fun h ↦ ?_) hfault⟩
  rotate_left
  · rw [hacc₅.rest (hreduced h), hrest₄ h]
  rw [yields_bind, yields_current, yields_pure]
  refine ⟨?_, fun hchanged ↦ ?_, ⟨?_, ?_, ?_, hsteady₅⟩, hdepth, rfl, rfl, fun h ↦ ?_⟩
  · simpa only [List.nil_append, List.append_nil, List.append_assoc] using hacc
  · exact hrec₄'.apart hf₄ hacc₅.edits hapart₅ hchanged
  · intro hasked
    have hneeded₄ := Handlers.needed_of_descends (hneeded₃ hasked) (hrec₄.edits.descends hf₂)
    exact Handlers.needed_of_descends hneeded₄ (hacc₅.edits.descends hf₄)
  · intro hasked
    exact ((hcompact₂ hasked).pruned hf₂ hpruned₄).renamed hrenames₅
  · exact fun hasked ↦ (hreached₄ hasked).renamed hrenames₅
  · have hfirst := hnone₁ h.needed
    have hmerged := hnone₂ (hrest₁ h ▸ h.compact)
    simp [hfirst, hmerged, hsecond, hplaced h, hreduced h]

end Optimizer

end Bytecode
