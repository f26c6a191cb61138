import Bytecode.Optimize.Trampolines
import Bytecode.Proofs.Behaviour.Trace
import Bytecode.Proofs.Merge.Forwarding
import Bytecode.Proofs.Optimize.Ensures

/-!
# Removing trampolines keeps the behaviour

A spot from which nothing but jumps lead to a block shows what that block shows. So a trampoline
may be bypassed: every spot is matched with its redirected copy, and a spot on the way through the
trampoline with its target. While trampolines go one by one, the jumps of those that are left still
lead where they led at first, possibly by a shorter way.
-/

namespace Bytecode

/-- The spot with every reference to one block sent to another. -/
def Spot.redirect (old new : BlockId) : Spot → Spot
  | entering b => entering (retarget old new b)
  | within h code => within (h.map (retarget old new)) (code.map (Instr.redirect old new))
  | outside => outside

private theorem Spot.redirect_arrive (old new : BlockId) (h : Option BlockId) :
    (arrive h).redirect old new = arrive (h.map (retarget old new)) := by
  cases h <;> rfl

namespace Func

variable {f g : Func} {t T b x : BlockId} {s s' u u' : Spot} {ms : List Mark}

/-- Take a block out and let another one stand for it. -/
def bypass (f : Func) (t T : BlockId) : Func := (f.redirect t T).removeBlock t

/-- Nothing but jumps lead from a spot to the start of a block. -/
inductive Glides (f : Func) (T : BlockId) : Spot → Prop
  | there : Glides f T (.entering T)
  | enter {b : BlockId} {B : Block} : f.block? b = some B →
      Glides f T (.within B.handler B.code) → Glides f T (.entering b)
  | jump {h : Option BlockId} {b : BlockId} : Glides f T (.entering b) →
      Glides f T (.within h [.jump b])

private theorem Glides.runs (h : f.Glides T s) : f.Runs s [] (.entering T) := by
  induction h with
  | there => exact .refl
  | enter hB _ ih => exact .step (.enter hB) ih
  | jump _ ih => exact .step (.transfer .jump) ih

/-- A step of a gliding spot is silent and goes on gliding. -/
theorem Glides.step (h : f.Glides T s) (hs : s ≠ .entering T) (hstep : f.Step s ms s') :
    ms = [] ∧ f.Glides T s' := by
  cases h with
  | there => exact absurd rfl hs
  | enter hB hglide =>
    obtain ⟨B', hB', rfl, rfl⟩ := step_entering_iff.mp hstep
    obtain rfl := Option.some.inj (hB.symm.trans hB')
    exact ⟨rfl, hglide⟩
  | jump hglide =>
    rcases step_within_iff.mp hstep with ⟨hi, _⟩ | ⟨hi, _⟩ | ⟨c, htr, rfl⟩ | ⟨hi, _⟩ | ⟨hi, _⟩
    · exact Bool.noConfusion hi
    · exact Bool.noConfusion hi
    · cases htr
      exact ⟨rfl, hglide⟩
    · contradiction
    · contradiction

/-! ### References to the bypassed block -/

/-- A bypassed block is gone, and the others are redirected to its target. -/
theorem block?_bypass (f : Func) (t T b : BlockId) :
    (f.bypass t T).block? b = if b = t then none else (f.block? b).map (Block.redirect t T) := by
  rw [bypass, block?_removeBlock, block?_redirect]

/-- The blocks left by a bypass are the others, redirected. -/
theorem block?_bypass_eq_some_iff {B : Block} :
    (f.bypass t T).block? b = some B ↔
      b ≠ t ∧ ∃ B', f.block? b = some B' ∧ B'.redirect t T = B := by
  rw [block?_bypass]
  by_cases hb : b = t <;> simp [hb]

/-- A bypass redirects every table. -/
theorem table?_bypass (f : Func) (t T : BlockId) (k : ConstIndex) :
    (f.bypass t T).table? k = (f.table? k).map (JumpTable.redirect t T) := by
  rw [bypass, table?_removeBlock, table?_redirect]

private theorem Transfer.bypass {i : Instr} (h : f.Transfer i ms b) :
    (f.bypass t T).Transfer (i.redirect t T) ms (retarget t T b) := by
  cases h with
  | jump => exact .jump
  | ifTrue => exact .ifTrue
  | ifFalse => exact .ifFalse
  | @table k table d disc hT =>
    have htable : (f.bypass t T).table? k = some (table.redirect t T) := by
      rw [table?_bypass, hT, Option.map_some]
    have htr := Transfer.table (b := retarget t T d) disc htable
    rw [JumpTable.get?_redirect, Option.getD_map] at htr
    exact htr

private theorem Transfer.of_bypass {i : Instr}
    (h : (f.bypass t T).Transfer (i.redirect t T) ms x) :
    ∃ b, f.Transfer i ms b ∧ x = retarget t T b := by
  cases i with
  | jump b =>
    cases h
    exact ⟨b, .jump, rfl⟩
  | branch a b =>
    cases h with
    | ifTrue => exact ⟨a, .ifTrue, rfl⟩
    | ifFalse => exact ⟨b, .ifFalse, rfl⟩
  | jumpTable k d =>
    cases h with
    | table disc hT =>
      rw [table?_bypass, Option.map_eq_some_iff] at hT
      obtain ⟨table, htable, rfl⟩ := hT
      refine ⟨_, .table disc htable, ?_⟩
      rw [JumpTable.get?_redirect, Option.getD_map]
  | _ => cases h

/-! ### Matching spots -/

/-- Spots of the function and of the one in which `T` stands for `t`: redirected copies, and spots
that glide to `T` with the start of `T`. -/
inductive Bypassed (f : Func) (t T : BlockId) : Spot → Spot → Prop
  | copy {s : Spot} : Bypassed f t T s (s.redirect t T)
  | glide {s : Spot} : f.Glides T s → Bypassed f t T s (.entering T)

private theorem within_bypass (hf : f.Sound) {B : Block} (hB : f.block? b = some B) :
    Spot.within (B.redirect t T).handler (B.redirect t T).code =
      (Spot.within B.handler B.code).redirect t T := by
  obtain ⟨body, i, hshape⟩ := hf.shape b B hB
  rw [hshape.code_redirect_eq_map, Block.handler_redirect, Spot.redirect]

section

variable (hf : f.Sound) (hglide : f.Glides T (.entering t)) (hne : T ≠ t)

include hf hglide hne

private theorem step_copy (hstep : f.Step s ms s') :
    ∃ u', (f.bypass t T).Runs (s.redirect t T) ms u' ∧ Bypassed f t T s' u' := by
  cases hstep with
  | @enter b B hB =>
    by_cases hb : b = t
    · -- The trampoline itself: stay at its target while the run glides there.
      subst hb
      have hs : (Spot.entering b).redirect b T = .entering T := by simp [Spot.redirect, retarget]
      have hb : Spot.entering b ≠ .entering T := fun h ↦ hne (Spot.entering.inj h).symm
      exact ⟨_, hs ▸ .refl, .glide (hglide.step hb (.enter hB)).2⟩
    · have hB' : (f.bypass t T).block? b = some (B.redirect t T) :=
        block?_bypass_eq_some_iff.mpr ⟨hb, B, hB, rfl⟩
      have hs : (Spot.entering b).redirect t T = .entering b := by
        simp [Spot.redirect, retarget, hb]
      rw [hs]
      refine ⟨_, .single (.enter hB'), ?_⟩
      rw [within_bypass hf hB]
      exact .copy
  | plain hi =>
    have hi' := Instr.redirect_of_plain hi t T
    refine ⟨_, .single ?_, .copy⟩
    simp only [Spot.redirect, List.map_cons, hi']
    exact .plain hi
  | raised hi ht =>
    have hi' := Instr.redirect_of_plain hi t T
    refine ⟨_, .single ?_, .copy⟩
    rw [Spot.redirect_arrive]
    simp only [Spot.redirect, List.map_cons, hi']
    exact .raised hi ht
  | transfer htr => exact ⟨_, .single (.transfer htr.bypass), .copy⟩
  | returned => exact ⟨_, .single .returned, .copy⟩
  | thrown =>
    refine ⟨_, .single ?_, .copy⟩
    rw [Spot.redirect_arrive]
    exact .thrown

private theorem simulates_bypass : Simulates f (f.bypass t T) (Bypassed f t T) where
  step s u ms s' hR hstep := by
    cases hR with
    | copy => exact step_copy hf hglide hne hstep
    | glide hs =>
      by_cases hT : s = .entering T
      · subst hT
        have hs' : (Spot.entering T).redirect t T = .entering T := by
          simp [Spot.redirect, retarget, hne]
        rw [← hs']
        exact step_copy hf hglide hne hstep
      · obtain ⟨rfl, hglide'⟩ := hs.step hT hstep
        exact ⟨_, .refl, .glide hglide'⟩
  outside u hR := by
    cases hR with
    | copy => rfl
    | glide hs => cases hs

omit hglide hne in
-- A step from the start of a block that is still there has its counterpart.
private theorem step_back_entering (hstep : (f.bypass t T).Step (.entering b) ms u') :
    ∃ s', f.Runs (.entering b) ms s' ∧ Bypassed f t T s' u' := by
  obtain ⟨B', hB', rfl, rfl⟩ := step_entering_iff.mp hstep
  obtain ⟨_, B, hB, rfl⟩ := block?_bypass_eq_some_iff.mp hB'
  refine ⟨_, .single (.enter hB), ?_⟩
  rw [within_bypass hf hB]
  exact .copy

private theorem simulates_bypass_back :
    Simulates (f.bypass t T) f fun u s ↦ Bypassed f t T s u where
  step u s ms u' hR hstep := by
    cases hR with
    | copy =>
      cases s with
      | entering b =>
        by_cases hb : b = t
        · subst hb
          simp only [Spot.redirect, retarget, ↓reduceIte] at hstep
          obtain ⟨s', hrun, hR⟩ := step_back_entering hf hstep
          exact ⟨s', hglide.runs.silent hrun, hR⟩
        · simp only [Spot.redirect, retarget, hb, ↓reduceIte] at hstep
          exact step_back_entering hf hstep
      | within h code =>
        cases code with
        | nil => cases hstep
        | cons i rest =>
          simp only [Spot.redirect, List.map_cons] at hstep
          rcases step_within_iff.mp hstep with ⟨hi, rfl, rfl⟩ | ⟨hi, ht, rfl, rfl⟩ |
            ⟨c, htr, rfl⟩ | ⟨hi, rfl, rfl⟩ | ⟨hi, rfl, rfl⟩
          · rw [Instr.isTerminator_redirect] at hi
            rw [Instr.redirect_of_plain hi]
            exact ⟨_, .single (.plain hi), .copy⟩
          · rw [Instr.isTerminator_redirect] at hi
            rw [Instr.canThrow_redirect] at ht
            refine ⟨_, .single (.raised hi ht), ?_⟩
            rw [← Spot.redirect_arrive]
            exact .copy
          · obtain ⟨b, htr', rfl⟩ := htr.of_bypass
            exact ⟨_, .single (.transfer htr'), .copy⟩
          · obtain rfl := Instr.redirect_eq_ret_iff.mp hi
            exact ⟨_, .single .returned, .copy⟩
          · obtain rfl := Instr.redirect_eq_raise_iff.mp hi
            refine ⟨_, .single .thrown, ?_⟩
            rw [← Spot.redirect_arrive]
            exact .copy
      | outside => cases hstep
    | glide hs =>
      obtain ⟨s', hrun, hR⟩ := step_back_entering hf hstep
      exact ⟨s', hs.runs.silent hrun, hR⟩
  outside s hR := by
    generalize hu : Spot.outside = u at hR
    cases hR with
    | copy => cases s <;> simp [Spot.redirect] at hu ⊢
    | glide hs => contradiction

end

/-! ### One trampoline -/

/-- A block is there after a bypass exactly if it was and is another one. -/
theorem contains_bypass :
    (f.bypass t T).contains b = true ↔ b ≠ t ∧ f.contains b = true := by
  rw [bypass, contains_removeBlock, contains_redirect]

private theorem leads_bypass {a : BlockId} (h : (f.bypass t T).Leads a b) :
    ∃ x, f.Leads a x ∧ b = retarget t T x := by
  have ha := (contains_bypass.mp (contains_of_leads h)).1
  obtain ⟨ts, hts, hb⟩ := h
  rw [bypass, successors_removeBlock ha, successors_redirect] at hts
  cases hs : f.successors a with
  | error fault => simp [hs, Except.map] at hts
  | ok us =>
    simp only [hs, Except.map, Except.ok.injEq] at hts
    subst hts
    obtain ⟨x, hx, rfl⟩ := List.mem_map.mp hb
    exact ⟨x, ⟨us, hs, hx⟩, rfl⟩

/-- Bypassing a block that is not exported keeps the exports. -/
theorem isExported_bypass (ht : ¬f.IsExported t) (h : f.IsExported b) :
    (f.bypass t T).IsExported b := by
  obtain ⟨B, hB, hexp⟩ := h
  have hb : b ≠ t := by
    rintro rfl
    exact ht ⟨B, hB, hexp⟩
  exact ⟨B.redirect t T, block?_bypass_eq_some_iff.mpr ⟨hb, B, hB, rfl⟩, by simpa using hexp⟩

private theorem retarget_of_isExported (ht : ¬f.IsExported t) (h : f.IsExported b) :
    retarget t T b = b := by
  have hb : b ≠ t := by
    rintro rfl
    exact ht h
  rw [retarget, if_neg hb]

section

variable (hf : f.Sound) (hT : f.contains T = true) (hne : T ≠ t) (ht : ¬f.IsExported t)

include hf hT hne ht

/-- Bypassing a block that is not exported keeps the function sound. -/
theorem Sound.bypass (hlt : f.contains t = true) : (f.bypass t T).Sound where
  wf := (hf.wf.redirect t T).removeBlock t
  nonempty := by
    have hmem := (((hf.wf.redirect t T).removeBlock t).mem_layout T).mpr
      (contains_bypass.mpr ⟨hne, hT⟩)
    exact List.ne_nil_of_mem hmem
  shape b B hB := by
    obtain ⟨_, B', hB', rfl⟩ := block?_bypass_eq_some_iff.mp hB
    obtain ⟨body, i, hshape⟩ := hf.shape b B' hB'
    exact ⟨body, _, hshape.redirect t T⟩
  successors b hb := by
    obtain ⟨hne, hb'⟩ := contains_bypass.mp hb
    obtain ⟨ts, hts⟩ := hf.successors b hb'
    refine ⟨ts.map (retarget t T), ?_⟩
    rw [Func.bypass, successors_removeBlock hne, successors_redirect, hts]
    rfl
  leads a b hab := by
    obtain ⟨x, hx, rfl⟩ := leads_bypass hab
    rw [contains_bypass]
    by_cases hxt : x = t
    · simpa [retarget, hxt] using ⟨hne, hT⟩
    · simpa [retarget, hxt] using hf.leads a x hx
  handler_exported b B h hB hh := by
    obtain ⟨_, B', hB', rfl⟩ := block?_bypass_eq_some_iff.mp hB
    rw [Block.handler_redirect, Option.map_eq_some_iff] at hh
    obtain ⟨h', hh', rfl⟩ := hh
    have hexp := hf.handler_exported b B' h' hB' hh'
    rw [retarget_of_isExported ht hexp]
    exact isExported_bypass ht hexp
  table_exported k table x htable hx hlive := by
    rw [table?_bypass, Option.map_eq_some_iff] at htable
    obtain ⟨table', htable', rfl⟩ := htable
    rw [JumpTable.redirect, JumpTable.targets_mapTargets, List.mem_map] at hx
    obtain ⟨y, hy, rfl⟩ := hx
    have hlive' : f.contains y = true := by
      by_cases hyt : y = t
      · rwa [hyt]
      · simpa [retarget, hyt] using (contains_bypass.mp hlive).2
    have hexp := hf.table_exported k table' y htable' hy hlive'
    rw [retarget_of_isExported ht hexp]
    exact isExported_bypass ht hexp

/-- Bypassing a block from which jumps lead to the one that stands for it keeps the behaviour. -/
theorem preserves_bypass (hglide : f.Glides T (.entering t)) : Preserves f (f.bypass t T) := by
  have hsame (b : BlockId) : SameBehaviour f b (f.bypass t T) (retarget t T b) :=
    sameBehaviour_of_simulates (simulates_bypass hf hglide hne)
      (simulates_bypass_back hf hglide hne) .copy
  constructor
  · intro e he
    refine ⟨retarget t T e, ?_, hsame e⟩
    apply (hf.wf.redirect t T).entry?_removeBlock (hf.wf.entry?_redirect he hT t)
    by_cases het : e = t
    · rw [retarget, if_pos het]
      exact hne
    · rw [retarget, if_neg het]
      exact het
  · intro b hb
    refine ⟨isExported_bypass ht hb, ?_⟩
    have hb' := hsame b
    rwa [retarget_of_isExported ht hb] at hb'

end

end Func

/-! ### The pass -/

namespace Merge

variable {f g : Func} {m : Forwarding} {t T x y X : BlockId}

/-- The blocks that the map sends on and that are still there jump to their target in the map, or
already to the end of the way. -/
def Routed (m : Forwarding) (f : Func) : Prop :=
  ∀ x y X, m.next? x = some y → m.EndsAt y X → f.contains x = true →
    ∃ B, f.block? x = some B ∧ B.exported = false ∧ (B.code = [.jump y] ∨ B.code = [.jump X])

private theorem leads_of_code {B : Block} (hB : f.block? x = some B) (hcode : B.code = [.jump y]) :
    f.Leads x y := by
  have hterm : B.terminator? = some (.jump y) := by
    rw [Block.terminator?, hcode]
    rfl
  exact (Func.leads_jump_iff hB hterm).mpr rfl

-- A live block leads to the end of its way by jumps alone.
private theorem glides_of_endsAt (hf : f.Sound) (hm : Routed m f) (h : m.EndsAt x X)
    (hx : f.contains x = true) : f.contains X = true ∧ f.Glides X (.entering x) := by
  induction h with
  | stop _ => exact ⟨hx, .there⟩
  | @step x y X hnext hy ih =>
    obtain ⟨B, hB, _, hcode | hcode⟩ := hm x y X hnext hy hx
    · obtain ⟨hX, hglide⟩ := ih (hf.leads x y (leads_of_code hB hcode))
      exact ⟨hX, .enter hB (hcode ▸ .jump hglide)⟩
    · exact ⟨hf.leads x X (leads_of_code hB hcode), .enter hB (hcode ▸ .jump .there)⟩

private theorem code_bypass_of_jump {B : Block} (hcode : B.code = [.jump y]) :
    (B.redirect t T).code = [.jump (retarget t T y)] := by
  have hshape : B.Shape [] (.jump y) := ⟨hcode, rfl, by simp⟩
  rw [hshape.code_redirect]
  rfl

private theorem routed_bypass (hm : Routed m f) (ht : m.next? t = some y) (hT : m.EndsAt t T) :
    Routed m (f.bypass t T) := by
  intro x z X hnext hX hx
  obtain ⟨hxt, hx'⟩ := Func.contains_bypass.mp hx
  obtain ⟨B, hB, hexp, hcode⟩ := hm x z X hnext hX hx'
  refine ⟨B.redirect t T, Func.block?_bypass_eq_some_iff.mpr ⟨hxt, B, hB, rfl⟩, by simpa, ?_⟩
  have hXt : X ≠ t := by
    rintro rfl
    simp [hX.next?_eq_none] at ht
  rcases hcode with hcode | hcode
  · rw [code_bypass_of_jump hcode]
    by_cases hzt : z = t
    · -- The way leads through the bypassed block, so both end at the same block.
      subst hzt
      rw [retarget, if_pos rfl, hT.unique hX]
      exact .inr rfl
    · rw [retarget, if_neg hzt]
      exact .inl rfl
  · rw [code_bypass_of_jump hcode, retarget, if_neg hXt]
    exact .inr rfl

private theorem routed_trampolines (hf : f.WF) : Routed ⟨trampolines f⟩ f := by
  intro x y X hnext _ hx
  obtain ⟨⟨b, B⟩, hmem, hb⟩ := List.mem_filterMap.mp (Forwarding.mem_of_next? hnext)
  split at hb
  · contradiction
  · next hexp =>
    obtain ⟨z, hz, hpair⟩ := Option.map_eq_some_iff.mp hb
    obtain ⟨rfl, rfl⟩ := Prod.mk.inj hpair
    refine ⟨B, hf.mem_blocks.mp hmem, by simpa using hexp, .inl ?_⟩
    rw [Block.trampoline?] at hz
    split at hz
    · next target hcode =>
      split at hz
      · contradiction
      · rw [hcode, Option.some.inj hz]
    · contradiction

/-- Trampolines are found in layout order. -/
theorem trampolines_sublist (hf : f.WF) :
    ((trampolines f).map Prod.fst).Sublist f.layout := by
  apply hf.map_fst_filterMap_sublist
  intro b p hp
  split at hp
  · contradiction
  · obtain ⟨_, _, rfl⟩ := Option.map_eq_some_iff.mp hp
    rfl

/-- What holds while the trampolines `l` are still to come. -/
structure Bypassing (f : Func) (m : Forwarding) (l : List BlockId) (g : Func) : Prop where
  sound : g.Sound
  preserves : f.Preserves g
  routed : Routed m g
  nodup : l.Nodup
  pending : ∀ t ∈ l, g.contains t = true ∧ ∃ y, m.next? t = some y

private theorem Bypassing.step {l : List BlockId} (h : Bypassing f m (t :: l) g) :
    (removeTrampoline m t).Ensures g fun _ k ↦ Bypassing f m l k := by
  obtain ⟨htl, hnodup⟩ := List.nodup_cons.mp h.nodup
  have hpending (x : BlockId) (hx : x ∈ l) := h.pending x (List.mem_cons_of_mem t hx)
  rw [removeTrampoline]
  split
  · next T hresolve =>
    have hT := Forwarding.resolve_eq_some_iff.mp hresolve
    obtain ⟨ht, y, hy⟩ := h.pending t List.mem_cons_self
    obtain ⟨hTlive, hglide⟩ := glides_of_endsAt h.sound h.routed hT ht
    have hne : T ≠ t := by
      rintro rfl
      simp [hT.next?_eq_none] at hy
    have hexp : ¬g.IsExported t := by
      rintro ⟨B, hB, hexp⟩
      cases hT with
      | stop _ => exact hne rfl
      | step hnext hrest =>
        obtain ⟨B', hB', hexp', _⟩ := h.routed _ _ _ hnext hrest ht
        obtain rfl := Option.some.inj (hB.symm.trans hB')
        simp [hexp'] at hexp
    simp only [bypass, Transform.ensures_bind, Transform.ensures_update, Transform.ensures_record,
      Transform.ensures_pure]
    refine ⟨h.sound.bypass hTlive hne hexp ht, h.preserves.trans ?_, routed_bypass h.routed hy hT,
      hnodup, fun x hx ↦ ?_⟩
    · exact Func.preserves_bypass h.sound hTlive hne hexp hglide
    · refine ⟨Func.contains_bypass.mpr ⟨?_, (hpending x hx).1⟩, (hpending x hx).2⟩
      rintro rfl
      exact htl hx
  · rw [Transform.ensures_pure]
    exact ⟨h.sound, h.preserves, h.routed, hnodup, hpending⟩

/-- Removing trampolines keeps the behaviour. -/
theorem ensures_removeTrampolines (h : f.Sound) :
    removeTrampolines.Ensures f fun _ g ↦ g.Sound ∧ f.Preserves g := by
  rw [removeTrampolines, Transform.ensures_bind, Transform.ensures_current]
  refine (Transform.ensures_sumOver (Bypassing f ⟨trampolines f⟩) ?_ fun t rest g hg ↦ ?_).mono
    fun _ g hg ↦ ⟨hg.sound, hg.preserves⟩
  · have hsub := trampolines_sublist h.wf
    refine ⟨h, .refl f, routed_trampolines h.wf, hsub.nodup h.wf.nodup, fun t ht ↦ ?_⟩
    exact ⟨(h.wf.mem_layout t).mp (hsub.mem ht), Forwarding.mem_map_fst_entries.mp ht⟩
  · exact hg.step

end Merge

end Bytecode
