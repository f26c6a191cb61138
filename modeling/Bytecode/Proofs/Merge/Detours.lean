import Bytecode.Proofs.Merge.Links

/-!
# What is left of the trampolines

Removing trampolines removes each one from which jumps lead to a block that is none, and every
target in the function is replaced by the end of its way. The trampolines that stay lead in
circles.
-/

namespace Bytecode

/-! ### The end of a way -/

namespace Forwarding

variable {m : Forwarding} {b c d : BlockId}

/-- The end of the way, or the block itself if there is none. -/
def dest (m : Forwarding) (b : BlockId) : BlockId := (m.resolve b).getD b

/-- The destination of a block is where following the map ends. -/
theorem EndsAt.dest_eq (h : m.EndsAt b c) : m.dest b = c := by
  rw [dest, resolve_eq_some_iff.mpr h, Option.getD_some]

/-- A block stands for itself if it is no entry of the map or its way has no end. -/
theorem dest_eq_self (h : ∀ d, m.next? b = some d → ∀ c, ¬m.EndsAt b c) : m.dest b = b := by
  cases hnext : m.next? b with
  | none => exact (EndsAt.stop hnext).dest_eq
  | some d => rw [dest, resolve_eq_none_iff.mpr (h d hnext), Option.getD_none]

/-- A block and the next one after it have one destination. -/
theorem dest_of_next? (h : m.next? b = some d) (hend : m.EndsAt b c) : m.dest b = m.dest d := by
  rw [hend.dest_eq, ((endsAt_next_iff h).mp hend).dest_eq]

end Forwarding

/-! ### Other targets -/

namespace Func

variable {f g : Func} {ρ : BlockId → BlockId} {gone : List BlockId} {a b t T x y : BlockId}

/-- The second function is the first without the blocks that are gone, and every target is
replaced. -/
structure Rerouted (ρ : BlockId → BlockId) (gone : List BlockId) (f g : Func) : Prop where
  block? : ∀ x, g.block? x =
    if x ∈ gone then none else (f.block? x).map (Block.mapCode (Instr.mapTargets ρ))
  successors : ∀ x, x ∉ gone → g.successors x = (f.successors x).map (List.map ρ)
  entry_eq : g.entry? = f.entry?.map ρ

/-- With nothing gone and every target kept, a function is rerouted to itself. -/
theorem Rerouted.refl (f : Func) : Rerouted id [] f f where
  block? x := by
    have hmap : Block.mapCode (Instr.mapTargets id) = id := by
      funext B
      have hcode : B.code.map (Instr.mapTargets id) = B.code := by
        rw [List.map_congr_left (g := id) fun i _ ↦ Instr.mapTargets_id i, List.map_id]
      rw [Block.mapCode, hcode, id]
    simp [hmap]
  successors x _ := by cases f.successors x <;> simp [Except.map]
  entry_eq := by simp

/-- One more block goes, and its references are replaced as well. -/
theorem Rerouted.bypass (h : Rerouted ρ gone f g) (hg : g.Sound) (ht : g.Replaceable t T) :
    Rerouted (retarget t T ∘ ρ) (gone ++ [t]) f (g.bypass t T) where
  block? x := by
    have hinstr : Instr.redirect t T ∘ Instr.mapTargets ρ =
        Instr.mapTargets (retarget t T ∘ ρ) := by
      funext i
      cases i <;> rfl
    have hcomp (B : Block) : (B.mapCode (Instr.mapTargets ρ)).mapCode (Instr.redirect t T) =
        B.mapCode (Instr.mapTargets (retarget t T ∘ ρ)) := by
      simp only [Block.mapCode, List.map_map, hinstr]
    simp only [ht.block?_bypass_eq hg, h.block?, List.mem_append, List.mem_singleton]
    by_cases hxt : x = t <;> by_cases hx : x ∈ gone <;> cases f.block? x <;>
      simp [hxt, hx, hcomp]
  successors x hx := by
    rw [List.mem_append, List.mem_singleton, not_or] at hx
    rw [Func.bypass, successors_removeBlock hx.2, successors_redirect, h.successors x hx.1]
    cases f.successors x <;> simp [Except.map]
  entry_eq := by
    obtain ⟨e, he⟩ := hg.exists_entry
    have hne : retarget t T e ≠ t := by
      rw [retarget]
      split
      · exact ht.ne
      · assumption
    have hgo := (hg.wf.redirect t T).entry?_removeBlock (hg.wf.entry?_redirect he ht.target t) hne
    rw [Func.bypass, hgo]
    rw [h.entry_eq, Option.map_eq_some_iff] at he
    obtain ⟨e', he', rfl⟩ := he
    rw [he', Option.map_some, Function.comp]

namespace Rerouted

variable (h : Rerouted ρ gone f g)

include h

/-- The blocks left are those that are not gone, with their targets replaced. -/
theorem block?_eq_some_iff {B : Block} : g.block? x = some B ↔
    x ∉ gone ∧ ∃ B₀, f.block? x = some B₀ ∧ B = B₀.mapCode (Instr.mapTargets ρ) := by
  rw [h.block?]
  split
  · next hx => simp [hx]
  · next hx => simp [hx, eq_comm]

/-- Blocks that are left lead to what replaces their targets. -/
theorem leads_iff : g.Leads a b ↔ a ∉ gone ∧ ∃ x, f.Leads a x ∧ b = ρ x := by
  constructor
  · intro hab
    obtain ⟨B, hB⟩ := contains_iff.mp (contains_of_leads hab)
    have ha := (h.block?_eq_some_iff.mp hB).1
    obtain ⟨ts, hts, hb⟩ := hab
    rw [h.successors a ha] at hts
    cases hs : f.successors a with
    | error fault => simp [hs, Except.map] at hts
    | ok us =>
      simp only [hs, Except.map, Except.ok.injEq] at hts
      subst hts
      obtain ⟨x, hx, rfl⟩ := List.mem_map.mp hb
      exact ⟨ha, x, ⟨us, hs, hx⟩, rfl⟩
  · rintro ⟨ha, x, ⟨ts, hts, hx⟩, rfl⟩
    refine ⟨ts.map ρ, ?_, List.mem_map_of_mem hx⟩
    rw [h.successors a ha, hts]
    rfl

/-- Of the trampolines that are left, each forwards to what replaces its target. -/
theorem forwards_iff : g.Forwards a b ↔ a ∉ gone ∧ ∃ x, f.Forwards a x ∧ b = ρ x := by
  constructor
  · rintro ⟨B, hB, hexp, hcode⟩
    obtain ⟨ha, B₀, hB₀, rfl⟩ := h.block?_eq_some_iff.mp hB
    refine ⟨ha, ?_⟩
    obtain ⟨i, hi, hjump⟩ := List.map_eq_singleton_iff.mp hcode
    cases i with
    | jump x => exact ⟨x, ⟨B₀, hB₀, hexp, hi⟩, (Instr.jump.inj hjump).symm⟩
    | _ => contradiction
  · rintro ⟨ha, x, ⟨B₀, hB₀, hexp, hcode⟩, rfl⟩
    refine ⟨_, h.block?_eq_some_iff.mpr ⟨ha, B₀, hB₀, rfl⟩, hexp, ?_⟩
    rw [Block.mapCode, hcode]
    rfl

private theorem jumps_iff : g.Jumps a b ↔ a ∉ gone ∧ ∃ x, f.Jumps a x ∧ b = ρ x := by
  have hterm (B : Block) := Block.terminator?_mapCode (φ := Instr.mapTargets ρ)
    (fun i ↦ by rw [Instr.isTerminator, Instr.isTerminator, Instr.opcode_mapTargets]) B
  constructor
  · rintro ⟨B, hB, hjump⟩
    obtain ⟨ha, B₀, hB₀, rfl⟩ := h.block?_eq_some_iff.mp hB
    rw [hterm, Option.map_eq_some_iff] at hjump
    obtain ⟨i, hi, hjump⟩ := hjump
    cases i with
    | jump x => exact ⟨ha, x, ⟨B₀, hB₀, hi⟩, (Instr.jump.inj hjump).symm⟩
    | _ => contradiction
  · rintro ⟨ha, x, ⟨B₀, hB₀, hjump⟩, rfl⟩
    refine ⟨_, h.block?_eq_some_iff.mpr ⟨ha, B₀, hB₀, rfl⟩, ?_⟩
    rw [hterm, hjump]
    rfl

end Rerouted

end Func

/-! ### The trampolines of a function -/

namespace Merge

open Func Transform

variable {f g : Func} {settings : Settings} {t T x y : BlockId} {l : List BlockId} {n : Nat}
  {es : List Event}

/-- Where trampolines lead. -/
def ways (f : Func) : Forwarding := ⟨trampolines f⟩

/-- The map of ways takes a trampoline to its target, unless it is its own. -/
theorem next?_ways_iff (hw : f.WF) : (ways f).next? x = some y ↔ f.Forwards x y ∧ y ≠ x := by
  have hmem (b : BlockId) (B : Block) (z : BlockId) :
      B.trampoline? b = some z ↔ B.code = [.jump z] ∧ z ≠ b := by
    rw [Block.trampoline?]
    split
    · next target hcode =>
      rw [hcode]
      by_cases hb : target = b
      · simp [hb]
        rintro rfl
        rfl
      · simp [hb]
        rintro rfl
        exact hb
    · next hcode =>
      simp only [reduceCtorEq, false_iff, not_and]
      intro hz
      exact absurd hz (hcode z)
  have hnodup : ((ways f).entries.map Prod.fst).Nodup :=
    (trampolines_sublist hw).nodup hw.nodup
  rw [Forwarding.next?_eq_some_iff hnodup]
  simp only [ways, trampolines, List.mem_filterMap, Prod.exists, hw.mem_blocks]
  constructor
  · rintro ⟨b, B, hB, hx⟩
    split at hx
    · contradiction
    · next hexp =>
      obtain ⟨z, hz, hpair⟩ := Option.map_eq_some_iff.mp hx
      rw [Prod.mk.injEq] at hpair
      obtain ⟨rfl, rfl⟩ := hpair
      rw [hmem] at hz
      exact ⟨⟨B, hB, by simpa using hexp, hz.1⟩, hz.2⟩
  · rintro ⟨⟨B, hB, hexp, hcode⟩, hne⟩
    refine ⟨x, B, hB, ?_⟩
    rw [hexp, if_neg Bool.false_ne_true, (hmem x B y).mpr ⟨hcode, hne⟩, Option.map_some]

/-! ### Removing them -/

/-- Blocks that are gone are replaced by the end of their way. -/
def detour (f : Func) (gone : List BlockId) (b : BlockId) : BlockId :=
  if b ∈ gone then (ways f).dest b else b

/-- What holds while the trampolines `l` are still to come. -/
structure Detouring (settings : Settings) (f : Func) (l : List BlockId) (n : Nat) (g : Func)
    (es : List Event) : Prop where
  sound : g.Sound
  recorded : Recorded settings f (n ≠ 0) g es
  rerouted : Rerouted (detour f (es.flatMap Event.removes)) (es.flatMap Event.removes) f g
  count : n = (es.flatMap Event.removes).length
  nodup : l.Nodup
  pending : ∀ t ∈ l, t ∉ es.flatMap Event.removes ∧ ∃ y, (ways f).next? t = some y
  removed : ∀ t ∈ es.flatMap Event.removes,
    (∃ y, (ways f).next? t = some y) ∧ ∃ T, (ways f).EndsAt t T
  left : ∀ t y, (ways f).next? t = some y →
    t ∈ l ∨ t ∈ es.flatMap Event.removes ∨ ∀ T, ¬(ways f).EndsAt t T

/-- A trampoline still leads to the end of its way, possibly by a shorter one. -/
theorem Detouring.forwards (hw : f.WF) (h : Detouring settings f l n g es)
    (hT : (ways f).EndsAt x T) (hx : x ∉ es.flatMap Event.removes) :
    Relation.ReflTransGen g.Forwards x T := by
  induction hT with
  | stop => exact .refl
  | @step x y T hnext hy ih =>
    have hstep : g.Forwards x (detour f (es.flatMap Event.removes) y) :=
      h.rerouted.forwards_iff.mpr ⟨hx, y, ((next?_ways_iff hw).mp hnext).1, rfl⟩
    by_cases hgone : y ∈ es.flatMap Event.removes
    · rw [detour, if_pos hgone, hy.dest_eq] at hstep
      exact .single hstep
    · rw [detour, if_neg hgone] at hstep
      exact .head hstep (ih hgone)

/-- The replaced targets are no trampolines, so they are not replaced again. -/
theorem Detouring.retarget_comp (h : Detouring settings f l n g es)
    (ht : (ways f).next? t = some y)
    (hT : (ways f).EndsAt t T) (hgone : t ∉ es.flatMap Event.removes) :
    retarget t T ∘ detour f (es.flatMap Event.removes) =
      detour f (es.flatMap Event.removes ++ [t]) := by
  funext z
  simp only [Function.comp, detour, List.mem_append, List.mem_singleton]
  by_cases hz : z ∈ es.flatMap Event.removes
  · obtain ⟨_, T', hT'⟩ := h.removed z hz
    have hne : T' ≠ t := by
      rintro rfl
      rw [hT'.next?_eq_none] at ht
      contradiction
    rw [if_pos hz, if_pos (.inl hz), hT'.dest_eq, retarget, if_neg hne]
  · by_cases hzt : z = t
    · subst hzt
      rw [if_neg hz, if_pos (.inr rfl), retarget, if_pos rfl, hT.dest_eq]
    · rw [if_neg hz, if_neg (by simp [hz, hzt]), retarget, if_neg hzt]

/-- A trampoline that leads to an end is taken out. -/
theorem Detouring.bypass (hf : f.Sound) (hasked : settings.mergeBlocks = true)
    (h : Detouring settings f (t :: l) n g es) (hT : (ways f).EndsAt t T) {e : Event}
    (hkind : e.kind = .trampolineRemoved) (hblock : e.block = some t) :
    Detouring settings f l (n + 1) (g.bypass t T) (es ++ [e]) := by
  obtain ⟨htl, hnodup⟩ := List.nodup_cons.mp h.nodup
  obtain ⟨hgone, y, hy⟩ := h.pending t List.mem_cons_self
  have hne : T ≠ t := by
    rintro rfl
    rw [hT.next?_eq_none] at hy
    contradiction
  have hhops := h.forwards hf.wf hT hgone
  have hrep := replaceable_of_forwards h.sound hhops hne
  have hedits : Edits settings g [t] (g.bypass t T) := .single (.hop hasked hhops hne)
  have hremove : e.removes = [t] := by simp [Event.removes, hkind, hblock]
  have hremoves : (es ++ [e]).flatMap Event.removes = es.flatMap Event.removes ++ [t] := by
    simp [hremove]
  constructor
  · exact hrep.sound_bypass h.sound
  · apply h.recorded.count (m := 1) hf
    exact recorded_single (hremove ▸ hedits) (by rw [hkind]; rfl)
      (hedits.loses h.sound (List.cons_ne_nil t [])) (by simp [Event.ListsAbsorbed, hkind])
  · rw [hremoves, ← h.retarget_comp hy hT hgone]
    exact h.rerouted.bypass h.sound hrep
  · rw [hremoves, List.length_append, ← h.count, List.length_singleton]
  · exact hnodup
  · intro x hx
    obtain ⟨hx', hnext⟩ := h.pending x (List.mem_cons_of_mem t hx)
    refine ⟨?_, hnext⟩
    rw [hremoves, List.mem_append, List.mem_singleton, not_or]
    refine ⟨hx', ?_⟩
    rintro rfl
    exact htl hx
  · intro x hx
    rw [hremoves, List.mem_append, List.mem_singleton] at hx
    rcases hx with hx | rfl
    · exact h.removed x hx
    · exact ⟨⟨y, hy⟩, T, hT⟩
  · intro x z hx
    rw [hremoves, List.mem_append, List.mem_singleton]
    have := h.left x z hx
    rw [List.mem_cons] at this
    tauto

/-- A trampoline that leads into a cycle stays. -/
theorem Detouring.skip (h : Detouring settings f (t :: l) n g es)
    (hnone : ∀ T, ¬(ways f).EndsAt t T) : Detouring settings f l n g es where
  sound := h.sound
  recorded := h.recorded
  rerouted := h.rerouted
  count := h.count
  nodup := (List.nodup_cons.mp h.nodup).2
  pending x hx := h.pending x (List.mem_cons_of_mem t hx)
  removed := h.removed
  left x z hx := by
    have hcases := h.left x z hx
    rw [List.mem_cons] at hcases
    rcases hcases with (rfl | hxl) | hrest
    · exact .inr (.inr hnone)
    · exact .inl hxl
    · exact .inr hrest

private theorem Detouring.step (hf : f.Sound) (hasked : settings.mergeBlocks = true)
    {E : Fault → Prop} (h : Detouring settings f (t :: l) n g es) :
    (removeTrampoline (ways f) t).Yields g
      (fun m k es' ↦ Detouring settings f l (n + m) k (es ++ es')) E := by
  rw [removeTrampoline]
  split
  · next T hresolve =>
    simp only [Merge.bypass, yields_bind, yields_update, yields_record, yields_pure,
      List.nil_append, List.append_nil]
    exact h.bypass hf hasked (Forwarding.resolve_eq_some_iff.mp hresolve) rfl rfl
  · next hresolve =>
    rw [yields_pure, List.append_nil, Nat.add_zero]
    exact h.skip (Forwarding.resolve_eq_none_iff.mp hresolve)

/-- What removing trampolines does to a function. -/
structure Straightens (f g : Func) (gone : List BlockId) : Prop where
  rerouted : Rerouted (ways f).dest gone f g
  mem_gone : ∀ x, x ∈ gone ↔ (∃ y, (ways f).next? x = some y) ∧ ∃ T, (ways f).EndsAt x T

/-- All trampolines go that lead to an end, and every target is replaced by the end of its way. -/
theorem yields_straightens (hf : f.Sound) (hasked : settings.mergeBlocks = true)
    {E : Fault → Prop} :
    removeTrampolines.Yields f (fun n g es ↦ Recorded settings f (n ≠ 0) g es ∧
      Straightens f g (es.flatMap Event.removes) ∧ n = (es.flatMap Event.removes).length) E := by
  have hsub := trampolines_sublist hf.wf
  have hstart : Detouring settings f ((trampolines f).map Prod.fst) 0 f [] := by
    refine ⟨hf, .refl settings f, ?_, rfl, hsub.nodup hf.wf.nodup, fun t ht ↦ ⟨by simp, ?_⟩,
      by simp, fun t y hy ↦ .inl ?_⟩
    · have hid : detour f [] = id := by
        funext b
        simp [detour]
      rw [List.flatMap_nil, hid]
      exact .refl f
    · exact Forwarding.mem_map_fst_entries.mp ht
    · exact Forwarding.mem_map_fst_entries.mpr ⟨y, hy⟩
  rw [removeTrampolines, yields_bind, yields_current]
  apply (yields_sumOver (Detouring settings f) hstart fun _ _ _ _ _ h ↦ h.step hf hasked).imp
  intro n g es hdone
  rw [List.nil_append]
  have hmem (x : BlockId) : x ∈ es.flatMap Event.removes ↔
      (∃ y, (ways f).next? x = some y) ∧ ∃ T, (ways f).EndsAt x T := by
    refine ⟨hdone.removed x, ?_⟩
    rintro ⟨⟨y, hy⟩, T, hT⟩
    rcases hdone.left x y hy with hl | hgone | hnone
    · contradiction
    · exact hgone
    · exact absurd hT (hnone T)
  refine ⟨hdone.recorded, ⟨?_, hmem⟩, hdone.count⟩
  have hdest : detour f (es.flatMap Event.removes) = (ways f).dest := by
    funext b
    rw [detour]
    split
    · rfl
    · next hb =>
      rw [hmem] at hb
      exact (Forwarding.dest_eq_self fun d hd T hT ↦ hb ⟨⟨d, hd⟩, T, hT⟩).symm
  exact hdest ▸ hdone.rerouted

/-! ### What is left -/

namespace Straightens

variable {gone : List BlockId} (h : Straightens f g gone) (hf : f.Sound)

include h

/-- A block that is not gone is its own destination. -/
theorem dest_eq_self (hx : x ∉ gone) : (ways f).dest x = x := by
  rw [h.mem_gone] at hx
  exact Forwarding.dest_eq_self fun d hd T hT ↦ hx ⟨⟨d, hd⟩, T, hT⟩

private theorem next?_eq_none (hx : x ∉ gone) (hT : (ways f).EndsAt x T) :
    (ways f).next? x = none := by
  rw [Option.eq_none_iff_forall_ne_some]
  intro y hy
  exact hx ((h.mem_gone x).mpr ⟨⟨y, hy⟩, T, hT⟩)

include hf

private theorem isExported_iff : g.IsExported x ↔ f.IsExported x := by
  constructor
  · rintro ⟨B, hB, hexp⟩
    obtain ⟨_, B₀, hB₀, rfl⟩ := h.rerouted.block?_eq_some_iff.mp hB
    exact ⟨B₀, hB₀, hexp⟩
  · intro hexp
    have hx : x ∉ gone := by
      intro hx
      obtain ⟨⟨y, hy⟩, _⟩ := (h.mem_gone x).mp hx
      exact ((next?_ways_iff hf.wf).mp hy).1.unexported hexp
    obtain ⟨B₀, hB₀, hB₀exp⟩ := hexp
    exact ⟨_, h.rerouted.block?_eq_some_iff.mpr ⟨hx, B₀, hB₀, rfl⟩, hB₀exp⟩

/-- Trampolines that stay lead to others, in a circle. -/
theorem circling : Circling g := by
  intro x y hxy hne
  obtain ⟨hx, x', hx', rfl⟩ := h.rerouted.forwards_iff.mp hxy
  have hne' : x' ≠ x := by
    rintro rfl
    exact hne (h.dest_eq_self hx)
  have hnext := (next?_ways_iff hf.wf).mpr ⟨hx', hne'⟩
  have hnever (T : BlockId) (hT : (ways f).EndsAt x' T) : False :=
    hx ((h.mem_gone x).mpr ⟨⟨x', hnext⟩, T, .step hnext hT⟩)
  have hself : (ways f).dest x' = x' := Forwarding.dest_eq_self fun _ _ ↦ hnever
  rw [hself]
  cases hz : (ways f).next? x' with
  | none => exact (hnever x' (.stop hz)).elim
  | some z =>
    obtain ⟨hforwards, hzne⟩ := (next?_ways_iff hf.wf).mp hz
    have hzself : (ways f).dest z = z :=
      Forwarding.dest_eq_self fun _ _ T hT ↦ hnever T (.step hz hT)
    refine ⟨z, h.rerouted.forwards_iff.mpr ⟨fun hgone ↦ ?_, z, hforwards, hzself.symm⟩, hzne⟩
    obtain ⟨_, T, hT⟩ := (h.mem_gone x').mp hgone
    exact hnever T hT

/-- Where trampolines lead in circles only, none of them goes. -/
theorem eq_nil_of_circling (hcircling : Circling f) : gone = [] := by
  have hnever {x T : BlockId} (hT : (ways f).EndsAt x T) : (ways f).next? x = none := by
    induction hT with
    | stop hnone => exact hnone
    | @step x y T hnext _ ih =>
      obtain ⟨hxy, hne⟩ := (next?_ways_iff hf.wf).mp hnext
      have hy := hcircling x y hxy hne
      simp only [← next?_ways_iff hf.wf, ih, reduceCtorEq, exists_false] at hy
  rw [List.eq_nil_iff_forall_not_mem]
  intro x hx
  obtain ⟨⟨y, hy⟩, T, hT⟩ := (h.mem_gone x).mp hx
  rw [hnever hT] at hy
  contradiction

omit h in
private theorem live_of_endsAt (hx : f.Live x) (hT : (ways f).EndsAt x T) : f.Live T := by
  induction hT with
  | stop => exact hx
  | step hnext _ ih => exact ih (.leads hx ((next?_ways_iff hf.wf).mp hnext).1.leads)

omit h in
private theorem live_dest (hx : f.Live x) : f.Live ((ways f).dest x) := by
  by_cases hends : ∃ T, (ways f).EndsAt x T
  · obtain ⟨T, hT⟩ := hends
    rw [hT.dest_eq]
    exact live_of_endsAt hf hx hT
  · rw [Forwarding.dest_eq_self fun _ _ T hT ↦ hends ⟨T, hT⟩]
    exact hx

/-- What is live was so before. -/
theorem live (hx : g.Live x) : f.Live x := by
  induction hx with
  | entry he =>
    rw [h.rerouted.entry_eq, Option.map_eq_some_iff] at he
    obtain ⟨e, he, rfl⟩ := he
    exact live_dest hf (.entry he)
  | exported hexp => exact .exported ((h.isExported_iff hf).mp hexp)
  | leads _ hpx ih =>
    obtain ⟨_, y, hy, rfl⟩ := h.rerouted.leads_iff.mp hpx
    exact live_dest hf (.leads ih hy)

/-- What was live is so still, at the end of its way. -/
theorem live_of_live (hx : f.Live x) : g.Live ((ways f).dest x) := by
  induction hx with
  | entry he => exact .entry (by rw [h.rerouted.entry_eq, he, Option.map_some])
  | @exported x hexp =>
    have hlive : g.Live x := .exported ((h.isExported_iff hf).mpr hexp)
    have hx : x ∉ gone := by
      intro hx
      obtain ⟨⟨y, hy⟩, _⟩ := (h.mem_gone x).mp hx
      exact ((next?_ways_iff hf.wf).mp hy).1.unexported hexp
    rwa [h.dest_eq_self hx]
  | @leads p x _ hpx ih =>
    by_cases hp : p ∈ gone
    · obtain ⟨⟨y, hy⟩, T, hT⟩ := (h.mem_gone p).mp hp
      obtain rfl := ((next?_ways_iff hf.wf).mp hy).1.eq_of_leads hpx
      rwa [Forwarding.dest_of_next? hy hT] at ih
    · rw [h.dest_eq_self hp] at ih
      exact .leads ih (h.rerouted.leads_iff.mpr ⟨hp, x, hpx, rfl⟩)

omit h in
/-- Once the function is settling, live trampolines end at a block that jumps in place. -/
theorem forwards_self (hsettling : Settling f) (hx : f.Live x) (hnext : (ways f).next? x = some y)
    (hT : (ways f).EndsAt y T) : f.Forwards T T := by
  induction hT generalizing x with
  | @stop y hnone =>
    obtain ⟨hxy, hne⟩ := (next?_ways_iff hf.wf).mp hnext
    obtain ⟨z, hz⟩ := hsettling.forwards x y hx hxy hne
    by_cases hzy : z = y
    · exact hzy ▸ hz
    · rw [(next?_ways_iff hf.wf).mpr ⟨hz, hzy⟩] at hnone
      contradiction
  | step hnext' _ ih => exact ih (.leads hx ((next?_ways_iff hf.wf).mp hnext).1.leads) hnext'

omit hf in
/-- A block that jumps in place is led to by itself, so that no other can take it in. -/
theorem not_couples (hself : f.Forwards y y) (hy : y ∉ gone) : ¬Couples g x y := by
  intro hxy
  apply hxy.ne
  apply hxy.link.only y hxy.liveTarget
  exact h.rerouted.leads_iff.mpr ⟨hy, y, hself.leads, (h.dest_eq_self hy).symm⟩

/-- If the function was settling, no links come up. -/
theorem unlinked (hsettling : Settling f) : Unlinked g := by
  intro a b hab
  obtain ⟨ha, y, hjumps, rfl⟩ := h.rerouted.jumps_iff.mp hab.link.jumps
  have hlive := h.live hf hab.live
  by_cases hy : y ∈ gone
  · obtain ⟨⟨z, hz⟩, T, hT⟩ := (h.mem_gone y).mp hy
    have hself := forwards_self hf hsettling (.leads hlive hjumps.leads) hz
      ((Forwarding.endsAt_next_iff hz).mp hT)
    rw [hT.dest_eq] at hab
    refine h.not_couples hself (fun hgone ↦ ?_) hab
    obtain ⟨⟨w, hw⟩, _⟩ := (h.mem_gone T).mp hgone
    rw [hT.next?_eq_none] at hw
    contradiction
  · rw [h.dest_eq_self hy] at hab
    refine hsettling.unlinked a y ⟨hlive, hab.ne, ⟨hjumps, ?_, fun he ↦ ?_, fun x hx hxy ↦ ?_⟩, ?_⟩
    · rw [← h.isExported_iff hf]
      exact hab.link.unexported
    · apply hab.link.not_entry
      rw [h.rerouted.entry_eq, he, Option.map_some, h.dest_eq_self hy]
    · have hxlive := h.live_of_live hf hx
      by_cases hxgone : x ∈ gone
      · obtain ⟨⟨z, hz⟩, T, hT⟩ := (h.mem_gone x).mp hxgone
        obtain rfl := ((next?_ways_iff hf.wf).mp hz).1.eq_of_leads hxy
        rw [Forwarding.endsAt_next_iff hz] at hT
        have hself := forwards_self hf hsettling hx hz (.stop (h.next?_eq_none hy hT))
        exact absurd hab (h.not_couples hself hy)
      · rw [h.dest_eq_self hxgone] at hxlive
        exact hab.link.only x hxlive
          (h.rerouted.leads_iff.mpr ⟨hxgone, y, hxy, (h.dest_eq_self hy).symm⟩)
    · intro A B hA hB
      exact hab.handler_eq (A.mapCode _) (B.mapCode _)
        (h.rerouted.block?_eq_some_iff.mpr ⟨ha, A, hA, rfl⟩)
        (h.rerouted.block?_eq_some_iff.mpr ⟨hy, B, hB, rfl⟩)

end Straightens

/-- Removing trampolines leaves those that lead in circles; where only those are left, it does
nothing. -/
theorem yields_removeTrampolines (hf : f.Sound) (hasked : settings.mergeBlocks = true)
    {E : Fault → Prop} :
    removeTrampolines.Yields f (fun n g es ↦ Recorded settings f (n ≠ 0) g es ∧
      Circling g ∧ (Settling f → Unlinked g) ∧ (Circling f → n = 0)) E := by
  apply (yields_straightens hf hasked).imp
  rintro n g es ⟨hrecorded, hdone, hcount⟩
  refine ⟨hrecorded, hdone.circling hf, hdone.unlinked hf, fun hcircling ↦ ?_⟩
  rw [hcount, hdone.eq_nil_of_circling hf hcircling, List.length_nil]

end Merge

end Bytecode
