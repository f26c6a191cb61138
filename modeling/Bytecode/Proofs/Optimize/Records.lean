import Bytecode.Optimize.Placement
import Bytecode.Proofs.Optimize.Edits
import Bytecode.Proofs.Optimize.Outcomes

/-!
# What the events tell

Every event of a pass stands for edits that were made, and names the blocks that they took out. A
pass that reports no change has left the function alone, and one that reports a change has taken
out a block or a handler, which no later pass brings back. The passes over handlers and over
unreachable blocks are accounted for here; both leave nothing behind that they would find in a
second run.
-/

namespace Bytecode

/-- The blocks that the event reports as gone. -/
def Event.removes (e : Event) : List BlockId :=
  match e.kind with
  | .trampolineRemoved | .blockRemoved => e.block.toList
  | .blocksFused => e.absorbed
  | _ => []

/-- If the event is a fusion, its message tells the head and the blocks that were taken in. -/
def Event.ListsAbsorbed (e : Event) : Prop :=
  e.kind = .blocksFused → ∃ head, e.block = some head ∧ e.message =
    BlockId.label head ++ " <- " ++ ", ".intercalate (e.absorbed.map BlockId.label)

namespace Func

variable {f g k : Func} {clears : Prop} {settings : Settings} {l : List BlockId}

/-! ### Losses -/

/-- Some block is gone, or has lost its handler. -/
def Loses (f g : Func) : Prop :=
  ∃ b B, f.block? b = some B ∧
    ∀ B', g.block? b = some B' → B.handler ≠ none ∧ B'.handler = none

private theorem Loses.of_descends (h : f.Loses g) (hk : Descends clears g k) : f.Loses k := by
  obtain ⟨b, B, hB, hlost⟩ := h
  refine ⟨b, B, hB, fun B' hB' ↦ ?_⟩
  obtain ⟨B₁, hB₁, hhandler, _⟩ := hk.block? b B' hB'
  obtain ⟨hsome, hnone⟩ := hlost B₁ hB₁
  refine ⟨hsome, ?_⟩
  cases hhandler with
  | inl heq => exact heq.trans hnone
  | inr hcleared => exact hcleared.2

private theorem Loses.arena_ne (h : f.Loses g) : f.arena ≠ g.arena := by
  intro heq
  obtain ⟨b, B, hB, hlost⟩ := h
  have hB' : g.block? b = some B := by rwa [block?, ← heq]
  obtain ⟨hsome, hnone⟩ := hlost B hB'
  exact hsome hnone

/-- Edits that take out blocks are losses. -/
theorem Edits.loses (hf : f.Sound) (h : Edits settings f l g) (hl : l ≠ []) : f.Loses g := by
  obtain ⟨b, hb⟩ := List.exists_mem_of_ne_nil l hl
  obtain ⟨B, hB⟩ := Func.contains_iff.mp ((h.removed hf).2 b hb)
  refine ⟨b, B, hB, fun B' hB' ↦ ?_⟩
  exact absurd hb (h.contains_iff.mp (contains_of_block? hB')).2

/-! ### Accounts -/

/-- The events account for what became of the function. -/
structure Accounted (settings : Settings) (f : Func) (changed : Bool) (g : Func)
    (es : List Event) : Prop where
  edits : Edits settings f (es.flatMap Event.removes) g
  told : changed = es.any fun e ↦ e.kind.isTransformation
  rest : changed = false → g = f
  listed : ∀ e ∈ es, e.ListsAbsorbed

/-- They do, and whatever changed is a loss. -/
structure Recorded (settings : Settings) (f : Func) (changed : Bool) (g : Func)
    (es : List Event) : Prop extends Accounted settings f changed g es where
  loss : changed = true → f.Loses g

variable {changed changed' : Bool} {es es' before after : List Event} {e : Event}

/-- The accounts of two steps add up. -/
theorem Accounted.trans (h : Accounted settings f changed g es)
    (h' : Accounted settings g changed' k es') :
    Accounted settings f (changed || changed') k (es ++ es') where
  edits := by
    rw [List.flatMap_append]
    exact h.edits.trans h'.edits
  told := by rw [List.any_append, h.told, h'.told]
  rest hnone := by
    rw [Bool.or_eq_false_iff] at hnone
    rw [h'.rest hnone.2, h.rest hnone.1]
  listed e he := by
    rw [List.mem_append] at he
    exact he.elim (h.listed e) (h'.listed e)

/-- Events that stand for no change. -/
theorem accounted_quiet (settings : Settings) (f : Func)
    (h : ∀ e ∈ es, e.kind.isTransformation = false) : Accounted settings f false f es := by
  have hremoves (e : Event) (he : e ∈ es) : e.removes = [] := by
    have hquiet := h e he
    unfold Event.removes
    split <;> simp_all [EventKind.isTransformation]
  refine ⟨?_, ?_, fun _ ↦ rfl, fun e he hkind ↦ ?_⟩
  · rw [List.flatMap_eq_nil_iff.mpr hremoves]
    exact .refl
  · rw [eq_comm, List.any_eq_false]
    simpa using h
  · have hquiet := h e he
    rw [hkind] at hquiet
    contradiction

/-- Events that report no transformation leave the account right. -/
theorem Accounted.quiet (h : Accounted settings f changed g es)
    (hbefore : ∀ e ∈ before, e.kind.isTransformation = false)
    (hafter : ∀ e ∈ after, e.kind.isTransformation = false) :
    Accounted settings f changed g (before ++ es ++ after) := by
  have hall := ((accounted_quiet settings f hbefore).trans h).trans
    (accounted_quiet settings g hafter)
  rwa [Bool.false_or, Bool.or_false] at hall

/-- Events that report no transformation leave the record right. -/
theorem Recorded.quiet (h : Recorded settings f changed g es)
    (hbefore : ∀ e ∈ before, e.kind.isTransformation = false)
    (hafter : ∀ e ∈ after, e.kind.isTransformation = false) :
    Recorded settings f changed g (before ++ es ++ after) :=
  ⟨h.toAccounted.quiet hbefore hafter, h.loss⟩

/-- No change is recorded by no events. -/
theorem Recorded.refl (settings : Settings) (f : Func) : Recorded settings f false f [] :=
  ⟨accounted_quiet settings f (by simp), by simp⟩

/-- The records of two steps add up. -/
theorem Recorded.trans (hf : f.Sound) (h : Recorded settings f changed g es)
    (h' : Recorded settings g changed' k es') :
    Recorded settings f (changed || changed') k (es ++ es') := by
  refine ⟨h.toAccounted.trans h'.toAccounted, fun hsome ↦ ?_⟩
  cases hchanged : changed with
  | true => exact (h.loss hchanged).of_descends (h'.edits.descends (h.edits.sound hf))
  | false =>
    rw [hchanged, Bool.false_or] at hsome
    rw [← h.rest hchanged]
    exact h'.loss hsome

/-- An event that stands for edits with a loss. -/
theorem recorded_single (hedits : Edits settings f e.removes g)
    (he : e.kind.isTransformation = true) (hloss : f.Loses g) (hlists : e.ListsAbsorbed) :
    Recorded settings f true g [e] where
  edits := by simpa using hedits
  told := by simp [he]
  rest := by simp
  listed := by simpa using hlists
  loss _ := hloss

/-- What was lost stays lost, so whatever changed tells the two functions apart. -/
theorem Recorded.apart {l : List BlockId} (h : Recorded settings f changed g es) (hg : g.Sound)
    (hedits : Edits settings g l k)
    (hlast : changed' = true → k.arena ≠ g.arena ∨ k.registerCount ≠ g.registerCount)
    (hchanged : (changed || changed') = true) :
    k.arena ≠ f.arena ∨ k.registerCount ≠ f.registerCount := by
  cases hearly : changed with
  | true =>
    have hlost := (h.loss hearly).of_descends (hedits.descends hg)
    exact .inl hlost.arena_ne.symm
  | false =>
    obtain rfl := h.rest hearly
    exact hlast (by simpa [hearly] using hchanged)

/-- A step of a loop that counts what it has done. -/
theorem Recorded.count {m n : Nat} (hf : f.Sound) (h : Recorded settings f (n ≠ 0) g es)
    (h' : Recorded settings g (m ≠ 0) k es') :
    Recorded settings f (n + m ≠ 0) k (es ++ es') := by
  have hsum : decide (n + m ≠ 0) = (decide (n ≠ 0) || decide (m ≠ 0)) := by
    rw [Bool.eq_iff_iff, Bool.or_eq_true]
    simp only [decide_eq_true_eq]
    omega
  rw [hsum]
  exact h.trans hf h'

end Func

open Func Transform

variable {f g : Func} {settings : Settings}

/-! ### Handlers without use -/

namespace Handlers

/-- No block that cannot throw has a handler. -/
def Needed (f : Func) : Prop :=
  ∀ b B, f.block? b = some B → B.handler ≠ none → B.canThrow = true

private theorem mem_idle_iff (hw : f.WF) {b h : BlockId} :
    (b, h) ∈ idle f ↔ ∃ B, f.block? b = some B ∧ B.canThrow = false ∧ B.handler = some h := by
  simp only [idle, List.mem_filterMap, Prod.exists, hw.mem_blocks]
  constructor
  · rintro ⟨x, B, hB, hx⟩
    split at hx
    · contradiction
    · next hthrow =>
      obtain ⟨y, hy, hpair⟩ := Option.map_eq_some_iff.mp hx
      rw [Prod.mk.injEq] at hpair
      obtain ⟨rfl, rfl⟩ := hpair
      exact ⟨B, hB, by simpa using hthrow, hy⟩
  · rintro ⟨B, hB, hthrow, hh⟩
    exact ⟨b, B, hB, by simp [hthrow, hh]⟩

private theorem idle_eq_nil_iff (hw : f.WF) : idle f = [] ↔ Needed f := by
  constructor
  · intro hnil b B hB hsome
    obtain ⟨h, hh⟩ := Option.ne_none_iff_exists'.mp hsome
    cases hthrow : B.canThrow with
    | true => rfl
    | false =>
      have hmem := (mem_idle_iff hw).mpr ⟨B, hB, hthrow, hh⟩
      rw [hnil] at hmem
      contradiction
  · intro hneeded
    rw [List.eq_nil_iff_forall_not_mem]
    rintro ⟨b, h⟩ hmem
    obtain ⟨B, hB, hthrow, hh⟩ := (mem_idle_iff hw).mp hmem
    have := hneeded b B hB (by simp [hh])
    simp [hthrow] at this

/-- Where no idle block had a handler, none has one later. -/
theorem needed_of_descends {clears : Prop} (h : Needed f) (hg : Descends clears f g) :
    Needed g := by
  intro b B hB hsome
  obtain ⟨B₀, hB₀, hhandler, hthrow⟩ := hg.block? b B hB
  apply hthrow
  apply h b B₀ hB₀
  cases hhandler with
  | inl heq => rwa [← heq]
  | inr hcleared => exact absurd hcleared.2 hsome

/-- What holds while the handlers `l` are still to be dropped. -/
structure Clearing (settings : Settings) (f : Func) (l : List (BlockId × BlockId)) (n : Nat)
    (g : Func) (es : List Event) : Prop where
  sound : g.Sound
  recorded : Recorded settings f (n ≠ 0) g es
  count : n + l.length = (idle f).length
  nodup : (l.map Prod.fst).Nodup
  pending : ∀ p, p ∈ l ↔
    ∃ B, g.block? p.1 = some B ∧ B.canThrow = false ∧ B.handler = some p.2

private theorem Clearing.step (hf : f.Sound) (hasked : settings.simplifyHandlers = true)
    {p : BlockId × BlockId} {l : List (BlockId × BlockId)} {n : Nat} {es : List Event}
    {E : Fault → Prop} (h : Clearing settings f (p :: l) n g es) :
    (clear p).Yields g (fun m k es' ↦ Clearing settings f l (n + m) k (es ++ es')) E := by
  obtain ⟨B, hB, hthrow, hhandler⟩ := (h.pending p).mp List.mem_cons_self
  obtain ⟨hpl, hnodup⟩ := List.nodup_cons.mp h.nodup
  have hcannot : g.CannotThrow p.1 := by
    intro B' hB'
    rw [hB, Option.some.injEq] at hB'
    exact hB' ▸ hthrow
  have hloss : g.Loses (g.clearHandler p.1) := by
    refine ⟨p.1, B, hB, fun B' hB' ↦ ⟨by simp [hhandler], ?_⟩⟩
    obtain ⟨_, _, rfl⟩ := block?_clearHandler_eq_some_iff.mp hB'
    simp
  simp only [clear, yields_bind, yields_update, yields_record, yields_pure]
  refine ⟨h.sound.clearHandler p.1, ?_, ?_, hnodup, fun q ↦ ?_⟩
  · apply h.recorded.count (m := 1) hf
    exact recorded_single (.single (.clear hasked hcannot)) rfl hloss
      (by simp [Event.ListsAbsorbed])
  · rw [← h.count, List.length_cons]
    omega
  · constructor
    · intro hq
      obtain ⟨B', hB', hthrow', hhandler'⟩ := (h.pending q).mp (List.mem_cons_of_mem p hq)
      have hne : q.1 ≠ p.1 := fun he ↦ hpl (he ▸ List.mem_map_of_mem hq)
      exact ⟨_, block?_clearHandler_eq_some_iff.mpr ⟨B', hB', rfl⟩, hthrow',
        by simp [hne, hhandler']⟩
    · rintro ⟨B', hB', hthrow', hhandler'⟩
      obtain ⟨B₀, hB₀, rfl⟩ := block?_clearHandler_eq_some_iff.mp hB'
      by_cases hq : q.1 = p.1
      · simp [hq] at hhandler'
      · have hmem := (h.pending q).mpr ⟨B₀, hB₀, hthrow', by simpa [hq] using hhandler'⟩
        rw [List.mem_cons] at hmem
        exact hmem.resolve_left fun he ↦ hq (by rw [he])

/-- The pass leaves only handlers that are needed, and finds nothing to do where all are. -/
theorem yields_run (hf : f.Sound) (hasked : settings.simplifyHandlers = true) {E : Fault → Prop} :
    run.Yields f (fun changed g es ↦ Recorded settings f changed g es ∧ Needed g ∧
      (Needed f → changed = false)) E := by
  have hsub := hf.wf.map_fst_filterMap_sublist (γ := BlockId)
    (k := fun b ↦ if b.2.canThrow then none else b.2.handler.map (b.1, ·)) (by
      intro b p hp
      split at hp
      · contradiction
      · obtain ⟨_, _, rfl⟩ := Option.map_eq_some_iff.mp hp
        rfl)
  have hstart : Clearing settings f (idle f) 0 f [] :=
    ⟨hf, .refl settings f, Nat.zero_add _, hsub.nodup hf.wf.nodup, fun p ↦ mem_idle_iff hf.wf⟩
  rw [run, yields_bind, yields_current, yields_bind]
  apply (yields_sumOver (Clearing settings f) hstart fun _ _ _ _ _ h ↦ h.step hf hasked).imp
  intro n g es hdone
  rw [yields_pure]
  refine ⟨by simpa using hdone.recorded, ?_, fun hneeded ↦ ?_⟩
  · rw [← idle_eq_nil_iff hdone.sound.wf, List.eq_nil_iff_forall_not_mem]
    intro p hp
    exact absurd ((hdone.pending p).mpr ((mem_idle_iff hdone.sound.wf).mp hp)) List.not_mem_nil
  · have hcount := hdone.count
    rw [(idle_eq_nil_iff hf.wf).mpr hneeded] at hcount
    simpa using hcount

end Handlers

/-! ### Blocks that nothing reaches -/

namespace Placement

variable {c : FlowGraph}

/-- The entry or an exported block leads to every block. -/
def Reached (f : Func) : Prop := ∀ b, f.contains b = true → f.Live b

private theorem mem_dead_iff (hf : f.Sound) (hc : c.Depicts f) {b : BlockId} :
    b ∈ dead c ↔ f.contains b = true ∧ ¬f.Live b := by
  have hsize : c.live.size = f.layout.length := by
    rw [FlowGraph.live, Digraph.size_reachable, hc.size_eq]
  simp only [dead, List.mem_filterMap, List.mem_filter, Prod.exists,
    List.mk_mem_zipIdx_iff_getElem?, Array.getElem?_toList, hc.block?_eq]
  constructor
  · rintro ⟨mark, n, ⟨hmark, hdead⟩, hn⟩
    refine ⟨(hf.wf.mem_layout b).mp (List.mem_of_getElem? hn), ?_⟩
    rw [← hc.live_iff hf.intact hn, hmark]
    simpa using hdead
  · rintro ⟨hb, hdead⟩
    obtain ⟨n, hn⟩ := hf.wf.exists_index hb
    have hlt : n < c.live.size := by
      rw [hsize]
      exact (List.getElem?_eq_some_iff.mp hn).1
    rw [← hc.live_iff hf.intact hn, Array.getElem?_eq_getElem hlt] at hdead
    exact ⟨c.live[n], n, ⟨Array.getElem?_eq_getElem hlt, by simpa using hdead⟩, hn⟩

private theorem nodup_dead (hf : f.Sound) (hc : c.Depicts f) : (dead c).Nodup := by
  have hindex : (dead c) = ((c.live.toList.zipIdx.filter fun n ↦ !n.1).map Prod.snd).filterMap
      c.block? := by
    rw [List.filterMap_map]
    rfl
  have hnodup : ((c.live.toList.zipIdx.filter fun n ↦ !n.1).map Prod.snd).Nodup := by
    apply (List.filter_sublist.map Prod.snd).nodup
    rw [List.zipIdx_map_snd]
    exact List.nodup_range'
  rw [hindex]
  apply hnodup.filterMap
  intro m n b hm hn
  rw [Option.mem_def, hc.block?_eq] at hm hn
  exact hf.wf.index_unique hm hn

/-- Exactly the blocks that nothing reaches are gone. -/
def Pruned (f g : Func) : Prop :=
  ∃ l, (∀ b, b ∈ l ↔ f.contains b = true ∧ ¬f.Live b) ∧ g = f.removeBlocks l

section

variable {b : BlockId} (h : Pruned f g)

include h

/-- Pruning keeps which blocks are exported. -/
theorem Pruned.isExported_iff : g.IsExported b ↔ f.IsExported b := by
  obtain ⟨l, hl, rfl⟩ := h
  exact Sound.isExported_removeBlocks fun b hb ↦ ((hl b).mp hb).2

variable (hf : f.Sound)

include hf

/-- Pruning leaves a sound function sound. -/
theorem Pruned.sound : g.Sound := by
  obtain ⟨l, hl, rfl⟩ := h
  exact hf.removeBlocks hl

/-- Pruning keeps the live blocks as they are. -/
theorem Pruned.agrees : Agrees f.Live f g := by
  obtain ⟨l, hl, rfl⟩ := h
  exact hf.agrees_removeBlocks fun b hb ↦ ((hl b).mp hb).2

/-- Pruning keeps which blocks are live. -/
theorem Pruned.live_iff : g.Live b ↔ f.Live b :=
  (h.agrees hf).live_iff fun _ ↦ h.isExported_iff

/-- After pruning, the live blocks are all there is. -/
theorem Pruned.contains_iff : g.contains b = true ↔ f.Live b := by
  obtain ⟨l, hl, rfl⟩ := h
  rw [contains_removeBlocks, hl]
  constructor
  · rintro ⟨hb, hnot⟩
    by_contra hdead
    exact hnot ⟨hb, hdead⟩
  · intro hb
    exact ⟨hb.contains hf.intact, fun hdead ↦ hdead.2 hb⟩

private theorem Pruned.reached : Reached g :=
  fun _ hb ↦ (h.live_iff hf).mpr ((h.contains_iff hf).mp hb)

/-- Pruning keeps the order of the layout. -/
theorem Pruned.layout_sublist : g.layout.Sublist f.layout := by
  obtain ⟨l, _, rfl⟩ := h
  rw [hf.wf.layout_removeBlocks]
  exact List.filter_sublist

end

/-- What holds while the blocks `l` of the list `gone` are still to be dropped. -/
structure Removing (f : Func) (gone l : List BlockId) (n : Nat) (g : Func) (es : List Event) :
    Prop where
  func : g = f.removeBlocks (es.flatMap Event.removes)
  split : es.flatMap Event.removes ++ l = gone
  count : n = (es.flatMap Event.removes).length
  told : decide (n ≠ 0) = es.any fun e ↦ e.kind.isTransformation
  kinds : ∀ e ∈ es, e.kind = .blockRemoved

private theorem Removing.step {gone l : List BlockId} {b : BlockId} {n : Nat} {es : List Event}
    {E : Fault → Prop} (h : Removing f gone (b :: l) n g es) :
    (drop b).Yields g (fun m k es' ↦ Removing f gone l (n + m) k (es ++ es')) E := by
  simp only [drop, yields_bind, yields_update, yields_record, yields_pure]
  constructor
  · rw [h.func]
    simp [removeBlocks, Event.removes]
  · rw [← h.split]
    simp [Event.removes]
  · rw [h.count]
    simp [Event.removes]
  · simp [EventKind.isTransformation]
  · intro e he
    simp only [List.nil_append, List.append_nil, List.mem_append, List.mem_singleton] at he
    rcases he with he | rfl
    · exact h.kinds e he
    · rfl

/-- The pass leaves only blocks that something reaches, and finds nothing to do where all are. -/
theorem yields_run (hf : f.Sound) (hasked : settings.placeBlocks = true) {E : Fault → Prop} :
    run.Yields f (fun changed g es ↦ Recorded settings f changed g es ∧ Pruned f g ∧ Reached g ∧
      (Reached f → changed = false)) E := by
  obtain ⟨c, hc⟩ := FlowGraph.exists_ofFunc hf.intact
  have hdepicts := FlowGraph.depicts_of_ofFunc hf.wf hc
  have hdead (b : BlockId) : b ∈ dead c ↔ f.contains b = true ∧ ¬f.Live b :=
    mem_dead_iff hf hdepicts
  have hstart : Removing f (dead c) (dead c) 0 f [] := by
    constructor <;> simp [removeBlocks]
  rw [run, yields_bind, yields_current, yields_bind, yields_ofExcept_of_ok hc, yields_bind]
  apply (yields_sumOver (Removing f (dead c)) hstart fun _ _ _ _ _ h ↦ h.step).imp
  intro n g es hdone
  rw [yields_pure]
  have hgone : es.flatMap Event.removes = dead c := by simpa using hdone.split
  have hedits : Edits settings f (es.flatMap Event.removes) g := by
    rw [hdone.func]
    exact .single (.prune hasked (hgone ▸ hdead) (hgone ▸ nodup_dead hf hdepicts))
  have hzero : n = 0 ↔ es.flatMap Event.removes = [] := by
    rw [hdone.count, List.length_eq_zero_iff]
  have hpruned : Pruned f g := ⟨_, hgone ▸ hdead, hdone.func⟩
  refine ⟨?_, hpruned, hpruned.reached hf, fun hreached ↦ ?_⟩
  · simp only [List.nil_append, List.append_nil]
    refine ⟨⟨hedits, hdone.told, fun hnone ↦ ?_, fun e he hkind ↦ ?_⟩, fun hsome ↦ ?_⟩
    · have hn : n = 0 := by simpa using hnone
      rw [hdone.func, hzero.mp hn]
      rfl
    · rw [hdone.kinds e he] at hkind
      contradiction
    · apply hedits.loses hf
      rw [ne_eq, ← hzero]
      simpa using hsome
  · have hnil : es.flatMap Event.removes = [] := by
      rw [hgone, List.eq_nil_iff_forall_not_mem]
      intro b hb
      obtain ⟨hlive, hnot⟩ := (hdead b).mp hb
      exact hnot (hreached b hlive)
    simpa using hzero.mpr hnil

end Placement

end Bytecode
