import Bytecode.Proofs.Optimize.Ways

/-!
# Edits and the stack

Heights that balance a function balance what edits make of it. Whether its exported blocks are
grounded along the edges that stay is the same before and after. And if the check of the stack
accepts the function before and after, then it has found the same heights at exported blocks: of
two tables of heights, the larger one at some block would have to come from a larger one at an
earlier block.
-/

namespace Bytecode

namespace Func

open Relation

variable {f g : Func} {settings : Settings} {H H' : BlockId → Nat} {a b r t T x : BlockId}
  {gone : List BlockId}

/-! ### Heights under edits -/

/-- Blocks may be replaced by others that have the same effect on the stack, and handlers may
go. -/
theorem Balances.of_blocks (h : f.Balances H) (hentry : g.entry? = f.entry?)
    (hexp : ∀ b, g.IsExported b → f.IsExported b) (hleads : ∀ a b, g.Leads a b ↔ f.Leads a b)
    (hblock : ∀ b B', g.block? b = some B' → ∃ B, f.block? b = some B ∧
      (∀ k final, walkCode 0 k B.code = .ok final → walkCode 0 k B'.code = .ok final) ∧
      ∀ c, B'.handler = some c → B.handler = some c) : g.Balances H := by
  have hlive {b : BlockId} (hb : g.Live b) : f.Live b := by
    induction hb with
    | entry he => exact .entry (hentry ▸ he)
    | exported hb => exact .exported (hexp _ hb)
    | leads _ hab ih => exact .leads ih ((hleads _ _).mp hab)
  refine ⟨fun e he ↦ h.entry e (hentry ▸ he), fun b B' hb hB' ↦ ?_⟩
  obtain ⟨B, hB, hwalk, hhandler⟩ := hblock b B' hB'
  obtain ⟨final, hok, hsucc, hzero⟩ := h.walk b B (hlive hb) hB
  exact ⟨final, hwalk _ _ hok, fun c hc ↦ hsucc c ((hleads b c).mp hc),
    fun c hc ↦ hzero c (hhandler c hc)⟩

/-- Heights stay balanced when a handler is cleared. -/
theorem Balances.clearHandler (h : f.Balances H) : (f.clearHandler b).Balances H := by
  refine h.of_blocks rfl (fun x hx ↦ ?_) (fun x _ ↦ leads_congr (successors_clearHandler f b x))
    fun x B' hB' ↦ ?_
  · obtain ⟨B', hB', hexp⟩ := hx
    obtain ⟨B, hB, rfl⟩ := block?_clearHandler_eq_some_iff.mp hB'
    exact ⟨B, hB, hexp⟩
  · obtain ⟨B, hB, rfl⟩ := block?_clearHandler_eq_some_iff.mp hB'
    refine ⟨B, hB, fun _ _ hok ↦ hok, fun c hc ↦ ?_⟩
    by_cases hx : x = b
    · simp [hx] at hc
    · simpa [hx] using hc

private theorem Balances.renamed (h : f.Balances H) {m : Register → Register}
    (hg : Renames m f g) : g.Balances H := by
  refine h.of_blocks hg.entry?_eq (fun _ ↦ hg.isExported_iff.mp) (fun _ _ ↦ hg.leads_iff)
    fun x B' hB' ↦ ?_
  obtain ⟨B, hB, rfl⟩ := hg.block?_eq_some_iff.mp hB'
  refine ⟨B, hB, fun k final hok ↦ walkCode_map (fun i ↦ ?_) (fun i hi ↦ ?_) hok, fun c hc ↦ hc⟩
  · cases i <;> rfl
  · cases i <;> first | rfl | contradiction

/-- What becomes of blocks that are not live does not matter. -/
theorem Agrees.balances (h : Agrees f.Live f g) (hexp : ∀ b, g.IsExported b ↔ f.IsExported b)
    (hH : f.Balances H) : g.Balances H := by
  refine ⟨fun e he ↦ hH.entry e (h.entry_eq ▸ he), fun b B hb hB ↦ ?_⟩
  have hb' := (h.live_iff hexp).mp hb
  rw [h.block? b hb'] at hB
  obtain ⟨final, hwalk, hleads, hhandler⟩ := hH.walk b B hb' hB
  exact ⟨final, hwalk, fun c hc ↦ hleads c ((h.leads_iff hb').mp hc), hhandler⟩

/-- Blocks that jump to each other have one height. -/
theorem Balances.eq_of_forwards (h : f.Balances H) (ha : f.Live a)
    (hrow : ReflTransGen f.Forwards a b) : f.Live b ∧ H b = H a := by
  induction hrow with
  | refl => exact ⟨ha, rfl⟩
  | @tail b c _ hbc ih =>
    refine ⟨.leads ih.1 hbc.leads, ?_⟩
    obtain ⟨B, hB, _, hcode⟩ := id hbc
    obtain ⟨final, hwalk, hleads, _⟩ := h.walk b B ih.1 hB
    rw [hcode, ← List.nil_append [Instr.jump c], walkCode_append_jump, walkCode,
      Except.ok.injEq] at hwalk
    rw [hleads c hbc.leads, ← hwalk, ih.2]

private theorem Balances.bypass (h : f.Balances H) (hf : f.Sound)
    (hrow : ReflTransGen f.Forwards t T) (hne : T ≠ t) : (f.bypass t T).Balances H := by
  have hrep := replaceable_of_forwards hf hrow hne
  have hg := hrep.rerouted hf
  have hstands {x : BlockId} (hx : f.Live x) :
      f.Live (retarget t T x) ∧ H (retarget t T x) = H x := by
    rw [retarget]
    split
    · next heq => exact h.eq_of_forwards hx (heq ▸ hrow)
    · exact ⟨hx, rfl⟩
  have hlive {b : BlockId} (hb : (f.bypass t T).Live b) : f.Live b := by
    induction hb with
    | entry he =>
      rw [hg.entry_eq, Option.map_eq_some_iff] at he
      obtain ⟨e, he, rfl⟩ := he
      exact (hstands (.entry he)).1
    | exported hb => exact .exported (hrep.isExported_bypass_iff.mp hb)
    | leads _ hab ih =>
      obtain ⟨_, x, hx, rfl⟩ := hg.leads_iff.mp hab
      exact (hstands (.leads ih hx)).1
  constructor
  · intro e he
    rw [hg.entry_eq, Option.map_eq_some_iff] at he
    obtain ⟨e, he, rfl⟩ := he
    rw [(hstands (.entry he)).2, h.entry e he]
  · intro b B hb hB
    obtain ⟨_, B₀, hB₀, rfl⟩ := hg.block?_eq_some_iff.mp hB
    obtain ⟨final, hwalk, hleads, hhandler⟩ := h.walk b B₀ (hlive hb) hB₀
    refine ⟨final, walkCode_map (fun i ↦ ?_) (fun i hi ↦ ?_) hwalk, fun c hc ↦ ?_, hhandler⟩
    · cases i <;> rfl
    · cases i <;> first | rfl | contradiction
    · obtain ⟨_, x, hx, rfl⟩ := hg.leads_iff.mp hc
      rw [(hstands (.leads (hlive hb) hx)).2, hleads x hx]

/-- A chain can be walked from the height of its first block, and ends with that of the last
one. -/
theorem Balances.walk_fusedCode (hH : f.Balances H) {head : BlockId} {l : List BlockId}
    {handler : Option BlockId} {code : List Instr} (hl : List.IsChain f.Jumps (a :: l))
    (hcode : Merge.fusedCode f head handler (a :: l) = .ok code) (ha : f.Live a) :
    ∃ final, walkCode 0 (H a) code = .ok final ∧
      ∀ c, f.Leads ((a :: l).getLast (List.cons_ne_nil a l)) c → H c = final := by
  induction l generalizing a code with
  | nil =>
    obtain ⟨A, hA, _, rfl⟩ := fusedCode_singleton_eq_ok_iff.mp hcode
    obtain ⟨final, hwalk, hleads, _⟩ := hH.walk a A ha hA
    exact ⟨final, hwalk, hleads⟩
  | cons b l ih =>
    obtain ⟨A, rest, hA, _, hrest, rfl⟩ :=
      (fusedCode_cons_eq_ok_iff (List.cons_ne_nil b l)).mp hcode
    obtain ⟨hab, hl'⟩ := List.isChain_cons_cons.mp hl
    obtain ⟨between, hwalk, hleads, _⟩ := hH.walk a A ha hA
    obtain ⟨final, hwalk', hlast⟩ := ih hl' hrest (.leads ha hab.leads)
    obtain ⟨A', hA', hjump⟩ := id hab
    obtain rfl := Option.some.inj (hA.symm.trans hA')
    rw [Block.code_eq_of_terminator? hjump, walkCode_append_jump] at hwalk
    rw [hleads b hab.leads] at hwalk'
    rw [List.getLast_cons (List.cons_ne_nil b l)]
    exact ⟨final, walkCode_append_eq_ok_iff.mpr ⟨between, hwalk, hwalk'⟩, hlast⟩

private theorem Balances.setCode (hH : f.Balances H) (hf : f.Sound) {P : BlockId → Prop}
    {K : Merge.Chain} {A : Block} {code : List Instr} (hK : Merge.Fusible f P K)
    (hcode : Merge.fusedCode f K.head A.handler K.blocks = .ok code) :
    (f.setCode K.head code).Balances H := by
  have hfuses := hK.fuses hf hcode
  have hleads {a b : BlockId} (ha : a ≠ K.head) :
      (f.setCode K.head code).Leads a b ↔ f.Leads a b :=
    leads_congr (successors_setCode_of_ne ha)
  have hlast (hhead : f.Live K.head) : f.Live K.last :=
    f.closed_live.mem_of_isChain (hK.linked.imp fun _ _ hlink ↦ hlink.leads) hhead K.last_mem
  have hlive {b : BlockId} (hb : (f.setCode K.head code).Live b) : f.Live b := by
    induction hb with
    | entry he => exact .entry he
    | exported hb => exact .exported (isExported_setCode.mp hb)
    | @leads a b _ hab ih =>
      by_cases ha : a = K.head
      · rw [ha, hfuses.leads_setCode hf] at hab
        exact .leads (hlast (ha ▸ ih)) hab
      · exact .leads ih ((hleads ha).mp hab)
  refine ⟨fun e he ↦ hH.entry e he, fun b B hb hB ↦ ?_⟩
  obtain ⟨B₀, hB₀, rfl⟩ := block?_setCode_eq_some_iff.mp hB
  obtain ⟨final, hwalk, hsucc, hhandler⟩ := hH.walk b B₀ (hlive hb) hB₀
  by_cases hhead : b = K.head
  · obtain ⟨final', hwalk', hend⟩ := hH.walk_fusedCode hK.isChain_jumps hcode (hhead ▸ hlive hb)
    refine ⟨final', by simpa [hhead] using hwalk', fun c hc ↦ ?_, hhandler⟩
    rw [hhead, hfuses.leads_setCode hf] at hc
    exact hend c hc
  · exact ⟨final, by simpa [hhead] using hwalk, fun c hc ↦ hsucc c ((hleads hhead).mp hc),
      hhandler⟩

private theorem Edit.balances (hf : f.Sound) (h : Edit settings f gone g) (hH : f.Balances H) :
    g.Balances H := by
  have hexp := (h.descends hf).exported
  cases h with
  | clear => exact hH.clearHandler
  | hop _ hrow hne => exact hH.bypass hf hrow hne
  | inline _ _ hK hcode =>
    obtain ⟨A, _, hcode⟩ := Merge.Chain.code_eq_ok_iff.mp hcode
    exact hH.setCode hf hK hcode
  | cut _ hP _ hb hla hlb => exact (agrees_live_bypass hf hP hb hlb hla).balances hexp hH
  | prune _ hl _ =>
    exact (hf.agrees_removeBlocks fun b hb ↦ ((hl b).mp hb).2).balances hexp hH
  | @rename m count => exact hH.renamed (Slots.renames_rename m count f)

/-- Heights stay balanced under edits. -/
theorem Edits.balances (hf : f.Sound) (h : Edits settings f gone g) (hH : f.Balances H) :
    g.Balances H := by
  induction h with
  | refl => exact hH
  | tail hsteps hstep ih => exact hstep.balances (hsteps.sound hf) ih

/-! ### Grounded blocks under edits -/

private theorem Edit.grounded_iff (hf : f.Sound) (h : Edit settings f gone g) (hH : f.Balances H) :
    g.Grounded (g.Carries settings) H ↔ f.Grounded (f.Carries settings) H := by
  have hexp := (h.descends hf).exported
  constructor
  · intro hground x hx hne
    obtain ⟨r, hstart, hway⟩ := hground x ((hexp x).mpr hx) hne
    have hfirst (he : g.entry? = some r) :
        ∃ r, f.StartsBefore r x ∧ ReflTransGen (f.Carries settings) r x := by
      obtain ⟨e, he, hway'⟩ := (h.routes_back hf).entry r x he ((hexp x).mpr hx) hway
      exact ⟨e, .inl he, hway'⟩
    rcases hstart with he | ⟨hr, hprec⟩
    · exact hfirst he
    · rcases h.precedes_back hf ((hexp r).mp hr) hx hprec with hprec' | he
      · exact ⟨r, .inr ⟨(hexp r).mp hr, hprec'⟩,
          (h.routes_back hf).exported r x hr ((hexp x).mpr hx) hway⟩
      · exact hfirst he
  · intro hground x hx hne
    rw [hexp] at hx
    obtain ⟨r, hstart, hway⟩ := hground x hx hne
    rcases hstart with he | ⟨hr, hprec⟩
    · obtain ⟨e, he, hway'⟩ := (h.routes hf).entry r x he hx hway
      exact ⟨e, .inl he, hway'⟩
    · -- A block that becomes the entry has an empty stack.
      have hprec' := (h.precedes hf hr hx hprec).resolve_right
        fun he ↦ hne ((h.balances hf hH).entry x he)
      exact ⟨r, .inr ⟨(hexp r).mpr hr, hprec'⟩, (h.routes hf).exported r x hr hx hway⟩

/-- Edits keep which balanced heights are grounded, but for handlers that are taken away. -/
theorem Edits.grounded_iff (hf : f.Sound) (h : Edits settings f gone g) (hH : f.Balances H) :
    g.Grounded (g.Carries settings) H ↔ f.Grounded (f.Carries settings) H := by
  induction h with
  | refl => exact Iff.rfl
  | tail hsteps hstep ih =>
    rw [hstep.grounded_iff (hsteps.sound hf) (hsteps.balances hf hH), ih]

/-! ### Two tables of heights -/

/-- Along a way, heights that balance keep their distance, or become equal at a handler. -/
theorem Balances.shift (hf : f.Sound) (h : f.Balances H) (h' : f.Balances H') (ha : f.Live a)
    (hway : ReflTransGen f.Follows a x) :
    f.Live x ∧ (H x = H' x ∨ H x + H' a = H' x + H a) := by
  obtain ⟨hx, hshift⟩ := (h.levels hf).shift hf.intact (h'.levels hf) ha.reached hway
  exact ⟨hx.live hf, hshift⟩

/-- A path keeps to the edges that stay, or does so from a handler on. -/
theorem Balances.way_or_handler (hf : f.Sound) (h : f.Balances H) (hr : f.Live r)
    (hpath : ReflTransGen f.Follows r x) :
    f.Live x ∧ (ReflTransGen (f.Carries settings) r x ∨
      ∃ c, f.IsExported c ∧ H c = 0 ∧ ReflTransGen (f.Carries settings) c x) := by
  induction hpath with
  | refl => exact ⟨hr, .inl .refl⟩
  | @tail y z _ hyz ih =>
    refine ⟨hyz.live hf ih.1, ?_⟩
    cases hyz with
    | inl hyz =>
      rcases ih.2 with hway | ⟨c, hc, hzero, hway⟩
      · exact .inl (hway.tail (.inl hyz))
      · exact .inr ⟨c, hc, hzero, hway.tail (.inl hyz)⟩
    | inr hyz =>
      obtain ⟨Y, hY, hh⟩ := hyz
      obtain ⟨_, _, _, hhandler⟩ := h.walk y Y ih.1 hY
      exact .inr ⟨z, hf.handler_exported y Y z hY hh, hhandler z hh, .refl⟩

/-- Heights for which exported blocks are grounded are not above others that balance. -/
theorem Grounded.le (hf : f.Sound) (hg : g.Sound) (hexp : ∀ b, f.IsExported b → g.IsExported b)
    (hroutes : Routes settings f g) (h : f.Balances H) (hground : f.Grounded f.Follows H)
    (hgH : g.Balances H) (hgH' : g.Balances H') (hx : f.IsExported x) : H x ≤ H' x := by
  obtain ⟨n, hn⟩ := hf.wf.exists_index hx.contains
  have hshift {c y : BlockId} (hc : g.Live c) (hway : ReflTransGen (g.Carries settings) c y) :=
    (hgH.shift hg hgH' hc (ReflTransGen.mono (fun _ _ hab ↦ hab.follows) _ _ hway)).2
  -- The induction is on the place in the layout.
  induction n using Nat.strong_induction_on generalizing x with
  | _ n ih =>
    by_contra hlt
    obtain ⟨r, hstart, hpath⟩ := hground x hx (by omega)
    have hr : f.Live r := hstart.elim .entry fun h ↦ .exported h.1
    rcases (h.way_or_handler hf hr hpath).2 with hway | ⟨c, hc, hzero, hway⟩
    · rcases hstart with he | ⟨hexported, m, n', hm, hn', hlt'⟩
      · obtain ⟨e, he', hway'⟩ := hroutes.entry r x he hx hway
        have := hshift (.entry he') hway'
        have := hgH.entry e he'
        have := hgH'.entry e he'
        omega
      · have := hshift (.exported (hexp r hexported)) (hroutes.exported r x hexported hx hway)
        obtain rfl := hf.wf.index_unique hn hn'
        have := ih m hlt' hexported hm
        omega
    · have := hshift (.exported (hexp c hc)) (hroutes.exported c x hc hx hway)
      omega

/-- If the check accepts a function and another one that has its ways, then it finds the same
heights at exported blocks. -/
theorem entryHeight_eq_of_accepted {l l' : StackLayout} (hf : f.Sound) (hv : f.Valid)
    (h : f.stackLayout = .ok l) (hg : g.Sound) (hgv : g.Valid) (h' : g.stackLayout = .ok l')
    (hexp : ∀ b, g.IsExported b ↔ f.IsExported b) (hroutes : Routes settings f g)
    (hH : g.Balances l.entryHeight) (hx : g.IsExported x) :
    l.entryHeight x = l'.entryHeight x := by
  have hground := grounded_of_stackLayout hv h
  have hground' := grounded_of_stackLayout hgv h'
  have hbalances := balances_of_stackLayout hv h
  have hbalances' := balances_of_stackLayout hgv h'
  apply Nat.le_antisymm
  · exact hground.le hf hg (fun b hb ↦ (hexp b).mpr hb) hroutes hbalances hH hbalances'
      ((hexp x).mp hx)
  · exact hground'.le hg hg (fun _ hb ↦ hb) (.refl settings g) hbalances' hbalances' hH hx

/-- So the heights found in the first ground the exported blocks of the second. -/
theorem grounded_of_accepted {l l' : StackLayout} (hf : f.Sound) (hv : f.Valid)
    (h : f.stackLayout = .ok l) (hg : g.Sound) (hgv : g.Valid) (h' : g.stackLayout = .ok l')
    (hexp : ∀ b, g.IsExported b ↔ f.IsExported b) (hroutes : Routes settings f g)
    (hH : g.Balances l.entryHeight) : g.Grounded g.Follows l.entryHeight := by
  intro x hx hne
  rw [entryHeight_eq_of_accepted hf hv h hg hgv h' hexp hroutes hH hx] at hne
  exact grounded_of_stackLayout hgv h' x hx hne

end Func

end Bytecode
