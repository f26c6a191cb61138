import Bytecode.Optimize.Merge
import Bytecode.Proofs.Optimize.Balance

/-!
# Ways through merged functions

Merging leaves, for every live block, one that stands for it: the end of its way for a trampoline,
the head of its chain for a block that is taken in. Every edge becomes a way between the blocks
that stand for its ends, and handlers are lost only with mere jumps. Conversely, every edge of the
result is a way through the function. As a trampoline has the height of its end, and a chain goes
through the heights of its blocks, the bounds for the heights are the same before and after.
-/

namespace Bytecode

open Relation

variable {k height between : Nat} {code : List Instr}

/-! ### Heights in code -/

/-- Only the effects of the instructions count. -/
theorem heightProfile_map {φ : Instr → Instr} (heffect : ∀ i, (φ i).effect = i.effect)
    (height : Nat) (code : List Instr) :
    heightProfile height (code.map φ) = heightProfile height code := by
  induction code generalizing height with
  | nil => rfl
  | cons i code ih =>
    rw [List.map_cons, heightProfile, heightProfile, Instr.heightAfter, heffect,
      ← Instr.heightAfter, ih]

private theorem mem_heightProfile_self (height : Nat) (code : List Instr) :
    height ∈ heightProfile height code :=
  List.mem_of_getElem? (heightProfile_zero height code)

/-- Code in two parts goes through the heights of both. -/
theorem mem_heightProfile_append {offset : Nat} {code' : List Instr}
    (h : walkCode offset height code = .ok between) :
    k ∈ heightProfile height (code ++ code') ↔
      k ∈ heightProfile height code ∨ k ∈ heightProfile between code' := by
  induction code generalizing offset height with
  | nil =>
    cases h
    rw [List.nil_append, heightProfile, List.mem_singleton]
    constructor
    · exact .inr
    · rintro (rfl | hk)
      · exact mem_heightProfile_self k code'
      · exact hk
  | cons i code ih =>
    rw [walkCode] at h
    split at h
    · contradiction
    · next next hadvance =>
      rw [← (advance_eq_ok_iff.mp hadvance).2.2] at h
      rw [List.cons_append, heightProfile, heightProfile, List.mem_cons, List.mem_cons, ih h,
        or_assoc]

/-- A jump at the end adds no height. -/
theorem mem_heightProfile_append_jump {offset : Nat} {b : BlockId}
    (h : walkCode offset height code = .ok between) :
    k ∈ heightProfile height (code ++ [.jump b]) ↔ k ∈ heightProfile height code := by
  have hjump : heightProfile between [.jump b] = [between, between] := rfl
  rw [mem_heightProfile_append h, hjump]
  constructor
  · rintro (hk | hk)
    · exact hk
    · obtain rfl : k = between := by simpa using hk
      exact List.mem_of_getElem? (walkCode_profile h).1
  · exact .inl

namespace Func

variable {f g k : Func} {H H' : BlockId → Nat} {D : Nat} {ρ σ : BlockId → BlockId}
  {a b e x : BlockId}

/-- No height in a live block is above the bound. -/
def Within (f : Func) (H : BlockId → Nat) (D : Nat) : Prop :=
  ∀ b B, f.Live b → f.block? b = some B → ∀ k ∈ heightProfile (H b) B.code, k ≤ D

/-- The passes are asked for nothing but merging. -/
def merging : Settings :=
  { simplifyHandlers := false, placeBlocks := false, reduceRegisters := false }

/-! ### Blocks that stand for others -/

/-- Of the second function, some block stands for each live block of the first. -/
structure Condenses (ρ : BlockId → BlockId) (f g : Func) : Prop where
  edits : ∃ gone, Edits merging f gone g
  exported : ∀ b, f.IsExported b → ρ b = b
  kept : ∀ b, f.Live b → g.contains b = true → ρ b = b
  entry : ∀ e, f.entry? = some e → g.entry? = some (ρ e)
  leads : ∀ a b, f.Live a → f.Leads a b → ReflTransGen g.Leads (ρ a) (ρ b)
  busy : ∀ a A, f.Live a → f.block? a = some A → (¬∃ x, f.Forwards a x) →
    (∃ A', g.block? (ρ a) = some A' ∧ A'.handler = A.handler) ∧ ¬∃ x, g.Forwards (ρ a) x

/-- The edges of the second function are ways of the first, and the entry of the first leads to
that of the second. -/
structure Retraces (f g : Func) : Prop where
  entry : ∀ e, g.entry? = some e → ∃ e₀, f.entry? = some e₀ ∧ ReflTransGen f.Leads e₀ e
  leads : ∀ a b, g.Live a → g.Leads a b → ReflTransGen f.Leads a b

private theorem Live.of_leads (ha : f.Live a) (hab : ReflTransGen f.Leads a b) : f.Live b := by
  induction hab with
  | refl => exact ha
  | tail _ hstep ih => exact .leads ih hstep

/-- What is live in the second function was live in the first. -/
theorem Retraces.live (h : Retraces f g) (hexp : ∀ b, g.IsExported b ↔ f.IsExported b)
    (hb : g.Live b) : f.Live b := by
  induction hb with
  | entry he =>
    obtain ⟨e₀, he₀, hway⟩ := h.entry _ he
    exact Live.of_leads (.entry he₀) hway
  | exported hb => exact .exported ((hexp _).mp hb)
  | leads ha hab ih => exact ih.of_leads (h.leads _ _ ha hab)

private theorem Retraces.trans (h : Retraces f g) (hexp : ∀ b, k.IsExported b ↔ g.IsExported b)
    (h' : Retraces g k) : Retraces f k := by
  have hway {a b : BlockId} (ha : g.Live a) (hab : ReflTransGen g.Leads a b) :
      ReflTransGen f.Leads a b := by
    induction hab with
    | refl => exact .refl
    | tail hpath hstep ih => exact ih.trans (h.leads _ _ (ha.of_leads hpath) hstep)
  constructor
  · intro e he
    obtain ⟨e₁, he₁, hpath⟩ := h'.entry e he
    obtain ⟨e₀, he₀, hfirst⟩ := h.entry e₁ he₁
    exact ⟨e₀, he₀, hfirst.trans (hway (.entry he₁) hpath)⟩
  · intro a b ha hab
    exact hway (h'.live hexp ha) (h'.leads a b ha hab)

namespace Condenses

section

variable (h : Condenses ρ f g) (hf : f.Sound)

include h hf

/-- Condensing keeps which blocks are exported. -/
theorem isExported_iff (b : BlockId) : g.IsExported b ↔ f.IsExported b := by
  obtain ⟨_, hedits⟩ := h.edits
  exact (hedits.descends hf).exported b

/-- Condensing keeps a function sound. -/
theorem sound : g.Sound := by
  obtain ⟨_, hedits⟩ := h.edits
  exact hedits.sound hf

/-- A block that was live is so still, by the one that stands for it. -/
theorem live (hb : f.Live b) : g.Live (ρ b) := by
  induction hb with
  | entry he => exact .entry (h.entry _ he)
  | @exported b hb =>
    rw [h.exported b hb]
    exact .exported ((h.isExported_iff hf b).mpr hb)
  | leads ha hab ih => exact ih.of_leads (h.leads _ _ ha hab)

/-- No block of the result has another handler than before. -/
theorem handler_eq {A' : Block} (hA' : g.block? a = some A') :
    ∃ A, f.block? a = some A ∧ A'.handler = A.handler := by
  obtain ⟨_, hedits⟩ := h.edits
  obtain ⟨A, hA, hhandler, _⟩ := (hedits.descends hf).block? a A' hA'
  exact ⟨A, hA, hhandler.resolve_right fun hclears ↦ Bool.false_ne_true hclears.1⟩

private theorem trans (h' : Condenses σ g k) : Condenses (σ ∘ ρ) f k where
  edits := by
    obtain ⟨gone, hedits⟩ := h.edits
    obtain ⟨gone', hedits'⟩ := h'.edits
    exact ⟨gone ++ gone', hedits.trans hedits'⟩
  exported b hb := by
    show σ (ρ b) = b
    rw [h.exported b hb]
    exact h'.exported b ((h.isExported_iff hf b).mpr hb)
  kept b hb hk := by
    obtain ⟨gone', hedits'⟩ := h'.edits
    have hself := h.kept b hb (hedits'.contains_iff.mp hk).1
    have hlive := h.live hf hb
    rw [hself] at hlive
    show σ (ρ b) = b
    rw [hself]
    exact h'.kept b hlive hk
  entry e he := h'.entry _ (h.entry e he)
  leads a b ha hab := by
    have hway {x y : BlockId} (hx : g.Live x) (hxy : ReflTransGen g.Leads x y) :
        ReflTransGen k.Leads (σ x) (σ y) := by
      induction hxy with
      | refl => exact .refl
      | tail hpath hstep ih => exact ih.trans (h'.leads _ _ (hx.of_leads hpath) hstep)
    exact hway (h.live hf ha) (h.leads a b ha hab)
  busy a A ha hA hbusy := by
    obtain ⟨⟨A', hA', hhandler⟩, hbusy'⟩ := h.busy a A ha hA hbusy
    obtain ⟨⟨A'', hA'', hhandler'⟩, hbusy''⟩ := h'.busy (ρ a) A' (h.live hf ha) hA' hbusy'
    exact ⟨⟨A'', hA'', hhandler'.trans hhandler⟩, hbusy''⟩

end

end Condenses

end Func

/-! ### Trampolines -/

namespace Merge

open Func Transform

variable {f g : Func} {H : BlockId → Nat} {D : Nat} {gone : List BlockId} {x T : BlockId}

/-- The way of a trampoline is a row of jumps. -/
theorem forwards_of_endsAt (hw : f.WF) (h : (ways f).EndsAt x T) :
    ReflTransGen f.Forwards x T := by
  induction h with
  | stop => exact .refl
  | step hnext _ ih => exact .head ((next?_ways_iff hw).mp hnext).1 ih

private theorem forwards_dest (hw : f.WF) (x : BlockId) :
    ReflTransGen f.Forwards x ((ways f).dest x) := by
  by_cases hends : ∃ T, (ways f).EndsAt x T
  · obtain ⟨T, hT⟩ := hends
    rw [hT.dest_eq]
    exact forwards_of_endsAt hw hT
  · rw [Forwarding.dest_eq_self fun _ _ T hT ↦ hends ⟨T, hT⟩]

namespace Straightens

variable (h : Straightens f g gone) (hf : f.Sound)

include h hf

private theorem exists_forwards (hx : x ∈ gone) :
    ∃ y, f.Forwards x y ∧ (ways f).dest x = (ways f).dest y := by
  obtain ⟨⟨y, hy⟩, T, hT⟩ := (h.mem_gone x).mp hx
  exact ⟨y, ((next?_ways_iff hf.wf).mp hy).1, Forwarding.dest_of_next? hy hT⟩

private theorem not_mem_of_isExported (hx : f.IsExported x) : x ∉ gone := by
  intro hgone
  obtain ⟨y, hxy, _⟩ := h.exists_forwards hf hgone
  exact hxy.unexported hx

private theorem condenses (hedits : Edits merging f gone g) : Condenses (ways f).dest f g where
  edits := ⟨gone, hedits⟩
  exported b hb := h.dest_eq_self (h.not_mem_of_isExported hf hb)
  kept b _ hb := h.dest_eq_self (hedits.contains_iff.mp hb).2
  entry e he := by rw [h.rerouted.entry_eq, he, Option.map_some]
  leads a b _ hab := by
    by_cases ha : a ∈ gone
    · obtain ⟨y, hy, hdest⟩ := h.exists_forwards hf ha
      rw [hdest, hy.eq_of_leads hab]
    · rw [h.dest_eq_self ha]
      exact .single (h.rerouted.leads_iff.mpr ⟨ha, b, hab, rfl⟩)
  busy a A _ hA hbusy := by
    have ha : a ∉ gone := by
      intro ha
      obtain ⟨y, hy, _⟩ := h.exists_forwards hf ha
      exact hbusy ⟨y, hy⟩
    rw [h.dest_eq_self ha]
    refine ⟨⟨_, h.rerouted.block?_eq_some_iff.mpr ⟨ha, A, hA, rfl⟩, rfl⟩, ?_⟩
    rintro ⟨x, hx⟩
    obtain ⟨_, y, hy, _⟩ := h.rerouted.forwards_iff.mp hx
    exact hbusy ⟨y, hy⟩

private theorem retraces : Retraces f g where
  entry e he := by
    rw [h.rerouted.entry_eq, Option.map_eq_some_iff] at he
    obtain ⟨e₀, he₀, rfl⟩ := he
    exact ⟨e₀, he₀, ReflTransGen.mono (fun _ _ hxy ↦ hxy.leads) _ _ (forwards_dest hf.wf e₀)⟩
  leads a b _ hab := by
    obtain ⟨_, x, hx, rfl⟩ := h.rerouted.leads_iff.mp hab
    exact .head hx (ReflTransGen.mono (fun _ _ hxy ↦ hxy.leads) _ _ (forwards_dest hf.wf x))

/-- A trampoline has no height that its end does not start with. -/
theorem within_iff (hg : g.Sound) (hH : f.Balances H) : g.Within H D ↔ f.Within H D := by
  have hprofile (height : Nat) (B : Block) :
      heightProfile height (B.mapCode (Instr.mapTargets (ways f).dest)).code =
        heightProfile height B.code :=
    heightProfile_map (fun i ↦ by cases i <;> rfl) height B.code
  constructor
  · intro hwithin b B hb hB k hk
    have hlive := h.live_of_live hf hb
    by_cases hgone : b ∈ gone
    · obtain ⟨y, ⟨B', hB', _, hcode⟩, _⟩ := h.exists_forwards hf hgone
      obtain rfl := Option.some.inj (hB.symm.trans hB')
      have hself : k = H b := by
        rw [hcode] at hk
        simpa [heightProfile, Instr.heightAfter, Instr.effect] using hk
      obtain ⟨T, hT⟩ := contains_iff.mp (hlive.contains hg.intact)
      rw [hself, ← (hH.eq_of_forwards hb (forwards_dest hf.wf b)).2]
      exact hwithin _ T hlive hT _ (mem_heightProfile_self _ _)
    · rw [h.dest_eq_self hgone] at hlive
      exact hwithin b _ hlive (h.rerouted.block?_eq_some_iff.mpr ⟨hgone, B, hB, rfl⟩) k
        (hprofile (H b) B ▸ hk)
  · intro hwithin b B hb hB k hk
    obtain ⟨_, B₀, hB₀, rfl⟩ := h.rerouted.block?_eq_some_iff.mp hB
    exact hwithin b B₀ (h.live hf hb) hB₀ k (hprofile (H b) B₀ ▸ hk)

end Straightens

/-! ### Chains -/

variable {done : List Chain} {K : Chain} {a b head r r' : BlockId} {l : List BlockId}
  {handler : Option BlockId} {code : List Instr} {c : FlowGraph} {k : Nat}

/-- The head of the chain that takes the block in, or the block itself. -/
def standIn (done : List Chain) (x : BlockId) : BlockId :=
  match done.find? (x ∈ ·.rest) with
  | some K => K.head
  | none => x

private theorem standsBy_standIn (done : List Chain) (x : BlockId) :
    StandsBy done x (standIn done x) := by
  rw [standIn]
  split
  · next K hK =>
    have hrest : x ∈ K.rest := by simpa using List.find?_some hK
    exact .inl ⟨K, List.mem_of_find?_eq_some hK, List.mem_cons_of_mem _ hrest, rfl⟩
  · next hnone =>
    have hrest (K : Chain) (hK : K ∈ done) : x ∉ K.rest := by
      simpa using List.find?_eq_none.mp hnone K hK
    by_cases hhead : ∃ K ∈ done, x = K.head
    · obtain ⟨K, hK, rfl⟩ := hhead
      exact .inl ⟨K, hK, List.mem_cons_self, rfl⟩
    · refine .inr ⟨fun K hK hx ↦ ?_, rfl⟩
      rcases List.mem_cons.mp hx with hx | hx
      · exact hhead ⟨K, hK, hx⟩
      · exact hrest K hK hx

/-- A chain goes through the heights of its blocks. -/
theorem mem_heightProfile_fusedCode (hH : f.Balances H) (hl : List.IsChain f.Jumps (a :: l))
    (hcode : fusedCode f head handler (a :: l) = .ok code) (ha : f.Live a) :
    k ∈ heightProfile (H a) code ↔
      ∃ x ∈ a :: l, ∃ X, f.block? x = some X ∧ k ∈ heightProfile (H x) X.code := by
  induction l generalizing a code with
  | nil =>
    obtain ⟨A, hA, _, rfl⟩ := fusedCode_singleton_eq_ok_iff.mp hcode
    simp [hA]
  | cons b l ih =>
    obtain ⟨A, rest, hA, _, hrest, rfl⟩ :=
      (fusedCode_cons_eq_ok_iff (List.cons_ne_nil b l)).mp hcode
    obtain ⟨hab, hl'⟩ := List.isChain_cons_cons.mp hl
    obtain ⟨between, hwalk, hleads, _⟩ := hH.walk a A ha hA
    obtain ⟨A', hA', hjump⟩ := id hab
    obtain rfl := Option.some.inj (hA.symm.trans hA')
    rw [Block.code_eq_of_terminator? hjump, walkCode_append_jump] at hwalk
    have hfirst : k ∈ heightProfile (H a) A.body ↔
        ∃ X, f.block? a = some X ∧ k ∈ heightProfile (H a) X.code := by
      simp [hA, Block.code_eq_of_terminator? hjump, mem_heightProfile_append_jump hwalk]
    rw [mem_heightProfile_append hwalk, ← hleads b hab.leads, ih hl' hrest (.leads ha hab.leads),
      hfirst]
    simp only [List.mem_cons, exists_eq_or_imp]

private theorem StandsBy.unique (hf : f.Sound) (hc : c.Depicts f)
    (hr : StandsBy (chains f (links f c)) x r) (hr' : StandsBy (chains f (links f c)) x r') :
    r = r' := by
  rcases hr with ⟨K, hK, hx, rfl⟩ | ⟨hx, rfl⟩ <;> rcases hr' with ⟨K', hK', hx', rfl⟩ | ⟨hx', rfl⟩
  · rw [eq_of_mem_chains hf.intact hc hK hK' hx hx']
  · exact absurd hx (hx' K hK)
  · exact absurd hx' (hx K' hK')
  · rfl

namespace Welded

variable (h : Welded f (chains f (links f c)) g) (hf : f.Sound) (hc : c.Depicts f)

include h hf hc

private theorem condenses (hedits : Edits merging f gone g) :
    Condenses (standIn (chains f (links f c))) f g where
  edits := ⟨gone, hedits⟩
  exported b hb := (standsBy_standIn _ b).eq
    fun K hK hrest ↦ (fusible_chains hf.intact hc hK).rest_unexported hrest hb
  kept b _ hb := (standsBy_standIn _ b).eq fun K hK hrest ↦ h.taken K hK b hrest hb
  entry e he := by
    have hself := (standsBy_standIn (chains f (links f c)) e).eq
      fun K hK hrest ↦ (fusible_chains hf.intact hc hK).rest_not_entry hrest he
    rw [hself, h.others.entry_eq, he]
  leads a b ha hab := by
    by_cases hrest : ∃ K ∈ chains f (links f c), b ∈ K.rest
    · -- The edge is a link, and both ends have gone into the head.
      obtain ⟨K, hK, hb⟩ := hrest
      have ha' := List.mem_of_mem_dropLast ((fusible_chains hf.intact hc hK).pred ha hb hab)
      have hstands : StandsBy (chains f (links f c)) a K.head := .inl ⟨K, hK, ha', rfl⟩
      have hstands' : StandsBy (chains f (links f c)) b K.head :=
        .inl ⟨K, hK, List.mem_cons_of_mem _ hb, rfl⟩
      rw [(standsBy_standIn _ a).unique hf hc hstands,
        (standsBy_standIn _ b).unique hf hc hstands']
    · have hb : Kept f (chains f (links f c)) b :=
        ⟨.leads ha hab, fun K hK hb ↦ hrest ⟨K, hK, hb⟩⟩
      obtain ⟨r, hr, hends, hstands⟩ := exists_endsAs_of_leads hf hc ha hab hb
      rw [(standsBy_standIn _ a).unique hf hc hstands, (standsBy_standIn _ b).eq hb.2]
      exact .single ((h.leads_iff hf hc hr hends).mpr hab)
  busy a A ha hA hbusy := by
    rcases standsBy_standIn (chains f (links f c)) a with ⟨K, hK, hmem, hhead⟩ | ⟨hnone, hself⟩
    · have hfusible := fusible_chains hf.intact hc hK
      obtain ⟨code, hcode, hagrees⟩ := h.heads K hK
      obtain ⟨B, hB, hcode⟩ := Chain.code_eq_ok_iff.mp hcode
      obtain ⟨A', hA', hsame⟩ := handler_of_fusedCode hcode hmem
      obtain rfl := Option.some.inj (hA.symm.trans hA')
      have hB' : g.block? K.head = some { B with code := code } := by
        rw [hagrees.block? K.head rfl, block?_setCode_self hB]
      rw [hhead]
      refine ⟨⟨_, hB', hsame.symm⟩, ?_⟩
      rintro ⟨x, B'', hB'', hexp, hjump⟩
      obtain rfl := Option.some.inj (hB'.symm.trans hB'')
      obtain ⟨z, hz⟩ :=
        (jump_fusedCode_iff hf hfusible.isChain_jumps hcode).mp ⟨x, hjump⟩ a hmem A hA
      refine hbusy ⟨z, A, hA, ?_, hz⟩
      rcases List.mem_cons.mp hmem with rfl | hrest
      · rwa [← Option.some.inj (hB.symm.trans hA)]
      · exact Bool.eq_false_of_not_eq_true fun htrue ↦
          hfusible.rest_unexported hrest ⟨A, hA, htrue⟩
    · have hkept : Kept f (chains f (links f c)) a :=
        ⟨ha, fun K hK hrest ↦ hnone K hK (List.mem_cons_of_mem _ hrest)⟩
      have hblock : g.block? a = f.block? a := by
        apply h.others.block? a
        refine ⟨hkept, fun K hK hhead ↦ hnone K hK ?_⟩
        rw [hhead]
        exact List.mem_cons_self
      rw [hself]
      refine ⟨⟨A, hblock.trans hA, rfl⟩, ?_⟩
      rintro ⟨x, hx⟩
      exact hbusy ⟨x, by rwa [Forwards, ← hblock]⟩

private theorem retraces : Retraces f g where
  entry e he := ⟨e, h.others.entry_eq ▸ he, .refl⟩
  leads a b ha hab := by
    have hkept := h.closed.of_live ha
    obtain ⟨y, hy⟩ := exists_endsAs (chains f (links f c)) a
    have hab' := (h.leads_iff hf hc hkept hy).mp hab
    rcases hy with ⟨K, hK, rfl, rfl⟩ | ⟨_, rfl⟩
    · have hleads := (fusible_chains hf.intact hc hK).linked.imp fun _ _ hlink ↦ hlink.leads
      exact (List.relationReflTransGen_of_exists_isChain_cons K.rest hleads rfl).tail hab'
    · exact .single hab'

/-- The heads have the heights of their chains. -/
theorem within_iff (hexp : ∀ b, g.IsExported b ↔ f.IsExported b) (hH : f.Balances H) :
    g.Within H D ↔ f.Within H D := by
  have hhead {K : Chain} (hK : K ∈ chains f (links f c)) : ∃ B, g.block? K.head = some B ∧
      ∀ k, k ∈ heightProfile (H K.head) B.code ↔
        ∃ x ∈ K.blocks, ∃ X, f.block? x = some X ∧ k ∈ heightProfile (H x) X.code := by
    have hfusible := fusible_chains hf.intact hc hK
    obtain ⟨code, hcode, hagrees⟩ := h.heads K hK
    obtain ⟨B, hB, hcode⟩ := Chain.code_eq_ok_iff.mp hcode
    refine ⟨{ B with code := code }, ?_, fun k ↦ ?_⟩
    · rw [hagrees.block? K.head rfl, block?_setCode_self hB]
    · exact mem_heightProfile_fusedCode hH hfusible.isChain_jumps hcode hfusible.head
  constructor
  · intro hwithin b B hb hB k hk
    have hlive := h.live_of_standsBy hf hc hexp hb (standsBy_standIn _ b)
    rcases standsBy_standIn (chains f (links f c)) b with ⟨K, hK, hmem, hself⟩ | ⟨hnone, hself⟩
    · obtain ⟨B', hB', hheights⟩ := hhead hK
      rw [hself] at hlive
      exact hwithin K.head B' hlive hB' k ((hheights k).mpr ⟨b, hmem, B, hB, hk⟩)
    · rw [hself] at hlive
      refine hwithin b B hlive ?_ k hk
      rw [h.others.block? b ⟨h.closed.of_live hlive, fun K hK heq ↦ hnone K hK ?_⟩, hB]
      rw [heq]
      exact List.mem_cons_self
  · intro hwithin b B hb hB k hk
    have hkept := h.closed.of_live hb
    by_cases hheads : ∃ K ∈ chains f (links f c), b = K.head
    · obtain ⟨K, hK, rfl⟩ := hheads
      obtain ⟨B', hB', hheights⟩ := hhead hK
      obtain rfl := Option.some.inj (hB.symm.trans hB')
      obtain ⟨x, hx, X, hX, hkX⟩ := (hheights k).mp hk
      exact hwithin x X ((fusible_chains hf.intact hc hK).mem f.closed_live hx) hX k hkX
    · rw [h.others.block? b ⟨hkept, fun K hK heq ↦ hheads ⟨K, hK, heq⟩⟩] at hB
      exact hwithin b B hkept.1 hB k hk

end Welded

/-! ### All rounds -/

/-- What merging keeps: the ways, but for those by a handler of a mere jump, and the heights. -/
structure Condensed (f g : Func) : Prop where
  condenses : ∃ ρ, Condenses ρ f g
  retraces : Retraces f g
  within_iff : ∀ H D, f.Balances H → (g.Within H D ↔ f.Within H D)

private theorem Condensed.sound (h : Condensed f g) (hf : f.Sound) : g.Sound := by
  obtain ⟨_, hcondenses⟩ := h.condenses
  exact hcondenses.sound hf

private theorem Condensed.trans {k : Func} (hf : f.Sound) (h : Condensed f g)
    (h' : Condensed g k) : Condensed f k := by
  obtain ⟨ρ, hcondenses⟩ := h.condenses
  obtain ⟨σ, hcondenses'⟩ := h'.condenses
  have hg := hcondenses.sound hf
  refine ⟨⟨σ ∘ ρ, hcondenses.trans hf hcondenses'⟩,
    h.retraces.trans (hcondenses'.isExported_iff hg) h'.retraces, fun H D hH ↦ ?_⟩
  obtain ⟨_, hedits⟩ := hcondenses.edits
  rw [h'.within_iff H D (hedits.balances hf hH), h.within_iff H D hH]

private theorem yields_condensed_round (hf : f.Sound) {E : Fault → Prop} :
    round.Yields f (fun _ g _ ↦ Condensed f g) E := by
  rw [round, yields_bind]
  apply (@yields_straightens f merging hf rfl E).imp
  rintro _ k es ⟨hrecorded, hstraight, _⟩
  have hcondenses := hstraight.condenses hf hrecorded.edits
  have hk := hcondenses.sound hf
  rw [yields_bind]
  apply (@yields_welded k merging hk rfl E).imp
  rintro _ g es' ⟨hrecorded', c, hc, hwelded, _⟩
  have hcondenses' := hwelded.condenses hk hc hrecorded'.edits
  rw [yields_pure]
  apply Condensed.trans hf (g := k)
  · exact ⟨⟨_, hcondenses⟩, hstraight.retraces hf, fun _ _ ↦ hstraight.within_iff hf hk⟩
  · exact ⟨⟨_, hcondenses'⟩, hwelded.retraces hk hc,
      fun _ _ ↦ hwelded.within_iff hk hc (hcondenses'.isExported_iff hk)⟩

/-- However many rounds are run, what merging keeps is kept. -/
theorem yields_condensed_rounds (hf : f.Sound) (limit left : Nat) (changed : Bool) :
    (rounds limit left changed).Yields f (fun _ g _ ↦ Condensed f g) fun _ ↦ True := by
  induction left generalizing f changed with
  | zero =>
    rw [rounds, yields_bind, yields_current, yields_fail]
    trivial
  | succ left ih =>
    rw [rounds, yields_bind]
    apply (yields_condensed_round hf).imp
    intro n g _ hround
    split
    · rw [yields_pure]
      exact hround
    · apply (ih (hround.sound hf) true).imp
      intro _ k _ hrest
      exact hround.trans hf hrest

end Merge

end Bytecode
