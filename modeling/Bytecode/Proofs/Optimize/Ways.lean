import Bytecode.Proofs.Merge.Fusion
import Bytecode.Proofs.Stack.Acceptance

/-!
# Ways through a function

The passes drop handlers without use, and they take out mere jumps together with their handlers.
Along all other edges, a way from the entry or an exported block to an exported block stays one
under every edit, and edits make no new ones. Exported blocks also stay in their order, but for one
that becomes the entry.
-/

namespace Bytecode

/-! ### Blocks that lose their handlers -/

namespace Block

variable {B : Block} {settings : Settings}

/-- The passes may take the handler of the block away: because it cannot throw, or because it is
nothing but a jump and goes itself. -/
def isIdle (settings : Settings) (B : Block) : Bool :=
  settings.simplifyHandlers && !B.canThrow ||
    settings.mergeBlocks && !B.exported && B.code matches [.jump _]

/-- Code is a mere jump exactly if it is one jump. -/
theorem matches_jump_iff {code : List Instr} :
    (code matches [.jump _]) = true ↔ ∃ x, code = [.jump x] := by
  split
  · next x => simp
  · next hx => simpa using hx

/-- A handler is taken away from a block that cannot throw or is a mere jump, as the settings have
it. -/
theorem isIdle_iff : B.isIdle settings = true ↔
    settings.simplifyHandlers = true ∧ B.canThrow = false ∨
      settings.mergeBlocks = true ∧ B.exported = false ∧ ∃ x, B.code = [.jump x] := by
  simp only [isIdle, Bool.or_eq_true, Bool.and_eq_true, Bool.not_eq_true', matches_jump_iff,
    and_assoc]

/-- A block whose handler is taken away cannot throw. -/
theorem canThrow_of_isIdle (h : B.isIdle settings = true) : B.canThrow = false := by
  rcases isIdle_iff.mp h with ⟨_, hquiet⟩ | ⟨_, _, x, hx⟩
  · exact hquiet
  · rw [canThrow, hx]
    rfl

private theorem isIdle_mapCode {φ : Instr → Instr} (hthrow : ∀ i, (φ i).canThrow = i.canThrow)
    (hjump : ∀ i, (∃ x, φ i = .jump x) ↔ ∃ x, i = .jump x) :
    (B.mapCode φ).isIdle settings = true ↔ B.isIdle settings = true := by
  have hcode : (∃ x, B.code.map φ = [.jump x]) ↔ ∃ x, B.code = [.jump x] := by
    constructor
    · rintro ⟨x, hx⟩
      obtain ⟨i, hi, hφ⟩ := List.map_eq_singleton_iff.mp hx
      obtain ⟨y, rfl⟩ := (hjump i).mp ⟨x, hφ⟩
      exact ⟨y, hi⟩
    · rintro ⟨x, hx⟩
      obtain ⟨y, hy⟩ := (hjump (.jump x)).mpr ⟨x, rfl⟩
      exact ⟨y, by rw [hx, List.map_singleton, hy]⟩
  rw [isIdle_iff, isIdle_iff, Func.canThrow_mapCode hthrow, mapCode, hcode]

end Block

namespace Func

open Relation

variable {f g k : Func} {settings : Settings} {a b e r t T x y : BlockId} {l : List BlockId}

/-- Control may pass from one block to another by a terminator, or by a handler that is not taken
away. -/
def Carries (settings : Settings) (f : Func) (a b : BlockId) : Prop :=
  f.Leads a b ∨ ∃ A, f.block? a = some A ∧ A.handler = some b ∧ ¬A.isIdle settings = true

/-- Where control may pass, one block follows the other. -/
theorem Carries.follows (h : f.Carries settings a b) : f.Follows a b :=
  h.imp_right fun ⟨A, hA, hh, _⟩ ↦ ⟨A, hA, hh⟩

/-- The ways of the first function are ways of the second. -/
structure Routes (settings : Settings) (f g : Func) : Prop where
  exported : ∀ r x, f.IsExported r → f.IsExported x → ReflTransGen (f.Carries settings) r x →
    ReflTransGen (g.Carries settings) r x
  entry : ∀ e x, f.entry? = some e → f.IsExported x → ReflTransGen (f.Carries settings) e x →
    ∃ e', g.entry? = some e' ∧ ReflTransGen (g.Carries settings) e' x

/-- A function has its own ways. -/
theorem Routes.refl (settings : Settings) (f : Func) : Routes settings f f :=
  ⟨fun _ _ _ _ hway ↦ hway, fun e _ he _ hway ↦ ⟨e, he, hway⟩⟩

private theorem Routes.trans (h : Routes settings f g)
    (hexp : ∀ b, f.IsExported b → g.IsExported b)
    (h' : Routes settings g k) : Routes settings f k where
  exported r x hr hx hway := h'.exported r x (hexp r hr) (hexp x hx) (h.exported r x hr hx hway)
  entry e x he hx hway := by
    obtain ⟨e', he', hway'⟩ := h.entry e x he hx hway
    exact h'.entry e' x he' (hexp x hx) hway'

/-- Every edge becomes a way between the blocks that stand for its ends; so does every way. -/
theorem way_of_steps (hf : f.Sound) {ρ : BlockId → BlockId} {E E' : BlockId → BlockId → Prop}
    (hE : ∀ a b, E a b → f.Follows a b)
    (hstep : ∀ a b, f.Live a → E a b → ReflTransGen E' (ρ a) (ρ b)) (hr : f.Live r)
    (hway : ReflTransGen E r x) : f.Live x ∧ ReflTransGen E' (ρ r) (ρ x) := by
  induction hway with
  | refl => exact ⟨hr, .refl⟩
  | tail _ hedge ih => exact ⟨(hE _ _ hedge).live hf ih.1, ih.2.trans (hstep _ _ ih.1 hedge)⟩

/-- Exported blocks stand for themselves, and the entry leads to the block that stands for it. -/
theorem routes_of_steps (hf : f.Sound) {ρ : BlockId → BlockId}
    (hfix : ∀ b, f.IsExported b → ρ b = b)
    (hentry : ∀ e, f.entry? = some e →
      ∃ e', g.entry? = some e' ∧ ReflTransGen (g.Carries settings) e' (ρ e))
    (hstep : ∀ a b, f.Live a → f.Carries settings a b →
      ReflTransGen (g.Carries settings) (ρ a) (ρ b)) : Routes settings f g where
  exported r x hr hx hway := by
    have hway' := (way_of_steps hf (fun _ _ ↦ Carries.follows) hstep (.exported hr) hway).2
    rwa [hfix r hr, hfix x hx] at hway'
  entry e x he hx hway := by
    obtain ⟨e', he', hfirst⟩ := hentry e he
    have hway' := (way_of_steps hf (fun _ _ ↦ Carries.follows) hstep (.entry he) hway).2
    rw [hfix x hx] at hway'
    exact ⟨e', he', hfirst.trans hway'⟩

/-- If the edges out of live blocks are kept and so is the entry, all ways are. -/
theorem routes_of_edges (hf : f.Sound) (hentry : g.entry? = f.entry?)
    (hedge : ∀ a b, f.Live a → f.Carries settings a b → g.Carries settings a b) :
    Routes settings f g :=
  routes_of_steps hf (ρ := id) (fun _ _ ↦ rfl) (fun e he ↦ ⟨e, hentry.trans he, .refl⟩)
    fun a b ha hab ↦ .single (hedge a b ha hab)

/-! ### Edits of handlers and registers -/

private theorem carries_clearHandler_iff (hasked : settings.simplifyHandlers = true)
    (hb : f.CannotThrow b) :
    (f.clearHandler b).Carries settings x y ↔ f.Carries settings x y := by
  apply or_congr (leads_congr (successors_clearHandler f b x))
  constructor
  · rintro ⟨X, hX, hh, hbusy⟩
    obtain ⟨X₀, hX₀, rfl⟩ := block?_clearHandler_eq_some_iff.mp hX
    by_cases hx : x = b
    · simp [hx] at hh
    · exact ⟨X₀, hX₀, by simpa [hx] using hh, hbusy⟩
  · rintro ⟨X, hX, hh, hbusy⟩
    have hx : x ≠ b := by
      rintro rfl
      exact hbusy (Block.isIdle_iff.mpr (.inl ⟨hasked, hb X hX⟩))
    exact ⟨_, block?_clearHandler_eq_some_iff.mpr ⟨X, hX, rfl⟩, by simpa [hx] using hh, hbusy⟩

private theorem Renames.carries_iff {m : Register → Register} (h : Renames m f g) :
    g.Carries settings x y ↔ f.Carries settings x y := by
  have hidle (B : Block) : (B.mapCode (Instr.mapRegisters m m)).isIdle settings = true ↔
      B.isIdle settings = true := by
    apply Block.isIdle_mapCode (Instr.canThrow_mapRegisters m)
    intro i
    cases i <;> simp [Instr.mapRegisters]
  apply or_congr h.leads_iff
  constructor
  · rintro ⟨X, hX, hh, hbusy⟩
    obtain ⟨X₀, hX₀, rfl⟩ := h.block?_eq_some_iff.mp hX
    exact ⟨X₀, hX₀, hh, fun h ↦ hbusy ((hidle X₀).mpr h)⟩
  · rintro ⟨X, hX, hh, hbusy⟩
    exact ⟨_, h.block?_eq_some_iff.mpr ⟨X, hX, rfl⟩, hh, fun h ↦ hbusy ((hidle X).mp h)⟩

/-! ### Blocks that are out of reach -/

/-- Bypassing a block outside a closed set keeps the live blocks as they are. -/
theorem agrees_live_bypass (hf : f.Sound) {P : BlockId → Prop} (hP : f.Closed P) (hb : ¬P b)
    (hlb : f.contains b = true) (hla : f.contains a = true) : Agrees f.Live f (f.bypass b a) :=
  (agrees_bypass hf hP hb hlb hla).mono fun _ hx ↦ hP.of_live hx

private theorem Agrees.carries_iff (h : Agrees f.Live f g) (ha : f.Live a) :
    g.Carries settings a b ↔ f.Carries settings a b := by
  rw [Carries, Carries, h.leads_iff ha, h.block? a ha]

private theorem Agrees.routes (h : Agrees f.Live f g) (hf : f.Sound) : Routes settings f g :=
  routes_of_edges hf h.entry_eq fun _ _ ha hab ↦ (h.carries_iff ha).mpr hab

private theorem Agrees.routes_back (h : Agrees f.Live f g) (hg : g.Sound)
    (hexp : ∀ b, g.IsExported b ↔ f.IsExported b) : Routes settings g f :=
  routes_of_edges hg h.entry_eq.symm fun _ _ ha hab ↦
    (h.carries_iff ((h.live_iff hexp).mp ha)).mp hab

/-- Blocks that stay in the layout keep their order. -/
theorem precedes_filter_iff {p : BlockId → Bool} (hlayout : g.layout = f.layout.filter p)
    (hr : p r = true) (hx : p x = true) : g.Precedes r x ↔ f.Precedes r x := by
  rw [precedes_iff_sublist, precedes_iff_sublist, hlayout]
  constructor
  · intro h
    exact h.trans List.filter_sublist
  · intro h
    have hfilter := h.filter p
    rwa [List.filter_cons_of_pos hr, List.filter_cons_of_pos hx, List.filter_nil] at hfilter

/-! ### Blocks that another one stands for -/

/-- Bypassing a replaceable block reroutes all else to what replaces it. -/
theorem Replaceable.rerouted (h : f.Replaceable t T) (hf : f.Sound) :
    Rerouted (retarget t T) [t] f (f.bypass t T) :=
  (Rerouted.refl f).bypass hf h

/-- The layout stays, or the block that stands for the entry comes to the front. -/
theorem Replaceable.layout_redirect (h : f.Replaceable t T) (hf : f.Sound) :
    (f.redirect t T).layout = f.layout ∨
      (f.redirect t T).layout = T :: f.layout.erase T ∧ Func.entry? (f.bypass t T) = some T := by
  rw [Func.redirect]
  split
  · next hmoves =>
    simp only [movesEntry, Bool.and_eq_true, decide_eq_true_eq] at hmoves
    have hmem : T ∈ f.layout := (hf.wf.mem_layout T).mpr h.target
    have hlayout : (f.redirectUses t T).layout = f.layout := rfl
    refine .inr ⟨by simp [makeEntry, hlayout, hmem], ?_⟩
    rw [(h.rerouted hf).entry_eq, hmoves.1.2, Option.map_some, retarget, if_pos rfl]
  · exact .inl rfl

section

variable (hf : f.Sound) (hr : r ≠ t) (hx : x ≠ t)

include hf hr hx

private theorem precedes_bypass_iff :
    (f.bypass t T).Precedes r x ↔ (f.redirect t T).Precedes r x :=
  precedes_filter_iff ((hf.wf.redirect t T).layout_removeBlock t) (by simpa using hr)
    (by simpa using hx)

private theorem Replaceable.precedes_bypass (h : f.Replaceable t T) (hprec : f.Precedes r x) :
    (f.bypass t T).Precedes r x ∨ Func.entry? (f.bypass t T) = some x := by
  rw [precedes_bypass_iff hf hr hx]
  rw [precedes_iff_sublist] at hprec ⊢
  rcases h.layout_redirect hf with hlayout | ⟨hlayout, hentry⟩
  · exact .inl (hlayout ▸ hprec)
  · by_cases hxT : x = T
    · exact .inr (hxT ▸ hentry)
    · rw [hlayout]
      left
      by_cases hrT : r = T
      · rw [hrT, List.cons_sublist_cons, List.singleton_sublist, List.mem_erase_of_ne hxT]
        exact hprec.subset (by simp)
      · have herase := hprec.erase T
        rw [List.erase_of_not_mem (by simp [Ne.symm hrT, Ne.symm hxT])] at herase
        exact herase.cons T

private theorem Replaceable.precedes_of_bypass (h : f.Replaceable t T)
    (hprec : (f.bypass t T).Precedes r x) :
    f.Precedes r x ∨ Func.entry? (f.bypass t T) = some r := by
  rw [precedes_bypass_iff hf hr hx] at hprec
  rw [precedes_iff_sublist] at hprec ⊢
  rcases h.layout_redirect hf with hlayout | ⟨hlayout, hentry⟩
  · exact .inl (hlayout ▸ hprec)
  · rw [hlayout] at hprec
    cases hprec with
    | cons _ hrest => exact .inl (hrest.trans List.erase_sublist)
    | cons_cons _ hrest => exact .inr hentry

end

open Classical in
/-- The end of a row of jumps stands for all blocks of the row. -/
noncomputable def rowEnd (f : Func) (T x : BlockId) : BlockId :=
  if ReflTransGen f.Forwards x T then T else x

section

variable (hf : f.Sound) (hrow : ReflTransGen f.Forwards t T) (hne : T ≠ t)

include hf hrow hne

private theorem carries_bypass_iff :
    (f.bypass t T).Carries settings a b ↔
      a ≠ t ∧ ∃ c, f.Carries settings a c ∧ b = retarget t T c := by
  have hrep := replaceable_of_forwards hf hrow hne
  have hg := hrep.rerouted hf
  have hidle (B : Block) : (B.mapCode (Instr.mapTargets (retarget t T))).isIdle settings = true ↔
      B.isIdle settings = true := by
    apply Block.isIdle_mapCode
    · intro i
      rw [Instr.canThrow, Instr.canThrow, Instr.opcode_mapTargets]
    · intro i
      cases i <;> simp [Instr.mapTargets]
  -- No handler names the block that goes.
  have hkeep {A : Block} {c : BlockId} (hA : f.block? a = some A) (hh : A.handler = some c) :
      retarget t T c = c := by
    have hc : c ≠ t := by
      rintro rfl
      exact hrep.unexported (hf.handler_exported a A c hA hh)
    rw [retarget, if_neg hc]
  constructor
  · rintro (hab | ⟨A, hA, hh, hbusy⟩)
    · obtain ⟨ha, c, hac, hb⟩ := hg.leads_iff.mp hab
      exact ⟨by simpa using ha, c, .inl hac, hb⟩
    · obtain ⟨ha, A₀, hA₀, rfl⟩ := hg.block?_eq_some_iff.mp hA
      exact ⟨by simpa using ha, b, .inr ⟨A₀, hA₀, hh, fun h ↦ hbusy ((hidle A₀).mpr h)⟩,
        (hkeep hA₀ hh).symm⟩
  · rintro ⟨ha, c, hac | ⟨A, hA, hh, hbusy⟩, rfl⟩
    · exact .inl (hg.leads_iff.mpr ⟨by simpa using ha, c, hac, rfl⟩)
    · rw [hkeep hA hh]
      exact .inr ⟨_, hg.block?_eq_some_iff.mpr ⟨by simpa using ha, A, hA, rfl⟩, hh,
        fun h ↦ hbusy ((hidle A).mp h)⟩

/-- What is left of a row leads to its end. -/
theorem way_rowEnd (b : BlockId) :
    ReflTransGen ((f.bypass t T).Carries settings) (retarget t T b) (f.rowEnd T b) := by
  rw [rowEnd]
  split
  · next hb =>
    induction hb using ReflTransGen.head_induction_on with
    | refl => rw [retarget, if_neg hne]
    | @head x y hxy _ ih =>
      by_cases hx : x = t
      · rw [retarget, if_pos hx]
      · rw [retarget, if_neg hx]
        exact .head ((carries_bypass_iff hf hrow hne).mpr ⟨hx, y, .inl hxy.leads, rfl⟩) ih
  · next hb =>
    have hbt : b ≠ t := fun h ↦ hb (h ▸ hrow)
    rw [retarget, if_neg hbt]

private theorem routes_bypass (hasked : settings.mergeBlocks = true) :
    Routes settings f (f.bypass t T) := by
  have hg := (replaceable_of_forwards hf hrow hne).rerouted hf
  refine routes_of_steps hf (ρ := f.rowEnd T) (fun b hb ↦ ?_) (fun e he ↦ ?_) fun a b _ hab ↦ ?_
  · rw [rowEnd]
    split
    · next hend =>
      rcases hend.cases_head with heq | ⟨y, hy, _⟩
      · exact heq.symm
      · exact absurd hb hy.unexported
    · rfl
  · exact ⟨retarget t T e, by rw [hg.entry_eq, he, Option.map_some], way_rowEnd hf hrow hne e⟩
  · -- A block of the row has no other edge than its jump, so nothing is lost with it.
    have hcases : (∃ y, f.Forwards a y ∧ ReflTransGen f.Forwards y T) ∨
        f.rowEnd T a = a ∧ a ≠ t := by
      by_cases hend : ReflTransGen f.Forwards a T
      · rcases hend.cases_head with rfl | hnext
        · exact .inr ⟨by simp [rowEnd], hne⟩
        · exact .inl hnext
      · exact .inr ⟨by simp [rowEnd, hend], fun heq ↦ hend (heq ▸ hrow)⟩
    rcases hcases with ⟨y, hy, hend⟩ | ⟨hself, hat⟩
    · have hby : b = y := by
        rcases hab with hab | ⟨A, hA, _, hbusy⟩
        · exact hy.eq_of_leads hab
        · obtain ⟨A', hA', hexp, hcode⟩ := hy
          obtain rfl := Option.some.inj (hA.symm.trans hA')
          exact absurd (Block.isIdle_iff.mpr (.inr ⟨hasked, hexp, _, hcode⟩)) hbusy
      rw [rowEnd, if_pos (.head hy hend), rowEnd, if_pos (hby ▸ hend)]
    · rw [hself]
      exact .head ((carries_bypass_iff hf hrow hne).mpr ⟨hat, b, hab, rfl⟩)
        (way_rowEnd hf hrow hne b)

private theorem routes_of_bypass (hg : (f.bypass t T).Sound) :
    Routes settings (f.bypass t T) f := by
  have hway (c : BlockId) : ReflTransGen (f.Carries settings) c (retarget t T c) := by
    rw [retarget]
    split
    · next heq =>
      rw [heq]
      exact ReflTransGen.mono (fun _ _ hxy ↦ .inl hxy.leads) _ _ hrow
    · exact .refl
  refine routes_of_steps hg (ρ := id) (fun _ _ ↦ rfl) (fun e he ↦ ?_) fun a b _ hab ↦ ?_
  · rw [((replaceable_of_forwards hf hrow hne).rerouted hf).entry_eq, Option.map_eq_some_iff] at he
    obtain ⟨e₀, he₀, rfl⟩ := he
    exact ⟨e₀, he₀, hway e₀⟩
  · obtain ⟨_, c, hac, rfl⟩ := (carries_bypass_iff hf hrow hne).mp hab
    exact .head hac (hway c)

end

end Func

/-! ### Blocks that take in others -/

namespace Merge

open Func Relation

variable {f : Func} {settings : Settings} {P : BlockId → Prop} {K : Chain} {a head x y : BlockId}
  {l : List BlockId} {handler : Option BlockId} {code : List Instr}

/-- All blocks of a chain with code have the one handler. -/
theorem handler_of_fusedCode (hcode : fusedCode f head handler (a :: l) = .ok code)
    (hx : x ∈ a :: l) : ∃ X, f.block? x = some X ∧ X.handler = handler := by
  induction l generalizing a code with
  | nil =>
    obtain ⟨A, hA, hh, _⟩ := fusedCode_singleton_eq_ok_iff.mp hcode
    exact ⟨A, List.mem_singleton.mp hx ▸ hA, hh⟩
  | cons b l ih =>
    obtain ⟨A, rest, hA, hh, hrest, _⟩ :=
      (fusedCode_cons_eq_ok_iff (List.cons_ne_nil b l)).mp hcode
    rcases List.mem_cons.mp hx with rfl | hx
    · exact ⟨A, hA, hh⟩
    · exact ih hrest hx

/-- Fused code throws if the code of some block does. -/
theorem any_canThrow_fusedCode (hl : List.IsChain f.Jumps (a :: l))
    (hcode : fusedCode f head handler (a :: l) = .ok code) :
    code.any Instr.canThrow = false ↔
      ∀ x ∈ a :: l, ∀ X, f.block? x = some X → X.canThrow = false := by
  induction l generalizing a code with
  | nil =>
    obtain ⟨A, hA, _, rfl⟩ := fusedCode_singleton_eq_ok_iff.mp hcode
    simp [hA, Block.canThrow]
  | cons b l ih =>
    obtain ⟨A, rest, hA, _, hrest, rfl⟩ :=
      (fusedCode_cons_eq_ok_iff (List.cons_ne_nil b l)).mp hcode
    obtain ⟨⟨A', hA', hjump⟩, hl'⟩ := List.isChain_cons_cons.mp hl
    obtain rfl := Option.some.inj (hA.symm.trans hA')
    have hthrow : A.canThrow = A.body.any Instr.canThrow := by
      rw [Block.canThrow, Block.code_eq_of_terminator? hjump, List.any_append]
      exact Bool.or_false _
    rw [List.any_append, Bool.or_eq_false_iff, ih hl' hrest, List.forall_mem_cons, ← hthrow]
    simp [hA]

/-- Fused code is a mere jump if the code of every block is. -/
theorem jump_fusedCode_iff (hf : f.Sound) (hl : List.IsChain f.Jumps (a :: l))
    (hcode : fusedCode f head handler (a :: l) = .ok code) :
    (∃ y, code = [.jump y]) ↔
      ∀ x ∈ a :: l, ∀ X, f.block? x = some X → ∃ z, X.code = [.jump z] := by
  induction l generalizing a code with
  | nil =>
    obtain ⟨A, hA, _, rfl⟩ := fusedCode_singleton_eq_ok_iff.mp hcode
    simp [hA]
  | cons b l ih =>
    obtain ⟨A, rest, hA, _, hrest, rfl⟩ :=
      (fusedCode_cons_eq_ok_iff (List.cons_ne_nil b l)).mp hcode
    obtain ⟨⟨A', hA', hjump⟩, hl'⟩ := List.isChain_cons_cons.mp hl
    obtain rfl := Option.some.inj (hA.symm.trans hA')
    have hfirst : (∀ X, f.block? a = some X → ∃ z, X.code = [.jump z]) ↔ A.body = [] := by
      simp [hA, Block.code_eq_of_terminator? hjump, List.append_eq_singleton_iff]
    rw [List.forall_mem_cons, hfirst, ← ih hl' hrest]
    constructor
    · rintro ⟨y, hy⟩
      obtain ⟨hbody, hrest'⟩ := eq_of_append_fusedCode hf hl' hrest hy
      exact ⟨hbody, y, hrest'⟩
    · rintro ⟨hbody, y, rfl⟩
      exact ⟨y, by rw [hbody, List.nil_append]⟩

/-- In a fusible chain every block jumps to the next one. -/
theorem Fusible.isChain_jumps (hK : Fusible f P K) : K.blocks.IsChain f.Jumps :=
  hK.linked.imp fun _ _ hlink ↦ hlink.jumps

private theorem way_of_isChain (hl : List.IsChain f.Jumps (a :: l)) (hx : x ∈ a :: l) :
    ReflTransGen (f.Carries settings) a x := by
  induction l generalizing a with
  | nil => rw [List.mem_singleton.mp hx]
  | cons b l ih =>
    obtain ⟨hab, hl'⟩ := List.isChain_cons_cons.mp hl
    rcases List.mem_cons.mp hx with rfl | hx
    · exact .refl
    · exact .head (.inl hab.leads) (ih hl' hx)

/-- The head stands for the blocks that it takes in. -/
def Chain.standIn (K : Chain) (x : BlockId) : BlockId := if x ∈ K.rest then K.head else x

private theorem Chain.standIn_of_mem (hx : x ∈ K.blocks) : K.standIn x = K.head := by
  rw [standIn]
  split
  · rfl
  · next hrest => exact (List.mem_cons.mp hx).resolve_right hrest

section

variable (hf : f.Sound) (hK : Fusible f P K) {A : Block} (hA : f.block? K.head = some A)
  (hcode : fusedCode f K.head A.handler K.blocks = .ok code)

include hf hK hcode

/-- Code that is fused under the handler of the head expands that of the head and ends as the last
block does. -/
theorem Fusible.fuses : f.Fuses A.handler K.head K.last code :=
  fuses_fusedCode hf hK.isChain_jumps hcode

include hA

/-- The head needs its handler if one of the blocks that it takes in does. -/
theorem Fusible.isIdle_iff : Block.isIdle settings { A with code := code } = true ↔
    ∀ x ∈ K.blocks, ∀ X, f.block? x = some X → X.isIdle settings = true := by
  have hthrow := any_canThrow_fusedCode hK.isChain_jumps hcode
  have hjump := jump_fusedCode_iff hf hK.isChain_jumps hcode
  constructor
  · intro hidle x hx X hX
    rw [Block.isIdle_iff] at hidle ⊢
    rcases hidle with ⟨hasked, hquiet⟩ | ⟨hasked, hexp, hjumps⟩
    · exact .inl ⟨hasked, hthrow.mp hquiet x hx X hX⟩
    · refine .inr ⟨hasked, ?_, hjump.mp hjumps x hx X hX⟩
      rcases List.mem_cons.mp hx with rfl | hrest
      · rwa [← Option.some.inj (hA.symm.trans hX)]
      · exact Bool.eq_false_of_not_eq_true fun htrue ↦ hK.rest_unexported hrest ⟨X, hX, htrue⟩
  · intro hall
    rw [Block.isIdle_iff]
    by_cases hasked : settings.simplifyHandlers = true
    · exact .inl ⟨hasked, hthrow.mpr fun x hx X hX ↦ Block.canThrow_of_isIdle (hall x hx X hX)⟩
    · have hmere (x : BlockId) (hx : x ∈ K.blocks) (X : Block) (hX : f.block? x = some X) :=
        (Block.isIdle_iff.mp (hall x hx X hX)).resolve_left fun h ↦ hasked h.1
      obtain ⟨hmerge, hexp, _⟩ := hmere K.head List.mem_cons_self A hA
      exact .inr ⟨hmerge, hexp, hjump.mpr fun x hx X hX ↦ (hmere x hx X hX).2.2⟩

/-- An edge of the chain becomes one of its head. -/
theorem Fusible.way_standIn (hx : P x) (hxy : f.Carries settings x y) :
    ReflTransGen ((f.setCode K.head code).Carries settings) (K.standIn x) (K.standIn y) := by
  by_cases hmem : x ∈ K.blocks
  · rw [Chain.standIn_of_mem hmem]
    rcases hxy with hxy | ⟨X, hX, hh, hbusy⟩
    · have hcases : y ∈ K.rest ∨ x = K.last := by
        rcases exists_succ hK.isChain_jumps (List.cons_ne_nil _ _) hmem with hlast
          | ⟨z, hz, X, hX, hjump⟩
        · exact .inr hlast
        · exact .inl ((leads_jump_iff hX hjump).mp hxy ▸ hz)
      rw [Chain.standIn]
      split
      · exact .refl
      · next hy =>
        rw [hcases.resolve_left hy] at hxy
        exact .single (.inl (((hK.fuses hf hcode).leads_setCode hf).mpr hxy))
    · have hy : y ∉ K.rest :=
        fun hrest ↦ hK.rest_unexported hrest (hf.handler_exported x X y hX hh)
      obtain ⟨X', hX', hsame⟩ := handler_of_fusedCode hcode hmem
      obtain rfl := Option.some.inj (hX.symm.trans hX')
      rw [Chain.standIn, if_neg hy]
      refine .single (.inr ⟨_, block?_setCode_self hA, hsame ▸ hh, fun hidle ↦ hbusy ?_⟩)
      exact (hK.isIdle_iff hf hA hcode).mp hidle x hmem X hX
  · have hhead : x ≠ K.head := fun heq ↦ hmem (heq ▸ List.mem_cons_self)
    have hy : y ∉ K.rest := by
      intro hrest
      rcases hxy with hxy | ⟨X, hX, hh, _⟩
      · exact hmem (List.mem_of_mem_dropLast (hK.pred hx hrest hxy))
      · exact hK.rest_unexported hrest (hf.handler_exported x X y hX hh)
    rw [Chain.standIn, if_neg fun hrest ↦ hmem (List.mem_cons_of_mem _ hrest), Chain.standIn,
      if_neg hy]
    refine .single (hxy.imp (leads_congr (successors_setCode_of_ne hhead)).mpr ?_)
    rintro ⟨X, hX, hh⟩
    exact ⟨X, (block?_setCode_of_ne hhead).trans hX, hh⟩

private theorem Fusible.routes_setCode (hP : f.Closed P) :
    Routes settings f (f.setCode K.head code) := by
  refine routes_of_steps hf (ρ := K.standIn) (fun b hb ↦ ?_) (fun e he ↦ ⟨e, he, ?_⟩)
    fun a b ha hab ↦ hK.way_standIn hf hA hcode (hP.of_live ha) hab
  · rw [Chain.standIn, if_neg fun hrest ↦ hK.rest_unexported hrest hb]
  · rw [Chain.standIn, if_neg fun hrest ↦ hK.rest_not_entry hrest he]

/-- An edge of the head is a way through the chain. -/
theorem Fusible.way_of_setCode (hxy : (f.setCode K.head code).Carries settings x y) :
    ReflTransGen (f.Carries settings) x y := by
  by_cases hx : x = K.head
  · rw [hx] at hxy ⊢
    have hchain {z : BlockId} (hz : z ∈ K.blocks) : ReflTransGen (f.Carries settings) K.head z :=
      way_of_isChain hK.isChain_jumps hz
    rcases hxy with hxy | ⟨X, hX, hh, hbusy⟩
    · rw [(hK.fuses hf hcode).leads_setCode hf] at hxy
      exact (hchain K.last_mem).tail (.inl hxy)
    · rw [block?_setCode_self hA, Option.some.injEq] at hX
      rw [← hX, hK.isIdle_iff hf hA hcode] at hbusy
      push Not at hbusy
      obtain ⟨z, hz, Z, hZ, hbusy⟩ := hbusy
      obtain ⟨Z', hZ', hsame⟩ := handler_of_fusedCode hcode hz
      obtain rfl := Option.some.inj (hZ.symm.trans hZ')
      exact (hchain hz).tail (.inr ⟨Z, hZ, by rw [hsame, ← hh, ← hX], hbusy⟩)
  · refine .single (hxy.imp (leads_congr (successors_setCode_of_ne hx)).mp ?_)
    rintro ⟨X, hX, hh⟩
    exact ⟨X, (block?_setCode_of_ne hx).symm.trans hX, hh⟩

end

end Merge

/-! ### All edits -/

namespace Func

open Relation

variable {f g : Func} {settings : Settings} {r x : BlockId} {l : List BlockId}

/-- The ways there were are there after an edit. -/
theorem Edit.routes (hf : f.Sound) (h : Edit settings f l g) : Routes settings f g := by
  cases h with
  | clear hasked hb =>
    exact routes_of_edges hf rfl fun _ _ _ hab ↦ (carries_clearHandler_iff hasked hb).mpr hab
  | hop hasked hrow hne => exact routes_bypass hf hrow hne hasked
  | inline _ hP hK hcode =>
    obtain ⟨A, hA, hcode⟩ := Merge.Chain.code_eq_ok_iff.mp hcode
    exact hK.routes_setCode hf hA hcode hP
  | cut _ hP _ hb hla hlb => exact (agrees_live_bypass hf hP hb hlb hla).routes hf
  | prune _ hl _ => exact (hf.agrees_removeBlocks fun b hb ↦ ((hl b).mp hb).2).routes hf
  | @rename m count =>
    have hrenames := Slots.renames_rename m count f
    exact routes_of_edges hf hrenames.entry?_eq fun _ _ _ hab ↦ hrenames.carries_iff.mpr hab

/-- The ways there are after an edit were there before. -/
theorem Edit.routes_back (hf : f.Sound) (h : Edit settings f l g) : Routes settings g f := by
  have hg := h.sound hf
  have hexp := (h.descends hf).exported
  cases h with
  | clear hasked hb =>
    exact routes_of_edges hg rfl fun _ _ _ hab ↦ (carries_clearHandler_iff hasked hb).mp hab
  | hop _ hrow hne => exact routes_of_bypass hf hrow hne hg
  | inline _ _ hK hcode =>
    obtain ⟨A, hA, hcode⟩ := Merge.Chain.code_eq_ok_iff.mp hcode
    exact routes_of_steps hg (ρ := id) (fun _ _ ↦ rfl) (fun e he ↦ ⟨e, he, .refl⟩)
      fun _ _ _ hab ↦ hK.way_of_setCode hf hA hcode hab
  | cut _ hP _ hb hla hlb => exact (agrees_live_bypass hf hP hb hlb hla).routes_back hg hexp
  | prune _ hl _ =>
    exact (hf.agrees_removeBlocks fun b hb ↦ ((hl b).mp hb).2).routes_back hg hexp
  | @rename m count =>
    have hrenames := Slots.renames_rename m count f
    exact routes_of_edges hg hrenames.entry?_eq.symm fun _ _ _ hab ↦ hrenames.carries_iff.mp hab

/-- The ways there were are there after edits. -/
theorem Edits.routes (hf : f.Sound) (h : Edits settings f l g) : Routes settings f g := by
  induction h with
  | refl => exact .refl settings f
  | tail hsteps hstep ih =>
    exact ih.trans (fun b hb ↦ ((hsteps.descends hf).exported b).mpr hb)
      (hstep.routes (hsteps.sound hf))

private theorem Edit.not_mem_of_isExported (hf : f.Sound) (h : Edit settings f l g)
    (hx : f.IsExported x) : x ∉ l :=
  (h.contains_iff.mp (((h.descends hf).exported x).mpr hx).contains).2

section

variable (hf : f.Sound) (h : Edit settings f l g) (hr : f.IsExported r) (hx : f.IsExported x)

include hf h hr hx

/-- Exported blocks stay in order, but for one that becomes the entry. -/
theorem Edit.precedes (hprec : f.Precedes r x) : g.Precedes r x ∨ g.entry? = some x := by
  have hrl := h.not_mem_of_isExported hf hr
  have hxl := h.not_mem_of_isExported hf hx
  cases h with
  | clear | inline => exact .inl hprec
  | hop _ hrow hne =>
    exact (replaceable_of_forwards hf hrow hne).precedes_bypass hf (by simpa using hrl)
      (by simpa using hxl) hprec
  | cut _ hP ha hb hla hlb =>
    exact (hP.replaceable ha hb hla hlb).precedes_bypass hf (by simpa using hrl)
      (by simpa using hxl) hprec
  | prune =>
    exact .inl ((precedes_filter_iff (hf.wf.layout_removeBlocks l) (by simpa using hrl)
      (by simpa using hxl)).mpr hprec)
  | @rename m count =>
    left
    rwa [Precedes, (Slots.renames_rename m count f).layout]

/-- The order after an edit is the one before, but for a new entry. -/
theorem Edit.precedes_back (hprec : g.Precedes r x) : f.Precedes r x ∨ g.entry? = some r := by
  have hrl := h.not_mem_of_isExported hf hr
  have hxl := h.not_mem_of_isExported hf hx
  cases h with
  | clear | inline => exact .inl hprec
  | hop _ hrow hne =>
    exact (replaceable_of_forwards hf hrow hne).precedes_of_bypass hf (by simpa using hrl)
      (by simpa using hxl) hprec
  | cut _ hP ha hb hla hlb =>
    exact (hP.replaceable ha hb hla hlb).precedes_of_bypass hf (by simpa using hrl)
      (by simpa using hxl) hprec
  | prune =>
    exact .inl ((precedes_filter_iff (hf.wf.layout_removeBlocks l) (by simpa using hrl)
      (by simpa using hxl)).mp hprec)
  | @rename m count =>
    left
    rwa [Precedes, (Slots.renames_rename m count f).layout] at hprec

end

/-- An exported block at the front stays there. -/
theorem Edit.entry?_eq_of_isExported (hf : f.Sound) (h : Edit settings f l g) (hx : f.IsExported x)
    (he : f.entry? = some x) : g.entry? = some x := by
  have hself {t T : BlockId} (h : f.Replaceable t T) : retarget t T x = x := by
    rw [retarget, if_neg]
    rintro rfl
    exact h.unexported hx
  cases h with
  | clear | inline => exact he
  | hop _ hrow hne =>
    have hrep := replaceable_of_forwards hf hrow hne
    rw [(hrep.rerouted hf).entry_eq, he, Option.map_some, hself hrep]
  | cut _ hP ha hb hla hlb =>
    have hrep := hP.replaceable ha hb hla hlb
    rw [(hrep.rerouted hf).entry_eq, he, Option.map_some, hself hrep]
  | prune _ hl _ =>
    exact (hf.agrees_removeBlocks fun b hb ↦ ((hl b).mp hb).2).entry_eq.trans he
  | @rename m count => exact (Slots.renames_rename m count f).entry?_eq.trans he

section

variable (hf : f.Sound) (h : Edits settings f l g) (hr : f.IsExported r) (hx : f.IsExported x)

include hf h hr hx

/-- The order before edits is the one after, but for a new entry. -/
theorem Edits.precedes (hprec : f.Precedes r x) : g.Precedes r x ∨ g.entry? = some x := by
  induction h with
  | refl => exact .inl hprec
  | tail hsteps hstep ih =>
    have hk := hsteps.sound hf
    have hexp := (hsteps.descends hf).exported
    cases ih with
    | inl hprec => exact hstep.precedes hk ((hexp r).mpr hr) ((hexp x).mpr hx) hprec
    | inr he => exact .inr (hstep.entry?_eq_of_isExported hk ((hexp x).mpr hx) he)

/-- The order after edits is the one before, but for a new entry. -/
theorem Edits.precedes_back (hprec : g.Precedes r x) : f.Precedes r x ∨ g.entry? = some r := by
  induction h with
  | refl => exact .inl hprec
  | tail hsteps hstep ih =>
    have hk := hsteps.sound hf
    have hexp := (hsteps.descends hf).exported
    cases hstep.precedes_back hk ((hexp r).mpr hr) ((hexp x).mpr hx) hprec with
    | inl hprec =>
      refine (ih hprec).imp_right fun he ↦ ?_
      exact hstep.entry?_eq_of_isExported hk ((hexp r).mpr hr) he
    | inr he => exact .inr he

end

end Func

end Bytecode
