import Bytecode.Proofs.Optimize.Faults
import Bytecode.Proofs.Stack.Order

/-!
# Blocks that are not live

Dropping the blocks that neither the entry nor an exported block leads to drops nothing that can be
seen. Handlers are exported, so live blocks refer to live blocks only, and the check of the stack
comes to the same blocks from the same starts. It accepts the function before exactly if it does so
after, and then finds the same heights.
-/

namespace Bytecode

namespace Func

private theorem argCount_removeBlocks (f : Func) (l : List BlockId) :
    (f.removeBlocks l).argCount = f.argCount := by
  induction l generalizing f with
  | nil => rfl
  | cons b l ih =>
    refine (ih (f.removeBlock b)).trans ?_
    rw [removeBlock]
    split <;> rfl

end Func

namespace Placement

open Func Relation

variable {f g : Func} {H : BlockId → Nat} {a b r x : BlockId} {B : Block} {l l' : StackLayout}
  {p : Place} {i : Instr}

namespace Pruned

section

variable (h : Pruned f g) (hf : f.Sound)

include h hf

/-! ### What is left -/

private theorem block?_eq_some_iff : g.block? b = some B ↔ f.Live b ∧ f.block? b = some B := by
  constructor
  · intro hB
    have hb := (h.contains_iff hf).mp (contains_of_block? hB)
    exact ⟨hb, (h.agrees hf).block? b hb ▸ hB⟩
  · rintro ⟨hb, hB⟩
    rw [(h.agrees hf).block? b hb, hB]

private theorem instrAt?_eq (hi : g.instrAt? p = some i) : f.instrAt? p = some i := by
  obtain ⟨B, hB, hn⟩ := instrAt?_eq_some_iff.mp hi
  exact instrAt?_eq_some_iff.mpr ⟨B, ((h.block?_eq_some_iff hf).mp hB).2, hn⟩

omit hf in
private theorem fields :
    g.name = f.name ∧ g.argCount = f.argCount ∧ g.registerCount = f.registerCount ∧
    g.constants = f.constants := by
  obtain ⟨l, _, rfl⟩ := h
  exact ⟨name_removeBlocks f l, argCount_removeBlocks f l, registerCount_removeBlocks f l,
    constants_removeBlocks f l⟩

private theorem precedes_iff (hr : f.Live r) (hx : f.Live x) :
    g.Precedes r x ↔ f.Precedes r x := by
  obtain ⟨l, hl, rfl⟩ := h
  have hkept {b : BlockId} (hb : f.Live b) : (!l.contains b) = true := by
    simpa [hl] using fun _ ↦ hb
  exact precedes_filter_iff (hf.wf.layout_removeBlocks l) (hkept hr) (hkept hx)

/-! ### The check of the stack -/

private theorem follows_iff (ha : f.Live a) : g.Follows a b ↔ f.Follows a b := by
  rw [Follows, Follows, (h.agrees hf).leads_iff ha, (h.agrees hf).block? a ha]

private theorem path_iff (hr : f.Live r) :
    ReflTransGen g.Follows r x ↔ ReflTransGen f.Follows r x := by
  constructor
  · intro hway
    refine (way_of_steps (h.sound hf) (ρ := id) (fun _ _ hab ↦ hab) (fun a b ha hab ↦ .single ?_)
      ((h.live_iff hf).mpr hr) hway).2
    exact (h.follows_iff hf ((h.live_iff hf).mp ha)).mp hab
  · intro hway
    exact (way_of_steps hf (ρ := id) (fun _ _ hab ↦ hab)
      (fun a b ha hab ↦ .single ((h.follows_iff hf ha).mpr hab)) hr hway).2

private theorem reached_iff : g.Reached b ↔ f.Reached b :=
  ⟨fun hb ↦ ((h.live_iff hf).mp (hb.live (h.sound hf))).reached,
    fun hb ↦ ((h.live_iff hf).mpr (hb.live hf)).reached⟩

private theorem levels_iff : g.Levels H ↔ f.Levels H := by
  have hback : Agrees g.Live g f :=
    ⟨fun b hb ↦ ((h.agrees hf).block? b ((h.live_iff hf).mp hb)).symm,
      fun k ↦ ((h.agrees hf).table? k).symm, (h.agrees hf).entry_eq.symm⟩
  constructor
  · intro hH
    exact (hback.balances (fun _ ↦ h.isExported_iff.symm) hH.balances).levels hf
  · intro hH
    exact ((h.agrees hf).balances (fun _ ↦ h.isExported_iff) hH.balances).levels (h.sound hf)

private theorem startsBefore_iff (hx : f.IsExported x) :
    g.StartsBefore r x ↔ f.StartsBefore r x := by
  rw [StartsBefore, StartsBefore, (h.agrees hf).entry_eq, h.isExported_iff]
  exact or_congr_right (and_congr_right fun hr ↦ h.precedes_iff hf (.exported hr) (.exported hx))

private theorem grounded_iff : g.Grounded g.Follows H ↔ f.Grounded f.Follows H := by
  have hway {x : BlockId} (hx : f.IsExported x) :
      (∃ r, g.StartsBefore r x ∧ ReflTransGen g.Follows r x) ↔
        ∃ r, f.StartsBefore r x ∧ ReflTransGen f.Follows r x := by
    refine exists_congr fun r ↦ ?_
    rw [h.startsBefore_iff hf hx]
    exact and_congr_right fun hr ↦ h.path_iff hf hr.live
  refine forall_congr' fun x ↦ ?_
  rw [h.isExported_iff]
  exact forall_congr' fun hx ↦ imp_congr_right fun _ ↦ hway hx

variable (hv : f.Valid) (hv' : g.Valid)

include hv hv'

/-- The check accepts the function before exactly if it does so after. -/
theorem exists_stackLayout_iff :
    (∃ l', g.stackLayout = .ok l') ↔ ∃ l, f.stackLayout = .ok l := by
  rw [Func.exists_stackLayout_iff hv', Func.exists_stackLayout_iff hv]
  exact exists_congr fun H ↦ and_congr (h.levels_iff hf) (h.grounded_iff hf)

variable (hl : f.stackLayout = .ok l) (hl' : g.stackLayout = .ok l')

include hl hl'

private theorem entryHeight_eq (hb : f.Reached b) : l'.entryHeight b = l.entryHeight b := by
  have hlevels := levels_of_stackLayout hv hl
  have hlevels' := levels_of_stackLayout hv' hl'
  -- Both are the least heights that agree along all edges.
  apply Nat.le_antisymm
  · exact hlevels'.le hv'.intact (grounded_of_stackLayout hv' hl')
      ((h.levels_iff hf).mpr hlevels) ((h.reached_iff hf).mpr hb)
  · exact hlevels.le hv.intact (grounded_of_stackLayout hv hl)
      ((h.levels_iff hf).mp hlevels') hb

/-- What is left has the heights that it had. -/
theorem exists_height (hi : g.instrAt? p = some i) :
    ∃ k, l.heightBefore? p = some k ∧ l'.heightBefore? p = some k := by
  obtain ⟨B, hB', hn⟩ := instrAt?_eq_some_iff.mp hi
  obtain ⟨hb, hB⟩ := (h.block?_eq_some_iff hf).mp hB'
  have hlt := (List.getElem?_eq_some_iff.mp hn).1
  rw [heightBefore?_eq_profile hv hl hb.reached hB hlt,
    heightBefore?_eq_profile hv' hl' ((h.reached_iff hf).mpr hb.reached) hB' hlt,
    h.entryHeight_eq hf hv hv' hl hl' hb.reached]
  have hprofile : p.offset < (heightProfile (l.entryHeight p.block) B.code).length := by
    rw [length_heightProfile]
    omega
  exact ⟨_, List.getElem?_eq_getElem hprofile, List.getElem?_eq_getElem hprofile⟩

end

end Pruned

/-- For every valid function that can be drafted, dropping blocks succeeds and leaves exactly the
live ones, as they were and in their order, with the entry in front and all else the same. The
result is valid. Its stack is in order exactly if it was before, and then every instruction that is
left has the height it had. A change is reported exactly if a block is gone.

Dropping blocks leaves no more instructions than there were. If these are fewer than `2 ^ 32`, the
heights before and after are those of 32-bit words, by the bounds of
`Bytecode.Proofs.Stack.Course`. -/
theorem run_drops_dead_blocks (hf : f.Drafted) (hv : f.fault? = none) :
    ∃ changed g, (run f).result = .ok changed ∧ (run f).func = g ∧
      (g.name = f.name ∧ g.argCount = f.argCount ∧ g.registerCount = f.registerCount ∧
        g.constants = f.constants) ∧
      (∀ b B, g.block? b = some B ↔ f.Live b ∧ f.block? b = some B) ∧
      (∀ b, b ∈ g.layout ↔ f.Live b) ∧ g.layout.Sublist f.layout ∧ g.entry? = f.entry? ∧
      g.fault? = none ∧
      ((∃ l', g.stackLayout = .ok l') ↔ ∃ l, f.stackLayout = .ok l) ∧
      (∀ l l', f.stackLayout = .ok l → g.stackLayout = .ok l' → ∀ p i, g.instrAt? p = some i →
        f.instrAt? p = some i ∧ ∃ k, l.heightBefore? p = some k ∧ l'.heightBefore? p = some k) ∧
      (changed = true ↔ ∃ b, f.contains b = true ∧ g.contains b = false) := by
  have hs := hf.sound hv
  have hvalid := hs.wf.fault?_eq_none_iff.mp hv
  have hyields := yields_run hs (show ({} : Settings).placeBlocks = true from rfl)
    (E := fun _ ↦ False)
  cases hresult : (run f).result with
  | error fault => exact (hyields.of_error hresult).elim
  | ok changed =>
    obtain ⟨hrec, hpruned, _, hquiet⟩ := hyields.of_ok hresult
    have hw' := (hpruned.sound hs).wf
    have hvalid' := hrec.edits.valid hs hvalid
    refine ⟨changed, _, rfl, rfl, hpruned.fields, fun b B ↦ hpruned.block?_eq_some_iff hs,
      fun b ↦ (hw'.mem_layout b).trans (hpruned.contains_iff hs), hpruned.layout_sublist hs,
      (hpruned.agrees hs).entry_eq, hw'.fault?_eq_none_iff.mpr hvalid',
      hpruned.exists_stackLayout_iff hs hvalid hvalid', fun l l' hl hl' p i hi ↦ ?_, ?_⟩
    · exact ⟨hpruned.instrAt?_eq hs hi, hpruned.exists_height hs hvalid hvalid' hl hl' hi⟩
    · constructor
      · intro hchanged
        by_contra hnone
        have hreached : Reached f := by
          intro b hb
          by_contra hdead
          rw [← hpruned.contains_iff hs, Bool.not_eq_true] at hdead
          exact hnone ⟨b, hb, hdead⟩
        rw [hquiet hreached] at hchanged
        contradiction
      · rintro ⟨b, hb, hgone⟩
        by_contra hnot
        rw [hrec.rest (Bool.not_eq_true _ ▸ hnot), hb] at hgone
        contradiction

/-- Block `1` is not live and has nothing to take from the stack. Its handler is exported and
stays. -/
def overgrown : Func :=
  ((Draft.start "overgrown" 0 0).declareAll
    [.block { id := 0, code := [.push .null, .jump 2] },
      .block { id := 1, code := [.pop, .jump 2], handler := some 3 },
      .block { id := 2, code := [.ret] },
      .block { id := 3, code := [.caught, .jump 2] }]).build

/-- The dead block of `overgrown` is dropped, and a block that is left keeps its height. -/
theorem overgrown_drops_dead_blocks :
    overgrown.Drafted ∧ overgrown.fault? = none ∧ ∃ g l l', (run overgrown).result = .ok true ∧
      (run overgrown).func = g ∧ ¬overgrown.Live 1 ∧ g.block? 1 = none ∧ g.layout = [0, 2, 3] ∧
      g.fault? = none ∧ overgrown.stackLayout = .ok l ∧ g.stackLayout = .ok l' ∧
      l.heightBefore? ⟨2, 0⟩ = some 1 ∧ l'.heightBefore? ⟨2, 0⟩ = some 1 := by
  have hdrafted : overgrown.Drafted := ⟨_, _, _, _, rfl⟩
  have hv : overgrown.fault? = none := by decide +kernel
  have hl : overgrown.stackLayout = .ok ⟨[(0, 0), (1, 2), (2, 4), (3, 5)],
      [some 0, some 1, none, none, some 1, some 0, some 1], 1⟩ := by
    decide +kernel
  have hresult : (run overgrown).result = .ok true := by decide +kernel
  have hlayout : (run overgrown).func.layout = [0, 2, 3] := by decide +kernel
  obtain ⟨_, _, _, rfl, _, hblocks, hlive, _, _, hv', haccepted, hheights, _⟩ :=
    run_drops_dead_blocks hdrafted hv
  have hdead : ¬overgrown.Live 1 := by
    rw [← hlive, hlayout]
    decide
  obtain ⟨l', hl'⟩ := haccepted.mpr ⟨_, hl⟩
  obtain ⟨_, k, hk, hk'⟩ := hheights _ l' hl hl' ⟨2, 0⟩ .ret (by decide +kernel)
  have hone : some 1 = some k := Eq.trans (by decide +kernel) hk
  refine ⟨hdrafted, hv, _, _, l', hresult, rfl, hdead, ?_, hlayout, hv', hl, hl',
    hk.trans hone.symm, hk'.trans hone.symm⟩
  rw [Option.eq_none_iff_forall_ne_some]
  exact fun B hB ↦ hdead ((hblocks 1 B).mp hB).1

end Placement

end Bytecode
