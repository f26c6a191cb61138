import Bytecode.Proofs.Stack.Acceptance

/-!
# Stacks in another order of the blocks

The check of the stack finds the least heights that agree along all edges, in whatever order the
blocks stand: each block that control comes to is reached from one that is entered with an empty
stack. So two orders in which a function is accepted have the same heights. But whether it is
accepted may depend on the order, since an exported block that is not reached from an earlier start
is itself a start, with an empty stack.
-/

namespace Bytecode.Func

open Relation

variable {f g : Func} {H H' : BlockId → Nat} {known known' : EntryHeights} {l l' : StackLayout}
  {order : List BlockId} {a b e r x : BlockId} {p : Place} {i : Instr}

/-! ### The least heights -/

/-- An exported block is reached from one that is entered with an empty stack. -/
theorem Grounded.exists_root (hw : f.WF) (hground : f.Grounded f.Follows H)
    (hentry : ∀ e, f.entry? = some e → H e = 0) (hx : f.IsExported x) :
    ∃ r, f.Reached r ∧ H r = 0 ∧ ReflTransGen f.Follows r x := by
  obtain ⟨n, hn⟩ := hw.exists_index hx.contains
  -- The induction is on the place in the layout: what starts before `x` stands before it.
  induction n using Nat.strong_induction_on generalizing x with
  | _ n ih =>
    by_cases hzero : H x = 0
    · exact ⟨x, .exported hx, hzero, .refl⟩
    · obtain ⟨r, hstart, hpath⟩ := hground x hx hzero
      cases hstart with
      | inl he => exact ⟨r, .entry he, hentry r he, hpath⟩
      | inr hr =>
        obtain ⟨hexp, m, n', hm, hn', hlt⟩ := hr
        obtain rfl := hw.index_unique hn hn'
        obtain ⟨r', hr', hzero', hpath'⟩ := ih m hlt hexp hm
        exact ⟨r', hr', hzero', hpath'.trans hpath⟩

/-- So is every block that control comes to. -/
theorem Reached.exists_root (hw : f.WF) (hground : f.Grounded f.Follows H)
    (hentry : ∀ e, f.entry? = some e → H e = 0) (hb : f.Reached b) :
    ∃ r, f.Reached r ∧ H r = 0 ∧ ReflTransGen f.Follows r b := by
  induction hb with
  | @entry e he => exact ⟨e, .entry he, hentry e he, .refl⟩
  | exported hx => exact hground.exists_root hw hentry hx
  | follow _ hab ih =>
    obtain ⟨r, hr, hzero, hpath⟩ := ih
    exact ⟨r, hr, hzero, hpath.tail hab⟩

/-- Heights that ground the exported blocks are the least that agree along all edges. -/
theorem Levels.le (hf : f.Intact) (hH : f.Levels H) (hground : f.Grounded f.Follows H)
    (hH' : f.Levels H') (hb : f.Reached b) : H b ≤ H' b := by
  obtain ⟨r, hr, hzero, hpath⟩ := hb.exists_root hf.wf hground hH.entry
  have hshift := (hH.shift hf hH' hr hpath).2
  omega

/-! ### Another order -/

/-- The function with its blocks in another order. What does not ask for the layout is the same by
definition. -/
def inOrder (f : Func) (order : List BlockId) : Func := { f with layout := order }

@[simp]
private theorem block?_inOrder (f : Func) (order : List BlockId) (b : BlockId) :
    (f.inOrder order).block? b = f.block? b := rfl

private theorem Valid.inOrder (hv : f.Valid) (hperm : order.Perm f.layout) :
    (f.inOrder order).Valid where
  wf := hv.wf.of_perm hperm
  nonempty := by
    intro h
    have hnil : order = [] := h
    subst hnil
    exact hv.nonempty (List.nil_perm.mp hperm)
  shape := hv.shape
  registers := hv.registers
  successors := hv.successors
  leads := hv.leads
  handler := hv.handler

private theorem reached_inOrder_iff (hentry : Func.entry? (f.inOrder order) = f.entry?) :
    (f.inOrder order).Reached b ↔ f.Reached b := by
  constructor
  · intro hb
    induction hb with
    | entry he => exact .entry (hentry ▸ he)
    | exported hx => exact .exported hx
    | follow _ hab ih => exact .follow ih hab
  · intro hb
    induction hb with
    | entry he => exact .entry (hentry.trans he)
    | exported hx => exact .exported hx
    | follow _ hab ih => exact .follow ih hab

private theorem levels_inOrder_iff (hentry : Func.entry? (f.inOrder order) = f.entry?) :
    (f.inOrder order).Levels H ↔ f.Levels H := by
  constructor
  · intro hH
    refine ⟨fun e he ↦ hH.entry e (hentry.trans he), fun b B hb hB ↦ ?_⟩
    exact hH.walk b B ((reached_inOrder_iff hentry).mpr hb) hB
  · intro hH
    refine ⟨fun e he ↦ hH.entry e (hentry ▸ he), fun b B hb hB ↦ ?_⟩
    exact hH.walk b B ((reached_inOrder_iff hentry).mp hb) hB

/-! ### What the check finds in it -/

section

variable (hv : f.Valid) (h : f.stackLayout = .ok l) (hperm : order.Perm f.layout)
  (hentry : Func.entry? (f.inOrder order) = f.entry?)

include hv h hperm hentry

/-- In two orders that are accepted, blocks are entered with the same heights. -/
theorem entryHeight_inOrder (h' : (f.inOrder order).stackLayout = .ok l') (hb : f.Reached b) :
    l'.entryHeight b = l.entryHeight b := by
  have hv' := hv.inOrder hperm
  have hlevels := levels_of_stackLayout hv h
  have hlevels' := levels_of_stackLayout hv' h'
  apply Nat.le_antisymm
  · exact hlevels'.le hv'.intact (grounded_of_stackLayout hv' h')
      ((levels_inOrder_iff hentry).mpr hlevels) ((reached_inOrder_iff hentry).mpr hb)
  · exact hlevels.le hv.intact (grounded_of_stackLayout hv h)
      ((levels_inOrder_iff hentry).mp hlevels') hb

/-- Everything that is found in one order is found in the other. -/
theorem heights_inOrder (h' : (f.inOrder order).stackLayout = .ok l') :
    l'.maxDepth = l.maxDepth ∧
      ∀ p i, f.instrAt? p = some i → l'.heightBefore? p = l.heightBefore? p := by
  have hv' := hv.inOrder hperm
  obtain ⟨known, hknown, hl⟩ := exists_lays h
  obtain ⟨known', hknown', hl'⟩ := exists_lays h'
  have hsame (b : BlockId) : known'[b]? = known[b]? := by
    ext k
    rw [hl'.getElem?_eq_some_iff hv' hknown', hl.getElem?_eq_some_iff hv hknown,
      reached_inOrder_iff hentry]
    apply and_congr_right
    intro hb
    rw [entryHeight_inOrder hv h hperm hentry h' hb]
  constructor
  · apply eq_of_forall_ge_iff
    intro D
    rw [hl'.maxDepth_le_iff hv'.wf, hl.maxDepth_le_iff hv.wf]
    simp [blockDepth, hsame]
  · intro p i hi
    obtain ⟨B, hB, hn⟩ := instrAt?_eq_some_iff.mp hi
    have hlt := (List.getElem?_eq_some_iff.mp hn).1
    have hB' : (f.inOrder order).block? p.block = some B := hB
    show l'.heightBefore? ⟨p.block, p.offset⟩ = l.heightBefore? ⟨p.block, p.offset⟩
    rw [hl'.heightBefore?_eq hv'.wf hB' hlt, hl.heightBefore?_eq hv.wf hB hlt, hsame]

/-- Another order is accepted exactly if in it every exported block that is entered with something
on the stack is reached from an earlier start. -/
theorem exists_stackLayout_inOrder_iff : (∃ l', (f.inOrder order).stackLayout = .ok l') ↔
    ∀ x, f.IsExported x → l.heightBefore? ⟨x, 0⟩ ≠ some 0 →
      ∃ r, (f.inOrder order).StartsBefore r x ∧ ReflTransGen f.Follows r x := by
  have hv' := hv.inOrder hperm
  have hzero {x : BlockId} (hx : f.IsExported x) :
      l.heightBefore? ⟨x, 0⟩ ≠ some 0 ↔ l.entryHeight x ≠ 0 := by
    rw [heightBefore?_of_reached hv h (.exported hx), ne_eq, ne_eq, Option.some.injEq]
  constructor
  · rintro ⟨l', h'⟩ x hx hne
    rw [hzero hx, ← entryHeight_inOrder hv h hperm hentry h' (.exported hx)] at hne
    exact grounded_of_stackLayout hv' h' x hx hne
  · intro hground
    have hlevels := (levels_inOrder_iff hentry).mpr (levels_of_stackLayout hv h)
    apply hlevels.exists_stackLayout hv'.intact
    intro x hx hne
    exact hground x hx ((hzero hx).mpr hne)

end

/-- Some order puts a block right behind the entry, so that nothing else starts before it. -/
theorem startsBefore_second (hw : f.WF) (he : f.entry? = some e) (hx : x ∈ f.layout)
    (hne : x ≠ e) : ∃ order, order.Perm f.layout ∧ Func.entry? (f.inOrder order) = f.entry? ∧
      ∀ r, (f.inOrder order).StartsBefore r x → r = e := by
  have hmem : e ∈ f.layout := List.mem_of_mem_head? he
  have hrest : x ∈ f.layout.erase e := (List.mem_erase_of_ne hne).mpr hx
  have hperm : (e :: x :: (f.layout.erase e).erase x).Perm f.layout :=
    ((List.perm_cons_erase hrest).symm.cons e).trans (List.perm_cons_erase hmem).symm
  refine ⟨_, hperm, he.symm, fun r hstart ↦ ?_⟩
  cases hstart with
  | inl hr => exact (Option.some.inj hr).symm
  | inr hr =>
    obtain ⟨_, m, n, hm, hn, hlt⟩ := hr
    have hsecond : n = 1 := (hw.of_perm hperm).index_unique hn rfl
    obtain rfl : m = 0 := by omega
    exact (Option.some.inj hm).symm

/-- For a valid function whose stack is in order, and every other order of its blocks that keeps
the entry: it is valid too, and if its stack is in order, then all instructions have the heights
they had and the largest height is the same. Its stack is in order exactly if every exported block
that is entered with something on the stack is reached from an earlier start. So it is in order
whatever the order exactly if every exported block is entered with an empty stack or reached from
the entry.

An order has the instructions of every other. With fewer than `2 ^ 32` of them, the heights in all
orders are those of 32-bit words, by the bounds of `Bytecode.Proofs.Stack.Course`. -/
theorem stackLayout_across_orders (hw : f.WF) (hf : f.fault? = none) (h : f.stackLayout = .ok l) :
    (∀ order g, f.reorder order = .ok g → g.entry? = f.entry? →
      g.fault? = none ∧
      (∀ l', g.stackLayout = .ok l' → l'.maxDepth = l.maxDepth ∧
        ∀ p i, f.instrAt? p = some i →
          g.instrAt? p = some i ∧ l'.heightBefore? p = l.heightBefore? p) ∧
      ((∃ l', g.stackLayout = .ok l') ↔ ∀ x, f.IsExported x → l.heightBefore? ⟨x, 0⟩ ≠ some 0 →
        ∃ r, g.StartsBefore r x ∧ ReflTransGen f.Follows r x)) ∧
    ((∀ order g, f.reorder order = .ok g → g.entry? = f.entry? → ∃ l', g.stackLayout = .ok l') ↔
      ∀ x e, f.IsExported x → f.entry? = some e →
        l.heightBefore? ⟨x, 0⟩ = some 0 ∨ ReflTransGen f.Follows e x) := by
  have hv := hw.fault?_eq_none_iff.mp hf
  constructor
  · intro order g hg hentry
    obtain ⟨hperm, rfl⟩ := hw.reorder_eq_ok_iff.mp hg
    refine ⟨?_, fun l' h' ↦ ?_, exists_stackLayout_inOrder_iff hv h hperm hentry⟩
    · exact (hw.of_perm hperm).fault?_eq_none_iff.mpr (hv.inOrder hperm)
    · obtain ⟨hdepth, hheights⟩ := heights_inOrder hv h hperm hentry h'
      exact ⟨hdepth, fun p i hi ↦ ⟨hi, hheights p i hi⟩⟩
  · constructor
    · intro hall x e hx he
      by_contra hnot
      rw [not_or] at hnot
      have hne : x ≠ e := fun heq ↦ hnot.2 (heq ▸ .refl)
      -- With the block right behind the entry, only the entry starts before it.
      obtain ⟨order, hperm, hentry, hfirst⟩ :=
        startsBefore_second hw he ((hw.mem_layout x).mpr hx.contains) hne
      have hok := hall order _ (hw.reorder_eq_ok_iff.mpr ⟨hperm, rfl⟩) hentry
      obtain ⟨r, hstart, hpath⟩ :=
        (exists_stackLayout_inOrder_iff hv h hperm hentry).mp hok x hx hnot.1
      exact hnot.2 (hfirst r hstart ▸ hpath)
    · intro hall order g hg hentry
      obtain ⟨hperm, rfl⟩ := hw.reorder_eq_ok_iff.mp hg
      refine (exists_stackLayout_inOrder_iff hv h hperm hentry).mpr fun x hx hne ↦ ?_
      obtain ⟨e, he⟩ := hv.intact.exists_entry
      exact ⟨e, .inl (hentry.trans he), (hall x e hx he).resolve_left hne⟩

/-- Two exported blocks: one that the entry leads to with a value, and one that nothing leads
to. -/
def moored : Func :=
  ((Draft.start "moored" 0 0).declareAll
    [.block { id := 0, code := [.push .null, .jump 1] },
      .block { id := 1, code := [.ret], pinned := true },
      .block { id := 2, code := [.push .null, .jump 1], pinned := true }]).build

/-- The stack of `moored` is in order with its exported blocks in either order, and the heights are
the same. -/
theorem moored_across_orders :
    moored.WF ∧ moored.fault? = none ∧
      moored.stackLayout =
        .ok ⟨[(0, 0), (1, 2), (2, 3)], [some 0, some 1, some 1, some 0, some 1], 1⟩ ∧
      ∃ g l', moored.reorder [0, 2, 1] = .ok g ∧ g.entry? = moored.entry? ∧
        g.stackLayout = .ok l' ∧ l'.maxDepth = 1 ∧ l'.heightBefore? ⟨1, 0⟩ = some 1 := by
  have hdrafted : moored.Drafted := ⟨_, _, _, _, rfl⟩
  have hw := hdrafted.wf
  have hf : moored.fault? = none := by decide +kernel
  have hl : moored.stackLayout =
      .ok ⟨[(0, 0), (1, 2), (2, 3)], [some 0, some 1, some 1, some 0, some 1], 1⟩ := by
    decide +kernel
  have hexp : moored.exportedBlocks = [1, 2] := by decide +kernel
  have hlead : moored.Leads 0 1 := by decide +kernel
  obtain ⟨hevery, hall⟩ := stackLayout_across_orders hw hf hl
  obtain ⟨g, hg, hentry⟩ : ∃ g, moored.reorder [0, 2, 1] = .ok g ∧ g.entry? = moored.entry? :=
    ⟨{ moored with layout := [0, 2, 1] }, by decide +kernel, by decide +kernel⟩
  have hok : ∃ l', g.stackLayout = .ok l' := by
    refine hall.mpr (fun x e hx he ↦ ?_) [0, 2, 1] g hg hentry
    rw [← hw.mem_exportedBlocks, hexp] at hx
    have hzero : e = 0 := Option.some.inj (he.symm.trans (by decide +kernel))
    simp only [List.mem_cons, List.not_mem_nil, or_false] at hx
    rcases hx with rfl | rfl
    · exact .inr (hzero ▸ .single (.inl hlead))
    · exact .inl (by decide +kernel)
  obtain ⟨l', hl'⟩ := hok
  obtain ⟨hdepth, hheights⟩ := (hevery [0, 2, 1] g hg hentry).2.1 l' hl'
  have hone := (hheights ⟨1, 0⟩ .ret (by decide +kernel)).2
  exact ⟨hw, hf, hl, g, l', hg, hentry, hl', hdepth, hone.trans (by decide +kernel)⟩

/-- The exported block `1` leads to the exported block `2` with a value, and the entry to
neither. -/
def seeded : Func :=
  ((Draft.start "seeded" 0 0).declareAll
    [.block { id := 0, code := [.push .null, .ret] },
      .block { id := 1, code := [.push .null, .jump 2], pinned := true },
      .block { id := 2, code := [.ret], pinned := true }]).build

/-- When it stands before the other one, the check starts block `2` with an empty stack. -/
theorem seeded_depends_on_order :
    seeded.Drafted ∧ seeded.fault? = none ∧ (∃ l, seeded.stackLayout = .ok l) ∧
      ∃ g, seeded.reorder [0, 2, 1] = .ok g ∧ g.entry? = seeded.entry? ∧ g.fault? = none ∧
        g.stackLayout = .error (.invalidReturnHeight 2 0) := by
  refine ⟨⟨_, _, _, _, rfl⟩, by decide +kernel, ?_, { seeded with layout := [0, 2, 1] }, ?_⟩
  · exact ⟨⟨[(0, 0), (1, 2), (2, 4)], [some 0, some 1, some 0, some 1, some 1], 1⟩,
      by decide +kernel⟩
  · decide +kernel

end Bytecode.Func
