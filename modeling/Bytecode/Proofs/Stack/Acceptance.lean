import Bytecode.Proofs.Flow.Edges
import Bytecode.Proofs.Stack.Heights

/-!
# Which stacks are in order

The check of the stack finds one height for each block that control comes to. Conversely, heights
that agree along all edges make the check succeed, with one proviso: it starts an exported block
that it has not come to with an empty stack, so an exported block that is entered with something on
the stack has to be reached from a block where the check starts earlier.
-/

namespace Bytecode

/-- The height with which a block is reached; zero where control never comes. -/
def StackLayout.entryHeight (l : StackLayout) (b : BlockId) : Nat :=
  (l.heightBefore? ⟨b, 0⟩).getD 0

/-- Where a block stands matters for the faults only. -/
theorem walkCode_of_ok {offset offset' height final : Nat} {code : List Instr}
    (h : walkCode offset height code = .ok final) : walkCode offset' height code = .ok final := by
  induction code generalizing offset offset' height with
  | nil => exact h
  | cons i code ih =>
    rw [walkCode] at h ⊢
    split at h
    · contradiction
    · next next hadvance =>
      rw [advance_eq_ok_iff.mpr (advance_eq_ok_iff.mp hadvance)]
      exact ih h

/-- Code in two parts is walked one part after the other. -/
theorem walkCode_append_eq_ok_iff {offset height final : Nat} {code code' : List Instr} :
    walkCode offset height (code ++ code') = .ok final ↔
      ∃ between, walkCode offset height code = .ok between ∧
        walkCode offset between code' = .ok final := by
  induction code generalizing offset height with
  | nil => simp [walkCode]
  | cons i code ih =>
    rw [List.cons_append, walkCode, walkCode]
    cases i.advance offset height with
    | error fault => simp
    | ok next =>
      simp only [ih]
      constructor
      · rintro ⟨between, hcode, hcode'⟩
        exact ⟨between, hcode, walkCode_of_ok hcode'⟩
      · rintro ⟨between, hcode, hcode'⟩
        exact ⟨between, hcode, walkCode_of_ok hcode'⟩

/-- Only the effects of the instructions count, and which of them return. -/
theorem walkCode_map {φ : Instr → Instr} (heffect : ∀ i, (φ i).effect = i.effect)
    (hret : ∀ i, φ i = .ret → i = .ret) {offset height final : Nat} {code : List Instr}
    (h : walkCode offset height code = .ok final) :
    walkCode offset height (code.map φ) = .ok final := by
  induction code generalizing offset height with
  | nil => exact h
  | cons i code ih =>
    rw [walkCode] at h
    split at h
    · contradiction
    · next next hadvance =>
      obtain ⟨hone, hpops, hnext⟩ := advance_eq_ok_iff.mp hadvance
      have hadvance' : (φ i).advance offset height = .ok next := by
        rw [advance_eq_ok_iff, Instr.heightAfter, heffect]
        exact ⟨fun hi ↦ hone (hret i hi), hpops, hnext⟩
      rw [List.map_cons, walkCode, hadvance']
      exact ih h

/-- A jump leaves the stack alone. -/
theorem walkCode_append_jump {offset height final : Nat} {code : List Instr} {b : BlockId} :
    walkCode offset height (code ++ [.jump b]) = .ok final ↔
      walkCode offset height code = .ok final := by
  simp [walkCode_append_eq_ok_iff, walkCode, Instr.advance, Instr.heightAfter, Instr.effect]

/-- Heights that a block is walked from keep their distance. -/
theorem walkCode_shift {offset height height' final final' : Nat} {code : List Instr}
    (h : walkCode offset height code = .ok final)
    (h' : walkCode offset height' code = .ok final') :
    final + height' = final' + height := by
  induction code generalizing offset height height' with
  | nil =>
    cases h
    cases h'
    omega
  | cons i code ih =>
    rw [walkCode] at h h'
    split at h
    · contradiction
    · next next hadvance =>
      split at h'
      · contradiction
      · next next' hadvance' =>
        obtain ⟨_, hpops, hnext⟩ := advance_eq_ok_iff.mp hadvance
        obtain ⟨_, hpops', hnext'⟩ := advance_eq_ok_iff.mp hadvance'
        have hrest := ih h h'
        rw [Instr.heightAfter] at hnext hnext'
        omega

namespace Func

variable {f : Func} {H H' : BlockId → Nat} {known known' : EntryHeights} {pending : List Arrival}
  {l : StackLayout} {a b : BlockId}

/-- Each block of a set can be walked from its height, its successors have the height at its end,
and its handler has none. -/
structure LevelsOn (f : Func) (S : BlockId → Prop) (H : BlockId → Nat) : Prop where
  entry : ∀ e, f.entry? = some e → H e = 0
  walk : ∀ b B, S b → f.block? b = some B → ∃ final, walkCode 0 (H b) B.code = .ok final ∧
    (∀ c, f.Leads b c → H c = final) ∧ ∀ c, B.handler = some c → H c = 0

/-- The heights agree along the edges between all blocks that control comes to. -/
abbrev Levels (f : Func) (H : BlockId → Nat) : Prop := f.LevelsOn f.Reached H

/-- The heights agree along the edges between all live blocks. -/
abbrev Balances (f : Func) (H : BlockId → Nat) : Prop := f.LevelsOn f.Live H

private theorem LevelsOn.mono {S S' : BlockId → Prop} (h : f.LevelsOn S H) (hS : ∀ b, S' b → S b) :
    f.LevelsOn S' H :=
  ⟨h.entry, fun b B hb hB ↦ h.walk b B (hS b hb) hB⟩

/-- The check starts at the first block before it would start at the second. -/
def StartsBefore (f : Func) (r x : BlockId) : Prop :=
  f.entry? = some r ∨ f.IsExported r ∧ f.Precedes r x

/-- Along the given edges, an exported block that is entered with something on the stack can be
reached from a block where the check starts earlier. -/
def Grounded (f : Func) (E : BlockId → BlockId → Prop) (H : BlockId → Nat) : Prop :=
  ∀ x, f.IsExported x → H x ≠ 0 → ∃ r, f.StartsBefore r x ∧ Relation.ReflTransGen E r x

/-- With more edges, what was grounded still is. -/
theorem Grounded.mono {E E' : BlockId → BlockId → Prop} (h : f.Grounded E H)
    (hE : ∀ a b, E a b → E' a b) : f.Grounded E' H := by
  intro x hx hne
  obtain ⟨r, hr, hpath⟩ := h x hx hne
  exact ⟨r, hr, Relation.ReflTransGen.mono hE _ _ hpath⟩

/-! ### Order in the layout -/

private theorem pairwise_layout (f : Func) : f.layout.Pairwise f.Precedes := by
  rw [List.pairwise_iff_getElem]
  intro m n hm hn hlt
  exact ⟨m, n, List.getElem?_eq_getElem hm, List.getElem?_eq_getElem hn, hlt⟩

/-- One block precedes another if the layout has them in that order. -/
theorem precedes_iff_sublist : f.Precedes a b ↔ [a, b].Sublist f.layout := by
  constructor
  · rintro ⟨m, n, hm, hn, hlt⟩
    obtain ⟨hm', rfl⟩ := List.getElem?_eq_some_iff.mp hm
    obtain ⟨hn', rfl⟩ := List.getElem?_eq_some_iff.mp hn
    have hdrop : [f.layout[m], f.layout[n]].Sublist (f.layout.drop m) := by
      rw [List.drop_eq_getElem_cons hm']
      apply List.Sublist.cons_cons
      rw [List.singleton_sublist]
      exact List.mem_drop_iff_getElem.mpr ⟨n - (m + 1), by omega, by congr 1; omega⟩
    exact hdrop.trans (List.drop_sublist m f.layout)
  · intro h
    simpa using f.pairwise_layout.sublist h

private theorem WF.pairwise_exportedBlocks (hw : f.WF) : f.exportedBlocks.Pairwise f.Precedes := by
  refine List.Pairwise.sublist ?_ f.pairwise_layout
  rw [exportedBlocks, ← hw.map_fst_blocks]
  exact List.filter_sublist.map Prod.fst

/-! ### Heights that balance are accepted -/

/-- The recorded heights are the given ones. -/
def Conforms (H : BlockId → Nat) (known : EntryHeights) : Prop :=
  ∀ b k, known[b]? = some k → k = H b

/-- An exported block is entered with an empty stack if nothing that comes before it leads to
it. -/
theorem Grounded.eq_zero {x : BlockId} (h : f.Grounded f.Follows H) (ht : f.Tracked known [])
    (hx : f.IsExported x) (hdone : ∀ r, f.StartsBefore r x → ∃ k, known[r]? = some k)
    (hnone : known[x]? = none) : H x = 0 := by
  by_contra hne
  obtain ⟨r, hstart, hpath⟩ := h x hx hne
  obtain ⟨k, hk⟩ := ht.exists_of_path (hdone r hstart) hpath
  rw [hnone] at hk
  contradiction

section

variable (hf : f.Intact) (hH : f.Levels H)

include hf hH

/-- An arrival with the given height is taken up without a fault, and so can be what follows it. -/
theorem Levels.visit_ok {a : Arrival} (hknown : Conforms H known) (ha : f.Reached a.1)
    (hheight : a.2 = H a.1) :
    ∃ v, f.visit known a = .ok v ∧ Conforms H v.known ∧
      ∀ c ∈ v.next, f.Reached c.1 ∧ c.2 = H c.1 := by
  obtain ⟨B, hB⟩ := contains_iff.mp (ha.contains hf)
  obtain ⟨final, hwalk, hleads, hhandler⟩ := hH.walk a.1 B ha hB
  cases hrec : known[a.1]? with
  | some expected =>
    have heq : expected = a.2 := (hknown _ _ hrec).trans hheight.symm
    exact ⟨⟨known, [], false⟩, by simp only [visit, hB, hrec, heq, ↓reduceIte], hknown, by simp⟩
  | none =>
    obtain ⟨next, hnext⟩ := hf.exists_arrivals hB final
    have hwalk' : walkCode (f.startOf a.1) a.2 B.code = .ok final := hheight ▸ walkCode_of_ok hwalk
    refine ⟨⟨known.insert a.1 a.2, next, true⟩, by simp only [visit, hB, hrec, hwalk', hnext],
      ?_, ?_⟩
    · intro b k hb
      rw [getElem?_insert_height] at hb
      split at hb
      · next heq =>
        cases hb
        exact heq ▸ hheight
      · exact hknown b k hb
    · intro c hc
      cases (mem_arrivals_iff hnext).mp hc with
      | inl hsucc => exact ⟨.follow ha (.inl hsucc.1), hsucc.2.trans (hleads c.1 hsucc.1).symm⟩
      | inr hh => exact ⟨.follow ha (.inr ⟨B, hB, hh.1⟩), hh.2.trans (hhandler c.1 hh.1).symm⟩

private theorem Levels.drain_ok (fuel : Nat) (hknown : Conforms H known)
    (hpending : ∀ a ∈ pending, f.Reached a.1 ∧ a.2 = H a.1) :
    ∃ known', f.drain fuel pending known = .ok known' ∧ Conforms H known' := by
  induction fuel generalizing pending known with
  | zero => exact ⟨known, rfl, hknown⟩
  | succ fuel ih =>
    cases pending with
    | nil => exact ⟨known, rfl, hknown⟩
    | cons a pending =>
      obtain ⟨ha, hheight⟩ := hpending a List.mem_cons_self
      obtain ⟨v, hvisit, hknown₁, hnext⟩ := hH.visit_ok hf hknown ha hheight
      rw [drain, hvisit]
      apply ih hknown₁
      intro x hx
      rw [List.mem_append] at hx
      exact hx.elim (fun hx ↦ hpending x (List.mem_cons_of_mem a hx)) (hnext x)

private theorem Levels.drainFrom_ok (hknown : Conforms H known) (ha : f.Reached a)
    (hheight : H a = 0) : ∃ known', f.drainFrom a known = .ok known' ∧ Conforms H known' :=
  hH.drain_ok hf _ hknown (by simpa using ⟨ha, hheight.symm⟩)

/-- While the exported blocks `roots` are still to come, those before them are recorded. So a block
of these that is not recorded is not reached from there, and its height is zero. -/
theorem Levels.drainExports_ok (hground : f.Grounded f.Follows H) {roots : List BlockId}
    (hroots : ∀ b ∈ roots, f.IsExported b) (hpair : roots.Pairwise f.Precedes)
    (ht : f.Tracked known []) (hknown : Conforms H known)
    (hentry : ∀ e, f.entry? = some e → ∃ k, known[e]? = some k)
    (hdone : ∀ r, f.IsExported r → r ∈ roots ∨ ∃ k, known[r]? = some k) :
    ∃ known', f.drainExports roots known = .ok known' := by
  induction roots generalizing known with
  | nil => exact ⟨known, rfl⟩
  | cons x roots ih =>
    have hroots' (b : BlockId) (hb : b ∈ roots) := hroots b (List.mem_cons_of_mem x hb)
    obtain ⟨hx, hpair'⟩ := List.pairwise_cons.mp hpair
    rw [drainExports]
    split
    · next hrec =>
      rw [Std.TreeMap.contains_eq_isSome_getElem?, Option.isSome_iff_exists] at hrec
      apply ih hroots' hpair' ht hknown hentry
      intro r hr
      rcases hdone r hr with hmem | hrec'
      · rcases List.mem_cons.mp hmem with rfl | hmem
        · exact .inr hrec
        · exact .inl hmem
      · exact .inr hrec'
    · next hrec =>
      rw [Std.TreeMap.contains_eq_isSome_getElem?, Option.not_isSome_iff_eq_none] at hrec
      have hexp := hroots x List.mem_cons_self
      have hzero : H x = 0 := by
        refine hground.eq_zero ht hexp (fun r hstart ↦ ?_) hrec
        rcases hstart with he | ⟨hr, hprec⟩
        · exact hentry r he
        · refine (hdone r hr).resolve_left fun hmem ↦ ?_
          rcases List.mem_cons.mp hmem with rfl | hmem
          · exact hf.wf.precedes_irrefl hprec
          · exact hf.wf.precedes_irrefl (hf.wf.precedes_trans hprec (hx r hmem))
      obtain ⟨known₁, hfrom, hknown₁⟩ := hH.drainFrom_ok hf hknown (.exported hexp) hzero
      obtain ⟨ht₁, hext, hroot⟩ := hf.wf.drainFrom_tracked ht (.exported hexp) hfrom
      rw [hfrom]
      apply ih hroots' hpair' ht₁ hknown₁
      · intro e he
        obtain ⟨k, hk⟩ := hentry e he
        exact ⟨k, hext e k hk⟩
      · intro r hr
        rcases hdone r hr with hmem | ⟨k, hk⟩
        · rcases List.mem_cons.mp hmem with rfl | hmem
          · exact .inr ⟨0, hroot⟩
          · exact .inl hmem
        · exact .inr ⟨k, hext r k hk⟩

/-- Heights that agree along all edges and ground the exported blocks make the check succeed. -/
theorem Levels.exists_stackLayout (hground : f.Grounded f.Follows H) :
    ∃ l, f.stackLayout = .ok l := by
  obtain ⟨e, he⟩ := hf.exists_entry
  have hconforms : Conforms H ∅ := by simp [Conforms]
  obtain ⟨known₁, hfrom, hknown₁⟩ := hH.drainFrom_ok hf hconforms (.entry he) (hH.entry e he)
  obtain ⟨ht₁, _, hroot⟩ := hf.wf.drainFrom_tracked f.tracked_empty (.entry he) hfrom
  obtain ⟨known, hknown⟩ := hH.drainExports_ok hf hground
    (fun b hb ↦ hf.wf.mem_exportedBlocks.mp hb) hf.wf.pairwise_exportedBlocks ht₁ hknown₁
    (fun e' he' ↦ ⟨0, by rwa [← Option.some.inj (he.symm.trans he')]⟩)
    fun r hr ↦ .inl (hf.wf.mem_exportedBlocks.mpr hr)
  have hheights : f.entryHeights = .ok known := by
    simp only [entryHeights, he, hf.find?_isEmpty, hfrom, hknown]
  exact ⟨_, by rw [stackLayout, hheights]⟩

/-- From one block on, two tables of heights keep their distance, or become equal at a handler. -/
theorem Levels.shift (hH' : f.Levels H') (ha : f.Reached a)
    (hpath : Relation.ReflTransGen f.Follows a b) :
    f.Reached b ∧ (H b = H' b ∨ H b + H' a = H' b + H a) := by
  induction hpath with
  | refl => exact ⟨ha, .inr (Nat.add_comm _ _)⟩
  | @tail y z _ hyz ih =>
    refine ⟨.follow ih.1 hyz, ?_⟩
    obtain ⟨Y, hY⟩ := contains_iff.mp (ih.1.contains hf)
    obtain ⟨final, hwalk, hleads, hhandler⟩ := hH.walk y Y ih.1 hY
    obtain ⟨final', hwalk', hleads', hhandler'⟩ := hH'.walk y Y ih.1 hY
    cases hyz with
    | inl hyz =>
      have hshift := walkCode_shift hwalk hwalk'
      rw [hleads z hyz, hleads' z hyz]
      omega
    | inr hyz =>
      obtain ⟨Y', hY', hh⟩ := hyz
      obtain rfl := Option.some.inj (hY.symm.trans hY')
      rw [hhandler z hh, hhandler' z hh]
      exact .inl rfl

end

/-! ### The heights that the check finds -/

/-- A drain records nothing out of a set that has the pending blocks and that control does not
leave. -/
theorem mem_of_drain {S : BlockId → Prop} (hS : ∀ a b, S a → f.Follows a b → S b) {fuel : Nat}
    (hpending : ∀ a ∈ pending, S a.1) (h : f.drain fuel pending known = .ok known') {k : Nat}
    (hb : known'[b]? = some k) : known[b]? = some k ∨ S b := by
  induction fuel generalizing pending known with
  | zero =>
    cases h
    exact .inl hb
  | succ fuel ih =>
    cases pending with
    | nil =>
      cases h
      exact .inl hb
    | cons a pending =>
      rw [drain] at h
      split at h
      · contradiction
      · next v hvisit =>
        have ha := hpending a List.mem_cons_self
        have hpending' (x : Arrival) (hx : x ∈ pending) := hpending x (List.mem_cons_of_mem a hx)
        cases visit_cases hvisit with
        | inl hold =>
          obtain ⟨_, rfl⟩ := hold
          rw [List.append_nil] at h
          exact ih hpending' h
        | inr hnew =>
          obtain ⟨_, next, ⟨B, final, hB, _, hnext⟩, rfl⟩ := hnew
          have hnext' (x : Arrival) (hx : x ∈ next) : S x.1 := by
            apply hS a.1 x.1 ha
            cases (mem_arrivals_iff hnext).mp hx with
            | inl hsucc => exact .inl hsucc.1
            | inr hh => exact .inr ⟨B, hB, hh.1⟩
          have hall (x : Arrival) (hx : x ∈ pending ++ next) : S x.1 :=
            (List.mem_append.mp hx).elim (hpending' x) (hnext' x)
          refine (ih hall h).elim (fun hrec ↦ ?_) .inr
          rw [getElem?_insert_height] at hrec
          split at hrec
          · next heq => exact .inr (heq ▸ ha)
          · exact .inl hrec

private theorem path_of_drainFrom (h : f.drainFrom a known = .ok known') {k : Nat}
    (hb : known'[b]? = some k) :
    known[b]? = some k ∨ Relation.ReflTransGen f.Follows a b :=
  mem_of_drain (fun _ _ hpath hstep ↦ hpath.tail hstep) (by simp [Relation.ReflTransGen.refl]) h hb

/-- An exported block is recorded with an empty stack when the check starts there; if it does not,
the block has been reached from where it did start. -/
theorem WF.drainExports_grounds (hw : f.WF) {roots : List BlockId}
    (hroots : ∀ b ∈ roots, f.IsExported b) (hpair : roots.Pairwise f.Precedes)
    (ht : f.Tracked known [])
    (hpaths : ∀ b k, known[b]? = some k → ∃ r, (f.entry? = some r ∨
      f.IsExported r ∧ ∀ x ∈ roots, f.Precedes r x) ∧ Relation.ReflTransGen f.Follows r b)
    (h : f.drainExports roots known = .ok known') {x : BlockId} (hx : x ∈ roots) :
    known'[x]? = some 0 ∨ ∃ r, f.StartsBefore r x ∧ Relation.ReflTransGen f.Follows r x := by
  induction roots generalizing known with
  | nil => contradiction
  | cons y roots ih =>
    have hroots' (b : BlockId) (hb : b ∈ roots) := hroots b (List.mem_cons_of_mem y hb)
    obtain ⟨hy, hpair'⟩ := List.pairwise_cons.mp hpair
    have hpaths' (b : BlockId) (k : Nat) (hb : known[b]? = some k) : ∃ r, (f.entry? = some r ∨
        f.IsExported r ∧ ∀ x ∈ roots, f.Precedes r x) ∧ Relation.ReflTransGen f.Follows r b := by
      obtain ⟨r, hstart, hpath⟩ := hpaths b k hb
      exact ⟨r, hstart.imp_right (And.imp_right fun h x hx ↦ h x (List.mem_cons_of_mem y hx)),
        hpath⟩
    rw [drainExports] at h
    split at h
    · next hrec =>
      rcases List.mem_cons.mp hx with rfl | hx
      · rw [Std.TreeMap.contains_eq_isSome_getElem?, Option.isSome_iff_exists] at hrec
        obtain ⟨k, hk⟩ := hrec
        obtain ⟨r, hstart, hpath⟩ := hpaths x k hk
        exact .inr ⟨r, hstart.imp_right (And.imp_right fun h ↦ h x List.mem_cons_self), hpath⟩
      · exact ih hroots' hpair' ht hpaths' h hx
    · split at h
      · contradiction
      · next known₁ hfrom =>
        have hexp := hroots y List.mem_cons_self
        obtain ⟨ht₁, _, hroot⟩ := hw.drainFrom_tracked ht (.exported hexp) hfrom
        rcases List.mem_cons.mp hx with rfl | hx
        · exact .inl ((hw.drainExports_tracked hroots' ht₁ h).2.1 x 0 hroot)
        · refine ih hroots' hpair' ht₁ (fun b k hb ↦ ?_) h hx
          rcases path_of_drainFrom hfrom hb with hb | hpath
          · exact hpaths' b k hb
          · exact ⟨y, .inr ⟨hexp, hy⟩, hpath⟩

private theorem WF.entryHeights_grounds (hw : f.WF) (h : f.entryHeights = .ok known) {x : BlockId}
    (hx : f.IsExported x) :
    known[x]? = some 0 ∨ ∃ r, f.StartsBefore r x ∧ Relation.ReflTransGen f.Follows r x := by
  rw [entryHeights] at h
  split at h
  · contradiction
  · next e he =>
    split at h
    · contradiction
    · split at h
      · contradiction
      · next known₁ hfrom =>
        refine hw.drainExports_grounds (fun b hb ↦ hw.mem_exportedBlocks.mp hb)
          hw.pairwise_exportedBlocks (hw.drainFrom_tracked f.tracked_empty (.entry he) hfrom).1
          (fun b k hb ↦ ?_) h (hw.mem_exportedBlocks.mpr hx)
        exact ⟨e, .inl he, (path_of_drainFrom hfrom hb).resolve_left (by simp)⟩

private theorem Lays.entryHeight_eq {k : Nat} (hl : f.Lays known l) (hv : f.Valid)
    (hb : f.contains b = true) (hk : known[b]? = some k) : l.entryHeight b = k := by
  rw [StackLayout.entryHeight, hl.heightBefore?_zero hv hb, hk, Option.getD_some]

/-- The check records the blocks that control comes to. -/
theorem Lays.getElem?_eq_some_iff (hl : f.Lays known l) (hv : f.Valid)
    (hknown : f.entryHeights = .ok known) {k : Nat} :
    known[b]? = some k ↔ f.Reached b ∧ l.entryHeight b = k := by
  obtain ⟨ht, hentry, hexports⟩ := hv.wf.entryHeights_tracked hknown
  have hheight {k : Nat} (hk : known[b]? = some k) : f.Reached b ∧ l.entryHeight b = k := by
    have hb := (ht.known b k hk).reached
    exact ⟨hb, hl.entryHeight_eq hv (hb.contains hv.intact) hk⟩
  constructor
  · exact hheight
  · rintro ⟨hb, rfl⟩
    obtain ⟨k, hk⟩ := ht.exists_of_reached hentry hexports hb
    rw [(hheight hk).2, hk]

/-- The largest height is bounded exactly if those of all blocks are. -/
theorem Lays.maxDepth_le_iff (hl : f.Lays known l) (hw : f.WF) {D : Nat} :
    l.maxDepth ≤ D ↔ ∀ b B, f.block? b = some B → blockDepth known b B ≤ D := by
  rw [hl.maxDepth, foldl_max_le_iff, List.forall_mem_map]
  simp [hw.mem_blocks]

section

variable (hv : f.Valid) (h : f.stackLayout = .ok l)

include hv h

/-- A reached block has its entry height before its first instruction. -/
theorem heightBefore?_of_reached (hb : f.Reached b) :
    l.heightBefore? ⟨b, 0⟩ = some (l.entryHeight b) := by
  obtain ⟨known, hknown, hl⟩ := exists_lays h
  rw [hl.heightBefore?_zero hv (hb.contains hv.intact)]
  exact (hl.getElem?_eq_some_iff hv hknown).mpr ⟨hb, rfl⟩

/-- The heights in a block that control comes to are its profile from the height it is entered
with. -/
theorem heightBefore?_eq_profile {p : Place} {B : Block} (hb : f.Reached p.block)
    (hB : f.block? p.block = some B) (hn : p.offset < B.code.length) :
    l.heightBefore? p = (heightProfile (l.entryHeight p.block) B.code)[p.offset]? := by
  obtain ⟨known, hknown, hl⟩ := exists_lays h
  have hentry := (hl.getElem?_eq_some_iff hv hknown).mpr ⟨hb, rfl⟩
  exact (hl.heightBefore?_eq hv.wf hB hn).trans (by rw [hentry, Option.bind_some])

/-- The heights that the check finds agree along all edges. -/
theorem levels_of_stackLayout : f.Levels l.entryHeight := by
  obtain ⟨known, hknown, hl⟩ := exists_lays h
  obtain ⟨ht, hentry, _⟩ := hv.wf.entryHeights_tracked hknown
  have hheight {b : BlockId} {k : Nat} (hk : known[b]? = some k) : l.entryHeight b = k :=
    ((hl.getElem?_eq_some_iff hv hknown).mp hk).2
  refine ⟨fun e he ↦ hheight (hentry e he), fun b B hb hB ↦ ?_⟩
  obtain ⟨B', final, hB', hwalk, hleads, hhandler⟩ :=
    ht.agree ((hl.getElem?_eq_some_iff hv hknown).mpr ⟨hb, rfl⟩)
  rw [hB, Option.some.injEq] at hB'
  subst hB'
  exact ⟨final, walkCode_of_ok hwalk, fun c hc ↦ hheight (hleads c hc),
    fun c hc ↦ hheight (hhandler c hc)⟩

/-- The check accepts only functions whose exported blocks are grounded. -/
theorem grounded_of_stackLayout : f.Grounded f.Follows l.entryHeight := by
  obtain ⟨known, hknown, hl⟩ := exists_lays h
  intro x hx hne
  refine (hv.wf.entryHeights_grounds hknown hx).resolve_left fun hzero ↦ hne ?_
  exact hl.entryHeight_eq hv hx.contains hzero

end

/-- The stack of a valid function is in order exactly when some heights agree along all edges and
ground its exported blocks. -/
theorem exists_stackLayout_iff (hv : f.Valid) :
    (∃ l, f.stackLayout = .ok l) ↔ ∃ H, f.Levels H ∧ f.Grounded f.Follows H := by
  constructor
  · rintro ⟨l, h⟩
    exact ⟨l.entryHeight, levels_of_stackLayout hv h, grounded_of_stackLayout hv h⟩
  · rintro ⟨H, hH, hground⟩
    exact hH.exists_stackLayout hv.intact hground

/-! ### Live blocks -/

/-- Live blocks are reached. -/
theorem Live.reached (h : f.Live b) : f.Reached b := by
  induction h with
  | entry he => exact .entry he
  | exported hb => exact .exported hb
  | leads _ hab ih => exact .follow ih (.inl hab)

/-- The check starts at live blocks. -/
theorem StartsBefore.live {r x : BlockId} (h : f.StartsBefore r x) : f.Live r :=
  h.elim .entry fun hr ↦ .exported hr.1

/-- What follows a live block is live, as its handler is exported. -/
theorem Follows.live (hf : f.Sound) (h : f.Follows a b) (ha : f.Live a) : f.Live b := by
  cases h with
  | inl hab => exact .leads ha hab
  | inr hab =>
    obtain ⟨A, hA, hh⟩ := hab
    exact .exported (hf.handler_exported a A b hA hh)

/-- Where handlers are exported, control comes to live blocks only. -/
theorem Reached.live (hf : f.Sound) (h : f.Reached b) : f.Live b := by
  induction h with
  | entry he => exact .entry he
  | exported hb => exact .exported hb
  | follow _ hab ih => exact hab.live hf ih

/-- In a sound function, heights that balance on the live blocks do so on the reached ones. -/
theorem Balances.levels (hf : f.Sound) (h : f.Balances H) : f.Levels H :=
  h.mono fun _ hb ↦ hb.live hf

/-- A sound function with balanced and grounded heights is accepted. -/
theorem Balances.exists_stackLayout (hf : f.Sound) (h : f.Balances H)
    (hground : f.Grounded f.Follows H) : ∃ l, f.stackLayout = .ok l :=
  (h.levels hf).exists_stackLayout hf.intact hground

/-- Heights that balance on the reached blocks do so on the live ones. -/
theorem Levels.balances (h : f.Levels H) : f.Balances H := h.mono fun _ hb ↦ hb.reached

/-- The heights that the check finds balance the function. -/
theorem balances_of_stackLayout (hv : f.Valid) (h : f.stackLayout = .ok l) :
    f.Balances l.entryHeight :=
  (levels_of_stackLayout hv h).balances

end Func

end Bytecode
