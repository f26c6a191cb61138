import Bytecode.Proofs.Flow.Loops

/-!
# Loops in loops

Loops of different headers lie one inside the other if one has the header of the other, and this is
so if they share a block that the entry reaches. Blocks that nothing reaches may lead into several
loops and then belong to all of them. The depth of a loop counts the loops that have its header,
and these are the loops around it.
-/

namespace Bytecode

/-- The body of the one loop is a proper part of the body of the other. -/
structure NaturalLoop.Encloses (outer inner : NaturalLoop) : Prop where
  subset : ∀ b, b ∈ inner.body → b ∈ outer.body
  proper : ∃ b, b ∈ outer.body ∧ b ∉ inner.body

namespace FlowGraph

variable {c : FlowGraph} {f : Func} {l l' : NaturalLoop} {b : BlockId} {header header' : Nat}
  {latches latches' : List Nat}

/-! ### Two loops -/

section

variable (hc : c.Depicts f) (h : c.Traces l header latches)
  (h' : c.Traces l' header' latches')

include hc h h'

private theorem Traces.header_mem_iff :
    l'.header ∈ l.body ↔ c.graph.InLoop header latches header' :=
  h.mem_body_iff hc h'.header_eq

/-- A loop that has the header of another one encloses it. -/
theorem Traces.encloses (hne : l.header ≠ l'.header) (hmem : l'.header ∈ l.body) :
    l.Encloses l' := by
  have hwf := hc.built.wf
  have hin := (h.header_mem_iff hc h').mp hmem
  have hnodes : header ≠ header' := by
    rintro rfl
    exact hne (Option.some.inj (h.header_eq.symm.trans h'.header_eq))
  constructor
  · intro b hb
    obtain ⟨n, hn, hblock⟩ := (h'.mem_body b).mp hb
    exact (h.mem_body b).mpr ⟨n, hin.nested hwf h.heads h'.heads hnodes hn, hblock⟩
  · refine ⟨l.header, h.header_mem_body, fun hmem' ↦ ?_⟩
    exact hin.not_inLoop hwf h.heads h'.heads hnodes ((h'.header_mem_iff hc h).mp hmem')

private theorem Traces.dominates_header (hmem : l'.header ∈ l.body) :
    c.Dominates l.header l'.header := by
  rw [hc.dominates_iff h.header_eq h'.header_eq]
  exact ((h.header_mem_iff hc h').mp hmem).dominates h.heads h'.heads.reaches

/-- Of two loops that share a block that the entry reaches, one has the header of the other. -/
theorem Traces.header_mem_or_header_mem (hb : b ∈ l.body) (hb' : b ∈ l'.body)
    (hreach : c.Reaches c.entryBlock b) : l'.header ∈ l.body ∨ l.header ∈ l'.body := by
  obtain ⟨n, hin, hn⟩ := (h.mem_body b).mp hb
  have hin' := (h'.mem_body_iff hc hn).mp hb'
  rw [h.header_mem_iff hc h', h'.header_mem_iff hc h]
  exact hin.header_or_header h.heads h'.heads hin' ((hc.reaches_iff hc.block?_entry hn).mp hreach)

end

/-! ### All loops -/

section

variable (hw : f.WF) (h : ofFunc f = .ok c)

include hw h

private theorem nodup_map_header : ((c.loops c.backEdges).map NaturalLoop.header).Nodup := by
  rw [map_header_loops_backEdges hw h]
  exact (pairwise_headers _).imp Nat.ne_of_lt

private theorem header_ne_iff (hl : l ∈ c.loops c.backEdges) (hl' : l' ∈ c.loops c.backEdges) :
    l.header ≠ l'.header ↔ l ≠ l' := by
  refine not_congr ⟨fun heq ↦ ?_, fun heq ↦ heq ▸ rfl⟩
  exact List.inj_on_of_nodup_map (nodup_map_header hw h) hl hl' heq

/-- The depth of a loop is the number of the other loops that have its header. -/
theorem encard_header_mem (hl : l ∈ c.loops c.backEdges) :
    {o | o ∈ c.loops c.backEdges ∧ o ≠ l ∧ l.header ∈ o.body}.encard = l.depth := by
  classical
  have hset : {o | o ∈ c.loops c.backEdges ∧ o ≠ l ∧ l.header ∈ o.body} =
      ↑((c.loops c.backEdges).filter fun o ↦
        o.header ≠ l.header && o.body.contains l.header).toFinset := by
    ext o
    simp only [Set.mem_ofPred_eq, List.coe_toFinset, List.mem_filter, Bool.and_eq_true,
      decide_eq_true_eq, Std.TreeSet.contains_iff_mem]
    exact and_congr_right fun ho ↦ and_congr_left' (header_ne_iff hw h ho hl).symm
  have hnodup := (nodup_map_header hw h).of_map
  obtain ⟨_, hdepth, _⟩ := exists_of_mem_loops hl
  rw [hset, Set.encard_coe_eq_coe_finsetCard, List.toFinset_card_of_nodup (hnodup.filter _),
    ← List.countP_eq_length_filter, hdepth, depthIn]

end

/-- For every flow graph and any two of its loops: if one has the header of the other in its body,
then its header strictly dominates that header and it encloses the other loop. If they share a
block that the entry reaches, then one of them encloses the other. The depth of a loop is the
number of other loops that enclose it. -/
theorem loops_nest (hw : f.WF) (h : ofFunc f = .ok c) :
    (∀ A ∈ c.loops c.backEdges, ∀ B ∈ c.loops c.backEdges, A ≠ B →
      (B.header ∈ A.body →
        c.Dominates A.header B.header ∧ A.header ≠ B.header ∧ A.Encloses B) ∧
      ((∃ b, b ∈ A.body ∧ b ∈ B.body ∧ c.Reaches c.entryBlock b) →
        A.Encloses B ∨ B.Encloses A)) ∧
    ∀ A ∈ c.loops c.backEdges,
      {B | B ∈ c.loops c.backEdges ∧ B ≠ A ∧ B.Encloses A}.encard = A.depth := by
  have hc := depicts_of_ofFunc hw h
  constructor
  · intro A hA B hB hne
    obtain ⟨_, _, htraces⟩ := hc.exists_traces hA
    obtain ⟨_, _, htraces'⟩ := hc.exists_traces hB
    have hheader := (header_ne_iff hw h hA hB).mpr hne
    constructor
    · intro hmem
      exact ⟨htraces.dominates_header hc htraces' hmem, hheader,
        htraces.encloses hc htraces' hheader hmem⟩
    · rintro ⟨b, hb, hb', hreach⟩
      rcases htraces.header_mem_or_header_mem hc htraces' hb hb' hreach with hmem | hmem
      · exact .inl (htraces.encloses hc htraces' hheader hmem)
      · exact .inr (htraces'.encloses hc htraces (Ne.symm hheader) hmem)
  · intro A hA
    obtain ⟨_, _, htraces⟩ := hc.exists_traces hA
    rw [← encard_header_mem hw h hA]
    congr 1
    ext B
    refine and_congr_right fun hB ↦ and_congr_right fun hne ↦ ⟨fun hencloses ↦ ?_, fun hmem ↦ ?_⟩
    · exact hencloses.subset A.header htraces.header_mem_body
    · obtain ⟨_, _, htraces'⟩ := hc.exists_traces hB
      exact htraces'.encloses hc htraces ((header_ne_iff hw h hB hA).mpr hne) hmem

/-- In `circuits` the first loop encloses the second, while the third shares only a block with them
that nothing reaches. -/
theorem circuits_nest :
    circuits.WF ∧ ∃ c, ofFunc circuits = .ok c ∧ ∃ A B C, c.loops c.backEdges = [A, B, C] ∧
      c.Dominates A.header B.header ∧ A.header ≠ B.header ∧ A.Encloses B ∧
      9 ∈ A.body ∧ 9 ∈ C.body ∧ ¬A.Encloses C ∧ ¬C.Encloses A ∧ ¬c.Reaches c.entryBlock 9 ∧
      {L | L ∈ c.loops c.backEdges ∧ L ≠ B ∧ L.Encloses B}.encard = 1 := by
  have hdrafted : circuits.Drafted := ⟨_, _, _, _, rfl⟩
  have hfound : (ofFunc circuits).toOption.map (fun c ↦ (c.loops c.backEdges).map
      fun l ↦ (l.header, l.body.toList, l.depth)) =
      some [(1, [1, 2, 3, 4, 9], 0), (2, [2, 3, 9], 1), (5, [5, 6, 7, 9], 0)] := by
    decide +kernel
  cases h : ofFunc circuits with
  | error fault => simp [h, Except.toOption] at hfound
  | ok c =>
    simp only [h, Except.toOption, Option.map_some, Option.some.injEq, List.map_eq_cons_iff,
      List.map_eq_nil_iff, Prod.mk.injEq] at hfound
    obtain ⟨A, _, hloops, ⟨hA, hbodyA, _⟩, B, _, rfl, ⟨hB, _, hdepth⟩, C, _, rfl,
      ⟨hC, hbodyC, _⟩, rfl⟩ := hfound
    have hmemA (b : BlockId) : b ∈ A.body ↔ b ∈ [1, 2, 3, 4, 9] := by
      rw [← hbodyA, Std.TreeSet.mem_toList]
    have hmemC (b : BlockId) : b ∈ C.body ↔ b ∈ [5, 6, 7, 9] := by
      rw [← hbodyC, Std.TreeSet.mem_toList]
    have hAC : ¬A.Encloses C := fun hac ↦
      absurd ((hmemA 5).mp (hac.subset 5 ((hmemC 5).mpr (by decide)))) (by decide)
    have hCA : ¬C.Encloses A := fun hca ↦
      absurd ((hmemC 1).mp (hca.subset 1 ((hmemA 1).mpr (by decide)))) (by decide)
    have hAB : A ≠ B := fun heq ↦ by simp [heq, hB] at hA
    have hAC' : A ≠ C := fun heq ↦ by simp [heq, hC] at hA
    obtain ⟨hnest, hdepths⟩ := loops_nest hdrafted.wf h
    rw [hloops] at hnest hdepths
    obtain ⟨hdom, hne, hencloses⟩ := (hnest A (by simp) B (by simp) hAB).1 (by simp [hmemA, hB])
    have hshared : 9 ∈ A.body ∧ 9 ∈ C.body := ⟨by simp [hmemA], by simp [hmemC]⟩
    refine ⟨hdrafted.wf, c, rfl, A, B, C, hloops, hdom, hne, hencloses, hshared.1, hshared.2, hAC,
      hCA, fun hreach ↦ ?_, ?_⟩
    · exact ((hnest A (by simp) C (by simp) hAC').2 ⟨9, hshared.1, hshared.2, hreach⟩).elim hAC hCA
    · rw [hloops, hdepths B (by simp), hdepth]
      rfl

end FlowGraph

end Bytecode
