import Bytecode.Proofs.Merge.Fusion

/-!
# Links fall into chains

Each live block that can be taken in has one live predecessor, and neither the entry nor an
exported block can be taken in. So there is no circle of links: nothing would lead into it. The
links fall into finite chains, each with a head that no link leads to, and fusing takes in one
block for each link.
-/

namespace Bytecode.Merge

open Func Transform

variable {f g : Func} {K K' : Chain} {a b x y : BlockId}

/-! ### No circles -/

/-- Back from a live block, links lead only where control comes from, and never around. -/
theorem not_transGen_couples : ¬Relation.TransGen (Couples f) a a := by
  intro h
  obtain ⟨_, ⟨hlive, -, -, -⟩, -⟩ := Relation.TransGen.head'_iff.mp h
  induction hlive with
  | entry he =>
    obtain ⟨_, _, hlast⟩ := Relation.TransGen.tail'_iff.mp h
    exact hlast.link.not_entry he
  | exported hexp =>
    obtain ⟨_, _, hlast⟩ := Relation.TransGen.tail'_iff.mp h
    exact hlast.link.unexported hexp
  | @leads p a hp hpa ih =>
    -- The last link of the circle comes from the block that leads here, so the circle goes round
    -- there.
    obtain ⟨q, haq, hlast⟩ := Relation.TransGen.tail'_iff.mp h
    obtain rfl := hlast.link.only p hp hpa
    exact ih (.head' hlast haq)

/-! ### Chains and links -/

section

variable {c : FlowGraph} (hi : f.Intact) (hc : c.Depicts f)

include hi hc

private theorem exists_chain_head_iff :
    (∃ K ∈ chains f (links f c), K.head = a) ↔
      (∃ b, (links f c).next? a = some b) ∧ ∀ p, (links f c).next? p ≠ some a := by
  constructor
  · rintro ⟨K, hK, rfl⟩
    obtain ⟨b, hb, rfl⟩ := List.mem_map.mp hK
    exact ⟨next?_of_mem_heads hb, no_link_to_head hb⟩
  · rintro ⟨⟨b, hb⟩, hnone⟩
    have hhead := mem_heads hi hc ((next?_links_iff hi hc).mp hb) fun p hp ↦
      hnone p ((next?_links_iff hi hc).mpr hp)
    exact ⟨_, List.mem_map.mpr ⟨a, hhead, rfl⟩, rfl⟩

/-- The blocks that chains take in are those that a link leads to. -/
theorem mem_rest_iff : b ∈ (chains f (links f c)).flatMap Chain.rest ↔ ∃ a, Couples f a b := by
  rw [List.mem_flatMap]
  constructor
  · rintro ⟨K, hK, hb⟩
    obtain ⟨a, _, hab⟩ := exists_pred (isChain_couples hi hc hK) hb
    exact ⟨a, hab⟩
  · rintro ⟨a, hab⟩
    obtain ⟨K, hK, ha⟩ := exists_chain hi hc hab
    exact ⟨K, hK, mem_rest_of_couples hi hc hK ha hab⟩

private theorem nodup_rest : ((chains f (links f c)).flatMap Chain.rest).Nodup := by
  rw [List.nodup_flatMap]
  constructor
  · intro K hK
    exact (List.nodup_cons.mp (fusible_chains hi hc hK).nodup).2
  · refine (disjoint_chains hi hc).imp fun {K K'} hdisj x hx hx' ↦ ?_
    exact hdisj (List.mem_cons_of_mem _ hx) (List.mem_cons_of_mem _ hx')

private theorem nodup_targets : ((links f c).entries.map Prod.snd).Nodup := by
  have hkeys := nodup_links (c := c) hi.wf
  refine List.Nodup.map_on (fun p hp q hq hpq ↦ ?_) (List.Nodup.of_map _ hkeys)
  have hp' := (Forwarding.next?_eq_some_iff hkeys).mpr hp
  have hq' := (Forwarding.next?_eq_some_iff hkeys).mpr hq
  exact Prod.ext (next?_links_inj hi hc _ _ _ hp' (hpq ▸ hq')) hpq

/-- There is one link for each block that is taken in. -/
theorem length_rest : ((chains f (links f c)).flatMap Chain.rest).length =
    (links f c).entries.length := by
  have hperm : ((chains f (links f c)).flatMap Chain.rest).Perm
      ((links f c).entries.map Prod.snd) := by
    rw [List.perm_ext_iff_of_nodup (nodup_rest hi hc) (nodup_targets hi hc)]
    intro b
    simp only [mem_rest_iff hi hc, ← next?_links_iff hi hc,
      Forwarding.next?_eq_some_iff (nodup_links (c := c) hi.wf), List.mem_map, Prod.exists,
      exists_eq_right]
  rw [hperm.length_eq, List.length_map]

/-- A block with a link from it or to it is in one chain. -/
theorem existsUnique_chain
    (h : (∃ y, (links f c).next? x = some y) ∨ ∃ p, (links f c).next? p = some x) :
    ∃! K, K ∈ chains f (links f c) ∧ x ∈ K.blocks := by
  have hexists : ∃ K ∈ chains f (links f c), x ∈ K.blocks := by
    rcases h with ⟨y, hy⟩ | ⟨p, hp⟩
    · exact exists_chain hi hc ((next?_links_iff hi hc).mp hy)
    · have hcouples := (next?_links_iff hi hc).mp hp
      obtain ⟨K, hK, hpK⟩ := exists_chain hi hc hcouples
      exact ⟨K, hK, List.mem_cons_of_mem _ (mem_rest_of_couples hi hc hK hpK hcouples)⟩
  obtain ⟨K, hK, hx⟩ := hexists
  exact ⟨K, ⟨hK, hx⟩, fun K' hK' ↦ eq_of_mem_chains hi hc hK'.1 hK hK'.2 hx⟩

end

/-! ### Fusing one chain after the other -/

/-- Where another block is dropped, all handlers of the chain are redirected alike. -/
theorem Chain.Stands.dropLink (h : K.Stands f) (hb : b ∉ K.blocks) :
    K.Stands (Merge.dropLink a f b) := by
  obtain ⟨handler, hblocks⟩ := h
  refine ⟨handler.map (retarget b a), fun x hx ↦ ?_⟩
  obtain ⟨B, hB, rfl⟩ := hblocks x hx
  have hne : x ≠ b := fun he ↦ hb (he ▸ hx)
  exact ⟨B.redirect b a, by rw [block?_dropLink, if_neg hne, hB, Option.map_some], by simp⟩

private theorem Chain.Stands.setCode {code : List Instr} (h : K.Stands f) :
    K.Stands (f.setCode a code) := by
  obtain ⟨handler, hblocks⟩ := h
  refine ⟨handler, fun x hx ↦ ?_⟩
  obtain ⟨B, hB, rfl⟩ := hblocks x hx
  exact ⟨_, block?_setCode_eq_some_iff.mpr ⟨B, hB, rfl⟩, rfl⟩

private theorem Chain.Stands.foldl {l : List BlockId} (h : K.Stands f) (hl : l.Disjoint K.blocks) :
    K.Stands (l.foldl (Merge.dropLink a) f) := by
  induction l generalizing f with
  | nil => exact h
  | cons b l ih =>
    obtain ⟨hb, hl'⟩ := List.disjoint_cons_left.mp hl
    exact ih (h.dropLink hb) hl'

/-- A chain stands while chains without a common block are fused. -/
theorem Chain.Stands.collapse {code : List Instr} (h : K.Stands f)
    (hdisj : K'.blocks.Disjoint K.blocks) : K.Stands (K'.collapse code f) :=
  h.setCode.foldl (List.disjoint_cons_left.mp hdisj).2

private theorem contains_foldl_dropLink {l : List BlockId} :
    (l.foldl (dropLink a) f).contains x = true ↔ f.contains x = true ∧ x ∉ l := by
  induction l generalizing f with
  | nil => simp
  | cons b l ih =>
    have hdrop : (dropLink a f b).contains x = true ↔ x ≠ b ∧ f.contains x = true := by
      rw [contains, block?_dropLink]
      by_cases hx : x = b <;> simp [hx, contains]
    rw [List.foldl_cons, ih, hdrop, List.mem_cons]
    tauto

private theorem contains_collapse {code : List Instr} :
    (K.collapse code f).contains x = true ↔ f.contains x = true ∧ x ∉ K.rest := by
  rw [Chain.collapse, contains_foldl_dropLink, contains_modifyBlock]

/-- What holds while, of the chains `all` of `f`, those in `l` are still to be fused, and `n`
blocks were taken in. -/
structure Absorbing (f : Func) (all l : List Chain) (n : Nat) (g : Func) : Prop where
  stands : ∀ K ∈ l, K.Stands g
  disjoint : l.Pairwise fun K K' ↦ K.blocks.Disjoint K'.blocks
  count : n + (l.flatMap Chain.rest).length = (all.flatMap Chain.rest).length
  left : ∀ x, g.contains x = true ∧ x ∉ l.flatMap Chain.rest ↔
    f.contains x = true ∧ x ∉ all.flatMap Chain.rest

private theorem Absorbing.step {all l : List Chain} {n : Nat} {E : Fault → Prop}
    (h : Absorbing f all (K :: l) n g) :
    (fuse K).Yields g (fun m k _ ↦ Absorbing f all l (n + m) k) E := by
  obtain ⟨code, hcode⟩ := (h.stands K List.mem_cons_self).exists_code
  obtain ⟨hdisj, hpair⟩ := List.pairwise_cons.mp h.disjoint
  rw [fuse, yields_bind, yields_current, yields_bind, yields_ofExcept_of_ok hcode]
  simp only [yields_bind, yields_update, yields_record, yields_pure]
  refine ⟨fun K' hK' ↦ ?_, hpair, ?_, fun x ↦ ?_⟩
  · exact (h.stands K' (List.mem_cons_of_mem K hK')).collapse (hdisj K' hK')
  · have hcount := h.count
    rw [List.flatMap_cons, List.length_append] at hcount
    omega
  · rw [contains_collapse, ← h.left, List.flatMap_cons, List.mem_append, not_or, and_assoc]

/-- Fusing takes in one block for each link and leaves all others in place. -/
theorem yields_absorbed {c : FlowGraph} {E : Fault → Prop} (hi : f.Intact)
    (hc : FlowGraph.ofFunc f = .ok c) :
    fuseChains.Yields f (fun n g _ ↦ n = (links f c).entries.length ∧
      ∀ x, g.contains x = true ↔
        f.contains x = true ∧ ∀ p, (links f c).next? p ≠ some x) E := by
  have hdepicts := FlowGraph.depicts_of_ofFunc hi.wf hc
  have hstart : Absorbing f (chains f (links f c)) (chains f (links f c)) 0 f := by
    refine ⟨fun K hK ↦ ?_, disjoint_chains hi hdepicts, Nat.zero_add _, fun x ↦ Iff.rfl⟩
    have hhead := (fusible_chains hi hdepicts hK).head
    exact stands_of_isChain hi (isChain_couples hi hdepicts hK) (hhead.contains hi)
  rw [fuseChains, yields_bind, yields_current, yields_bind, yields_ofExcept_of_ok hc]
  apply (yields_sumOver (fun l n g _ ↦ Absorbing f (chains f (links f c)) l n g) hstart
    fun K l n g es h ↦ h.step).imp
  intro n g es hdone
  constructor
  · rw [← length_rest hi hdepicts]
    simpa using hdone.count
  · intro x
    have hleft := hdone.left x
    rw [mem_rest_iff hi hdepicts, not_exists] at hleft
    simpa [next?_links_iff hi hdepicts] using hleft

/-- The links of a valid function are a one-to-one map without circles. Following them from the
blocks that have one and that none leads to gives finite chains without repetition, each block with
a link from it or to it is in one of these, and fusing takes in as many blocks as there are links,
namely those that a link leads to. That handlers are exported is not needed for any of this. -/
theorem links_decompose (hw : f.WF) (hf : f.fault? = none) :
    ∃ c, FlowGraph.ofFunc f = .ok c ∧
      ((links f c).entries.map Prod.fst).Nodup ∧
      (∀ x y z, (links f c).next? x = some z → (links f c).next? y = some z → x = y) ∧
      (∀ a, ¬Relation.TransGen (fun x y ↦ (links f c).next? x = some y) a a) ∧
      (∀ a, (∃ K ∈ chains f (links f c), K.head = a) ↔
        (∃ b, (links f c).next? a = some b) ∧ ∀ p, (links f c).next? p ≠ some a) ∧
      (∀ K ∈ chains f (links f c), K.blocks.IsChain (fun x y ↦ (links f c).next? x = some y) ∧
        K.blocks.Nodup ∧ (links f c).next? K.last = none) ∧
      (∀ x, ((∃ y, (links f c).next? x = some y) ∨ ∃ p, (links f c).next? p = some x) →
        ∃! K, K ∈ chains f (links f c) ∧ x ∈ K.blocks) ∧
      (fuseChains f).result = .ok (links f c).entries.length ∧
      ∀ x, (fuseChains f).func.contains x = true ↔
        f.contains x = true ∧ ∀ p, (links f c).next? p ≠ some x := by
  have hi := (hw.fault?_eq_none_iff.mp hf).intact
  obtain ⟨c, hofFunc⟩ := FlowGraph.exists_ofFunc hi
  have hc := FlowGraph.depicts_of_ofFunc hw hofFunc
  have hyields : fuseChains.Yields f _ fun _ ↦ False := yields_absorbed hi hofFunc
  refine ⟨c, hofFunc, nodup_links hw, next?_links_inj hi hc, fun a h ↦ ?_,
    fun a ↦ exists_chain_head_iff hi hc, fun K hK ↦ ?_, fun x ↦ existsUnique_chain hi hc, ?_⟩
  · exact not_transGen_couples
      (Relation.TransGen.mono (fun _ _ ↦ (next?_links_iff hi hc).mp) _ _ h)
  · refine ⟨?_, (fusible_chains hi hc hK).nodup, next?_last hi hc hK⟩
    exact (isChain_couples hi hc hK).imp fun x y ↦ (next?_links_iff hi hc).mpr
  · cases hresult : (fuseChains f).result with
    | error fault => exact (hyields.of_error hresult).elim
    | ok n =>
      obtain ⟨rfl, hcontains⟩ := hyields.of_ok hresult
      exact ⟨rfl, hcontains⟩

/-- The branch leads to two chains, of which the longer one ends in a jump back to its head. Two
blocks that nothing reaches jump to each other, and one of them into the other chain. -/
def strands : Func :=
  ((Draft.start "strands" 0 0).declareAll
    [.block { id := 0, code := [.push .null, .branch 1 4] },
      .block { id := 1, code := [.jump 2] },
      .block { id := 2, code := [.push .null, .pop, .jump 3] },
      .block { id := 3, code := [.jump 1] },
      .block { id := 4, code := [.jump 5], handler := some 8 },
      .block { id := 5, code := [.push .null, .ret], handler := some 8 },
      .block { id := 6, code := [.jump 7] },
      .block { id := 7, code := [.push .null, .branch 6 5] },
      .block { id := 8, code := [.caught, .ret] }]).build

/-- The three links of `strands` take three blocks out of its layout, and a block that is taken in
belongs to one chain. -/
theorem strands_decompose :
    strands.WF ∧ strands.fault? = none ∧ ∃ c, FlowGraph.ofFunc strands = .ok c ∧
      (links strands c).entries.length = 3 ∧
      (fuseChains strands).func.layout = [0, 1, 4, 6, 7, 8] ∧
      (links strands c).next? 2 = some 3 ∧
      ∃! K, K ∈ chains strands (links strands c) ∧ 3 ∈ K.blocks := by
  have hw : strands.WF := Drafted.wf ⟨_, _, _, _, rfl⟩
  have hv : strands.fault? = none := by decide +kernel
  obtain ⟨c, hc, _, _, _, _, _, hunique, hresult, _⟩ := links_decompose hw hv
  have hcount : (fuseChains strands).result = .ok 3 := by decide +kernel
  have hlink : ((FlowGraph.ofFunc strands).toOption.bind fun c ↦ (links strands c).next? 2) =
      some 3 := by decide +kernel
  simp only [hc, Except.toOption, Option.bind_some] at hlink
  exact ⟨hw, hv, c, hc, Except.ok.inj (hresult.symm.trans hcount), by decide +kernel, hlink,
    hunique 3 (.inr ⟨2, hlink⟩)⟩

end Bytecode.Merge
