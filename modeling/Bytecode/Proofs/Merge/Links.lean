import Bytecode.Proofs.Optimize.Records

/-!
# Links and chains

A link joins two blocks that can be fused. The links that are found are all there are, each block
has at most one link to it and one from it, and following them from a block that none leads to
gives a chain that ends where no link goes on. Every link lies in such a chain.
-/

namespace Bytecode

namespace Merge

variable {f : Func} {c : FlowGraph} {K : Chain} {a b x y : BlockId}

/-! ### All links are found -/

/-- The first block can take in the second. -/
structure Couples (f : Func) (a b : BlockId) : Prop where
  live : f.Live a
  ne : b ≠ a
  link : Link f f.Live a b
  handler_eq : ∀ A B, f.block? a = some A → f.block? b = some B → B.handler = A.handler

/-- A block that can be taken in is live. -/
theorem Couples.liveTarget (h : Couples f a b) : f.Live b := .leads h.live h.link.leads

-- A list without repetitions that holds one element only.
private theorem eq_singleton_of_nodup {l : List BlockId} (hl : l.Nodup) (ha : a ∈ l)
    (hx : ∀ x ∈ l, x = a) : l = [a] := by
  cases l with
  | nil => contradiction
  | cons y l =>
    obtain rfl := hx y List.mem_cons_self
    cases l with
    | nil => rfl
    | cons z l =>
      obtain rfl := hx z (List.mem_cons_of_mem y List.mem_cons_self)
      simp at hl

/-- No block has two links. -/
theorem nodup_links (hw : f.WF) : ((links f c).entries.map Prod.fst).Nodup := by
  refine (hw.map_fst_filterMap_sublist fun b p hp ↦ ?_).nodup hw.nodup
  obtain ⟨_, _, rfl⟩ := Option.map_eq_some_iff.mp hp
  rfl

section

variable (hi : f.Intact) (hc : c.Depicts f)

include hi hc

private theorem filter_predecessorBlocks (h : Couples f a b) :
    (c.predecessorBlocks b).filter c.isLive = [a] := by
  have hlive := hi.leads a b h.link.leads
  apply eq_singleton_of_nodup ((hc.nodup_predecessorBlocks b).filter _)
  · rw [List.mem_filter, hc.mem_predecessorBlocks hlive, hc.isLive_iff hi]
    exact ⟨h.link.leads, h.live⟩
  · intro x hx
    rw [List.mem_filter, hc.mem_predecessorBlocks hlive, hc.isLive_iff hi] at hx
    exact h.link.only x hx.2 hx.1

private theorem link?_of_couples (h : Couples f a b) {A : Block} (hA : f.block? a = some A) :
    link? f c c.isLive a A = some b := by
  obtain ⟨A', hA', hterm⟩ := h.link.jumps
  rw [hA, Option.some.injEq] at hA'
  subst hA'
  obtain ⟨B, hB⟩ := Func.contains_iff.mp (hi.leads a b h.link.leads)
  obtain ⟨e, he⟩ := hi.exists_entry
  have hentry : b ≠ c.entryBlock := by
    rw [hc.entryBlock_eq he]
    rintro rfl
    exact h.link.not_entry he
  have hexp : B.exported = false := by
    cases hexp : B.exported with
    | false => rfl
    | true => exact absurd ⟨B, hB, hexp⟩ h.link.unexported
  have hlive := (hc.isLive_iff hi).mpr h.live
  simp only [link?, hterm, hB, hlive, hexp, h.handler_eq A B hA hB,
    filter_predecessorBlocks hi hc h]
  simp [h.ne, hentry]

/-- The links that are found are all there are. -/
theorem next?_links_iff : (links f c).next? a = some b ↔ Couples f a b := by
  rw [Forwarding.next?_eq_some_iff (nodup_links hi.wf)]
  constructor
  · intro hmem
    have hnext := (Forwarding.next?_eq_some_iff (nodup_links hi.wf)).mpr hmem
    obtain ⟨hlive, hlink⟩ := link_of_next? hi hc hnext
    obtain ⟨⟨x, A⟩, hA, hx⟩ := List.mem_filterMap.mp hmem
    obtain ⟨y, hy, hpair⟩ := Option.map_eq_some_iff.mp hx
    rw [Prod.mk.injEq] at hpair
    obtain ⟨rfl, rfl⟩ := hpair
    rw [hi.wf.mem_blocks] at hA
    rw [link?] at hy
    split at hy
    · split at hy
      · next B hB =>
        split at hy
        · next hcond =>
          rw [Option.some.injEq] at hy
          subst hy
          simp only [Bool.and_eq_true, decide_eq_true_eq] at hcond
          refine ⟨hlive, hcond.1.1.1.1.2, hlink, fun A' B' hA' hB' ↦ ?_⟩
          rw [hA, Option.some.injEq] at hA'
          rw [hB, Option.some.injEq] at hB'
          rw [← hA', ← hB']
          exact hcond.1.2
        · contradiction
      · contradiction
    · contradiction
  · intro h
    obtain ⟨A, hA, _⟩ := h.link.jumps
    apply List.mem_filterMap.mpr
    refine ⟨(a, A), hi.wf.mem_blocks.mpr hA, ?_⟩
    show (link? f c c.isLive a A).map (a, ·) = some (a, b)
    rw [link?_of_couples hi hc h hA, Option.map_some]

end

/-! ### Chains are maximal -/

-- A chain goes on until no link does, or to the limit.
private theorem last_linked (m : Forwarding) (n : Nat) (b : BlockId) :
    m.next? ((b :: linked m n b).getLast (List.cons_ne_nil _ _)) = none ∨
      (linked m n b).length = n := by
  induction n generalizing b with
  | zero => exact .inr rfl
  | succ n ih =>
    cases hb : m.next? b with
    | none => simp [linked, hb]
    | some d =>
      simp only [linked, hb, List.length_cons, Nat.add_right_cancel_iff]
      rw [List.getLast_cons (List.cons_ne_nil _ _)]
      exact ih d

/-- In a chain of related blocks, every block but the last has a successor. -/
theorem exists_succ {R : BlockId → BlockId → Prop} {l : List BlockId} (hl : l.IsChain R)
    (hne : l ≠ []) (hx : x ∈ l) : x = l.getLast hne ∨ ∃ y ∈ l.tail, R x y := by
  induction l with
  | nil => contradiction
  | cons z l ih =>
    cases l with
    | nil => exact .inl (List.mem_singleton.mp hx)
    | cons w l =>
      obtain ⟨hzw, hl'⟩ := List.isChain_cons_cons.mp hl
      rw [List.getLast_cons (List.cons_ne_nil w l)]
      rcases List.mem_cons.mp hx with rfl | hx
      · exact .inr ⟨w, List.mem_cons_self, hzw⟩
      · apply (ih hl' (List.cons_ne_nil w l) hx).imp_right
        rintro ⟨y, hy, hxy⟩
        exact ⟨y, List.mem_cons_of_mem w hy, hxy⟩

-- All blocks of a list that is chained by a map, if the last one is sent on too, are sent on.
private theorem subset_keys {m : Forwarding} {l : List BlockId} (hne : l ≠ [])
    (hl : l.IsChain fun x y ↦ m.next? x = some y) (hlast : m.next? (l.getLast hne) = some y) :
    l ⊆ m.entries.map Prod.fst := by
  intro x hx
  rw [Forwarding.mem_map_fst_entries]
  rcases exists_succ hl hne hx with rfl | ⟨z, _, hz⟩
  · exact ⟨y, hlast⟩
  · exact ⟨z, hz⟩

section

variable (hi : f.Intact) (hc : c.Depicts f)

include hi hc

/-- No link goes on from the last block of a chain. -/
theorem next?_last (hK : K ∈ chains f (links f c)) : (links f c).next? K.last = none := by
  have hnodup := (fusible_chains hi hc hK).nodup
  obtain ⟨b, _, rfl⟩ := List.mem_map.mp hK
  have hlinked := isChain_linked (links f c) (links f c).entries.length b
  rcases last_linked (links f c) (links f c).entries.length b with hnone | hlength
  · exact hnone
  · rw [Option.eq_none_iff_forall_ne_some]
    intro y hy
    -- All blocks of the chain would be sent on, and they are more than there are links.
    have hsub := hnodup.subperm (subset_keys (List.cons_ne_nil _ _) hlinked hy)
    have hle := hsub.length_le
    simp only [Chain.blocks, List.length_cons, hlength, List.length_map] at hle
    omega

/-- In a chain every block can take in the next one. -/
theorem isChain_couples (hK : K ∈ chains f (links f c)) : K.blocks.IsChain (Couples f) := by
  obtain ⟨b, _, rfl⟩ := List.mem_map.mp hK
  exact (isChain_linked (links f c) _ b).imp fun _ _ ↦ (next?_links_iff hi hc).mp

/-- Where a link starts in a chain, it goes on in the chain. -/
theorem mem_rest_of_couples (hK : K ∈ chains f (links f c)) (ha : a ∈ K.blocks)
    (h : Couples f a b) : b ∈ K.rest := by
  have hnext := (next?_links_iff hi hc).mpr h
  rcases exists_succ (isChain_couples hi hc hK) (List.cons_ne_nil _ _) ha with rfl | ⟨y, hy, hay⟩
  · exact nomatch hnext.symm.trans (next?_last hi hc hK)
  · have hsame := ((next?_links_iff hi hc).mpr hay).symm.trans hnext
    rw [Option.some.injEq] at hsame
    exact hsame ▸ hy

/-- A block that can take in another and that no block can take in is a head. -/
theorem mem_heads (h : Couples f a b) (hnone : ∀ p, ¬Couples f p a) :
    a ∈ heads f (links f c) := by
  have hnext := (next?_links_iff hi hc).mpr h
  rw [heads, List.mem_filter, Bool.and_eq_true, Bool.not_eq_true', List.contains_eq_mem,
    decide_eq_false_iff_not]
  refine ⟨(hi.wf.mem_layout a).mpr (h.live.contains hi), by rw [hnext, Option.isSome_some], ?_⟩
  intro hmem
  obtain ⟨⟨p, a'⟩, hp, rfl⟩ := List.mem_map.mp hmem
  have hnext := (Forwarding.next?_eq_some_iff (nodup_links hi.wf)).mpr hp
  exact hnone p ((next?_links_iff hi hc).mp hnext)

/-- Every block that can take in another is in a chain: back along the links there is a head. -/
theorem exists_chain (h : Couples f a b) : ∃ K ∈ chains f (links f c), a ∈ K.blocks := by
  have hhead (a b : BlockId) (h : Couples f a b) (hnone : ∀ p, ¬Couples f p a) :
      ∃ K ∈ chains f (links f c), a ∈ K.blocks :=
    ⟨_, List.mem_map.mpr ⟨a, mem_heads hi hc h hnone, rfl⟩, List.mem_cons_self⟩
  have hlive := h.live
  induction hlive generalizing b with
  | entry he => exact hhead _ b h fun p hp ↦ hp.link.not_entry he
  | exported hexp => exact hhead _ b h fun p hp ↦ hp.link.unexported hexp
  | @leads p a hp hpa ih =>
    by_cases hlink : ∃ q, Couples f q a
    · obtain ⟨q, hq⟩ := hlink
      obtain rfl := hq.link.only p hp hpa
      obtain ⟨K, hK, hpK⟩ := ih hq
      exact ⟨K, hK, List.mem_cons_of_mem _ (mem_rest_of_couples hi hc hK hpK hq)⟩
    · exact hhead a b h fun q hq ↦ hlink ⟨q, hq⟩

end

/-! ### What merging aims at -/

/-- No block can take in another. -/
def Unlinked (f : Func) : Prop := ∀ a b, ¬Couples f a b

/-- Blocks that do nothing but jump elsewhere lead only to others of their kind. -/
def Circling (f : Func) : Prop :=
  ∀ x y, f.Forwards x y → y ≠ x → ∃ z, f.Forwards y z ∧ z ≠ y

/-- No block can take in another, and live blocks that do nothing but jump lead to blocks that do
nothing but jump, be it in place. -/
structure Settling (f : Func) : Prop where
  unlinked : Unlinked f
  forwards : ∀ x y, f.Live x → f.Forwards x y → y ≠ x → ∃ z, f.Forwards y z

end Merge

end Bytecode
