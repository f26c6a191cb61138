import Bytecode.Proofs.Behaviour.Inlining
import Bytecode.Proofs.Behaviour.Placement
import Bytecode.Proofs.Behaviour.Trampolines

/-!
# Fusing chains keeps the behaviour

A chain is fused in two steps. First its head takes the code of the whole chain, which is inlining.
After that the other blocks are out of reach, because the links of the chain were the only ways to
them, and they can be taken out with whatever refers to them. Chains are disjoint, so fusing one
leaves the links of the others intact.
-/

namespace Bytecode

namespace Func

variable {f g : Func} {P : BlockId → Prop} {a b last x y : BlockId} {B : Block}
  {h : Option BlockId} {code : List Instr}

/-! ### Taking over code -/

/-- A block that jumps to another leads there. -/
theorem Jumps.leads (h : f.Jumps a b) : f.Leads a b := by
  obtain ⟨A, hA, hterm⟩ := h
  exact (leads_jump_iff hA hterm).mpr rfl

/-- Replace the instructions of a block. -/
def setCode (f : Func) (b : BlockId) (code : List Instr) : Func :=
  f.modifyBlock b fun B => { B with code := code }

/-- New code for one block changes nothing else about the blocks. -/
theorem block?_setCode_eq_some_iff :
    (f.setCode a code).block? x = some B ↔
      ∃ B', f.block? x = some B' ∧ B = { B' with code := if x = a then code else B'.code } := by
  rw [setCode, block?_modifyBlock]
  cases f.block? x with
  | none => simp
  | some B' => by_cases hx : x = a <;> simp [hx, eq_comm]

/-- The block has its new code. -/
theorem block?_setCode_self {A : Block} (hA : f.block? a = some A) :
    (f.setCode a code).block? a = some { A with code := code } :=
  block?_setCode_eq_some_iff.mpr ⟨A, hA, by simp⟩

/-- The other blocks keep their code. -/
theorem block?_setCode_of_ne (hx : x ≠ a) : (f.setCode a code).block? x = f.block? x := by
  rw [setCode, block?_modifyBlock, if_neg hx]

/-- New code keeps which blocks are exported. -/
theorem isExported_setCode : (f.setCode a code).IsExported x ↔ f.IsExported x := by
  simp only [IsExported, block?_setCode_eq_some_iff]
  constructor
  · rintro ⟨_, ⟨B', hB', rfl⟩, hexp⟩
    exact ⟨B', hB', hexp⟩
  · rintro ⟨B', hB', hexp⟩
    exact ⟨_, ⟨B', hB', rfl⟩, hexp⟩

/-- The other blocks keep their successors. -/
theorem successors_setCode_of_ne (hx : x ≠ a) :
    (f.setCode a code).successors x = f.successors x := by
  have hterm (l : Nat) (t : Instr) :
      (f.setCode a code).terminatorTargets x l t = f.terminatorTargets x l t := rfl
  have hname : (f.setCode a code).name = f.name := rfl
  rw [Func.successors, Func.successors, block?_setCode_of_ne hx, hname]
  simp only [hterm]

-- Where a terminator leads does not depend on where it stands.
private theorem terminatorTargets_congr {m n : Nat} {t : Instr} {ts : List BlockId}
    (h : f.terminatorTargets a m t = .ok ts) : f.terminatorTargets b n t = .ok ts := by
  cases t with
  | jumpTable k d =>
    simp only [terminatorTargets] at h ⊢
    cases hT : f.table? k with
    | none => simp [hT] at h
    | some T => simpa [hT] using h
  | _ => exact h

namespace Fuses

variable (hcode : f.Fuses h a last code)

include hcode

/-- The head of the chain has a block that ends as the last one does. -/
theorem exists_block : ∃ A front t L body, (f.setCode a code).block? a = some A ∧
    A.Shape front t ∧ f.block? last = some L ∧ L.Shape body t := by
  obtain ⟨A, hA, _⟩ := hcode.expands
  obtain ⟨L, body, t, front, hL, hshape, hc, hfront⟩ := hcode.ends
  refine ⟨_, front, t, L, body, block?_setCode_eq_some_iff.mpr ⟨A, hA, rfl⟩, ?_, hL, hshape⟩
  exact ⟨by simpa using hc, hshape.terminates, hfront⟩

private theorem inlines : Inlines f (f.setCode a code) where
  block? x := by
    obtain ⟨A, hA, rfl, hexp⟩ := hcode.expands
    by_cases hx : x = a
    · subst hx
      exact .inr ⟨A, code, hA, block?_setCode_self hA, hexp⟩
    · rw [block?_setCode_of_ne hx]
      cases hB : f.block? x with
      | none => exact .inl ⟨rfl, rfl⟩
      | some B => exact .inr ⟨B, B.code, rfl, rfl, .refl⟩
  table? k := rfl

private theorem successors_setCode {ts : List BlockId} (hts : f.successors last = .ok ts) :
    (f.setCode a code).successors a = .ok ts := by
  obtain ⟨A, front, t, L, body, hA, hAs, hL, hLs⟩ := hcode.exists_block
  rw [successors_of_shape hA hAs]
  rw [successors_of_shape hL hLs] at hts
  exact terminatorTargets_congr hts

variable (hf : f.Sound)

include hf

/-- The head of the chain now leads where the last block leads. -/
theorem leads_setCode : (f.setCode a code).Leads a y ↔ f.Leads last y := by
  obtain ⟨_, _, _, L, _, _, _, hL, _⟩ := hcode.exists_block
  obtain ⟨ts, hts⟩ := hf.successors last (contains_of_block? hL)
  rw [Leads, Leads, hcode.successors_setCode hts, hts]

/-- A block with fused code leaves a sound function sound. -/
theorem sound_setCode : (f.setCode a code).Sound where
  wf := hf.wf.modifyBlock a _
  nonempty := hf.nonempty
  shape x B hB := by
    by_cases hx : x = a
    · subst hx
      obtain ⟨A, front, t, _, _, hA, hshape, _⟩ := hcode.exists_block
      obtain rfl := Option.some.inj (hA.symm.trans hB)
      exact ⟨front, t, hshape⟩
    · rw [block?_setCode_of_ne hx] at hB
      exact hf.shape x B hB
  successors x hx := by
    rw [setCode, contains_modifyBlock] at hx
    by_cases hxa : x = a
    · subst hxa
      obtain ⟨_, _, _, L, _, _, _, hL, _⟩ := hcode.exists_block
      obtain ⟨ts, hts⟩ := hf.successors last (contains_of_block? hL)
      exact ⟨ts, hcode.successors_setCode hts⟩
    · obtain ⟨ts, hts⟩ := hf.successors x hx
      exact ⟨ts, (successors_setCode_of_ne hxa).trans hts⟩
  leads x y hxy := by
    rw [setCode, contains_modifyBlock]
    by_cases hx : x = a
    · subst hx
      exact hf.leads last y ((hcode.leads_setCode hf).mp hxy)
    · exact hf.leads x y ((leads_congr (successors_setCode_of_ne hx)).mp hxy)
  handler_exported x B k hB hk := by
    obtain ⟨B', hB', rfl⟩ := block?_setCode_eq_some_iff.mp hB
    exact isExported_setCode.mpr (hf.handler_exported x B' k hB' hk)
  table_exported k T x hT hx hlive := by
    rw [setCode, contains_modifyBlock] at hlive
    exact isExported_setCode.mpr (hf.table_exported k T x hT hx hlive)

omit hf in
private theorem preserves_setCode : Preserves f (f.setCode a code) :=
  ⟨fun e he ↦ ⟨e, he, hcode.inlines.sameBehaviour e⟩,
    fun b hb ↦ ⟨isExported_setCode.mpr hb, hcode.inlines.sameBehaviour b⟩⟩

end Fuses

/-! ### Taking out what is out of reach -/

private theorem redirect_of_not_entry (hb : f.entry? ≠ some b) :
    f.redirect b a = f.redirectUses b a := by
  rw [Func.redirect, if_neg (by simp [movesEntry, hb])]

private theorem entry?_removeBlock_ne (hb : f.entry? ≠ some b) :
    Func.entry? (f.removeBlock b) ≠ some b := by
  rw [removeBlock]
  split
  · intro h
    have hmem := List.mem_of_head? h
    simp at hmem
  · exact hb

private theorem redirectUses_removeBlock :
    (f.removeBlock b).redirectUses b a = (f.redirectUses b a).removeBlock b := by
  have hcontains : (f.redirectUses b a).contains b = f.contains b := by simp [contains]
  by_cases hb : f.contains b = true
  · rw [removeBlock, removeBlock, hcontains, if_pos hb, if_pos hb]
    simp [redirectUses, Array.map_setIfInBounds]
  · rw [removeBlock, removeBlock, hcontains, if_neg hb, if_neg hb]

/-- A block that is not the entry may be removed before or after the redirection. -/
theorem dropLink_eq_bypass (a : BlockId) (hb : f.entry? ≠ some b) :
    Merge.dropLink a f b = f.bypass b a := by
  rw [Merge.dropLink, bypass, redirect_of_not_entry hb,
    redirect_of_not_entry (entry?_removeBlock_ne hb), redirectUses_removeBlock]

section

variable (hf : f.Sound) (hP : f.Closed P) (hb : ¬P b)

include hf hP hb

-- Blocks of a closed set do not refer to a block out of it.
private theorem block?_bypass_of_closed (hx : P x) : (f.bypass b a).block? x = f.block? x := by
  have hne : x ≠ b := fun h ↦ hb (h ▸ hx)
  rw [block?_bypass, if_neg hne]
  cases hX : f.block? x with
  | none => rfl
  | some X =>
    obtain ⟨body, t, hshape⟩ := hf.shape x X hX
    have ht : b ∉ t.targets := by
      intro hmem
      have hs := hf.successors x (contains_of_block? hX)
      exact hb (hP.leads x b hx (leads_of_mem_targets hX hshape hs hmem))
    have hh : X.handler ≠ some b := fun h ↦ hb (hP.exported b (hf.handler_exported x X b hX h))
    rw [Option.map_some, hshape.redirect_eq_self ht hh]

private theorem table?_bypass_of_closed (hlive : f.contains b = true) (k : ConstIndex) :
    (f.bypass b a).table? k = f.table? k := by
  rw [table?_bypass]
  cases hT : f.table? k with
  | none => rfl
  | some T =>
    have hmem : b ∉ T.targets := fun h ↦ hb (hP.exported b (hf.table_exported k T b hT h hlive))
    rw [Option.map_some, JumpTable.redirect_of_not_mem hmem]

/-- Bypassing a block out of a closed set changes nothing in the set. -/
theorem agrees_bypass (hlive : f.contains b = true) (ha : f.contains a = true) :
    Agrees P f (f.bypass b a) where
  block? x hx := block?_bypass_of_closed hf hP hb hx
  table? := table?_bypass_of_closed hf hP hb hlive
  entry_eq := by
    obtain ⟨e, he⟩ := hf.exists_entry
    have hne : e ≠ b := fun h ↦ hb (h ▸ hP.entry e he)
    rw [bypass, (hf.wf.redirect b a).entry?_removeBlock (e := e) ?_ hne, he]
    rw [hf.wf.entry?_redirect he ha, retarget, if_neg hne]

private theorem Closed.bypass (hlive : f.contains b = true) (ha : f.contains a = true) :
    (f.bypass b a).Closed P := by
  have hagrees := agrees_bypass (a := a) hf hP hb hlive ha
  refine ⟨fun e he ↦ hP.entry e (hagrees.entry_eq ▸ he), ?_, fun x y hx hxy ↦ ?_⟩
  · rintro x ⟨X, hX, hexp⟩
    obtain ⟨_, X', hX', rfl⟩ := block?_bypass_eq_some_iff.mp hX
    exact hP.exported x ⟨X', hX', by simpa using hexp⟩
  · exact hP.leads x y hx ((hagrees.leads_iff hx).mp hxy)

end

/-- What holds of a function `g` while the blocks `l`, which are out of reach, are still to go and
`a` is to stand for them. -/
structure Pruning (f : Func) (P : BlockId → Prop) (a : BlockId) (l : List BlockId) (g : Func) :
    Prop where
  sound : g.Sound
  preserves : f.Preserves g
  closed : g.Closed P
  agrees : Agrees P f g
  head : P a
  head_live : g.contains a = true
  out : ∀ b ∈ l, ¬P b
  pending : ∀ b ∈ l, g.contains b = true
  nodup : l.Nodup

/-- One more of the blocks out of reach can go. -/
theorem Pruning.dropLink {l : List BlockId} (h : Pruning f P a (b :: l) g) :
    Pruning f P a l (Merge.dropLink a g b) := by
  have hb := h.out b List.mem_cons_self
  have hlive := h.pending b List.mem_cons_self
  have hentry : g.entry? ≠ some b := fun he ↦ hb (h.closed.entry b he)
  have hexp : ¬g.IsExported b := fun he ↦ hb (h.closed.exported b he)
  have hne : a ≠ b := fun he ↦ hb (he ▸ h.head)
  obtain ⟨hbl, hnodup⟩ := List.nodup_cons.mp h.nodup
  have hagrees := agrees_bypass (a := a) h.sound h.closed hb hlive h.head_live
  rw [dropLink_eq_bypass a hentry]
  refine ⟨h.sound.bypass h.head_live hne hexp hlive,
    h.preserves.trans (hagrees.preserves h.sound h.closed),
    h.closed.bypass h.sound hb hlive h.head_live, h.agrees.trans hagrees, h.head,
    contains_bypass.mpr ⟨hne, h.head_live⟩, fun x hx ↦ h.out x (List.mem_cons_of_mem b hx),
    fun x hx ↦ ?_, hnodup⟩
  have hxb : x ≠ b := by
    rintro rfl
    exact hbl hx
  exact contains_bypass.mpr ⟨hxb, h.pending x (List.mem_cons_of_mem b hx)⟩

private theorem Pruning.foldl {l : List BlockId} (h : Pruning f P a l g) :
    Pruning f P a [] (l.foldl (Merge.dropLink a) g) := by
  induction l generalizing g with
  | nil => exact h
  | cons b l ih => exact ih h.dropLink

end Func

/-! ### One chain -/

namespace Merge

variable {f g : Func} {P : BlockId → Prop} {K K' : Chain} {code : List Instr} {a b x y : BlockId}

/-- The first block ends in a jump to the second, and of the blocks in the set no other leads
there; nor is the second one entered from outside. -/
structure Link (f : Func) (P : BlockId → Prop) (a b : BlockId) : Prop where
  jumps : f.Jumps a b
  unexported : ¬f.IsExported b
  not_entry : f.entry? ≠ some b
  only : ∀ x, P x → f.Leads x b → x = a

/-- The blocks of a chain in order. -/
def Chain.blocks (K : Chain) : List BlockId := K.head :: K.rest

/-- The last block of a chain. -/
def Chain.last (K : Chain) : BlockId := K.blocks.getLast (List.cons_ne_nil _ _)

/-- The chain is linked and runs in the set. -/
structure Fusible (f : Func) (P : BlockId → Prop) (K : Chain) : Prop where
  linked : K.blocks.IsChain (Link f P)
  nodup : K.blocks.Nodup
  head : P K.head

/-- In a chain of related blocks, every block but the first has a predecessor. -/
theorem exists_pred {R : BlockId → BlockId → Prop} {l : List BlockId}
    (h : List.IsChain R (a :: l)) (hx : x ∈ l) : ∃ p ∈ (a :: l).dropLast, R p x := by
  induction l generalizing a with
  | nil => contradiction
  | cons b l ih =>
    obtain ⟨hab, hl⟩ := List.isChain_cons_cons.mp h
    rw [List.dropLast_cons_of_ne_nil (List.cons_ne_nil b l)]
    rcases List.mem_cons.mp hx with rfl | hx
    · exact ⟨a, List.mem_cons_self, hab⟩
    · obtain ⟨p, hp, hpx⟩ := ih hl hx
      exact ⟨p, List.mem_cons_of_mem a hp, hpx⟩

/-- The last block of a chain is one of its blocks. -/
theorem Chain.last_mem (K : Chain) : K.last ∈ K.blocks := List.getLast_mem _

private theorem Chain.last_not_mem_dropLast (h : K.blocks.Nodup) : K.last ∉ K.blocks.dropLast := by
  have hsplit : K.blocks.dropLast ++ [K.last] = K.blocks := List.dropLast_append_getLast _
  rw [← hsplit, List.nodup_append] at h
  exact fun hmem ↦ h.2.2 _ hmem _ List.mem_cons_self rfl

/-- The first block of a link leads to the second. -/
theorem Link.leads (h : Link f P a b) : f.Leads a b := h.jumps.leads

section

variable (hf : f.Sound) (hP : f.Closed P) (hK : Fusible f P K)

include hK

/-- All blocks of a chain are in the set. -/
theorem Fusible.mem (hP : f.Closed P) (hx : x ∈ K.blocks) : P x :=
  hP.mem_of_isChain (hK.linked.imp fun _ _ hlink ↦ hlink.leads) hK.head hx

/-- A block of the set leads to a taken-in block only by the link. -/
theorem Fusible.pred (hx : P x) (hy : y ∈ K.rest) (hxy : f.Leads x y) :
    x ∈ K.blocks.dropLast := by
  obtain ⟨p, hp, hlink⟩ := exists_pred hK.linked hy
  rwa [hlink.only x hx hxy]

private theorem Fusible.contains_rest (hf : f.Sound) (hx : x ∈ K.rest) : f.contains x = true := by
  obtain ⟨p, _, hlink⟩ := exists_pred hK.linked hx
  exact hf.leads p x hlink.leads

/-- The blocks that a chain takes in are not exported. -/
theorem Fusible.rest_unexported (hx : x ∈ K.rest) : ¬f.IsExported x := by
  obtain ⟨p, _, hlink⟩ := exists_pred hK.linked hx
  exact hlink.unexported

/-- The blocks that a chain takes in are not the entry. -/
theorem Fusible.rest_not_entry (hx : x ∈ K.rest) : f.entry? ≠ some x := by
  obtain ⟨p, _, hlink⟩ := exists_pred hK.linked hx
  exact hlink.not_entry

/-- The head of a chain is not among the blocks it takes in. -/
theorem Fusible.head_not_mem : K.head ∉ K.rest := (List.nodup_cons.mp hK.nodup).1

include hf hP

-- Once the head has the code of the chain, the other blocks of it are out of reach.
private theorem Fusible.closed_setCode {h : Option BlockId}
    (hcode : f.Fuses h K.head K.last code) :
    (f.setCode K.head code).Closed fun x ↦ P x ∧ x ∉ K.rest := by
  refine ⟨fun e he ↦ ⟨hP.entry e he, fun hmem ↦ hK.rest_not_entry hmem he⟩, fun b hb ↦ ?_, ?_⟩
  · rw [Func.isExported_setCode] at hb
    exact ⟨hP.exported b hb, fun hmem ↦ hK.rest_unexported hmem hb⟩
  · rintro x y ⟨hx, hxr⟩ hxy
    by_cases hxh : x = K.head
    · -- The head leads where the last block led, and that is not into the chain.
      subst hxh
      rw [hcode.leads_setCode hf] at hxy
      have hlast := hK.mem hP K.last_mem
      refine ⟨hP.leads _ y hlast hxy, fun hmem ↦ ?_⟩
      exact Chain.last_not_mem_dropLast hK.nodup (hK.pred hlast hmem hxy)
    · rw [Func.leads_congr (Func.successors_setCode_of_ne hxh)] at hxy
      refine ⟨hP.leads x y hx hxy, fun hmem ↦ ?_⟩
      have hblocks := List.mem_of_mem_dropLast (hK.pred hx hmem hxy)
      rcases List.mem_cons.mp hblocks with rfl | hrest
      · exact hxh rfl
      · exact hxr hrest

/-- Once the head has the code of the chain, the other blocks of it can be taken out. -/
theorem Fusible.pruning {h : Option BlockId} (hcode : f.Fuses h K.head K.last code) :
    Func.Pruning (f.setCode K.head code) (fun x ↦ P x ∧ x ∉ K.rest) K.head K.rest
      (f.setCode K.head code) := by
  have hhead := hK.head_not_mem
  refine ⟨hcode.sound_setCode hf, .refl _, hK.closed_setCode hf hP hcode, .refl _ _,
    ⟨hK.head, hhead⟩, ?_, fun b hb h ↦ h.2 hb, fun b hb ↦ ?_, (List.nodup_cons.mp hK.nodup).2⟩
  · obtain ⟨A, hA, _⟩ := hcode.expands
    rw [Func.setCode, Func.contains_modifyBlock]
    exact Func.contains_of_block? hA
  · rw [Func.setCode, Func.contains_modifyBlock]
    exact hK.contains_rest hf hb

/-- Fusing a chain keeps the function sound, its behaviour, and all blocks in the set but those of
the chain. -/
theorem Fusible.collapse {h : Option BlockId} (hcode : f.Fuses h K.head K.last code) :
    Func.Pruning (f.setCode K.head code) (fun x ↦ P x ∧ x ∉ K.rest) K.head []
      (K.collapse code f) :=
  (hK.pruning hf hP hcode).foldl

/-- Fusing a chain leaves the others fusible. -/
theorem Fusible.of_collapse {h : Option BlockId} (hcode : f.Fuses h K.head K.last code)
    (hK' : Fusible f P K') (hdisj : K.blocks.Disjoint K'.blocks) :
    Fusible (K.collapse code f) (fun x ↦ P x ∧ x ∉ K.rest) K' := by
  have hdone := hK.collapse hf hP hcode
  have hrest (x : BlockId) (hx : x ∈ K'.blocks) : x ∉ K.rest :=
    fun hmem ↦ hdisj (List.mem_cons_of_mem _ hmem) hx
  have hblock (x : BlockId) (hx : x ∈ K'.blocks) : (K.collapse code f).block? x = f.block? x := by
    have hne : x ≠ K.head := fun he ↦ hdisj (he ▸ List.mem_cons_self) hx
    rw [hdone.agrees.block? x ⟨hK'.mem hP hx, hrest x hx⟩, Func.block?_setCode_of_ne hne]
  refine ⟨hK'.linked.imp_of_mem_imp fun a b ha hb hlink ↦ ?_, hK'.nodup, hK'.head,
    hrest _ List.mem_cons_self⟩
  refine ⟨?_, ?_, fun he ↦ hlink.not_entry (hdone.agrees.entry_eq.symm.trans he), ?_⟩
  · obtain ⟨A, hA, hjump⟩ := hlink.jumps
    exact ⟨A, (hblock a ha).trans hA, hjump⟩
  · rintro ⟨B, hB, hexp⟩
    exact hlink.unexported ⟨B, (hblock b hb).symm.trans hB, hexp⟩
  · rintro x hx hxb
    rw [hdone.agrees.leads_iff hx] at hxb
    by_cases hxh : x = K.head
    · -- The head would lead where the last block of its own chain led.
      subst hxh
      rw [hcode.leads_setCode hf] at hxb
      have hlast := hlink.only K.last (hK.mem hP K.last_mem) hxb
      exact absurd ha (hlast ▸ hdisj K.last_mem)
    · rw [Func.leads_congr (Func.successors_setCode_of_ne hxh)] at hxb
      exact hlink.only x hx.1 hxb

end

/-! ### The chains of a function -/

/-- What holds while the chains `l` are still to be fused. -/
structure Fusing (f : Func) (l : List Chain) (g : Func) : Prop where
  sound : g.Sound
  preserves : f.Preserves g
  fusible : ∃ P, g.Closed P ∧ ∀ K ∈ l, Fusible g P K
  disjoint : l.Pairwise fun K K' ↦ K.blocks.Disjoint K'.blocks

private theorem Fusing.step {l : List Chain} (h : Fusing f (K :: l) g) :
    (fuse K).Ensures g fun _ k ↦ Fusing f l k := by
  obtain ⟨P, hP, hl⟩ := h.fusible
  have hK := hl K List.mem_cons_self
  obtain ⟨hdisj, hpair⟩ := List.pairwise_cons.mp h.disjoint
  simp only [fuse, Transform.ensures_bind, Transform.ensures_current, Transform.ensures_ofExcept,
    Transform.ensures_update, Transform.ensures_record, Transform.ensures_pure]
  intro code hcode
  rw [Chain.code] at hcode
  split at hcode
  · contradiction
  · next A hA =>
    have hfuses := Func.fuses_fusedCode h.sound (hK.linked.imp fun _ _ hl ↦ hl.jumps) hcode
    have hdone := hK.collapse h.sound hP hfuses
    refine ⟨hdone.sound, h.preserves.trans (hfuses.preserves_setCode.trans hdone.preserves),
      ⟨_, hdone.closed, fun K' hK' ↦ ?_⟩, hpair⟩
    exact hK.of_collapse h.sound hP hfuses (hl K' (List.mem_cons_of_mem K hK')) (hdisj K' hK')

section

variable {c : FlowGraph} (hi : f.Intact) (hc : c.Depicts f)

include hi hc

/-- What the pass finds to be linked is linked, and live. -/
theorem link_of_next? (h : (links f c).next? a = some b) :
    f.Live a ∧ Link f f.Live a b := by
  obtain ⟨⟨x, A⟩, hmem, hx⟩ := List.mem_filterMap.mp (Forwarding.mem_of_next? h)
  obtain ⟨y, hy, hpair⟩ := Option.map_eq_some_iff.mp hx
  obtain ⟨rfl, rfl⟩ := Prod.mk.inj hpair
  have hA := hi.wf.mem_blocks.mp hmem
  change link? f c c.isLive x A = some y at hy
  rw [link?] at hy
  split at hy
  · next z hterm =>
    split at hy
    · next Y hY =>
      split at hy
      · next hcond =>
        obtain rfl := Option.some.inj hy
        simp only [Bool.and_eq_true, decide_eq_true_eq, Bool.not_eq_true'] at hcond
        obtain ⟨⟨⟨⟨⟨hlive, _⟩, hentry⟩, hexp⟩, _⟩, hpreds⟩ := hcond
        refine ⟨(hc.isLive_iff hi).mp hlive, ⟨A, hA, hterm⟩, ?_, fun he ↦ ?_,
          fun w hwlive hwz ↦ ?_⟩
        · rintro ⟨Y', hY', hexp'⟩
          obtain rfl := Option.some.inj (hY.symm.trans hY')
          simp [hexp] at hexp'
        · exact hentry (hc.entryBlock_eq he).symm
        · have hmem : w ∈ (c.predecessorBlocks z).filter c.isLive :=
            List.mem_filter.mpr ⟨(hc.mem_predecessorBlocks
              (Func.contains_of_block? hY)).mpr hwz, (hc.isLive_iff hi).mpr hwlive⟩
          rw [hpreds, List.mem_singleton] at hmem
          exact hmem
      · contradiction
    · contradiction
  · contradiction

end

/-- Following the links of a block gives a chain of them. -/
theorem isChain_linked (m : Forwarding) (n : Nat) (b : BlockId) :
    List.IsChain (fun x y ↦ m.next? x = some y) (b :: linked m n b) := by
  induction n generalizing b with
  | zero => exact .singleton b
  | succ n ih =>
    rw [linked]
    split
    · exact .singleton b
    · next c hc => exact .cons_cons hc (ih c)

private theorem getElem?_pred {R : BlockId → BlockId → Prop} {l : List BlockId} {n : Nat}
    (hl : l.IsChain R) (hn : l[n + 1]? = some x) : ∃ p, l[n]? = some p ∧ R p x := by
  obtain ⟨hlt, rfl⟩ := List.getElem?_eq_some_iff.mp hn
  exact ⟨_, List.getElem?_eq_getElem (Nat.lt_of_succ_lt hlt), hl.getElem n hlt⟩

-- Along an injective relation, chains from elements that nothing is related to meet only if they
-- start alike, and then at the same place.
private theorem index_unique {R : BlockId → BlockId → Prop}
    (hinj : ∀ x x' y, R x y → R x' y → x = x') {l l' : List BlockId}
    (hl : List.IsChain R (a :: l)) (hl' : List.IsChain R (b :: l')) (ha : ∀ x, ¬R x a)
    (hb : ∀ x, ¬R x b) {i j : Nat} (hi : (a :: l)[i]? = some x) (hj : (b :: l')[j]? = some x) :
    i = j ∧ a = b := by
  induction i generalizing j x with
  | zero =>
    rw [List.getElem?_cons_zero, Option.some.injEq] at hi
    subst hi
    cases j with
    | zero =>
      rw [List.getElem?_cons_zero, Option.some.injEq] at hj
      exact ⟨rfl, hj.symm⟩
    | succ j =>
      obtain ⟨p, _, hp⟩ := getElem?_pred hl' hj
      exact absurd hp (ha p)
  | succ i ih =>
    obtain ⟨p, hp, hpx⟩ := getElem?_pred hl hi
    cases j with
    | zero =>
      rw [List.getElem?_cons_zero, Option.some.injEq] at hj
      exact absurd (hj ▸ hpx) (hb p)
    | succ j =>
      obtain ⟨q, hq, hqx⟩ := getElem?_pred hl' hj
      obtain rfl := hinj p q x hpx hqx
      obtain ⟨rfl, hab⟩ := ih hp hq
      exact ⟨rfl, hab⟩

/-- A head has a link. -/
theorem next?_of_mem_heads {m : Forwarding} (hb : b ∈ heads f m) : ∃ x, m.next? b = some x := by
  rw [heads, List.mem_filter, Bool.and_eq_true, Option.isSome_iff_exists] at hb
  exact hb.2.1

/-- No link leads to a head. -/
theorem no_link_to_head {m : Forwarding} (hb : b ∈ heads f m) (x : BlockId) :
    ¬m.next? x = some b := by
  intro hx
  have hmem : b ∈ m.entries.map Prod.snd :=
    List.mem_map.mpr ⟨(x, b), Forwarding.mem_of_next? hx, rfl⟩
  rw [heads, List.mem_filter, Bool.and_eq_true, Bool.not_eq_true', List.contains_eq_mem,
    decide_eq_false_iff_not] at hb
  exact hb.2.2 hmem

section

variable {c : FlowGraph} (hi : f.Intact) (hc : c.Depicts f)

include hi hc

/-- No two links lead to one block. -/
theorem next?_links_inj (x y z : BlockId) (h : (links f c).next? x = some z)
    (h' : (links f c).next? y = some z) : x = y := by
  obtain ⟨hx, hlink⟩ := link_of_next? hi hc h
  obtain ⟨_, hlink'⟩ := link_of_next? hi hc h'
  exact hlink'.only x hx hlink.leads

/-- The chains of a function are fusible in the set of live blocks. -/
theorem fusible_chains (hK : K ∈ chains f (links f c)) : Fusible f f.Live K := by
  obtain ⟨b, hb, rfl⟩ := List.mem_map.mp hK
  have hlinked := isChain_linked (links f c) (links f c).entries.length b
  refine ⟨hlinked.imp fun x y h ↦ (link_of_next? hi hc h).2, ?_, ?_⟩
  · rw [List.nodup_iff_getElem?_ne_getElem?]
    intro i j hij hj heq
    obtain ⟨x, hx⟩ : ∃ x, (b :: linked (links f c) (links f c).entries.length b)[j]? = some x :=
      ⟨_, List.getElem?_eq_getElem hj⟩
    have := (index_unique (next?_links_inj hi hc) hlinked hlinked (no_link_to_head hb)
      (no_link_to_head hb) (heq.trans hx) hx).1
    omega
  · obtain ⟨x, hx⟩ := next?_of_mem_heads hb
    exact (link_of_next? hi hc hx).1

/-- The chains have no blocks in common. -/
theorem disjoint_chains :
    (chains f (links f c)).Pairwise fun K K' ↦ K.blocks.Disjoint K'.blocks := by
  have hlinked (b : BlockId) := isChain_linked (links f c) (links f c).entries.length b
  rw [chains, List.pairwise_map]
  refine List.Pairwise.imp_of_mem (fun {b b'} hb hb' hne ↦ ?_) (hi.wf.nodup.filter _)
  intro x hx hx'
  obtain ⟨i, hxi⟩ := List.mem_iff_getElem?.mp hx
  obtain ⟨j, hxj⟩ := List.mem_iff_getElem?.mp hx'
  exact hne (index_unique (next?_links_inj hi hc) (hlinked b) (hlinked b')
    (no_link_to_head hb) (no_link_to_head hb') hxi hxj).2

end

private theorem fusing_chains {c : FlowGraph} (hf : f.Sound) (hc : c.Depicts f) :
    Fusing f (chains f (links f c)) f :=
  ⟨hf, .refl f, ⟨f.Live, f.closed_live, fun _ hK ↦ fusible_chains hf.intact hc hK⟩,
    disjoint_chains hf.intact hc⟩

/-- Fusing chains keeps the behaviour. -/
theorem ensures_fuseChains (hf : f.Sound) :
    fuseChains.Ensures f fun _ g ↦ g.Sound ∧ f.Preserves g := by
  rw [fuseChains, Transform.ensures_bind, Transform.ensures_current, Transform.ensures_bind,
    Transform.ensures_ofExcept]
  intro c hc
  have hstart := fusing_chains hf (FlowGraph.depicts_of_ofFunc hf.wf hc)
  exact (Transform.ensures_sumOver (Fusing f) hstart fun K rest g hg ↦ hg.step).mono
    fun _ g hg ↦ ⟨hg.sound, hg.preserves⟩

end Merge

end Bytecode
