import Bytecode.Proofs.Merge.Detours

/-!
# What is left of the links

Fusing takes each chain into its head, which then ends as the last block of the chain did. All
other blocks that are kept stay as they were. So every link is used up: a new one between two kept
blocks would have been a link at the end of a chain.
-/

namespace Bytecode

/-- Blocks out of reach are taken out one after the other. -/
theorem Func.Pruning.edits {f g : Func} {P : BlockId → Prop} {a : BlockId} {l : List BlockId}
    {settings : Settings} (h : Pruning f P a l g) (hasked : settings.mergeBlocks = true) :
    Edits settings g l (l.foldl (Merge.dropLink a) g) := by
  induction l generalizing g with
  | nil => exact .refl
  | cons b l ih =>
    have hb := h.out b List.mem_cons_self
    have hcut : Edit settings g [b] (g.bypass b a) :=
      .cut hasked h.closed h.head hb h.head_live (h.pending b List.mem_cons_self)
    rw [← dropLink_eq_bypass a fun he ↦ hb (h.closed.entry b he)] at hcut
    exact (Edits.single hcut).trans (ih h.dropLink)

namespace Merge

open Func Transform

variable {f g : Func} {settings : Settings} {K : Chain} {P : BlockId → Prop}
  {done l : List Chain} {a b p r x y z : BlockId} {handler : Option BlockId} {code : List Instr}
  {i : Instr} {n : Nat} {es : List Event}

/-! ### The code of a chain -/

/-- Dropping a link removes its block and redirects the others to the head. -/
theorem block?_dropLink (f : Func) (a b x : BlockId) :
    (dropLink a f b).block? x = if x = b then none else (f.block? x).map (Block.redirect b a) := by
  rw [dropLink, block?_redirect, block?_removeBlock]
  split <;> rfl

private theorem exists_fusedCode {head : BlockId} {l : List BlockId}
    (hl : ∀ x ∈ a :: l, ∃ B, f.block? x = some B ∧ B.handler = handler) :
    ∃ code, fusedCode f head handler (a :: l) = .ok code := by
  induction l generalizing a with
  | nil =>
    obtain ⟨B, hB, hh⟩ := hl a List.mem_cons_self
    exact ⟨B.code, fusedCode_singleton_eq_ok_iff.mpr ⟨B, hB, hh, rfl⟩⟩
  | cons b l ih =>
    obtain ⟨B, hB, hh⟩ := hl a List.mem_cons_self
    obtain ⟨rest, hrest⟩ := ih fun y hy ↦ hl y (List.mem_cons_of_mem a hy)
    exact ⟨_, (fusedCode_cons_eq_ok_iff (List.cons_ne_nil b l)).mpr ⟨B, rest, hB, hh, hrest, rfl⟩⟩

private theorem fusedCode_congr {head : BlockId} {l : List BlockId}
    (hl : ∀ x ∈ a :: l, g.block? x = f.block? x)
    (hcode : fusedCode f head handler (a :: l) = .ok code) :
    fusedCode g head handler (a :: l) = .ok code := by
  induction l generalizing a code with
  | nil =>
    rw [fusedCode_singleton_eq_ok_iff] at hcode ⊢
    rwa [hl a List.mem_cons_self]
  | cons b l ih =>
    obtain ⟨A, rest, hA, hh, hrest, rfl⟩ :=
      (fusedCode_cons_eq_ok_iff (List.cons_ne_nil b l)).mp hcode
    rw [fusedCode_cons_eq_ok_iff (List.cons_ne_nil b l), hl a List.mem_cons_self]
    exact ⟨A, rest, hA, hh, ih (fun y hy ↦ hl y (List.mem_cons_of_mem a hy)) hrest, rfl⟩

/-- A chain has code exactly if its blocks can be fused under the handler of its head. -/
theorem Chain.code_eq_ok_iff : K.code f = .ok code ↔
    ∃ A, f.block? K.head = some A ∧ fusedCode f K.head A.handler K.blocks = .ok code := by
  rw [Chain.code]
  cases f.block? K.head with
  | none => simp
  | some A => simp [Chain.blocks]

private theorem Chain.code_congr (hK : ∀ x ∈ K.blocks, g.block? x = f.block? x)
    (hcode : K.code f = .ok code) : K.code g = .ok code := by
  rw [Chain.code] at hcode ⊢
  rw [hK K.head List.mem_cons_self]
  split at hcode
  · contradiction
  · exact fusedCode_congr hK hcode

/-- Fused code of one instruction has it from the blocks after the first. -/
theorem eq_of_append_fusedCode (hf : f.Sound) {head : BlockId} {l : List BlockId}
    {body rest : List Instr} (hl : List.IsChain f.Jumps (a :: l))
    (hrest : fusedCode f head handler (a :: l) = .ok rest) (hi : body ++ rest = [i]) :
    body = [] ∧ rest = [i] := by
  obtain ⟨_, _, t, front, _, _, hend, _⟩ := (fuses_fusedCode hf hl hrest).ends
  rcases List.append_eq_singleton_iff.mp hi with hsplit | hsplit
  · exact hsplit
  · rw [hsplit.2] at hend
    simp at hend

/-- Fused code of one instruction is the code of the last block. -/
theorem code_last_of_fusedCode (hf : f.Sound) {head : BlockId} {l : List BlockId}
    (hl : List.IsChain f.Jumps (a :: l)) (hcode : fusedCode f head handler (a :: l) = .ok [i]) :
    ∃ L, f.block? ((a :: l).getLast (List.cons_ne_nil a l)) = some L ∧ L.code = [i] := by
  induction l generalizing a with
  | nil =>
    obtain ⟨A, hA, _, hi⟩ := fusedCode_singleton_eq_ok_iff.mp hcode
    exact ⟨A, hA, hi.symm⟩
  | cons b l ih =>
    obtain ⟨A, rest, _, _, hrest, hi⟩ := (fusedCode_cons_eq_ok_iff (List.cons_ne_nil b l)).mp hcode
    have hl' := (List.isChain_cons_cons.mp hl).2
    obtain ⟨_, rfl⟩ := eq_of_append_fusedCode hf hl' hrest hi.symm
    rw [List.getLast_cons (List.cons_ne_nil b l)]
    exact ih hl' hrest

/-- Where jumps to blocks elsewhere lead to others of their kind, a chain of blocks that starts
with such a jump fuses to one. -/
theorem fusedCode_of_circling (hcircling : Circling f) {head : BlockId} {l : List BlockId}
    (hl : List.IsChain (Couples f) (a :: l)) (ha : f.Forwards a b) (hne : b ≠ a)
    (hcode : fusedCode f head handler (a :: l) = .ok code) : ∃ z, code = [.jump z] := by
  induction l generalizing a b code with
  | nil =>
    obtain ⟨A, hA, _, rfl⟩ := fusedCode_singleton_eq_ok_iff.mp hcode
    obtain ⟨A', hA', _, hjump⟩ := ha
    obtain rfl := Option.some.inj (hA.symm.trans hA')
    exact ⟨b, hjump⟩
  | cons c l ih =>
    obtain ⟨A, rest, hA, _, hrest, rfl⟩ :=
      (fusedCode_cons_eq_ok_iff (List.cons_ne_nil c l)).mp hcode
    obtain ⟨hac, hl'⟩ := List.isChain_cons_cons.mp hl
    obtain rfl := ha.eq_of_leads hac.link.leads
    obtain ⟨z, hz, hzne⟩ := hcircling a c ha hne
    obtain ⟨w, rfl⟩ := ih hl' hz hzne hrest
    obtain ⟨A', hA', _, hjump⟩ := ha
    obtain rfl := Option.some.inj (hA.symm.trans hA')
    refine ⟨w, ?_⟩
    rw [Block.body, Block.terminator?, hjump]
    rfl

/-! ### One chain -/

/-- All blocks of a chain have one handler. -/
theorem handler_of_isChain (hi : f.Intact) {l : List BlockId} {A : Block}
    (hl : List.IsChain (Couples f) (a :: l)) (hA : f.block? a = some A) (hx : x ∈ a :: l) :
    ∃ B, f.block? x = some B ∧ B.handler = A.handler := by
  induction l generalizing a A with
  | nil =>
    rw [List.mem_singleton] at hx
    exact ⟨A, hx ▸ hA, rfl⟩
  | cons b l ih =>
    obtain ⟨hab, hl'⟩ := List.isChain_cons_cons.mp hl
    rcases List.mem_cons.mp hx with rfl | hx
    · exact ⟨A, hA, rfl⟩
    · obtain ⟨B, hB⟩ := Func.contains_iff.mp (hab.liveTarget.contains hi)
      rw [← hab.handler_eq A B hA hB]
      exact ih hl' hB hx

/-- All blocks of the chain are there and have one handler. -/
def Chain.Stands (K : Chain) (f : Func) : Prop :=
  ∃ h, ∀ x ∈ K.blocks, ∃ B, f.block? x = some B ∧ B.handler = h

/-- A chain whose blocks are there and have one handler has code. -/
theorem Chain.Stands.exists_code (h : K.Stands f) : ∃ code, K.code f = .ok code := by
  obtain ⟨handler, hblocks⟩ := h
  obtain ⟨A, hA, rfl⟩ := hblocks K.head List.mem_cons_self
  rw [Chain.code, hA]
  exact exists_fusedCode hblocks

/-- The blocks of a coupled chain are there and have one handler. -/
theorem stands_of_isChain (hi : f.Intact) (hK : K.blocks.IsChain (Couples f))
    (hhead : f.contains K.head = true) : K.Stands f := by
  obtain ⟨A, hA⟩ := Func.contains_iff.mp hhead
  exact ⟨A.handler, fun x hx ↦ handler_of_isChain hi hK hA hx⟩

/-- Fusing a chain is giving its head the whole code and taking out the other blocks. -/
theorem Fusible.edits (hf : f.Sound) (hP : f.Closed P) (hK : Fusible f P K)
    (hasked : settings.mergeBlocks = true) (hcode : K.code f = .ok code) :
    Edits settings f K.rest (K.collapse code f) := by
  obtain ⟨h, hfuses⟩ := fuses_of_code hf hK hcode
  have hinline : Edits settings f [] (f.setCode K.head code) :=
    .single (.inline hasked hP hK hcode)
  exact hinline.trans ((hK.pruning hf hP hfuses).edits hasked)

/-! ### All chains -/

/-- The live blocks that no chain takes in. -/
def Kept (f : Func) (done : List Chain) (x : BlockId) : Prop :=
  f.Live x ∧ ∀ K ∈ done, x ∉ K.rest

private theorem kept_nil (f : Func) : Kept f [] = f.Live := by
  funext x
  simp [Kept]

private theorem kept_append_singleton (f : Func) (done : List Chain) (K : Chain) :
    Kept f (done ++ [K]) = fun x ↦ Kept f done x ∧ x ∉ K.rest := by
  funext x
  simp [Kept, or_imp, forall_and, and_assoc]

/-- The chains are fused: their heads have the code of the chain, their other blocks are gone, and
blocks that are in no chain stay. -/
structure Welded (f : Func) (done : List Chain) (g : Func) : Prop where
  closed : g.Closed (Kept f done)
  taken : ∀ K ∈ done, ∀ x ∈ K.rest, ¬g.contains x = true
  others : Agrees (fun x ↦ Kept f done x ∧ ∀ K ∈ done, x ≠ K.head) f g
  heads : ∀ K ∈ done, ∃ code, K.code f = .ok code ∧
    Agrees (· = K.head) (f.setCode K.head code) g

private theorem agrees_setCode (f : Func) (a : BlockId) (code : List Instr) :
    Agrees (· ≠ a) f (f.setCode a code) :=
  ⟨fun _ hx ↦ block?_setCode_of_ne hx, fun _ ↦ rfl, rfl⟩

/-- What holds while the chains `l` are still to be fused and the chains `done` are. -/
structure Welding (settings : Settings) (f : Func) (done l : List Chain) (n : Nat) (g : Func)
    (es : List Event) : Prop where
  sound : g.Sound
  recorded : Recorded settings f (n ≠ 0) g es
  count : n = (done.flatMap Chain.rest).length
  welded : Welded f done g
  fusible : ∀ K ∈ l, Fusible g (Kept f done) K

section

variable {c : FlowGraph} (hi : f.Intact) (hc : c.Depicts f)

include hi hc

/-- No two chains share a block. -/
theorem eq_of_mem_chains {K' : Chain} (hK : K ∈ chains f (links f c))
    (hK' : K' ∈ chains f (links f c)) (hx : x ∈ K.blocks) (hx' : x ∈ K'.blocks) : K = K' := by
  by_contra hne
  have : Std.Symm fun K K' : Chain ↦ K.blocks.Disjoint K'.blocks := ⟨fun _ _ h ↦ h.symm⟩
  exact (disjoint_chains hi hc).forall hK hK' hne hx hx'

private theorem head_not_mem_rest {K' : Chain} (hK : K ∈ chains f (links f c))
    (hK' : K' ∈ chains f (links f c)) : K.head ∉ K'.rest := by
  intro hmem
  obtain rfl := eq_of_mem_chains hi hc hK hK' List.mem_cons_self (List.mem_cons_of_mem _ hmem)
  exact (fusible_chains hi hc hK).head_not_mem hmem

end

private theorem rest_ne_nil {m : Forwarding} (hK : K ∈ chains f m) : K.rest ≠ [] := by
  obtain ⟨b, hb, rfl⟩ := List.mem_map.mp hK
  obtain ⟨y, hy⟩ := next?_of_mem_heads hb
  obtain ⟨k, hk⟩ := Nat.exists_eq_succ_of_ne_zero
    (List.length_pos_of_mem (Forwarding.mem_of_next? hy)).ne'
  rw [hk, linked, hy]
  exact List.cons_ne_nil _ _

section

variable {c : FlowGraph} (hf : f.Sound) (hc : c.Depicts f)

include hf hc

private theorem disjoint_of_split (hsplit : done ++ K :: l = chains f (links f c)) :
    (∀ K' ∈ done, K'.blocks.Disjoint K.blocks) ∧ ∀ K' ∈ l, K.blocks.Disjoint K'.blocks := by
  have hpair := disjoint_chains hf.intact hc
  rw [← hsplit, List.pairwise_append, List.pairwise_cons] at hpair
  exact ⟨fun K' hK' ↦ hpair.2.2 K' hK' K List.mem_cons_self, hpair.2.1.1⟩

/-- A chain that is still to be fused is as it was. -/
theorem Welding.block?_eq (hsplit : done ++ K :: l = chains f (links f c))
    (h : Welding settings f done (K :: l) n g es) (hx : x ∈ K.blocks) :
    g.block? x = f.block? x := by
  have hfusible := h.fusible K List.mem_cons_self
  apply h.welded.others.block? x
  refine ⟨hfusible.mem h.welded.closed hx, fun K' hK' ↦ ?_⟩
  rintro rfl
  exact (disjoint_of_split hf hc hsplit).1 K' hK' List.mem_cons_self hx

private theorem Welding.welded_append (hsplit : done ++ K :: l = chains f (links f c))
    (h : Welding settings f done (K :: l) n g es) (hcode : K.code f = .ok code)
    (hcode' : K.code g = .ok code) : Welded f (done ++ [K]) (K.collapse code g) := by
  have hfusible := h.fusible K List.mem_cons_self
  obtain ⟨_, hfuses⟩ := fuses_of_code h.sound hfusible hcode'
  have hmem {K' : Chain} (hK' : K' ∈ done ++ [K]) : K' ∈ chains f (links f c) := by
    rw [← hsplit]
    simp only [List.mem_append, List.mem_cons] at hK' ⊢
    tauto
  have hhead {K' : Chain} (hK' : K' ∈ done ++ [K]) : Kept f (done ++ [K]) K'.head :=
    ⟨(fusible_chains hf.intact hc (hmem hK')).head,
      fun _ hK'' ↦ head_not_mem_rest hf.intact hc (hmem hK') (hmem hK'')⟩
  have hdone := hfusible.collapse h.sound h.welded.closed hfuses
  rw [← kept_append_singleton] at hdone
  have hset := agrees_setCode g K.head code
  have hedits : Edits {} g K.rest (K.collapse code g) :=
    hfusible.edits h.sound h.welded.closed rfl hcode'
  refine ⟨hdone.closed, fun K' hK' x hx hcontains ↦ ?_, ?_, fun K' hK' ↦ ?_⟩
  · obtain ⟨hpast, hrest⟩ := hedits.contains_iff.mp hcontains
    rcases List.mem_append.mp hK' with hK' | hK'
    · exact h.welded.taken K' hK' x hx hpast
    · exact hrest (List.mem_singleton.mp hK' ▸ hx)
  · have hpast :
        Agrees (fun x ↦ Kept f (done ++ [K]) x ∧ ∀ K' ∈ done ++ [K], x ≠ K'.head) f g := by
      apply h.welded.others.mono
      rintro x ⟨hkept, hne⟩
      rw [kept_append_singleton] at hkept
      exact ⟨hkept.1, fun K' hK' ↦ hne K' (List.mem_append_left _ hK')⟩
    apply (hpast.trans (hset.mono fun x hx ↦ hx.2 K (by simp))).trans
    exact hdone.agrees.mono fun x hx ↦ hx.1
  · have hstep : Agrees (· = K'.head) (g.setCode K.head code) (K.collapse code g) := by
      apply hdone.agrees.mono
      rintro x rfl
      exact hhead hK'
    rcases List.mem_append.mp hK' with hpast | hnew
    · obtain ⟨code', hfused, hagrees⟩ := h.welded.heads K' hpast
      refine ⟨code', hfused, (hagrees.trans (hset.mono ?_)).trans hstep⟩
      rintro x rfl hsame
      exact (disjoint_of_split hf hc hsplit).1 K' hpast (List.mem_cons_self)
        (hsame ▸ List.mem_cons_self)
    · rw [List.mem_singleton] at hnew
      subst hnew
      refine ⟨code, hcode, Agrees.trans ?_ hstep⟩
      refine ⟨?_, h.welded.others.table?, h.welded.others.entry_eq⟩
      rintro x rfl
      rw [setCode, setCode, block?_modifyBlock, block?_modifyBlock,
        h.block?_eq hf hc hsplit List.mem_cons_self]

private theorem Welding.step (hasked : settings.mergeBlocks = true) {E : Fault → Prop}
    (hsplit : done ++ K :: l = chains f (links f c))
    (h : Welding settings f done (K :: l) n g es) :
    (fuse K).Yields g
      (fun m k es' ↦ Welding settings f (done ++ [K]) l (n + m) k (es ++ es')) E := by
  have hfusible := h.fusible K List.mem_cons_self
  have hmem : K ∈ chains f (links f c) := by
    rw [← hsplit]
    simp
  have hcontains := (fusible_chains hf.intact hc hmem).head.contains hf.intact
  have hcouples := isChain_couples hf.intact hc hmem
  obtain ⟨code, hcode⟩ := (stands_of_isChain hf.intact hcouples hcontains).exists_code
  have hcode' := Chain.code_congr (fun x hx ↦ h.block?_eq hf hc hsplit hx) hcode
  obtain ⟨_, hfuses⟩ := fuses_of_code h.sound hfusible hcode'
  have hdone := hfusible.collapse h.sound h.welded.closed hfuses
  have hedits := hfusible.edits h.sound h.welded.closed hasked hcode'
  rw [fuse, yields_bind, yields_current, yields_bind,
    yields_ofExcept_of_ok hcode']
  simp only [yields_bind, yields_update, yields_record, yields_pure, List.nil_append,
    List.append_nil]
  refine ⟨hdone.sound, ?_, ?_, h.welded_append hf hc hsplit hcode hcode', fun K' hK' ↦ ?_⟩
  · apply h.recorded.count hf
    have hne := rest_ne_nil hmem
    have htrue : decide (K.rest.length ≠ 0) = true := by simpa using hne
    rw [htrue]
    exact recorded_single hedits rfl (hedits.loses h.sound hne) fun _ ↦ ⟨K.head, rfl, rfl⟩
  · rw [h.count]
    simp
  · rw [kept_append_singleton]
    exact hfusible.of_collapse h.sound h.welded.closed hfuses
      (h.fusible K' (List.mem_cons_of_mem K hK')) ((disjoint_of_split hf hc hsplit).2 K' hK')

private theorem welding_start : Welding settings f [] (chains f (links f c)) 0 f [] where
  sound := hf
  recorded := .refl settings f
  count := rfl
  welded := ⟨kept_nil f ▸ f.closed_live, by simp, .refl _ f, by simp⟩
  fusible K hK := kept_nil f ▸ fusible_chains hf.intact hc hK

end

/-- All chains are fused. -/
theorem yields_welded (hf : f.Sound) (hasked : settings.mergeBlocks = true) {E : Fault → Prop} :
    fuseChains.Yields f (fun n g es ↦ Recorded settings f (n ≠ 0) g es ∧ ∃ c : FlowGraph,
      c.Depicts f ∧ Welded f (chains f (links f c)) g ∧
      n = ((chains f (links f c)).flatMap Chain.rest).length) E := by
  obtain ⟨c, hofFunc⟩ := FlowGraph.exists_ofFunc hf.intact
  have hc := FlowGraph.depicts_of_ofFunc hf.wf hofFunc
  rw [fuseChains, yields_bind, yields_current, yields_bind,
    yields_ofExcept_of_ok hofFunc]
  refine (yields_sumOver (fun l n g es ↦ ∃ done, done ++ l = chains f (links f c) ∧
    Welding settings f done l n g es) ⟨[], rfl, welding_start hf hc⟩ ?_).imp ?_
  · rintro K l n g es ⟨done, hsplit, hdone⟩
    apply (hdone.step hf hc hasked hsplit).imp
    intro m k es' hnext
    exact ⟨done ++ [K], by rw [List.append_assoc, List.singleton_append, hsplit], hnext⟩
  · rintro n g es ⟨done, hsplit, hdone⟩
    rw [List.append_nil] at hsplit
    subst hsplit
    exact ⟨hdone.recorded, c, hc, hdone.welded, hdone.count⟩

/-! ### Who stands for whom -/

/-- The first block ends as the second did: it is the head of a chain and the second its last
block, or it is the head of none. -/
def EndsAs (done : List Chain) (x y : BlockId) : Prop :=
  (∃ K ∈ done, x = K.head ∧ y = K.last) ∨ (∀ K ∈ done, x ≠ K.head) ∧ y = x

/-- The second block stands for the first: the first is in its chain, or in none and is itself. -/
def StandsBy (done : List Chain) (x r : BlockId) : Prop :=
  (∃ K ∈ done, x ∈ K.blocks ∧ r = K.head) ∨ (∀ K ∈ done, x ∉ K.blocks) ∧ r = x

/-- Every block ends as some block did. -/
theorem exists_endsAs (done : List Chain) (x : BlockId) : ∃ y, EndsAs done x y := by
  by_cases hx : ∃ K ∈ done, x = K.head
  · obtain ⟨K, hK, hxK⟩ := hx
    exact ⟨K.last, .inl ⟨K, hK, hxK, rfl⟩⟩
  · exact ⟨x, .inr ⟨fun K hK hxK ↦ hx ⟨K, hK, hxK⟩, rfl⟩⟩

/-- A block that no chain has taken in stands for itself. -/
theorem StandsBy.eq (h : StandsBy done x r) (hx : ∀ K ∈ done, x ∉ K.rest) : r = x := by
  rcases h with ⟨K, hK, hmem, rfl⟩ | ⟨_, rfl⟩
  · rcases List.mem_cons.mp hmem with rfl | hrest
    · rfl
    · exact absurd hrest (hx K hK)
  · rfl

private theorem Chain.last_mem_rest (h : K.rest ≠ []) : K.last ∈ K.rest := by
  have hlast : K.last = K.rest.getLast h := List.getLast_cons h
  rw [hlast]
  exact List.getLast_mem h

section

variable {c : FlowGraph} (hf : f.Sound) (hc : c.Depicts f)

include hf hc

private theorem EndsAs.unique (hy : EndsAs (chains f (links f c)) x y)
    (hz : EndsAs (chains f (links f c)) x z) : y = z := by
  rcases hy with ⟨K, hK, rfl, rfl⟩ | ⟨hx, rfl⟩ <;>
    rcases hz with ⟨K', hK', hhead, rfl⟩ | ⟨hx', rfl⟩
  · have hmem : K.head ∈ K'.blocks := hhead ▸ List.mem_cons_self
    rw [eq_of_mem_chains hf.intact hc hK hK' List.mem_cons_self hmem]
  · exact absurd rfl (hx' K hK)
  · exact absurd hhead (hx K' hK')
  · rfl

private theorem EndsAs.unexported (h : EndsAs (chains f (links f c)) x y) (hx : ¬f.IsExported x) :
    ¬f.IsExported y := by
  rcases h with ⟨K, hK, _, rfl⟩ | ⟨_, rfl⟩
  · obtain ⟨_, _, hlink⟩ := exists_pred (fusible_chains hf.intact hc hK).linked
      (Chain.last_mem_rest (rest_ne_nil hK))
    exact hlink.unexported
  · exact hx

private theorem EndsAs.live (h : EndsAs (chains f (links f c)) x y) (hx : f.Live x) :
    f.Live y := by
  rcases h with ⟨K, hK, _, rfl⟩ | ⟨_, rfl⟩
  · exact (fusible_chains hf.intact hc hK).mem f.closed_live K.last_mem
  · exact hx

omit hf hc in
/-- Blocks that are taken in are not kept. -/
theorem EndsAs.eq_or_ne (h : EndsAs (chains f (links f c)) x y)
    (hz : Kept f (chains f (links f c)) z) : y = x ∨ z ≠ y := by
  rcases h with ⟨K, hK, _, rfl⟩ | ⟨_, rfl⟩
  · right
    rintro rfl
    exact hz.2 K hK (Chain.last_mem_rest (rest_ne_nil hK))
  · exact .inl rfl

/-- A block that leads to a kept one is the last of its chain, or in none. -/
theorem exists_endsAs_of_leads (hp : f.Live p) (hpx : f.Leads p x)
    (hx : Kept f (chains f (links f c)) x) : ∃ r, Kept f (chains f (links f c)) r ∧
      EndsAs (chains f (links f c)) r p ∧ StandsBy (chains f (links f c)) p r := by
  by_cases hmem : ∃ K ∈ chains f (links f c), p ∈ K.blocks
  · obtain ⟨K, hK, hpK⟩ := hmem
    have hlast : p = K.last := by
      have hcouples := isChain_couples hf.intact hc hK
      rcases exists_succ hcouples (List.cons_ne_nil _ _) hpK with hp | ⟨y, hy, hpy⟩
      · exact hp
      · obtain ⟨P, hP, hjump⟩ := hpy.link.jumps
        obtain rfl := (leads_jump_iff hP hjump).mp hpx
        exact absurd hy (hx.2 K hK)
    refine ⟨K.head, ⟨(fusible_chains hf.intact hc hK).head, fun K' hK' ↦ ?_⟩,
      .inl ⟨K, hK, rfl, hlast⟩, .inl ⟨K, hK, hpK, rfl⟩⟩
    exact head_not_mem_rest hf.intact hc hK hK'
  · have hnot (K : Chain) (hK : K ∈ chains f (links f c)) : p ∉ K.blocks :=
      fun hpK ↦ hmem ⟨K, hK, hpK⟩
    refine ⟨p, ⟨hp, fun K hK hrest ↦ hnot K hK (List.mem_cons_of_mem _ hrest)⟩,
      .inr ⟨fun K hK hhead ↦ ?_, rfl⟩, .inr ⟨hnot, rfl⟩⟩
    subst hhead
    exact hnot K hK List.mem_cons_self

end

namespace Welded

variable {c : FlowGraph} (h : Welded f (chains f (links f c)) g) (hf : f.Sound) (hc : c.Depicts f)
  (hexp : ∀ b, g.IsExported b ↔ f.IsExported b)

include h hf hc

/-- A kept block leads where the block did that it ends as. -/
theorem leads_iff (hx : Kept f (chains f (links f c)) x)
    (hxy : EndsAs (chains f (links f c)) x y) : g.Leads x z ↔ f.Leads y z := by
  rcases hxy with ⟨K, hK, rfl, rfl⟩ | ⟨hne, rfl⟩
  · obtain ⟨code, hcode, hagrees⟩ := h.heads K hK
    obtain ⟨_, hfuses⟩ := fuses_of_code hf (fusible_chains hf.intact hc hK) hcode
    rw [hagrees.leads_iff rfl, hfuses.leads_setCode hf]
  · exact h.others.leads_iff ⟨hx, hne⟩

omit hf hc in
/-- A kept block has at most new code. -/
theorem exists_block {B : Block} (hx : Kept f (chains f (links f c)) x)
    (hB : f.block? x = some B) : ∃ code, g.block? x = some { B with code := code } := by
  by_cases hhead : ∃ K ∈ chains f (links f c), x = K.head
  · obtain ⟨K, hK, rfl⟩ := hhead
    obtain ⟨code, _, hagrees⟩ := h.heads K hK
    refine ⟨code, ?_⟩
    rw [hagrees.block? K.head rfl, block?_setCode_eq_some_iff]
    exact ⟨B, hB, by simp⟩
  · refine ⟨B.code, ?_⟩
    rw [h.others.block? x ⟨hx, fun K hK hxK ↦ hhead ⟨K, hK, hxK⟩⟩, hB]

/-- What a kept block has from the block that it ends as. -/
theorem exists_origin {B : Block} (hx : Kept f (chains f (links f c)) x)
    (hxy : EndsAs (chains f (links f c)) x y) (hB : g.block? x = some B) :
    ∃ L, f.block? y = some L ∧ L.terminator? = B.terminator? ∧ L.handler = B.handler ∧
      ∀ i, B.code = [i] → L.code = [i] := by
  rcases hxy with ⟨K, hK, rfl, rfl⟩ | ⟨hne, rfl⟩
  · obtain ⟨code, hcode, hagrees⟩ := h.heads K hK
    have hfusible := fusible_chains hf.intact hc hK
    obtain ⟨_, hfuses⟩ := fuses_of_code hf hfusible hcode
    obtain ⟨A, _, t, L, _, hA, hAshape, hL, hLshape⟩ := hfuses.exists_block
    rw [hagrees.block? K.head rfl, hA, Option.some.injEq] at hB
    subst hB
    obtain ⟨A, hA', rfl⟩ := block?_setCode_eq_some_iff.mp hA
    refine ⟨L, hL, by rw [hLshape.terminator?_eq, hAshape.terminator?_eq], ?_, fun i hi ↦ ?_⟩
    · have hcouples := isChain_couples hf.intact hc hK
      obtain ⟨L', hL', hh⟩ := handler_of_isChain hf.intact hcouples hA' K.last_mem
      rw [hL, Option.some.injEq] at hL'
      exact hL' ▸ hh
    · rw [if_pos rfl] at hi
      subst hi
      rw [Chain.code, hA'] at hcode
      have hjumps := hfusible.linked.imp fun _ _ hlink ↦ hlink.jumps
      obtain ⟨L', hL', hi⟩ := code_last_of_fusedCode hf hjumps hcode
      obtain rfl := Option.some.inj (hL.symm.trans hL')
      exact hi
  · rw [h.others.block? y ⟨hx, hne⟩] at hB
    exact ⟨B, hB, rfl, rfl, fun _ hi ↦ hi⟩

include hexp

/-- A block that was live is so still, by the one that stands for it. -/
theorem live_of_standsBy (hx : f.Live x) (hr : StandsBy (chains f (links f c)) x r) :
    g.Live r := by
  induction hx generalizing r with
  | @entry e he =>
    have hr' := hr.eq fun K hK hrest ↦ by
      obtain ⟨_, _, hlink⟩ := exists_pred (fusible_chains hf.intact hc hK).linked hrest
      exact hlink.not_entry he
    exact hr' ▸ .entry (h.others.entry_eq.trans he)
  | @exported b hb =>
    have hr' := hr.eq fun K hK hrest ↦ by
      obtain ⟨_, _, hlink⟩ := exists_pred (fusible_chains hf.intact hc hK).linked hrest
      exact hlink.unexported hb
    exact hr' ▸ .exported ((hexp b).mpr hb)
  | @leads p x hp hpx ih =>
    by_cases hrest : ∃ K ∈ chains f (links f c), x ∈ K.rest
    · -- The block was taken in, and what leads to it is in its chain.
      obtain ⟨K, hK, hxK⟩ := hrest
      have hpK := List.mem_of_mem_dropLast ((fusible_chains hf.intact hc hK).pred hp hxK hpx)
      have hxK' : x ∈ K.blocks := List.mem_cons_of_mem _ hxK
      rcases hr with ⟨K', hK', hx, rfl⟩ | ⟨hnone, _⟩
      · exact ih (.inl ⟨K', hK', eq_of_mem_chains hf.intact hc hK hK' hxK' hx ▸ hpK, rfl⟩)
      · exact absurd hxK' (hnone K hK)
    · have hkept : Kept f (chains f (links f c)) x :=
        ⟨.leads hp hpx, fun K hK hxK ↦ hrest ⟨K, hK, hxK⟩⟩
      obtain rfl := hr.eq hkept.2
      obtain ⟨q, hq, hends, hstands⟩ := exists_endsAs_of_leads hf hc hp hpx hkept
      exact .leads (ih hstands) ((h.leads_iff hf hc hq hends).mpr hpx)

/-- No links are left. -/
theorem unlinked : Unlinked g := by
  intro a b hab
  have ha := h.closed.of_live hab.live
  have hb := h.closed.of_live hab.liveTarget
  obtain ⟨y, hy⟩ := exists_endsAs (chains f (links f c)) a
  obtain ⟨A, hA, hjump⟩ := hab.link.jumps
  obtain ⟨L, hL, hterm, hhandler, _⟩ := h.exists_origin hf hc ha hy hA
  -- The block that ends as `a` does would have had a link at the end of its chain.
  have hlink : Couples f y b := by
    refine ⟨hy.live hf hc ha.1, ?_, ⟨⟨L, hL, hterm.trans hjump⟩, ?_, ?_, fun x hx hxb ↦ ?_⟩, ?_⟩
    · rcases hy.eq_or_ne hb with rfl | hne
      · exact hab.ne
      · exact hne
    · rw [← hexp]
      exact hab.link.unexported
    · rw [← h.others.entry_eq]
      exact hab.link.not_entry
    · obtain ⟨r, hr, hends, hstands⟩ := exists_endsAs_of_leads hf hc hx hxb hb
      have hra := hab.link.only r (h.live_of_standsBy hf hc hexp hx hstands)
        ((h.leads_iff hf hc hr hends).mpr hxb)
      exact (hra ▸ hends).unique hf hc hy
    · intro L' B hL' hB
      obtain rfl := Option.some.inj (hL.symm.trans hL')
      obtain ⟨code, hB'⟩ := h.exists_block hb hB
      rw [hhandler]
      exact hab.handler_eq A { B with code := code } hA hB'
  obtain ⟨K, hK, hyK⟩ := exists_chain hf.intact hc hlink
  exact hb.2 K hK (mem_rest_of_couples hf.intact hc hK hyK hlink)

/-- If trampolines led in circles, those that now come up lead to trampolines. -/
theorem settling (hcircling : Circling f) : Settling g := by
  refine ⟨h.unlinked hf hc hexp, fun x y hx hxy hne ↦ ?_⟩
  have hxkept := h.closed.of_live hx
  have hykept := h.closed.of_live (hx.leads hxy.leads)
  obtain ⟨w, hw⟩ := exists_endsAs (chains f (links f c)) x
  have hwy : f.Forwards w y := by
    have hunexported := hw.unexported hf hc (mt (hexp x).mpr hxy.unexported)
    obtain ⟨B, hB, _, hcode⟩ := hxy
    obtain ⟨L, hL, _, _, hsame⟩ := h.exists_origin hf hc hxkept hw hB
    refine ⟨L, hL, ?_, hsame _ hcode⟩
    cases hLexp : L.exported with
    | true => exact absurd ⟨L, hL, hLexp⟩ hunexported
    | false => rfl
  have hyw : y ≠ w := by
    rcases hw.eq_or_ne hykept with rfl | hne'
    · exact hne
    · exact hne'
  obtain ⟨z, ⟨Y, hY, hYexp, hYcode⟩, hzy⟩ := hcircling w y hwy hyw
  by_cases hhead : ∃ K ∈ chains f (links f c), y = K.head
  · obtain ⟨K, hK, rfl⟩ := hhead
    obtain ⟨code, hcode, hagrees⟩ := h.heads K hK
    rw [Chain.code, hY] at hcode
    obtain ⟨z', rfl⟩ := fusedCode_of_circling hcircling (isChain_couples hf.intact hc hK)
      ⟨Y, hY, hYexp, hYcode⟩ hzy hcode
    refine ⟨z', { Y with code := [.jump z'] }, ?_, hYexp, rfl⟩
    rw [hagrees.block? K.head rfl, block?_setCode_eq_some_iff]
    exact ⟨Y, hY, by simp⟩
  · refine ⟨z, Y, ?_, hYexp, hYcode⟩
    rw [h.others.block? y ⟨hykept, fun K hK hyK ↦ hhead ⟨K, hK, hyK⟩⟩, hY]

end Welded

/-- Fusing chains leaves no links; where there are none, it does nothing. -/
theorem yields_fuseChains (hf : f.Sound) (hasked : settings.mergeBlocks = true)
    {E : Fault → Prop} :
    fuseChains.Yields f (fun n g es ↦ Recorded settings f (n ≠ 0) g es ∧
      Unlinked g ∧ (Circling f → Settling g) ∧ (Unlinked f → n = 0)) E := by
  apply (yields_welded hf hasked).imp
  rintro n g es ⟨hrecorded, c, hc, hdone, hcount⟩
  have hexp := (hrecorded.edits.descends hf).exported
  refine ⟨hrecorded, hdone.unlinked hf hc hexp, hdone.settling hf hc hexp, fun hunlinked ↦ ?_⟩
  have hnil : chains f (links f c) = [] := by
    rw [List.eq_nil_iff_forall_not_mem]
    intro K hK
    obtain ⟨x, hx⟩ := List.exists_mem_of_ne_nil _ (rest_ne_nil hK)
    obtain ⟨p, _, hp⟩ := exists_pred (isChain_couples hf.intact hc hK) hx
    exact hunlinked p x hp
  rw [hcount, hnil]
  rfl

end Merge

end Bytecode
