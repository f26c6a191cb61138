import Bytecode.Optimize.Pass
import Bytecode.Proofs.Merge.Fusion

/-!
# What passes leave of a function

A pass can be given any function whose layout lists its blocks, valid or not, and may fail half
way. Whatever happens, the layout still lists the live blocks, those blocks are gone that the
events report, and every other block is there under its handle, changed in the way of the pass at
most.
-/

namespace Bytecode

/-! ### What a run does everywhere -/

/-- What a run of a pass does to all blocks alike. -/
structure Renaming where
  /-- The redirections in order: a block and the one that takes its place. -/
  redirections : List (BlockId × BlockId) := []
  /-- The slot of each register. -/
  slot : Register → Register := id

namespace Renaming

variable {ρ σ : Renaming} {b : BlockId}

/-- Where the redirections send a reference. -/
def target (ρ : Renaming) (b : BlockId) : BlockId :=
  ρ.redirections.foldl (fun b r ↦ retarget r.1 r.2 b) b

/-- One run after another. -/
def andThen (ρ σ : Renaming) : Renaming :=
  ⟨ρ.redirections ++ σ.redirections, σ.slot ∘ ρ.slot⟩

private theorem target_andThen (ρ σ : Renaming) (b : BlockId) :
    (ρ.andThen σ).target b = σ.target (ρ.target b) := List.foldl_append

/-- A block that was not replaced stands for itself. -/
theorem target_of_notMem (h : b ∉ ρ.redirections.map Prod.fst) : ρ.target b = b := by
  obtain ⟨redirections, slot⟩ := ρ
  rw [target]
  induction redirections with
  | nil => rfl
  | cons r rest ih =>
    rw [List.map_cons, List.mem_cons, not_or] at h
    rw [List.foldl_cons, retarget, if_neg h.1]
    exact ih h.2

/-- Blocks that were taken in are all replaced by the one that took them in. -/
theorem target_of_mem {l : List BlockId} {slot : Register → Register} (h : b ∈ l) (a : BlockId) :
    target ⟨l.map (·, a), slot⟩ b = a := by
  have hstays (l : List BlockId) : (l.map (·, a)).foldl (fun b r ↦ retarget r.1 r.2 b) a = a := by
    induction l with
    | nil => rfl
    | cons c l ih =>
      have ha : retarget c a a = a := ite_self a
      rw [List.map_cons, List.foldl_cons, ha, ih]
  rw [target]
  induction l with
  | nil => contradiction
  | cons c l ih =>
    rw [List.map_cons, List.foldl_cons]
    by_cases hb : b = c
    · rw [retarget, if_pos hb]
      exact hstays l
    · rw [retarget, if_neg hb]
      exact ih ((List.mem_cons.mp h).resolve_left hb)

end Renaming

private theorem Instr.mapTargets_mapTargets (φ ψ : BlockId → BlockId) (i : Instr) :
    (i.mapTargets φ).mapTargets ψ = i.mapTargets (ψ ∘ φ) := by
  cases i <;> rfl

namespace Block

variable {B : Block}

private theorem terminator?_of_code {front : List Instr} {t : Instr}
    (hcode : B.code = front ++ [t]) (ht : t.isTerminator = true) : B.terminator? = some t := by
  simp [terminator?, hcode, ht]

private theorem body_of_code {front : List Instr} {t : Instr} (hcode : B.code = front ++ [t])
    (ht : t.isTerminator = true) : B.body = front := by
  simp [body, terminator?_of_code hcode ht, hcode]

private theorem terminator?_redirect (old new : BlockId) (B : Block) :
    (B.redirect old new).terminator? = B.terminator?.map (Instr.redirect old new) :=
  terminator?_mapTerminator _ B (Instr.isTerminator_redirect old new)

private theorem body_redirect (old new : BlockId) (B : Block) :
    (B.redirect old new).body = B.body := by
  have hcode : (B.redirect old new).code = (B.mapTerminator (Instr.redirect old new)).code := rfl
  rw [body, terminator?_redirect, Option.isSome_map, hcode, mapTerminator]
  cases h : B.terminator? with
  | none => simp [body, h]
  | some t => simp

/-- The block after redirections. -/
def redirectAll (redirections : List (BlockId × BlockId)) (B : Block) : Block :=
  redirections.foldl (fun B r ↦ B.redirect r.1 r.2) B

/-- Redirections change what the terminator and the handler name, and nothing else. -/
theorem redirectAll_spec (redirections : List (BlockId × BlockId)) (slot : Register → Register)
    (B : Block) :
    (B.redirectAll redirections).exported = B.exported ∧
      (B.redirectAll redirections).handler = B.handler.map (Renaming.target ⟨redirections, slot⟩) ∧
      (B.redirectAll redirections).body = B.body ∧
      (B.redirectAll redirections).terminator? =
        B.terminator?.map (Instr.mapTargets (Renaming.target ⟨redirections, slot⟩)) := by
  induction redirections generalizing B with
  | nil =>
    have hid : Renaming.target ⟨[], slot⟩ = id := rfl
    have hinstr : Instr.mapTargets id = id := funext Instr.mapTargets_id
    rw [hid, hinstr, Option.map_id, Option.map_id]
    exact ⟨rfl, rfl, rfl, rfl⟩
  | cons r rest ih =>
    obtain ⟨hexported, hhandler, hbody, hterm⟩ := ih (B.redirect r.1 r.2)
    have hcomp : Renaming.target ⟨r :: rest, slot⟩ =
        Renaming.target ⟨rest, slot⟩ ∘ retarget r.1 r.2 := rfl
    have hinstr : Instr.mapTargets (Renaming.target ⟨rest, slot⟩) ∘ Instr.redirect r.1 r.2 =
        Instr.mapTargets (Renaming.target ⟨r :: rest, slot⟩) := by
      funext i
      exact Instr.mapTargets_mapTargets _ _ i
    refine ⟨hexported.trans (exported_redirect ..), hhandler.trans ?_,
      hbody.trans (body_redirect ..), hterm.trans ?_⟩
    · rw [handler_redirect, Option.map_map, hcomp]
    · rw [terminator?_redirect, Option.map_map, hinstr]

end Block

/-! ### What becomes of a block -/

/-- Block `b` and those of the list after it, one after the other, are these instructions and at
the end this terminator. -/
inductive Func.Joins (f : Func) : BlockId → List BlockId → List Instr → Option Instr → Prop
  | last {b : BlockId} {B : Block} : f.block? b = some B → Joins f b [] B.body B.terminator?
  | next {b c : BlockId} {B : Block} {l : List BlockId} {body : List Instr} {t : Option Instr} :
      f.block? b = some B → Joins f c l body t → Joins f b (c :: l) (B.body ++ body) t

namespace Func.Joins

variable {f : Func} {b c : BlockId} {l l' : List BlockId} {body body' : List Instr}
  {t t' : Option Instr}

private theorem append (h : f.Joins b l body t) (h' : f.Joins c l' body' t') :
    f.Joins b (l ++ c :: l') (body ++ body') t' := by
  induction h with
  | last hB => exact .next hB h'
  | next hB _ ih =>
    rw [List.append_assoc]
    exact .next hB ih

private theorem contains (h : f.Joins b l body t) :
    f.contains b = true ∧ ∀ x ∈ l, f.contains x = true := by
  induction h with
  | last hB => exact ⟨contains_of_block? hB, by simp⟩
  | next hB _ ih => exact ⟨contains_of_block? hB, List.forall_mem_cons.mpr ih⟩

end Func.Joins

/-- The second block is the first one, which may have taken in others of the function after its own
instructions; these are gone, and it has taken their place. All that it names is redirected, as are
the references to all blocks that are gone. -/
structure Block.Grows (f : Func) (gone : List BlockId) (ρ : Renaming) (b : BlockId)
    (B B' : Block) : Prop where
  redirections : ρ.redirections.map Prod.fst = gone
  exported : B'.exported = B.exported
  handler : B'.handler = B.handler.map ρ.target
  code : ∃ l t, f.Joins b l B'.body t ∧ B'.terminator? = t.map (Instr.mapTargets ρ.target) ∧
    ∀ x ∈ l, x ∈ gone ∧ ρ.target x = b

/-- What a pass may make of block `b` of the function if it stays; `ρ` is the same for all
blocks. -/
def Pass.Keeps (p : Pass) (f : Func) (gone : List BlockId) (ρ : Renaming) (b : BlockId)
    (B B' : Block) : Prop :=
  match p with
  | handlers => B' = B ∨ B.canThrow = false ∧ B' = { B with handler := none }
  | merge => B.Grows f gone ρ b B'
  | placement => B' = B
  | slots => B' = B.mapCode (Instr.mapRegisters ρ.slot ρ.slot)

variable {p : Pass} {f g k : Func} {gone gone' : List BlockId} {ρ σ : Renaming} {b t : BlockId}
  {B B' B'' : Block}

/-- A block that is redirected only has taken in none. -/
theorem Block.grows_redirectAll (hB : f.block? b = some B)
    (redirections : List (BlockId × BlockId)) :
    B.Grows f (redirections.map Prod.fst) ⟨redirections, id⟩ b (B.redirectAll redirections) := by
  obtain ⟨hexported, hhandler, hbody, hterm⟩ := redirectAll_spec redirections id B
  refine ⟨rfl, hexported, hhandler, [], B.terminator?, ?_, hterm, by simp⟩
  rw [hbody]
  exact .last hB

/-- What is joined in the second function was joined in the first, if each of its blocks there is
one that has grown. -/
theorem Func.Joins.of_grows {l : List BlockId} {body : List Instr} {t : Option Instr}
    (hgrows : ∀ x X', g.block? x = some X' → ∃ X : Block, X.Grows f gone ρ x X')
    (h : g.Joins b l body t) :
    ∃ l' t', f.Joins b l' body t' ∧ t = t'.map (Instr.mapTargets ρ.target) ∧
      ∀ x ∈ l', (x ∈ gone ∧ ρ.target x ∈ b :: l) ∨ x ∈ l := by
  induction h with
  | last hB' =>
    obtain ⟨_, hgrow⟩ := hgrows _ _ hB'
    obtain ⟨l', t', hjoins, hterm, htaken⟩ := hgrow.code
    refine ⟨l', t', hjoins, hterm, fun x hx ↦ .inl ⟨(htaken x hx).1, ?_⟩⟩
    rw [(htaken x hx).2]
    exact List.mem_cons_self
  | @next b c _ l _ _ hB' _ ih =>
    obtain ⟨_, hgrow⟩ := hgrows _ _ hB'
    obtain ⟨l', t', hjoins, _, htaken⟩ := hgrow.code
    obtain ⟨l'', t'', hrest, hterm, htaken'⟩ := ih
    refine ⟨l' ++ c :: l'', t'', hjoins.append hrest, hterm, fun x hx ↦ ?_⟩
    rcases List.mem_append.mp hx with hx | hx
    · refine .inl ⟨(htaken x hx).1, ?_⟩
      rw [(htaken x hx).2]
      exact List.mem_cons_self
    · rcases List.mem_cons.mp hx with rfl | hx
      · exact .inr List.mem_cons_self
      · rcases htaken' x hx with ⟨hgone, htarget⟩ | hx
        · exact .inl ⟨hgone, List.mem_cons_of_mem b htarget⟩
        · exact .inr (List.mem_cons_of_mem c hx)

/-- A block that grows twice has grown, if all blocks that it took in the second time had grown. -/
theorem Block.Grows.trans
    (hgrows : ∀ x X', g.block? x = some X' → ∃ X : Block, X.Grows f gone ρ x X')
    (hfresh : ∀ x, g.contains x = true → x ∉ gone) (hb : b ∉ gone') (h : B.Grows f gone ρ b B')
    (h' : B'.Grows g gone' σ b B'') :
    B.Grows f (gone ++ gone') (ρ.andThen σ) b B'' := by
  have htarget : (ρ.andThen σ).target = σ.target ∘ ρ.target := funext (Renaming.target_andThen ρ σ)
  have hstays : σ.target b = b := Renaming.target_of_notMem (h'.redirections ▸ hb)
  refine ⟨?_, h'.exported.trans h.exported, ?_, ?_⟩
  · rw [Renaming.andThen, List.map_append, h.redirections, h'.redirections]
  · rw [h'.handler, h.handler, Option.map_map, htarget]
  · obtain ⟨l', t', hjoins', hterm', htaken'⟩ := h'.code
    obtain ⟨l, t, hjoins, rfl, htaken⟩ := hjoins'.of_grows hgrows
    refine ⟨l, t, hjoins, ?_, fun x hx ↦ ?_⟩
    · have hinstr : Instr.mapTargets σ.target ∘ Instr.mapTargets ρ.target =
          Instr.mapTargets (ρ.andThen σ).target := by
        rw [htarget]
        funext i
        exact Instr.mapTargets_mapTargets _ _ i
      rw [hterm', Option.map_map, hinstr]
    · rw [List.mem_append, Renaming.target_andThen]
      rcases htaken x hx with ⟨hgone, hy⟩ | hx
      · refine ⟨.inl hgone, ?_⟩
        rcases List.mem_cons.mp hy with hy | hy
        · rw [hy, hstays]
        · exact (htaken' _ hy).2
      · have hnot := hfresh x (hjoins'.contains.2 x hx)
        have hself : ρ.target x = x := Renaming.target_of_notMem (h.redirections ▸ hnot)
        rw [hself]
        exact ⟨.inr (htaken' x hx).1, (htaken' x hx).2⟩

private theorem Pass.Keeps.refl (p : Pass) (hB : f.block? b = some B) : p.Keeps f [] {} b B B := by
  cases p with
  | handlers => exact .inl rfl
  | merge => exact Block.grows_redirectAll hB []
  | placement => rfl
  | slots =>
    rw [Pass.Keeps, Block.mapCode, Instr.mapRegisters_id, List.map_id]

/-! ### What becomes of a function -/

namespace Func

/-- The blocks that are gone are the given ones, and the pass has kept the others. -/
structure Spared (p : Pass) (f : Func) (gone : List BlockId) (g : Func) : Prop where
  wf : g.WF
  contains_iff : ∀ b, g.contains b = true ↔ f.contains b = true ∧ b ∉ gone
  keeps : ∃ ρ : Renaming, ∀ b B B', f.block? b = some B → g.block? b = some B' →
    p.Keeps f gone ρ b B B'

private theorem Spared.refl (p : Pass) (hf : f.WF) : Spared p f [] f := by
  refine ⟨hf, by simp, {}, fun b B B' hB hB' ↦ ?_⟩
  obtain rfl := Option.some.inj (hB.symm.trans hB')
  exact .refl p hB

private theorem Spared.trans (h : Spared p f gone g) (h' : Spared p g gone' k) :
    Spared p f (gone ++ gone') k := by
  obtain ⟨ρ, hρ⟩ := h.keeps
  obtain ⟨σ, hσ⟩ := h'.keeps
  refine ⟨h'.wf, fun b ↦ ?_, ρ.andThen σ, fun b B B'' hB hB'' ↦ ?_⟩
  · rw [h'.contains_iff, h.contains_iff, List.mem_append, not_or, and_assoc]
  obtain ⟨hlive, hb⟩ := (h'.contains_iff b).mp (contains_of_block? hB'')
  obtain ⟨B', hB'⟩ := Func.contains_iff.mp hlive
  have hfirst := hρ b B B' hB hB'
  have hsecond := hσ b B' B'' hB' hB''
  cases p with
  | handlers =>
    rcases hfirst with rfl | ⟨hquiet, rfl⟩
    · exact hsecond
    · rcases hsecond with rfl | ⟨_, rfl⟩
      · exact .inr ⟨hquiet, rfl⟩
      · exact .inr ⟨hquiet, rfl⟩
  | merge =>
    refine Block.Grows.trans (fun x X' hX' ↦ ?_) (fun x hx ↦ ((h.contains_iff x).mp hx).2) hb
      hfirst hsecond
    obtain ⟨X, hX⟩ := Func.contains_iff.mp ((h.contains_iff x).mp (contains_of_block? hX')).1
    exact ⟨X, hρ x X X' hX hX'⟩
  | placement => exact Eq.trans hsecond hfirst
  | slots =>
    have hcomp : Instr.mapRegisters σ.slot σ.slot ∘ Instr.mapRegisters ρ.slot ρ.slot =
        Instr.mapRegisters (ρ.andThen σ).slot (ρ.andThen σ).slot := by
      funext i
      cases i <;> rfl
    rw [Pass.Keeps] at hfirst hsecond ⊢
    rw [hsecond, hfirst, Block.mapCode, Block.mapCode, Block.mapCode, List.map_map, hcomp]

/-- The blocks that a pass spares become what it makes of them, all by one renaming. -/
theorem Spared.exists_renaming (h : Spared p f gone g) :
    ∃ ρ : Renaming, ∀ b B, f.block? b = some B → b ∉ gone →
      ∃ B', g.block? b = some B' ∧ p.Keeps f gone ρ b B B' := by
  obtain ⟨ρ, hρ⟩ := h.keeps
  refine ⟨ρ, fun b B hB hb ↦ ?_⟩
  obtain ⟨B', hB'⟩ := Func.contains_iff.mp ((h.contains_iff b).mpr ⟨contains_of_block? hB, hb⟩)
  exact ⟨B', hB', hρ b B B' hB hB'⟩

private theorem spared_removeBlock (hf : f.WF) (b : BlockId) :
    Spared .placement f [b] (f.removeBlock b) := by
  refine ⟨hf.removeBlock b, fun x ↦ ?_, {}, fun x B B' hB hB' ↦ ?_⟩
  · rw [contains_removeBlock, and_comm, List.mem_singleton]
  · rw [block?_removeBlock] at hB'
    split at hB'
    · contradiction
    · exact Option.some.inj (hB'.symm.trans hB)

private theorem spared_clearHandler (hf : f.WF) (hquiet : f.CannotThrow b) :
    Spared .handlers f [] (f.modifyBlock b fun B ↦ { B with handler := none }) := by
  refine ⟨hf.modifyBlock b _, by simp [contains_modifyBlock], {}, fun x B B' hB hB' ↦ ?_⟩
  rw [block?_modifyBlock, hB] at hB'
  split at hB'
  · next hx =>
    obtain rfl := Option.some.inj hB'
    exact .inr ⟨hquiet B (hx ▸ hB), rfl⟩
  · exact .inl (Option.some.inj hB').symm

private theorem spared_rename (hf : f.WF) (m : Register → Register) (count : Nat) :
    Spared .slots f [] (Slots.rename m count f) := by
  have hrenames := Slots.renames_rename m count f
  refine ⟨⟨hf.nodup, fun x ↦ ?_⟩, fun x ↦ ?_, { slot := m }, fun x B B' hB hB' ↦ ?_⟩
  · rw [hrenames.contains_eq]
    exact hf.mem_layout x
  · simp [hrenames.contains_eq]
  · rw [hrenames.block?, hB, Option.map_some, Option.some.injEq] at hB'
    exact hB'.symm

/-- A block is replaced by another one and goes. -/
theorem spared_bypass (hf : f.WF) (t T : BlockId) :
    Spared .merge f [t] ((f.redirect t T).removeBlock t) := by
  have hg := hf.redirect t T
  refine ⟨hg.removeBlock t, fun x ↦ ?_, ⟨[(t, T)], id⟩, fun x B B' hB hB' ↦ ?_⟩
  · rw [contains_removeBlock, contains_redirect, and_comm, List.mem_singleton]
  · rw [block?_removeBlock, block?_redirect, hB] at hB'
    split at hB'
    · contradiction
    · obtain rfl := Option.some.inj hB'
      exact Block.grows_redirectAll hB [(t, T)]

end Func

/-! ### Rules -/

namespace Transform

open Func

variable {α β : Type}

/-- Whether the transformation fails or not, the blocks that are gone are those that its events
report, and the pass has kept the others. -/
def Spares (p : Pass) (x : Transform α) (f : Func) : Prop :=
  Spared p f ((x f).events.flatMap Event.removes) (x f).func

private theorem spares_pure (p : Pass) (hf : f.WF) (a : α) :
    (pure a : Transform α).Spares p f := .refl p hf

private theorem spares_current (p : Pass) (hf : f.WF) : current.Spares p f := .refl p hf

private theorem spares_ofExcept (p : Pass) (hf : f.WF) (r : Except Fault α) :
    (ofExcept r).Spares p f :=
  .refl p hf

private theorem spares_update {φ : Func → Func} (h : Spared p f [] (φ f)) :
    (update φ).Spares p f := h

private theorem spares_record (p : Pass) (hf : f.WF) {e : Event} (he : e.removes = []) :
    (record e).Spares p f := by
  have hnone : (record e f).events.flatMap Event.removes = [] := by
    have hsame : Event.removes { e with function := some f.name } = e.removes := rfl
    rw [record, List.flatMap_singleton, hsame, he]
  rw [Spares, hnone]
  exact .refl p hf

private theorem Spares.bind {x : Transform α} {k : α → Transform β} (hx : x.Spares p f)
    (hk : x.Ensures f fun a g ↦ g.WF → (k a).Spares p g) : (x >>= k).Spares p f := by
  cases h : (x f).result with
  | error fault =>
    rw [Spares, bind_apply_of_error k h]
    exact hx
  | ok a =>
    rw [Spares, bind_apply_of_ok k h, List.flatMap_append]
    exact Spared.trans hx (hk a h (Spared.wf hx))

/-- Each step of a loop may rely on an invariant of the steps before. -/
theorem spares_sumOver {step : β → Transform Nat} (I : List β → Func → Prop) {l : List β}
    (hf : f.WF) (hl : I l f) (hstep : ∀ b rest g, g.WF → I (b :: rest) g →
      (step b).Spares p g ∧ (step b).Ensures g fun _ k ↦ I rest k) :
    (sumOver step l).Spares p f := by
  induction l generalizing f with
  | nil => exact spares_pure p hf 0
  | cons b rest ih =>
    obtain ⟨hspares, hnext⟩ := hstep b rest f hf hl
    rw [sumOver]
    apply hspares.bind
    intro m hm hwf
    apply (ih hwf (hnext m hm)).bind
    intro _ _ hwf'
    exact spares_pure p hwf' _

end Transform

/-! ### The passes -/

open Func Transform

variable {settings : Settings}

private theorem Handlers.spares_run (hf : f.WF) : run.Spares .handlers f := by
  rw [run]
  apply (spares_current _ hf).bind
  rw [ensures_current]
  intro _
  refine (spares_sumOver (fun l g ↦ ∀ b ∈ l, g.CannotThrow b.1) hf
    (fun b hb ↦ cannotThrow_of_mem_idle hf hb) ?_).bind fun _ _ hwf ↦ spares_pure _ hwf _
  intro b rest g hg hquiet
  constructor
  · exact (spares_update (spared_clearHandler hg (hquiet b List.mem_cons_self))).bind fun _ _ hwf ↦
      (spares_record _ hwf rfl).bind fun _ _ hwf' ↦ spares_pure _ hwf' 1
  · simp only [clear, ensures_bind, ensures_update, ensures_record, ensures_pure]
    intro x hx
    exact cannotThrow_clearHandler (hquiet x (List.mem_cons_of_mem b hx))

private theorem Placement.spares_run (hf : f.WF) : run.Spares .placement f := by
  rw [run]
  apply (spares_current _ hf).bind
  rw [ensures_current]
  intro _
  refine (spares_ofExcept _ hf _).bind fun c _ _ ↦ ?_
  refine (spares_sumOver (fun _ _ ↦ True) hf trivial ?_).bind fun _ _ hwf ↦ spares_pure _ hwf _
  intro b rest g hg _
  exact ⟨spared_removeBlock hg b, fun _ _ ↦ trivial⟩

private theorem Slots.spares_run (hf : f.WF) : (run settings).Spares .slots f := by
  have hreduce {g : Func} (hg : g.WF) : (reduce settings).Spares .slots g := by
    rw [reduce]
    apply (spares_current _ hg).bind
    rw [ensures_current]
    intro _
    refine (spares_ofExcept _ hg _).bind fun live _ _ ↦ ?_
    dsimp only
    split
    · exact spares_pure _ hg false
    · exact (spares_update (spared_rename hg _ _)).bind fun _ _ hwf ↦
        (spares_record _ hwf rfl).bind fun _ _ hwf' ↦ spares_pure _ hwf' true
  rw [run]
  apply (spares_current _ hf).bind
  rw [ensures_current]
  intro _
  refine (spares_ofExcept _ hf _).bind fun obstacle _ _ ↦ ?_
  cases obstacle with
  | some reason => exact (spares_record _ hf rfl).bind fun _ _ hwf ↦ spares_pure _ hwf false
  | none => exact hreduce hf

namespace Merge

variable {K : Chain} {a head : BlockId} {handler : Option BlockId} {code : List Instr}
  {l : List BlockId}

private theorem spares_removeTrampolines (hf : f.WF) : removeTrampolines.Spares .merge f := by
  rw [removeTrampolines]
  apply (spares_current _ hf).bind
  rw [ensures_current]
  intro _
  apply spares_sumOver (fun _ _ ↦ True) hf trivial
  intro t rest g hg _
  refine ⟨?_, fun _ _ ↦ trivial⟩
  rw [removeTrampoline]
  split
  · next T _ => exact spared_bypass hg t T
  · exact spares_pure _ hg 0

/-- Every block has a terminator. -/
def Terminated (f : Func) : Prop := ∀ b B, f.block? b = some B → B.terminator?.isSome = true

private theorem terminated_of_ofFunc (hw : f.WF) {c : FlowGraph} (h : FlowGraph.ofFunc f = .ok c) :
    Terminated f := by
  intro b B hB
  obtain ⟨ts, hts⟩ := FlowGraph.exists_successors_of_ofFunc hw h (contains_of_block? hB)
  rw [successors, hB] at hts
  cases ht : B.terminator? with
  | none => simp [ht] at hts
  | some t => rfl

private theorem Terminated.joins (h : Terminated f) {l : List BlockId} {body : List Instr}
    {t : Option Instr} (hjoins : f.Joins b l body t) : t.isSome = true := by
  induction hjoins with
  | last hB => exact h _ _ hB
  | next _ _ ih => exact ih

private theorem Terminated.spared (h : Terminated f) {gone : List BlockId}
    (hg : Spared .merge f gone g) : Terminated g := by
  intro b B' hB'
  obtain ⟨B, hB⟩ := Func.contains_iff.mp ((hg.contains_iff b).mp (contains_of_block? hB')).1
  obtain ⟨ρ, hρ⟩ := hg.keeps
  obtain ⟨l, t, hjoins, hterm, _⟩ := Block.Grows.code (hρ b B B' hB hB')
  rw [hterm, Option.isSome_map]
  exact h.joins hjoins

/-- Where all blocks have terminators, the code of a chain is that of its blocks one after the
other. -/
theorem joins_fusedCode (hf : Terminated f)
    (hcode : fusedCode f head handler (a :: l) = .ok code) :
    ∃ front t, f.Joins a l front (some t) ∧ code = front ++ [t] ∧ t.isTerminator = true := by
  induction l generalizing a code with
  | nil =>
    obtain ⟨A, hA, _, rfl⟩ := fusedCode_singleton_eq_ok_iff.mp hcode
    obtain ⟨t, ht⟩ := Option.isSome_iff_exists.mp (hf a A hA)
    exact ⟨A.body, t, ht ▸ .last hA, Block.code_eq_of_terminator? ht,
      Block.isTerminator_of_terminator? ht⟩
  | cons b l ih =>
    obtain ⟨A, rest, hA, _, hrest, rfl⟩ :=
      (fusedCode_cons_eq_ok_iff (List.cons_ne_nil b l)).mp hcode
    obtain ⟨front, t, hjoins, rfl, ht⟩ := ih hrest
    exact ⟨A.body ++ front, t, .next hA hjoins, (List.append_assoc ..).symm, ht⟩

/-- The head of a chain takes in the others. -/
theorem grows_head (hf : Terminated f) (hcode : K.code f = .ok code) (B : Block) :
    B.Grows f K.rest ⟨K.rest.map (·, K.head), id⟩ K.head
      (Block.redirectAll (K.rest.map (·, K.head)) { B with code := code }) := by
  obtain ⟨_, _, hfused⟩ := Chain.code_eq_ok_iff.mp hcode
  obtain ⟨front, t, hjoins, rfl, ht⟩ := joins_fusedCode hf hfused
  obtain ⟨hexported, hhandler, hbody, hterm⟩ :=
    Block.redirectAll_spec (K.rest.map (·, K.head)) id { B with code := front ++ [t] }
  refine ⟨?_, hexported, hhandler, K.rest, some t, ?_, ?_, fun x hx ↦
    ⟨hx, Renaming.target_of_mem hx K.head⟩⟩
  · rw [List.map_map]
    exact List.map_id _
  · rw [hbody, Block.body_of_code rfl ht]
    exact hjoins
  · rw [hterm, Block.terminator?_of_code rfl ht]

private theorem block?_foldl_dropLink (a : BlockId) (l : List BlockId) (f : Func) (x : BlockId) :
    (l.foldl (dropLink a) f).block? x =
      if x ∈ l then none else (f.block? x).map (Block.redirectAll (l.map (·, a))) := by
  induction l generalizing f with
  | nil => cases hx : f.block? x <;> simp [Block.redirectAll, hx]
  | cons b l ih =>
    rw [List.foldl_cons, ih, block?_dropLink]
    by_cases hb : x = b
    · simp [hb]
    · by_cases hl : x ∈ l
      · simp [hl]
      · cases f.block? x <;> simp [hb, hl, Block.redirectAll]

private theorem wf_foldl_dropLink (hf : f.WF) (a : BlockId) (l : List BlockId) :
    (l.foldl (dropLink a) f).WF := by
  induction l generalizing f with
  | nil => exact hf
  | cons b l ih => exact ih ((hf.removeBlock b).redirect b a)

private theorem spared_collapse (hf : f.WF) (hterm : Terminated f) (hcode : K.code f = .ok code) :
    Spared .merge f K.rest (K.collapse code f) := by
  have hblock (x : BlockId) := block?_foldl_dropLink K.head K.rest
    (f.modifyBlock K.head fun B ↦ { B with code := code }) x
  refine ⟨wf_foldl_dropLink (hf.modifyBlock _ _) _ _, fun x ↦ ?_,
    ⟨K.rest.map (·, K.head), id⟩, fun x B B' hB hB' ↦ ?_⟩
  · rw [← contains_modifyBlock (f := f) (b := K.head) (fun B ↦ { B with code := code }) x]
    rw [contains, Chain.collapse, hblock]
    by_cases hx : x ∈ K.rest <;> simp [hx, contains]
  · have hids : (K.rest.map (·, K.head)).map Prod.fst = K.rest := by
      rw [List.map_map]
      exact List.map_id _
    rw [Chain.collapse, hblock, block?_modifyBlock, hB] at hB'
    split at hB'
    · contradiction
    · split at hB'
      · next hx =>
        obtain rfl := Option.some.inj hB'
        subst hx
        exact grows_head hterm hcode B
      · obtain rfl := Option.some.inj hB'
        have hgrows := Block.grows_redirectAll hB (K.rest.map (·, K.head))
        rwa [hids] at hgrows

private theorem spares_fuse (hf : f.WF) (hterm : Terminated f) : (fuse K).Spares .merge f := by
  rw [fuse]
  apply (spares_current _ hf).bind
  rw [ensures_current]
  intro _
  apply (spares_ofExcept _ hf _).bind
  rw [ensures_ofExcept]
  intro code hcode _
  have hcollapse : Spared .merge f (K.rest ++ []) (K.collapse code f) := by
    rw [List.append_nil]
    exact spared_collapse hf hterm hcode
  exact hcollapse

private theorem spares_fuseChains (hf : f.WF) : fuseChains.Spares .merge f := by
  rw [fuseChains]
  apply (spares_current _ hf).bind
  rw [ensures_current]
  intro _
  apply (spares_ofExcept _ hf _).bind
  rw [ensures_ofExcept]
  intro c hc _
  apply spares_sumOver (fun _ g ↦ Terminated g) hf (terminated_of_ofFunc hf hc)
  intro K rest g hg hterm
  have hspares := spares_fuse (K := K) hg hterm
  exact ⟨hspares, fun _ _ ↦ hterm.spared hspares⟩

private theorem spares_rounds (hf : f.WF) (limit left : Nat) (changed : Bool) :
    (rounds limit left changed).Spares .merge f := by
  induction left generalizing f changed with
  | zero =>
    rw [rounds]
    exact (spares_current _ hf).bind fun _ _ hwf ↦ spares_ofExcept _ hwf _
  | succ left ih =>
    have hround : round.Spares .merge f := by
      rw [round]
      exact (spares_removeTrampolines hf).bind fun _ _ hwf ↦
        (spares_fuseChains hwf).bind fun _ _ hwf' ↦ spares_pure _ hwf' _
    rw [rounds]
    refine hround.bind fun n _ hwf ↦ ?_
    split
    · exact spares_pure _ hwf changed
    · exact ih hwf true

end Merge

/-- The blocks that a pass removes are those that its events report, and it keeps all others. -/
theorem Pass.spares_run (hf : f.WF) (p : Pass) : (p.run settings).Spares p f := by
  cases p with
  | handlers => exact Handlers.spares_run hf
  | merge => exact Merge.spares_rounds hf _ _ false
  | placement => exact Placement.spares_run hf
  | slots => exact Slots.spares_run hf

end Bytecode
