import Bytecode.Proofs.Flow.Edges
import Bytecode.Proofs.Func.Places
import Bytecode.Proofs.Optimize.Ensures
import Bytecode.Proofs.Registers.Sharing
import Mathlib.Data.List.Chain
import Mathlib.Logic.Relation

/-!
# Last writes

A read gets what the last write of its register on the path left there. Where control only runs
forward, positions grow along every path, so what the live ranges keep apart in the layout is apart
on the path too: after the registers have moved to their slots, the last write of the slot is the
write that was last before.
-/

namespace Bytecode

namespace Instr

variable (m : Register → Register) (i : Instr)

/-- Renaming registers makes and unmakes no terminators. -/
@[simp] theorem isTerminator_mapRegisters :
    (i.mapRegisters m m).isTerminator = i.isTerminator := by
  simp [isTerminator]

/-- Renaming registers keeps whether an instruction can throw. -/
@[simp] theorem canThrow_mapRegisters : (i.mapRegisters m m).canThrow = i.canThrow := by
  simp [canThrow]

/-- A renamed instruction writes the renamed register. -/
@[simp] theorem writes_mapRegisters : (i.mapRegisters m m).writes = i.writes.map m := by
  cases i <;> rfl

/-- Registers mapped to themselves leave the instructions. -/
theorem mapRegisters_id : mapRegisters id id = id := by
  funext i
  cases i <;> rfl

end Instr

/-- A map of code that makes and unmakes no terminators maps the terminator. -/
theorem Block.terminator?_mapCode {φ : Instr → Instr}
    (hφ : ∀ i, (φ i).isTerminator = i.isTerminator) (B : Block) :
    (B.mapCode φ).terminator? = B.terminator?.map φ := by
  rw [terminator?, terminator?, mapCode, List.getLast?_map]
  cases B.code.getLast? with
  | none => rfl
  | some t => cases ht : t.isTerminator <;> simp [Option.filter, hφ, ht]

namespace Func

variable {f g : Func} {a b : BlockId} {p q : Place} {path : List Place} {m : Register → Register}
  {r : Register} {n : Nat}

/-! ### Paths -/

/-- Control passes from one instruction to another: it proceeds, or an instruction that throws
makes it unwind. -/
def Passes (f : Func) (p q : Place) : Prop :=
  f.Proceeds p q ∨ f.Unwinds p q ∧ ∃ i, f.instrAt? p = some i ∧ i.canThrow = true

/-- The instructions of a run from the entry, one after the other. -/
structure IsPath (f : Func) (path : List Place) : Prop where
  starts : ∃ e, f.entry? = some e ∧ path.head? = some ⟨e, 0⟩
  passes : path.IsChain f.Passes

instance (p q : Place) : Decidable (f.Passes p q) :=
  inferInstanceAs (Decidable (_ ∨ _ ∧ ∃ i ∈ f.instrAt? p, i.canThrow = true))

instance (path : List Place) : Decidable (f.IsPath path) :=
  decidable_of_iff ((∃ e ∈ f.entry?, path.head? = some ⟨e, 0⟩) ∧ path.IsChain f.Passes)
    ⟨fun h ↦ ⟨h.1, h.2⟩, fun h ↦ ⟨h.1, h.2⟩⟩

/-- The register that step `n` of a path writes. -/
def writtenAt? (f : Func) (path : List Place) (n : Nat) : Option Register :=
  (path[n]?.bind f.instrAt?).bind Instr.writes

/-- The last of the first `n` steps of a path that writes a register. Only the steps that `counts`
selects are looked at: an instruction that throws may have left its register alone. -/
def lastWrite? (f : Func) (path : List Place) (counts : Nat → Bool) (r : Register) :
    Nat → Option Nat
  | 0 => none
  | n + 1 =>
    if counts n = true ∧ f.writtenAt? path n = some r then some n
    else f.lastWrite? path counts r n

/-- A write on a path is that of the instruction at the place of the step. -/
theorem exists_place_of_writtenAt? (h : f.writtenAt? path n = some r) :
    ∃ p i, path[n]? = some p ∧ f.instrAt? p = some i ∧ i.writes = some r := by
  obtain ⟨i, hi, hr⟩ := Option.bind_eq_some_iff.mp h
  obtain ⟨p, hp, hi⟩ := Option.bind_eq_some_iff.mp hi
  exact ⟨p, i, hp, hi, hr⟩

/-- Where every edge goes forward in the layout, so does every step. -/
theorem Passes.position_lt (hw : f.WF) (hfwd : ∀ a b, f.Follows a b → f.Precedes a b)
    (h : f.Passes p q) : f.position p < f.position q := by
  have hedge {a b : BlockId} {n : Nat} {i : Instr} (hi : f.instrAt? ⟨a, n⟩ = some i)
      (hab : f.Follows a b) : f.position ⟨a, n⟩ < f.position ⟨b, 0⟩ :=
    hw.position_lt_of_precedes (hfwd a b hab) hi 0
  cases h with
  | inl h =>
    cases h with
    | next => exact Nat.lt_succ_self _
    | leap hi _ hab => exact hedge hi (.inl hab)
  | inr h =>
    obtain ⟨h, i, hi, _⟩ := h
    cases h with
    | handler hB _ hh => exact hedge hi (.inr ⟨_, hB, hh⟩)

/-- Where control runs forward, positions grow along every path. -/
theorem IsPath.position_lt (hw : f.WF) (hfwd : ∀ a b, f.Follows a b → f.Precedes a b)
    (hpath : f.IsPath path) {j k : Nat} (hjk : j < k) (hp : path[j]? = some p)
    (hq : path[k]? = some q) : f.position p < f.position q := by
  have hchain : (path.map f.position).IsChain (· < ·) := by
    rw [List.isChain_map]
    exact hpath.passes.imp fun _ _ h ↦ h.position_lt hw hfwd
  obtain ⟨hj, rfl⟩ := List.getElem?_eq_some_iff.mp hp
  obtain ⟨hk, rfl⟩ := List.getElem?_eq_some_iff.mp hq
  have hlt :=
    List.pairwise_iff_getElem.mp hchain.pairwise j k (by simpa using hj) (by simpa using hk)
    hjk
  simpa using hlt

/-! ### Renamed registers -/

/-- The two functions are the same but for the names of registers and their number. -/
structure Renames (m : Register → Register) (f g : Func) : Prop where
  name : g.name = f.name
  argCount : g.argCount = f.argCount
  constants : g.constants = f.constants
  layout : g.layout = f.layout
  block? : ∀ b, g.block? b = (f.block? b).map (Block.mapCode (Instr.mapRegisters m m))

/-- The renamed function has the renamed instruction at every place. -/
theorem Renames.instrAt? (h : Renames m f g) (p : Place) :
    g.instrAt? p = (f.instrAt? p).map (Instr.mapRegisters m m) := by
  rw [Func.instrAt?, Func.instrAt?, h.block?]
  cases f.block? p.block with
  | none => rfl
  | some B => exact List.getElem?_map

/-- Each step of a path writes the renamed register. -/
theorem Renames.writtenAt? (h : Renames m f g) (path : List Place) (n : Nat) :
    g.writtenAt? path n = (f.writtenAt? path n).map m := by
  rw [Func.writtenAt?, Func.writtenAt?]
  cases path[n]? with
  | none => rfl
  | some p =>
    rw [Option.bind_some, Option.bind_some, h.instrAt?]
    cases f.instrAt? p with
    | none => rfl
    | some i => exact i.writes_mapRegisters m

/-- Renaming registers keeps the successors of every block. -/
theorem Renames.successors (h : Renames m f g) (b : BlockId) :
    g.successors b = f.successors b := by
  rw [Func.successors, Func.successors, h.block?, h.name]
  cases f.block? b with
  | none => rfl
  | some B =>
    dsimp only [Option.map_some]
    rw [Block.terminator?_mapCode fun i ↦ i.isTerminator_mapRegisters m]
    cases B.terminator? with
    | none => rfl
    | some t =>
      dsimp only [Option.map_some]
      rw [Block.mapCode, List.length_map]
      cases t <;> simp only [terminatorTargets, Instr.mapRegisters, table?, h.constants] <;> rfl

private theorem Renames.passes_iff (h : Renames m f g) : g.Passes p q ↔ f.Passes p q := by
  have hleads (a b : BlockId) : g.Leads a b ↔ f.Leads a b := by
    rw [Leads, Leads, h.successors]
  rw [Passes, Passes, proceeds_iff, proceeds_iff, unwinds_iff, unwinds_iff, h.instrAt?, h.block?]
  simp [hleads, Block.mapCode]

/-- Renaming registers does not touch control. -/
theorem Renames.isPath_iff (h : Renames m f g) : g.IsPath path ↔ f.IsPath path := by
  have hentry : Func.entry? g = f.entry? := by
    rw [ entry?, h.layout, ← entry?]
  have hpasses : g.Passes = f.Passes := by
    funext p q
    exact propext h.passes_iff
  constructor
  · rintro ⟨hstarts, hchain⟩
    rw [hentry] at hstarts
    rw [hpasses] at hchain
    exact ⟨hstarts, hchain⟩
  · rintro ⟨hstarts, hchain⟩
    rw [← hentry] at hstarts
    rw [← hpasses] at hchain
    exact ⟨hstarts, hchain⟩

/-- The last writes are the same if no other register comes into the slot of one that is in use. -/
theorem Renames.lastWrite?_eq (h : Renames m f g) {counts : Nat → Bool} {used : Prop}
    (hslot : ∀ j < n, ∀ q, f.writtenAt? path j = some q → m q = m r →
      (used ∨ ∃ k < j, counts k = true ∧ f.writtenAt? path k = some r) → q = r)
    (hr : used ∨ ∃ k < n, counts k = true ∧ f.writtenAt? path k = some r) :
    g.lastWrite? path counts (m r) n = f.lastWrite? path counts r n := by
  induction n with
  | zero => rfl
  | succ n ih =>
    rw [lastWrite?, lastWrite?, h.writtenAt?]
    by_cases hn : counts n = true ∧ f.writtenAt? path n = some r
    · rw [if_pos hn, if_pos ⟨hn.1, by rw [hn.2, Option.map_some]⟩]
    · have hearlier : used ∨ ∃ k < n, counts k = true ∧ f.writtenAt? path k = some r := by
        refine hr.imp_right fun ⟨k, hk, hcounts, hwrite⟩ ↦ ⟨k, ?_, hcounts, hwrite⟩
        have hne : k ≠ n := by
          rintro rfl
          exact hn ⟨hcounts, hwrite⟩
        omega
      rw [if_neg hn, if_neg, ih (fun j hj ↦ hslot j (by omega)) hearlier]
      rintro ⟨hcounts, hwrite⟩
      obtain ⟨q, hq, hqr⟩ := Option.map_eq_some_iff.mp hwrite
      rw [hslot n (Nat.lt_succ_self n) q hq hqr hearlier] at hq
      exact hn ⟨hcounts, hq⟩

end Func

namespace Slots

open Transform

variable {f : Func}

/-! ### Control that runs forward -/

/-- The test looks for every target behind the position. -/
theorem isForward_iff {n : Nat} {targets : List BlockId} :
    isForward f n targets = true ↔ ∀ b ∈ targets, ∃ k, f.layout.idxOf? b = some k ∧ n < k := by
  simp [isForward, Option.any_eq_true]

/-- The test succeeds exactly if all blocks have their successors and handlers behind them. -/
theorem allForward_iff {position : Nat} {l : List (BlockId × Block)} :
    allForward f position l = .ok true ↔ ∀ (n : Nat) b B, l[n]? = some (b, B) →
      ∃ ts, f.successors b = .ok ts ∧
        isForward f (position + n) (ts ++ B.handler.toList) = true := by
  induction l generalizing position with
  | nil => simp [allForward]
  | cons x l ih =>
    have hcons : (∀ (n : Nat) b B, (x :: l)[n]? = some (b, B) → ∃ ts, f.successors b = .ok ts ∧
          isForward f (position + n) (ts ++ B.handler.toList) = true) ↔
        (∃ ts, f.successors x.1 = .ok ts ∧
          isForward f position (ts ++ x.2.handler.toList) = true) ∧
        allForward f (position + 1) l = .ok true := by
      rw [ih]
      constructor
      · intro h
        refine ⟨h 0 x.1 x.2 rfl, fun n b B hn ↦ ?_⟩
        rw [Nat.add_right_comm]
        exact h (n + 1) b B hn
      · rintro ⟨hfirst, hrest⟩ n b B hn
        cases n with
        | zero =>
          rw [List.getElem?_cons_zero, Option.some.injEq] at hn
          subst hn
          exact hfirst
        | succ n =>
          have hnext := hrest n b B hn
          rwa [Nat.add_right_comm] at hnext
    rw [hcons, allForward]
    cases f.successors x.1 with
    | error fault => simp
    | ok ts =>
      simp only [Except.ok.injEq, exists_eq_left']
      split
      · next hforward => simp [hforward]
      · next hforward => simp [hforward]

private theorem exists_allForward (hf : f.Intact) {n : Nat} {l : List (BlockId × Block)}
    (hl : ∀ b ∈ l, f.contains b.1 = true) : ∃ forward, allForward f n l = .ok forward := by
  induction l generalizing n with
  | nil => exact ⟨true, rfl⟩
  | cons b l ih =>
    obtain ⟨ts, hts⟩ := hf.successors b.1 (hl b List.mem_cons_self)
    rw [allForward, hts]
    dsimp only
    split
    · exact ih fun x hx ↦ hl x (List.mem_cons_of_mem b hx)
    · exact ⟨false, rfl⟩

/-- The test for forward control finds every edge that does not go forward. -/
theorem precedes_of_allForward (hw : f.WF) (h : allForward f 0 f.blocks = .ok true) {a b : BlockId}
    (hab : f.Follows a b) : f.Precedes a b := by
  have hlive : f.contains a = true := by
    cases hab with
    | inl hab => exact Func.contains_of_leads hab
    | inr hab => exact Func.contains_of_block? hab.choose_spec.1
  obtain ⟨n, hn⟩ := hw.exists_index hlive
  obtain ⟨A, hA⟩ := Func.contains_iff.mp hlive
  obtain ⟨ts, hts, hforward⟩ := allForward_iff.mp h n a A (hw.getElem?_blocks.mpr ⟨hn, hA⟩)
  rw [Nat.zero_add] at hforward
  have hmem : b ∈ ts ++ A.handler.toList := by
    rw [List.mem_append, Option.mem_toList]
    cases hab with
    | inl hab =>
      obtain ⟨ts', hts', hb⟩ := hab
      rw [hts, Except.ok.injEq] at hts'
      exact .inl (hts' ▸ hb)
    | inr hab =>
      obtain ⟨A', hA', hb⟩ := hab
      rw [hA, Option.some.injEq] at hA'
      exact .inr (hA' ▸ hb)
  obtain ⟨k, hk, hlt⟩ := isForward_iff.mp hforward b hmem
  obtain ⟨hk, hb, _⟩ := List.idxOf?_eq_some_iff.mp hk
  exact ⟨n, k, hn, by rw [List.getElem?_eq_getElem hk, hb], by omega⟩

/-! ### What the pass does -/

/-- The pass renames by its map. -/
theorem renames_rename (m : Register → Register) (count : Nat) (f : Func) :
    Func.Renames m f (rename m count f) where
  name := rfl
  argCount := rfl
  constants := rfl
  layout := rfl
  block? b := by
    simp only [rename, Func.block?, Array.getElem?_map]
    cases f.arena[b]? with
    | none => rfl
    | some slot => cases slot <;> rfl

/-- For an intact function it can be told whether something is in the way. -/
theorem exists_obstacle (hf : f.Intact) : ∃ reason, obstacle? f = .ok reason := by
  obtain ⟨c, hc⟩ := FlowGraph.exists_ofFunc hf
  obtain ⟨forward, hforward⟩ := exists_allForward hf (n := 0) (l := f.blocks) fun b hb ↦
    Func.contains_of_block? (hf.wf.mem_blocks.mp hb)
  rw [obstacle?, hc]
  dsimp only
  split
  · exact ⟨_, rfl⟩
  · rw [hforward]
    cases forward <;> exact ⟨_, rfl⟩

/-- If nothing is in the way, control runs forward. -/
theorem obstacle?_eq_none (h : obstacle? f = .ok none) : allForward f 0 f.blocks = .ok true := by
  rw [obstacle?] at h
  split at h
  · contradiction
  · split at h
    · simp at h
    · split at h
      · contradiction
      · assumption
      · simp at h

/-- Nothing being in the way, the pass renames the registers by their slots, unless every register
has its slot already and the count is right. -/
theorem run_of_live (settings : Settings) {live : Liveness} (h : obstacle? f = .ok none)
    (hlive : Liveness.ofFunc f = .ok live) :
    let a := Assignment.ofFunc f live
    let count := max a.next settings.minRegisters
    if !a.moves && f.registerCount = count then
      (run settings f).result = .ok false ∧ (run settings f).func = f
    else (run settings f).result = .ok true ∧ (run settings f).func = rename a.slot count f := by
  intro a count
  rw [run, bind_apply_of_ok (a := f) _ rfl, bind_apply_of_ok (a := none) _ h]
  dsimp only
  rw [reduce, bind_apply_of_ok (a := f) _ rfl, bind_apply_of_ok (a := live) _ hlive]
  dsimp only
  split <;> exact ⟨rfl, rfl⟩

/-- If the slots say that some register moves, the pass renames by them, whatever the settings. The
slots of two registers are told besides. -/
theorem run_of_slots (settings : Settings) {q r s t : Register} (h : obstacle? f = .ok none)
    (hslots : (Liveness.ofFunc f).toOption.map (fun live ↦
      ((Assignment.ofFunc f live).moves, (Assignment.ofFunc f live).slot q,
        (Assignment.ofFunc f live).slot r)) = some (true, s, t)) :
    ∃ slot : Register → Register, slot q = s ∧ slot r = t ∧
      (run settings f).result = .ok true ∧ Func.Renames slot f (run settings f).func := by
  cases hlive : Liveness.ofFunc f with
  | error fault => simp [hlive, Except.toOption] at hslots
  | ok live =>
    simp only [hlive, Except.toOption, Option.map_some, Option.some.injEq, Prod.mk.injEq] at hslots
    obtain ⟨hmoves, hq, hr⟩ := hslots
    have hrun := run_of_live settings h hlive
    simp only [hmoves, Bool.not_true, Bool.false_and, Bool.false_eq_true, ↓reduceIte] at hrun
    exact ⟨_, hq, hr, hrun.1, hrun.2 ▸ renames_rename _ _ f⟩

/-- A function that the pass changes has control running forward, and is renamed by its slots. -/
theorem run_ensures (settings : Settings) (f : Func) :
    (run settings).Ensures f fun changed g ↦ changed = true →
      allForward f 0 f.blocks = .ok true ∧ ∃ live, Liveness.ofFunc f = .ok live ∧
        Func.Renames (Assignment.ofFunc f live).slot f g := by
  simp only [run, ensures_bind, ensures_current, ensures_ofExcept]
  intro obstacle hobstacle
  cases obstacle with
  | some reason => simp
  | none =>
    simp only [reduce, ensures_bind, ensures_current, ensures_ofExcept]
    intro live hlive
    split
    · simp
    · simp only [ensures_bind, ensures_update, ensures_record, ensures_pure]
      intro _
      exact ⟨obstacle?_eq_none hobstacle, live, hlive, renames_rename _ _ f⟩

/-! ### Reads get what they got -/

/-- Where control runs forward, no block comes to follow itself. -/
theorem not_transGen_follows (hw : f.WF) (hfwd : ∀ a b, f.Follows a b → f.Precedes a b)
    (b : BlockId) : ¬Relation.TransGen f.Follows b b := by
  have hprec {c : BlockId} (h : Relation.TransGen f.Follows b c) : f.Precedes b c := by
    induction h with
    | single h => exact hfwd _ _ h
    | tail _ h ih => exact hw.precedes_trans ih (hfwd _ _ h)
  exact fun h ↦ hw.precedes_irrefl (hprec h)

/-- Between a write of a register and a read of it on a path, its slot is written for no other. -/
theorem eq_of_slot_eq_on_path (hw : f.WF) {live : Liveness} (hlive : Liveness.ofFunc f = .ok live)
    (hfwd : ∀ a b, f.Follows a b → f.Precedes a b) {path : List Place} (hpath : f.IsPath path)
    {n j k : Nat} {p : Place} {i : Instr} {q r : Register} (hr : f.argCount ≤ r)
    (hp : path[n]? = some p) (hi : f.instrAt? p = some i) (hread : i.reads = some r) (hkj : k < j)
    (hjn : j < n) (hk : f.writtenAt? path k = some r) (hj : f.writtenAt? path j = some q)
    (hslot : (Assignment.ofFunc f live).slot q = (Assignment.ofFunc f live).slot r) : q = r := by
  obtain ⟨p₁, i₁, hp₁, hi₁, hwrite₁⟩ := Func.exists_place_of_writtenAt? hk
  obtain ⟨p₂, i₂, hp₂, hi₂, hwrite₂⟩ := Func.exists_place_of_writtenAt? hj
  have h₁₂ := hpath.position_lt hw hfwd hkj hp₁ hp₂
  have h₂ := hpath.position_lt hw hfwd hjn hp₂ hp
  apply Assignment.eq_of_slot_eq hlive hr
    ((accessAt?_write (hw.getElem?_sites hi₁)).trans hwrite₁)
    ((accessAt?_write (hw.getElem?_sites hi₂)).trans hwrite₂)
    ((accessAt?_read (hw.getElem?_sites hi)).trans hread) _ _ hslot
  · unfold Point.write
    omega
  · unfold Point.write Point.read
    omega

/-- When the pass changes a function, it renames its registers by one map that keeps the arguments;
the function has no way back in its layout; and on every path, for every read of an argument or of
a register written before, the last write of the slot it now reads is the step that was the last
write of the register, whichever of the steps that throw are taken to have written theirs. -/
theorem run_keeps_last_writes (settings : Settings) (hw : f.WF)
    (h : (run settings f).result = .ok true) :
    ∃ m : Register → Register, (∀ r < f.argCount, m r = r) ∧
      Func.Renames m f (run settings f).func ∧
      (∀ a b, f.Follows a b → f.Precedes a b) ∧ (∀ b, ¬Relation.TransGen f.Follows b b) ∧
      (∀ path, (run settings f).func.IsPath path ↔ f.IsPath path) ∧
      ∀ path, f.IsPath path → ∀ (counts : Nat → Bool) n p i r, path[n]? = some p →
        f.instrAt? p = some i → i.reads = some r →
        (r < f.argCount ∨ ∃ k < n, counts k = true ∧ f.writtenAt? path k = some r) →
        (run settings f).func.lastWrite? path counts (m r) n = f.lastWrite? path counts r n := by
  obtain ⟨hforward, live, hlive, hrenames⟩ := run_ensures settings f true h rfl
  have hfwd : ∀ a b, f.Follows a b → f.Precedes a b := fun _ _ ↦ precedes_of_allForward hw hforward
  refine ⟨(Assignment.ofFunc f live).slot, fun r hr ↦ Assignment.slot_of_lt_argCount hlive hr,
    hrenames, hfwd, not_transGen_follows hw hfwd, fun _ ↦ hrenames.isPath_iff, ?_⟩
  intro path hpath counts n p i r hp hi hread hr
  apply hrenames.lastWrite?_eq _ hr
  intro j hj q hq hslot hearlier
  by_cases harg : r < f.argCount
  · exact Assignment.eq_of_slot_eq_of_lt hlive harg hslot
  · cases hearlier with
    | inl hlt => exact absurd hlt harg
    | inr hearlier =>
      obtain ⟨k, hkj, _, hk⟩ := hearlier
      exact eq_of_slot_eq_on_path hw hlive hfwd hpath (Nat.le_of_not_lt harg) hp hi hread hkj hj hk
        hq hslot

/-- Two arms with a register of their own, and a handler that reads a register whose increment may
throw. -/
def weaving : Func :=
  ((Draft.start "weaving" 1 5).declareAll
    [.block { id := 0, code := [.loadReg 0, .storeReg 1, .increment 1, .loadReg 1, .storeReg 2,
        .loadReg 2, .branch 1 2], handler := some 3 },
      .block { id := 1, code := [.push .null, .storeReg 3, .loadReg 3, .pop, .jump 4] },
      .block { id := 2, code := [.move 4 1, .loadReg 4, .pop, .jump 4] },
      .block { id := 3, code := [.caught, .pop, .loadReg 1, .ret] },
      .block { id := 4, code := [.loadReg 1, .ret] }]).build

-- Two registers that one path writes after each other come to share a slot.
private theorem run_weaving : ∃ slot : Register → Register, slot 2 = 2 ∧ slot 3 = 2 ∧
    (run {} weaving).result = .ok true ∧ Func.Renames slot weaving (run {} weaving).func := by
  apply run_of_slots {} (by decide +kernel)
  simp only [Assignment.ofFunc_eq_foldl, Assignment.step, Assignment.acquire, Assignment.take,
    Std.TreeSet.min?_eq_head?_toList]
  decide +kernel

/-- Through the first arm of `weaving`, to the read of its own register. -/
def weavingArm : List Place :=
  [⟨0, 0⟩, ⟨0, 1⟩, ⟨0, 2⟩, ⟨0, 3⟩, ⟨0, 4⟩, ⟨0, 5⟩, ⟨0, 6⟩, ⟨1, 0⟩, ⟨1, 1⟩, ⟨1, 2⟩]

/-- Into the handler of `weaving` from the increment, to the read of its register. -/
def weavingThrow : List Place := [⟨0, 0⟩, ⟨0, 1⟩, ⟨0, 2⟩, ⟨3, 0⟩, ⟨3, 1⟩, ⟨3, 2⟩]

/-- In `weaving` two registers share a slot on one path, and a third is read where an increment may
or may not have been made; the reads find the writes they found before. -/
theorem weaving_keeps_last_writes :
    weaving.WF ∧ (run {} weaving).result = .ok true ∧
      weaving.IsPath weavingArm ∧ weaving.IsPath weavingThrow ∧
      ∃ m : Register → Register, m 0 = 0 ∧ m 2 = m 3 ∧
        (run {} weaving).func.lastWrite? weavingArm (fun _ ↦ true) (m 2) 5 = some 4 ∧
        (run {} weaving).func.lastWrite? weavingArm (fun _ ↦ true) (m 3) 9 = some 8 ∧
        (run {} weaving).func.lastWrite? weavingThrow (fun _ ↦ true) (m 1) 5 = some 2 ∧
        (run {} weaving).func.lastWrite? weavingThrow (fun k ↦ k != 2) (m 1) 5 = some 1 := by
  have hdrafted : weaving.Drafted := ⟨_, _, _, _, rfl⟩
  have hw := hdrafted.wf
  obtain ⟨slot, hslot, hslot', hrun, hslots⟩ := run_weaving
  have harm : weaving.IsPath weavingArm := by decide +kernel
  have hthrow : weaving.IsPath weavingThrow := by decide +kernel
  obtain ⟨m, harg, hrenames, _, _, _, hlast⟩ := run_keeps_last_writes {} hw hrun
  -- The map is the one of the slots wherever a register is stored to.
  have hstored {p : Place} {r : Register} (h : weaving.instrAt? p = some (.storeReg r)) :
      m r = slot r := by
    have heq := (hrenames.instrAt? p).symm.trans (hslots.instrAt? p)
    rw [h, Option.map_some, Option.map_some, Instr.mapRegisters, Instr.mapRegisters] at heq
    exact Instr.storeReg.inj (Option.some.inj heq)
  have htwo : m 2 = slot 2 := hstored (p := ⟨0, 4⟩) (by decide +kernel)
  have hthree : m 3 = slot 3 := hstored (p := ⟨1, 1⟩) (by decide +kernel)
  have hshare : m 2 = m 3 := by rw [htwo, hthree, hslot, hslot']
  refine ⟨hw, hrun, harm, hthrow, m, harg 0 (by decide), hshare, ?_, ?_, ?_, ?_⟩
  · rw [hlast weavingArm harm (fun _ ↦ true) 5 ⟨0, 5⟩ (.loadReg 2) 2 rfl (by decide +kernel) rfl
      (.inr ⟨4, by decide, rfl, by decide +kernel⟩)]
    decide +kernel
  · rw [hlast weavingArm harm (fun _ ↦ true) 9 ⟨1, 2⟩ (.loadReg 3) 3 rfl (by decide +kernel) rfl
      (.inr ⟨8, by decide, rfl, by decide +kernel⟩)]
    decide +kernel
  · rw [hlast weavingThrow hthrow (fun _ ↦ true) 5 ⟨3, 2⟩ (.loadReg 1) 1 rfl (by decide +kernel)
      rfl (.inr ⟨2, by decide, rfl, by decide +kernel⟩)]
    decide +kernel
  · rw [hlast weavingThrow hthrow (fun k ↦ k != 2) 5 ⟨3, 2⟩ (.loadReg 1) 1 rfl (by decide +kernel)
      rfl (.inr ⟨1, by decide, rfl, by decide +kernel⟩)]
    decide +kernel

end Slots

end Bytecode
