import Bytecode.Proofs.Stack.EntryHeights
import Mathlib.Logic.Relation

/-!
# Heights on every path

A run that keeps account of the stack takes the effect of each instruction as it proceeds, and
starts anew with an empty stack when an exception takes it to a handler. Whatever path it takes,
the check has recorded the height it has before every instruction; no instruction finds less than
it pops, a return finds exactly its result, and nothing exceeds the recorded depth.
-/

namespace Bytecode

/-! ### Along a block -/

section Block

variable {code : List Instr} {i : Instr} {n height k : Nat}

/-- There is a height before every instruction and one at the end. -/
theorem length_heightProfile (height : Nat) (code : List Instr) :
    (heightProfile height code).length = code.length + 1 := by
  induction code generalizing height with
  | nil => rfl
  | cons i code ih => rw [heightProfile, List.length_cons, ih, List.length_cons]

/-- The first height is the one that the code is entered with. -/
theorem heightProfile_zero (height : Nat) (code : List Instr) :
    (heightProfile height code)[0]? = some height := by
  cases code <;> rfl

/-- The profile follows the effects of the instructions. -/
theorem heightProfile_succ (hi : code[n]? = some i)
    (hk : (heightProfile height code)[n]? = some k) :
    (heightProfile height code)[n + 1]? = some (i.heightAfter k) := by
  induction code generalizing n height with
  | nil => simp at hi
  | cons j code ih =>
    cases n with
    | zero =>
      rw [List.getElem?_cons_zero, Option.some.injEq] at hi
      rw [heightProfile_zero, Option.some.injEq] at hk
      subst hi hk
      rw [heightProfile, List.getElem?_cons_succ, heightProfile_zero]
    | succ n =>
      rw [List.getElem?_cons_succ] at hi
      rw [heightProfile, List.getElem?_cons_succ] at hk ⊢
      exact ih hi hk

/-- An instruction is passed exactly if it finds what it pops, and a return exactly one value. -/
theorem advance_eq_ok_iff {offset next : Nat} :
    i.advance offset height = .ok next ↔
      (i = .ret → height = 1) ∧ i.effect.pops ≤ height ∧ i.heightAfter height = next := by
  rw [Instr.advance]
  split
  · next h => simp [h]
  · next h =>
    have hret : i = .ret → height = 1 := by simpa using h
    split
    · next hlt => simp [Nat.not_le_of_lt hlt]
    · next hge =>
      rw [Except.ok.injEq]
      exact ⟨fun h ↦ ⟨hret, Nat.le_of_not_lt hge, h⟩, fun h ↦ h.2.2⟩

/-- A block can be walked only if every instruction finds what it needs. -/
theorem walkCode_profile {offset final : Nat} (h : walkCode offset height code = .ok final) :
    (heightProfile height code)[code.length]? = some final ∧
      ∀ (n : Nat) i k, code[n]? = some i → (heightProfile height code)[n]? = some k →
        (i = .ret → k = 1) ∧ i.effect.pops ≤ k := by
  induction code generalizing offset height with
  | nil =>
    rw [walkCode, Except.ok.injEq] at h
    subst h
    exact ⟨rfl, by simp⟩
  | cons j code ih =>
    rw [walkCode] at h
    split at h
    · contradiction
    · next next hadvance =>
      obtain ⟨hret, hpops, rfl⟩ := advance_eq_ok_iff.mp hadvance
      obtain ⟨hlast, hall⟩ := ih h
      rw [heightProfile]
      refine ⟨hlast, fun n i k hi hk ↦ ?_⟩
      cases n with
      | zero =>
        rw [List.getElem?_cons_zero, Option.some.injEq] at hi hk
        subst hi hk
        exact ⟨hret, hpops⟩
      | succ n => exact hall n i k hi hk

/-- The largest of some numbers is bounded exactly if all are. -/
theorem foldl_max_le_iff {l : List Nat} {a bound : Nat} :
    l.foldl max a ≤ bound ↔ a ≤ bound ∧ ∀ x ∈ l, x ≤ bound := by
  induction l generalizing a with
  | nil => simp
  | cons y l ih => rw [List.foldl_cons, ih, Nat.max_le, List.forall_mem_cons, and_assoc]

/-- None of some numbers exceeds the largest. -/
theorem le_foldl_max {l : List Nat} {a x : Nat} (hx : x ∈ l) : x ≤ l.foldl max a :=
  (foldl_max_le_iff.mp (Nat.le_refl _)).2 x hx

end Block

/-- The height before the instruction at a place, found by the offset at which its block starts. -/
def StackLayout.heightBefore? (l : StackLayout) (p : Place) : Option Nat :=
  (l.start? p.block).bind fun start ↦ l.heightAt? (start + p.offset)

namespace Func

variable {f : Func} {known : EntryHeights} {l : StackLayout} {p q : Place} {i : Instr} {h k : Nat}
  {b c : BlockId} {B : Block}

/-! ### What the layout says -/

/-- The layout of the blocks, when they are reached with the given heights. -/
structure Lays (f : Func) (known : EntryHeights) (l : StackLayout) : Prop where
  starts : l.starts = blockStarts 0 f.blocks
  heights : l.heights = f.blocks.flatMap fun b ↦ blockHeights known b.1 b.2
  maxDepth : l.maxDepth = (f.blocks.map fun b ↦ blockDepth known b.1 b.2).foldl max 0

/-- What is accepted is laid out by the heights of its blocks. -/
theorem exists_lays (h : f.stackLayout = .ok l) :
    ∃ known, f.entryHeights = .ok known ∧ f.Lays known l := by
  rw [stackLayout] at h
  split at h
  · contradiction
  · next known hknown =>
    cases h
    exact ⟨known, hknown, rfl, rfl, rfl⟩

private theorem length_blockHeights (known : EntryHeights) (b : BlockId) (B : Block) :
    (blockHeights known b B).length = B.code.length := by
  rw [blockHeights]
  split
  · rw [List.length_map, List.length_dropLast, length_heightProfile, Nat.add_sub_cancel]
  · rw [List.length_map]

private theorem Lays.start?_eq (hl : f.Lays known l) (hw : f.WF) (hB : f.block? b = some B) :
    l.start? b = some (f.startOf b) := by
  rw [StackLayout.start?, hl.starts, hw.lookup_startOf hB]

/-- The recorded heights of a block are its profile from the height it is reached with. -/
theorem Lays.heightBefore?_eq (hl : f.Lays known l) (hw : f.WF) (hB : f.block? b = some B)
    {n : Nat} (hn : n < B.code.length) :
    l.heightBefore? ⟨b, n⟩ = known[b]?.bind fun h ↦ (heightProfile h B.code)[n]? := by
  rw [StackLayout.heightBefore?, hl.start?_eq hw hB, Option.bind_some, StackLayout.heightAt?,
    hl.heights]
  have hget := hw.getElem?_flatMap_blocks (fun x ↦ length_blockHeights known x.1 x.2) hB hn
  rw [position] at hget
  rw [hget, blockHeights]
  cases known[b]? with
  | none => simp [hn]
  | some h =>
    have hdrop : (heightProfile h B.code).dropLast[n]? = (heightProfile h B.code)[n]? := by
      rw [List.getElem?_dropLast, if_pos (by rw [length_heightProfile]; omega)]
    rw [List.getElem?_map, hdrop, Option.bind_some]
    cases (heightProfile h B.code)[n]? <;> rfl

private theorem Lays.le_maxDepth (hl : f.Lays known l) (hw : f.WF) (hB : f.block? b = some B)
    (hb : known[b]? = some h) {n : Nat} (hk : (heightProfile h B.code)[n]? = some k) :
    k ≤ l.maxDepth := by
  have hdepth : k ≤ blockDepth known b B := by
    rw [blockDepth, hb]
    exact le_foldl_max (List.mem_of_getElem? hk)
  rw [hl.maxDepth]
  apply Nat.le_trans hdepth
  exact le_foldl_max (List.mem_map.mpr ⟨(b, B), hw.mem_blocks.mpr hB, rfl⟩)

/-! ### Agreement along edges -/

/-- A block that the entry or an exported block leads to, through successors and handlers. -/
inductive Reached (f : Func) : BlockId → Prop
  | entry {e : BlockId} : f.entry? = some e → Reached f e
  | exported {b : BlockId} : f.IsExported b → Reached f b
  | follow {a b : BlockId} : Reached f a → f.Follows a b → Reached f b

/-- What control arrives at is reached. -/
theorem Arrives.reached {a : Arrival} (ha : f.Arrives a) : f.Reached a.1 := by
  induction ha with
  | entry he => exact .entry he
  | exported hb => exact .exported hb
  | send _ hsends hc ih =>
    obtain ⟨B, final, hB, _, hnext⟩ := hsends
    apply Reached.follow ih
    cases (mem_arrivals_iff hnext).mp hc with
    | inl h => exact .inl h.1
    | inr h => exact .inr ⟨B, hB, h.1⟩

/-- Of an intact function only live blocks are reached. -/
theorem Reached.contains (hf : f.Intact) (h : f.Reached b) : f.contains b = true := by
  cases h with
  | entry he => exact hf.wf.contains_entry he
  | exported hb => exact hb.contains
  | follow _ hab =>
    cases hab with
    | inl hab => exact hf.leads _ b hab
    | inr hab =>
      obtain ⟨A, hA, hh⟩ := hab
      exact hf.handler _ A b hA hh

/-- When nothing is pending, a recorded block can be walked, and its successors and its handler are
recorded with the heights it sends them. -/
theorem Tracked.agree (ht : f.Tracked known []) (hb : known[b]? = some h) :
    ∃ B final, f.block? b = some B ∧ walkCode (f.startOf b) h B.code = .ok final ∧
      (∀ c, f.Leads b c → known[c]? = some final) ∧
      ∀ c, B.handler = some c → known[c]? = some 0 := by
  obtain ⟨next, ⟨B, final, hB, hwalk, hnext⟩, hrec⟩ := ht.settled b h hb
  have hknown (a : Arrival) (ha : a ∈ next) : known[a.1]? = some a.2 :=
    (hrec a ha).resolve_right (List.not_mem_nil)
  refine ⟨B, final, hB, hwalk, fun c hc ↦ ?_, fun c hc ↦ ?_⟩
  · exact hknown (c, final) ((mem_arrivals_iff hnext).mpr (.inl ⟨hc, rfl⟩))
  · exact hknown (c, 0) ((mem_arrivals_iff hnext).mpr (.inr ⟨hc, rfl⟩))

private theorem Tracked.exists_of_follows (ht : f.Tracked known []) (ha : ∃ k, known[b]? = some k)
    (hab : f.Follows b c) : ∃ k, known[c]? = some k := by
  obtain ⟨h, ha⟩ := ha
  obtain ⟨A, final, hA, _, hleads, hhandler⟩ := ht.agree ha
  cases hab with
  | inl hab => exact ⟨final, hleads _ hab⟩
  | inr hab =>
    obtain ⟨A', hA', hh⟩ := hab
    rw [hA, Option.some.injEq] at hA'
    exact ⟨0, hhandler _ (hA' ▸ hh)⟩

/-- When nothing is pending, records follow every path. -/
theorem Tracked.exists_of_path (ht : f.Tracked known []) (ha : ∃ k, known[b]? = some k)
    (hpath : Relation.ReflTransGen f.Follows b c) : ∃ k, known[c]? = some k := by
  induction hpath with
  | refl => exact ha
  | tail _ hstep ih => exact ht.exists_of_follows ih hstep

/-- When nothing is pending and every start is recorded, all reached blocks are. -/
theorem Tracked.exists_of_reached (ht : f.Tracked known [])
    (hentry : ∀ e, f.entry? = some e → known[e]? = some 0)
    (hexports : ∀ b, f.IsExported b → ∃ k, known[b]? = some k) (hb : f.Reached b) :
    ∃ k, known[b]? = some k := by
  induction hb with
  | entry he => exact ⟨0, hentry _ he⟩
  | exported hb => exact hexports _ hb
  | follow _ hab ih => exact ht.exists_of_follows ih hab

/-! ### Runs -/

/-- One step of a run that keeps account of the height before each instruction. -/
inductive StackStep (f : Func) : Place × Nat → Place × Nat → Prop
  | proceed {p q : Place} {i : Instr} {h : Nat} : f.instrAt? p = some i → f.Proceeds p q →
      StackStep f (p, h) (q, i.heightAfter h)
  | unwind {p q : Place} {h : Nat} : f.Unwinds p q → StackStep f (p, h) (q, 0)

/-- The instruction at a place is reached with a height, by the profile of its block. -/
def Stands (f : Func) (known : EntryHeights) (p : Place) (h : Nat) : Prop :=
  ∃ B h₀, f.block? p.block = some B ∧ known[p.block]? = some h₀ ∧ p.offset < B.code.length ∧
    (heightProfile h₀ B.code)[p.offset]? = some h

private theorem Tracked.stands_start (ht : f.Tracked known []) (hv : f.Valid)
    (hb : known[b]? = some h) : f.Stands known ⟨b, 0⟩ h := by
  obtain ⟨B, _, hB, _⟩ := ht.agree hb
  obtain ⟨body, t, hshape⟩ := hv.shape b B hB
  refine ⟨B, h, hB, hb, ?_, heightProfile_zero h B.code⟩
  simp [hshape.code_eq]

private theorem Tracked.stands_unwind (ht : f.Tracked known []) (hv : f.Valid)
    (hp : f.Stands known p h) (hpq : f.Unwinds p q) : f.Stands known q 0 := by
  obtain ⟨_, h₀, _, hb, _⟩ := hp
  obtain ⟨B, final, hB, _, _, hhandler⟩ := ht.agree hb
  cases hpq with
  | handler hB' _ hh =>
    rw [hB, Option.some.injEq] at hB'
    exact ht.stands_start hv (hhandler _ (hB' ▸ hh))

/-- Inside a block the next instruction stands further on the profile; at its end the profile has
the height that the successors were sent. -/
theorem Tracked.stands_proceed (ht : f.Tracked known []) (hv : f.Valid) (hp : f.Stands known p h)
    (hi : f.instrAt? p = some i) (hpq : f.Proceeds p q) : f.Stands known q (i.heightAfter h) := by
  obtain ⟨B, h₀, hB, hb, hn, hk⟩ := hp
  obtain ⟨B', final, hB', hwalk, hleads, _⟩ := ht.agree hb
  obtain ⟨B'', hB'', hcode⟩ := instrAt?_eq_some_iff.mp hi
  obtain rfl := Option.some.inj (hB.symm.trans hB')
  obtain rfl := Option.some.inj (hB.symm.trans hB'')
  obtain ⟨body, t, hshape⟩ := hv.shape _ B hB
  have hlast := hshape.isTerminator_iff hcode
  have hafter := heightProfile_succ hcode hk
  cases hpq with
  | next hi' hplain =>
    rw [hi, Option.some.injEq] at hi'
    subst hi'
    simp only [hplain, Bool.false_eq_true, false_iff] at hlast
    exact ⟨B, h₀, hB, hb, Nat.lt_of_le_of_ne hn hlast, hafter⟩
  | leap hi' hterm hab =>
    rw [hi, Option.some.injEq] at hi'
    subst hi'
    have hend := (walkCode_profile hwalk).1
    rw [← hlast.mp hterm, hafter, Option.some.injEq] at hend
    rw [hend]
    exact ht.stands_start hv (hleads _ hab)

private theorem Tracked.stands_run (ht : f.Tracked known []) (hv : f.Valid) {s s' : Place × Nat}
    (hs : f.Stands known s.1 s.2) (hrun : Relation.ReflTransGen f.StackStep s s') :
    f.Stands known s'.1 s'.2 := by
  induction hrun with
  | refl => exact hs
  | tail _ hstep ih =>
    cases hstep with
    | proceed hi hpq => exact ht.stands_proceed hv ih hi hpq
    | unwind hpq => exact ht.stands_unwind hv ih hpq

/-! ### Nothing goes wrong -/

private theorem Stands.heightBefore?_eq (hp : f.Stands known p h) (hl : f.Lays known l)
    (hw : f.WF) : l.heightBefore? p = some h := by
  obtain ⟨B, h₀, hB, hb, hn, hk⟩ := hp
  rw [hl.heightBefore?_eq hw hB hn, hb, Option.bind_some, hk]

/-- An instruction that stands on the profile finds what it needs, within the recorded depth. -/
theorem Stands.safe (hp : f.Stands known p h) (ht : f.Tracked known []) (hl : f.Lays known l)
    (hw : f.WF) :
    ∃ i, f.instrAt? p = some i ∧ i.effect.pops ≤ h ∧ (i = .ret → h = 1) ∧ h ≤ l.maxDepth ∧
      i.heightAfter h ≤ l.maxDepth := by
  obtain ⟨B, h₀, hB, hb, hn, hk⟩ := hp
  obtain ⟨B', final, hB', hwalk, _⟩ := ht.agree hb
  obtain rfl := Option.some.inj (hB.symm.trans hB')
  have hi : B.code[p.offset]? = some B.code[p.offset] := List.getElem?_eq_getElem hn
  obtain ⟨hret, hpops⟩ := (walkCode_profile hwalk).2 p.offset _ h hi hk
  exact ⟨_, instrAt?_eq_some_iff.mpr ⟨B, hB, hi⟩, hpops, hret, hl.le_maxDepth hw hB hb hk,
    hl.le_maxDepth hw hB hb (heightProfile_succ hi hk)⟩

/-- The height before the first instruction of a block is the recorded one. -/
theorem Lays.heightBefore?_zero (hl : f.Lays known l) (hv : f.Valid)
    (hb : f.contains b = true) : l.heightBefore? ⟨b, 0⟩ = known[b]? := by
  obtain ⟨B, hB⟩ := contains_iff.mp hb
  obtain ⟨body, t, hshape⟩ := hv.shape b B hB
  rw [hl.heightBefore?_eq hv.wf hB (by simp [hshape.code_eq])]
  cases known[b]? with
  | none => rfl
  | some h => exact heightProfile_zero h B.code

/-- Heights are recorded for all instructions of a block, or for none. -/
theorem Lays.heightBefore?_eq_none_iff (hl : f.Lays known l) (hw : f.WF)
    (hi : f.instrAt? p = some i) : l.heightBefore? p = none ↔ known[p.block]? = none := by
  obtain ⟨B, hB, hn⟩ := instrAt?_eq_some_iff.mp hi
  have hlt := (List.getElem?_eq_some_iff.mp hn).1
  rw [hl.heightBefore?_eq hw hB hlt]
  cases known[p.block]? with
  | none => simp
  | some h =>
    have hlt' : p.offset < (heightProfile h B.code).length := by
      rw [length_heightProfile]
      omega
    simp [hlt']

/-- When the check of the stack accepts a valid function: the entry and the handlers of reached
blocks start with an empty stack, and exported blocks are reached. On every path from the entry, or
from an exported block with its recorded height, the height before each instruction is the recorded
one; no instruction pops more than that, a return finds exactly one value, and the recorded depth
is not exceeded. Heights are missing exactly in the blocks that nothing reaches.

Heights here are natural numbers. A function with fewer than `2 ^ 32` instructions has the same
ones in 32-bit words: `Bytecode.Proofs.Stack.Course` bounds every height by the instructions
walked. -/
theorem stackLayout_sound (hw : f.WF) (hf : f.fault? = none) (h : f.stackLayout = .ok l) :
    (∀ e, f.entry? = some e → l.heightBefore? ⟨e, 0⟩ = some 0) ∧
    (∀ b B c, f.block? b = some B → B.handler = some c →
      (∃ n < B.code.length, l.heightBefore? ⟨b, n⟩ ≠ none) → l.heightBefore? ⟨c, 0⟩ = some 0) ∧
    (∀ b, f.IsExported b → ∃ k, l.heightBefore? ⟨b, 0⟩ = some k) ∧
    (∀ root k₀, f.entry? = some root ∧ k₀ = 0 ∨
        f.IsExported root ∧ l.heightBefore? ⟨root, 0⟩ = some k₀ →
      ∀ p k, Relation.ReflTransGen f.StackStep (⟨root, 0⟩, k₀) (p, k) →
        l.heightBefore? p = some k ∧
        ∃ i, f.instrAt? p = some i ∧ i.effect.pops ≤ k ∧ (i = .ret → k = 1) ∧ k ≤ l.maxDepth ∧
          i.heightAfter k ≤ l.maxDepth) ∧
    (∀ p i, f.instrAt? p = some i → (l.heightBefore? p = none ↔ ¬f.Reached p.block)) ∧
    ∀ offset < f.instructionCount, ∃ p i start, f.instrAt? p = some i ∧
      l.start? p.block = some start ∧ start + p.offset = offset := by
  have hv := hw.fault?_eq_none_iff.mp hf
  obtain ⟨known, hknown, hl⟩ := exists_lays h
  obtain ⟨ht, hentry, hexports⟩ := hw.entryHeights_tracked hknown
  have hzero (b : BlockId) (hb : f.contains b = true) : l.heightBefore? ⟨b, 0⟩ = known[b]? :=
    hl.heightBefore?_zero hv hb
  refine ⟨fun e he ↦ ?_, fun b B c hB hc ⟨n, hn, hrec⟩ ↦ ?_, fun b hb ↦ ?_,
    fun root k₀ hroot p k hrun ↦ ?_, fun p i hi ↦ ?_, fun offset hoffset ↦ ?_⟩
  · rw [hzero e (hw.contains_entry he), hentry e he]
  · obtain ⟨i, hi⟩ := exists_instrAt? hB hn
    rw [ne_eq, hl.heightBefore?_eq_none_iff hw hi] at hrec
    obtain ⟨k, hk⟩ := Option.ne_none_iff_exists'.mp hrec
    obtain ⟨B', _, hB', _, _, hhandler⟩ := ht.agree hk
    rw [hB, Option.some.injEq] at hB'
    rw [hzero c (hv.handler b B c hB hc), hhandler c (hB' ▸ hc)]
  · rw [hzero b hb.contains]
    exact hexports b hb
  · have hstart : known[root]? = some k₀ := by
      cases hroot with
      | inl he => exact he.2 ▸ hentry root he.1
      | inr hb => exact hzero root hb.1.contains ▸ hb.2
    have hstands : f.Stands known p k := ht.stands_run hv (ht.stands_start hv hstart) hrun
    exact ⟨hstands.heightBefore?_eq hl hw, hstands.safe ht hl hw⟩
  · rw [hl.heightBefore?_eq_none_iff hw hi]
    constructor
    · intro hnone hreached
      obtain ⟨k, hk⟩ := ht.exists_of_reached hentry hexports hreached
      rw [hnone] at hk
      contradiction
    · intro hnot
      rw [Option.eq_none_iff_forall_ne_some]
      exact fun k hk ↦ hnot (ht.known p.block k hk).reached
  · obtain ⟨p, i, hi, hp⟩ := hw.exists_place (fun _ ↦ rfl) hoffset
    obtain ⟨B, hB, _⟩ := instrAt?_eq_some_iff.mp hi
    exact ⟨p, i, f.startOf p.block, hi, hl.start?_eq hw hB, hp⟩

/-- A loop that is entered from outside with a value on the stack, its handler, and a block that
nothing reaches. -/
def circling : Func :=
  ((Draft.start "circling" 0 0).declareAll
    [.block { id := 0, code := [.push .null, .jump 1] },
      .block
        { id := 1, code := [.dup, .unary .neg, .branch 1 2], handler := some 3, pinned := true },
      .block { id := 2, code := [.ret] },
      .block { id := 3, code := [.caught, .ret] },
      .block { id := 4, code := [.jump 2] }]).build

/-- Round the loop of `circling` and on into its handler the heights are the recorded ones, and one
block is not reached. -/
theorem circling_heights :
    circling.WF ∧ circling.fault? = none ∧ ∃ l, circling.stackLayout = .ok l ∧ l.maxDepth = 2 ∧
      circling.IsExported 1 ∧ l.heightBefore? ⟨1, 0⟩ = some 1 ∧
      -- Once round the loop, and then to the return of the handler.
      Relation.ReflTransGen circling.StackStep (⟨1, 0⟩, 1) (⟨3, 1⟩, 1) ∧
      l.heightBefore? ⟨3, 1⟩ = some 1 ∧ ¬circling.Reached 4 := by
  have hdrafted : circling.Drafted := ⟨_, _, _, _, rfl⟩
  have hw := hdrafted.wf
  have hf : circling.fault? = none := by decide +kernel
  have hok : circling.stackLayout.toOption.map (fun l ↦
      (l.maxDepth, l.heightBefore? ⟨1, 0⟩, l.heightBefore? ⟨4, 0⟩)) = some (2, some 1, none) := by
    decide +kernel
  cases h : circling.stackLayout with
  | error fault =>
    rw [h] at hok
    contradiction
  | ok l =>
    rw [h, Except.toOption, Option.map_some, Option.some.injEq, Prod.mk.injEq,
      Prod.mk.injEq] at hok
    obtain ⟨hdepth, hone, hfour⟩ := hok
    obtain ⟨_, _, _, hpaths, hnone, _⟩ := stackLayout_sound hw hf h
    have hexported : circling.IsExported 1 :=
      ⟨{ code := [.dup, .unary .neg, .branch 1 2], handler := some 3, exported := true },
        by decide +kernel⟩
    have hrun : Relation.ReflTransGen circling.StackStep (⟨1, 0⟩, 1) (⟨3, 1⟩, 1) := by
      refine .head (.proceed (q := ⟨1, 1⟩) (i := .dup) (by decide +kernel) (by decide +kernel)) ?_
      refine .head
        (.proceed (q := ⟨1, 2⟩) (i := .unary .neg) (by decide +kernel) (by decide +kernel)) ?_
      refine .head
        (.proceed (q := ⟨1, 0⟩) (i := .branch 1 2) (by decide +kernel) (by decide +kernel)) ?_
      refine .head (.unwind (q := ⟨3, 0⟩) (by decide +kernel)) ?_
      exact .single (.proceed (i := .caught) (by decide +kernel) (by decide +kernel))
    exact ⟨hw, hf, l, rfl, hdepth, hexported, hone, hrun,
      (hpaths 1 1 (.inr ⟨hexported, hone⟩) ⟨3, 1⟩ 1 hrun).1,
      (hnone ⟨4, 0⟩ (.jump 2) (by decide +kernel)).mp hfour⟩

end Func

end Bytecode
