import Bytecode.Proofs.Stack.Heights
import Mathlib.Algebra.GroupWithZero.Nat
import Mathlib.Algebra.Order.BigOperators.Group.List
import Mathlib.Algebra.Order.Group.Nat

/-!
# The course of the check

The check of the stack takes one step after the other: it takes up an arrival, or, when none is
pending, turns to the next exported block. Heights go around cycles by way of the pending arrivals,
so no bound holds for a path; but each block is walked once, and no instruction leaves more than
one value on top of what it found. So no height exceeds the number of instructions walked until
then, which is less than any 32-bit limit that the function itself respects.
-/

namespace Bytecode

/-! ### One instruction -/

/-- The height after an instruction in 32-bit arithmetic. -/
def Instr.wordAfter (i : Instr) (height : UInt32) : UInt32 :=
  height - .ofNat i.effect.pops + .ofNat i.effect.pushes

private theorem Instr.pushes_le (i : Instr) : i.effect.pushes ≤ i.effect.pops + 1 := by
  cases i <;> simp [effect]

private theorem Instr.pops_le_countLimit (i : Instr) : i.effect.pops ≤ countLimit := by
  cases i with
  | call argc => exact addCapped_le argc.toNat 2
  | construct argc => exact addCapped_le argc.toNat 1
  | newArray count => exact Nat.le_of_lt_succ count.toNat_lt
  | _ => simp [effect, countLimit]

private theorem Instr.pushes_le_countLimit (i : Instr) : i.effect.pushes ≤ countLimit := by
  cases i <;> simp [effect, countLimit]

/-- An instruction leaves at most one value on top of what it finds. -/
theorem advance_le {i : Instr} {offset height next : Nat}
    (h : i.advance offset height = .ok next) : next ≤ height + 1 := by
  obtain ⟨_, hpops, rfl⟩ := advance_eq_ok_iff.mp h
  have := i.pushes_le
  rw [Instr.heightAfter]
  omega

private theorem walkCode_le {offset height final : Nat} {code : List Instr}
    (h : walkCode offset height code = .ok final) : final ≤ height + code.length := by
  induction code generalizing offset height with
  | nil =>
    rw [walkCode, Except.ok.injEq] at h
    exact Nat.le_of_eq h.symm
  | cons i code ih =>
    rw [walkCode] at h
    split at h
    · contradiction
    · next next hadvance =>
      have hnext := advance_le hadvance
      have hrest := ih h
      rw [List.length_cons]
      omega

/-- The heights of a profile are those that the first instructions leave. -/
theorem walkCode_take {offset height final n k : Nat} {code : List Instr}
    (h : walkCode offset height code = .ok final) (hk : (heightProfile height code)[n]? = some k) :
    walkCode offset height (code.take n) = .ok k := by
  induction code generalizing offset height n with
  | nil =>
    cases n with
    | zero => exact congrArg Except.ok (Option.some.inj hk)
    | succ n => contradiction
  | cons i code ih =>
    rw [walkCode] at h
    split at h
    · contradiction
    · next next hadvance =>
      cases n with
      | zero => exact congrArg Except.ok (Option.some.inj hk)
      | succ n =>
        rw [heightProfile, List.getElem?_cons_succ, (advance_eq_ok_iff.mp hadvance).2.2] at hk
        rw [List.take_succ_cons, walkCode, hadvance]
        exact ih h hk

/-- Computed with 32-bit words, the height after an instruction is exact: the operands are words,
and if the check lets the instruction pass, the difference is not negative and the sum is a
word. -/
structure Instr.FitsWord (i : Instr) (height : Nat) : Prop where
  height_le : height ≤ countLimit
  pops_le : i.effect.pops ≤ countLimit
  pushes_le : i.effect.pushes ≤ countLimit
  exact : ∀ offset next, i.advance offset height = .ok next → i.effect.pops ≤ height ∧
    height - i.effect.pops + i.effect.pushes ≤ countLimit ∧
    (i.wordAfter (.ofNat height)).toNat = next

private theorem Instr.fitsWord_of_lt (i : Instr) {height : Nat} (h : height < countLimit) :
    i.FitsWord height := by
  refine ⟨Nat.le_of_lt h, i.pops_le_countLimit, i.pushes_le_countLimit, fun offset next hnext ↦ ?_⟩
  have hle := advance_le hnext
  obtain ⟨_, hpops, rfl⟩ := advance_eq_ok_iff.mp hnext
  rw [heightAfter] at hle
  have hsum : height - i.effect.pops + i.effect.pushes ≤ countLimit := by omega
  refine ⟨hpops, hsum, ?_⟩
  have hpushes := i.pushes_le_countLimit
  rw [countLimit] at *
  rw [wordAfter, UInt32.toNat_add, UInt32.toNat_sub, UInt32.toNat_ofNat', UInt32.toNat_ofNat',
    UInt32.toNat_ofNat', heightAfter]
  omega

namespace Func

variable {f : Func} {known : EntryHeights} {pending : List Arrival} {b : BlockId} {fault : Fault}

/-! ### Steps -/

/-- Where the check of the stack stands. -/
structure CheckState where
  /-- The blocks walked so far, in order, with the heights they were reached with. -/
  walked : List Arrival
  /-- The same as a table. -/
  known : EntryHeights
  pending : List Arrival
  /-- The exported blocks that are still to be looked at. -/
  roots : List BlockId

namespace CheckState

variable {s t : CheckState}

/-- The next step of the check: none if it is done, and a fault if it rejects the function. -/
def next? (f : Func) (s : CheckState) : Except Fault (Option CheckState) :=
  match s.pending, s.roots with
  | a :: pending, roots =>
    match f.visit s.known a with
    | .error fault => .error fault
    | .ok v =>
      let walked := if v.walked then s.walked ++ [a] else s.walked
      .ok (some ⟨walked, v.known, pending ++ v.next, roots⟩)
  | [], b :: roots =>
    .ok (some ⟨s.walked, s.known, if s.known.contains b then [] else [(b, 0)], roots⟩)
  | [], [] => .ok none

/-- All that a step can do: visit the first pending arrival, or turn to an exported block. -/
theorem next?_inv (h : s.next? f = .ok (some t)) :
    (∃ a pending v, s.pending = a :: pending ∧ f.visit s.known a = .ok v ∧
      t = ⟨if v.walked then s.walked ++ [a] else s.walked, v.known, pending ++ v.next,
        s.roots⟩) ∨
    (∃ b roots, s.pending = [] ∧ s.roots = b :: roots ∧
      t = ⟨s.walked, s.known, if s.known.contains b then [] else [(b, 0)], roots⟩) := by
  obtain ⟨walked, known, pending, roots⟩ := s
  cases pending with
  | cons a pending =>
    simp only [next?] at h
    split at h
    · contradiction
    · next v hvisit =>
      exact .inl ⟨a, pending, v, rfl, hvisit, (Option.some.inj (Except.ok.inj h)).symm⟩
  | nil =>
    cases roots with
    | nil => simp [next?] at h
    | cons b roots =>
      exact .inr ⟨b, roots, rfl, rfl, (Option.some.inj (Except.ok.inj h)).symm⟩

/-- A visit passes over a block that is recorded, and walks one that is not. -/
theorem next?_cases (h : s.next? f = .ok (some t)) :
    (∃ a pending, s.pending = a :: pending ∧ t = { s with pending }) ∨
    (∃ a pending next, s.pending = a :: pending ∧ s.known[a.1]? = none ∧ f.Sends a next ∧
      t = ⟨s.walked ++ [a], s.known.insert a.1 a.2, pending ++ next, s.roots⟩) ∨
    (∃ b roots, s.pending = [] ∧ s.roots = b :: roots ∧
      t = ⟨s.walked, s.known, if s.known.contains b then [] else [(b, 0)], roots⟩) := by
  rcases next?_inv h with ⟨a, pending, v, hs, hvisit, rfl⟩ | hroot
  · rcases visit_cases hvisit with ⟨_, rfl⟩ | ⟨hnew, next, hsends, rfl⟩
    · refine .inl ⟨a, pending, hs, ?_⟩
      rw [List.append_nil]
      rfl
    · exact .inr (.inl ⟨a, pending, next, hs, hnew, hsends, rfl⟩)
  · exact .inr (.inr hroot)

end CheckState

/-- The check of the function comes to a state after a number of steps. It starts at the entry, if
there is one and no block is empty. -/
inductive Course (f : Func) : Nat → CheckState → Prop
  | start {e : BlockId} : f.entry? = some e → f.blocks.find? (·.2.code.isEmpty) = none →
      Course f 0 ⟨[], ∅, [(e, 0)], f.exportedBlocks⟩
  | step {n : Nat} {s t : CheckState} :
      Course f n s → s.next? f = .ok (some t) → Course f (n + 1) t

/-! ### Heights -/

/-- How many instructions the block has. -/
def codeLength (f : Func) (b : BlockId) : Nat := ((f.block? b).map (·.code.length)).getD 0

/-- How many instructions the walked blocks have together. -/
def walkedLength (f : Func) (walked : List Arrival) : Nat :=
  (walked.map fun a ↦ f.codeLength a.1).sum

private theorem codeLength_eq {B : Block} (hB : f.block? b = some B) :
    f.codeLength b = B.code.length := by
  rw [codeLength, hB]
  rfl

private theorem walkedLength_snoc (f : Func) (walked : List Arrival) (a : Arrival) :
    f.walkedLength (walked ++ [a]) = f.walkedLength walked + f.codeLength a.1 := by
  simp [walkedLength]

private theorem WF.instructionCount_eq (hw : f.WF) :
    f.instructionCount = (f.layout.map f.codeLength).sum := by
  have hlength (x : BlockId × Block) (hx : x ∈ f.blocks) :
      x.2.code.length = (f.codeLength ∘ Prod.fst) x :=
    (codeLength_eq (hw.mem_blocks.mp hx)).symm
  rw [instructionCount, List.length_flatMap, List.map_congr_left hlength, ← List.map_map,
    hw.map_fst_blocks]

/-- Blocks that are walked once each have no more instructions than the function. -/
theorem WF.walkedLength_le (hw : f.WF) {walked : List Arrival}
    (honce : (walked.map Prod.fst).Nodup) (hlive : ∀ a ∈ walked, f.contains a.1 = true) :
    f.walkedLength walked ≤ f.instructionCount := by
  have hsubset : walked.map Prod.fst ⊆ f.layout := by
    intro b hb
    obtain ⟨a, ha, rfl⟩ := List.mem_map.mp hb
    exact (hw.mem_layout a.1).mpr (hlive a ha)
  obtain ⟨l, hperm, hsub⟩ := honce.subperm hsubset
  have hwalked : f.walkedLength walked = (l.map f.codeLength).sum := by
    rw [(hperm.map f.codeLength).sum_eq, List.map_map]
    rfl
  rw [hw.instructionCount_eq, hwalked]
  exact (hsub.map f.codeLength).sum_le_sum fun _ _ ↦ Nat.zero_le _

/-- No block has been walked twice, and no height that is recorded or pending exceeds the number of
instructions of the walked blocks. Walking the first instructions of a block records the height
that they leave before the next one. -/
structure CheckState.Bounded (f : Func) (s : CheckState) : Prop where
  once : (s.walked.map Prod.fst).Nodup
  known : ∀ b h, s.known[b]? = some h ↔ (b, h) ∈ s.walked
  live : ∀ a ∈ s.walked, f.contains a.1 = true
  pending : ∀ a ∈ s.pending, a.2 ≤ f.walkedLength s.walked
  recorded : ∀ a ∈ s.walked, ∀ B, f.block? a.1 = some B → ∀ n k,
    walkCode (f.startOf a.1) a.2 (B.code.take n) = .ok k → k ≤ f.walkedLength s.walked

/-- An arrival is passed on with at most the height its block was left with. -/
theorem Sends.le {a c : Arrival} {next : List Arrival} (h : f.Sends a next) (hc : c ∈ next) :
    c.2 ≤ a.2 + f.codeLength a.1 := by
  obtain ⟨B, final, hB, hwalk, hnext⟩ := h
  have hle := walkCode_le hwalk
  rw [codeLength_eq hB]
  rcases (mem_arrivals_iff hnext).mp hc with ⟨_, hc⟩ | ⟨_, hc⟩ <;> omega

namespace CheckState

variable {s t : CheckState} {a : Arrival} {next : List Arrival}

/-- A block that is not recorded has not been walked. -/
theorem Bounded.once_snoc (h : s.Bounded f) (hnew : s.known[a.1]? = none) :
    ((s.walked ++ [a]).map Prod.fst).Nodup := by
  have hfresh : a.1 ∉ s.walked.map Prod.fst := by
    intro hmem
    obtain ⟨c, hc, hca⟩ := List.mem_map.mp hmem
    rw [← hca, (h.known c.1 c.2).mpr hc] at hnew
    contradiction
  rw [List.map_append, List.nodup_append]
  refine ⟨h.once, List.nodup_singleton _, fun x hx y hy ↦ ?_⟩
  rintro rfl
  exact hfresh (List.mem_singleton.mp hy ▸ hx)

private theorem Bounded.live_snoc (h : s.Bounded f) (ha : f.contains a.1 = true) :
    ∀ c ∈ s.walked ++ [a], f.contains c.1 = true := by
  intro c hc
  rcases List.mem_append.mp hc with hc | hc
  · exact h.live c hc
  · exact List.mem_singleton.mp hc ▸ ha

/-- A walk may add as much to the heights as it adds to the walked instructions. -/
theorem Bounded.walk (h : s.Bounded f) (hs : s.pending = a :: pending)
    (hnew : s.known[a.1]? = none) (hsends : f.Sends a next) :
    Bounded f ⟨s.walked ++ [a], s.known.insert a.1 a.2, pending ++ next, s.roots⟩ := by
  have ha : a.2 ≤ f.walkedLength s.walked := h.pending a (hs ▸ List.mem_cons_self)
  refine ⟨h.once_snoc hnew, ?_, ?_, ?_, ?_⟩
  · intro b k
    rw [getElem?_insert_height, List.mem_append, List.mem_singleton, ← h.known]
    by_cases hb : a.1 = b
    · subst hb
      simp [hnew, Prod.ext_iff, eq_comm]
    · simp [hb, Prod.ext_iff, Ne.symm hb]
  · obtain ⟨B, _, hB, _⟩ := hsends
    exact h.live_snoc (contains_of_block? hB)
  · intro c hc
    rw [walkedLength_snoc]
    rcases List.mem_append.mp hc with hc | hc
    · exact Nat.le_add_right_of_le (h.pending c (hs ▸ List.mem_cons_of_mem a hc))
    · exact Nat.le_trans (hsends.le hc) (Nat.add_le_add_right ha _)
  · intro c hc B hB n k hk
    rw [walkedLength_snoc]
    rcases List.mem_append.mp hc with hc | hc
    · exact Nat.le_add_right_of_le (h.recorded c hc B hB n k hk)
    · obtain rfl := List.mem_singleton.mp hc
      have hle := walkCode_le hk
      rw [List.length_take] at hle
      rw [codeLength_eq hB]
      omega

private theorem Bounded.next? (h : s.Bounded f) (hnext : s.next? f = .ok (some t)) :
    t.Bounded f := by
  rcases next?_cases hnext with ⟨a, pending, hs, rfl⟩ | ⟨a, pending, next, hs, hnew, hsends, rfl⟩ |
    ⟨b, roots, _, _, rfl⟩
  · exact ⟨h.once, h.known, h.live, fun c hc ↦ h.pending c (hs ▸ List.mem_cons_of_mem a hc),
      h.recorded⟩
  · exact h.walk hs hnew hsends
  · refine ⟨h.once, h.known, h.live, fun c hc ↦ ?_, h.recorded⟩
    have hzero : c.2 = 0 := by
      dsimp only at hc
      split at hc
      · contradiction
      · rw [List.mem_singleton.mp hc]
    omega

/-- Where the walk of the next block comes to an instruction, the height is a word, and so is the
height after it. -/
theorem Bounded.fitsWord (h : s.Bounded f) (hw : f.WF) (hsize : f.instructionCount < 2 ^ 32)
    (ha : s.pending.head? = some a) (hnew : s.known[a.1]? = none) {B : Block}
    (hB : f.block? a.1 = some B) {n k : Nat} {i : Instr} (hi : B.code[n]? = some i)
    (hk : walkCode (f.startOf a.1) a.2 (B.code.take n) = .ok k) :
    k ≤ f.walkedLength s.walked + B.code.length ∧ i.FitsWord k := by
  have hn : n < B.code.length := (List.getElem?_eq_some_iff.mp hi).1
  have hpending : a.2 ≤ f.walkedLength s.walked := h.pending a (List.mem_of_mem_head? ha)
  have hle := walkCode_le hk
  rw [List.length_take, Nat.min_eq_left (Nat.le_of_lt hn)] at hle
  have hroom := hw.walkedLength_le (h.once_snoc hnew) (h.live_snoc (contains_of_block? hB))
  rw [walkedLength_snoc, codeLength_eq hB] at hroom
  have hlt : k < countLimit := by
    rw [countLimit]
    omega
  exact ⟨by omega, i.fitsWord_of_lt hlt⟩

end CheckState

private theorem Course.bounded {n : Nat} {s : CheckState} (h : f.Course n s) : s.Bounded f := by
  induction h with
  | start he _ => constructor <;> simp
  | step _ hnext ih => exact ih.next? hnext

/-! ### The end -/

private theorem drain_nil (f : Func) (fuel : Nat) (known : EntryHeights) :
    f.drain fuel [] known = .ok known := by
  cases fuel <;> rfl

/-- With enough fuel it does not matter how much there is. -/
theorem WF.drain_fuel (hw : f.WF) {fuel fuel' : Nat}
    (hfuel : pending.length + f.workload known ≤ fuel)
    (hfuel' : pending.length + f.workload known ≤ fuel') :
    f.drain fuel pending known = f.drain fuel' pending known := by
  induction fuel generalizing fuel' pending known with
  | zero =>
    have hnil : pending = [] := List.eq_nil_of_length_eq_zero (by omega)
    rw [hnil, drain_nil, drain_nil]
  | succ fuel ih =>
    cases pending with
    | nil => rw [drain_nil, drain_nil]
    | cons a pending =>
      rw [List.length_cons] at hfuel hfuel'
      obtain ⟨fuel', rfl⟩ : ∃ m, fuel' = m + 1 := ⟨fuel' - 1, by omega⟩
      rw [drain, drain]
      split
      · rfl
      · next v hvisit =>
        have hload := hw.visit_workload hvisit
        have hlength : (pending ++ v.next).length = pending.length + v.next.length :=
          List.length_append
        exact ih (by omega) (by omega)

private theorem WF.drainFrom_eq (hw : f.WF) (root : BlockId) (known : EntryHeights) :
    f.drainFrom root known = f.drain (1 + f.workload known) [(root, 0)] known := by
  have hload := f.workload_le known
  exact hw.drain_fuel (by simpa using hload) (by simp)

namespace CheckState

variable {s t : CheckState}

/-- How much is left to do. -/
def outstanding (f : Func) (s : CheckState) : Nat :=
  s.pending.length + f.workload s.known + 2 * s.roots.length

/-- What comes out in the end. -/
def outcome (f : Func) (s : CheckState) : Except Fault EntryHeights :=
  match f.drain (s.pending.length + f.workload s.known) s.pending s.known with
  | .error fault => .error fault
  | .ok known => f.drainExports s.roots known

private theorem outstanding_lt (hw : f.WF) (h : s.next? f = .ok (some t)) :
    t.outstanding f < s.outstanding f := by
  rcases next?_inv h with ⟨a, pending, v, hs, hvisit, rfl⟩ | ⟨b, roots, hs, hroots, rfl⟩
  · have hload := hw.visit_workload hvisit
    simp only [outstanding, hs, List.length_append, List.length_cons]
    omega
  · simp only [outstanding, hs, hroots, List.length_nil, List.length_cons]
    split
    · rw [List.length_nil]
      omega
    · rw [List.length_singleton]
      omega

/-- A step does not change what comes out. -/
theorem outcome_next? (hw : f.WF) (h : s.next? f = .ok (some t)) : s.outcome f = t.outcome f := by
  rcases next?_inv h with ⟨a, pending, v, hs, hvisit, rfl⟩ | ⟨b, roots, hs, hroots, rfl⟩
  · have hload := hw.visit_workload hvisit
    have hfuel : (a :: pending).length + f.workload s.known =
        (pending ++ v.next).length + f.workload v.known + 1 := by
      simp only [List.length_append, List.length_cons]
      omega
    rw [outcome, outcome, hs, hfuel, drain, hvisit]
  · rw [outcome, outcome, hs, hroots, drain_nil]
    simp only [drainExports]
    split
    · rw [drain_nil]
    · rw [hw.drainFrom_eq]
      rfl

private theorem outcome_of_done (h : s.next? f = .ok none) : s.outcome f = .ok s.known := by
  have hdone : s.pending = [] ∧ s.roots = [] := by
    rw [next?] at h
    split at h
    · split at h <;> simp at h
    · simp at h
    · next hpending hroots => exact ⟨hpending, hroots⟩
  rw [outcome, hdone.1, hdone.2, drain_nil]
  rfl

private theorem outcome_of_error (h : s.next? f = .error fault) : s.outcome f = .error fault := by
  obtain ⟨walked, known, pending, roots⟩ := s
  cases pending with
  | cons a pending =>
    simp only [next?] at h
    split at h
    · next fault' hvisit =>
      cases h
      simp only [outcome, List.length_cons, Nat.succ_add, drain, hvisit]
    · contradiction
  | nil => cases roots <;> contradiction

end CheckState

section

variable {n : Nat} {s : CheckState}

/-- Every step takes something off what there was to do at the start. -/
theorem Course.steps_le (h : f.Course n s) (hw : f.WF) :
    n + s.outstanding f ≤
      1 + (f.blocks.flatMap fun b ↦ f.anyArrivals b.1 b.2).length +
        2 * f.exportedBlocks.length := by
  induction h with
  | start he _ =>
    have hload := f.workload_le ∅
    simp only [CheckState.outstanding, List.length_singleton]
    omega
  | step _ hnext ih =>
    have hlt := CheckState.outstanding_lt hw hnext
    omega

private theorem Course.outcome_eq (h : f.Course n s) (hw : f.WF) :
    s.outcome f = f.entryHeights := by
  induction h with
  | start he hempty =>
    rw [entryHeights, he]
    simp only [hempty]
    rw [hw.drainFrom_eq, CheckState.outcome]
    rfl
  | step _ hnext ih => rw [← CheckState.outcome_next? hw hnext, ih]

/-- A course goes on until there is no next step. -/
theorem Course.ends (h : f.Course n s) (hw : f.WF) :
    ∃ m t, f.Course m t ∧
      ((t.next? f = .ok none ∧ f.entryHeights = .ok t.known) ∨
        ∃ fault, t.next? f = .error fault ∧ f.entryHeights = .error fault) := by
  induction hleft : s.outstanding f using Nat.strong_induction_on generalizing n s with
  | _ left ih =>
    have houtcome := h.outcome_eq hw
    cases hnext : s.next? f with
    | error fault =>
      refine ⟨n, s, h, .inr ⟨fault, hnext, ?_⟩⟩
      rw [← houtcome, CheckState.outcome_of_error hnext]
    | ok t? =>
      cases t? with
      | none =>
        refine ⟨n, s, h, .inl ⟨hnext, ?_⟩⟩
        rw [← houtcome, CheckState.outcome_of_done hnext]
      | some t => exact ih _ (hleft ▸ CheckState.outstanding_lt hw hnext) (h.step hnext) rfl

/-- What the heights of the walked blocks do not exceed, the depth of the function does not. -/
theorem Course.maxDepth_le (h : f.Course n s) (hw : f.WF) (hheights : f.entryHeights = .ok s.known)
    {l : StackLayout} (hl : f.Lays s.known l) : l.maxDepth ≤ f.instructionCount := by
  have hbounded := h.bounded
  have ht := (hw.entryHeights_tracked hheights).1
  rw [hl.maxDepth, foldl_max_le_iff]
  refine ⟨Nat.zero_le _, fun depth hdepth ↦ ?_⟩
  obtain ⟨⟨b, B⟩, hB, rfl⟩ := List.mem_map.mp hdepth
  rw [hw.mem_blocks] at hB
  rw [blockDepth]
  split
  · next height hb =>
    obtain ⟨_, ⟨B', final, hB', hwalk, _⟩, _⟩ := ht.settled b height hb
    obtain rfl := Option.some.inj (hB.symm.trans hB')
    rw [foldl_max_le_iff]
    refine ⟨Nat.zero_le _, fun k hk ↦ ?_⟩
    obtain ⟨m, hm⟩ := List.getElem?_of_mem hk
    have hwalked := (hbounded.known b height).mp hb
    exact Nat.le_trans (hbounded.recorded (b, height) hwalked B hB m k (walkCode_take hwalk hm))
      (hw.walkedLength_le hbounded.once hbounded.live)
  · exact Nat.zero_le _

end

/-- In a function with fewer than `2 ^ 32` instructions the check of the stack keeps to 32-bit
words. In every state it comes to, no block has been walked twice, and recorded and pending heights
are at most the number of instructions walked; where it goes on to an instruction, the height after
it can be computed in words. It ends after so many steps, and its last state has the answer. -/
theorem course_in_range (hw : f.WF) (hsize : f.instructionCount < 2 ^ 32) :
    (∀ n s, f.Course n s →
      n ≤ 1 + (f.blocks.flatMap fun b ↦ f.anyArrivals b.1 b.2).length +
        2 * f.exportedBlocks.length ∧
      s.Bounded f ∧
      ∀ a B m i k, s.pending.head? = some a → s.known[a.1]? = none → f.block? a.1 = some B →
        B.code[m]? = some i → walkCode (f.startOf a.1) a.2 (B.code.take m) = .ok k →
        k ≤ f.walkedLength s.walked + B.code.length ∧ i.FitsWord k) ∧
    ∀ e, f.entry? = some e → f.blocks.find? (·.2.code.isEmpty) = none → ∃ n s, f.Course n s ∧
      ((s.next? f = .ok none ∧
          ∃ l, f.stackLayout = .ok l ∧ f.Lays s.known l ∧ l.maxDepth ≤ f.instructionCount) ∨
        ∃ fault, s.next? f = .error fault ∧ f.stackLayout = .error fault) := by
  refine ⟨fun n s h ↦ ⟨?_, h.bounded, fun a B m i k ha hnew hB hi hk ↦ ?_⟩, fun e he hempty ↦ ?_⟩
  · have hsteps := h.steps_le hw
    omega
  · exact h.bounded.fitsWord hw hsize ha hnew hB hi hk
  · obtain ⟨n, s, hcourse, hend⟩ := (Course.start he hempty).ends hw
    refine ⟨n, s, hcourse, hend.imp (And.imp_right fun hheights ↦ ?_) ?_⟩
    · obtain ⟨l, hl⟩ : ∃ l, f.stackLayout = .ok l := by simp [stackLayout, hheights]
      obtain ⟨known, hknown, hlays⟩ := exists_lays hl
      obtain rfl := Except.ok.inj (hknown.symm.trans hheights)
      exact ⟨l, hl, hlays, hcourse.maxDepth_le hw hheights hlays⟩
    · rintro ⟨fault, hnext, hheights⟩
      exact ⟨fault, hnext, by rw [stackLayout, hheights]⟩

/-- A loop that leaves a value on the stack, and then a call with as many arguments as there can
be. -/
def brimming : Func :=
  ((Draft.start "brimming" 0 0).declareAll
    [.block { id := 0, code := [.push .null, .jump 1] },
      .block { id := 1, code := [.dup, .branch 1 2] },
      .block { id := 2, code := [.call 4294967295, .ret] }]).build

/-- The check of `brimming` stays in range to its last step, which ends with the underflow of the
call. -/
theorem brimming_in_range :
    brimming.WF ∧ brimming.instructionCount < 2 ^ 32 ∧ (Instr.jump 1).FitsWord 1 ∧
      brimming.stackLayout = .error (.stackUnderflow 4 1 countLimit) ∧
      ∃ n s, brimming.Course n s ∧ n ≤ 4 ∧ s.Bounded brimming ∧
        s.next? brimming = .error (.stackUnderflow 4 1 countLimit) := by
  have hdrafted : brimming.Drafted := ⟨_, _, _, _, rfl⟩
  have hsize : brimming.instructionCount < 2 ^ 32 := by decide +kernel
  have hentry : brimming.entry? = some 0 := by decide +kernel
  have hempty : brimming.blocks.find? (·.2.code.isEmpty) = none := by decide +kernel
  have hblock : brimming.block? 0 = some { code := [.push .null, .jump 1] } := by decide +kernel
  have hverdict : brimming.stackLayout = .error (.stackUnderflow 4 1 countLimit) := by
    decide +kernel
  obtain ⟨hstates, hends⟩ := course_in_range hdrafted.wf hsize
  have hfits :=
    (hstates 0 _ (.start hentry hempty)).2.2 (0, 0) _ 1 (.jump 1) 1 rfl (by simp) hblock
    rfl rfl
  obtain ⟨n, s, hcourse, hend⟩ := hends 0 hentry hempty
  obtain ⟨hsteps, hbounded, _⟩ := hstates n s hcourse
  refine ⟨hdrafted.wf, hsize, hfits.2, hverdict, n, s, hcourse, ?_, hbounded, ?_⟩
  · exact Nat.le_trans hsteps (by decide +kernel)
  · rcases hend with ⟨_, l, hl, _⟩ | ⟨fault, hnext, hfault⟩
    · rw [hverdict] at hl
      contradiction
    · obtain rfl := Except.error.inj (hfault.symm.trans hverdict)
      exact hnext

end Func

end Bytecode
