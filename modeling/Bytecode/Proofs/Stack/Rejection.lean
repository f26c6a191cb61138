import Bytecode.Proofs.Stack.Heights

/-!
# Why stacks are rejected

Whatever the check of the stack finds fault with can happen: some path that starts with an empty
stack, at the entry or at an exported block, comes without a fault to the instruction that is
blamed, with the height that is blamed. Heights that the check has recorded or still has to take up
are heights of such paths, so a disagreement between two of them is one between two paths.
-/

namespace Bytecode

/-- The instruction finds what it needs: as much as it pops and, if it returns, exactly its
result. -/
def Instr.Suits (i : Instr) (height : Nat) : Prop :=
  i.effect.pops ≤ height ∧ (i = .ret → height = 1)

private theorem suits_of_advance {i : Instr} {offset height next : Nat}
    (h : i.advance offset height = .ok next) : i.Suits height := by
  have hok := advance_eq_ok_iff.mp h
  exact ⟨hok.2.1, hok.1⟩

/-- All that an instruction can be blamed for. -/
theorem advance_eq_error {i : Instr} {offset height : Nat} {fault : Fault}
    (h : i.advance offset height = .error fault) :
    (i = .ret ∧ height ≠ 1 ∧ fault = .invalidReturnHeight offset height) ∨
      (height < i.effect.pops ∧ fault = .stackUnderflow offset height i.effect.pops) := by
  rw [Instr.advance] at h
  split at h
  · next hret =>
    cases h
    exact .inl ⟨hret.1, hret.2, rfl⟩
  · split at h
    · next hlt =>
      cases h
      exact .inr ⟨hlt, rfl⟩
    · contradiction

/-- The first `n` instructions find what they need. -/
def Suited (height : Nat) (code : List Instr) (n : Nat) : Prop :=
  ∀ m < n, ∀ i k, code[m]? = some i → (heightProfile height code)[m]? = some k → i.Suits k

/-- A block that cannot be walked has a first instruction that does not find what it needs. -/
theorem walkCode_eq_error {offset height : Nat} {code : List Instr} {fault : Fault}
    (h : walkCode offset height code = .error fault) :
    ∃ (n : Nat) (i : Instr) (k : Nat), code[n]? = some i ∧
      (heightProfile height code)[n]? = some k ∧ i.advance (offset + n) k = .error fault ∧
      Suited height code n := by
  induction code generalizing offset height with
  | nil => contradiction
  | cons j code ih =>
    rw [walkCode] at h
    split at h
    · next fault' hadvance =>
      cases h
      exact ⟨0, j, height, rfl, rfl, hadvance, fun m hm ↦ absurd hm (Nat.not_lt_zero m)⟩
    · next next hadvance =>
      have hprofile : heightProfile height (j :: code) = height :: heightProfile next code := by
        rw [heightProfile, (advance_eq_ok_iff.mp hadvance).2.2]
      obtain ⟨n, i, k, hi, hk, hfault, hbefore⟩ := ih h
      refine ⟨n + 1, i, k, hi, ?_, ?_, fun m hm j' k' hj hk' ↦ ?_⟩
      · rwa [hprofile, List.getElem?_cons_succ]
      · rwa [Nat.add_right_comm, Nat.add_assoc] at hfault
      · rw [hprofile] at hk'
        cases m with
        | zero =>
          rw [List.getElem?_cons_zero, Option.some.injEq] at hj hk'
          subst hj hk'
          exact suits_of_advance hadvance
        | succ m => exact hbefore m (Nat.lt_of_succ_lt_succ hm) j' k' hj hk'

namespace Func

variable {f : Func} {known known' : EntryHeights} {pending : List Arrival} {a : Arrival}
  {b root : BlockId} {B : Block} {p q : Place} {i : Instr} {h k n : Nat} {fault : Fault}

/-! ### Paths without a fault -/

/-- A step that keeps account of the height, from an instruction that finds what it needs. -/
def SafeStep (f : Func) (s t : Place × Nat) : Prop :=
  (∃ i, f.instrAt? s.1 = some i ∧ i.Suits s.2) ∧ f.StackStep s t

/-- Some path that starts with an empty stack, at the entry or at an exported block, comes to the
place with the height, and all instructions before have found what they need. -/
def Encounters (f : Func) (p : Place) (h : Nat) : Prop :=
  ∃ root, (f.entry? = some root ∨ f.IsExported root) ∧
    Relation.ReflTransGen f.SafeStep (⟨root, 0⟩, 0) (p, h)

/-- The faults that happen on some path: an instruction comes upon less than it pops, a return upon
other than its result, and two paths come to a block with different heights. -/
inductive Witnessed (f : Func) : Fault → Prop
  | underflow {p : Place} {i : Instr} {h : Nat} : f.Encounters p h → f.instrAt? p = some i →
      h < i.effect.pops → Witnessed f (.stackUnderflow (f.position p) h i.effect.pops)
  | ret {p : Place} {h : Nat} : f.Encounters p h → f.instrAt? p = some .ret → h ≠ 1 →
      Witnessed f (.invalidReturnHeight (f.position p) h)
  | mismatch {p : Place} {i : Instr} {h h' : Nat} : p.offset = 0 → f.instrAt? p = some i →
      f.Encounters p h → f.Encounters p h' → h ≠ h' →
      Witnessed f (.stackHeightMismatch (f.position p) h h')

private theorem Encounters.proceed (hp : f.Encounters p h) (hi : f.instrAt? p = some i)
    (hsuits : i.Suits h) (hpq : f.Proceeds p q) : f.Encounters q (i.heightAfter h) := by
  obtain ⟨root, hroot, hrun⟩ := hp
  exact ⟨root, hroot, hrun.tail ⟨⟨i, hi, hsuits⟩, .proceed hi hpq⟩⟩

private theorem Encounters.unwind (hp : f.Encounters p h) (hi : f.instrAt? p = some i)
    (hsuits : i.Suits h) (hpq : f.Unwinds p q) : f.Encounters q 0 := by
  obtain ⟨root, hroot, hrun⟩ := hp
  exact ⟨root, hroot, hrun.tail ⟨⟨i, hi, hsuits⟩, .unwind hpq⟩⟩

/-! ### Along a block -/

/-- As long as instructions find what they need, a path goes on through the block, with the heights
of its profile. -/
theorem Encounters.along (hf : f.Intact) (hb : f.Encounters ⟨b, 0⟩ h) (hB : f.block? b = some B)
    (hn : n < B.code.length) (hk : (heightProfile h B.code)[n]? = some k)
    (hbefore : Suited h B.code n) : f.Encounters ⟨b, n⟩ k := by
  obtain ⟨body, t, hshape⟩ := hf.shape b B hB
  induction n generalizing k with
  | zero =>
    rw [heightProfile_zero, Option.some.injEq] at hk
    exact hk ▸ hb
  | succ n ih =>
    have hj : B.code[n]? = some B.code[n] := List.getElem?_eq_getElem (Nat.lt_of_succ_lt hn)
    have hj' : f.instrAt? ⟨b, n⟩ = some B.code[n] := instrAt?_eq_some_iff.mpr ⟨B, hB, hj⟩
    have hlt : n < (heightProfile h B.code).length := by
      rw [length_heightProfile]
      omega
    have hk' := List.getElem?_eq_getElem hlt
    have hsuits := hbefore n (Nat.lt_succ_self n) _ _ hj hk'
    have hprev := ih (Nat.lt_of_succ_lt hn) hk' fun m hm ↦ hbefore m (Nat.lt_succ_of_lt hm)
    have hplain : B.code[n].isTerminator = false := by
      rw [← Bool.not_eq_true, hshape.isTerminator_iff hj]
      omega
    rw [heightProfile_succ hj hk', Option.some.injEq] at hk
    exact hk ▸ hprev.proceed hj' hsuits (.next hj' hplain)

/-- A path that comes to the start of a block comes to what the walk of the block is blamed for. -/
theorem Encounters.walk_error (hf : f.Intact) (hb : f.Encounters ⟨b, 0⟩ h)
    (hB : f.block? b = some B) (hwalk : walkCode (f.startOf b) h B.code = .error fault) :
    f.Witnessed fault := by
  obtain ⟨n, i, k, hi, hk, hadvance, hbefore⟩ := walkCode_eq_error hwalk
  have hn : n < B.code.length := (List.getElem?_eq_some_iff.mp hi).1
  have hi' : f.instrAt? ⟨b, n⟩ = some i := instrAt?_eq_some_iff.mpr ⟨B, hB, hi⟩
  have hencounters := hb.along hf hB hn hk hbefore
  rcases advance_eq_error hadvance with ⟨rfl, hne, rfl⟩ | ⟨hlt, rfl⟩
  · exact .ret hencounters hi' hne
  · exact .underflow hencounters hi' hlt

/-- A path through a block that can be walked comes to its terminator, and leaves it with the
height that the successors are sent. -/
theorem Encounters.walk_ok (hf : f.Intact) (hb : f.Encounters ⟨b, 0⟩ h) (hB : f.block? b = some B)
    {final : Nat} (hwalk : walkCode (f.startOf b) h B.code = .ok final) :
    ∃ n t k, f.instrAt? ⟨b, n⟩ = some t ∧ t.isTerminator = true ∧ f.Encounters ⟨b, n⟩ k ∧
      t.Suits k ∧ t.heightAfter k = final := by
  obtain ⟨body, t, hshape⟩ := hf.shape b B hB
  obtain ⟨hlast, hall⟩ := walkCode_profile hwalk
  have hsuits (m : Nat) (j : Instr) (k : Nat) (hj : B.code[m]? = some j)
      (hk : (heightProfile h B.code)[m]? = some k) : j.Suits k :=
    ⟨(hall m j k hj hk).2, (hall m j k hj hk).1⟩
  have hlength : B.code.length = body.length + 1 := by simp [hshape.code_eq]
  have ht : B.code[body.length]? = some t := by simp [hshape.code_eq]
  have hlt : body.length < (heightProfile h B.code).length := by
    rw [length_heightProfile]
    omega
  have hk := List.getElem?_eq_getElem hlt
  refine ⟨body.length, t, _, instrAt?_eq_some_iff.mpr ⟨B, hB, ht⟩, hshape.terminates,
    hb.along hf hB (by omega) hk fun m _ ↦ hsuits m, hsuits _ t _ ht hk, ?_⟩
  rw [hlength, heightProfile_succ ht hk, Option.some.injEq] at hlast
  exact hlast

/-! ### Arrivals -/

/-- A block that is reached with a height is so by a path. -/
theorem Arrives.encounters (hf : f.Intact) (ha : f.Arrives a) : f.Encounters ⟨a.1, 0⟩ a.2 := by
  induction ha with
  | entry he => exact ⟨_, .inl he, .refl⟩
  | exported hb => exact ⟨_, .inr hb, .refl⟩
  | @send a c next _ hsends hc ih =>
    obtain ⟨B, final, hB, hwalk, hnext⟩ := hsends
    obtain ⟨n, t, k, ht, hterm, hencounters, hsuits, hafter⟩ := ih.walk_ok hf hB hwalk
    cases (mem_arrivals_iff hnext).mp hc with
    | inl hleads =>
      rw [hleads.2, ← hafter]
      exact hencounters.proceed ht hsuits (.leap ht hterm hleads.1)
    | inr hhandler =>
      obtain ⟨B', hB', hn⟩ := instrAt?_eq_some_iff.mp ht
      rw [hhandler.2]
      refine hencounters.unwind ht hsuits (.handler hB' (List.getElem?_eq_some_iff.mp hn).1 ?_)
      rw [← Option.some.inj (hB.symm.trans hB')]
      exact hhandler.1

/-! ### The run -/

section

variable (hf : f.Intact)

include hf

/-- One visit: the pending height and the recorded one are heights of paths. -/
theorem Tracked.visit_error (ht : f.Tracked known (a :: pending))
    (h : f.visit known a = .error fault) : f.Witnessed fault := by
  have ha := ht.pending a List.mem_cons_self
  obtain ⟨B, hB⟩ := contains_iff.mp (ha.reached.contains hf)
  rw [Func.visit, hB] at h
  simp only at h
  split at h
  · next expected hknown =>
    split at h
    · contradiction
    · next hne =>
      cases h
      obtain ⟨body, t, hshape⟩ := hf.shape a.1 B hB
      obtain ⟨i, hi⟩ := exists_instrAt? hB (n := 0) (by simp [hshape.code_eq])
      exact .mismatch rfl hi ((ht.known _ _ hknown).encounters hf) (ha.encounters hf) hne
  · split at h
    · next fault' hwalk =>
      cases h
      exact (ha.encounters hf).walk_error hf hB hwalk
    · next final hwalk =>
      obtain ⟨next, hnext⟩ := hf.exists_arrivals hB final
      rw [hnext] at h
      contradiction

private theorem Tracked.drain_error {fuel : Nat} (ht : f.Tracked known pending)
    (h : f.drain fuel pending known = .error fault) : f.Witnessed fault := by
  induction fuel generalizing pending known with
  | zero => contradiction
  | succ fuel ih =>
    cases pending with
    | nil => contradiction
    | cons a pending =>
      rw [drain] at h
      split at h
      · next fault' hvisit =>
        cases h
        exact ht.visit_error hf hvisit
      · next v hvisit => exact ih (ht.visit hvisit) h

private theorem Tracked.drainExports_error {l : List BlockId} (hl : ∀ b ∈ l, f.IsExported b)
    (ht : f.Tracked known []) (h : f.drainExports l known = .error fault) : f.Witnessed fault := by
  induction l generalizing known with
  | nil => contradiction
  | cons b l ih =>
    have hl' (x : BlockId) (hx : x ∈ l) : f.IsExported x := hl x (List.mem_cons_of_mem b hx)
    have hb : f.Arrives (b, 0) := .exported (hl b List.mem_cons_self)
    rw [drainExports] at h
    split at h
    · exact ih hl' ht h
    · split at h
      · next fault' hfrom =>
        cases h
        exact (ht.start hb).drain_error hf hfrom
      · next known₁ hfrom => exact ih hl' (hf.wf.drainFrom_tracked ht hb hfrom).1 h

end

/-- When the check of the stack rejects a valid function, what it says is so: the fault happens on
a path that starts with an empty stack at the entry or at an exported block, at the offset and with
the heights that are named. Below `2 ^ 32` instructions these heights are those of 32-bit words, by
the bounds of `Bytecode.Proofs.Stack.Course`. -/
theorem stackLayout_witnesses (hw : f.WF) (hf : f.fault? = none)
    (h : f.stackLayout = .error fault) : f.Witnessed fault := by
  have hintact := (hw.fault?_eq_none_iff.mp hf).intact
  obtain ⟨e, he⟩ := hintact.exists_entry
  have hentry := f.tracked_empty.start (.entry he)
  simp only [stackLayout, entryHeights, he, hintact.find?_isEmpty] at h
  split at h
  · next fault' hheights =>
    cases h
    split at hheights
    · next fault' hfrom =>
      cases hheights
      exact hentry.drain_error hintact hfrom
    · next known hfrom =>
      have ht := (hw.drainFrom_tracked f.tracked_empty (.entry he) hfrom).1
      exact ht.drainExports_error hintact (fun b hb ↦ hw.mem_exportedBlocks.mp hb) hheights
  · contradiction

/-- Two branches of which one pushes a value before they meet. -/
def lopsided : Func :=
  ((Draft.start "lopsided" 0 0).declareAll
    [.block { id := 0, code := [.push .null, .branch 1 2] },
      .block { id := 1, code := [.push .null, .jump 3] },
      .block { id := 2, code := [.jump 3] },
      .block { id := 3, code := [.ret] }]).build

/-- The mismatch that is named for `lopsided` happens where its branches meet. -/
theorem lopsided_witnesses :
    lopsided.WF ∧ lopsided.fault? = none ∧
      lopsided.stackLayout = .error (.stackHeightMismatch 5 1 0) ∧
      lopsided.Witnessed (.stackHeightMismatch 5 1 0) := by
  have hdrafted : lopsided.Drafted := ⟨_, _, _, _, rfl⟩
  have hf : lopsided.fault? = none := by decide +kernel
  have herror : lopsided.stackLayout = .error (.stackHeightMismatch 5 1 0) := by decide +kernel
  exact ⟨hdrafted.wf, hf, herror, stackLayout_witnesses hdrafted.wf hf herror⟩

end Func

end Bytecode
