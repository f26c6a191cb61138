import Bytecode.Proofs.Optimize.Passes

/-!
# Where merging comes to rest

Three rounds suffice for every function. In the result no block can take in another, and whoever
follows a jump that is still a detour goes in circles: fusing has turned the other circles into
blocks that jump to themselves, and every way to such a block, or to one that does something, was
removed.
-/

namespace Bytecode

open Func Relation

-- A relation that never stops leads into a cycle, if only finitely many elements follow the
-- start.
private theorem exists_cycle {R : BlockId → BlockId → Prop} {l : List BlockId} {x y : BlockId}
    (hgo : ∀ a b, R a b → ∃ c, R b c) (hxy : R x y) (hl : ∀ z, TransGen R x z → z ∈ l) :
    ∃ c, ReflTransGen R x c ∧ TransGen R c c := by
  induction hn : l.length generalizing l x y with
  | zero =>
    have hmem := hl y (.single hxy)
    rw [List.length_eq_zero_iff.mp hn] at hmem
    contradiction
  | succ n ih =>
    by_cases hcycle : TransGen R y y
    · exact ⟨y, .single hxy, hcycle⟩
    · -- What follows `y` follows `x` too and is not `y` again.
      obtain ⟨z, hyz⟩ := hgo x y hxy
      have hmem := hl y (.single hxy)
      have hrest : ∀ w, TransGen R y w → w ∈ l.erase y := by
        intro w hw
        have hne : w ≠ y := by
          rintro rfl
          exact hcycle hw
        exact (List.mem_erase_of_ne hne).mpr (hl w (.head hxy hw))
      have hlength : (l.erase y).length = n := by
        rw [List.length_erase_of_mem hmem, hn, Nat.add_sub_cancel]
      obtain ⟨c, hyc, hc⟩ := ih hyz hrest hlength
      exact ⟨c, .head hxy hyc, hc⟩

/-- The block is not exported and does nothing but jump to another one. -/
def Func.Hops (f : Func) (a b : BlockId) : Prop := f.Forwards a b ∧ b ≠ a

namespace Merge

variable {f : Func} {settings : Settings} {x y : BlockId}

private theorem Circling.exists_cycle (h : Circling f) (hf : f.Sound) (hxy : f.Hops x y) :
    ∃ c, ReflTransGen f.Hops x c ∧ TransGen f.Hops c c := by
  apply Bytecode.exists_cycle (l := f.layout) _ hxy
  · intro z hz
    obtain ⟨w, _, hwz⟩ := TransGen.tail'_iff.mp hz
    exact (hf.wf.mem_layout z).mpr (hf.leads w z hwz.1.leads)
  · intro a b hab
    exact h a b hab.1 hab.2

/-- Merging with three rounds or more ends. A live block keeps a jump to another one only if that
is the entry, is exported, has another handler, or is reached from elsewhere. Blocks that do
nothing but jump elsewhere lead into circles of their kind. -/
theorem run_converges (hf : f.Drafted) (hv : f.fault? = none)
    (hrounds : 3 ≤ settings.maxMergeRounds) :
    (∃ changed, (run settings f).result = .ok changed) ∧
    (∀ a b A B, (run settings f).func.Live a → (run settings f).func.block? a = some A →
      A.terminator? = some (.jump b) → (run settings f).func.block? b = some B → b ≠ a →
      (run settings f).func.entry? ≠ some b → B.exported = false → B.handler = A.handler →
      ∃ p, (run settings f).func.Live p ∧ (run settings f).func.Leads p b ∧ p ≠ a) ∧
    ∀ x y, (run settings f).func.Hops x y →
      ∃ c, ReflTransGen (run settings f).func.Hops x c ∧
        TransGen (run settings f).func.Hops c c := by
  have hsound := hf.sound hv
  -- Which passes are asked for makes no difference to a single one.
  have hyields : (run settings).Yields f _ _ :=
    @yields_run f { settings with mergeBlocks := true } hsound rfl
  cases hresult : (run settings f).result with
  | error fault =>
    obtain ⟨_, hfew, _⟩ := hyields.of_error hresult
    exact absurd hrounds (Nat.not_le.mpr hfew)
  | ok changed =>
    obtain ⟨hrecorded, hmerged, _, _⟩ := hyields.of_ok hresult
    refine ⟨⟨changed, rfl⟩, ?_, ?_⟩
    · intro a b A B hlive hA hjump hB hne hentry hexp hhandler
      by_contra honly
      apply hmerged.unlinked a b
      refine ⟨hlive, hne, ⟨⟨A, hA, hjump⟩, ?_, hentry, ?_⟩, ?_⟩
      · rintro ⟨B', hB', hexp'⟩
        rw [hB, Option.some.injEq] at hB'
        rw [hB', hexp'] at hexp
        contradiction
      · intro p hp hpb
        by_contra hpa
        exact honly ⟨p, hp, hpb, hpa⟩
      · intro A' B' hA' hB'
        rw [hA, Option.some.injEq] at hA'
        rw [hB, Option.some.injEq] at hB'
        rw [← hA', ← hB', hhandler]
    · intro x y hxy
      exact hmerged.circling.exists_cycle (hrecorded.edits.sound hsound) hxy

/-- Blocks `1` and `2` jump to each other and `3` leads to them, so `3` can go only once the two
are one. Both blocks of the other circle, `6` and `7`, are entered from outside of it. -/
def circles : Func :=
  ((Draft.start "circles" 0 0).declareAll
    [.block { id := 0, code := [.push .null, .branch 3 4] },
      .block { id := 1, code := [.jump 2] },
      .block { id := 2, code := [.jump 1] },
      .block { id := 3, code := [.jump 1] },
      .block { id := 4, code := [.push .null, .branch 6 7] },
      .block { id := 6, code := [.jump 7] },
      .block { id := 7, code := [.jump 6] }]).build

/-- Here two rounds are not enough, and after three the second circle is left. -/
theorem circles_converge :
    circles.Drafted ∧ circles.fault? = none ∧
    (run { maxMergeRounds := 2 } circles).result = .error (.mergeUnfinished 2 "circles") ∧
    (∃ changed, (run { maxMergeRounds := 3 } circles).result = .ok changed) ∧
    (run { maxMergeRounds := 3 } circles).func.layout = [0, 1, 4, 6, 7] ∧
    ∃ c, ReflTransGen (run { maxMergeRounds := 3 } circles).func.Hops 6 c ∧
      TransGen (run { maxMergeRounds := 3 } circles).func.Hops c c := by
  have hdrafted : circles.Drafted := ⟨_, _, _, _, rfl⟩
  have hvalid : circles.fault? = none := by decide +kernel
  have hblock : (run { maxMergeRounds := 3 } circles).func.block? 6 =
      some { code := [.jump 7] } := by decide +kernel
  obtain ⟨hok, _, hcycles⟩ :=
    @run_converges circles { maxMergeRounds := 3 } hdrafted hvalid (Nat.le_refl 3)
  exact ⟨hdrafted, hvalid, by decide +kernel, hok, by decide +kernel,
    hcycles 6 7 ⟨⟨_, hblock, rfl, rfl⟩, by decide⟩⟩

end Merge

end Bytecode
