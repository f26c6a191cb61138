import Bytecode.Optimize.Slots
import Bytecode.Proofs.Registers.LiveRanges
import Std.Data.TreeSet.Lemmas

/-!
# Registers that share a slot

Slots are handed out point by point. Before a point, the registers whose range has started have a
slot, none of them below the argument count; a slot is free only when the ranges of all registers
that had it are over. So registers that share a slot have ranges apart from each other.
-/

namespace Bytecode.Slots.Assignment

private theorem walk_eq_foldl (live : Liveness) (p : Nat) (code : List Instr) (a : Assignment) :
    walk live p code a = (code.zipIdx p).foldl (fun a i ↦ a.step live i.2 i.1) a := by
  induction code generalizing p a with
  | nil => rfl
  | cons i rest ih => rw [walk, ih, List.zipIdx_cons, List.foldl_cons]

/-- The slots of a function by one fold over its numbered instructions. In this form they evaluate,
once the lowest free slot is read off as the first in order. -/
theorem ofFunc_eq_foldl (f : Func) (live : Liveness) :
    ofFunc f live = (f.sites.map Site.instr).zipIdx.foldl (fun a i ↦ a.step live i.2 i.1)
      ⟨∅, ∅, f.argCount⟩ :=
  walk_eq_foldl live 0 _ _

/-- The slots that were handed out and given back before a point fit the live ranges. -/
structure Fits (live : Liveness) (argCount t : Nat) (a : Assignment) : Prop where
  argCount_le : argCount ≤ a.next
  held : ∀ r : Register, (∃ s, a.slotOf[r]? = some s) ↔
    ∃ range, live.range? r = some range ∧ range.start < t
  slot_bound : ∀ (r : Register) s, a.slotOf[r]? = some s → argCount ≤ s ∧ s < a.next
  free_bound : ∀ s ∈ a.free, argCount ≤ s ∧ s < a.next
  free_idle : ∀ (r : Register) s range, a.slotOf[r]? = some s → live.range? r = some range →
    s ∈ a.free → range.stop ≤ t
  apart : ∀ (q r : Register) s, q ≠ r → a.slotOf[q]? = some s → a.slotOf[r]? = some s →
    ∀ range range', live.range? q = some range → live.range? r = some range' →
      range.stop ≤ range'.start ∨ range'.stop ≤ range.start

variable {live : Liveness} {argCount t q : Nat} {a : Assignment} {r : Register} {sites : List Site}

/-- Nothing is to be done at a point where no range starts. -/
theorem Fits.later (h : Fits live argCount t a)
    (ht : ∀ r range, live.range? r = some range → range.start ≠ t) :
    Fits live argCount (t + 1) a where
  argCount_le := h.argCount_le
  held := by
    intro r
    rw [h.held r]
    constructor
    · rintro ⟨range, hrange, hlt⟩
      exact ⟨range, hrange, by omega⟩
    · rintro ⟨range, hrange, hlt⟩
      have hne := ht r range hrange
      exact ⟨range, hrange, by omega⟩
  slot_bound := h.slot_bound
  free_bound := h.free_bound
  free_idle := by
    intro r s range hs hrange hfree
    have := h.free_idle r s range hs hrange hfree
    omega
  apart := h.apart

/-- A slot may be given back once the range of its register is over: the registers that had it
before are idle already. -/
theorem Fits.release (h : Fits live argCount (t + 1) a) (r : Register) :
    Fits live argCount (t + 1) (a.release live r t) := by
  unfold Assignment.release
  split
  · next range slot hrange hslot =>
    split
    · next hends =>
      have hstop : range.stop = t + 1 := (of_decide_eq_true hends).symm
      refine ⟨h.argCount_le, h.held, h.slot_bound, ?_, ?_, h.apart⟩
      · intro s hs
        rw [Std.TreeSet.mem_insert, Std.compare_eq_iff_eq] at hs
        cases hs with
        | inl heq => exact heq ▸ h.slot_bound r slot hslot
        | inr hs => exact h.free_bound s hs
      · intro q s range' hs hrange' hfree
        rw [Std.TreeSet.mem_insert, Std.compare_eq_iff_eq] at hfree
        cases hfree with
        | inr hfree => exact h.free_idle q s range' hs hrange' hfree
        | inl heq =>
          subst heq
          by_cases hqr : q = r
          · subst hqr
            rw [hrange, Option.some.injEq] at hrange'
            exact Nat.le_of_eq (hrange' ▸ hstop)
          · -- Both have started, so the one that does not end here has ended before.
            obtain ⟨_, hstarted, hlt⟩ := (h.held q).mp ⟨slot, hs⟩
            obtain ⟨_, hstarted', hlt'⟩ := (h.held r).mp ⟨slot, hslot⟩
            rw [hrange', Option.some.injEq] at hstarted
            rw [hrange, Option.some.injEq] at hstarted'
            subst hstarted hstarted'
            have := h.apart q r slot hqr hs hslot range' range hrange' hrange
            omega
    · exact h
  · exact h

/-- A taken slot was free or is new, so whoever had it before is through with it. -/
theorem take_spec (h : Fits live argCount t a) (r : Register) :
    ∃ slot, (a.take r).slotOf = a.slotOf.insert r slot ∧ argCount ≤ slot ∧
      slot < (a.take r).next ∧ a.next ≤ (a.take r).next ∧
      (∀ s ∈ (a.take r).free, s ∈ a.free ∧ s ≠ slot) ∧
      ∀ (q : Register) range, a.slotOf[q]? = some slot → live.range? q = some range →
        range.stop ≤ t := by
  unfold take
  split
  · next slot hmin =>
    have hmem : slot ∈ a.free := by
      rw [← Std.TreeSet.contains_iff_mem]
      exact Std.TreeSet.contains_min? hmin
    have hbound := h.free_bound slot hmem
    refine ⟨slot, rfl, hbound.1, hbound.2, Nat.le_refl _, fun s hs ↦ ?_,
      fun q range hq hrange ↦ h.free_idle q slot range hq hrange hmem⟩
    rw [Std.TreeSet.mem_erase] at hs
    exact ⟨hs.2, fun he ↦ hs.1 (by simp [he])⟩
  · refine ⟨a.next, rfl, h.argCount_le, Nat.lt_succ_self _, Nat.le_succ _,
      fun s hs ↦ ⟨hs, Nat.ne_of_lt (h.free_bound s hs).2⟩, fun q range hq _ ↦ ?_⟩
    exact absurd (h.slot_bound q _ hq).2 (Nat.lt_irrefl _)

private theorem Fits.take (h : Fits live argCount t a) {range : LiveRange}
    (hrange : live.range? r = some range) (hstart : range.start = t)
    (ht : ∀ q range, live.range? q = some range → range.start = t → q = r) :
    Fits live argCount (t + 1) (a.take r) := by
  obtain ⟨slot, hslotOf, hge, hlt, hnext, hfree, hidle⟩ := take_spec h r
  have hself : (a.take r).slotOf[r]? = some slot := by
    rw [hslotOf, Std.TreeMap.getElem?_insert_self]
  have hother {q : Register} (hq : r ≠ q) : (a.take r).slotOf[q]? = a.slotOf[q]? := by
    rw [hslotOf, Std.TreeMap.getElem?_insert]
    simp [hq]
  have hapart {q : Register} {s : Nat} (hq : r ≠ q) (hs : (a.take r).slotOf[r]? = some s)
      (hs' : (a.take r).slotOf[q]? = some s) {range' : LiveRange}
      (hrange' : live.range? q = some range') : range'.stop ≤ range.start := by
    rw [hself, Option.some.injEq] at hs
    rw [hother hq, ← hs] at hs'
    exact hstart ▸ hidle q range' hs' hrange'
  constructor
  · exact Nat.le_trans h.argCount_le hnext
  · intro q
    by_cases hq : r = q
    · subst hq
      exact ⟨fun _ ↦ ⟨range, hrange, by omega⟩, fun _ ↦ ⟨slot, hself⟩⟩
    · rw [hother hq, h.held q]
      constructor
      · rintro ⟨range', hrange', hlt'⟩
        exact ⟨range', hrange', by omega⟩
      · rintro ⟨range', hrange', hlt'⟩
        have hne : range'.start ≠ t := fun he ↦ hq (ht q range' hrange' he).symm
        exact ⟨range', hrange', by omega⟩
  · intro q s hs
    by_cases hq : r = q
    · subst hq
      rw [hself, Option.some.injEq] at hs
      exact hs ▸ ⟨hge, hlt⟩
    · rw [hother hq] at hs
      have := h.slot_bound q s hs
      omega
  · intro s hs
    have := h.free_bound s (hfree s hs).1
    omega
  · intro q s range' hs hrange' hs'
    by_cases hq : r = q
    · subst hq
      rw [hself, Option.some.injEq] at hs
      exact absurd hs.symm (hfree s hs').2
    · rw [hother hq] at hs
      have := h.free_idle q s range' hs hrange' (hfree s hs').1
      omega
  · intro q q' s hne hs hs' range₁ range₂ hrange₁ hrange₂
    by_cases hq : r = q
    · subst hq
      rw [hrange, Option.some.injEq] at hrange₁
      exact .inr (hrange₁ ▸ hapart hne hs hs' hrange₂)
    · by_cases hq' : r = q'
      · subst hq'
        rw [hrange, Option.some.injEq] at hrange₂
        exact .inl (hrange₂ ▸ hapart hq hs' hs hrange₁)
      · rw [hother hq] at hs
        rw [hother hq'] at hs'
        exact h.apart q q' s hne hs hs' range₁ range₂ hrange₁ hrange₂

/-- A register may be handed a slot at the point where its range starts. -/
theorem Fits.acquire (h : Fits live argCount t a)
    (ht : ∀ q range, live.range? q = some range → range.start = t → q = r) :
    Fits live argCount (t + 1) (a.acquire live r t) := by
  unfold Assignment.acquire
  split
  · next range hrange =>
    split
    · next hstart => exact h.take hrange hstart ht
    · next hstart =>
      apply h.later
      intro q range' hrange' he
      have hqr := ht q range' hrange' he
      subst hqr
      rw [hrange, Option.some.injEq] at hrange'
      exact hstart (hrange' ▸ he)
  · next hnone =>
    apply h.later
    intro q range' hrange' he
    rw [ht q range' hrange' he, hnone] at hrange'
    contradiction

/-! ### The walk -/

section Walk

variable (hlive : Liveness.Records argCount sites (Point.read sites.length) live.ranges)
include hlive

/-- No range starts at a point where an instruction reads. -/
theorem Fits.reading (h : Fits live argCount (Point.read q) a) :
    Fits live argCount (Point.write q) a := by
  apply h.later
  intro r range hrange hstart
  have hwrite := (hlive.spans r range hrange).isWrite
  rw [hstart, Point.isWrite_read] at hwrite
  contradiction

/-- One instruction takes a fitting assignment to the points of the next one. -/
theorem step_fits {s : Site} (hs : sites[q]? = some s) (h : Fits live argCount (Point.read q) a) :
    Fits live argCount (Point.read (q + 1)) (a.step live q s.instr) := by
  have hread := h.reading hlive
  have hstarts (r : Register) (range : LiveRange) (hrange : live.range? r = some range)
      (hstart : range.start = Point.write q) : s.instr.writes = some r := by
    rw [← accessAt?_write hs, ← hstart]
    exact (hlive.spans r range hrange).starts
  unfold step
  extract_lets afterRead
  have hafter : Fits live argCount (Point.write q) afterRead := by
    unfold afterRead
    split
    · exact hread.release _
    · exact hread
  split
  · next r hr =>
    apply Fits.release
    apply hafter.acquire
    intro q' range hrange hstart
    have hw := hstarts q' range hrange hstart
    rw [hr, Option.some.injEq] at hw
    exact hw.symm
  · next hnone =>
    apply hafter.later
    intro r range hrange hstart
    rw [hstarts r range hrange hstart] at hnone
    contradiction

private theorem walk_fits {rest : List Site} (hrest : sites.drop q = rest)
    (h : Fits live argCount (Point.read q) a) :
    Fits live argCount (Point.read (q + rest.length)) (walk live q (rest.map Site.instr) a) := by
  induction rest generalizing q a with
  | nil => exact h
  | cons s rest ih =>
    obtain ⟨hs, hdrop⟩ := of_drop_eq_cons hrest
    have hdone := ih hdrop (step_fits hlive hs h)
    rwa [Nat.add_right_comm, Nat.add_assoc] at hdone

end Walk

/-! ### The slots of a function -/

section Function

variable {f : Func} (hlive : Liveness.ofFunc f = .ok live)
include hlive

/-- In the end the assignment fits all live ranges. -/
theorem ofFunc_fits :
    Fits live f.argCount (Point.read f.sites.length) (ofFunc f live) := by
  have hempty : Fits live f.argCount (Point.read 0) ⟨∅, ∅, f.argCount⟩ := by
    constructor <;> simp [Point.read]
  have hdone := walk_fits (Liveness.ofFunc_records hlive) (q := 0) rfl hempty
  rwa [Nat.zero_add] at hdone

/-- Arguments stay where they are. -/
theorem slot_of_lt_argCount (hr : r < f.argCount) : (ofFunc f live).slot r = r := by
  have hnone : (ofFunc f live).slotOf[r]? = none := by
    rw [Option.eq_none_iff_forall_ne_some]
    intro s hs
    obtain ⟨range, hrange, _⟩ := ((ofFunc_fits hlive).held r).mp ⟨s, hs⟩
    exact Nat.not_le_of_lt hr ((Liveness.ofFunc_records hlive).argCount_le hrange)
  rw [slot, Std.TreeMap.getD_eq_getD_getElem?, hnone, Option.getD_none]

/-- No other register moves to the slot of an argument. -/
theorem argCount_le_slot (hr : f.argCount ≤ r) : f.argCount ≤ (ofFunc f live).slot r := by
  rw [slot, Std.TreeMap.getD_eq_getD_getElem?]
  cases hs : (ofFunc f live).slotOf[r]? with
  | none => exact hr
  | some s => exact ((ofFunc_fits hlive).slot_bound r s hs).1

/-- No register shares the slot of an argument. -/
theorem eq_of_slot_eq_of_lt {q : Register} (hr : r < f.argCount)
    (hslot : (ofFunc f live).slot q = (ofFunc f live).slot r) : q = r := by
  rw [slot_of_lt_argCount hlive hr] at hslot
  have hq : q < f.argCount := by
    apply Nat.lt_of_not_le
    intro hq
    have hle := argCount_le_slot hlive hq
    rw [hslot] at hle
    exact Nat.not_le_of_lt hr hle
  rwa [slot_of_lt_argCount hlive hq] at hslot

/-- While a register is in use, its slot is no other's: what is accessed there between two accesses
of the register is the register itself. -/
theorem eq_of_slot_eq {q : Register} {p₁ p₂ p₃ : Nat} (hr : f.argCount ≤ r)
    (h₁ : accessAt? f.sites p₁ = some r) (h₂ : accessAt? f.sites p₂ = some q)
    (h₃ : accessAt? f.sites p₃ = some r) (h₁₂ : p₁ ≤ p₂) (h₂₃ : p₂ ≤ p₃)
    (hslot : (ofFunc f live).slot q = (ofFunc f live).slot r) : q = r := by
  have hq : f.argCount ≤ q := by
    apply Nat.le_of_not_lt
    intro hq
    exact Nat.not_le_of_lt hq (eq_of_slot_eq_of_lt hlive hq hslot.symm ▸ hr)
  have hfits := ofFunc_fits hlive
  have hrec := Liveness.ofFunc_records hlive
  obtain ⟨range, hrange, hstart, _⟩ := hrec.exists_range hr h₁
  obtain ⟨_, hrange', _, hstop⟩ := hrec.exists_range hr h₃
  obtain ⟨range₂, hrange₂, hstart₂, hstop₂⟩ := hrec.exists_range hq h₂
  rw [hrange, Option.some.injEq] at hrange'
  subst hrange'
  have hheld (x : Register) (range : LiveRange) (hx : live.range? x = some range) :
      (ofFunc f live).slotOf[x]? = some ((ofFunc f live).slot x) := by
    have hlt := lt_of_accessAt? (hrec.spans x range hx).starts
    obtain ⟨s, hs⟩ := (hfits.held x).mpr ⟨range, hx, hlt⟩
    rw [slot, Std.TreeMap.getD_eq_getD_getElem?, hs, Option.getD_some]
  apply Decidable.byContradiction
  intro hne
  have :=
    hfits.apart q r _ hne (hslot ▸ hheld q range₂ hrange₂) (hheld r range hrange) range₂ range
    hrange₂ hrange
  omega

end Function

end Bytecode.Slots.Assignment
