import Bytecode.Func.Draft
import Bytecode.Proofs.Registers.Stability
import Mathlib.Order.Bounds.Basic

/-!
# How many slots are needed

Registers whose ranges contain one point need different slots, so the pressure at any point bounds
the number of slots from below, whatever the assignment. The walk meets that bound: a slot that is
not free belongs to a range that goes on, so where it takes a new slot for want of a free one, all
slots handed out so far are held by ranges over that point.
-/

namespace Bytecode

/-! ### Pressure -/

namespace Liveness

variable {live : Liveness} {argCount n p : Nat} {r : Register}

/-- The registers whose ranges contain a point. -/
def liveAt (live : Liveness) (p : Nat) : List Register :=
  (live.ranges.toList.filter fun e ↦ e.2.contains p).map Prod.fst

/-- How many ranges contain a point. -/
def pressure (live : Liveness) (p : Nat) : Nat := (live.liveAt p).length

private theorem mem_liveAt : r ∈ live.liveAt p ↔
    ∃ range, live.range? r = some range ∧ range.start ≤ p ∧ p < range.stop := by
  simp [liveAt, Std.TreeMap.mem_toList_iff_getElem?_eq_some, range?, LiveRange.contains]

private theorem nodup_liveAt (live : Liveness) (p : Nat) : (live.liveAt p).Nodup := by
  have hdistinct : live.ranges.toList.Pairwise fun a b ↦ a.1 ≠ b.1 :=
    Std.TreeMap.distinct_keys_toList.imp fun h heq ↦ h (Std.compare_eq_iff_eq.mpr heq)
  unfold liveAt List.Nodup
  rw [List.pairwise_map]
  exact hdistinct.sublist List.filter_sublist

private theorem pressure_le_size (live : Liveness) (p : Nat) :
    live.pressure p ≤ live.ranges.size := by
  unfold pressure liveAt
  rw [List.length_map, ← Std.TreeMap.length_toList]
  exact List.length_filter_le _ _

-- Different numbers between two bounds are no more than lie between them.
private theorem length_le_of_nodup {l : List Nat} (hl : l.Nodup)
    (hbound : ∀ s ∈ l, argCount ≤ s ∧ s < n) : l.length ≤ n - argCount := by
  have hsub : l ⊆ List.range' argCount (n - argCount) := by
    intro s hs
    have := hbound s hs
    rw [List.mem_range'_1]
    omega
  have hle := (List.subperm_of_subset hl hsub).length_le
  rwa [List.length_range'] at hle

/-- Ranges over one point overlap, so their registers have slots of their own. -/
theorem pressure_le_of_separated {σ : Register → Nat}
    (hbound : ∀ r range, live.range? r = some range → argCount ≤ σ r ∧ σ r < n)
    (hsep : ∀ q r range range', q ≠ r → live.range? q = some range → live.range? r = some range' →
      range.overlaps range' = true → σ q ≠ σ r) (p : Nat) : live.pressure p ≤ n - argCount := by
  have hinj : ((live.liveAt p).map σ).Nodup := by
    apply List.Nodup.map_on _ (nodup_liveAt live p)
    intro q hq r hr hslot
    obtain ⟨range, hrange, hstart, hstop⟩ := mem_liveAt.mp hq
    obtain ⟨range', hrange', hstart', hstop'⟩ := mem_liveAt.mp hr
    have hoverlap : range.overlaps range' = true := by
      simp only [LiveRange.overlaps, Bool.and_eq_true, decide_eq_true_eq]
      omega
    by_contra hne
    exact hsep q r range range' hne hrange hrange' hoverlap hslot
  have hle := length_le_of_nodup hinj fun s hs ↦ by
    obtain ⟨r, hr, rfl⟩ := List.mem_map.mp hs
    obtain ⟨range, hrange, _⟩ := mem_liveAt.mp hr
    exact hbound r range hrange
  rwa [List.length_map] at hle

end Liveness

/-! ### Slots in use -/

namespace Slots.Assignment

variable {f : Func} {live : Liveness} {argCount t q : Nat} {a : Assignment} {r : Register}
  {sites : List Site}

/-- Every slot that is not free belongs to a register whose range goes on after the point. -/
def Busy (live : Liveness) (argCount t : Nat) (a : Assignment) : Prop :=
  ∀ s, argCount ≤ s → s < a.next → s ∉ a.free →
    ∃ (r : Register) (range : LiveRange),
      a.slotOf[r]? = some s ∧ live.range? r = some range ∧ t < range.stop

/-- There is a point at which as many slots were needed as were handed out. -/
def Peaked (live : Liveness) (argCount : Nat) (a : Assignment) : Prop :=
  ∃ p, a.next ≤ argCount + live.pressure p

/-- A register whose range has not started has no slot. -/
theorem Fits.slotOf_eq_none (h : Fits live argCount t a) {range : LiveRange}
    (hrange : live.range? r = some range) (hstart : t ≤ range.start) : a.slotOf[r]? = none := by
  rw [Option.eq_none_iff_forall_ne_some]
  intro s hs
  obtain ⟨range', hrange', hlt⟩ := (h.held r).mp ⟨s, hs⟩
  rw [hrange, Option.some.injEq] at hrange'
  subst hrange'
  omega

private theorem Busy.take (h : Busy live argCount t a) (hnone : a.slotOf[r]? = none)
    {range : LiveRange} (hrange : live.range? r = some range) (hstop : t < range.stop) :
    Busy live argCount t (a.take r) := by
  -- Whoever held a slot before is another register and holds it still.
  have hkeep (slot s : Nat) (hs : ∃ (x : Register) (range : LiveRange), a.slotOf[x]? = some s ∧
      live.range? x = some range ∧ t < range.stop) :
      ∃ (x : Register) (range : LiveRange), (a.slotOf.insert r slot)[x]? = some s ∧
        live.range? x = some range ∧ t < range.stop := by
    obtain ⟨x, range', hx, hrest⟩ := hs
    have hne : r ≠ x := by
      rintro rfl
      rw [hnone] at hx
      contradiction
    refine ⟨x, range', ?_, hrest⟩
    rw [Std.TreeMap.getElem?_insert]
    simpa [hne] using hx
  have hself (slot : Nat) : (a.slotOf.insert r slot)[r]? = some slot :=
    Std.TreeMap.getElem?_insert_self
  unfold Assignment.take
  split
  · next slot hmin =>
    intro s hge hlt hfree
    by_cases hs : s = slot
    · exact ⟨r, range, hs ▸ hself slot, hrange, hstop⟩
    · apply hkeep slot s (h s hge hlt _)
      intro hmem
      apply hfree
      rw [Std.TreeSet.mem_erase]
      exact ⟨by simpa using Ne.symm hs, hmem⟩
  · intro s hge hlt hfree
    by_cases hs : s = a.next
    · exact ⟨r, range, hs ▸ hself a.next, hrange, hstop⟩
    · have hlt' : s < a.next + 1 := hlt
      exact hkeep a.next s (h s hge (by omega) hfree)

/-- Where no slot is free, the holders of all slots and the register that takes a new one are live
at once. -/
theorem Busy.peaked_take (h : Busy live argCount t a) (hfits : Fits live argCount t a)
    (hpeak : Peaked live argCount a) {range : LiveRange} (hrange : live.range? r = some range)
    (hstart : range.start = t) (hstop : t < range.stop) : Peaked live argCount (a.take r) := by
  unfold Assignment.take
  split
  · exact hpeak
  · next hmin =>
    have hempty := Std.TreeSet.min?_eq_none_iff.mp hmin
    have hholder : ∀ s : {s // s ∈ List.range' argCount (a.next - argCount)},
        ∃ x : Register, a.slotOf[x]? = some s.1 ∧ x ∈ live.liveAt t := by
      rintro ⟨s, hs⟩
      rw [List.mem_range'_1] at hs
      have := hfits.argCount_le
      obtain ⟨x, range', hx, hrange', hstop'⟩ :=
        h s hs.1 (by omega) (Std.TreeSet.not_mem_of_isEmpty hempty)
      obtain ⟨range'', hrange'', hlt⟩ := (hfits.held x).mp ⟨s, hx⟩
      rw [hrange', Option.some.injEq] at hrange''
      subst hrange''
      exact ⟨x, hx, Liveness.mem_liveAt.mpr ⟨range', hrange', by omega, hstop'⟩⟩
    choose holder hslot hlive using hholder
    have hnone := hfits.slotOf_eq_none hrange (by omega)
    have hnodup : (r :: (List.range' argCount (a.next - argCount)).attach.map holder).Nodup := by
      rw [List.nodup_cons]
      constructor
      · intro hmem
        obtain ⟨s, _, hs⟩ := List.mem_map.mp hmem
        have := hslot s
        rw [hs, hnone] at this
        contradiction
      · apply List.Nodup.map_on _ (List.nodup_attach.mpr (List.nodup_range' 1))
        intro s _ s' _ heq
        have := (hslot s).symm.trans (heq ▸ hslot s')
        exact Subtype.ext (Option.some.inj this)
    have hsub : r :: (List.range' argCount (a.next - argCount)).attach.map holder ⊆
        live.liveAt t := by
      intro x hx
      rcases List.mem_cons.mp hx with rfl | hx
      · exact Liveness.mem_liveAt.mpr ⟨range, hrange, by omega, hstop⟩
      · obtain ⟨s, _, rfl⟩ := List.mem_map.mp hx
        exact hlive s
    have hle := (List.subperm_of_subset hnodup hsub).length_le
    rw [List.length_cons, List.length_map, List.length_attach, List.length_range'] at hle
    refine ⟨t, ?_⟩
    show a.next + 1 ≤ argCount + (live.liveAt t).length
    omega

/-! ### The walk -/

private theorem next_afterRead (i : Instr) : (a.afterRead live q i).next = a.next := by
  unfold Assignment.afterRead
  split
  · exact next_release
  · rfl

section Walk

variable (hlive : Liveness.Records argCount sites (Point.read sites.length) live.ranges)
include hlive

/-- A range that ends is over for its slot, which is given back at the last access. -/
theorem Busy.release (h : Busy live argCount t a) (hr : accessAt? sites t = some r) :
    Busy live argCount (t + 1) (a.release live r t) := by
  intro s hge hlt hfree
  rw [next_release] at hlt
  obtain ⟨x, range, hx, hrange, hstop⟩ := h s hge hlt fun hs ↦ hfree (free_release_sub hs)
  refine ⟨x, range, by rwa [slotOf_release], hrange, Nat.lt_of_le_of_ne hstop ?_⟩
  intro hend
  obtain ⟨p, _, hacc, hp⟩ := (hlive.spans x range hrange).stops
  obtain rfl : t = p := Nat.add_right_cancel (hend.trans hp)
  rw [hr, Option.some.injEq] at hacc
  subst hacc
  exact hfree (mem_free_release hrange hend.symm hx)

private theorem Busy.later (h : Busy live argCount t a) (hnone : accessAt? sites t = none) :
    Busy live argCount (t + 1) a := by
  intro s hge hlt hfree
  obtain ⟨x, range, hx, hrange, hstop⟩ := h s hge hlt hfree
  refine ⟨x, range, hx, hrange, Nat.lt_of_le_of_ne hstop ?_⟩
  intro hend
  obtain ⟨p, _, hacc, hp⟩ := (hlive.spans x range hrange).stops
  obtain rfl : t = p := Nat.add_right_cancel (hend.trans hp)
  rw [hnone] at hacc
  contradiction

private theorem Busy.acquire (h : Busy live argCount t a) (hfits : Fits live argCount t a)
    (hpeak : Peaked live argCount a) (r : Register) :
    Busy live argCount t (a.acquire live r t) ∧ Peaked live argCount (a.acquire live r t) := by
  by_cases hstarts : ∃ range, live.range? r = some range ∧ range.start = t
  · obtain ⟨range, hrange, hstart⟩ := hstarts
    have hstop : t < range.stop := by
      have hspans := hlive.spans r range hrange
      have := (hspans.covers range.start (lt_of_accessAt? hspans.starts) hspans.starts).2
      omega
    rw [acquire_of_start hrange hstart]
    exact ⟨h.take (hfits.slotOf_eq_none hrange (by omega)) hrange hstop,
      h.peaked_take hfits hpeak hrange hstart hstop⟩
  · rw [acquire_of_ne fun range hrange hstart ↦ hstarts ⟨range, hrange, hstart⟩]
    exact ⟨h, hpeak⟩

private theorem Fits.afterRead (h : Fits live argCount (Point.read q) a) (i : Instr) :
    Fits live argCount (Point.write q) (a.afterRead live q i) := by
  have hread := h.reading hlive
  unfold Assignment.afterRead
  split
  · exact hread.release _
  · exact hread

private theorem Busy.afterRead {s : Site} (hs : sites[q]? = some s)
    (h : Busy live argCount (Point.read q) a) :
    Busy live argCount (Point.write q) (a.afterRead live q s.instr) := by
  have hacc := accessAt?_read hs
  unfold Assignment.afterRead
  split
  · next r hr => exact h.release hlive (hacc.trans hr)
  · next hnone => exact h.later hlive (hacc.trans hnone)

private theorem Busy.step {s : Site} (hs : sites[q]? = some s)
    (h : Busy live argCount (Point.read q) a) (hfits : Fits live argCount (Point.read q) a)
    (hpeak : Peaked live argCount a) :
    Busy live argCount (Point.read (q + 1)) (a.step live q s.instr) ∧
      Peaked live argCount (a.step live q s.instr) := by
  have hacc := accessAt?_write hs
  have hbusy := h.afterRead hlive hs
  have hpeak' : Peaked live argCount (a.afterRead live q s.instr) := by
    unfold Peaked
    rwa [next_afterRead]
  rw [step_eq]
  split
  · next r hr =>
    obtain ⟨hbusy', hpeak''⟩ := hbusy.acquire hlive (hfits.afterRead hlive s.instr) hpeak' r
    refine ⟨hbusy'.release hlive (hacc.trans hr), ?_⟩
    unfold Peaked
    rwa [next_release]
  · next hnone => exact ⟨hbusy.later hlive (hacc.trans hnone), hpeak'⟩

private theorem Busy.walk {rest : List Site} (hrest : sites.drop q = rest)
    (h : Busy live argCount (Point.read q) a) (hfits : Fits live argCount (Point.read q) a)
    (hpeak : Peaked live argCount a) :
    Peaked live argCount (Assignment.walk live q (rest.map Site.instr) a) := by
  induction rest generalizing q a with
  | nil => exact hpeak
  | cons s rest ih =>
    obtain ⟨hs, hdrop⟩ := of_drop_eq_cons hrest
    obtain ⟨hbusy, hpeak'⟩ := h.step hlive hs hfits hpeak
    exact ih hdrop hbusy (step_fits hlive hs hfits) hpeak'

end Walk

/-! ### The slots of a function -/

section Function

variable (hlive : Liveness.ofFunc f = .ok live)
include hlive

private theorem peaked_ofFunc : Peaked live f.argCount (ofFunc f live) := by
  have hfits : Fits live f.argCount (Point.read 0) ⟨∅, ∅, f.argCount⟩ := by
    constructor <;> simp [Point.read]
  have hbusy : Busy live f.argCount (Point.read 0) ⟨∅, ∅, f.argCount⟩ := by
    intro s hge hlt
    have hlt' : s < f.argCount := hlt
    omega
  exact hbusy.walk (Liveness.ofFunc_records hlive) rfl hfits ⟨0, Nat.le_add_right _ _⟩

private theorem exists_slotOf_iff :
    (∃ s, (ofFunc f live).slotOf[r]? = some s) ↔ ∃ range, live.range? r = some range := by
  rw [(ofFunc_fits hlive).held r]
  constructor
  · rintro ⟨range, hrange, _⟩
    exact ⟨range, hrange⟩
  · rintro ⟨range, hrange⟩
    have hstarts := ((Liveness.ofFunc_records hlive).spans r range hrange).starts
    exact ⟨range, hrange, lt_of_accessAt? hstarts⟩

private theorem slotOf_eq_slot {range : LiveRange} (hrange : live.range? r = some range) :
    (ofFunc f live).slotOf[r]? = some ((ofFunc f live).slot r) := by
  obtain ⟨s, hs⟩ := (exists_slotOf_iff hlive).mpr ⟨range, hrange⟩
  rw [slot, Std.TreeMap.getD_eq_getD_getElem?, hs, Option.getD_some]

private theorem slot_ne_of_overlaps {q r : Register} {range range' : LiveRange} (hne : q ≠ r)
    (hrange : live.range? q = some range) (hrange' : live.range? r = some range')
    (hoverlap : range.overlaps range' = true) :
    (ofFunc f live).slot q ≠ (ofFunc f live).slot r := by
  intro heq
  have hq := slotOf_eq_slot hlive hrange
  rw [heq] at hq
  have := (ofFunc_fits hlive).apart q r _ hne hq (slotOf_eq_slot hlive hrange') range range'
    hrange hrange'
  simp only [LiveRange.overlaps, Bool.and_eq_true, decide_eq_true_eq] at hoverlap
  omega

private theorem slot_bounds {range : LiveRange} (hrange : live.range? r = some range) :
    f.argCount ≤ (ofFunc f live).slot r ∧ (ofFunc f live).slot r < (ofFunc f live).next :=
  (ofFunc_fits hlive).slot_bound r _ (slotOf_eq_slot hlive hrange)

/-- The number of slots, arguments included, is the largest pressure at a point on top of the
arguments. -/
theorem isGreatest_next :
    IsGreatest (Set.range fun p ↦ f.argCount + live.pressure p) (ofFunc f live).next := by
  have hupper (p : Nat) : f.argCount + live.pressure p ≤ (ofFunc f live).next := by
    have := Liveness.pressure_le_of_separated (fun _ _ hrange ↦ slot_bounds hlive hrange)
      (fun _ _ _ _ hne hrange hrange' ↦ slot_ne_of_overlaps hlive hne hrange hrange') p
    have := (ofFunc_fits hlive).argCount_le
    omega
  constructor
  · obtain ⟨p, hp⟩ := peaked_ofFunc hlive
    exact ⟨p, Nat.le_antisymm (hupper p) hp⟩
  · rintro _ ⟨p, rfl⟩
    exact hupper p

/-- Slots go to the registers that have a live range and to no others; none is an argument's, and
registers whose ranges overlap have different ones. Their number is the largest pressure at a point
on top of the arguments, at most one for each range; and it is the least possible: no other way to
keep overlapping ranges apart beyond the arguments gets by with fewer slots. -/
theorem ofFunc_optimal :
    (∀ r, (∃ s, (ofFunc f live).slotOf[r]? = some s) ↔ ∃ range, live.range? r = some range) ∧
    (∀ (r : Register) s, (ofFunc f live).slotOf[r]? = some s →
      f.argCount ≤ s ∧ s < (ofFunc f live).next) ∧
    (∀ q r range range', q ≠ r → live.range? q = some range → live.range? r = some range' →
      range.overlaps range' = true → (ofFunc f live).slotOf[q]? ≠ (ofFunc f live).slotOf[r]?) ∧
    IsGreatest (Set.range fun p ↦ f.argCount + live.pressure p) (ofFunc f live).next ∧
    (ofFunc f live).next ≤ f.argCount + live.ranges.size ∧
    ∀ (σ : Register → Nat) (n : Nat), f.argCount ≤ n →
      (∀ r range, live.range? r = some range → f.argCount ≤ σ r ∧ σ r < n) →
      (∀ q r range range', q ≠ r → live.range? q = some range → live.range? r = some range' →
        range.overlaps range' = true → σ q ≠ σ r) →
      (ofFunc f live).next ≤ n := by
  obtain ⟨⟨peak, hpeak⟩, hupper⟩ := isGreatest_next hlive
  have hpeak' : f.argCount + live.pressure peak = (ofFunc f live).next := hpeak
  refine ⟨fun r ↦ exists_slotOf_iff hlive, (ofFunc_fits hlive).slot_bound, ?_,
    ⟨⟨peak, hpeak⟩, hupper⟩, ?_, ?_⟩
  · intro q r range range' hne hrange hrange' hoverlap heq
    rw [slotOf_eq_slot hlive hrange, slotOf_eq_slot hlive hrange', Option.some.injEq] at heq
    exact slot_ne_of_overlaps hlive hne hrange hrange' hoverlap heq
  · have := live.pressure_le_size peak
    omega
  · intro σ n hn hbound hsep
    have := Liveness.pressure_le_of_separated hbound hsep peak
    omega

end Function

/-- One register is live throughout; of two others, the second takes over the slot that the first
gives back in the same instruction. -/
def packing : Func :=
  ((Draft.start "packing" 1 4).declareAll
    [.block { id := 0, code := [.loadReg 0, .storeReg 3, .push .null, .storeReg 1, .move 2 1,
        .increment 2, .loadReg 2, .pop, .loadReg 3, .ret] }]).build

/-- In `packing` three slots do for the four registers, and no assignment has fewer. -/
theorem packing_optimal : ∃ live, Liveness.ofFunc packing = .ok live ∧
    live.range? 1 = some ⟨7, 9⟩ ∧ live.range? 3 = some ⟨3, 17⟩ ∧
    (ofFunc packing live).slotOf[1]? = some 2 ∧ (ofFunc packing live).slotOf[2]? = some 2 ∧
    (ofFunc packing live).slotOf[1]? ≠ (ofFunc packing live).slotOf[3]? ∧
    live.pressure 8 = 2 ∧ (ofFunc packing live).next = 3 ∧
    ∀ (σ : Register → Nat) (n : Nat), 1 ≤ n →
      (∀ r range, live.range? r = some range → 1 ≤ σ r ∧ σ r < n) →
      (∀ q r range range', q ≠ r → live.range? q = some range → live.range? r = some range' →
        range.overlaps range' = true → σ q ≠ σ r) → 3 ≤ n := by
  have hok : (Liveness.ofFunc packing).toOption.map (fun live ↦
      ((live.range? 1, live.range? 3), ((ofFunc packing live).slotOf[1]?,
        (ofFunc packing live).slotOf[2]?), live.pressure 8, (ofFunc packing live).next)) =
      some ((some ⟨7, 9⟩, some ⟨3, 17⟩), (some 2, some 2), 2, 3) := by
    simp only [ofFunc_eq_foldl, step, acquire, take, Std.TreeSet.min?_eq_head?_toList]
    decide +kernel
  cases h : Liveness.ofFunc packing with
  | error fault =>
    rw [h] at hok
    contradiction
  | ok live =>
    simp only [h, Except.toOption, Option.map_some, Option.some.injEq, Prod.mk.injEq] at hok
    obtain ⟨⟨hone, hthree⟩, ⟨hslot, hslot'⟩, hpressure, hnext⟩ := hok
    obtain ⟨_, _, hapart, _, _, hleast⟩ := ofFunc_optimal h
    exact ⟨live, rfl, hone, hthree, hslot, hslot',
      hapart 1 3 ⟨7, 9⟩ ⟨3, 17⟩ (by decide) hone hthree rfl, hpressure, hnext, hnext ▸ hleast⟩

end Slots.Assignment

end Bytecode
