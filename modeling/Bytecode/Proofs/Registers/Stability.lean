import Bytecode.Proofs.Registers.LastWrites

/-!
# Slots that stay

After the registers have moved to their slots, handing out slots once more changes nothing. A slot
is new at its first write in both walks, because whatever is free in the second walk is free in the
first. The live range of a slot joins those of the registers that had it, so the second walk gives
back a slot only when the first one did.
-/

namespace Bytecode

/-- A renamed instruction reads the renamed register. -/
@[simp] theorem Instr.reads_mapRegisters (m : Register → Register) (i : Instr) :
    (i.mapRegisters m m).reads = i.reads.map m := by
  cases i <;> rfl

/-- The site with its registers renamed. -/
def Site.rename (m : Register → Register) (s : Site) : Site :=
  { s with instr := s.instr.mapRegisters m m }

namespace Func.Renames

variable {f g : Func} {m : Register → Register} (h : Renames m f g)

include h

private theorem blocks_eq :
    g.blocks = f.blocks.map fun b ↦ (b.1, b.2.mapCode (Instr.mapRegisters m m)) := by
  rw [blocks, blocks, h.layout, List.map_filterMap]
  congr 1
  funext b
  rw [h.block?]
  cases f.block? b <;> rfl

private theorem sites_eq : g.sites = f.sites.map (Site.rename m) := by
  rw [sites, sites, h.blocks_eq, List.flatMap_map, List.map_flatMap]
  congr 1
  funext b
  simp [Block.sites, Block.mapCode, List.zipIdx_map, Site.rename]

/-- A renamed function accesses the renamed register at every point. -/
theorem accessAt?_eq (p : Nat) : accessAt? g.sites p = (accessAt? f.sites p).map m := by
  rw [accessAt?, accessAt?, h.sites_eq, List.getElem?_map]
  cases f.sites[Point.position p]? with
  | none => rfl
  | some s =>
    simp only [Option.map_some, Option.bind_some, Site.rename]
    split <;> simp

private theorem flowGraph_eq : FlowGraph.ofFunc g = FlowGraph.ofFunc f := by
  have htargets : FlowGraph.targetNodes g = FlowGraph.targetNodes f := by
    funext blocks b
    rw [FlowGraph.targetNodes, FlowGraph.targetNodes, h.successors]
  have hexported : FlowGraph.exportedNodes g.blocks = FlowGraph.exportedNodes f.blocks := by
    rw [FlowGraph.exportedNodes, FlowGraph.exportedNodes, h.blocks_eq, List.zipIdx_map,
      List.filter_map, List.map_map]
    rfl
  have hkeys : g.blocks.map Prod.fst = f.blocks.map Prod.fst := by
    rw [h.blocks_eq, List.map_map]
    rfl
  rw [FlowGraph.ofFunc, FlowGraph.ofFunc, h.layout, htargets, hexported, hkeys]

private theorem allForward_eq (n : Nat) :
    Slots.allForward g n g.blocks = Slots.allForward f n f.blocks := by
  have hforward (k : Nat) (ts : List BlockId) :
      Slots.isForward g k ts = Slots.isForward f k ts := by
    rw [Slots.isForward, Slots.isForward, h.layout]
  have hhandler (B : Block) : (B.mapCode (Instr.mapRegisters m m)).handler = B.handler := rfl
  rw [h.blocks_eq]
  generalize f.blocks = l
  induction l generalizing n with
  | nil => rfl
  | cons b l ih =>
    rw [List.map_cons, Slots.allForward, Slots.allForward, h.successors]
    simp only [hforward, ih, hhandler]

private theorem obstacle?_eq : Slots.obstacle? g = Slots.obstacle? f := by
  rw [Slots.obstacle?, Slots.obstacle?, h.flowGraph_eq, h.allForward_eq]

end Func.Renames

/-! ### Live ranges once more -/

namespace Liveness

variable {argCount q : Nat} {m : Register → Register} {ranges ranges' : LiveRanges} {s : Site}

/-- Whatever has a range in the first map has one under its new name in the second. -/
def Covers (m : Register → Register) (ranges ranges' : LiveRanges) : Prop :=
  ∀ r : Register, r ∈ ranges → m r ∈ ranges'

private theorem Covers.extendTo (h : Covers m ranges ranges') (r : Register) (p : Nat)
    (range range' : LiveRange) :
    Covers m (extendTo ranges r p range) (extendTo ranges' (m r) p range') := by
  intro x hx
  rw [Liveness.extendTo, Std.TreeMap.mem_insert, Std.compare_eq_iff_eq] at hx ⊢
  exact hx.imp (fun he ↦ by rw [he]) (h x)

private theorem Covers.noteWrite (h : Covers m ranges ranges')
    (hm : ∀ r, m r < argCount ↔ r < argCount) (q : Nat) (s : Site) :
    Covers m (noteWrite argCount q s ranges) (noteWrite argCount q (s.rename m) ranges') := by
  rw [Liveness.noteWrite, Liveness.noteWrite, Site.rename, Instr.writes_mapRegisters]
  cases s.instr.writes with
  | none => exact h
  | some r =>
    simp only [Option.map_some, hm]
    split
    · exact h
    · exact h.extendTo r _ _ _

private theorem Covers.noteRead (h : Covers m ranges ranges')
    (hm : ∀ r, m r < argCount ↔ r < argCount) {ranges₁ : LiveRanges}
    (hok : noteRead argCount q s ranges = .ok ranges₁) :
    ∃ ranges₂, noteRead argCount q (s.rename m) ranges' = .ok ranges₂ ∧
      Covers m ranges₁ ranges₂ := by
  rw [Liveness.noteRead] at hok ⊢
  rw [Site.rename, Instr.reads_mapRegisters]
  split at hok
  · next hnone =>
    cases hok
    exact ⟨ranges', by simp [hnone], h⟩
  · next r hr =>
    simp only [hr, Option.map_some, hm]
    split at hok
    · next hlt =>
      cases hok
      exact ⟨ranges', by rw [if_pos hlt], h⟩
    · next hge =>
      rw [if_neg hge]
      split at hok
      · contradiction
      · next range hrange =>
        cases hok
        have hmem := h r (Std.TreeMap.mem_iff_isSome_getElem?.mpr (by rw [hrange]; rfl))
        rw [Std.TreeMap.getElem?_eq_some_getElem hmem]
        exact ⟨_, rfl, h.extendTo r _ _ _⟩

private theorem Covers.scan (h : Covers m ranges ranges') (hm : ∀ r, m r < argCount ↔ r < argCount)
    {sites : List Site} {ranges₁ : LiveRanges} (hok : scan argCount q sites ranges = .ok ranges₁) :
    ∃ ranges₂, scan argCount q (sites.map (Site.rename m)) ranges' = .ok ranges₂ := by
  induction sites generalizing q ranges ranges' with
  | nil => exact ⟨ranges', rfl⟩
  | cons s sites ih =>
    rw [Liveness.scan] at hok
    rw [List.map_cons, Liveness.scan]
    split at hok
    · contradiction
    · next mid hread =>
      obtain ⟨mid', hread', hmid⟩ := h.noteRead hm hread
      rw [hread']
      exact ih (hmid.noteWrite hm q s) hok

private theorem exists_ofFunc {f g : Func} (h : Func.Renames m f g)
    (hm : ∀ r, m r < f.argCount ↔ r < f.argCount) {live : Liveness} (hlive : ofFunc f = .ok live) :
    ∃ live', ofFunc g = .ok live' := by
  rw [ofFunc] at hlive ⊢
  split at hlive
  · contradiction
  · next ranges hranges =>
    have hempty : Covers m ∅ ∅ := fun r hr ↦ absurd hr Std.TreeMap.not_mem_emptyc
    obtain ⟨ranges', hranges'⟩ := hempty.scan hm hranges
    rw [h.argCount, h.sites_eq, hranges']
    exact ⟨_, rfl⟩

end Liveness

/-! ### Slots once more -/

namespace Slots.Assignment

variable {f g : Func} {live live' : Liveness} {argCount t q : Nat} {a a' : Assignment}
  {r x : Register} {slot : Nat} {sites : List Site}

/-- Giving back a slot leaves all registers theirs. -/
@[simp] theorem slotOf_release : (a.release live r t).slotOf = a.slotOf := by
  unfold release
  split
  · split <;> rfl
  · rfl

/-- Giving back a slot hands out none. -/
@[simp] theorem next_release : (a.release live r t).next = a.next := by
  unfold release
  split
  · split <;> rfl
  · rfl

/-- Free slots stay free when one is given back. -/
theorem free_release_sub (hs : slot ∈ a.free) : slot ∈ (a.release live r t).free := by
  unfold release
  split
  · split
    · exact Std.TreeSet.mem_insert.mpr (.inr hs)
    · exact hs
  · exact hs

/-- A register whose range ends gives back its slot. -/
theorem mem_free_release {range : LiveRange} (hrange : live.range? r = some range)
    (hends : range.stop = t + 1) (hslot : a.slotOf[r]? = some slot) :
    slot ∈ (a.release live r t).free := by
  have hend : range.endsAt t = true := decide_eq_true hends.symm
  simp [release, hrange, hslot, hend]

/-- What is free after a slot was given back was so before, or is that slot. -/
theorem of_mem_free_release (h : slot ∈ (a.release live r t).free) :
    slot ∈ a.free ∨ a.slotOf[r]? = some slot ∧
      ∃ range, live.range? r = some range ∧ range.stop = t + 1 := by
  unfold release at h
  split at h
  · next range s hrange hs =>
    split at h
    · next hends =>
      rw [Std.TreeSet.mem_insert, Std.compare_eq_iff_eq] at h
      rcases h with rfl | h
      · exact .inr ⟨hs, range, hrange, (of_decide_eq_true hends).symm⟩
      · exact .inl h
    · exact .inl h
  · exact .inl h

/-- What is left after the read of an instruction. -/
def afterRead (live : Liveness) (a : Assignment) (position : Nat) (i : Instr) : Assignment :=
  match i.reads with
  | some r => a.release live r (Point.read position)
  | none => a

/-- One step gives back the slot of the read, then sees to the write. -/
theorem step_eq (live : Liveness) (a : Assignment) (position : Nat) (i : Instr) :
    a.step live position i =
      match i.writes with
      | some r => ((a.afterRead live position i).acquire live r
          (Point.write position)).release live r (Point.write position)
      | none => a.afterRead live position i := rfl

/-- A register whose range starts takes a slot. -/
theorem acquire_of_start {range : LiveRange} (hrange : live.range? r = some range)
    (hstart : range.start = t) : a.acquire live r t = a.take r := by
  simp [acquire, hrange, hstart]

/-- Where no range of the register starts, nothing is handed out. -/
theorem acquire_of_ne (h : ∀ range, live.range? r = some range → range.start ≠ t) :
    a.acquire live r t = a := by
  unfold acquire
  split
  · next range hrange => rw [if_neg (h range hrange)]
  · rfl

/-- A register that has a slot keeps it. -/
theorem Fits.slotOf_acquire (h : Fits live argCount t a) (hx : a.slotOf[x]? = some slot) :
    (a.acquire live r t).slotOf[x]? = some slot := by
  unfold Assignment.acquire
  split
  · next range hrange =>
    split
    · next hstart =>
      obtain ⟨s, hslotOf, _⟩ := take_spec h r
      have hne : r ≠ x := by
        rintro rfl
        obtain ⟨range', hrange', hlt⟩ := (h.held r).mp ⟨slot, hx⟩
        rw [hrange, Option.some.injEq] at hrange'
        subst hrange'
        omega
      rw [hslotOf, Std.TreeMap.getElem?_insert]
      simpa [hne] using hx
    · exact hx
  · exact hx

section

variable (hlive : Liveness.Records argCount sites (Point.read sites.length) live.ranges)

include hlive

private theorem Fits.slotOf_step (h : Fits live argCount (Point.read q) a) (i : Instr)
    (hx : a.slotOf[x]? = some slot) : (a.step live q i).slotOf[x]? = some slot := by
  have hread := h.reading hlive
  unfold step
  extract_lets afterRead
  have hafter : Fits live argCount (Point.write q) afterRead ∧
      afterRead.slotOf[x]? = some slot := by
    unfold afterRead
    split
    · exact ⟨hread.release _, by simpa using hx⟩
    · exact ⟨hread, hx⟩
  split
  · rw [slotOf_release]
    exact hafter.1.slotOf_acquire hafter.2
  · exact hafter.2

private theorem Fits.slotOf_walk {rest : List Site} (hrest : sites.drop q = rest)
    (h : Fits live argCount (Point.read q) a) (hx : a.slotOf[x]? = some slot) :
    (walk live q (rest.map Site.instr) a).slotOf[x]? = some slot := by
  induction rest generalizing q a with
  | nil => exact hx
  | cons s rest ih =>
    obtain ⟨hs, hdrop⟩ := of_drop_eq_cons hrest
    exact ih hdrop (step_fits hlive hs h) (h.slotOf_step hlive s.instr hx)

end

/-- What the second walk has done before a point, compared to the first. -/
structure Retraced (f : Func) (live live' : Liveness) (t : Nat) (a a' : Assignment) : Prop where
  fits : Fits live f.argCount t a
  fits' : Fits live' f.argCount t a'
  used : ∀ s, f.argCount ≤ s → s < a.next → ∃ r : Register, a.slotOf[r]? = some s
  next_eq : a'.next = a.next
  same : ∀ (r : Register) s, a'.slotOf[r]? = some s → s = r
  free_sub : ∀ s ∈ a'.free, s ∈ a.free

section

variable (hlive : Liveness.ofFunc f = .ok live) (hlive' : Liveness.ofFunc g = .ok live')
  (hg : Func.Renames (ofFunc f live).slot f g)

include hlive

private theorem slot_lt_argCount_iff : (ofFunc f live).slot r < f.argCount ↔ r < f.argCount := by
  constructor
  · intro h
    apply Nat.lt_of_not_le
    intro hr
    exact Nat.not_le_of_lt h (argCount_le_slot hlive hr)
  · intro h
    rwa [slot_of_lt_argCount hlive h]

include hlive' hg

/-- The range of a slot covers those of the registers that have it. -/
theorem range_slot_covers {range : LiveRange} (hr : f.argCount ≤ r)
    (hrange : live.range? r = some range) :
    ∃ range', live'.range? ((ofFunc f live).slot r) = some range' ∧
      range'.start ≤ range.start ∧ range.stop ≤ range'.stop := by
  have hspans := (Liveness.ofFunc_records hlive).spans r range hrange
  have hrec' := Liveness.ofFunc_records hlive'
  have haccess {p : Nat} (hp : accessAt? f.sites p = some r) :
      accessAt? g.sites p = some ((ofFunc f live).slot r) := by
    rw [hg.accessAt?_eq, hp, Option.map_some]
  have hslot : g.argCount ≤ (ofFunc f live).slot r := by
    rw [hg.argCount]
    exact argCount_le_slot hlive hr
  obtain ⟨range', hrange', hstart, _⟩ := hrec'.exists_range hslot (haccess hspans.starts)
  obtain ⟨p, _, hp, hstop⟩ := hspans.stops
  obtain ⟨_, hsame, _, hlt⟩ := hrec'.exists_range hslot (haccess hp)
  rw [hrange', Option.some.injEq] at hsame
  subst hsame
  rw [hstop, Point.next]
  exact ⟨range', hrange', hstart, hlt⟩

private theorem Retraced.release (h : Retraced f live live' (t + 1) a a')
    (hfinal : ∀ (x : Register) s, a.slotOf[x]? = some s → (ofFunc f live).slot x = s)
    (hr : accessAt? f.sites t = some r) :
    Retraced f live live' (t + 1) (a.release live r t)
      (a'.release live' ((ofFunc f live).slot r) t) where
  fits := h.fits.release r
  fits' := h.fits'.release _
  used := by simpa using h.used
  next_eq := by simpa using h.next_eq
  same := by simpa using h.same
  free_sub s hs := by
    rcases of_mem_free_release hs with hold | ⟨hslot, range', hrange', hstop'⟩
    · exact free_release_sub (h.free_sub s hold)
    · -- The last access of the slot is the last one of the register.
      have hge : f.argCount ≤ r := by
        apply Nat.le_of_not_lt
        intro hlt
        have hle := (Liveness.ofFunc_records hlive').argCount_le hrange'
        rw [hg.argCount, slot_of_lt_argCount hlive hlt] at hle
        omega
      obtain ⟨range, hrange, hstart, hstop⟩ := (Liveness.ofFunc_records hlive).exists_range hge hr
      obtain ⟨_, hsame, _, hle⟩ := range_slot_covers hlive hlive' hg hge hrange
      rw [hrange', Option.some.injEq] at hsame
      subst hsame
      obtain ⟨s', hs'⟩ := (h.fits.held r).mpr ⟨range, hrange, by omega⟩
      rw [h.same _ s hslot, hfinal r s' hs']
      exact mem_free_release hrange (by omega) hs'

/-- A slot that was in use before a point is not new there. -/
theorem start_slot_lt {range : LiveRange} (hrange : live.range? r = some range)
    (hlt : range.start < t) : ∃ range', live'.range? ((ofFunc f live).slot r) = some range' ∧
      range'.start < t := by
  have hr := (Liveness.ofFunc_records hlive).argCount_le hrange
  obtain ⟨range', hrange', hle, _⟩ := range_slot_covers hlive hlive' hg hr hrange
  exact ⟨range', hrange', by omega⟩

private theorem start_slot_ne (hr : accessAt? f.sites t = some r)
    (hold : ∀ range, live.range? r = some range → range.start ≠ t) {range' : LiveRange}
    (hrange' : live'.range? ((ofFunc f live).slot r) = some range') : range'.start ≠ t := by
  by_cases hlt : r < f.argCount
  · have hle := (Liveness.ofFunc_records hlive').argCount_le hrange'
    rw [hg.argCount, slot_of_lt_argCount hlive hlt] at hle
    exact absurd hle (Nat.not_le_of_lt hlt)
  · obtain ⟨range, hrange, hle, _⟩ :=
      (Liveness.ofFunc_records hlive).exists_range (Nat.le_of_not_lt hlt) hr
    have hne := hold range hrange
    obtain ⟨_, hsame, hlt'⟩ := start_slot_lt hlive hlive' hg hrange (t := t) (by omega)
    rw [hrange', Option.some.injEq] at hsame
    subst hsame
    omega

private theorem Retraced.later (h : Retraced f live live' t a a')
    (ht : accessAt? f.sites t = none ∨ Point.isWrite t = false) :
    Retraced f live live' (t + 1) a a' where
  fits := by
    apply h.fits.later
    rintro r range hrange rfl
    have hspans := (Liveness.ofFunc_records hlive).spans r range hrange
    rw [hspans.starts, hspans.isWrite] at ht
    simp at ht
  fits' := by
    apply h.fits'.later
    rintro r range hrange rfl
    have hspans := (Liveness.ofFunc_records hlive').spans r range hrange
    have hstarts := hspans.starts
    rw [hg.accessAt?_eq] at hstarts
    obtain ⟨x, hx, _⟩ := Option.map_eq_some_iff.mp hstarts
    rw [hx, hspans.isWrite] at ht
    simp at ht
  used := h.used
  next_eq := h.next_eq
  same := h.same
  free_sub := h.free_sub

/-- A register takes a slot that was given back: the second walk does nothing. -/
theorem Retraced.take_free (h : Retraced f live live' t a a')
    (hfinal : ∀ (x : Register) s, (a.acquire live r t).slotOf[x]? = some s →
      (ofFunc f live).slot x = s)
    {range : LiveRange} (hrange : live.range? r = some range) (hstart : range.start = t)
    (hmin : a.free.min? = some slot) :
    a'.acquire live' ((ofFunc f live).slot r) t = a' ∧
      ∀ s ∈ a'.free, s ∈ (a.take r).free := by
  have htake : a.take r =
      { a with slotOf := a.slotOf.insert r slot, free := a.free.erase slot } := by
    simp [Assignment.take, hmin]
  have hr : (ofFunc f live).slot r = slot := by
    apply hfinal r slot
    rw [acquire_of_start hrange hstart, htake]
    simp
  have hmem : slot ∈ a.free := by
    rw [← Std.TreeSet.contains_iff_mem]
    exact Std.TreeSet.contains_min? hmin
  -- Some register had the slot before.
  obtain ⟨x, hx⟩ := h.used slot (h.fits.free_bound slot hmem).1 (h.fits.free_bound slot hmem).2
  obtain ⟨rangex, hrangex, hltx⟩ := (h.fits.held x).mp ⟨slot, hx⟩
  obtain ⟨range', hrange', hlt⟩ := start_slot_lt hlive hlive' hg hrangex hltx
  rw [hfinal x slot (h.fits.slotOf_acquire hx)] at hrange'
  rw [hr]
  constructor
  · apply acquire_of_ne
    intro range₁ hrange₁
    rw [hrange', Option.some.injEq] at hrange₁
    subst hrange₁
    omega
  · intro s hs
    rw [htake, Std.TreeSet.mem_erase, ne_eq, Std.compare_eq_iff_eq]
    refine ⟨?_, h.free_sub s hs⟩
    rintro rfl
    obtain ⟨s', hs'⟩ := (h.fits'.held slot).mpr ⟨range', hrange', hlt⟩
    obtain rfl := h.same slot s' hs'
    have hidle := h.fits'.free_idle s' s' range' hs' hrange' hs
    have hge := (Liveness.ofFunc_records hlive).argCount_le hrange
    obtain ⟨range₁, hrange₁, _, hstop⟩ := range_slot_covers hlive hlive' hg hge hrange
    rw [hr, hrange', Option.some.injEq] at hrange₁
    subst hrange₁
    have hspans := (Liveness.ofFunc_records hlive).spans r range hrange
    have := hspans.covers _ (lt_of_accessAt? hspans.starts) hspans.starts
    omega

/-- A register takes a new slot: it is new in the second walk as well. -/
theorem Retraced.take_new (h : Retraced f live live' t a a')
    (hfinal : ∀ (x : Register) s, (a.acquire live r t).slotOf[x]? = some s →
      (ofFunc f live).slot x = s)
    {range : LiveRange} (hrange : live.range? r = some range) (hstart : range.start = t)
    (hmin : a.free.min? = none) :
    a'.acquire live' ((ofFunc f live).slot r) t =
      { a' with slotOf := a'.slotOf.insert a.next a.next, next := a.next + 1 } := by
  have hr : (ofFunc f live).slot r = a.next := by
    apply hfinal r a.next
    rw [acquire_of_start hrange hstart]
    simp [Assignment.take, hmin]
  have hge := (Liveness.ofFunc_records hlive).argCount_le hrange
  obtain ⟨range', hrange', hle, _⟩ := range_slot_covers hlive hlive' hg hge hrange
  have hspans := (Liveness.ofFunc_records hlive').spans _ range' hrange'
  have hnew : range'.start = t := by
    apply Nat.le_antisymm (hstart ▸ hle)
    apply Nat.le_of_not_lt
    intro hlt
    -- Whatever had the slot before has one below the next.
    have haccess := hspans.starts
    rw [hg.accessAt?_eq] at haccess
    obtain ⟨x, hx, hslot⟩ := Option.map_eq_some_iff.mp haccess
    have hxge : f.argCount ≤ x := by
      apply Nat.le_of_not_lt
      rw [← slot_lt_argCount_iff hlive, hslot, slot_lt_argCount_iff hlive]
      exact Nat.not_lt_of_le hge
    obtain ⟨rangex, hrangex, hstartx, _⟩ := (Liveness.ofFunc_records hlive).exists_range hxge hx
    obtain ⟨s, hs⟩ := (h.fits.held x).mpr ⟨rangex, hrangex, by omega⟩
    have hbound := (h.fits.slot_bound x s hs).2
    rw [← hfinal x s (h.fits.slotOf_acquire hs), hslot, hr] at hbound
    exact Nat.lt_irrefl _ hbound
  have hempty : a'.free.min? = none := by
    rw [Std.TreeSet.min?_eq_none_iff, Std.TreeSet.isEmpty_iff_forall_not_mem] at hmin ⊢
    intro s hs
    exact hmin s (h.free_sub s hs)
  rw [acquire_of_start hrange' hnew, Assignment.take, hempty, hr, h.next_eq]

private theorem Retraced.acquire (h : Retraced f live live' t a a')
    (hfinal : ∀ (x : Register) s, (a.acquire live r t).slotOf[x]? = some s →
      (ofFunc f live).slot x = s)
    (hr : accessAt? f.sites t = some r) :
    Retraced f live live' (t + 1) (a.acquire live r t)
      (a'.acquire live' ((ofFunc f live).slot r) t) := by
  have hfits := h.fits.acquire (r := r) fun q range hrange hstart ↦ by
    have hq := ((Liveness.ofFunc_records hlive).spans q range hrange).starts
    rw [hstart, hr, Option.some.injEq] at hq
    exact hq.symm
  have hfits' := h.fits'.acquire (r := (ofFunc f live).slot r) fun q range hrange hstart ↦ by
    have hq := ((Liveness.ofFunc_records hlive').spans q range hrange).starts
    rw [hstart, hg.accessAt?_eq, hr, Option.map_some, Option.some.injEq] at hq
    exact hq.symm
  -- What was handed out stays so.
  have hkeep {s : Nat} (hge : f.argCount ≤ s) (hlt : s < a.next) :
      ∃ x : Register, (a.acquire live r t).slotOf[x]? = some s := by
    obtain ⟨x, hx⟩ := h.used s hge hlt
    exact ⟨x, h.fits.slotOf_acquire hx⟩
  by_cases hstarts : ∃ range, live.range? r = some range ∧ range.start = t
  · obtain ⟨range, hrange, hstart⟩ := hstarts
    have htake := acquire_of_start (a := a) hrange hstart
    cases hmin : a.free.min? with
    | some slot =>
      obtain ⟨hstay, hsub⟩ := h.take_free hlive hlive' hg hfinal hrange hstart hmin
      have hnext : (a.acquire live r t).next = a.next := by
        simp [htake, Assignment.take, hmin]
      refine ⟨hfits, hfits', fun s hge hlt ↦ hkeep hge (hnext ▸ hlt), ?_, ?_, ?_⟩
      · rw [hstay, hnext, h.next_eq]
      · rw [hstay]
        exact h.same
      · rw [hstay, htake]
        exact hsub
    | none =>
      have hnew := h.take_new hlive hlive' hg hfinal hrange hstart hmin
      have htaken : a.acquire live r t =
          { a with slotOf := a.slotOf.insert r a.next, next := a.next + 1 } := by
        simp [htake, Assignment.take, hmin]
      refine ⟨hfits, hfits', fun s hge hlt ↦ ?_, ?_, fun x s hx ↦ ?_, ?_⟩
      · by_cases hs : s < a.next
        · exact hkeep hge hs
        · have hs' : a.next = s := by
            rw [htaken] at hlt
            exact Nat.le_antisymm (Nat.le_of_not_lt hs) (Nat.le_of_lt_succ hlt)
          exact ⟨r, by simp [htaken, hs']⟩
      · rw [hnew, htaken]
      · rw [hnew, Std.TreeMap.getElem?_insert] at hx
        split at hx
        · next hsame =>
          rw [Std.compare_eq_iff_eq] at hsame
          rw [Option.some.injEq] at hx
          exact hx.symm.trans hsame
        · exact h.same x s hx
      · rw [hnew, htaken]
        exact h.free_sub
  · have hold (range : LiveRange) (hrange : live.range? r = some range) : range.start ≠ t :=
      fun hstart ↦ hstarts ⟨range, hrange, hstart⟩
    have hstay : a.acquire live r t = a := acquire_of_ne hold
    have hstay' : a'.acquire live' ((ofFunc f live).slot r) t = a' :=
      acquire_of_ne fun _ hrange' ↦ start_slot_ne hlive hlive' hg hr hold hrange'
    refine ⟨hfits, hfits', fun s hge hlt ↦ ?_, ?_, ?_, ?_⟩
    · rw [hstay] at hlt ⊢
      exact h.used s hge hlt
    · rw [hstay, hstay', h.next_eq]
    · rw [hstay']
      exact h.same
    · rw [hstay, hstay']
      exact h.free_sub

private theorem Retraced.afterRead {s : Site} (hs : f.sites[q]? = some s)
    (hfinal : ∀ (x : Register) k, a.slotOf[x]? = some k → (ofFunc f live).slot x = k)
    (h : Retraced f live live' (Point.read q) a a') :
    Retraced f live live' (Point.write q) (a.afterRead live q s.instr)
      (a'.afterRead live' q (s.rename (ofFunc f live).slot).instr) := by
  have hlater := h.later hlive hlive' hg (.inr (Point.isWrite_read q))
  have haccess := accessAt?_read hs
  rw [Assignment.afterRead, Assignment.afterRead, Site.rename, Instr.reads_mapRegisters]
  cases hreads : s.instr.reads with
  | none => exact hlater
  | some r => exact hlater.release hlive hlive' hg hfinal (haccess.trans hreads)

private theorem Retraced.step {s : Site} (hs : f.sites[q]? = some s)
    (hfinal : ∀ (x : Register) k, (a.step live q s.instr).slotOf[x]? = some k →
      (ofFunc f live).slot x = k)
    (h : Retraced f live live' (Point.read q) a a') :
    Retraced f live live' (Point.read (q + 1)) (a.step live q s.instr)
      (a'.step live' q (s.rename (ofFunc f live).slot).instr) := by
  have hread := h.afterRead hlive hlive' hg hs fun x k hx ↦
    hfinal x k (h.fits.slotOf_step (Liveness.ofFunc_records hlive) s.instr hx)
  have haccess := accessAt?_write hs
  rw [step_eq] at hfinal
  rw [step_eq, step_eq]
  rw [Site.rename] at hread ⊢
  rw [Instr.writes_mapRegisters]
  cases hwrites : s.instr.writes with
  | none =>
    rw [hwrites] at haccess
    exact hread.later hlive hlive' hg (.inl haccess)
  | some r =>
    rw [hwrites] at haccess
    simp only [hwrites, slotOf_release] at hfinal
    exact (hread.acquire hlive hlive' hg hfinal haccess).release hlive hlive' hg hfinal haccess

private theorem Retraced.walk {rest : List Site} (hrest : f.sites.drop q = rest)
    (hfinal : Assignment.walk live q (rest.map Site.instr) a = ofFunc f live)
    (h : Retraced f live live' (Point.read q) a a') :
    Retraced f live live' (Point.read (q + rest.length)) (ofFunc f live)
      (Assignment.walk live' q
        ((rest.map (Site.rename (ofFunc f live).slot)).map Site.instr) a') := by
  induction rest generalizing q a a' with
  | nil => exact hfinal ▸ h
  | cons s rest ih =>
    obtain ⟨hs, hdrop⟩ := of_drop_eq_cons hrest
    have hrec := Liveness.ofFunc_records hlive
    have hstep := h.step hlive hlive' hg hs fun x k hx ↦ by
      have hend := (step_fits hrec hs h.fits).slotOf_walk hrec hdrop hx
      rw [List.map_cons, Assignment.walk] at hfinal
      rw [hfinal] at hend
      rw [Assignment.slot, Std.TreeMap.getD_eq_getD_getElem?, hend, Option.getD_some]
    have hdone := ih hdrop hfinal hstep
    rwa [Nat.add_right_comm, Nat.add_assoc] at hdone

/-- Handing out slots a second time leaves every register where it is, and needs as many slots. -/
theorem ofFunc_rename :
    (ofFunc g live').moves = false ∧ (ofFunc g live').next = (ofFunc f live).next := by
  have hstart : Retraced f live live' (Point.read 0) ⟨∅, ∅, f.argCount⟩ ⟨∅, ∅, f.argCount⟩ := by
    refine ⟨?_, ?_, fun s hge hlt ↦ ?_, rfl, by simp, by simp⟩
    · constructor <;> simp [Point.read]
    · constructor <;> simp [Point.read]
    · exact absurd hge (Nat.not_le_of_lt hlt)
  have hdone := hstart.walk hlive hlive' hg (q := 0) rfl rfl
  have hwalk : ofFunc g live' = Assignment.walk live' 0
      ((f.sites.map (Site.rename (ofFunc f live).slot)).map Site.instr) ⟨∅, ∅, f.argCount⟩ := by
    rw [ofFunc, hg.sites_eq, hg.argCount]
  rw [List.drop_zero, ← hwalk] at hdone
  refine ⟨?_, hdone.next_eq⟩
  rw [moves, List.any_eq_false]
  rintro ⟨r, s⟩ hmem
  have := hdone.same r s (Std.TreeMap.mem_toList_iff_getElem?_eq_some.mp hmem)
  simp [this]

end

end Slots.Assignment

namespace Slots

open Transform

variable {f : Func} {live : Liveness}

/-- A function that was renamed by its slots is left alone by another run. -/
theorem run_rename_result (settings : Settings) (hobstacle : obstacle? f = .ok none)
    (hlive : Liveness.ofFunc f = .ok live) :
    (run settings (rename (Assignment.ofFunc f live).slot
      (max (Assignment.ofFunc f live).next settings.minRegisters) f)).result = .ok false := by
  generalize hg : rename (Assignment.ofFunc f live).slot
    (max (Assignment.ofFunc f live).next settings.minRegisters) f = g
  have hrenames : Func.Renames (Assignment.ofFunc f live).slot f g := hg ▸ renames_rename _ _ f
  have hcount : g.registerCount = max (Assignment.ofFunc f live).next settings.minRegisters := by
    rw [← hg]
    rfl
  obtain ⟨live', hlive'⟩ :=
    Liveness.exists_ofFunc hrenames (fun _ ↦ Assignment.slot_lt_argCount_iff hlive) hlive
  obtain ⟨hmoves, hnext⟩ := Assignment.ofFunc_rename hlive hlive' hrenames
  have hreduce : (reduce settings g).result = .ok false := by
    rw [reduce, bind_result_eq_ok_iff]
    refine ⟨g, rfl, ?_⟩
    rw [bind_result_eq_ok_iff]
    refine ⟨live', hlive', ?_⟩
    simp only [hmoves, hcount, hnext, Bool.not_false, decide_true, Bool.and_self, if_true]
    rfl
  rw [run, bind_result_eq_ok_iff]
  refine ⟨g, rfl, ?_⟩
  rw [bind_result_eq_ok_iff]
  exact ⟨none, hrenames.obstacle?_eq.trans hobstacle, hreduce⟩

end Slots

end Bytecode
