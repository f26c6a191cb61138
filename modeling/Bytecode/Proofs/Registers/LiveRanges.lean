import Bytecode.Liveness
import Std.Data.TreeMap.Lemmas

/-!
# What live ranges cover

The scan goes through the points of the instructions in order. What it has recorded before a point
is exact: a register that is no argument has a range once it has been accessed, the range starts at
its first access, which is a write, and stops just after its last one.
-/

namespace Bytecode

/-! ### Points -/

namespace Point

/-- A read is at the position it was made from. -/
@[simp] theorem position_read (q : Nat) : position (read q) = q := by
  unfold position read
  omega

/-- A write is at the position it was made from. -/
@[simp] theorem position_write (q : Nat) : position (write q) = q := by
  unfold position write
  omega

/-- A read is no write. -/
@[simp] theorem isWrite_read (q : Nat) : isWrite (read q) = false := by
  simp [isWrite, read]

/-- A write is one. -/
@[simp] theorem isWrite_write (q : Nat) : isWrite (write q) = true := by
  simp [isWrite, write]

/-- A point of writing is the write of its position. -/
theorem write_position {p : Nat} (h : isWrite p = true) : write (position p) = p := by
  have hodd : p % 2 = 1 := by simpa [isWrite] using h
  unfold write position
  omega

/-- Any other point is the read of its position. -/
theorem read_position {p : Nat} (h : isWrite p = false) : read (position p) = p := by
  have heven : ¬p % 2 = 1 := by simpa [isWrite] using h
  unfold read position
  omega

end Point

/-- What is left of a list starts with the element at its place. -/
theorem of_drop_eq_cons {α : Type} {l rest : List α} {q : Nat} {x : α}
    (h : l.drop q = x :: rest) : l[q]? = some x ∧ l.drop (q + 1) = rest := by
  constructor
  · rw [← List.head?_drop, h, List.head?_cons]
  · rw [← List.tail_drop, h, List.tail_cons]

/-- The register that the instructions read or write at a point. -/
def accessAt? (sites : List Site) (p : Nat) : Option Register :=
  sites[Point.position p]?.bind fun s ↦
    if Point.isWrite p then s.instr.writes else s.instr.reads

variable {sites : List Site} {argCount t q p : Nat} {r : Register} {s : Site}

/-- At the read of a site its instruction reads. -/
theorem accessAt?_read (hs : sites[q]? = some s) :
    accessAt? sites (Point.read q) = s.instr.reads := by
  simp [accessAt?, hs]

/-- At the write of a site its instruction writes. -/
theorem accessAt?_write (hs : sites[q]? = some s) :
    accessAt? sites (Point.write q) = s.instr.writes := by
  simp [accessAt?, hs]

/-- A register is accessed at a read if the instruction there reads it. -/
theorem accessAt?_read_iff : accessAt? sites (Point.read q) = some r ↔
    ∃ s, sites[q]? = some s ∧ s.instr.reads = some r := by
  simp [accessAt?, Option.bind_eq_some_iff]

/-- A register is accessed at a write if the instruction there writes it. -/
theorem accessAt?_write_iff : accessAt? sites (Point.write q) = some r ↔
    ∃ s, sites[q]? = some s ∧ s.instr.writes = some r := by
  simp [accessAt?, Option.bind_eq_some_iff]

/-- Accesses are made before the end of the code. -/
theorem lt_of_accessAt? (h : accessAt? sites p = some r) : p < Point.read sites.length := by
  obtain ⟨s, hs, _⟩ := Option.bind_eq_some_iff.mp h
  have hlt : p / 2 < sites.length := (List.getElem?_eq_some_iff.mp hs).1
  unfold Point.read
  omega

/-! ### Exact ranges -/

/-- The range goes from the first access of a register, which is a write, to its last one before
point `t`. -/
structure LiveRange.Spans (range : LiveRange) (sites : List Site) (t : Nat) (r : Register) :
    Prop where
  isWrite : Point.isWrite range.start = true
  starts : accessAt? sites range.start = some r
  stops : ∃ p < t, accessAt? sites p = some r ∧ range.stop = Point.next p
  covers : ∀ p < t, accessAt? sites p = some r → range.start ≤ p ∧ p < range.stop

private theorem LiveRange.Spans.succ {range : LiveRange} (h : range.Spans sites t r)
    (ht : accessAt? sites t ≠ some r) : range.Spans sites (t + 1) r where
  isWrite := h.isWrite
  starts := h.starts
  stops := by
    obtain ⟨p, hp, hacc, hstop⟩ := h.stops
    exact ⟨p, by omega, hacc, hstop⟩
  covers := by
    intro p hp hacc
    have hne : p ≠ t := fun he ↦ ht (he ▸ hacc)
    exact h.covers p (by omega) hacc

namespace Liveness

/-- The ranges are those of the registers that are no arguments, by the accesses before a point. -/
structure Records (argCount : Nat) (sites : List Site) (t : Nat) (ranges : LiveRanges) : Prop where
  argument : ∀ r < argCount, ranges[r]? = none
  unseen : ∀ r, argCount ≤ r → ranges[r]? = none → ∀ p < t, accessAt? sites p ≠ some r
  spans : ∀ (r : Register) range, ranges[r]? = some range → range.Spans sites t r

variable {ranges ranges' : LiveRanges}

/-- Arguments have no recorded range. -/
theorem Records.argCount_le (h : Records argCount sites t ranges) {range : LiveRange}
    (hr : ranges[r]? = some range) : argCount ≤ r := by
  apply Nat.le_of_not_lt
  intro hlt
  rw [h.argument r hlt] at hr
  contradiction

/-- A read that is recorded comes after a write. -/
theorem Records.exists_write (h : Records argCount sites t ranges) (hr : argCount ≤ r)
    (hq : accessAt? sites (Point.read q) = some r) (hqt : Point.read q < t) :
    ∃ n < q, accessAt? sites (Point.write n) = some r := by
  cases hrange : ranges[r]? with
  | none => exact absurd hq (h.unseen r hr hrange _ hqt)
  | some range =>
    have hspans := h.spans r range hrange
    have hstart : Point.write (Point.position range.start) = range.start :=
      Point.write_position hspans.isWrite
    refine ⟨Point.position range.start, ?_, by rw [hstart, hspans.starts]⟩
    have hle := (hspans.covers _ hqt hq).1
    rw [← hstart] at hle
    unfold Point.write Point.read at hle
    omega

private theorem Records.skip (h : Records argCount sites t ranges)
    (ht : ∀ r, accessAt? sites t = some r → r < argCount) :
    Records argCount sites (t + 1) ranges where
  argument := h.argument
  unseen := by
    intro r hr hnone p hp hacc
    by_cases hpt : p = t
    · subst hpt
      exact Nat.not_le_of_lt (ht r hacc) hr
    · exact h.unseen r hr hnone p (by omega) hacc
  spans := by
    intro r range hr
    apply (h.spans r range hr).succ
    intro hacc
    exact Nat.not_le_of_lt (ht r hacc) (h.argCount_le hr)

/-- A range that starts where it did, or at the first access if that is a write, spans one access
more when it stops just after it. -/
theorem Records.spans_extend (h : Records argCount sites t ranges) (hr : argCount ≤ r)
    (ht : accessAt? sites t = some r) {range : LiveRange}
    (hrange : ranges[r]? = some range ∨
      ranges[r]? = none ∧ Point.isWrite t = true ∧ range.start = t) :
    LiveRange.Spans { range with stop := t + 1 } sites (t + 1) r := by
  cases hrange with
  | inl hold =>
    have hspans := h.spans r range hold
    refine ⟨hspans.isWrite, hspans.starts, ⟨t, by omega, ht, rfl⟩, fun p hp hacc ↦ ⟨?_, hp⟩⟩
    by_cases hpt : p = t
    · obtain ⟨p', hp', hacc', _⟩ := hspans.stops
      have := hspans.covers p' hp' hacc'
      show range.start ≤ p
      omega
    · exact (hspans.covers p (by omega) hacc).1
  | inr hnew =>
    obtain ⟨hnone, hwrite, hstart⟩ := hnew
    refine ⟨hstart ▸ hwrite, hstart ▸ ht, ⟨t, by omega, ht, rfl⟩, fun p hp hacc ↦ ⟨?_, hp⟩⟩
    by_cases hpt : p = t
    · show range.start ≤ p
      omega
    · exact absurd hacc (h.unseen r hr hnone p (by omega))

private theorem Records.extend (h : Records argCount sites t ranges) (hr : argCount ≤ r)
    (ht : accessAt? sites t = some r) {range : LiveRange}
    (hrange : ranges[r]? = some range ∨
      ranges[r]? = none ∧ Point.isWrite t = true ∧ range.start = t) :
    Records argCount sites (t + 1) (extendTo ranges r t range) := by
  have hget (x : Register) : (extendTo ranges r t range)[x]? =
      if r = x then some { range with stop := t + 1 } else ranges[x]? := by
    rw [extendTo, Std.TreeMap.getElem?_insert]
    simp [Point.next]
  constructor
  · intro x hx
    have hxr : r ≠ x := Nat.ne_of_gt (Nat.lt_of_lt_of_le hx hr)
    rw [hget, if_neg hxr]
    exact h.argument x hx
  · intro x hx hnone p hp hacc
    rw [hget] at hnone
    by_cases hxr : r = x
    · simp [hxr] at hnone
    · rw [if_neg hxr] at hnone
      have hne : p ≠ t := by
        rintro rfl
        exact hxr (Option.some.inj (ht.symm.trans hacc))
      exact h.unseen x hx hnone p (by omega) hacc
  · intro x range' hx
    rw [hget] at hx
    by_cases hxr : r = x
    · subst hxr
      rw [if_pos rfl, Option.some.injEq] at hx
      exact hx ▸ h.spans_extend hr ht hrange
    · rw [if_neg hxr] at hx
      apply (h.spans x range' hx).succ
      rw [ht]
      exact fun he ↦ hxr (Option.some.inj he)

/-! ### The scan -/

private theorem noteRead_records (hs : sites[q]? = some s)
    (h : Records argCount sites (Point.read q) ranges)
    (hok : noteRead argCount q s ranges = .ok ranges') :
    Records argCount sites (Point.write q) ranges' := by
  have hacc := accessAt?_read hs
  rw [noteRead] at hok
  split at hok
  · next hnone =>
    cases hok
    apply h.skip
    simp [hacc, hnone]
  · next r hr =>
    split at hok
    · next hlt =>
      cases hok
      apply h.skip
      intro x hx
      rw [hacc, hr, Option.some.injEq] at hx
      exact hx ▸ hlt
    · next hge =>
      split at hok
      · contradiction
      · next range hrange =>
        cases hok
        exact h.extend (Nat.le_of_not_lt hge) (hacc.trans hr) (.inl hrange)

/-- A read fails only if it is of no argument and nothing is recorded for the register. -/
theorem noteRead_error {fault : Fault} (h : noteRead argCount q s ranges = .error fault) :
    ∃ r, s.instr.reads = some r ∧ argCount ≤ r ∧ ranges[r]? = none ∧
      fault = .registerReadBeforeWrite r s.block s.offset := by
  rw [noteRead] at h
  split at h
  · contradiction
  · next r hr =>
    split at h
    · contradiction
    · next hge =>
      split at h
      · next hnone =>
        cases h
        exact ⟨r, hr, Nat.le_of_not_lt hge, hnone, rfl⟩
      · contradiction

private theorem noteWrite_records (hs : sites[q]? = some s)
    (h : Records argCount sites (Point.write q) ranges) :
    Records argCount sites (Point.read (q + 1)) (noteWrite argCount q s ranges) := by
  have hacc := accessAt?_write hs
  rw [noteWrite]
  split
  · next hnone =>
    apply h.skip
    simp [hacc, hnone]
  · next r hr =>
    split
    · next hlt =>
      apply h.skip
      intro x hx
      rw [hacc, hr, Option.some.injEq] at hx
      exact hx ▸ hlt
    · next hge =>
      apply h.extend (Nat.le_of_not_lt hge) (hacc.trans hr)
      rw [Std.TreeMap.getD_eq_getD_getElem?]
      cases ranges[r]? with
      | none => exact .inr ⟨rfl, Point.isWrite_write q, rfl⟩
      | some range => exact .inl rfl

private theorem scan_records {rest : List Site} (hrest : sites.drop q = rest)
    (h : Records argCount sites (Point.read q) ranges)
    (hok : scan argCount q rest ranges = .ok ranges') :
    Records argCount sites (Point.read (q + rest.length)) ranges' := by
  induction rest generalizing q ranges with
  | nil =>
    rw [scan, Except.ok.injEq] at hok
    exact hok ▸ h
  | cons s rest ih =>
    obtain ⟨hs, hdrop⟩ := of_drop_eq_cons hrest
    rw [scan] at hok
    split at hok
    · contradiction
    · next ranges'' hread =>
      have hdone := ih hdrop (noteWrite_records hs (noteRead_records hs h hread)) hok
      rwa [Nat.add_right_comm, Nat.add_assoc] at hdone

/-- The scan fails where a read does, with what has been recorded until then. -/
theorem scan_stops {rest : List Site} {fault : Fault} (hrest : sites.drop q = rest)
    (h : Records argCount sites (Point.read q) ranges)
    (herror : scan argCount q rest ranges = .error fault) :
    ∃ (n : Nat) (s : Site) (seen : LiveRanges), sites[n]? = some s ∧
      Records argCount sites (Point.read n) seen ∧ noteRead argCount n s seen = .error fault := by
  induction rest generalizing q ranges with
  | nil => contradiction
  | cons s rest ih =>
    obtain ⟨hs, hdrop⟩ := of_drop_eq_cons hrest
    rw [scan] at herror
    split at herror
    · next fault' hread =>
      cases herror
      exact ⟨q, s, ranges, hs, h, hread⟩
    · next ranges'' hread =>
      exact ih hdrop (noteWrite_records hs (noteRead_records hs h hread)) herror

private theorem records_start (argCount : Nat) (sites : List Site) :
    Records argCount sites (Point.read 0) ∅ := by
  constructor <;> simp [Point.read]

/-- Where the ranges cannot be told, the scan stops at a site with what was recorded until then. -/
theorem ofFunc_stops {f : Func} {fault : Fault} (h : ofFunc f = .error fault) :
    ∃ (n : Nat) (s : Site) (seen : LiveRanges), f.sites[n]? = some s ∧
      Records f.argCount f.sites (Point.read n) seen ∧
      noteRead f.argCount n s seen = .error fault := by
  rw [ofFunc] at h
  split at h
  · next fault' hscan =>
    cases h
    exact scan_stops rfl (records_start f.argCount f.sites) hscan
  · contradiction

/-- Live ranges fail at a read of a register that nothing before it accesses. -/
theorem ofFunc_error {f : Func} {fault : Fault} (h : ofFunc f = .error fault) :
    ∃ (q : Nat) (s : Site) (r : Register), f.sites[q]? = some s ∧ s.instr.reads = some r ∧
      f.argCount ≤ r ∧ (∀ p < Point.read q, accessAt? f.sites p ≠ some r) ∧
      fault = .registerReadBeforeWrite r s.block s.offset := by
  obtain ⟨q, s, seen, hs, hseen, hread⟩ := ofFunc_stops h
  obtain ⟨r, hr, hge, hnone, hfault⟩ := noteRead_error hread
  exact ⟨q, s, r, hs, hr, hge, hseen.unseen r hge hnone, hfault⟩

/-- The live ranges of a function record all accesses of its instructions. -/
theorem ofFunc_records {f : Func} {live : Liveness} (h : ofFunc f = .ok live) :
    Records f.argCount f.sites (Point.read f.sites.length) live.ranges := by
  rw [ofFunc] at h
  split at h
  · contradiction
  · next ranges hranges =>
    cases h
    have hdone := scan_records rfl (records_start f.argCount f.sites) hranges
    rwa [Nat.zero_add] at hdone

/-- A register that is no argument has a range with all its accesses. -/
theorem Records.exists_range {live : Liveness}
    (h : Records argCount sites (Point.read sites.length) live.ranges) (hr : argCount ≤ r)
    (hp : accessAt? sites p = some r) :
    ∃ range, live.range? r = some range ∧ range.start ≤ p ∧ p < range.stop := by
  have hlt := lt_of_accessAt? hp
  cases hrange : live.range? r with
  | none => exact absurd hp (h.unseen r hr hrange p hlt)
  | some range => exact ⟨range, rfl, (h.spans r range hrange).covers p hlt hp⟩

end Liveness

end Bytecode
