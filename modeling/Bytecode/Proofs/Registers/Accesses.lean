import Bytecode.Func.Draft
import Bytecode.Proofs.Func.Places
import Bytecode.Proofs.Registers.LiveRanges
import Mathlib.Order.Bounds.Basic

/-!
# Live ranges are exact

Counting all instructions in layout order numbers them. The numbers tell which instruction is the
first to write a register, which access is the last one, and whether a read comes after a write;
the live ranges of a function say just that, and they fail for the first read that does not.
-/

namespace Bytecode

namespace Func

variable {f : Func} {n : Nat} {p q : Place} {i j : Instr} {r : Register}

/-! ### Numbers of instructions -/

/-- In layout order, instruction number `n` is `i` and stands at place `p`: it comes after `n`
others, those of all blocks before its block and those before it there. -/
def Numbered (f : Func) (n : Nat) (p : Place) (i : Instr) : Prop :=
  ∃ k B, f.blocks[k]? = some (p.block, B) ∧ B.code[p.offset]? = some i ∧
    n = ((f.blocks.take k).flatMap fun b ↦ b.2.code).length + p.offset

/-- Instruction number `n` reads the register. -/
def ReadsNth (f : Func) (n : Nat) (r : Register) : Prop :=
  ∃ p i, f.Numbered n p i ∧ i.reads = some r

/-- Instruction number `n` writes the register. -/
def WritesNth (f : Func) (n : Nat) (r : Register) : Prop :=
  ∃ p i, f.Numbered n p i ∧ i.writes = some r

/-- Instruction number `n` reads a register that is no argument and that nothing before it
writes. -/
def ReadsUnwritten (f : Func) (n : Nat) (r : Register) : Prop :=
  f.argCount ≤ r ∧ f.ReadsNth n r ∧ ∀ m < n, ¬f.WritesNth m r

/-- The points at which instructions read or write the register. -/
def accessPoints (f : Func) (r : Register) : Set Nat :=
  {t | ∃ n, t = Point.read n ∧ f.ReadsNth n r ∨ t = Point.write n ∧ f.WritesNth n r}

private theorem getElem?_sites_iff {s : Site} :
    f.sites[n]? = some s ↔ f.Numbered n ⟨s.block, s.offset⟩ s.instr := by
  have hsites (b : BlockId) (B : Block) (o : Nat) :
      (B.sites b)[o]? = B.code[o]?.map fun i ↦ ⟨b, o, i⟩ := by
    simp [Block.sites, List.getElem?_zipIdx, Function.comp_def]
  have hbefore (k : Nat) : ((f.blocks.take k).flatMap fun b ↦ b.2.code).length =
      ((f.blocks.take k).flatMap fun b ↦ b.2.sites b.1).length :=
    length_flatMap_congr fun b ↦ (b.2.length_sites b.1).symm
  constructor
  · intro hs
    obtain ⟨k, ⟨b, B⟩, o, hk, ho, rfl⟩ :=
      exists_of_lt_length_flatMap (List.getElem?_eq_some_iff.mp hs).1
    rw [sites, getElem?_flatMap_take hk ho, hsites] at hs
    obtain ⟨i, hi, rfl⟩ := Option.map_eq_some_iff.mp hs
    exact ⟨k, B, hk, hi, by rw [hbefore]⟩
  · rintro ⟨k, B, hk, hi, rfl⟩
    have ho : s.offset < (B.sites s.block).length := by
      rw [Block.length_sites]
      exact (List.getElem?_eq_some_iff.mp hi).1
    rw [sites, hbefore, getElem?_flatMap_take hk ho, hsites, hi, Option.map_some]

private theorem Numbered.site (h : f.Numbered n p i) :
    f.sites[n]? = some ⟨p.block, p.offset, i⟩ := by
  rw [getElem?_sites_iff]
  exact h

private theorem numbered_of_site {s : Site} (h : f.sites[n]? = some s) :
    f.Numbered n ⟨s.block, s.offset⟩ s.instr := by
  rwa [getElem?_sites_iff] at h

private theorem Numbered.unique (h : f.Numbered n p i) (h' : f.Numbered n q j) :
    p = q ∧ i = j := by
  have hsame := h.site.symm.trans h'.site
  simp only [Option.some.injEq, Site.mk.injEq] at hsame
  obtain ⟨hblock, hoffset, hinstr⟩ := hsame
  refine ⟨?_, hinstr⟩
  cases p
  cases q
  exact congrArg₂ Place.mk hblock hoffset

private theorem exists_numbered_iff {P : Instr → Prop} :
    (∃ p i, f.Numbered n p i ∧ P i) ↔ ∃ s, f.sites[n]? = some s ∧ P s.instr := by
  constructor
  · rintro ⟨p, i, hi, hP⟩
    exact ⟨_, hi.site, hP⟩
  · rintro ⟨s, hs, hP⟩
    exact ⟨_, _, numbered_of_site hs, hP⟩

private theorem readsNth_iff : f.ReadsNth n r ↔ accessAt? f.sites (Point.read n) = some r := by
  rw [accessAt?_read_iff]
  exact exists_numbered_iff

private theorem writesNth_iff : f.WritesNth n r ↔ accessAt? f.sites (Point.write n) = some r := by
  rw [accessAt?_write_iff]
  exact exists_numbered_iff

private theorem mem_accessPoints {t : Nat} :
    t ∈ f.accessPoints r ↔ accessAt? f.sites t = some r := by
  constructor
  · rintro ⟨n, ⟨rfl, hr⟩ | ⟨rfl, hr⟩⟩
    · rwa [readsNth_iff] at hr
    · rwa [writesNth_iff] at hr
  · intro h
    refine ⟨Point.position t, ?_⟩
    rw [readsNth_iff, writesNth_iff]
    cases ht : Point.isWrite t with
    | false => exact .inl ⟨(Point.read_position ht).symm, by rw [Point.read_position ht, h]⟩
    | true => exact .inr ⟨(Point.write_position ht).symm, by rw [Point.write_position ht, h]⟩

end Func

/-! ### What live ranges say -/

namespace Liveness

open Func

variable {f : Func} {live : Liveness} {r : Register} {range : LiveRange}

/-- A failure names the first read that no write precedes. -/
theorem ofFunc_error_first {fault : Fault} (h : ofFunc f = .error fault) :
    ∃ n p i r, f.Numbered n p i ∧ i.reads = some r ∧ f.ReadsUnwritten n r ∧
      (∀ m < n, ∀ x, ¬f.ReadsUnwritten m x) ∧
      fault = .registerReadBeforeWrite r p.block p.offset := by
  obtain ⟨n, s, seen, hs, hseen, hfails⟩ := ofFunc_stops h
  obtain ⟨r, hread, hr, hnone, hfault⟩ := noteRead_error hfails
  have hn := numbered_of_site hs
  refine ⟨n, _, s.instr, r, hn, hread, ⟨hr, ⟨_, _, hn, hread⟩, ?_⟩, ?_, hfault⟩
  · intro m hm hwrite
    rw [writesNth_iff] at hwrite
    refine hseen.unseen r hr hnone (Point.write m) ?_ hwrite
    unfold Point.write Point.read
    omega
  · rintro m hm x ⟨hx, hxread, hxnone⟩
    rw [readsNth_iff] at hxread
    have hlt : Point.read m < Point.read n := by
      unfold Point.read
      omega
    obtain ⟨k, hk, hwrite⟩ := hseen.exists_write hx hxread hlt
    rw [← writesNth_iff] at hwrite
    exact hxnone k hk hwrite

/-- Where there are live ranges, every read comes after a write. -/
theorem exists_write_of_ofFunc (h : ofFunc f = .ok live) {n : Nat} (hr : f.argCount ≤ r)
    (hread : f.ReadsNth n r) : ∃ m < n, f.WritesNth m r := by
  rw [readsNth_iff] at hread
  simp only [writesNth_iff]
  exact (ofFunc_records h).exists_write hr hread (lt_of_accessAt? hread)

private theorem exists_range_iff (h : ofFunc f = .ok live) :
    (∃ range, live.range? r = some range) ↔ f.argCount ≤ r ∧ ∃ n, f.WritesNth n r := by
  have hrec := ofFunc_records h
  simp only [writesNth_iff]
  constructor
  · rintro ⟨range, hrange⟩
    have hspans := hrec.spans r range hrange
    refine ⟨hrec.argCount_le hrange, Point.position range.start, ?_⟩
    rw [Point.write_position hspans.isWrite, hspans.starts]
  · rintro ⟨hr, n, hwrite⟩
    obtain ⟨range, hrange, _⟩ := hrec.exists_range hr hwrite
    exact ⟨range, hrange⟩

private theorem contains_of_mem_accessPoints (h : ofFunc f = .ok live)
    (hrange : live.range? r = some range)
    {t : Nat} (ht : t ∈ f.accessPoints r) : range.contains t = true := by
  rw [mem_accessPoints] at ht
  have hcovers := ((ofFunc_records h).spans r range hrange).covers t (lt_of_accessAt? ht) ht
  simpa [LiveRange.contains] using hcovers

/-- A live range starts at the first write. -/
theorem start_eq_write (h : ofFunc f = .ok live) (hrange : live.range? r = some range) :
    ∃ n, IsLeast {n | f.WritesNth n r} n ∧ range.start = Point.write n := by
  have hspans := (ofFunc_records h).spans r range hrange
  have hstart := Point.write_position hspans.isWrite
  simp only [writesNth_iff]
  refine ⟨Point.position range.start, ⟨?_, ?_⟩, hstart.symm⟩
  · show accessAt? f.sites (Point.write (Point.position range.start)) = some r
    rw [hstart, hspans.starts]
  · intro m hm
    have hle := (hspans.covers _ (lt_of_accessAt? hm) hm).1
    rw [← hstart] at hle
    unfold Point.write at hle
    omega

/-- A live range stops just after the last access. -/
theorem stop_eq_next (h : ofFunc f = .ok live) (hrange : live.range? r = some range) :
    ∃ t, IsGreatest (f.accessPoints r) t ∧ range.stop = Point.next t := by
  have hspans := (ofFunc_records h).spans r range hrange
  obtain ⟨t, _, haccess, hstop⟩ := hspans.stops
  refine ⟨t, ⟨?_, ?_⟩, hstop⟩
  · rwa [mem_accessPoints]
  · intro t' ht'
    rw [mem_accessPoints] at ht'
    have hlt := (hspans.covers t' (lt_of_accessAt? ht') ht').2
    rw [hstop] at hlt
    exact Nat.le_of_lt_succ hlt

private theorem location?_ofFunc (h : ofFunc f = .ok live) {t o : Nat} {b : BlockId} :
    live.location? t = some (b, o) ↔ ∃ i, f.Numbered (Point.position t) ⟨b, o⟩ i := by
  have hsites : live.sites = f.sites.toArray := by
    rw [ofFunc] at h
    split at h
    · contradiction
    · cases h
      rfl
  rw [location?, hsites, List.getElem?_toArray, Option.map_eq_some_iff]
  constructor
  · rintro ⟨s, hs, hplace⟩
    rw [Prod.mk.injEq] at hplace
    obtain ⟨rfl, rfl⟩ := hplace
    exact ⟨s.instr, numbered_of_site hs⟩
  · rintro ⟨i, hi⟩
    exact ⟨_, hi.site, rfl⟩

/-- A function has live ranges exactly if every register that is read and is no argument is written
by an instruction with a smaller number; otherwise the first read for which this fails is reported.
The registers with a range are those that are written and are no arguments. The range starts at the
first write, stops just after the last access and holds every access; and the points know the
places of their instructions. -/
theorem ofFunc_exact (f : Func) :
    ((∃ live, ofFunc f = .ok live) ↔
      ∀ n r, f.argCount ≤ r → f.ReadsNth n r → ∃ m < n, f.WritesNth m r) ∧
    (∀ fault, ofFunc f = .error fault ↔
      ∃ n p i r, f.Numbered n p i ∧ i.reads = some r ∧ f.ReadsUnwritten n r ∧
        (∀ m < n, ∀ x, ¬f.ReadsUnwritten m x) ∧
        fault = .registerReadBeforeWrite r p.block p.offset) ∧
    ∀ live, ofFunc f = .ok live →
      (∀ r, (∃ range, live.range? r = some range) ↔ f.argCount ≤ r ∧ ∃ n, f.WritesNth n r) ∧
      (∀ r range, live.range? r = some range →
        (∃ n, IsLeast {n | f.WritesNth n r} n ∧ range.start = Point.write n) ∧
        (∃ t, IsGreatest (f.accessPoints r) t ∧ range.stop = Point.next t) ∧
        ∀ t ∈ f.accessPoints r, range.contains t = true) ∧
      ∀ t b o, live.location? t = some (b, o) ↔ ∃ i, f.Numbered (Point.position t) ⟨b, o⟩ i := by
  refine ⟨⟨?_, ?_⟩, fun fault ↦ ⟨ofFunc_error_first, ?_⟩, fun live h ↦ ⟨?_, ?_, ?_⟩⟩
  · rintro ⟨live, h⟩ n r hr hread
    exact exists_write_of_ofFunc h hr hread
  · intro hwrites
    cases h : ofFunc f with
    | ok live => exact ⟨live, rfl⟩
    | error fault =>
      obtain ⟨n, _, _, r, _, _, ⟨hr, hread, hnone⟩, _⟩ := ofFunc_error_first h
      obtain ⟨m, hm, hwrite⟩ := hwrites n r hr hread
      exact absurd hwrite (hnone m hm)
  · rintro ⟨n, p, i, r, hn, hread, hunwritten, hfirst, rfl⟩
    cases h : ofFunc f with
    | ok live =>
      obtain ⟨hr, hreads, hnone⟩ := hunwritten
      obtain ⟨m, hm, hwrite⟩ := exists_write_of_ofFunc h hr hreads
      exact absurd hwrite (hnone m hm)
    | error fault =>
      obtain ⟨n', p', i', r', hn', hread', hunwritten', hfirst', rfl⟩ := ofFunc_error_first h
      obtain rfl : n = n' := Nat.le_antisymm
        (Nat.le_of_not_lt fun hlt ↦ hfirst n' hlt r' hunwritten')
        (Nat.le_of_not_lt fun hlt ↦ hfirst' n hlt r hunwritten)
      obtain ⟨rfl, rfl⟩ := hn.unique hn'
      rw [Option.some.inj (hread.symm.trans hread')]
  · exact fun r ↦ exists_range_iff h
  · intro r range hrange
    exact ⟨start_eq_write h hrange, stop_eq_next h hrange,
      fun t ht ↦ contains_of_mem_accessPoints h hrange ht⟩
  · exact fun t b o ↦ location?_ofFunc h

/-- A register that is read and written by the same instruction, and once more in a block that has
the smaller handle but comes later. -/
def ticking : Func :=
  ((Draft.start "ticking" 1 2).declareAll
    [.block { id := 3, code := [.push (.int 7), .storeReg 1, .increment 1, .move 1 1, .jump 0] },
      .block { id := 0, code := [.loadReg 1, .ret] }]).build

/-- The register of `ticking` is live from its write in the first block of the layout to its read
in the last, whatever the handles of the blocks. -/
theorem ticking_exact : ∃ live, ofFunc ticking = .ok live ∧ live.range? 1 = some ⟨3, 11⟩ ∧
    IsLeast {n | ticking.WritesNth n 1} 1 ∧
    IsGreatest (ticking.accessPoints 1) (Point.read 5) ∧
    live.location? (Point.read 5) = some (0, 0) ∧ ∃ i, ticking.Numbered 5 ⟨0, 0⟩ i := by
  have hok : (ofFunc ticking).toOption.map (fun live ↦
      (live.range? 1, live.location? (Point.read 5))) = some (some ⟨3, 11⟩, some (0, 0)) := by
    decide +kernel
  cases h : ofFunc ticking with
  | error fault =>
    rw [h] at hok
    contradiction
  | ok live =>
    simp only [h, Except.toOption, Option.map_some, Option.some.injEq, Prod.mk.injEq] at hok
    obtain ⟨hrange, hplace⟩ := hok
    obtain ⟨_, hranges, hplaces⟩ := (ofFunc_exact ticking).2.2 live h
    obtain ⟨⟨n, hleast, hstart⟩, ⟨t, hgreatest, hstop⟩, _⟩ := hranges 1 ⟨3, 11⟩ hrange
    obtain rfl : n = 1 := by
      have : 3 = 2 * n + 1 := hstart
      omega
    obtain rfl : t = Point.read 5 := (Nat.succ.inj hstop).symm
    exact ⟨live, rfl, hrange, hleast, hgreatest, hplace, (hplaces (Point.read 5) 0 0).mp hplace⟩

end Liveness

end Bytecode
