import Bytecode.Proofs.Func.Drafts
import Bytecode.Proofs.Func.Places
import Std.Data.TreeMap.Lemmas

/-!
# How blocks are reached

The check of the stack takes up one arrival after the other. Its invariant: whatever a visited
block sends control to is recorded with the height it is sent with, or is pending. Each visit of a
new block uses up as much fuel as it adds arrivals, so nothing is pending at the end, and the
recorded heights agree along every edge between recorded blocks.
-/

namespace Bytecode.Func

variable {f : Func} {a c : Arrival} {b : BlockId} {B : Block} {next : List Arrival}

/-- The block can be walked from the height it is reached with, and these are the arrivals that
follow. -/
def Sends (f : Func) (a : Arrival) (next : List Arrival) : Prop :=
  ∃ B final, f.block? a.1 = some B ∧ walkCode (f.startOf a.1) a.2 B.code = .ok final ∧
    f.arrivals a.1 B final = .ok next

/-- A block is reached with a height: the entry and the exported blocks with an empty stack, and
others by being sent to. -/
inductive Arrives (f : Func) : Arrival → Prop
  | entry {e : BlockId} : f.entry? = some e → Arrives f (e, 0)
  | exported {b : BlockId} : f.IsExported b → Arrives f (b, 0)
  | send {a c : Arrival} {next : List Arrival} : Arrives f a → f.Sends a next → c ∈ next →
      Arrives f c

/-! ### One visit -/

private theorem arrivals_eq_ok_iff {height : Nat} :
    f.arrivals b B height = .ok next ↔ ∃ ts, f.successors b = .ok ts ∧
      (∀ x ∈ ts ++ B.handler.toList, f.contains x = true) ∧
      ts.map (·, height) ++ B.handler.toList.map (·, 0) = next := by
  rw [arrivals]
  cases f.successors b with
  | error fault => simp
  | ok ts =>
    simp only [Except.ok.injEq, exists_eq_left']
    have hfind : (ts.map (·, height) ++ B.handler.toList.map (·, 0)).find?
        (fun a : Arrival ↦ !f.contains a.1) = none ↔
          ∀ x ∈ ts ++ B.handler.toList, f.contains x = true := by
      simp [List.find?_eq_none, or_imp, forall_and]
    split
    · next x hx =>
      rw [hx] at hfind
      exact iff_of_false (by simp) fun h ↦ nomatch hfind.mpr h.1
    · next hnone =>
      rw [Except.ok.injEq]
      exact (and_iff_right (hfind.mp hnone)).symm

/-- What a block sends control to: its successors with the last height, its handler with none. -/
theorem mem_arrivals_iff {final : Nat} (h : f.arrivals b B final = .ok next) :
    c ∈ next ↔ f.Leads b c.1 ∧ c.2 = final ∨ B.handler = some c.1 ∧ c.2 = 0 := by
  obtain ⟨ts, hts, _, rfl⟩ := arrivals_eq_ok_iff.mp h
  obtain ⟨x, height⟩ := c
  simp only [Leads, hts, Except.ok.injEq, exists_eq_left', List.mem_append, List.mem_map,
    Prod.mk.injEq, Option.mem_toList]
  grind

/-- In an intact function nothing that a block sends control to is missing. -/
theorem Intact.exists_arrivals (hf : f.Intact) (hB : f.block? b = some B) (height : Nat) :
    ∃ next, f.arrivals b B height = .ok next := by
  obtain ⟨ts, hts⟩ := hf.successors b (contains_of_block? hB)
  refine ⟨_, arrivals_eq_ok_iff.mpr ⟨ts, hts, fun x hx ↦ ?_, rfl⟩⟩
  rw [List.mem_append, Option.mem_toList] at hx
  cases hx with
  | inl hx => exact hf.leads b x ⟨ts, hts, hx⟩
  | inr hx => exact hf.handler b B x hB hx

private theorem length_arrivals {final : Nat} (h : f.arrivals b B final = .ok next) :
    next.length = (f.anyArrivals b B).length := by
  obtain ⟨ts, hts, hlive, rfl⟩ := arrivals_eq_ok_iff.mp h
  have hany : f.arrivals b B 0 = .ok _ := arrivals_eq_ok_iff.mpr ⟨ts, hts, hlive, rfl⟩
  rw [anyArrivals, hany]
  simp

/-- All that a visit can do. -/
theorem visit_cases {known : EntryHeights} {v : Visit} (h : f.visit known a = .ok v) :
    (known[a.1]? = some a.2 ∧ v = ⟨known, [], false⟩) ∨
      (known[a.1]? = none ∧ ∃ next, f.Sends a next ∧ v = ⟨known.insert a.1 a.2, next, true⟩) := by
  rw [visit] at h
  split at h
  · contradiction
  · next B hB =>
    split at h
    · next expected hknown =>
      split at h
      · next heq =>
        cases h
        exact .inl ⟨heq ▸ hknown, rfl⟩
      · contradiction
    · next hknown =>
      split at h
      · contradiction
      · next final hwalk =>
        split at h
        · contradiction
        · next next' hnext =>
          cases h
          exact .inr ⟨hknown, next', ⟨B, final, hB, hwalk, hnext⟩, rfl⟩

/-! ### The invariant -/

/-- Recorded and pending heights are ones that blocks are reached with, and what recorded blocks
send control to is recorded or pending. -/
structure Tracked (f : Func) (known : EntryHeights) (pending : List Arrival) : Prop where
  settled : ∀ b h, known[b]? = some h →
    ∃ next, f.Sends (b, h) next ∧ ∀ a ∈ next, known[a.1]? = some a.2 ∨ a ∈ pending
  known : ∀ b h, known[b]? = some h → f.Arrives (b, h)
  pending : ∀ a ∈ pending, f.Arrives a

/-- At the start nothing is recorded or pending. -/
theorem tracked_empty (f : Func) : f.Tracked ∅ [] := by
  constructor <;> simp

/-- A new arrival may be taken up when nothing is pending. -/
theorem Tracked.start {known : EntryHeights} {root : BlockId} (ht : f.Tracked known [])
    (hroot : f.Arrives (root, 0)) : f.Tracked known [(root, 0)] := by
  refine ⟨fun b k hb ↦ ?_, ht.known, by simpa using hroot⟩
  obtain ⟨next, hsends, hnext⟩ := ht.settled b k hb
  exact ⟨next, hsends, fun a ha ↦ .inl ((hnext a ha).resolve_right (by simp))⟩

/-- Every height in the first table is in the second. -/
def Extends (known known' : EntryHeights) : Prop :=
  ∀ (b : BlockId) h, known[b]? = some h → known'[b]? = some h

variable {known known' : EntryHeights} {pending : List Arrival} {v : Visit}

/-- A recorded height is found under its block, and the others as before. -/
theorem getElem?_insert_height (known : EntryHeights) (b x : BlockId) (h : Nat) :
    (known.insert b h)[x]? = if b = x then some h else known[x]? := by
  rw [Std.TreeMap.getElem?_insert]
  simp

private theorem extends_of_visit (h : f.visit known a = .ok v) :
    Extends known v.known ∧ v.known[a.1]? = some a.2 := by
  cases visit_cases h with
  | inl hold =>
    obtain ⟨hknown, rfl⟩ := hold
    exact ⟨fun _ _ hb ↦ hb, hknown⟩
  | inr hnew =>
    obtain ⟨hnone, next, _, rfl⟩ := hnew
    constructor
    · intro b height hb
      have hne : a.1 ≠ b := by
        rintro rfl
        rw [hnone] at hb
        contradiction
      rw [getElem?_insert_height, if_neg hne, hb]
    · rw [getElem?_insert_height, if_pos rfl]

/-- A visit keeps the invariant: its arrival is recorded, and what follows is pending. -/
theorem Tracked.visit (ht : f.Tracked known (a :: pending))
    (h : f.visit known a = .ok v) : f.Tracked v.known (pending ++ v.next) := by
  obtain ⟨hext, hrec⟩ := extends_of_visit h
  have hold (b : BlockId) (height : Nat) (hb : known[b]? = some height) :
      ∃ next', f.Sends (b, height) next' ∧
        ∀ x ∈ next', v.known[x.1]? = some x.2 ∨ x ∈ pending ++ v.next := by
    obtain ⟨next', hsends, hnext'⟩ := ht.settled b height hb
    refine ⟨next', hsends, fun x hx ↦ ?_⟩
    cases hnext' x hx with
    | inl hx => exact .inl (hext _ _ hx)
    | inr hx =>
      cases hx with
      | head => exact .inl hrec
      | tail _ hx => exact .inr (List.mem_append_left _ hx)
  cases visit_cases h with
  | inl hseen =>
    obtain ⟨_, rfl⟩ := hseen
    rw [List.append_nil] at hold ⊢
    exact ⟨hold, ht.known, fun x hx ↦ ht.pending x (.tail _ hx)⟩
  | inr hnew =>
    obtain ⟨hnone, next, hsends, rfl⟩ := hnew
    have harrives := ht.pending a (.head _)
    constructor
    · intro b height hb
      rw [getElem?_insert_height] at hb
      split at hb
      · next heq =>
        cases hb
        subst heq
        exact ⟨next, hsends, fun x hx ↦ .inr (List.mem_append_right _ hx)⟩
      · exact hold b height hb
    · intro b height hb
      rw [getElem?_insert_height] at hb
      split at hb
      · next heq =>
        cases hb
        exact heq ▸ harrives
      · exact ht.known b height hb
    · intro x hx
      rw [List.mem_append] at hx
      cases hx with
      | inl hx => exact ht.pending x (.tail _ hx)
      | inr hx => exact .send harrives hsends hx

/-! ### Fuel -/

/-- How many arrivals the blocks that are not recorded can still send. -/
def workload (f : Func) (known : EntryHeights) : Nat :=
  ((f.blocks.filter fun b ↦ !known.contains b.1).flatMap fun b ↦ f.anyArrivals b.1 b.2).length

/-- The workload is at most all that blocks can send. -/
theorem workload_le (f : Func) (known : EntryHeights) :
    f.workload known ≤ (f.blocks.flatMap fun b ↦ f.anyArrivals b.1 b.2).length := by
  rw [workload]
  induction f.blocks with
  | nil => exact Nat.le_refl _
  | cons x l ih =>
    rw [List.filter_cons, List.flatMap_cons, List.length_append]
    split
    · rw [List.flatMap_cons, List.length_append]
      omega
    · omega

private theorem contains_insert_height (known : EntryHeights) (b x : BlockId) (h : Nat) :
    (known.insert b h).contains x = (b == x || known.contains x) := by
  have hkey : (compare b x == .eq) = (b == x) := by
    rw [Bool.eq_iff_iff]
    simp
  rw [Std.TreeMap.contains_insert, hkey]

/-- Recording a block takes its share off the workload. -/
theorem WF.workload_insert (hw : f.WF) (hB : f.block? b = some B) (hb : known.contains b = false)
    (h : Nat) :
    f.workload (known.insert b h) + (f.anyArrivals b B).length = f.workload known := by
  have hnodup := hw.map_fst_blocks ▸ hw.nodup
  have hmem := hw.mem_blocks.mpr hB
  rw [workload, workload]
  generalize f.blocks = l at hnodup hmem ⊢
  -- The block is met once, and those before and after it count as they did.
  induction l with
  | nil => contradiction
  | cons x l ih =>
    rw [List.map_cons, List.nodup_cons] at hnodup
    cases hmem with
    | head =>
      have hrest : l.filter (fun x ↦ !(known.insert b h).contains x.1) =
          l.filter fun x ↦ !known.contains x.1 := by
        apply List.filter_congr
        intro x hx
        have hkey : x.1 ∈ l.map Prod.fst := List.mem_map_of_mem hx
        have hne : b ≠ x.1 := fun he ↦ hnodup.1 (he ▸ hkey)
        rw [contains_insert_height, beq_false_of_ne hne, Bool.false_or]
      rw [List.filter_cons_of_neg (by simp), List.filter_cons_of_pos (by simp [hb]), hrest,
        List.flatMap_cons, List.length_append, Nat.add_comm]
    | tail _ hmem =>
      have hkey : b ∈ l.map Prod.fst := List.mem_map_of_mem hmem
      have hne : b ≠ x.1 := fun he ↦ hnodup.1 (he ▸ hkey)
      have hrest := ih hnodup.2 hmem
      rw [List.filter_cons, List.filter_cons, contains_insert_height, beq_false_of_ne hne,
        Bool.false_or]
      split
      · rw [List.flatMap_cons, List.flatMap_cons, List.length_append, List.length_append]
        omega
      · exact hrest

/-- A visit takes one arrival off what is left to do. -/
theorem WF.visit_workload (hw : f.WF) (h : f.visit known a = .ok v) :
    v.next.length + f.workload v.known = f.workload known := by
  cases visit_cases h with
  | inl hold =>
    obtain ⟨_, rfl⟩ := hold
    rw [List.length_nil, Nat.zero_add]
  | inr hnew =>
    obtain ⟨hnone, next, ⟨B, final, hB, _, hnext⟩, rfl⟩ := hnew
    have hb : known.contains a.1 = false := by
      rw [Std.TreeMap.contains_eq_isSome_getElem?, hnone, Option.isSome_none]
    rw [length_arrivals hnext, Nat.add_comm, hw.workload_insert hB hb]

/-! ### The run -/

/-- With enough fuel all pending arrivals are taken up. -/
theorem WF.drain_tracked (hw : f.WF) {fuel : Nat} (ht : f.Tracked known pending)
    (hfuel : pending.length + f.workload known ≤ fuel)
    (h : f.drain fuel pending known = .ok known') :
    f.Tracked known' [] ∧ Extends known known' ∧ ∀ a ∈ pending, known'[a.1]? = some a.2 := by
  induction fuel generalizing pending known with
  | zero =>
    have hnil : pending = [] := List.eq_nil_of_length_eq_zero (by omega)
    subst hnil
    rw [drain, Except.ok.injEq] at h
    subst h
    exact ⟨ht, fun _ _ hb ↦ hb, by simp⟩
  | succ fuel ih =>
    cases pending with
    | nil =>
      rw [drain, Except.ok.injEq] at h
      subst h
      exact ⟨ht, fun _ _ hb ↦ hb, by simp⟩
    | cons a pending =>
      rw [drain] at h
      split at h
      · contradiction
      · next v hvisit =>
        have hload := hw.visit_workload hvisit
        obtain ⟨hext, hrec⟩ := extends_of_visit hvisit
        obtain ⟨hdone, hext', hpending⟩ := ih (ht.visit hvisit)
          (by rw [List.length_cons] at hfuel; rw [List.length_append]; omega) h
        refine ⟨hdone, fun b k hb ↦ hext' b k (hext b k hb), fun x hx ↦ ?_⟩
        cases hx with
        | head => exact hext' _ _ hrec
        | tail _ hx => exact hpending x (List.mem_append_left _ hx)

/-- Draining from a block keeps the records right, adds to them and records the block with an empty
stack. -/
theorem WF.drainFrom_tracked (hw : f.WF) {root : BlockId} (ht : f.Tracked known [])
    (hroot : f.Arrives (root, 0)) (h : f.drainFrom root known = .ok known') :
    f.Tracked known' [] ∧ Extends known known' ∧ known'[root]? = some 0 := by
  have hload := f.workload_le known
  obtain ⟨hdone, hext, hrec⟩ := hw.drain_tracked (ht.start hroot) (by simpa using hload) h
  exact ⟨hdone, hext, hrec (root, 0) (.head _)⟩

/-- Draining from exported blocks keeps the records right, adds to them and leaves none of the
blocks out. -/
theorem WF.drainExports_tracked (hw : f.WF) {l : List BlockId} (hl : ∀ b ∈ l, f.IsExported b)
    (ht : f.Tracked known []) (h : f.drainExports l known = .ok known') :
    f.Tracked known' [] ∧ Extends known known' ∧ ∀ b ∈ l, ∃ k, known'[b]? = some k := by
  induction l generalizing known with
  | nil =>
    rw [drainExports, Except.ok.injEq] at h
    subst h
    exact ⟨ht, fun _ _ hb ↦ hb, by simp⟩
  | cons b l ih =>
    have hl' : ∀ x ∈ l, f.IsExported x := fun x hx ↦ hl x (.tail _ hx)
    rw [drainExports] at h
    split at h
    · next hb =>
      obtain ⟨hdone, hext, hrec⟩ := ih hl' ht h
      refine ⟨hdone, hext, fun x hx ↦ ?_⟩
      cases hx with
      | head =>
        rw [Std.TreeMap.contains_eq_isSome_getElem?, Option.isSome_iff_exists] at hb
        obtain ⟨k, hk⟩ := hb
        exact ⟨k, hext _ _ hk⟩
      | tail _ hx => exact hrec x hx
    · split at h
      · contradiction
      · next known₁ hfrom =>
        obtain ⟨ht₁, hext₁, hb⟩ := hw.drainFrom_tracked ht (.exported (hl b (.head _))) hfrom
        obtain ⟨hdone, hext, hrec⟩ := ih hl' ht₁ h
        refine ⟨hdone, fun x k hx ↦ hext x k (hext₁ x k hx), fun x hx ↦ ?_⟩
        cases hx with
        | head => exact ⟨0, hext _ _ hb⟩
        | tail _ hx => exact hrec x hx

/-- No block of an intact function is empty. -/
theorem Intact.find?_isEmpty (hf : f.Intact) :
    f.blocks.find? (fun b ↦ b.2.code.isEmpty) = none := by
  rw [List.find?_eq_none]
  intro b hb
  obtain ⟨body, t, hshape⟩ := hf.shape b.1 b.2 (hf.wf.mem_blocks.mp hb)
  simp [hshape.code_eq]

/-- The exported blocks are listed. -/
theorem WF.mem_exportedBlocks (hw : f.WF) : b ∈ f.exportedBlocks ↔ f.IsExported b := by
  simp [exportedBlocks, IsExported, hw.mem_blocks]

/-- The entry is recorded with an empty stack, every exported block is recorded, and the recorded
heights agree along every edge. -/
theorem WF.entryHeights_tracked (hw : f.WF) (h : f.entryHeights = .ok known) :
    f.Tracked known [] ∧ (∀ e, f.entry? = some e → known[e]? = some 0) ∧
      ∀ b, f.IsExported b → ∃ k, known[b]? = some k := by
  rw [entryHeights] at h
  split at h
  · contradiction
  · next e he =>
    split at h
    · contradiction
    · split at h
      · contradiction
      · next known₁ hfrom =>
        obtain ⟨ht₁, _, hentry⟩ := hw.drainFrom_tracked f.tracked_empty (.entry he) hfrom
        obtain ⟨ht, hext, hexports⟩ := hw.drainExports_tracked
          (fun b hb ↦ hw.mem_exportedBlocks.mp hb) ht₁ h
        refine ⟨ht, fun e' he' ↦ ?_, fun b hb ↦ hexports b (hw.mem_exportedBlocks.mpr hb)⟩
        rw [he, Option.some.injEq] at he'
        exact he' ▸ hext e 0 hentry

end Bytecode.Func
