import Bytecode.Liveness
import Bytecode.Proofs.Func.Validity
import Bytecode.StackHeight

/-!
# Places

A place is an instruction, named by its block and its offset there. Counting all instructions in
layout order gives every place its position: the offset at which its block starts, plus its own.
Control proceeds from a place to the next instruction or, after a terminator, to a successor, and
an exception unwinds it to the handler.
-/

namespace Bytecode

/-- An instruction, by its block and its offset there. -/
structure Place where
  block : BlockId
  offset : Nat
  deriving DecidableEq

/-- A block has as many sites as instructions. -/
theorem Block.length_sites (B : Block) (b : BlockId) : (B.sites b).length = B.code.length := by
  simp [sites]

/-! ### Joined lists -/

section Joined

variable {α β : Type} {l : List α} {k : α → List β} {x : α} {n : Nat}

/-- An element of a joined list stands behind all that the earlier parts hold. -/
theorem getElem?_flatMap_take (hx : l[n]? = some x) {i : Nat} (hi : i < (k x).length) :
    (l.flatMap k)[((l.take n).flatMap k).length + i]? = (k x)[i]? := by
  induction l generalizing n with
  | nil => simp at hx
  | cons y l ih =>
    cases n with
    | zero =>
      rw [List.getElem?_cons_zero, Option.some.injEq] at hx
      subst hx
      rw [List.take_zero, List.flatMap_nil, List.length_nil, Nat.zero_add, List.flatMap_cons,
        List.getElem?_append_left hi]
    | succ n =>
      rw [List.getElem?_cons_succ] at hx
      rw [List.take_succ_cons, List.flatMap_cons, List.flatMap_cons, List.length_append,
        Nat.add_assoc, List.getElem?_append_right (Nat.le_add_right _ _), Nat.add_sub_cancel_left,
        ih hx]

/-- An index into joined lists falls into one of them, at an offset of its own. -/
theorem exists_of_lt_length_flatMap {m : Nat} (hm : m < (l.flatMap k).length) :
    ∃ n x i, l[n]? = some x ∧ i < (k x).length ∧ ((l.take n).flatMap k).length + i = m := by
  induction l generalizing m with
  | nil => simp at hm
  | cons y l ih =>
    rw [List.flatMap_cons, List.length_append] at hm
    by_cases hy : m < (k y).length
    · exact ⟨0, y, m, rfl, hy, by simp⟩
    · obtain ⟨n, x, i, hx, hi, hsum⟩ := ih (m := m - (k y).length) (by omega)
      refine ⟨n + 1, x, i, hx, hi, ?_⟩
      rw [List.take_succ_cons, List.flatMap_cons, List.length_append]
      omega

/-- Lists joined from parts of equal lengths have equal lengths. -/
theorem length_flatMap_congr {γ : Type} {k' : α → List γ}
    (hk : ∀ x, (k x).length = (k' x).length) : (l.flatMap k).length = (l.flatMap k').length := by
  rw [List.length_flatMap, List.length_flatMap]
  simp only [hk]

end Joined

namespace Func

variable {f : Func} {a b : BlockId} {A B : Block} {p q : Place} {i : Instr}

/-! ### Positions -/

/-- The instruction at a place. -/
def instrAt? (f : Func) (p : Place) : Option Instr := (f.block? p.block).bind (·.code[p.offset]?)

/-- The number of a place when all instructions are counted in layout order. -/
def position (f : Func) (p : Place) : Nat := f.startOf p.block + p.offset

/-- The first block stands before the second in the layout. -/
def Precedes (f : Func) (a b : BlockId) : Prop :=
  ∃ m n : Nat, f.layout[m]? = some a ∧ f.layout[n]? = some b ∧ m < n

/-- An instruction stands at a place if the block there has it at that offset. -/
theorem instrAt?_eq_some_iff :
    f.instrAt? p = some i ↔ ∃ B, f.block? p.block = some B ∧ B.code[p.offset]? = some i :=
  Option.bind_eq_some_iff

/-- At every offset in its code a block has an instruction. -/
theorem exists_instrAt? (hB : f.block? b = some B) {n : Nat} (hn : n < B.code.length) :
    ∃ i, f.instrAt? ⟨b, n⟩ = some i :=
  ⟨B.code[n], instrAt?_eq_some_iff.mpr ⟨B, hB, List.getElem?_eq_getElem hn⟩⟩

/-- The block listed at a position is the one that the layout has there. -/
theorem WF.getElem?_blocks (hw : f.WF) {n : Nat} :
    f.blocks[n]? = some (b, B) ↔ f.layout[n]? = some b ∧ f.block? b = some B := by
  have hkey : f.layout[n]? = f.blocks[n]?.map Prod.fst := by
    rw [← hw.map_fst_blocks, List.getElem?_map]
  constructor
  · intro h
    rw [h] at hkey
    exact ⟨hkey, hw.mem_blocks.mp (List.mem_of_getElem? h)⟩
  · rintro ⟨hb, hB⟩
    rw [hb] at hkey
    obtain ⟨⟨b', B'⟩, hn, rfl⟩ := Option.map_eq_some_iff.mp hkey.symm
    have hB' := hw.mem_blocks.mp (List.mem_of_getElem? hn)
    rw [hn, Option.some.inj (hB.symm.trans hB')]

private theorem lookup_blockStarts {l : List (BlockId × Block)} (hl : (l.map Prod.fst).Nodup)
    (offset : Nat) {n : Nat} (hn : l[n]? = some (b, B)) :
    (blockStarts offset l).lookup b =
      some (offset + ((l.take n).flatMap fun x ↦ x.2.code).length) := by
  induction l generalizing n offset with
  | nil => simp at hn
  | cons x l ih =>
    obtain ⟨c, C⟩ := x
    rw [List.map_cons, List.nodup_cons] at hl
    cases n with
    | zero =>
      rw [List.getElem?_cons_zero, Option.some.injEq, Prod.mk.injEq] at hn
      rw [blockStarts, hn.1, List.lookup_cons_self]
      simp
    | succ n =>
      rw [List.getElem?_cons_succ] at hn
      have hmem : b ∈ l.map Prod.fst := List.mem_map_of_mem (List.mem_of_getElem? hn)
      have hne : b ≠ c := fun h ↦ hl.1 (h ▸ hmem)
      rw [blockStarts, List.lookup_cons, beq_false_of_ne hne, List.take_succ_cons,
        List.flatMap_cons, List.length_append, ← Nat.add_assoc]
      exact ih hl.2 (offset + C.code.length) hn

private theorem WF.startOf_eq (hw : f.WF) {n : Nat} (hb : f.layout[n]? = some b)
    (hB : f.block? b = some B) :
    f.startOf b = ((f.blocks.take n).flatMap fun x ↦ x.2.code).length := by
  have hlook := lookup_blockStarts (hw.map_fst_blocks ▸ hw.nodup) 0
    (hw.getElem?_blocks.mpr ⟨hb, hB⟩)
  rw [startOf, hlook, Option.getD_some, Nat.zero_add]

/-- The table of starts has the start of every block. -/
theorem WF.lookup_startOf (hw : f.WF) (hB : f.block? b = some B) :
    (blockStarts 0 f.blocks).lookup b = some (f.startOf b) := by
  obtain ⟨n, hn⟩ := hw.exists_index (contains_of_block? hB)
  have hlook := lookup_blockStarts (hw.map_fst_blocks ▸ hw.nodup) 0
    (hw.getElem?_blocks.mpr ⟨hn, hB⟩)
  rw [hlook, Nat.zero_add, hw.startOf_eq hn hB]

/-- A list made of one part for every block, as long as the block, has at the position of a place
what the part of its block has at its offset. -/
theorem WF.getElem?_flatMap_blocks {γ : Type} {k : BlockId × Block → List γ} (hw : f.WF)
    (hk : ∀ x, (k x).length = x.2.code.length) (hB : f.block? b = some B) {n : Nat}
    (hn : n < B.code.length) :
    (f.blocks.flatMap k)[f.position ⟨b, n⟩]? = (k (b, B))[n]? := by
  obtain ⟨m, hm⟩ := hw.exists_index (contains_of_block? hB)
  rw [position, hw.startOf_eq hm hB, ← length_flatMap_congr hk]
  exact getElem?_flatMap_take (hw.getElem?_blocks.mpr ⟨hm, hB⟩) (by rwa [hk])

/-- Every number below the length of such a list is the position of a place. -/
theorem WF.exists_place {γ : Type} {k : BlockId × Block → List γ} (hw : f.WF)
    (hk : ∀ x, (k x).length = x.2.code.length) {n : Nat} (hn : n < (f.blocks.flatMap k).length) :
    ∃ p i, f.instrAt? p = some i ∧ f.position p = n := by
  obtain ⟨m, ⟨b, B⟩, j, hm, hj, hsum⟩ := exists_of_lt_length_flatMap hn
  obtain ⟨hb, hB⟩ := hw.getElem?_blocks.mp hm
  obtain ⟨i, hi⟩ := exists_instrAt? hB (n := j) (by rwa [hk] at hj)
  refine ⟨⟨b, j⟩, i, hi, ?_⟩
  rw [position, hw.startOf_eq hb hB, ← length_flatMap_congr hk, hsum]

/-- The instructions in layout order have every place at its position. -/
theorem WF.getElem?_sites (hw : f.WF) (hp : f.instrAt? p = some i) :
    f.sites[f.position p]? = some ⟨p.block, p.offset, i⟩ := by
  obtain ⟨B, hB, hi⟩ := instrAt?_eq_some_iff.mp hp
  have hlt : p.offset < B.code.length := (List.getElem?_eq_some_iff.mp hi).1
  rw [sites, hw.getElem?_flatMap_blocks (fun x ↦ x.2.length_sites x.1) hB hlt, Block.sites]
  simp [hi]

/-- A block that stands before another ends where the other starts, or before. -/
theorem WF.position_lt_of_precedes (hw : f.WF) (h : f.Precedes a b) {n : Nat}
    (hp : f.instrAt? ⟨a, n⟩ = some i) (k : Nat) : f.position ⟨a, n⟩ < f.position ⟨b, k⟩ := by
  obtain ⟨m, m', hm, hm', hlt⟩ := h
  obtain ⟨A, hA, hi⟩ := instrAt?_eq_some_iff.mp hp
  obtain ⟨B, hB⟩ := contains_iff.mp ((hw.mem_layout b).mp (List.mem_of_getElem? hm'))
  have hn : n < A.code.length := (List.getElem?_eq_some_iff.mp hi).1
  have hstart : f.startOf a + A.code.length ≤ f.startOf b := by
    have htake : f.blocks.take (m + 1) = f.blocks.take m ++ [(a, A)] := by
      rw [List.take_add_one, hw.getElem?_blocks.mpr ⟨hm, hA⟩, Option.toList_some]
    obtain ⟨rest, hrest⟩ := List.take_prefix_take_left (l := f.blocks) hlt
    rw [hw.startOf_eq hm hA, hw.startOf_eq hm' hB, ← hrest, Nat.succ_eq_add_one, htake,
      List.flatMap_append, List.flatMap_append, List.length_append, List.length_append,
      List.flatMap_singleton]
    exact Nat.le_add_right _ _
  show f.startOf a + n < f.startOf b + k
  omega

/-- No block precedes itself. -/
theorem WF.precedes_irrefl (hw : f.WF) : ¬f.Precedes a a := by
  rintro ⟨m, n, hm, hn, hlt⟩
  exact Nat.ne_of_lt hlt (hw.index_unique hm hn)

/-- What precedes a block precedes all that come after that block. -/
theorem WF.precedes_trans {c : BlockId} (hw : f.WF) (h : f.Precedes a b) (h' : f.Precedes b c) :
    f.Precedes a c := by
  obtain ⟨m, n, hm, hn, hlt⟩ := h
  obtain ⟨n', k, hn', hk, hlt'⟩ := h'
  have hsame := hw.index_unique hn hn'
  exact ⟨m, k, hm, hk, by omega⟩

/-! ### Control -/

/-- Control may pass from one block to another: to a successor, or to the handler. -/
def Follows (f : Func) (a b : BlockId) : Prop :=
  f.Leads a b ∨ ∃ A, f.block? a = some A ∧ A.handler = some b

/-- Control passes from an instruction to the next one of its block or, if it is a terminator, to
the start of a successor. -/
inductive Proceeds (f : Func) : Place → Place → Prop
  | next {b : BlockId} {n : Nat} {i : Instr} : f.instrAt? ⟨b, n⟩ = some i →
      i.isTerminator = false → Proceeds f ⟨b, n⟩ ⟨b, n + 1⟩
  | leap {a b : BlockId} {n : Nat} {i : Instr} : f.instrAt? ⟨a, n⟩ = some i →
      i.isTerminator = true → f.Leads a b → Proceeds f ⟨a, n⟩ ⟨b, 0⟩

/-- An exception at an instruction takes control to the handler of its block. -/
inductive Unwinds (f : Func) : Place → Place → Prop
  | handler {b h : BlockId} {B : Block} {n : Nat} : f.block? b = some B → n < B.code.length →
      B.handler = some h → Unwinds f ⟨b, n⟩ ⟨h, 0⟩

/-- Control proceeds to the next instruction, or from a terminator to the start of a block it leads
to. -/
theorem proceeds_iff : f.Proceeds p q ↔ ∃ i, f.instrAt? p = some i ∧
    (i.isTerminator = false ∧ q = ⟨p.block, p.offset + 1⟩ ∨
      i.isTerminator = true ∧ f.Leads p.block q.block ∧ q.offset = 0) := by
  constructor
  · intro h
    cases h with
    | next hi ht => exact ⟨_, hi, .inl ⟨ht, rfl⟩⟩
    | leap hi ht hab => exact ⟨_, hi, .inr ⟨ht, hab, rfl⟩⟩
  · rintro ⟨i, hi, ⟨ht, rfl⟩ | ⟨ht, hab, hq⟩⟩
    · exact .next hi ht
    · obtain ⟨b, n⟩ := q
      obtain rfl : n = 0 := hq
      exact .leap hi ht hab

/-- Control unwinds from any instruction of a block to the start of the block's handler. -/
theorem unwinds_iff : f.Unwinds p q ↔ ∃ B, f.block? p.block = some B ∧ p.offset < B.code.length ∧
    B.handler = some q.block ∧ q.offset = 0 := by
  constructor
  · intro h
    cases h with
    | handler hB hn hh => exact ⟨_, hB, hn, hh, rfl⟩
  · rintro ⟨B, hB, hn, hh, hq⟩
    obtain ⟨b, n⟩ := q
    obtain rfl : n = 0 := hq
    exact .handler hB hn hh

instance (a b : BlockId) : Decidable (f.Leads a b) :=
  match h : f.successors a with
  | .ok ts => decidable_of_iff (b ∈ ts)
      ⟨fun hb ↦ ⟨ts, h, hb⟩, fun ⟨_, hts, hb⟩ ↦ Except.ok.inj (h.symm.trans hts) ▸ hb⟩
  | .error _ => isFalse fun ⟨_, hts, _⟩ ↦ nomatch h.symm.trans hts

instance (p q : Place) : Decidable (f.Proceeds p q) :=
  decidable_of_iff (∃ i ∈ f.instrAt? p, i.isTerminator = false ∧ q = ⟨p.block, p.offset + 1⟩ ∨
    i.isTerminator = true ∧ f.Leads p.block q.block ∧ q.offset = 0) proceeds_iff.symm

instance (p q : Place) : Decidable (f.Unwinds p q) :=
  decidable_of_iff (∃ B ∈ f.block? p.block, p.offset < B.code.length ∧
    B.handler = some q.block ∧ q.offset = 0) unwinds_iff.symm

end Func

end Bytecode
