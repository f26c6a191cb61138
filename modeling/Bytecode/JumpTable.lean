import Bytecode.Index

/-!
# Jump tables

A jump table sends discriminants to blocks. Its entries stand in ascending order of discriminant,
each discriminant once, and a table carries the proof of it.
-/

namespace Bytecode

/-- A dispatch table: discriminants with their target blocks. -/
structure JumpTable where
  entries : List (Int64 × BlockId)
  /-- Discriminants ascend, so none has two entries. -/
  ascending : entries.Pairwise fun a b => a.1 < b.1
  deriving DecidableEq

namespace JumpTable

/-- The table without entries. -/
def empty : JumpTable := ⟨[], .nil⟩

/-- Put an entry at its place in an ascending list, in place of one with the same discriminant. -/
def insertEntry (disc : Int64) (target : BlockId) : List (Int64 × BlockId) → List (Int64 × BlockId)
  | [] => [(disc, target)]
  | (d, t) :: rest =>
    if disc < d then (disc, target) :: (d, t) :: rest
    else if disc = d then (disc, target) :: rest
    else (d, t) :: insertEntry disc target rest

private theorem mem_insertEntry {disc : Int64} {target : BlockId} {l : List (Int64 × BlockId)}
    {e : Int64 × BlockId} (h : e ∈ insertEntry disc target l) : e = (disc, target) ∨ e ∈ l := by
  induction l with
  | nil => exact .inl (List.mem_singleton.mp h)
  | cons first rest ih =>
    obtain ⟨d, t⟩ := first
    simp only [insertEntry] at h
    split at h
    · exact List.mem_cons.mp h
    · split at h
      · exact (List.mem_cons.mp h).imp_right (List.mem_cons_of_mem _)
      · rcases List.mem_cons.mp h with rfl | h
        · exact .inr List.mem_cons_self
        · exact (ih h).imp_right (List.mem_cons_of_mem _)

private theorem pairwise_insertEntry {l : List (Int64 × BlockId)}
    (h : l.Pairwise fun a b => a.1 < b.1) (disc : Int64) (target : BlockId) :
    (insertEntry disc target l).Pairwise fun a b => a.1 < b.1 := by
  induction l with
  | nil => exact List.pairwise_singleton _ _
  | cons first rest ih =>
    obtain ⟨d, t⟩ := first
    obtain ⟨hfirst, hrest⟩ := List.pairwise_cons.mp h
    simp only [insertEntry]
    split
    · next hlt =>
      refine List.pairwise_cons.mpr ⟨fun e he => ?_, h⟩
      rcases List.mem_cons.mp he with rfl | he
      · exact hlt
      · exact Int64.lt_trans hlt (hfirst e he)
    · next hlt =>
      split
      · next heq => exact List.pairwise_cons.mpr ⟨fun e he => heq ▸ hfirst e he, hrest⟩
      · next hne =>
        refine List.pairwise_cons.mpr ⟨fun e he => ?_, ih hrest⟩
        rcases mem_insertEntry he with rfl | he
        · exact Int64.lt_of_le_of_ne (Int64.not_lt.mp hlt) (Ne.symm hne)
        · exact hfirst e he

/-- Add or replace the target of a discriminant. -/
def insert (table : JumpTable) (disc : Int64) (target : BlockId) : JumpTable :=
  ⟨insertEntry disc target table.entries, pairwise_insertEntry table.ascending disc target⟩

/-- The table of the given entries; of two with one discriminant the later one stays. -/
def ofList (entries : List (Int64 × BlockId)) : JumpTable :=
  entries.foldl (fun table entry => table.insert entry.1 entry.2) empty

/-- The target of a discriminant, if it has an entry. -/
def get? (table : JumpTable) (disc : Int64) : Option BlockId := table.entries.lookup disc

/-- The targets in order of discriminant; a block may stand there more than once. -/
def targets (table : JumpTable) : List BlockId := table.entries.map Prod.snd

/-- Replace every target. -/
def mapTargets (f : BlockId → BlockId) (table : JumpTable) : JumpTable :=
  ⟨table.entries.map fun entry => (entry.1, f entry.2), by
    rw [List.pairwise_map]
    exact table.ascending⟩

/-- Name `new` in every entry that named `old`. -/
def redirect (old new : BlockId) (table : JumpTable) : JumpTable :=
  table.mapTargets (retarget old new)

/-- How many entries `redirect` changes. -/
def redirectCount (old new : BlockId) (table : JumpTable) : Nat :=
  if old = new then 0 else table.targets.count old

/-- The targets of a mapped table are the mapped targets. -/
@[simp] theorem targets_mapTargets (f : BlockId → BlockId) (table : JumpTable) :
    (table.mapTargets f).targets = table.targets.map f := by
  simp [mapTargets, targets]

private theorem lookup_entry (d k : Int64) (t : BlockId) (rest : List (Int64 × BlockId)) :
    List.lookup d ((k, t) :: rest) = if d = k then some t else List.lookup d rest := by
  by_cases h : d = k
  · simp [h]
  · have hb : (d == k) = false := by simpa using h
    simp [List.lookup_cons, hb, h]

private theorem lookup_insertEntry (disc d : Int64) (target : BlockId)
    (entries : List (Int64 × BlockId)) :
    (insertEntry disc target entries).lookup d =
      if d = disc then some target else entries.lookup d := by
  induction entries with
  | nil => exact lookup_entry d disc target []
  | cons e rest ih =>
    obtain ⟨k, t⟩ := e
    simp only [insertEntry]
    split
    · exact lookup_entry d disc target _
    · split
      · next he =>
        subst he
        by_cases h : d = disc <;> simp [lookup_entry, h]
      · next he =>
        by_cases hk : d = k
        · have hd : ¬d = disc := fun e => he (e.symm.trans hk)
          simp [hk, hk ▸ hd]
        · simp [lookup_entry, hk, ih]

/-- An inserted entry is found under its discriminant, and the others as before. -/
theorem get?_insert (table : JumpTable) (disc d : Int64) (target : BlockId) :
    (table.insert disc target).get? d = if d = disc then some target else table.get? d :=
  lookup_insertEntry disc d target table.entries

/-- The target of a discriminant is that of its only entry. -/
theorem get?_eq_some_iff {table : JumpTable} {disc : Int64} {target : BlockId} :
    table.get? disc = some target ↔ (disc, target) ∈ table.entries := by
  obtain ⟨entries, ascending⟩ := table
  simp only [get?]
  induction entries with
  | nil => simp
  | cons e rest ih =>
    obtain ⟨d, t⟩ := e
    obtain ⟨hfirst, hrest⟩ := List.pairwise_cons.mp ascending
    rw [lookup_entry, List.mem_cons, Prod.mk.injEq]
    split
    · next heq =>
      subst heq
      have hnot : (disc, target) ∉ rest := fun hmem =>
        Int64.lt_irrefl (hfirst (disc, target) hmem)
      simp [hnot, eq_comm]
    · next hne => simp [hne, ih hrest]

/-- The targets are what some discriminant is sent to. -/
theorem mem_targets_iff {table : JumpTable} {target : BlockId} :
    target ∈ table.targets ↔ ∃ disc, table.get? disc = some target := by
  simp [targets, get?_eq_some_iff]

/-- The table as a listing shows it. -/
def text (table : JumpTable) : String :=
  let entry (e : Int64 × BlockId) : String :=
    " " ++ toString e.1.toInt ++ " => " ++ BlockId.label e.2
  "jump_table \x7b" ++ ",".intercalate (table.entries.map entry) ++ " \x7d"

end JumpTable

end Bytecode
