import Bytecode.Func

/-!
# Edits of a function

Adding, placing, removing and changing blocks, reordering the layout, and sending every reference
to one block to another. Each edit is total and says what becomes of `Func.block?`; one that may be
refused gives back the function it leaves in either case.
-/

namespace Bytecode.Func

/-- Append a constant; its index is the former length of the pool. -/
def addConstant (f : Func) (c : Constant) : Func := { f with constants := f.constants ++ [c] }

/-- Append a block to the arena and the layout; its handle is the former size of the arena. -/
def addBlock (f : Func) (b : Block) : Func :=
  { f with arena := f.arena.push (some b), layout := f.layout ++ [f.arena.size] }

/-- What an edit that may be refused leaves behind. -/
structure Attempt where
  /-- The function afterwards, whether the edit was made or refused. -/
  func : Func
  /-- Why the edit was refused; none if it was made. -/
  fault : Option Fault

/-- The edited function, if the edit was made. -/
def Attempt.result (a : Attempt) : Except Fault Func :=
  match a.fault with
  | none => .ok a.func
  | some fault => .error fault

/-- The function with empty slots added so that its arena has slot `id`. -/
def grow (f : Func) (id : BlockId) : Func :=
  { f with arena := f.arena ++ Array.replicate (id + 1 - f.arena.size) none }

/-- Fill a slot of the arena and list it at the end of the layout. -/
def place (f : Func) (id : BlockId) (b : Block) : Func :=
  { f with arena := f.arena.setIfInBounds id (some b), layout := f.layout ++ [id] }

/-- Put a block at a slot of its own. The arena grows first; then a slot in use is refused. -/
def tryInsertBlock (f : Func) (id : BlockId) (b : Block) : Attempt :=
  let grown := f.grow id
  if grown.contains id then ⟨grown, some (.duplicateBlock id)⟩ else ⟨grown.place id b, none⟩

/-- The function with a block put at a slot of its own, if the slot was free. -/
def insertBlock (f : Func) (id : BlockId) (b : Block) : Except Fault Func :=
  (f.tryInsertBlock id b).result

/-- Change a live block in place. -/
def modifyBlock (f : Func) (id : BlockId) (g : Block → Block) : Func :=
  { f with arena := f.arena.modify id (Option.map g) }

/-- Empty a slot and drop its handle from the layout. References to the block stay as they are. -/
def removeBlock (f : Func) (id : BlockId) : Func :=
  if f.contains id then
    { f with arena := f.arena.setIfInBounds id none, layout := f.layout.filter (· != id) }
  else f

/-- Move a listed block to the front, where the entry is. -/
def makeEntry (f : Func) (id : BlockId) : Func :=
  if id ∈ f.layout then { f with layout := id :: f.layout.erase id } else f

/-- The first handle of a new layout that is dead or was listed before. -/
def invalidEntry? (f : Func) : List BlockId → List BlockId → Option BlockId
  | _, [] => none
  | seen, id :: rest =>
    if f.contains id && !seen.contains id then f.invalidEntry? (id :: seen) rest else some id

/-- Replace the layout by another order of the same blocks; anything else is refused. -/
def tryReorder (f : Func) (layout : List BlockId) : Attempt :=
  match f.invalidEntry? [] layout with
  | some id => ⟨f, some (.invalidLayoutEntry id)⟩
  | none =>
    if layout.length = f.layout.length then ⟨{ f with layout := layout }, none⟩
    else ⟨f, some (.invalidLayoutLength layout.length f.layout.length)⟩

/-- The function with its layout in another order, if that lists the same blocks. -/
def reorder (f : Func) (layout : List BlockId) : Except Fault Func := (f.tryReorder layout).result

/-- Let every reference to `old` in blocks and constants name `new`. -/
def redirectUses (f : Func) (old new : BlockId) : Func :=
  { f with
    arena := f.arena.map (Option.map (Block.redirect old new))
    constants := f.constants.map (Constant.redirect old new) }

/-- The entry position passes from `old` to `new`. -/
def movesEntry (f : Func) (old new : BlockId) : Bool :=
  old ≠ new && f.entry? = some old && f.contains new

/-- Let `new` take the place of `old`: in terminators, handlers and tables, and as the entry. -/
def redirect (f : Func) (old new : BlockId) : Func :=
  if f.movesEntry old new then (f.redirectUses old new).makeEntry new
  else f.redirectUses old new

/-- How many blocks, table entries and entry positions `redirect` changes. -/
def redirectCount (f : Func) (old new : BlockId) : Nat :=
  if old = new then 0
  else
    (f.arena.toList.filterMap id).countP (fun b => b.redirect old new ≠ b) +
      (f.tables.flatMap JumpTable.targets).count old + (f.movesEntry old new).toNat

/-! ## What the edits do to the blocks -/

/-- The block added last is found under the number of the arena's end. -/
theorem block?_addBlock (f : Func) (b : Block) (id : BlockId) :
    (f.addBlock b).block? id = if id = f.arena.size then some b else f.block? id := by
  by_cases h : id = f.arena.size <;> simp [addBlock, block?, Array.getElem?_push, h]

/-- Growing the arena gives no number a block. -/
@[simp] theorem block?_grow (f : Func) (id x : BlockId) : (f.grow id).block? x = f.block? x := by
  unfold grow block?
  grind

/-- Growing the arena brings no block to life. -/
@[simp] theorem contains_grow (f : Func) (id x : BlockId) :
    (f.grow id).contains x = f.contains x := by
  simp [contains]

/-- The arena grows just far enough to have a place for the number. -/
theorem size_grow (f : Func) (id : BlockId) :
    (f.grow id).arena.size = max f.arena.size (id + 1) := by
  simp only [grow, Array.size_append, Array.size_replicate]
  omega

/-- An arena that has the slot does not grow. -/
theorem grow_of_contains {f : Func} {id : BlockId} (h : f.contains id = true) : f.grow id = f := by
  have hsize : id < f.arena.size := by
    by_cases hlt : id < f.arena.size
    · exact hlt
    · simp [contains, block?, Array.getElem?_eq_none (Nat.le_of_not_lt hlt)] at h
  simp [grow, Nat.sub_eq_zero_of_le hsize]

/-- A slot in use is refused, and the function is as it was. -/
theorem tryInsertBlock_of_contains {f : Func} {id : BlockId} (h : f.contains id = true)
    (b : Block) : f.tryInsertBlock id b = ⟨f, some (.duplicateBlock id)⟩ := by
  simp [tryInsertBlock, grow_of_contains h, h]

/-- A slot that is free takes the block. -/
theorem tryInsertBlock_of_not_contains {f : Func} {id : BlockId} (h : ¬f.contains id = true)
    (b : Block) :
    f.tryInsertBlock id b = ⟨(f.grow id).place id b, none⟩ := by
  simp [tryInsertBlock, h]

/-- Placing a block fails exactly when its slot is in use, and says so. -/
theorem insertBlock_eq_error_iff (f : Func) (id : BlockId) (b : Block) (fault : Fault) :
    f.insertBlock id b = .error fault ↔ f.contains id = true ∧ fault = .duplicateBlock id := by
  by_cases hc : f.contains id = true
  · simp [insertBlock, tryInsertBlock_of_contains hc, Attempt.result, hc, eq_comm]
  · simp [insertBlock, tryInsertBlock_of_not_contains hc, Attempt.result, hc]

/-- A block is inserted exactly if its number is free, and then stands in the grown arena. -/
theorem insertBlock_eq_ok_iff {f g : Func} {id : BlockId} {b : Block} :
    f.insertBlock id b = .ok g ↔ ¬f.contains id = true ∧ g = (f.grow id).place id b := by
  by_cases hc : f.contains id = true
  · simp [insertBlock, tryInsertBlock_of_contains hc, Attempt.result, hc]
  · simp [insertBlock, tryInsertBlock_of_not_contains hc, Attempt.result, hc, eq_comm]

private theorem block?_place {f : Func} {id : BlockId} (h : id < f.arena.size) (b : Block)
    (x : BlockId) : (f.place id b).block? x = if x = id then some b else f.block? x := by
  by_cases hx : x = id
  · subst hx
    simp [place, block?, h]
  · have hne : id ≠ x := fun e => hx e.symm
    simp [place, block?, Array.getElem?_setIfInBounds_ne hne, hx]

/-- An inserted block is found under its number, and all others as before. -/
theorem block?_insertBlock {f g : Func} {id : BlockId} {b : Block}
    (h : f.insertBlock id b = .ok g) (x : BlockId) :
    g.block? x = if x = id then some b else f.block? x := by
  obtain ⟨_, rfl⟩ := insertBlock_eq_ok_iff.mp h
  have hsize : id < (f.grow id).arena.size := by
    rw [size_grow]
    exact Nat.le_max_right ..
  rw [block?_place hsize, block?_grow]

/-- An edit that was made leaves what it gives. -/
theorem Attempt.func_eq_of_result {a : Attempt} {g : Func} (h : a.result = .ok g) :
    a.func = g := by
  rw [result] at h
  split at h
  · exact Except.ok.inj h
  · contradiction

/-- A block that is refused leaves the function as it was. -/
theorem func_tryInsertBlock_of_error {f : Func} {id : BlockId} {b : Block} {fault : Fault}
    (h : f.insertBlock id b = .error fault) : (f.tryInsertBlock id b).func = f := by
  rw [tryInsertBlock_of_contains ((insertBlock_eq_error_iff ..).mp h).1]

/-- An order that is refused leaves the function as it was. -/
theorem func_tryReorder_of_error {f : Func} {layout : List BlockId} {fault : Fault}
    (h : f.reorder layout = .error fault) : (f.tryReorder layout).func = f := by
  rw [reorder, tryReorder] at h
  rw [tryReorder]
  split
  · rfl
  · next hnone =>
    split
    · next hlength => simp [hnone, hlength, Attempt.result] at h
    · rfl

/-- Modifying a block maps it where it is found and leaves the others. -/
theorem block?_modifyBlock (f : Func) (id : BlockId) (g : Block → Block) (x : BlockId) :
    (f.modifyBlock id g).block? x = if x = id then (f.block? x).map g else f.block? x := by
  by_cases h : x = id
  · subst h
    cases hx : f.arena[x]? with
    | none => simp [modifyBlock, block?, Array.getElem?_modify, hx]
    | some slot => cases slot <;> simp [modifyBlock, block?, Array.getElem?_modify, hx]
  · have he : ¬id = x := fun e => h e.symm
    simp [modifyBlock, block?, Array.getElem?_modify, h, he]

/-- A removed block is found no more, and all others as before. -/
theorem block?_removeBlock (f : Func) (id x : BlockId) :
    (f.removeBlock id).block? x = if x = id then none else f.block? x := by
  by_cases hc : f.contains id
  · by_cases h : x = id
    · subst h
      simp only [removeBlock, hc, ↓reduceIte, block?, Array.getElem?_setIfInBounds_self]
      split <;> rfl
    · have he : id ≠ x := fun e => h e.symm
      simp [removeBlock, hc, block?, Array.getElem?_setIfInBounds_ne he, h]
  · by_cases h : x = id
    · subst h
      simp only [removeBlock, hc, Bool.false_eq_true, ↓reduceIte]
      simpa [contains] using hc
    · simp [removeBlock, hc, h]

/-- Moving a block to the front of the layout changes no block. -/
@[simp] theorem block?_makeEntry (f : Func) (id x : BlockId) :
    (f.makeEntry id).block? x = f.block? x := by
  by_cases h : id ∈ f.layout <;> simp [makeEntry, h, block?]

/-- Redirecting uses redirects every block. -/
@[simp] theorem block?_redirectUses (f : Func) (old new x : BlockId) :
    (f.redirectUses old new).block? x = (f.block? x).map (Block.redirect old new) := by
  cases hx : f.arena[x]? with
  | none => simp [redirectUses, block?, hx]
  | some slot => cases slot <;> simp [redirectUses, block?, hx]

/-- A redirection redirects every block, whether or not the entry moves. -/
@[simp] theorem block?_redirect (f : Func) (old new x : BlockId) :
    (f.redirect old new).block? x = (f.block? x).map (Block.redirect old new) := by
  by_cases h : f.movesEntry old new <;> simp [redirect, h]

/-- A redirection keeps which blocks are live. -/
@[simp] theorem contains_redirect (f : Func) (old new x : BlockId) :
    (f.redirect old new).contains x = f.contains x := by
  simp [contains]

end Bytecode.Func
