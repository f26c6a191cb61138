import Bytecode.Optimize.Forwarding
import Mathlib.Data.List.Nodup
import Mathlib.Logic.Relation

/-!
# Where forwarding ends

Following a map from a block either comes to a block that is not sent on or never ends. A way that
ends meets no block twice, so that looking out for blocks visited before stops no such way; and
since there are no more blocks to visit than entries, it stops every other one.
-/

namespace Bytecode.Forwarding

open Relation

variable {α : Type} [DecidableEq α] {m : Forwarding α} {b c d x y : α} {visited : List α}

/-- The names with an entry are those with a next name. -/
theorem mem_map_fst_entries : b ∈ m.entries.map Prod.fst ↔ ∃ c, m.next? b = some c := by
  constructor
  · intro h
    rw [← Option.ne_none_iff_exists', next?, ne_eq, List.lookup_eq_none_iff]
    obtain ⟨p, hp, rfl⟩ := List.mem_map.mp h
    exact fun hnone ↦ by simpa using hnone p hp
  · rintro ⟨c, hc⟩
    exact List.mem_map.mpr ⟨(b, c), mem_of_next? hc, rfl⟩

private theorem not_mem_map_fst_entries : b ∉ m.entries.map Prod.fst ↔ m.next? b = none := by
  rw [mem_map_fst_entries, Option.eq_none_iff_forall_ne_some]
  exact not_exists

/-- If no name has two entries, the next name is that of the one entry. -/
theorem next?_eq_some_iff (hm : (m.entries.map Prod.fst).Nodup) :
    m.next? b = some c ↔ (b, c) ∈ m.entries := by
  constructor
  · exact mem_of_next?
  · intro hmem
    obtain ⟨d, hd⟩ := mem_map_fst_entries.mp (List.mem_map_of_mem hmem)
    have hpair := List.inj_on_of_nodup_map hm hmem (mem_of_next? hd) rfl
    rw [hd, (Prod.mk.inj hpair).2]

/-! ### Ways that end -/

/-- Following the map from a block ends at a block that is not sent on. -/
inductive EndsAt (m : Forwarding α) : α → α → Prop
  | stop {b : α} : m.next? b = none → EndsAt m b b
  | step {b c d : α} : m.next? b = some c → EndsAt m c d → EndsAt m b d

/-- Following the map ends where there is no next name. -/
theorem EndsAt.next?_eq_none (h : m.EndsAt b c) : m.next? c = none := by
  induction h with
  | stop hnone => exact hnone
  | step _ _ ih => exact ih

/-- Following the map ends at one place from a name and from the next one. -/
theorem endsAt_next_iff (h : m.next? b = some d) : m.EndsAt b c ↔ m.EndsAt d c := by
  constructor
  · intro hb
    cases hb with
    | stop hnone => simp [h] at hnone
    | step hnext hrest =>
      rw [h, Option.some.injEq] at hnext
      exact hnext ▸ hrest
  · exact .step h

/-- Following the map ends at one place only. -/
theorem EndsAt.unique (h : m.EndsAt b x) (h' : m.EndsAt b y) : x = y := by
  induction h with
  | stop hnone =>
    cases h' with
    | stop => rfl
    | step hsome _ => simp [hnone] at hsome
  | step hsome _ ih => exact ih ((endsAt_next_iff hsome).mp h')

/-- A way that ends does not come back. -/
theorem EndsAt.acyclic (h : m.EndsAt b c) : ¬TransGen (fun x y ↦ m.next? x = some y) b b := by
  induction h with
  | stop hnone =>
    intro hcycle
    obtain ⟨y, hy, _⟩ := TransGen.head'_iff.mp hcycle
    rw [hnone] at hy
    contradiction
  | step hnext _ ih =>
    intro hcycle
    obtain ⟨y, hy, hback⟩ := TransGen.head'_iff.mp hcycle
    rw [hnext, Option.some.injEq] at hy
    subst hy
    exact ih (.tail' hback hnext)

/-! ### The walk -/

private theorem walk_of_none (h : m.next? b = none) : m.walk visited b = some b := by
  rw [walk]
  split
  · rfl
  · next hsome => simp [h] at hsome

private theorem walk_of_some (h : m.next? b = some c) :
    m.walk visited b = if b ∈ visited then none else m.walk (b :: visited) c := by
  rw [walk]
  split
  · next hnone => simp [h] at hnone
  · next d hd => rw [Option.some.inj (hd.symm.trans h)]

private theorem endsAt_of_walk (h : m.walk visited b = some c) : m.EndsAt b c := by
  fun_induction walk m visited b with
  | case1 visited b hnone => exact Option.some.inj h ▸ .stop hnone
  | case2 => contradiction
  | case3 visited b d hnext _ ih => exact .step hnext (ih h)

/-- A walk is not stopped on a way that ends, if nothing that was visited lies on it. -/
theorem EndsAt.walk_eq (h : m.EndsAt b c)
    (hvisited : ∀ x ∈ visited, ¬ReflTransGen (fun x y ↦ m.next? x = some y) b x) :
    m.walk visited b = some c := by
  -- What was visited is never met again: each step leaves a block that a way with an end does not
  -- come back to.
  induction h generalizing visited with
  | stop hnone => exact walk_of_none hnone
  | @step b d c hnext hrest ih =>
    have hb : b ∉ visited := fun hmem ↦ hvisited b hmem .refl
    rw [walk_of_some hnext, if_neg hb]
    apply ih
    intro x hx hway
    rcases List.mem_cons.mp hx with rfl | hx
    · exact (EndsAt.step hnext hrest).acyclic (.head' hnext hway)
    · exact hvisited x hx (.head hnext hway)

/-- Resolving a block finds the end of its way exactly when there is one. -/
theorem resolve_eq_some_iff : m.resolve b = some c ↔ m.EndsAt b c :=
  ⟨endsAt_of_walk, fun h ↦ h.walk_eq (by simp)⟩

/-- A name is not resolved exactly if following the map does not end. -/
theorem resolve_eq_none_iff : m.resolve b = none ↔ ∀ c, ¬m.EndsAt b c := by
  simp only [Option.eq_none_iff_forall_ne_some, ne_eq, resolve_eq_some_iff]

/-- What the walk does, round by round: it leaves the map, it comes to a block for the second time,
or it visits one more block. It answers after as many rounds as it has visited blocks. -/
inductive Rounds (m : Forwarding α) : List α → α → Nat → Option α → Prop
  | leave {visited : List α} {b : α} : m.next? b = none → Rounds m visited b 0 (some b)
  | turn {visited : List α} {b c : α} : m.next? b = some c → b ∈ visited →
      Rounds m visited b 0 none
  | visit {visited : List α} {b c : α} {n : Nat} {answer : Option α} : m.next? b = some c →
      b ∉ visited → Rounds m (b :: visited) c n answer → Rounds m visited b (n + 1) answer

/-- The walk has no more rounds than there are entries left to visit. -/
theorem rounds_walk (m : Forwarding α) (visited : List α) (b : α) :
    ∃ n ≤ (m.unvisited visited).length, m.Rounds visited b n (m.walk visited b) := by
  fun_induction walk m visited b with
  | case1 visited b hnone => exact ⟨0, Nat.zero_le _, .leave hnone⟩
  | case2 visited b c hnext hb => exact ⟨0, Nat.zero_le _, .turn hnext hb⟩
  | case3 visited b c hnext hb ih =>
    obtain ⟨n, hn, hrounds⟩ := ih
    exact ⟨n + 1, Nat.lt_of_le_of_lt hn (length_unvisited_lt hnext hb), .visit hnext hb hrounds⟩

/-! ### Iterates -/

/-- The block that `n` steps of following the map lead to, if it gets so far. -/
def after (m : Forwarding α) : Nat → α → Option α
  | 0, b => some b
  | n + 1, b => (m.next? b).bind (m.after n)

private theorem endsAt_iff_after :
    m.EndsAt b c ↔ ∃ n, m.after n b = some c ∧ m.next? c = none := by
  constructor
  · intro h
    induction h with
    | stop hnone => exact ⟨0, rfl, hnone⟩
    | step hnext _ ih =>
      obtain ⟨n, hn, hnone⟩ := ih
      exact ⟨n + 1, by rw [after, hnext, Option.bind_some, hn], hnone⟩
  · rintro ⟨n, hn, hnone⟩
    induction n generalizing b with
    | zero =>
      obtain rfl : b = c := Option.some.inj hn
      exact .stop hnone
    | succ n ih =>
      obtain ⟨d, hd, hrest⟩ := Option.bind_eq_some_iff.mp hn
      exact .step hd (ih hrest)

/-- A way without an end goes on from every block it comes to. -/
theorem exists_after_of_never (h : ∀ c, ¬m.EndsAt b c) (n : Nat) :
    ∃ c, m.after n b = some c ∧ c ∈ m.entries.map Prod.fst := by
  have hnext {b : α} (h : ∀ c, ¬m.EndsAt b c) : ∃ d, m.next? b = some d :=
    Option.ne_none_iff_exists'.mp fun hnone ↦ h b (.stop hnone)
  induction n generalizing b with
  | zero => exact ⟨b, rfl, mem_map_fst_entries.mpr (hnext h)⟩
  | succ n ih =>
    obtain ⟨d, hd⟩ := hnext h
    rw [after, hd, Option.bind_some]
    exact ih fun c hc ↦ h c (.step hd hc)

/-- Every block on a way has the same end. -/
theorem EndsAt.of_after (h : m.EndsAt b c) {n : Nat} (hn : m.after n b = some d) :
    m.EndsAt d c := by
  induction n generalizing b with
  | zero => exact Option.some.inj hn ▸ h
  | succ n ih =>
    obtain ⟨e, he, hrest⟩ := Option.bind_eq_some_iff.mp hn
    exact ih ((endsAt_next_iff he).mp h) hrest

/-! ### Resolving -/

/-- Resolving a block comes to an answer in no more rounds than the map has entries. It finds the
block that finitely many steps lead to and that is not sent on, and nothing exactly if all steps
lead to blocks that are sent on. Every block on the way to the one it finds resolves to that one
too. -/
theorem resolve_exact (m : Forwarding α) (b : α) :
    (∃ n ≤ m.entries.length, m.Rounds [] b n (m.resolve b)) ∧
    (∀ t, m.resolve b = some t ↔ ∃ n, m.after n b = some t ∧ t ∉ m.entries.map Prod.fst) ∧
    (m.resolve b = none ↔ ∀ n, ∃ c, m.after n b = some c ∧ c ∈ m.entries.map Prod.fst) ∧
    ∀ t, m.resolve b = some t → ∀ n c, m.after n b = some c → m.resolve c = some t := by
  refine ⟨?_, fun t ↦ ?_, ?_, fun t ht n c hn ↦ ?_⟩
  · obtain ⟨n, hn, hrounds⟩ := rounds_walk m [] b
    exact ⟨n, Nat.le_trans hn (List.length_filter_le _ _), hrounds⟩
  · simp only [resolve_eq_some_iff, endsAt_iff_after, not_mem_map_fst_entries]
  · rw [resolve_eq_none_iff]
    refine ⟨exists_after_of_never, fun h t ht ↦ ?_⟩
    obtain ⟨n, hn, hnone⟩ := endsAt_iff_after.mp ht
    obtain ⟨c, hc, hkey⟩ := h n
    rw [hn, Option.some.injEq] at hc
    exact not_mem_map_fst_entries.mpr hnone (hc ▸ hkey)
  · rw [resolve_eq_some_iff] at ht ⊢
    exact ht.of_after hn

/-- A row of two blocks that comes to an end, and a block that runs into a cycle without being part
of it. -/
def drains : Forwarding := ⟨[(5, 1), (1, 2), (2, 1), (7, 8), (8, 9)]⟩

/-- In `drains` the row resolves to its end, and the block that runs into the cycle to nothing. -/
theorem drains_exact : drains.resolve 7 = some 9 ∧ drains.resolve 8 = some 9 ∧
    drains.resolve 5 = none ∧ (∃ n ≤ 5, drains.Rounds [] 5 n none) ∧
    ∀ n, ∃ c, drains.after n 5 = some c ∧ c ∈ drains.entries.map Prod.fst := by
  have hseven : drains.resolve 7 = some 9 := by decide +kernel
  have hfive : drains.resolve 5 = none := by decide +kernel
  obtain ⟨_, _, _, hway⟩ := resolve_exact drains 7
  obtain ⟨hrounds, _, hnever, _⟩ := resolve_exact drains 5
  exact ⟨hseven, hway 9 hseven 1 8 rfl, hfive, hfive ▸ hrounds, hnever.mp hfive⟩

end Bytecode.Forwarding
