import Bytecode.Proofs.Flow.BackEdges
import Bytecode.Proofs.Registers.LastWrites

/-!
# Registers that are written before they are read

Registers come to share slots only in functions where control runs forward and every register that
is read, and is no argument, is written earlier in the layout. A route that comes to the block of
such a write passes the write before the read. But the layout does not see which blocks a route
goes round: where it comes to none of the writes, the register has never been written, and its slot
may hold what another register left there.
-/

namespace Bytecode

namespace Func

open Relation

variable {f : Func} {a b : BlockId} {p q : Place} {path : List Place} {r : Register} {i : Instr}
  {k m n o : Nat}

/-- Control passes only to blocks that stand further on in the layout. -/
def RunsForward (f : Func) : Prop := ∀ a b, f.Follows a b → f.Precedes a b

/-- The instruction at a place reads a register that is no argument. -/
def ReadsAt (f : Func) (p : Place) (r : Register) : Prop :=
  f.argCount ≤ r ∧ ∃ i, f.instrAt? p = some i ∧ i.reads = some r

/-- The instruction at the second place stands before the first in the layout, and writes the
register. -/
def WritesBefore (f : Func) (p : Place) (r : Register) (q : Place) : Prop :=
  f.position q < f.position p ∧ ∃ i, f.instrAt? q = some i ∧ i.writes = some r

/-- Whatever is read and is no argument is written earlier in the layout. -/
def Primed (f : Func) : Prop := ∀ p r, f.ReadsAt p r → ∃ q, f.WritesBefore p r q

/-! ### Routes -/

/-- The instructions of a run from the entry in which nothing is thrown, one after the other. -/
structure IsRoute (f : Func) (path : List Place) : Prop where
  starts : ∃ e, f.entry? = some e ∧ path.head? = some ⟨e, 0⟩
  proceeds : path.IsChain f.Proceeds

instance (path : List Place) : Decidable (f.IsRoute path) :=
  decidable_of_iff ((∃ e ∈ f.entry?, path.head? = some ⟨e, 0⟩) ∧ path.IsChain f.Proceeds)
    ⟨fun h ↦ ⟨h.1, h.2⟩, fun h ↦ ⟨h.1, h.2⟩⟩

private theorem IsRoute.isPath (h : f.IsRoute path) : f.IsPath path :=
  ⟨h.starts, h.proceeds.imp fun _ _ hpq ↦ .inl hpq⟩

private theorem IsRoute.step (h : f.IsRoute path) (hp : path[k]? = some p)
    (hq : path[k + 1]? = some q) : f.Proceeds p q := by
  obtain ⟨_, rfl⟩ := List.getElem?_eq_some_iff.mp hp
  obtain ⟨hk, rfl⟩ := List.getElem?_eq_some_iff.mp hq
  exact List.isChain_iff_getElem.mp h.proceeds k hk

/-- A route that comes to an instruction has passed those before it in the block. -/
theorem IsRoute.passes_before (h : f.IsRoute path) (hk : path[k]? = some ⟨b, n⟩) (hm : m ≤ n) :
    ∃ j ≤ k, path[j]? = some ⟨b, m⟩ := by
  induction n generalizing k with
  | zero =>
    obtain rfl := Nat.le_zero.mp hm
    exact ⟨k, Nat.le_refl k, hk⟩
  | succ n ih =>
    by_cases hlast : m = n + 1
    · exact ⟨k, Nat.le_refl k, hlast ▸ hk⟩
    cases k with
    | zero =>
      obtain ⟨e, _, hhead⟩ := h.starts
      rw [List.head?_eq_getElem?, hk] at hhead
      simp at hhead
    | succ k =>
      have hlt : k < path.length := Nat.lt_of_succ_lt (List.getElem?_eq_some_iff.mp hk).1
      have hprev : path[k]? = some path[k] := List.getElem?_eq_getElem hlt
      obtain ⟨_, _, hnext | hleap⟩ := proceeds_iff.mp (h.step hprev hk)
      · have heq : path[k] = ⟨b, n⟩ := by
          obtain ⟨hblock, hoffset⟩ := Place.mk.inj hnext.2
          rw [hblock, Nat.succ.inj hoffset]
        obtain ⟨j, hj, hjm⟩ := ih (heq ▸ hprev) (by omega)
        exact ⟨j, by omega, hjm⟩
      · exact absurd hleap.2.2 (Nat.succ_ne_zero n)

/-- A route that has come into a block passes its further instructions before anything that stands
behind them. -/
theorem IsRoute.passes_after (hf : f.Intact) (h : f.IsRoute path) (hi : f.instrAt? ⟨b, o⟩ = some i)
    (hk : path[k]? = some ⟨b, m⟩) (hmo : m ≤ o) (hp : path[n]? = some p) (hkn : k ≤ n)
    (hlt : f.position ⟨b, o⟩ < f.position p) : ∃ j < n, path[j]? = some ⟨b, o⟩ := by
  obtain ⟨B, hB, ho⟩ := instrAt?_eq_some_iff.mp hi
  obtain ⟨body, t, hshape⟩ := hf.shape b B hB
  have holt : o < B.code.length := (List.getElem?_eq_some_iff.mp ho).1
  -- The induction is on how far it still is to the instruction.
  generalize hd : o - m = d
  induction d generalizing k m with
  | zero =>
    obtain rfl : m = o := by omega
    refine ⟨k, Nat.lt_of_le_of_ne hkn fun heq ↦ ?_, hk⟩
    rw [heq, hp, Option.some.injEq] at hk
    exact Nat.lt_irrefl _ (hk ▸ hlt)
  | succ d ih =>
    have hkn' : k < n := by
      refine Nat.lt_of_le_of_ne hkn fun heq ↦ ?_
      rw [heq, hp, Option.some.injEq] at hk
      rw [hk] at hlt
      have hoffset : f.startOf b + o < f.startOf b + m := hlt
      omega
    have hklen : k + 1 < path.length := by
      have := (List.getElem?_eq_some_iff.mp hp).1
      omega
    have hnext : path[k + 1]? = some path[k + 1] := List.getElem?_eq_getElem hklen
    obtain ⟨j, hj, hstep⟩ := proceeds_iff.mp (h.step hk hnext)
    obtain ⟨B', hB', hcode⟩ := instrAt?_eq_some_iff.mp hj
    obtain rfl := Option.some.inj (hB.symm.trans hB')
    have hplain : ¬j.isTerminator = true := by
      rw [hshape.isTerminator_iff hcode]
      show ¬m + 1 = B.code.length
      omega
    cases hstep with
    | inl hinside =>
      have heq : path[k + 1] = ⟨b, m + 1⟩ := hinside.2
      exact ih (heq ▸ hnext) (by omega) (by omega) (by omega)
    | inr hleap => exact absurd hleap.1 hplain

/-- A route that comes to the block of an earlier write passes it before the read. -/
theorem IsRoute.passes_write (hf : f.Intact) (h : f.IsRoute path) (hq : f.WritesBefore p r q)
    (hk : path[k]? = some ⟨q.block, m⟩) (hp : path[n]? = some p) (hkn : k ≤ n) :
    ∃ j < n, path[j]? = some q := by
  obtain ⟨hlt, i, hi, _⟩ := hq
  cases Nat.le_total m q.offset with
  | inl hmo => exact h.passes_after hf hi hk hmo hp hkn hlt
  | inr hmo =>
    obtain ⟨j, hj, hjq⟩ := h.passes_before hk hmo
    refine ⟨j, Nat.lt_of_le_of_ne (Nat.le_trans hj hkn) fun heq ↦ ?_, hjq⟩
    rw [heq, hp, Option.some.injEq] at hjq
    exact Nat.lt_irrefl _ (hjq ▸ hlt)

/-- Where control runs forward, a register has been written on a route exactly if the route has
come to the block of an earlier write. -/
theorem IsRoute.written_iff (hf : f.Intact) (hfwd : f.RunsForward)
    (h : f.IsRoute path) (hp : path[n]? = some p) :
    (∃ k < n, f.writtenAt? path k = some r) ↔
      ∃ q, f.WritesBefore p r q ∧ ∃ k ≤ n, ∃ m, path[k]? = some ⟨q.block, m⟩ := by
  constructor
  · rintro ⟨k, hk, hwrite⟩
    obtain ⟨q, i, hq, hi, hr⟩ := exists_place_of_writtenAt? hwrite
    exact ⟨q, ⟨h.isPath.position_lt hf.wf hfwd hk hq hp, i, hi, hr⟩, k, Nat.le_of_lt hk, q.offset,
      hq⟩
  · rintro ⟨q, hq, k, hkn, m, hk⟩
    obtain ⟨j, hj, hjq⟩ := h.passes_write hf hq hk hp hkn
    obtain ⟨_, i, hi, hr⟩ := hq
    refine ⟨j, hj, ?_⟩
    rw [writtenAt?, hjq, Option.bind_some, hi, Option.bind_some, hr]

/-! ### What the scan of the layout asks for -/

private theorem WF.exists_place_of_site (hw : f.WF) {s : Site} (hs : f.sites[n]? = some s) :
    ∃ p, f.instrAt? p = some s.instr ∧ f.position p = n ∧ s.block = p.block ∧
      s.offset = p.offset := by
  have hlt : n < f.sites.length := (List.getElem?_eq_some_iff.mp hs).1
  obtain ⟨p, i, hi, hp⟩ := hw.exists_place (fun x ↦ x.2.length_sites x.1) hlt
  have hsite := hw.getElem?_sites hi
  rw [hp, hs, Option.some.injEq] at hsite
  subst hsite
  exact ⟨p, hi, hp, rfl, rfl⟩

private theorem primed_of_liveness (hw : f.WF) {live : Liveness}
    (hlive : Liveness.ofFunc f = .ok live) : f.Primed := by
  rintro p r ⟨hr, i, hi, hread⟩
  have haccess := (accessAt?_read (hw.getElem?_sites hi)).trans hread
  obtain ⟨n, hn, hwrite⟩ :=
    (Liveness.ofFunc_records hlive).exists_write hr haccess (lt_of_accessAt? haccess)
  obtain ⟨s, hs, hwrites⟩ := accessAt?_write_iff.mp hwrite
  obtain ⟨q, hq, hposition, _⟩ := hw.exists_place_of_site hs
  exact ⟨q, hposition ▸ hn, s.instr, hq, hwrites⟩

private theorem unprimed_of_liveness (hw : f.WF) {fault : Fault}
    (h : Liveness.ofFunc f = .error fault) : ∃ p r, f.ReadsAt p r ∧ (∀ q, ¬f.WritesBefore p r q) ∧
      fault = .registerReadBeforeWrite r p.block p.offset := by
  obtain ⟨n, s, r, hs, hread, hr, hunseen, hfault⟩ := Liveness.ofFunc_error h
  obtain ⟨p, hp, hposition, hblock, hoffset⟩ := hw.exists_place_of_site hs
  refine ⟨p, r, ⟨hr, s.instr, hp, hread⟩, ?_, hblock ▸ hoffset ▸ hfault⟩
  rintro q ⟨hlt, i, hi, hwrite⟩
  refine hunseen (Point.write (f.position q)) ?_
    ((accessAt?_write (hw.getElem?_sites hi)).trans hwrite)
  unfold Point.write Point.read
  omega

end Func

/-! ### What is in the way -/

namespace FlowGraph

open Relation

variable {c : FlowGraph} {f : Func} {a b u v : BlockId} {p : List BlockId}

private theorem Path.head_mem (h : c.Path a b p) : a ∈ p := by
  cases h <;> exact List.mem_cons_self

private theorem Depicts.leads_of_mem_edges (hc : c.Depicts f) (h : (a, b) ∈ c.edges) :
    f.Leads a b := by
  obtain ⟨m, n, hm, hn⟩ := exists_nodes_of_mem_edges h
  obtain ⟨a', b', ha, hb, hab⟩ := (hc.mem_successors m n).mp ((hc.mem_edges hm hn).mp h)
  rw [hc.block?_eq] at hm hn
  rwa [Option.some.inj (hm.symm.trans ha), Option.some.inj (hn.symm.trans hb)]

/-- Every block on a path leads to its end. -/
theorem Depicts.leads_of_mem_path (hc : c.Depicts f) (h : c.Path a b p) (hv : v ∈ p) :
    ReflTransGen f.Leads v b := by
  induction h generalizing v with
  | single _ =>
    rw [List.mem_singleton.mp hv]
  | cons hedge hpath ih =>
    cases hv with
    | head => exact .head (hc.leads_of_mem_edges hedge) (ih hpath.head_mem)
    | tail _ hv => exact ih hv

/-- Where control runs forward, no edge leads back. -/
theorem Depicts.not_isBackEdge (hc : c.Depicts f) (hfwd : f.RunsForward) :
    ¬c.IsBackEdge u v := by
  intro h
  obtain ⟨p, hp⟩ := h.reached
  have hway := hc.leads_of_mem_path hp (h.mem_path p hp)
  have hcycle : TransGen f.Follows v v :=
    TransGen.tail' (ReflTransGen.mono (fun _ _ ↦ .inl) _ _ hway)
      (.inl (hc.leads_of_mem_edges h.edge))
  exact Slots.not_transGen_follows hc.wf hfwd v hcycle

end FlowGraph

namespace Slots

open Func Transform

variable {f : Func}

private theorem allForward_of_runsForward (hf : f.Intact) (hfwd : f.RunsForward) :
    allForward f 0 f.blocks = .ok true := by
  rw [allForward_iff]
  intro n b B hn
  obtain ⟨hb, hB⟩ := hf.wf.getElem?_blocks.mp hn
  obtain ⟨ts, hts⟩ := hf.successors b (contains_of_block? hB)
  refine ⟨ts, hts, isForward_iff.mpr fun x hx ↦ ?_⟩
  have hfollows : f.Follows b x := by
    rw [List.mem_append, Option.mem_toList] at hx
    exact hx.imp (fun hx ↦ ⟨ts, hts, hx⟩) fun hx ↦ ⟨B, hB, hx⟩
  obtain ⟨m, k, hm, hk, hlt⟩ := hfwd b x hfollows
  rw [hf.wf.index_unique hm hb] at hlt
  exact ⟨k, (FlowGraph.idxOf?_eq_some_iff_getElem? hf.wf.nodup).mpr hk, by omega⟩

/-- Nothing is in the way of the pass exactly if control runs forward. -/
theorem obstacle?_eq_none_iff (hf : f.Intact) :
    obstacle? f = .ok none ↔ f.RunsForward := by
  constructor
  · intro h a b hab
    exact precedes_of_allForward hf.wf (obstacle?_eq_none h) hab
  · intro hfwd
    obtain ⟨c, hc⟩ := FlowGraph.exists_ofFunc hf
    have hdepicts := FlowGraph.depicts_of_ofFunc hf.wf hc
    have hnone : ¬c.hasBackEdges = true := by
      rw [hdepicts.hasBackEdges_iff]
      rintro ⟨u, v, h⟩
      exact hdepicts.not_isBackEdge hfwd h
    simp only [obstacle?, hc, hnone, allForward_of_runsForward hf hfwd, Bool.false_eq_true,
      ↓reduceIte]

/-! ### How the pass ends -/

private theorem run_of_obstacle (settings : Settings) {reason : String}
    (h : obstacle? f = .ok (some reason)) :
    (run settings f).result = .ok false ∧ (run settings f).func = f := by
  rw [run, bind_apply_of_ok (a := f) _ rfl, bind_apply_of_ok (a := some reason) _ h]
  exact ⟨rfl, rfl⟩

private theorem run_of_unprimed (settings : Settings) {fault : Fault} (h : obstacle? f = .ok none)
    (hlive : Liveness.ofFunc f = .error fault) :
    (run settings f).result = .error fault ∧ (run settings f).func = f := by
  rw [run, bind_apply_of_ok (a := f) _ rfl, bind_apply_of_ok (a := none) _ h]
  dsimp only
  rw [reduce, bind_apply_of_ok (a := f) _ rfl, bind_apply_of_error _ hlive]
  exact ⟨rfl, rfl⟩

/-- On a valid function, the pass rewrites registers only where whatever is read and is no argument
is written earlier in the layout. Then on every route a read finds its register written exactly if
the route has come to the block of one of the earlier writes. If it does not rewrite, the pass
leaves the function alone, and fails only with a read that it names and that no earlier write
precedes. It fails exactly if control runs forward and there is such a read. -/
theorem run_rewrites_primed (settings : Settings) (hw : f.WF) (hf : f.fault? = none) :
    ((run settings f).result = .ok true → f.Primed ∧
      ∀ path, f.IsRoute path → ∀ n p r, path[n]? = some p → f.ReadsAt p r →
        ((∃ k < n, f.writtenAt? path k = some r) ↔
          ∃ q, f.WritesBefore p r q ∧ ∃ k ≤ n, ∃ m, path[k]? = some ⟨q.block, m⟩)) ∧
    ((run settings f).result = .ok true ∨ (run settings f).func = f ∧
      ((run settings f).result = .ok false ∨ ∃ p r, f.ReadsAt p r ∧
        (∀ q, ¬f.WritesBefore p r q) ∧
        (run settings f).result = .error (.registerReadBeforeWrite r p.block p.offset))) ∧
    ((∃ fault, (run settings f).result = .error fault) ↔ f.RunsForward ∧ ¬f.Primed) := by
  have hintact := (hw.fault?_eq_none_iff.mp hf).intact
  have hforward := obstacle?_eq_none_iff hintact
  obtain ⟨obstacle, hobstacle⟩ := exists_obstacle hintact
  rw [hobstacle] at hforward
  cases obstacle with
  | some reason =>
    obtain ⟨hresult, hfunc⟩ := run_of_obstacle settings hobstacle
    have hnot : ¬f.RunsForward := fun h ↦ by simpa using hforward.mpr h
    simp [hresult, hfunc, hnot]
  | none =>
    have hfwd := hforward.mp rfl
    cases hlive : Liveness.ofFunc f with
    | error fault =>
      obtain ⟨hresult, hfunc⟩ := run_of_unprimed settings hobstacle hlive
      obtain ⟨p, r, hread, hnone, rfl⟩ := unprimed_of_liveness hw hlive
      have hnot : ¬f.Primed := fun h ↦ (h p r hread).elim hnone
      refine ⟨fun h ↦ ?_, .inr ⟨hfunc, .inr ⟨p, r, hread, hnone, hresult⟩⟩, ?_⟩
      · rw [hresult] at h
        contradiction
      · exact iff_of_true ⟨_, hresult⟩ ⟨hfwd, hnot⟩
    | ok live =>
      have hprimed := primed_of_liveness hw hlive
      have hends : (run settings f).result = .ok true ∨
          (run settings f).result = .ok false ∧ (run settings f).func = f := by
        have hcases := run_of_live settings hobstacle hlive
        dsimp only at hcases
        split at hcases
        · exact .inr hcases
        · exact .inl hcases.1
      refine ⟨fun _ ↦ ⟨hprimed, fun path hroute n p r hp _ ↦ ?_⟩, ?_, ?_⟩
      · exact hroute.written_iff hintact hfwd hp
      · exact hends.imp_right fun h ↦ ⟨h.2, .inl h.1⟩
      · refine iff_of_false ?_ fun h ↦ h.2 hprimed
        rintro ⟨fault, hfault⟩
        rcases hends with h | h <;> simp [hfault] at h

/-- Two arms of which one writes the register that is read where they meet. -/
def skipped : Func :=
  ((Draft.start "skipped" 1 3).declareAll
    [.block { id := 0, code := [.push (.int 7), .storeReg 1, .loadReg 1, .branch 1 2] },
      .block { id := 1, code := [.push (.int 5), .storeReg 2, .jump 3] },
      .block { id := 2, code := [.jump 3] },
      .block { id := 3, code := [.loadReg 2, .ret] }]).build

-- The registers that are no arguments come to share a slot.
private theorem run_skipped : ∃ slot : Register → Register, slot 1 = 1 ∧ slot 2 = 1 ∧
    (run {} skipped).result = .ok true ∧ Renames slot skipped (run {} skipped).func := by
  apply run_of_slots {} (by decide +kernel)
  simp only [Assignment.ofFunc_eq_foldl, Assignment.step, Assignment.acquire, Assignment.take,
    Std.TreeSet.min?_eq_head?_toList]
  decide +kernel

/-- The route of `skipped` through the arm with the write. -/
def skippedArm : List Place :=
  [⟨0, 0⟩, ⟨0, 1⟩, ⟨0, 2⟩, ⟨0, 3⟩, ⟨1, 0⟩, ⟨1, 1⟩, ⟨1, 2⟩, ⟨3, 0⟩]

/-- The pass rewrites `skipped`, and on the route through the arm with the write the read finds its
register written. -/
theorem skipped_rewrites_primed :
    skipped.WF ∧ skipped.fault? = none ∧ (run {} skipped).result = .ok true ∧ skipped.Primed ∧
      skipped.IsRoute skippedArm ∧ skippedArm[7]? = some ⟨3, 0⟩ ∧ skipped.ReadsAt ⟨3, 0⟩ 2 ∧
      ∃ k < 7, skipped.writtenAt? skippedArm k = some 2 := by
  have hdrafted : skipped.Drafted := ⟨_, _, _, _, rfl⟩
  have hf : skipped.fault? = none := by decide +kernel
  have hroute : skipped.IsRoute skippedArm := by decide +kernel
  have hread : skipped.ReadsAt ⟨3, 0⟩ 2 := ⟨by decide +kernel, .loadReg 2, by decide +kernel, rfl⟩
  have hwrite : skipped.WritesBefore ⟨3, 0⟩ 2 ⟨1, 1⟩ :=
    ⟨by decide +kernel, .storeReg 2, by decide +kernel, rfl⟩
  obtain ⟨_, _, _, hresult, _⟩ := run_skipped
  obtain ⟨hprimed, hroutes⟩ := (run_rewrites_primed {} hdrafted.wf hf).1 hresult
  have hwritten := hroutes skippedArm hroute 7 ⟨3, 0⟩ 2 rfl hread
  exact ⟨hdrafted.wf, hf, hresult, hprimed, hroute, rfl, hread,
    hwritten.mpr ⟨⟨1, 1⟩, hwrite, 4, by decide, 0, rfl⟩⟩

/-- The route of `skipped` that goes round the write. -/
def skippedDetour : List Place := [⟨0, 0⟩, ⟨0, 1⟩, ⟨0, 2⟩, ⟨0, 3⟩, ⟨2, 0⟩, ⟨3, 0⟩]

/-- On that route a register is read that has not been written, and after the pass the read finds
what was written for the other register. -/
theorem skipped_reads_unwritten :
    skipped.Drafted ∧ skipped.fault? = none ∧ (run {} skipped).result = .ok true ∧
      skipped.IsRoute skippedDetour ∧ skippedDetour[5]? = some ⟨3, 0⟩ ∧ skipped.ReadsAt ⟨3, 0⟩ 2 ∧
      (∀ k < 5, skipped.writtenAt? skippedDetour k ≠ some 2) ∧
      (run {} skipped).func.instrAt? ⟨3, 0⟩ = some (.loadReg 1) ∧
      skipped.writtenAt? skippedDetour 1 = some 1 ∧
      (run {} skipped).func.writtenAt? skippedDetour 1 = some 1 := by
  have hdrafted : skipped.Drafted := ⟨_, _, _, _, rfl⟩
  have hf : skipped.fault? = none := by decide +kernel
  have hroute : skipped.IsRoute skippedDetour := by decide +kernel
  have hread : skipped.instrAt? ⟨3, 0⟩ = some (.loadReg 2) := by decide +kernel
  have hargs : skipped.argCount ≤ 2 := by decide +kernel
  have hunwritten : ∀ k < 5, skipped.writtenAt? skippedDetour k ≠ some 2 := by decide +kernel
  have hwritten : skipped.writtenAt? skippedDetour 1 = some 1 := by decide +kernel
  obtain ⟨slot, hone, htwo, hresult, hrenames⟩ := run_skipped
  refine ⟨hdrafted, hf, hresult, hroute, rfl, ⟨hargs, .loadReg 2, hread, rfl⟩, hunwritten, ?_,
    hwritten, ?_⟩
  · rw [hrenames.instrAt?, hread, Option.map_some, Instr.mapRegisters, htwo]
  · rw [hrenames.writtenAt?, hwritten, Option.map_some, hone]

end Slots

end Bytecode
