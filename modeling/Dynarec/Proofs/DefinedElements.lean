import Dynarec.Proofs.PreciseFaults
import Dynarec.Proofs.ProgramOrder

namespace Dynarec

namespace Graph.Builder

variable {mode : Mode} {last : Nat} {b b' : Builder} {op : MicroOp} {ops : List MicroOp} {e : Element}

def Redefined (b : Builder) (e : Element) : Prop := ∃ n, b.current.get e = some n ∧ entryDataflow.size ≤ n.index

theorem Redefined.ne_entry (h : b.Redefined e) : b.current.get e ≠ entryDefinitions.get e := by
  obtain ⟨n, hn, hle⟩ := h
  intro hsame
  have hlt := Dataflow.lt_size_of_get? (entryDefinitions_get? (hsame.symm.trans hn))
  omega

theorem exists_get_foldl_define (position : UInt32) {defined : List (Element × Node)} (b : Builder)
    (he : e ∈ defined.map Prod.fst) : ∃ p ∈ defined, (defined.foldl (define position) b).current.get e = some p.2 := by
  induction defined generalizing b with
  | nil => cases he
  | cons p defined ih =>
      rw [List.foldl_cons]
      by_cases hrest : e ∈ defined.map Prod.fst
      · obtain ⟨q, hq, hget⟩ := ih (b.define position p) hrest
        exact ⟨q, List.mem_cons_of_mem _ hq, hget⟩
      · obtain rfl : e = p.1 := (List.mem_cons.mp he).resolve_right hrest
        rw [get_foldl_define position _ hrest]
        exact ⟨p, List.mem_cons_self, ElementMap.get_set_self _ _ _⟩

theorem eipSynced_foldl_define (position : UInt32) (defined : List (Element × Node)) (b : Builder) :
    (defined.foldl (define position) b).eipSynced =
      if .eip ∈ defined.map Prod.fst then position else b.eipSynced := by
  induction defined generalizing b with
  | nil => rfl
  | cons p defined ih =>
      rw [List.foldl_cons, ih, List.map_cons]
      by_cases hrest : .eip ∈ defined.map Prod.fst
      · rw [if_pos hrest, if_pos (List.mem_cons_of_mem _ hrest)]
      · rw [if_neg hrest]
        by_cases hp : p.1 = .eip
        · rw [if_pos (List.mem_cons.mpr (.inl hp.symm))]
          exact if_pos hp
        · rw [if_neg (fun h => (List.mem_cons.mp h).elim (Ne.symm hp) hrest)]
          exact if_neg hp

/-- What a walk over micro-ops has defined. -/
structure Tracks (mode : Mode) (ops : List MicroOp) (b : Builder) : Prop where
  redefined : ∀ op ∈ ops, ∀ e, op.defines mode e = true → b.Redefined e
  kept : ∀ e, (∀ op ∈ ops, op.defines mode e = false) → b.current.get e = entryDefinitions.get e
  position : b.position = (ops.getLast?.map (·.position)).getD 0
  eipSynced : b.eipSynced = ((ops.filter (·.defines mode .eip)).getLast?.map (·.position)).getD 0

theorem tracks_initial (mode : Mode) : Tracks mode [] initial :=
  ⟨List.forall_mem_nil _, fun _ _ => rfl, rfl, rfl⟩

theorem Tracks.step (h : Tracks mode ops b) (hb : b.Invariant) (hle : b.start.x86Index ≤ op.x86Index)
    (hpos : 1 ≤ op.x86Index) (hs : b.step mode last op = .ok b') : Tracks mode (ops ++ [op]) b' := by
  have hkept := (step_demands hs).2.2
  obtain ⟨m, ts, defined, b₁, hm, hts, htargets, rfl⟩ := step_ok hs
  obtain ⟨hentered, hentry⟩ := hb.enter hle
  obtain ⟨_, hunmoved, _, hnew⟩ :=
    hentered.targets (by rw [hentry]; exact hpos) (fun t ht => Rule.sound_of_mem hts ht) htargets
  have hdefines (e : Element) : op.defines mode e = true ↔ e ∈ defined.map Prod.fst := by
    rw [MicroOp.defines, MicroOp.targets_of_eq (MicroOp.targets?_eq_some.mpr ⟨m, hm, hts⟩), (targets_demand htargets).2.1,
      List.any_eq_true, List.mem_map]
    simp only [beq_iff_eq]
  refine ⟨?_, ?_, by simp, ?_⟩
  · -- an element that the micro-op leaves alone was redefined before
    intro x hx e he
    cases hop : op.defines mode e with
    | true =>
        obtain ⟨p, hp, hget⟩ := exists_get_foldl_define op.position b₁ ((hdefines e).mp hop)
        exact ⟨p.2, hget, hentered.entryDataflow_size_le.trans (hnew p hp).1⟩
    | false =>
        have hbefore : x ∈ ops := by
          rcases List.mem_append.mp hx with hx | hx
          · exact hx
          · rw [List.mem_singleton.mp hx, hop] at he
            cases he
        obtain ⟨n, hn, hnode⟩ := h.redefined x hbefore e he
        exact ⟨n, (hkept e hop).trans hn, hnode⟩
  · intro e he
    rw [List.forall_mem_append, List.forall_mem_singleton] at he
    rw [hkept e he.2, h.kept e he.1]
  · dsimp only
    rw [eipSynced_foldl_define, hunmoved.eipSynced, enter_eq, List.filter_append]
    cases hop : op.defines mode .eip with
    | true =>
        rw [if_pos ((hdefines .eip).mp hop), List.filter_cons_of_pos hop]
        simp
    | false =>
        rw [if_neg (fun he => by simp [(hdefines .eip).mpr he] at hop), List.filter_cons_of_neg (by simp [hop]),
          List.filter_nil, List.append_nil]
        exact h.eipSynced

theorem Tracks.mem_changedFrom_iff (h : Tracks mode ops b) (e : Element) :
    e ∈ (b.current.changedFrom entryDefinitions).map Prod.fst ↔
      e.isCommitted = true ∧ ∃ op ∈ ops, op.defines mode e = true := by
  rw [List.mem_map]
  constructor
  · rintro ⟨p, hp, rfl⟩
    obtain ⟨hc, _, hne⟩ := Definitions.mem_changedFrom.mp hp
    refine ⟨hc, ?_⟩
    by_contra hnone
    push Not at hnone
    exact hne (h.kept p.1 (by simpa using hnone))
  · rintro ⟨hc, op, hop, hdefines⟩
    have hredefined := h.redefined op hop e hdefines
    have hne := hredefined.ne_entry
    obtain ⟨n, hn, _⟩ := hredefined
    exact ⟨(e, n), Definitions.mem_changedFrom.mpr ⟨hc, hn, hne⟩, rfl⟩

end Graph.Builder

namespace Run

theorem x86Length_eq (run : Run) : run.x86Length = (run.ops.getLast?.map (·.position)).getD 0 := by
  rw [x86Length]
  cases run.ops.getLast? <;> rfl

theorem Ordered.upTo {run : Run} (h : run.Ordered) (k : Nat) : (run.upTo k).Ordered :=
  ⟨fun op hop => h.pos op (List.mem_filter.mp hop).1, h.pairwise.filter _⟩

theorem Ordered.tracks {run : Run} (h : run.Ordered) {mode : Mode} {last : Nat} {b : Graph.Builder}
    (hb : run.ops.foldlM (Graph.Builder.step mode last) .initial = .ok b) : b.Tracks mode run.ops :=
  Graph.Builder.foldlM_induction (Graph.Builder.tracks_initial mode)
    (fun _ _ _ _ htracks hinv hle hpos hs => htracks.step hinv hle hpos hs) h.pos h.pairwise hb

end Run

namespace Graph

variable {mode : Mode} {run : Run} {g : Graph}

theorem mem_sinks_iff (hrun : run.Ordered) (h : build mode run = .ok g) (e : Element) :
    e ∈ g.sinks.map Prod.fst ↔ e.isCommitted = true ∧ ∃ op ∈ run.ops, op.defines mode e = true := by
  obtain ⟨b, hb, rfl⟩ := build_ok h
  exact (hrun.tracks hb).mem_changedFrom_iff e

theorem nodup_sinks (h : build mode run = .ok g) : (g.sinks.map Prod.fst).Nodup := by
  obtain ⟨b, _, rfl⟩ := build_ok h
  exact Definitions.nodup_changedFrom _ _

variable {bd : Boundary} {k : Nat}

theorem exists_walk_of_mem_boundaries (hrun : run.Ordered) (h : build mode run = .ok g) (hbd : bd ∈ g.boundaries)
    (hk : bd.x86Index = k + 1) :
    ∃ b, (run.upTo k).ops.foldlM (Builder.step mode run.x86Count) Builder.initial = .ok b ∧
      bd = { b.boundaryAt bd.x86Index with nodes := bd.nodes } := by
  obtain ⟨b, hb, hstart⟩ := isStart_of_mem_boundaries hrun h hbd
  have hops : run.ops.filter (·.x86Index < bd.x86Index) = (run.upTo k).ops := by
    simp only [hk, Nat.lt_succ_iff]
    rfl
  exact ⟨b, hops ▸ hb, hstart⟩

theorem position_of_mem_boundaries (hrun : run.Ordered) (h : build mode run = .ok g) (hbd : bd ∈ g.boundaries)
    (hk : bd.x86Index = k + 1) : bd.position = (run.upTo k).x86Length := by
  obtain ⟨b, hb, hstart⟩ := exists_walk_of_mem_boundaries hrun h hbd hk
  rw [hstart]
  change b.position = _
  rw [((hrun.upTo k).tracks hb).position, Run.x86Length_eq]

theorem eipLag_of_mem_boundaries (hrun : run.Ordered) (h : build mode run = .ok g) (hbd : bd ∈ g.boundaries)
    (hk : bd.x86Index = k + 1) : bd.eipLag = (run.upTo k).eipLag mode := by
  have hposition := position_of_mem_boundaries hrun h hbd hk
  obtain ⟨b, hb, hstart⟩ := exists_walk_of_mem_boundaries hrun h hbd hk
  rw [Run.eipLag, ← hposition, Run.eipSynced, ← ((hrun.upTo k).tracks hb).eipSynced, hstart]
  rfl

end Graph

namespace Body

open Dynarec.Graph

theorem mem_map_fst_handlerState (bd : Boundary) (e : Element) :
    e ∈ (handlerState bd).map Prod.fst ↔ e ∈ bd.snapshot.map Prod.fst ∨ e = .eip ∧ bd.eipLag ≠ 0 := by
  rw [handlerState]
  split
  next h =>
    rw [((inElementOrder_perm _).map Prod.fst).mem_iff, List.map_append, List.mem_append]
    simp [h.1]
  next h =>
    constructor
    · exact .inl
    · rintro (he | ⟨rfl, hlag⟩)
      · exact he
      · obtain ⟨p, hp, heip⟩ : ∃ p ∈ bd.snapshot, p.1 = .eip := by simpa [hlag] using h
        exact List.mem_map.mpr ⟨p, hp, heip⟩

variable {mode : Mode} {run : Run} {g : Graph} {bd : Boundary}

/-- A handler commits what the instructions before its own define. -/
theorem mem_handlerState_iff_defines (hrun : run.Ordered) (h : Graph.build mode run = .ok g) (hbd : bd ∈ g.boundaries) {k : Nat}
    (hk : bd.x86Index = k + 1) (e : Element) :
    e ∈ (handlerState bd).map Prod.fst ↔
      (e.isCommitted = true ∧ ∃ op ∈ (run.upTo k).ops, op.defines mode e = true) ∨
        e = .eip ∧ (run.upTo k).eipLag mode ≠ 0 := by
  obtain ⟨b, hb, hstart⟩ := exists_walk_of_mem_boundaries hrun h hbd hk
  have htracks := (hrun.upTo k).tracks hb
  have hsnapshot : bd.snapshot = b.current.changedFrom entryDefinitions := by rw [hstart]; rfl
  rw [mem_map_fst_handlerState, hsnapshot, htracks.mem_changedFrom_iff, eipLag_of_mem_boundaries hrun h hbd hk]

theorem nodup_handlerState_of_build (hrun : run.Ordered) (h : Graph.build mode run = .ok g) (hbd : bd ∈ g.boundaries) :
    ((handlerState bd).map Prod.fst).Nodup := by
  obtain ⟨b, _, hstart⟩ := Graph.isStart_of_mem_boundaries hrun h hbd
  apply nodup_handlerState
  rw [hstart]
  exact Definitions.nodup_changedFrom _ _

end Body

end Dynarec
