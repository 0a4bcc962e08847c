import Dynarec.Proofs.GeneratedExecution
import Dynarec.Proofs.InterpreterAgreement

namespace Dynarec

/-- An element has the value that it was last set to. -/
class LawfulProcessor (σ : Type) [Processor σ] : Prop where
  get_set (e e' : Element) (v : UInt32) (cpu : σ) :
    Processor.get (Processor.set e v cpu) e' = if e = e' then v else Processor.get cpu e'

instance : LawfulProcessor Machine where
  get_set e e' v m := ElementMap.get_set m.elements e e' v

instance {σ : Type} [Processor σ] [LawfulProcessor σ] : LawfulProcessor (Monitor σ) where
  get_set e e' v m := LawfulProcessor.get_set e e' v m.inner

theorem Element.nodup_committed : (all.filter isCommitted).Nodup := by decide

theorem Definitions.nodup_changedFrom (current entry : Definitions) :
    ((current.changedFrom entry).map Prod.fst).Nodup :=
  Element.nodup_committed.sublist (changedFrom_elements current entry)

namespace Interpreter

open Dynarec.Graph

variable {σ : Type}

def committed (defined : ElementMap (Option UInt32)) : List (Element × UInt32) :=
  (Element.all.filter Element.isCommitted).filterMap fun e => (defined.get e).map (e, ·)

theorem commit_eq_assign [Processor σ] (defined : ElementMap (Option UInt32)) (cpu : σ) :
    commit defined cpu = Processor.assign (committed defined) cpu := by
  rw [commit, Processor.assign, committed, List.foldl_filterMap]
  congr 1
  funext cpu e
  cases defined.get e <;> rfl

theorem get_commit [Processor σ] [LawfulProcessor σ] (defined : ElementMap (Option UInt32)) (cpu : σ) (e : Element) :
    Processor.get (commit defined cpu) e =
      if e.isCommitted then (defined.get e).getD (Processor.get cpu e) else Processor.get cpu e := by
  have hfold (step : σ → Element → σ) (hstep : ∀ cpu e', Processor.get (step cpu e') e =
        if e' = e then (defined.get e).getD (Processor.get cpu e) else Processor.get cpu e)
      (es : List Element) (cpu : σ) : Processor.get (es.foldl step cpu) e =
        if e ∈ es then (defined.get e).getD (Processor.get cpu e) else Processor.get cpu e := by
    induction es generalizing cpu with
    | nil => simp
    | cons e' es ih =>
        rw [List.foldl_cons, ih, hstep]
        by_cases he : e' = e
        · cases defined.get e <;> simp [he]
        · simp [he, Ne.symm he]
  rw [commit, hfold]
  · simp [Element.mem_all]
  · intro cpu e'
    by_cases he : e' = e
    · subst he
      cases defined.get e' <;> simp [LawfulProcessor.get_set]
    · cases defined.get e' <;> simp [LawfulProcessor.get_set, he]

theorem mem_committed {defined : ElementMap (Option UInt32)} {r : Element × UInt32} :
    r ∈ committed defined ↔ r.1.isCommitted = true ∧ defined.get r.1 = some r.2 := by
  obtain ⟨e, v⟩ := r
  simp only [committed, List.mem_filterMap, List.mem_filter, Element.mem_all, true_and, Option.map_eq_some_iff,
    Prod.mk.injEq]
  constructor
  · rintro ⟨e', he, v', hv, rfl, rfl⟩
    exact ⟨he, hv⟩
  · rintro ⟨he, hv⟩
    exact ⟨e, he, v, hv, rfl, rfl⟩

theorem nodup_committed (defined : ElementMap (Option UInt32)) : ((committed defined).map Prod.fst).Nodup := by
  rw [committed, List.map_filterMap]
  refine List.Nodup.filterMap ?_ Element.nodup_committed
  intro e e' e'' h h'
  cases hd : defined.get e <;> cases hd' : defined.get e' <;> simp_all

theorem mem_committed_set {defined : ElementMap (Option UInt32)} {e : Element} (he : e.isCommitted = true)
    (v : UInt32) {r : Element × UInt32} :
    r ∈ committed (defined.set e (some v)) ↔ r = (e, v) ∨ r.1 ≠ e ∧ r ∈ committed defined := by
  rw [mem_committed, mem_committed, ElementMap.get_set]
  by_cases hr : e = r.1
  · rw [if_pos hr, ← hr]
    constructor
    · rintro ⟨_, hv⟩
      exact .inl (Prod.ext hr.symm (Option.some.inj hv).symm)
    · rintro (rfl | ⟨hne, _⟩)
      · exact ⟨he, rfl⟩
      · exact absurd rfl hne
  · rw [if_neg hr]
    constructor
    · intro h
      exact .inr ⟨Ne.symm hr, h⟩
    · rintro (rfl | ⟨_, h⟩)
      · exact absurd rfl hr
      · exact h

end Interpreter

namespace Evaluation

open Dynarec.Graph Interpreter

variable {σ : Type} {ev : Evaluation σ} {current : Definitions} {defined : ElementMap (Option UInt32)}

theorem Denotes.isSome_iff (h : ev.Denotes current defined) (e : Element) :
    (defined.get e).isSome = true ↔ current.get e ≠ entryDefinitions.get e := by
  constructor
  · intro hsome hsame
    obtain ⟨v, hv⟩ := Option.isSome_iff_exists.mp hsome
    obtain ⟨n, hn, hlow, _⟩ := (h e).2 v hv
    have hentry := Dataflow.lt_size_of_get? (entryDefinitions_get? (hsame.symm.trans hn))
    omega
  · intro hne
    by_contra hnone
    exact hne ((h e).1 (by simpa using hnone))

theorem Denotes.mem_committed_iff (h : ev.Denotes current defined) {r : Element × UInt32} :
    r ∈ committed defined ↔ ∃ p ∈ current.changedFrom entryDefinitions, (p.1, ev.value p.2) = r := by
  rw [mem_committed]
  constructor
  · rintro ⟨hc, hv⟩
    obtain ⟨n, hn, _, _, hvalue⟩ := (h r.1).2 r.2 hv
    refine ⟨(r.1, n), Definitions.mem_changedFrom.mpr ⟨hc, hn, ?_⟩, by rw [hvalue]⟩
    rw [← h.isSome_iff, hv]
    rfl
  · rintro ⟨p, hp, rfl⟩
    obtain ⟨hc, hn, hne⟩ := Definitions.mem_changedFrom.mp hp
    obtain ⟨v, hv⟩ := Option.isSome_iff_exists.mp ((h.isSome_iff p.1).mpr hne)
    obtain ⟨n, hn', _, _, hvalue⟩ := (h p.1).2 v hv
    cases Option.some.inj (hn.symm.trans hn')
    refine ⟨hc, ?_⟩
    rw [hvalue]
    exact hv

theorem perm_of_mem_iff {l l' : List (Element × UInt32)} (hl : (l.map Prod.fst).Nodup)
    (hl' : (l'.map Prod.fst).Nodup) (h : ∀ r, r ∈ l ↔ r ∈ l') : l.Perm l' :=
  (List.perm_ext_iff_of_nodup hl.of_map hl'.of_map).mpr h

theorem Denotes.committed_perm (h : ev.Denotes current defined) :
    (committed defined).Perm
      ((current.changedFrom entryDefinitions).map fun p => (p.1, ev.value p.2)) := by
  apply perm_of_mem_iff (nodup_committed defined)
  · rw [List.map_map]
    exact Definitions.nodup_changedFrom current entryDefinitions
  · intro r
    rw [h.mem_committed_iff, List.mem_map]

theorem StartDenotes.value_eip {start : Boundary} {s : Start} {entry : ElementMap UInt32}
    (h : ev.StartDenotes start s) (hentry : ev.value entryEip = entry.get .eip) :
    ev.value start.eip = (s.defined.get .eip).getD (entry.get .eip) := by
  obtain ⟨current, hdenotes, _, heip⟩ := h.defined
  rw [heip]
  cases hd : s.defined.get .eip with
  | none =>
      rw [(hdenotes .eip).1 hd]
      exact hentry
  | some v =>
      obtain ⟨n, hn, _, _, hvalue⟩ := (hdenotes .eip).2 v hd
      rw [hn]
      exact hvalue

end Evaluation

namespace Body

open Dynarec.Graph Interpreter

variable {σ : Type} {ev : Evaluation σ}

/-- A handler that advances the instruction pointer commits it, whether or not the snapshot has it. -/
theorem mem_handlerState_iff {bd : Boundary} (hlag : bd.eipLag ≠ 0)
    (heip : ∀ p ∈ bd.snapshot, p.1 = .eip → p.2 = bd.eip) {p : Element × Node} :
    p ∈ handlerState bd ↔ p = (.eip, bd.eip) ∨ p.1 ≠ .eip ∧ p ∈ bd.snapshot := by
  have hsame : ∀ q ∈ bd.snapshot, q.1 = .eip → q = (.eip, bd.eip) :=
    fun q hq h => Prod.ext h (heip q hq h)
  rw [handlerState]
  split
  next hnone =>
    have hne : ∀ q ∈ bd.snapshot, q.1 ≠ .eip := by simpa [hlag] using hnone
    rw [(inElementOrder_perm _).mem_iff, List.mem_append, List.mem_singleton]
    constructor
    · rintro (hp | hp)
      · exact .inr ⟨hne p hp, hp⟩
      · exact .inl hp
    · rintro (hp | ⟨_, hp⟩)
      · exact .inr hp
      · exact .inl hp
  next hsome =>
    obtain ⟨q, hq, hqe⟩ : ∃ q ∈ bd.snapshot, q.1 = .eip := by simpa [hlag] using hsome
    constructor
    · intro hp
      by_cases hpe : p.1 = .eip
      · exact .inl (hsame p hp hpe)
      · exact .inr ⟨hpe, hp⟩
    · rintro (rfl | ⟨_, hp⟩)
      · rw [← hsame q hq hqe]
        exact hq
      · exact hp

theorem nodup_handlerState {bd : Boundary} (h : (bd.snapshot.map Prod.fst).Nodup) :
    ((handlerState bd).map Prod.fst).Nodup := by
  rw [handlerState]
  split
  next hnone =>
    rw [((inElementOrder_perm _).map Prod.fst).nodup_iff, List.map_append, List.nodup_append]
    refine ⟨h, List.nodup_singleton _, ?_⟩
    intro e he e' he' hee
    obtain ⟨q, hq, rfl⟩ := List.mem_map.mp he
    have hne := List.all_eq_true.mp hnone.2 q hq
    simp_all
  next => exact h

theorem stateValue_of_ne {mode : Mode} {eipLag : UInt32} {ρ : Node → UInt32} {p : Element × Node}
    (h : p.1 ≠ .eip ∨ eipLag = 0) : stateValue mode eipLag ρ p = (p.1, ρ p.2) := by
  have hnot : ¬(p.1 = .eip ∧ eipLag ≠ 0) := by
    rintro ⟨he, hlag⟩
    exact h.elim (· he) hlag
  rw [stateValue, caughtUp, if_neg hnot]

/-- A handler commits what the interpreter does after a fault. -/
theorem committed_restart_perm (mode : Mode) {entry : ElementMap UInt32} {bd : Boundary} {s : Start}
    (h : ev.StartDenotes bd s) (hentry : ev.value entryEip = entry.get .eip) :
    (committed (restart mode entry s)).Perm ((handlerState bd).map (stateValue mode bd.eipLag ev.value)) := by
  obtain ⟨current, hdenotes, hsnapshot, heip⟩ := h.defined
  -- without a lag the handler commits the snapshot as it is, otherwise also the advanced pointer
  by_cases hlag : bd.eipLag = 0
  · have hstate : handlerState bd = bd.snapshot := by simp [handlerState, hlag]
    rw [restart, if_pos (h.lag.symm.trans hlag), hstate, hsnapshot]
    rw [List.map_congr_left (fun p _ => stateValue_of_ne (.inr hlag))]
    exact hdenotes.committed_perm
  · have hsame : ∀ p ∈ bd.snapshot, p.1 = .eip → p.2 = bd.eip := by
      intro p hp hpe
      rw [hsnapshot] at hp
      rw [heip, ← hpe, (Definitions.mem_changedFrom.mp hp).2.1]
      rfl
    have hcaught : stateValue mode bd.eipLag ev.value (.eip, bd.eip) =
        (.eip, wrapEip mode (ev.value bd.eip + bd.eipLag)) := by
      rw [stateValue, caughtUp, if_pos ⟨rfl, hlag⟩]
    rw [restart, if_neg (fun hs => hlag (h.lag.trans hs)), ← h.lag, ← h.value_eip hentry]
    apply Evaluation.perm_of_mem_iff (nodup_committed _)
    · rw [List.map_map]
      apply nodup_handlerState
      rw [hsnapshot]
      exact Definitions.nodup_changedFrom current entryDefinitions
    · intro r
      rw [mem_committed_set rfl, hdenotes.mem_committed_iff, ← hsnapshot, List.mem_map]
      simp only [mem_handlerState_iff hlag hsame]
      constructor
      · rintro (rfl | ⟨hr, p, hp, rfl⟩)
        · exact ⟨_, .inl rfl, hcaught⟩
        · exact ⟨p, .inr ⟨hr, hp⟩, stateValue_of_ne (.inl hr)⟩
      · rintro ⟨p, rfl | ⟨hpe, hp⟩, rfl⟩
        · exact .inl hcaught
        · rw [stateValue_of_ne (.inl hpe)]
          exact .inr ⟨hpe, p, hp, rfl⟩

end Body

end Dynarec
