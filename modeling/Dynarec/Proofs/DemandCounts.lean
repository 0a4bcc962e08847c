import Dynarec.Body.Emission
import Dynarec.Proofs.GraphInvariant
import Mathlib.Algebra.BigOperators.Intervals

namespace Dynarec.Demand

variable {g : Graph}

theorem getD_use {d : Demand} {n : Node} (hn : n.index < d.uses.size) (x : Node) :
    (d.use n).uses.getD x 0 = d.uses.getD x 0 + if n = x then 1 else 0 := by
  rw [use, Table.getD_modify]
  by_cases hx : n = x
  · subst hx
    rw [if_pos ⟨rfl, hn⟩, if_pos rfl]
  · rw [if_neg (fun h => hx (Node.ext_index h.1)), if_neg hx, Nat.add_zero]

theorem size_uses_foldl_use (ns : List Node) (d : Demand) : (ns.foldl use d).uses.size = d.uses.size := by
  induction ns generalizing d with
  | nil => rfl
  | cons n ns ih => exact (ih (d.use n)).trans (Table.size_modify _ _ _)

theorem reached_foldl_use (ns : List Node) (d : Demand) : (ns.foldl use d).reached = ns.foldl mark d.reached := by
  induction ns generalizing d with
  | nil => rfl
  | cons n ns ih => exact ih (d.use n)

theorem foldl_reach (ns : List Node) (d : Demand) :
    ns.foldl reach d = { d with reached := ns.foldl mark d.reached } := by
  induction ns generalizing d with
  | nil => rfl
  | cons n ns ih => exact ih (d.reach n)

theorem uses_foldl_use {ns : List Node} {d : Demand} (hns : ∀ n ∈ ns, n.index < d.uses.size) (x : Node) :
    (ns.foldl use d).uses.getD x 0 = d.uses.getD x 0 + ns.count x := by
  induction ns generalizing d with
  | nil => rfl
  | cons n ns ih =>
      have hn := hns n List.mem_cons_self
      have hsize : (d.use n).uses.size = d.uses.size := Table.size_modify _ _ _
      rw [List.foldl_cons, ih (fun m hm => by rw [hsize]; exact hns m (List.mem_cons_of_mem _ hm)),
        getD_use hn, List.count_cons]
      simp only [beq_iff_eq]
      omega

theorem getD_set_true (t : Table Node Bool) (n x : Node) :
    (t.set n true).getD x false = true ↔ t.getD x false = true ∨ (n = x ∧ x.index < t.size) := by
  rw [Table.getD_set]
  by_cases h : n = x ∧ x.index < t.size
  · rw [if_pos ⟨congrArg Node.index h.1, h.2⟩]
    simp [h]
  · rw [if_neg (fun hi => h ⟨Node.ext_index hi.1, hi.2⟩)]
    simp [h]

theorem getD_foldl_mark (ns : List Node) (t : Table Node Bool) (x : Node) :
    (ns.foldl mark t).getD x false = true ↔ t.getD x false = true ∨ (x ∈ ns ∧ x.index < t.size) := by
  induction ns generalizing t with
  | nil => simp
  | cons n ns ih =>
      have hsize : (mark t n).size = t.size := Table.size_set _ _ _
      rw [List.foldl_cons, ih, hsize, mark, getD_set_true, List.mem_cons]
      constructor
      · rintro ((h | ⟨rfl, h⟩) | ⟨h, hx⟩)
        · exact .inl h
        · exact .inr ⟨.inl rfl, h⟩
        · exact .inr ⟨.inr h, hx⟩
      · rintro (h | ⟨rfl | h, hx⟩)
        · exact .inl (.inl h)
        · exact .inl (.inr ⟨rfl, hx⟩)
        · exact .inr ⟨h, hx⟩

theorem size_foldl_mark (ns : List Node) (t : Table Node Bool) : (ns.foldl mark t).size = t.size := by
  induction ns generalizing t with
  | nil => rfl
  | cons n ns ih => exact (ih (mark t n)).trans (Table.size_set _ _ _)

/-- The sweep has come down to node `k`: the nodes from there on that are reached, and the sinks, have
used their inputs, and nothing else has been used. -/
structure Traced (g : Graph) (k : Nat) (d : Demand) : Prop where
  size_uses : d.uses.size = g.dataflow.size
  size_reached : d.reached.size = g.dataflow.size
  ordered : ∀ n ∈ g.ordered, d.reached.getD n false = true
  sinks : ∀ p ∈ g.sinks, d.reached.getD p.2 false = true
  closed : ∀ m, k ≤ m.index → d.reached.getD m false = true → ∀ i ∈ g.dataflow.inputs m, d.reached.getD i false = true
  uses : ∀ x, d.uses.getD x 0 = (g.sinks.map Prod.snd).count x +
    ∑ m ∈ Finset.Ico k g.dataflow.size, if d.reached.getD ⟨m⟩ false then (g.dataflow.inputs ⟨m⟩).count x else 0

theorem traced_initial (hg : g.WellFormed) : Traced g g.dataflow.size (initial g) := by
  have hreached (x : Node) : (initial g).reached.getD x false = true ↔
      (x ∈ g.ordered ∨ x ∈ g.sinks.map Prod.snd) ∧ x.index < g.dataflow.size := by
    rw [initial, reached_foldl_use, foldl_reach, getD_foldl_mark, size_foldl_mark, getD_foldl_mark,
      Table.getD_replicate, Table.size_replicate]
    simp only [Bool.false_eq_true, false_or, or_and_right]
  refine ⟨?_, ?_, ?_, ?_, ?_, ?_⟩
  · rw [initial, size_uses_foldl_use, foldl_reach]
    exact Table.size_replicate _ _
  · rw [initial, reached_foldl_use, foldl_reach, size_foldl_mark, size_foldl_mark]
    exact Table.size_replicate _ _
  · intro n hn
    exact (hreached n).mpr ⟨.inl hn, hg.ordered_lt hn⟩
  · intro p hp
    exact (hreached p.2).mpr ⟨.inr (List.mem_map_of_mem hp), hg.sinks_lt p hp⟩
  · intro m hm hr
    have := ((hreached m).mp hr).2
    omega
  · intro x
    rw [initial, uses_foldl_use, foldl_reach, Table.getD_replicate, Finset.Ico_self, Finset.sum_empty]
    · omega
    · intro n hn
      rw [foldl_reach]
      exact (hg.sink_lt hn).trans_eq (Table.size_replicate _ _).symm

/-- The inputs of a node come before it, so that from `n` on it is known by then what is reached. -/
theorem Traced.reached_foldl_use {n : Nat} {d : Demand} (hg : g.WellFormed) (h : Traced g (n + 1) d)
    (hn : n < g.dataflow.size) :
    (∀ x, ((g.dataflow.inputs ⟨n⟩).foldl use d).reached.getD x false = true ↔
        d.reached.getD x false = true ∨ x ∈ g.dataflow.inputs ⟨n⟩) ∧
      ∀ m, n ≤ m → ((g.dataflow.inputs ⟨n⟩).foldl use d).reached.getD ⟨m⟩ false = d.reached.getD ⟨m⟩ false := by
  have hreached (x : Node) : ((g.dataflow.inputs ⟨n⟩).foldl use d).reached.getD x false = true ↔
      d.reached.getD x false = true ∨ x ∈ g.dataflow.inputs ⟨n⟩ := by
    rw [Demand.reached_foldl_use, getD_foldl_mark, h.size_reached]
    constructor
    · rintro (hx | ⟨hx, _⟩)
      · exact .inl hx
      · exact .inr hx
    · rintro (hx | hx)
      · exact .inl hx
      · exact .inr ⟨hx, (hg.flow.inputs_lt hx).trans hn⟩
  refine ⟨hreached, ?_⟩
  intro m hm
  rw [Bool.eq_iff_iff, hreached]
  constructor
  · rintro (hx | hx)
    · exact hx
    · exact absurd (hg.flow.inputs_lt hx) (Nat.not_lt.mpr hm)
  · exact .inl

theorem Traced.step {n : Nat} {d : Demand} (hg : g.WellFormed) (h : Traced g (n + 1) d) (hn : n < g.dataflow.size) :
    Traced g n (if d.reached.getD ⟨n⟩ false then (g.dataflow.inputs ⟨n⟩).foldl use d else d) := by
  cases hr : d.reached.getD ⟨n⟩ false with
  | false =>
      rw [if_neg (by simp)]
      refine { h with closed := ?_, uses := ?_ }
      · intro m hm hrm i hi
        rcases Nat.eq_or_lt_of_le hm with heq | hm
        · rw [show m = ⟨n⟩ from Node.ext_index heq.symm, hr] at hrm
          cases hrm
        · exact h.closed m hm hrm i hi
      · intro x
        rw [Finset.sum_eq_sum_Ico_succ_bot hn, h.uses x, hr]
        simp
  | true =>
      obtain ⟨hreached, hsame⟩ := h.reached_foldl_use hg hn
      rw [if_pos rfl]
      refine ⟨?_, ?_, ?_, ?_, ?_, ?_⟩
      · rw [size_uses_foldl_use, h.size_uses]
      · rw [Demand.reached_foldl_use, size_foldl_mark, h.size_reached]
      · intro m hm
        exact (hreached m).mpr (.inl (h.ordered m hm))
      · intro p hp
        exact (hreached p.2).mpr (.inl (h.sinks p hp))
      · intro m hm hrm i hi
        rcases Nat.eq_or_lt_of_le hm with heq | hlt
        · rw [show m = ⟨n⟩ from Node.ext_index heq.symm] at hi
          exact (hreached i).mpr (.inr hi)
        · rw [hsame m.index hm] at hrm
          exact (hreached i).mpr (.inl (h.closed m hlt hrm i hi))
      · intro x
        -- the uses by later nodes are counted already, and the inputs add those by node `n`
        have hlater : ∑ m ∈ Finset.Ico (n + 1) g.dataflow.size,
              (if ((g.dataflow.inputs ⟨n⟩).foldl use d).reached.getD ⟨m⟩ false
                then (g.dataflow.inputs ⟨m⟩).count x else 0) =
            ∑ m ∈ Finset.Ico (n + 1) g.dataflow.size,
              if d.reached.getD ⟨m⟩ false then (g.dataflow.inputs ⟨m⟩).count x else 0 := by
          apply Finset.sum_congr rfl
          intro m hm
          rw [hsame m (Nat.le_of_succ_le (Finset.mem_Ico.mp hm).1)]
        have hknown : ∀ i ∈ g.dataflow.inputs ⟨n⟩, i.index < d.uses.size := by
          intro i hi
          rw [h.size_uses]
          exact (hg.flow.inputs_lt hi).trans hn
        rw [uses_foldl_use hknown, h.uses x, Finset.sum_eq_sum_Ico_succ_bot hn, hsame n (Nat.le_refl n), hr, if_pos rfl,
          hlater]
        omega

theorem Traced.sweep (hg : g.WellFormed) {n : Nat} {d : Demand} (h : Traced g n d) (hn : n ≤ g.dataflow.size) :
    Traced g 0 (sweep g.dataflow n d) := by
  induction n generalizing d with
  | zero => exact h
  | succ n ih => exact ih (h.step hg hn) (Nat.le_of_succ_le hn)

theorem traced_ofGraph (hg : g.WellFormed) : Traced g 0 (ofGraph g) :=
  (traced_initial hg).sweep hg (Nat.le_refl _)

/-- The handlers' needs have been traced down to node `k`. -/
structure Marked (g : Graph) (k : Nat) (t : Table Node Bool) : Prop where
  size : t.size = g.dataflow.size
  roots : ∀ n ∈ handlerRoots g, n.index < g.dataflow.size → t.getD n false = true
  closed : ∀ m, k ≤ m.index → t.getD m false = true → g.dataflow.isOrdered m = false →
    ∀ i ∈ g.dataflow.inputs m, t.getD i false = true

theorem Marked.step {n : Nat} {t : Table Node Bool} (hg : g.WellFormed) (h : Marked g (n + 1) t)
    (hn : n < g.dataflow.size) :
    Marked g n
      (if t.getD ⟨n⟩ false && !g.dataflow.isOrdered ⟨n⟩ then (g.dataflow.inputs ⟨n⟩).foldl mark t else t) := by
  cases hc : t.getD ⟨n⟩ false && !g.dataflow.isOrdered ⟨n⟩ with
  | false =>
      rw [if_neg (by simp)]
      refine { h with closed := ?_ }
      intro m hm hmark ho i hi
      rcases Nat.eq_or_lt_of_le hm with heq | hm
      · rw [show m = ⟨n⟩ from Node.ext_index heq.symm] at hmark ho
        simp [hmark, ho] at hc
      · exact h.closed m hm hmark ho i hi
  | true =>
      rw [if_pos rfl]
      have hmark (x : Node) : ((g.dataflow.inputs ⟨n⟩).foldl mark t).getD x false = true ↔
          t.getD x false = true ∨ (x ∈ g.dataflow.inputs ⟨n⟩ ∧ x.index < g.dataflow.size) := by
        rw [getD_foldl_mark, h.size]
      refine ⟨by rw [size_foldl_mark, h.size], fun m hm hs => (hmark m).mpr (.inl (h.roots m hm hs)), ?_⟩
      intro m hm hmk ho i hi
      rcases Nat.eq_or_lt_of_le hm with heq | hm'
      · rw [show m = ⟨n⟩ from Node.ext_index heq.symm] at hi
        exact (hmark i).mpr (.inr ⟨hi, (hg.flow.inputs_lt hi).trans hn⟩)
      · rcases (hmark m).mp hmk with hmk | ⟨hmi, _⟩
        · exact (hmark i).mpr (.inl (h.closed m hm' hmk ho i hi))
        · exact absurd (hg.flow.inputs_lt hmi) (Nat.not_lt.mpr hm)

theorem Marked.sweep (hg : g.WellFormed) {n : Nat} {t : Table Node Bool} (h : Marked g n t)
    (hn : n ≤ g.dataflow.size) : Marked g 0 (sweepHandlers g.dataflow n t) := by
  induction n generalizing t with
  | zero => exact h
  | succ n ih => exact ih (h.step hg hn) (Nat.le_of_succ_le hn)

theorem marked_referenced (hg : g.WellFormed) : Marked g 0 (referenced g) := by
  refine Marked.sweep hg ⟨?_, ?_, ?_⟩ (Nat.le_refl _)
  · rw [size_foldl_mark, Table.size_replicate]
  · intro n hn hlt
    rw [getD_foldl_mark, Table.size_replicate]
    exact .inr ⟨hn, hlt⟩
  · intro m hm hmark
    rw [getD_foldl_mark, Table.size_replicate, Table.getD_replicate] at hmark
    rcases hmark with hmark | ⟨_, hlt⟩
    · cases hmark
    · omega

theorem getD_needsSlot {n : Node} (hn : n.index < g.dataflow.size) :
    (needsSlot g).getD n false =
      if g.dataflow.isOrdered n then 1 ≤ (ofGraph g).uses.getD n 0 || (referenced g).getD n false
      else decide (2 ≤ (ofGraph g).uses.getD n 0) := by
  rw [needsSlot, Table.getD_ofFn, if_pos (show Key.index n < _ from hn)]
  rfl

end Dynarec.Demand
