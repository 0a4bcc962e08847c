import Dynarec.Proofs.DemandCounts
import Dynarec.Proofs.EmissionRelation
import Mathlib.Algebra.Order.BigOperators.Group.Finset

namespace Dynarec.Emission

variable {g : Graph}

/-- What the nodes that are still to be computed will ask of `x`. The inputs of a node that is being
computed are counted elsewhere. -/
def owed (g : Graph) (busy : List Node) (s : Emission) (x : Node) : Nat :=
  ∑ m ∈ Finset.range g.dataflow.size,
    if (Demand.ofGraph g).reached.getD ⟨m⟩ false = true ∧ s.status.get? ⟨m⟩ = some .pending ∧ ⟨m⟩ ∉ busy
    then (g.dataflow.inputs ⟨m⟩).count x else 0

def spent (g : Graph) (s : Emission) (x : Node) : Nat :=
  if g.dataflow.isOrdered x = false ∧ s.status.get? x ≠ some .pending then 1 else 0

/-- The uses of every node cover what is asked of it from here on. -/
def Funded (g : Graph) (busy : List Node) (s : Emission) (work : List Node) : Prop :=
  ∀ x, x.index < g.dataflow.size →
    spent g s x + owed g busy s x + work.count x ≤ (Demand.ofGraph g).uses.getD x 0

theorem funded_initial (hg : g.WellFormed) :
    Funded g [] (initial g.dataflow.size) (g.sinks.map Prod.snd) := by
  intro x hx
  have howed : owed g [] (initial g.dataflow.size) x =
      ∑ m ∈ Finset.range g.dataflow.size, if (Demand.ofGraph g).reached.getD ⟨m⟩ false
        then (g.dataflow.inputs ⟨m⟩).count x else 0 := by
    apply Finset.sum_congr rfl
    intro m hm
    have hpending := get?_initial (n := ⟨m⟩) (Finset.mem_range.mp hm)
    simp [hpending]
  have huses := (Demand.traced_ofGraph hg).uses x
  rw [← Finset.range_eq_Ico] at huses
  rw [spent, if_neg (fun h => h.2 (get?_initial hx)), howed, huses]
  omega

theorem Funded.mono {busy work work' : List Node} {s : Emission} (h : Funded g busy s work)
    (hwork : ∀ x, work'.count x ≤ work.count x) : Funded g busy s work' :=
  fun x hx => (Nat.add_le_add_left (hwork x) _).trans (h x hx)

theorem Funded.push {busy work : List Node} {s : Emission} (h : Funded g busy s work) (op : Op) :
    Funded g busy (s.push op) work := h

theorem Funded.open {busy work : List Node} {s : Emission} {n : Node} (h : Funded g busy s work)
    (hn : n.index < g.dataflow.size) (hr : (Demand.ofGraph g).reached.getD n false = true)
    (hs : s.status.get? n = some .pending) (hbusy : n ∉ busy) :
    Funded g (n :: busy) s (g.dataflow.inputs n ++ work) := by
  intro x hx
  have hsplit : owed g busy s x = owed g (n :: busy) s x + (g.dataflow.inputs n).count x := by
    have hrest (m : Nat) :
        (if (Demand.ofGraph g).reached.getD ⟨m⟩ false = true ∧ s.status.get? ⟨m⟩ = some .pending ∧ ⟨m⟩ ∉ busy
          then (g.dataflow.inputs ⟨m⟩).count x else 0) =
        (if (Demand.ofGraph g).reached.getD ⟨m⟩ false = true ∧ s.status.get? ⟨m⟩ = some .pending ∧
            ⟨m⟩ ∉ n :: busy then (g.dataflow.inputs ⟨m⟩).count x else 0) +
          if m = n.index then (g.dataflow.inputs n).count x else 0 := by
      by_cases hm : m = n.index
      · subst hm
        simp [hr, hs, hbusy]
      · have hne : (⟨m⟩ : Node) ≠ n := fun h => hm (congrArg Node.index h)
        simp [hm, hne]
    rw [owed, Finset.sum_congr rfl (fun m _ => hrest m), Finset.sum_add_distrib,
      Finset.sum_ite_eq' (Finset.range g.dataflow.size), if_pos (Finset.mem_range.mpr hn)]
    rfl
  have hx := h x hx
  rw [List.count_append]
  omega

theorem Funded.close {busy work work' : List Node} {s : Emission} {n : Node} (h : Funded g (n :: busy) s work')
    (hn : n.index < s.status.size)
    (hwork : ∀ x, work.count x + (if n = x ∧ g.dataflow.isOrdered x = false then 1 else 0) ≤ work'.count x) :
    Funded g busy (finish (Demand.needsSlot g) s n) work := by
  intro x hx
  have howed : owed g busy (finish (Demand.needsSlot g) s n) x ≤ owed g (n :: busy) s x := by
    apply Finset.sum_le_sum
    intro m _
    by_cases hm : n = ⟨m⟩
    · rw [hm, get?_finish_self (by rwa [← hm])]
      simp
    · have hne : (⟨m⟩ : Node) ≠ n := Ne.symm hm
      rw [get?_finish_of_ne s hm]
      simp [hne]
  have hspent : spent g (finish (Demand.needsSlot g) s n) x ≤
      spent g s x + if n = x ∧ g.dataflow.isOrdered x = false then 1 else 0 := by
    by_cases hnx : n = x
    · unfold spent
      split <;> simp_all
    · rw [spent, get?_finish_of_ne s hnx]
      exact Nat.le_add_right _ _
  have hx := h x hx
  have hwork := hwork x
  omega

def TurnsDone (g : Graph) (s : Emission) (k : Nat) : Prop :=
  ∀ x, g.dataflow.isOrdered x = true → x.index < k → ∃ o, s.status.get? x = some (.computed o)

theorem TurnsDone.mono {s : Emission} {k l : Nat} (h : TurnsDone g s k) (hle : l ≤ k) : TurnsDone g s l :=
  fun x hx hlt => h x hx (hlt.trans_le hle)

theorem TurnsDone.emits {s s' : Emission} {k : Nat} {ns : List Node} {ops : List Op} (h : TurnsDone g s k)
    (hemits : Emits g.dataflow (Demand.needsSlot g) s ns ops s') : TurnsDone g s' k := by
  intro x hx hlt
  obtain ⟨o, ho⟩ := h x hx hlt
  exact ⟨o, hemits.computed ho⟩

theorem TurnsDone.isOrdered_eq_false {s : Emission} {n : Node} {d : Definition} (h : TurnsDone g s (n.index + 1))
    (hd : g.dataflow.get? n = some d) (hs : s.status.get? n = some .pending) : d.isOrdered = false := by
  by_contra hnot
  obtain ⟨o, ho⟩ := h n (by rw [Dataflow.isOrdered_eq hd]; simpa using hnot) (Nat.lt_succ_self _)
  rw [hs] at ho
  cases ho

theorem exists_slot {busy work : List Node} {s : Emission} {n : Node} {o : Option Slot}
    (hs : s.Sound g.dataflow.size (Demand.needsSlot g)) (hf : Funded g busy s (n :: work))
    (hn : n.index < g.dataflow.size) (ho : s.status.get? n = some (.computed o)) : ∃ slot, o = some slot := by
  have hfund := hf n hn
  rw [List.count_cons_self] at hfund
  have hneeds : (Demand.needsSlot g).getD n false = true := by
    rw [Demand.getD_needsSlot hn]
    cases hord : g.dataflow.isOrdered n with
    | true =>
        have : 1 ≤ (Demand.ofGraph g).uses.getD n 0 := by omega
        simp [this]
    | false =>
        rw [spent, if_pos ⟨hord, by simp [ho]⟩] at hfund
        have : 2 ≤ (Demand.ofGraph g).uses.getD n 0 := by omega
        simp [this]
  rw [← hs.kept n o ho] at hneeds
  exact Option.isSome_iff_exists.mp hneeds

def Emittable (g : Graph) (f : Emission → Node → Except Rejection Emission) (busy : List Node) (n : Node) : Prop :=
  ∀ s work, s.Sound g.dataflow.size (Demand.needsSlot g) → TurnsDone g s (n.index + 1) →
    Funded g busy s (n :: work) →
      ∃ ops s', f s n = .ok s' ∧ Emits g.dataflow (Demand.needsSlot g) s [n] ops s' ∧ Funded g busy s' work

theorem exists_foldlM {f : Emission → Node → Except Rejection Emission} {busy ns : List Node} {k : Nat}
    (hf : ∀ n ∈ ns, n.index < k ∧ Emittable g f busy n) {s : Emission} {work : List Node}
    (hs : s.Sound g.dataflow.size (Demand.needsSlot g)) (hturns : TurnsDone g s k)
    (hfund : Funded g busy s (ns ++ work)) :
    ∃ ops s', ns.foldlM f s = .ok s' ∧ Emits g.dataflow (Demand.needsSlot g) s ns ops s' ∧
      Funded g busy s' work := by
  induction ns generalizing s with
  | nil => exact ⟨[], s, rfl, .nil s, hfund⟩
  | cons n ns ih =>
      obtain ⟨hlt, hn⟩ := hf n List.mem_cons_self
      obtain ⟨ops, s₁, hok, hemits, hfund₁⟩ := hn s (ns ++ work) hs (hturns.mono hlt) hfund
      obtain ⟨ops', s', hok', hemits', hfund'⟩ :=
        ih (fun m hm => hf m (List.mem_cons_of_mem _ hm)) (hemits.sound hs) (hturns.emits hemits) hfund₁
      refine ⟨ops ++ ops', s', ?_, hemits.append hemits', hfund'⟩
      rw [List.foldlM_cons, bind_eq_ok]
      exact ⟨_, hok, hok'⟩

/-- Emission recurses to inputs, which come before their node, so that as much fuel as the number of the
node is enough. -/
theorem emittable_emit (hg : g.WellFormed) {fuel : Nat} (root : Bool) {busy : List Node} {n : Node}
    (hfuel : n.index < fuel) (hn : n.index < g.dataflow.size)
    (hr : (Demand.ofGraph g).reached.getD n false = true) (hbusy : ∀ b ∈ busy, n.index < b.index) :
    Emittable g (emit g.dataflow (Demand.needsSlot g) fuel root) busy n := by
  induction fuel generalizing root busy n with
  | zero => omega
  | succ fuel ih =>
      intro s work hs hturns hfund
      have hsize : n.index < s.status.size := by rw [hs.size]; exact hn
      obtain ⟨status, hstatus⟩ : ∃ status, s.status.get? n = some status := ⟨_, Array.getElem?_eq_getElem hsize⟩
      cases status with
      | computed o =>
          -- a node that is done and has a use left was given a slot
          obtain ⟨slot, rfl⟩ := exists_slot hs hfund hn hstatus
          refine ⟨[.restore slot], s.push (.restore slot), ?_, .restore hstatus (.nil _), ?_⟩
          · rw [emit, hstatus]
          · exact (hfund.mono (fun x => List.count_le_count_cons)).push _
      | pending =>
          obtain ⟨d, hd⟩ := Dataflow.exists_get? hn
          have hwf := hg.flow n d hd
          have ho := hturns.isOrdered_eq_false hd hstatus
          have hnot : n ∉ busy := fun hmem => Nat.lt_irrefl _ (hbusy n hmem)
          have hopen := hfund.open hn hr hstatus hnot
          have hwork (x : Node) :
              work.count x + (if n = x ∧ g.dataflow.isOrdered x = false then 1 else 0) ≤ (n :: work).count x := by
            rw [List.count_cons]
            simp only [beq_iff_eq]
            split <;> split <;> simp_all
          cases hop : leafOp? d.kind with
          | some op =>
              rw [Dataflow.inputs_eq hd, (hwf.leaf (leafOp?_eq_some hop)).1] at hopen
              exact ⟨_, _, emit_of_leaf hstatus hd ho hop, .leaf hstatus hd ho hop (.nil _),
                (hopen.push op).close hsize hwork⟩
          | none =>
              obtain ⟨m, e, f, hk⟩ := leafOp?_eq_none hop
              -- the node is busy while its inputs are emitted, which can come to no busy node
              have hin : ∀ i ∈ d.inputs, i.index < n.index ∧
                  Emittable g (emit g.dataflow (Demand.needsSlot g) fuel false) (n :: busy) i := by
                intro i hi
                have hlt := hwf.inputs_lt i hi
                refine ⟨hlt, ih false (by omega) (by omega) ?_ ?_⟩
                · exact (Demand.traced_ofGraph hg).closed n (Nat.zero_le _) hr i (by rwa [Dataflow.inputs_eq hd])
                · rintro b (_ | ⟨_, hb⟩)
                  · exact hlt
                  · exact hlt.trans (hbusy b hb)
              rw [Dataflow.inputs_eq hd] at hopen
              obtain ⟨ops, s₁, hok, hemits, hfund₁⟩ := exists_foldlM hin hs (hturns.mono (Nat.le_succ _)) hopen
              have hroot : d.isOrdered = true → root = true := by simp [ho]
              have hemit := emit_of_op hstatus hd hroot hk hok
              rw [ho, if_neg (by simp)] at hemit
              exact ⟨_, _, hemit, .op hstatus hd ho hk hemits (.nil _),
                (hfund₁.push _).close (by rw [push_status, (hemits.sound hs).size]; exact hn) hwork⟩

end Dynarec.Emission
