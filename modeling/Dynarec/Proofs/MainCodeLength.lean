import Dynarec.Proofs.GeneratedVerifies
import Dynarec.Proofs.TreeSizes
import Mathlib.Algebra.Group.Action.Defs

namespace Dynarec

theorem Dataflow.unfoldedSize_pos {flow : Dataflow} (hflow : flow.WellFormed) {n : Node} (hn : n.index < flow.size) :
    0 < flow.unfoldedSize n := by
  obtain ⟨d, hd⟩ := exists_get? hn
  rw [unfoldedSize_eq hflow hd]
  split <;> omega

namespace Emission

variable {flow : Dataflow} {needsSlot : Table Node Bool} {s s' : Emission}

theorem length_saves_le (s : Emission) (n : Node) : (saves needsSlot s n).length ≤ 1 := by
  rw [saves]
  split <;> simp

theorem Emits.length_le (hflow : flow.WellFormed) {ns : List Node} {ops : List Op}
    (h : Emits flow needsSlot s ns ops s') (hns : ∀ n ∈ ns, n.index < flow.size) :
    ops.length ≤ 2 * (ns.map flow.unfoldedSize).sum := by
  induction h with
  | nil s => exact Nat.le_refl _
  | restore hs _ ih =>
      rw [List.forall_mem_cons] at hns
      have hpos := Dataflow.unfoldedSize_pos hflow hns.1
      have hrest := ih hns.2
      rw [List.length_cons, List.map_cons, List.sum_cons]
      omega
  | @leaf s _ n _ _ _ _ _ _ _ _ _ ih =>
      rw [List.forall_mem_cons] at hns
      have hpos := Dataflow.unfoldedSize_pos hflow hns.1
      have hrest := ih hns.2
      have hsaves : (saves needsSlot s n).length ≤ 1 := length_saves_le s n
      rw [List.length_cons, List.length_append, List.map_cons, List.sum_cons]
      omega
  | @op _ s₁ _ n _ _ _ _ _ _ _ _ hd ho _ _ _ ihin ih =>
      rw [List.forall_mem_cons] at hns
      have hinputs := ihin fun i hi => Nat.lt_trans ((hflow _ _ hd).inputs_lt i hi) hns.1
      have hrest := ih hns.2
      have hsaves : (saves needsSlot s₁ n).length ≤ 1 := length_saves_le s₁ n
      rw [List.length_append, List.length_cons, List.length_append, List.map_cons, List.sum_cons,
        Dataflow.unfoldedSize_eq hflow hd, if_neg (by simp [ho])]
      omega

end Emission

namespace Graph

variable {mode : Mode} {run : Run} {g : Graph}

theorem ordered_eq_nil (hpure : run.orderedTargets mode = []) (h : build mode run = .ok g) : g.ordered = [] := by
  have hnodes := forall₂_ordered h
  rw [hpure] at hnodes
  exact List.forall₂_nil_right_iff.mp hnodes

theorem WellFormed.boundaries_eq_nil (hg : g.WellFormed) (hordered : g.ordered = []) : g.boundaries = [] := by
  rw [List.eq_nil_iff_forall_not_mem]
  intro bd hbd
  obtain ⟨n, hn⟩ := List.exists_mem_of_ne_nil _ (hg.boundaries bd hbd).2.1
  have hmem := hg.mem_ordered_of_boundary hbd hn
  rw [hordered] at hmem
  exact List.not_mem_nil hmem

theorem WellFormed.length_sinks_le (hg : g.WellFormed) : g.sinks.length ≤ 37 := by
  have hlength := hg.sinks.length_le
  rwa [List.length_map] at hlength

theorem unfoldedSize_of_mem_sinks (hrun : run.Ordered) (h : build mode run = .ok g) {s : TreeSizes}
    (hs : run.ops.foldlM (TreeSizes.step? mode run.x86Count) TreeSizes.entry = some s) {p : Element × Node}
    (hp : p ∈ g.sinks) : g.dataflow.unfoldedSize p.2 = s p.1 := by
  obtain ⟨b, hb, rfl⟩ := hrun.exists_foldlM hs
  obtain ⟨b', hb', rfl⟩ := build_ok h
  cases hb.symm.trans hb'
  have hcurrent := (Definitions.mem_changedFrom.mp hp).2.1
  simp [Builder.treeSize, hcurrent]

end Graph

theorem Body.Layout.length_code_le {g : Graph} {b : Body} (hg : g.WellFormed) (l : Layout g b)
    (hordered : g.ordered = []) {k : Nat} (hk : ∀ p ∈ g.sinks, g.dataflow.unfoldedSize p.2 ≤ k) :
    b.code.length ≤ 74 * k + 38 := by
  obtain ⟨turns, _, pushes, _, handlerOps, hturns, hpushes, hhandlers, hcode, _⟩ := l
  rw [hordered] at hturns
  rw [hg.boundaries_eq_nil hordered] at hhandlers
  generalize b.handlers = handlers at hhandlers
  cases hturns
  cases hhandlers
  have hlength := hpushes.length_le hg.flow fun n hn => hg.sink_lt hn
  have hsum : ((g.sinks.map Prod.snd).map g.dataflow.unfoldedSize).sum ≤ g.sinks.length * k := by
    refine (List.sum_le_card_nsmul _ k ?_).trans (by rw [List.length_map, List.length_map, smul_eq_mul])
    intro size hsize
    rw [List.map_map] at hsize
    obtain ⟨p, hp, rfl⟩ := List.mem_map.mp hsize
    exact hk p hp
  have hsinks := hg.length_sinks_le
  have hmul := Nat.mul_le_mul_right k hsinks
  rw [hcode]
  simp [commits]
  omega

namespace Procedure

/-- A run that asks nothing of the processor is compiled if the trees of its values are small. -/
theorem exists_build_of_small {run : Run} {mode : Mode} (hrun : run.Ordered) (hpure : run.orderedTargets mode = [])
    {s : TreeSizes} (hs : run.ops.foldlM (TreeSizes.step? mode run.x86Count) TreeSizes.entry = some s) {k : Nat}
    (hk : ∀ e, s e ≤ k) (hlimit : 74 * k + 38 ≤ Body.limit) (name : String) (stamp : Nat) :
    ∃ p, build name mode stamp run = .ok p := by
  obtain ⟨g, hg⟩ := Graph.exists_build hrun hs
  have hwf := Graph.wellFormed_of_build hrun hg
  obtain ⟨b, hb, ⟨l⟩⟩ := Body.exists_layout hwf
  have hlength := l.length_code_le hwf (Graph.ordered_eq_nil hpure hg) fun p hp => by
    rw [Graph.unfoldedSize_of_mem_sinks hrun hg hs hp]
    exact hk p.1
  obtain ⟨depth, hdepth⟩ := Body.verify_of_layout hwf l (hlength.trans hlimit)
  obtain ⟨p, hp⟩ : ∃ p, ofBody name mode stamp run b = .ok p := ⟨_, bind_eq_ok.mpr ⟨depth, hdepth, rfl⟩⟩
  exact ⟨p, bind_eq_ok.mpr ⟨g, hg, bind_eq_ok.mpr ⟨b, reject_eq_ok.mpr hb, reject_eq_ok.mpr hp⟩⟩⟩

end Procedure

end Dynarec
