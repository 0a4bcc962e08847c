import Dynarec.Proofs.EmissionBudget
import Dynarec.Proofs.HandlerRelation

namespace Dynarec.Emission

variable {g : Graph}

theorem exists_turn (hg : g.WellFormed) {s : Emission} {work : List Node} {n : Node} (hn : n ∈ g.ordered)
    (hs : s.Sound g.dataflow.size (Demand.needsSlot g)) (hstatus : s.status.get? n = some .pending)
    (hturns : TurnsDone g s n.index) (hfund : Funded g [] s work) :
    ∃ d m e f ops s₁, g.dataflow.get? n = some d ∧ d.isOrdered = true ∧ d.kind = .op m e f ∧
      Emits g.dataflow (Demand.needsSlot g) s d.inputs ops s₁ ∧
      Body.emitOrdered g.dataflow (Demand.needsSlot g) s n =
        .ok ((finish (Demand.needsSlot g) ((s₁.note n).push (.apply f)) n).push .discard) ∧
      Funded g [] ((finish (Demand.needsSlot g) ((s₁.note n).push (.apply f)) n).push .discard) work := by
  have hr := (Demand.traced_ofGraph hg).ordered n hn
  rw [hg.ordered] at hn
  obtain ⟨d, hd, ho⟩ := Dataflow.mem_nodesWhere.mp hn
  have hlt := Dataflow.lt_size_of_get? hd
  have hwf := hg.flow n d hd
  obtain ⟨m, e, f, hk⟩ := hwf.exists_op_of_isOrdered ho
  obtain ⟨fuel, hfuel⟩ : ∃ fuel, g.dataflow.size = fuel + 1 := ⟨g.dataflow.size - 1, by omega⟩
  have hin : ∀ i ∈ d.inputs, i.index < n.index ∧
      Emittable g (emit g.dataflow (Demand.needsSlot g) fuel false) [n] i := by
    intro i hi
    have hi' := hwf.inputs_lt i hi
    refine ⟨hi', emittable_emit hg false (by omega) (by omega) ?_ (by simpa using hi')⟩
    exact (Demand.traced_ofGraph hg).closed n (Nat.zero_le _) hr i (by rwa [Dataflow.inputs_eq hd])
  have hopen := hfund.open hlt hr hstatus List.not_mem_nil
  rw [Dataflow.inputs_eq hd] at hopen
  obtain ⟨ops, s₁, hok, hemits, hfund₁⟩ := exists_foldlM hin hs hturns hopen
  have hemit := emit_of_op hstatus hd (fun _ => rfl) hk hok
  rw [ho, if_pos rfl] at hemit
  refine ⟨d, m, e, f, ops, s₁, hd, ho, hk, hemits, ?_, ?_⟩
  · rw [Body.emitOrdered, hfuel, hemit]
    rfl
  · -- a turn is no use of its node, so that the work left stays as it is
    have happlied : Funded g [n] ((s₁.note n).push (.apply f)) work := hfund₁
    refine (happlied.close ?_ ?_).push _
    · exact hlt.trans_eq (hemits.sound hs).size.symm
    · intro x
      rw [if_neg]
      · exact Nat.le_refl _
      · rintro ⟨rfl, hnot⟩
        rw [Dataflow.isOrdered_eq hd, ho] at hnot
        cases hnot

/-- The ordered nodes can be computed one after another. Those that are not left have had their turns. -/
theorem exists_turns (hg : g.WellFormed) {ns : List Node} (hns : ∀ n ∈ ns, n ∈ g.ordered)
    (hpair : ns.Pairwise (fun a b => a.index < b.index)) {s : Emission} {work : List Node}
    (hs : s.Sound g.dataflow.size (Demand.needsSlot g)) (hpending : ∀ n ∈ ns, s.status.get? n = some .pending)
    (hdone : ∀ x, g.dataflow.isOrdered x = true → x ∉ ns → ∃ o, s.status.get? x = some (.computed o))
    (hfund : Funded g [] s work) :
    ∃ ops s', ns.foldlM (Body.emitOrdered g.dataflow (Demand.needsSlot g)) s = .ok s' ∧
      Turns g.dataflow (Demand.needsSlot g) s ns ops s' ∧ Funded g [] s' work := by
  induction ns generalizing s with
  | nil => exact ⟨[], s, rfl, .nil s, hfund⟩
  | cons n ns ih =>
      obtain ⟨hlt, hpair⟩ := List.pairwise_cons.mp hpair
      have hstatus := hpending n List.mem_cons_self
      have hturns : TurnsDone g s n.index := by
        intro x hx hxn
        apply hdone x hx
        rintro (_ | ⟨_, hmem⟩)
        · exact Nat.lt_irrefl _ hxn
        · exact Nat.lt_asymm hxn (hlt x hmem)
      obtain ⟨d, m, e, f, ops, s₁, hd, ho, hk, hemits, hok, hfund₁⟩ :=
        exists_turn hg (hns n List.mem_cons_self) hs hstatus hturns hfund
      have hs₁ := ((hemits.sound hs).note n).push (.apply f)
      have hget {x : Node} (hx : g.dataflow.isOrdered x = true) (hne : n ≠ x) :
          ((finish (Demand.needsSlot g) ((s₁.note n).push (.apply f)) n).push .discard).status.get? x =
            s.status.get? x := by
        rw [push_status, get?_finish_of_ne _ hne]
        exact hemits.get?_of_isOrdered hx
      obtain ⟨ops', s', hok', hturns', hfund'⟩ := ih (fun x hx => hns x (List.mem_cons_of_mem _ hx)) hpair
        ((hs₁.finish n).push .discard)
        (by
          intro x hx
          rw [hget (hg.mem_ordered_iff.mp (hns x (List.mem_cons_of_mem _ hx)))
            (fun heq => Nat.lt_irrefl _ (congrArg Node.index heq ▸ hlt x hx))]
          exact hpending x (List.mem_cons_of_mem _ hx))
        (by
          intro x hx hmem
          by_cases hne : n = x
          · subst hne
            exact ⟨_, get?_finish_self (hs₁.size.symm ▸ Dataflow.lt_size_of_get? hd)⟩
          · rw [hget hx hne]
            exact hdone x hx (List.not_mem_cons_of_ne_of_not_mem (Ne.symm hne) hmem))
        hfund₁
      refine ⟨_, s', ?_, .cons hstatus hd ho hk hemits hturns', hfund'⟩
      rw [List.foldlM_cons, bind_eq_ok]
      exact ⟨_, hok, hok'⟩

theorem exists_main (hg : g.WellFormed) :
    ∃ turns s₁ pushes s₂,
      Turns g.dataflow (Demand.needsSlot g) (initial g.dataflow.size) g.ordered turns s₁ ∧
      Emits g.dataflow (Demand.needsSlot g) s₁ (g.sinks.map Prod.snd) pushes s₂ ∧
      Body.emitMain g (Demand.needsSlot g) =
        .ok { s₂ with code := s₂.code ++ (Body.commits g.sinks).toArray.push .ret } := by
  obtain ⟨turns, s₁, hok₁, hturns, hfund₁⟩ := exists_turns hg (fun _ h => h)
    (by rw [hg.ordered]; exact Dataflow.nodesWhere_pairwise _ _) (sound_initial g.dataflow.size)
    (fun x hx => get?_initial (hg.ordered_lt hx))
    (fun x hx hmem => absurd (hg.mem_ordered_iff.mpr hx) hmem) (funded_initial hg)
  have hs₁ := hturns.sound (sound_initial g.dataflow.size)
  have hdone : TurnsDone g s₁ g.dataflow.size := fun x hx _ =>
    hturns.exists_computed (sound_initial g.dataflow.size) (hg.mem_ordered_iff.mpr hx)
  have hsinks : ∀ n ∈ g.sinks.map Prod.snd, n.index < g.dataflow.size ∧
      Emittable g (emit g.dataflow (Demand.needsSlot g) g.dataflow.size true) [] n := by
    intro n hn
    obtain ⟨p, hp, rfl⟩ := List.mem_map.mp hn
    have hlt := hg.sinks_lt p hp
    exact ⟨hlt, emittable_emit hg true hlt hlt ((Demand.traced_ofGraph hg).sinks p hp) (by simp)⟩
  have hfund : Funded g [] s₁ (g.sinks.map Prod.snd ++ []) := by rwa [List.append_nil]
  obtain ⟨pushes, s₂, hok₂, hemits, _⟩ := exists_foldlM hsinks hs₁ hdone hfund
  refine ⟨turns, s₁, pushes, s₂, hturns, hemits, ?_⟩
  simp only [Body.emitMain, bind_eq_ok, pure_eq_ok]
  exact ⟨s₁, hok₁, s₂, hok₂, rfl⟩

/-- Handlers find every ordered node that they need in a slot. -/
def Kept (g : Graph) (status : Table Node Status) : Prop :=
  ∀ x, g.dataflow.isOrdered x = true → (Demand.referenced g).getD x false = true →
    ∃ slot, status.get? x = some (.computed (some slot))

theorem kept_of_main (hg : g.WellFormed) {turns pushes : List Op} {s₁ s₂ : Emission}
    (hturns : Turns g.dataflow (Demand.needsSlot g) (initial g.dataflow.size) g.ordered turns s₁)
    (hemits : Emits g.dataflow (Demand.needsSlot g) s₁ (g.sinks.map Prod.snd) pushes s₂) : Kept g s₂.status := by
  intro x hx href
  have hsound : (initial g.dataflow.size).Sound g.dataflow.size (Demand.needsSlot g) := sound_initial _
  have hmem := hg.mem_ordered_iff.mpr hx
  obtain ⟨o, ho⟩ := hturns.exists_computed hsound hmem
  have hneeds : (Demand.needsSlot g).getD x false = true := by
    rw [Demand.getD_needsSlot (hg.ordered_lt hmem), hx, href]
    simp
  rw [← (hturns.sound hsound).kept x o ho] at hneeds
  obtain ⟨slot, rfl⟩ := Option.isSome_iff_exists.mp hneeds
  exact ⟨slot, hemits.computed ho⟩

variable {status : Table Node Status}

theorem exists_fresh_foldlM {f : Array Op → Node → Except Rejection (Array Op)} {ns : List Node}
    (hf : ∀ n ∈ ns, ∀ code, ∃ ops code', f code n = .ok code' ∧ code'.toList = code.toList ++ ops ∧
      Fresh g.dataflow status [n] ops) (code : Array Op) :
    ∃ ops code', ns.foldlM f code = .ok code' ∧ code'.toList = code.toList ++ ops ∧
      Fresh g.dataflow status ns ops := by
  induction ns generalizing code with
  | nil => exact ⟨[], code, rfl, by simp, .nil⟩
  | cons n ns ih =>
      obtain ⟨ops, code₁, hok, hcode, hfresh⟩ := hf n List.mem_cons_self code
      obtain ⟨ops', code', hok', hcode', hfresh'⟩ := ih (fun m hm => hf m (List.mem_cons_of_mem _ hm)) code₁
      refine ⟨ops ++ ops', code', ?_, by rw [hcode', hcode, List.append_assoc], hfresh.append hfresh'⟩
      rw [List.foldlM_cons, bind_eq_ok]
      exact ⟨_, hok, hok'⟩

theorem exists_fresh (hg : g.WellFormed) (hkept : Kept g status) {fuel : Nat} {n : Node} (hfuel : n.index < fuel)
    (hn : n.index < g.dataflow.size) (href : (Demand.referenced g).getD n false = true) (code : Array Op) :
    ∃ ops code', emitFresh g.dataflow status fuel code n = .ok code' ∧ code'.toList = code.toList ++ ops ∧
      Fresh g.dataflow status [n] ops := by
  induction fuel generalizing n code with
  | zero => omega
  | succ fuel ih =>
      obtain ⟨d, hd⟩ := Dataflow.exists_get? hn
      have hwf := hg.flow n d hd
      rw [emitFresh, hd]
      cases ho : d.isOrdered with
      | true =>
          obtain ⟨slot, hslot⟩ := hkept n (by rw [Dataflow.isOrdered_eq hd, ho]) href
          refine ⟨[.restore slot], code.push (.restore slot), ?_, by simp, .restore hd ho hslot .nil⟩
          simp only [ho, if_true, hslot]
      | false =>
          simp only [ho, Bool.false_eq_true, if_false]
          cases hk : d.kind with
          | entry e => exact ⟨[entryOp e], _, rfl, by simp, .leaf hd ho (by rw [hk]; rfl) .nil⟩
          | constant value => exact ⟨[.constant value], _, rfl, by simp, .leaf hd ho (by rw [hk]; rfl) .nil⟩
          | op m e f =>
              have hin : ∀ i ∈ d.inputs, ∀ code, ∃ ops code', emitFresh g.dataflow status fuel code i = .ok code' ∧
                  code'.toList = code.toList ++ ops ∧ Fresh g.dataflow status [i] ops := by
                intro i hi
                have hlt := hwf.inputs_lt i hi
                refine ih (by omega) (by omega) ?_
                exact (Demand.marked_referenced hg).closed n (Nat.zero_le _) href
                  (by rw [Dataflow.isOrdered_eq hd, ho]) i (by rwa [Dataflow.inputs_eq hd])
              obtain ⟨ops, code₁, hok, hcode, hfresh⟩ := exists_fresh_foldlM hin code
              refine ⟨ops ++ [.apply f], code₁.push (.apply f), ?_, by simp [hcode], .op hd ho hk hfresh .nil⟩
              simp only [hok]
              rfl

theorem exists_state (hg : g.WellFormed) (hkept : Kept g status) (eipLag : UInt32) {ps : List (Element × Node)}
    (hps : ∀ p ∈ ps, p.2.index < g.dataflow.size ∧ (Demand.referenced g).getD p.2 false = true) (code : Array Op) :
    ∃ ops code', ps.foldlM (Body.emitState g status eipLag) code = .ok code' ∧ code'.toList = code.toList ++ ops ∧
      FreshState g status eipLag ps ops := by
  induction ps generalizing code with
  | nil => exact ⟨[], code, rfl, by simp, .nil⟩
  | cons p ps ih =>
      obtain ⟨hlt, href⟩ := hps p List.mem_cons_self
      obtain ⟨ops, code₁, hok, hcode, hfresh⟩ := exists_fresh hg hkept hlt hlt href code
      obtain ⟨code₂, hok₂, hcode₂⟩ : ∃ code₂, Body.emitState g status eipLag code p = .ok code₂ ∧
          code₂.toList = code₁.toList ++ catchUp g.mode eipLag p.1 := by
        simp only [Body.emitState, bind_eq_ok, pure_eq_ok, catchUp]
        refine ⟨_, ⟨code₁, hok, rfl⟩, ?_⟩
        split <;> simp
      obtain ⟨ops', code', hok', hcode', hstate⟩ := ih (fun q hq => hps q (List.mem_cons_of_mem _ hq)) code₂
      refine ⟨_, code', ?_, ?_, .cons hfresh hstate⟩
      · rw [List.foldlM_cons, bind_eq_ok]
        exact ⟨code₂, hok₂, hok'⟩
      · rw [hcode', hcode₂, hcode, List.append_assoc, List.append_assoc]

end Dynarec.Emission

namespace Dynarec.Body

theorem insertInOrder_perm (p : Element × Node) (state : List (Element × Node)) :
    (insertInOrder p state).Perm (p :: state) := by
  induction state with
  | nil => exact .refl _
  | cons q rest ih =>
      rw [insertInOrder]
      split
      · exact .refl _
      · exact (ih.cons q).trans (.swap p q rest)

theorem inElementOrder_perm (state : List (Element × Node)) : (inElementOrder state).Perm state := by
  induction state with
  | nil => exact .refl _
  | cons p state ih => exact (insertInOrder_perm p _).trans (ih.cons p)

theorem mem_handlerState {b : Boundary} {p : Element × Node} (h : p ∈ handlerState b) :
    p ∈ b.snapshot ∨ p = (.eip, b.eip) := by
  rw [handlerState] at h
  split at h
  · simpa using (inElementOrder_perm _).mem_iff.mp h
  · exact .inl h

theorem exists_foldl_range (is : List Nat) (a b : Nat) (hab : a ≤ b) :
    ∃ first last, is.foldl
        (fun range i => match range with
          | none => some (i, i)
          | some (first, last) => some (min first i, max last i)) (some (a, b)) = some (first, last) ∧
      (∀ i ∈ a :: b :: is, first ≤ i ∧ i ≤ last) ∧ first ∈ a :: b :: is ∧ last ∈ a :: b :: is := by
  induction is generalizing a b with
  | nil => exact ⟨a, b, rfl, by simp [hab], by simp, by simp⟩
  | cons i is ih =>
      obtain ⟨first, last, hfold, hall, hfirst, hlast⟩ := ih (min a i) (max b i) (by omega)
      simp only [List.mem_cons, forall_eq_or_imp] at hall hfirst hlast ⊢
      refine ⟨first, last, hfold, ⟨by omega, by omega, by omega, hall.2.2⟩, ?_, ?_⟩
      · rcases hfirst with rfl | rfl | h
        · omega
        · omega
        · exact .inr (.inr (.inr h))
      · rcases hlast with rfl | rfl | h
        · omega
        · omega
        · exact .inr (.inr (.inr h))

theorem exists_protectedRange? {applyAt : Table Node (Option Nat)} {place : Node → Nat} {nodes : List Node}
    (hne : nodes ≠ []) (hplace : ∀ n ∈ nodes, (applyAt.get? n).join = some (place n)) :
    ∃ first last, protectedRange? applyAt nodes = some (first, last) ∧
      (∀ n ∈ nodes, first ≤ place n ∧ place n ≤ last) ∧
      (∃ n ∈ nodes, place n = first) ∧ ∃ n ∈ nodes, place n = last := by
  have hmap : (nodes.filterMap fun n => (applyAt.get? n).join) = nodes.map place := by
    rw [← List.filterMap_eq_map]
    exact List.filterMap_congr hplace
  obtain ⟨n, ns, rfl⟩ := List.exists_cons_of_ne_nil hne
  obtain ⟨first, last, hfold, hall, hfirst, hlast⟩ :=
    exists_foldl_range (ns.map place) (place n) (place n) (Nat.le_refl _)
  refine ⟨first, last, ?_, ?_, ?_, ?_⟩
  · rw [protectedRange?, hmap]
    exact hfold
  · intro m hm
    exact hall _ (List.mem_cons_of_mem _ (List.mem_map_of_mem hm))
  · simpa [eq_comm] using hfirst
  · simpa [eq_comm] using hlast

end Dynarec.Body
