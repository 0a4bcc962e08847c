import Dynarec.Proofs.GeneratedLayout
import Dynarec.Proofs.StackDepth

namespace Dynarec.Body

open Emission

/-- `Effects slots depth ops depth'` says that `ops` can stand in a body with so many slots before its
end, and take the stack from one depth to the other. -/
inductive Effects (slots : Nat) : Nat → List Op → Nat → Prop
  | nil (depth : Nat) : Effects slots depth [] depth
  | cons {depth depth' pops pushes : Nat} {op : Op} {ops : List Op} (hop : effect slots op = .ok (pops, pushes))
      (hpops : pops ≤ depth) (h : Effects slots (depth - pops + pushes) ops depth') :
      Effects slots depth (op :: ops) depth'

variable {slots : Nat}

theorem Effects.append {depth depth₁ depth' : Nat} {ops ops' : List Op} (h : Effects slots depth ops depth₁)
    (h' : Effects slots depth₁ ops' depth') : Effects slots depth (ops ++ ops') depth' := by
  induction h with
  | nil depth => exact h'
  | cons hop hpops _ ih => exact .cons hop hpops (ih h')

theorem Effects.push {depth depth' : Nat} {op : Op} {ops : List Op} (hop : effect slots op = .ok (0, 1))
    (h : Effects slots (depth + 1) ops depth') : Effects slots depth (op :: ops) depth' :=
  .cons hop (Nat.zero_le _) h

theorem Effects.apply {depth depth' : Nat} {f : Fragment} {ops : List Op} (h : Effects slots (depth + 1) ops depth') :
    Effects slots (depth + f.arity) (.apply f :: ops) depth' := by
  refine .cons rfl (Nat.le_add_left _ _) ?_
  rwa [Nat.add_sub_cancel]

theorem effects_commits {es : List Element} (hes : ∀ e ∈ es, e.isCommitted = true) :
    Effects slots es.length (es.map .commit) 0 := by
  induction es with
  | nil => exact .nil 0
  | cons e es ih =>
      refine .cons (by rw [effect, if_pos (hes e List.mem_cons_self)]) (Nat.le_add_left _ _) ?_
      exact ih (fun e' he' => hes e' (List.mem_cons_of_mem _ he'))

theorem effect_leafOp? {k : Kind} {op : Op} (h : leafOp? k = some op) : effect slots op = .ok (0, 1) := by
  cases k with
  | entry e =>
      cases h
      unfold entryOp
      split
      · rename_i hread
        exact if_pos hread
      · rfl
  | constant value =>
      cases h
      rfl
  | op m e f => cases h

theorem effects_saves {needsSlot : Table Node Bool} {s : Emission} {n : Node}
    (h : s.slots + (saves needsSlot s n).length ≤ slots) (depth : Nat) :
    Effects slots (depth + 1) (saves needsSlot s n) (depth + 1) := by
  unfold saves at h ⊢
  split
  · rename_i hneeds
    rw [if_pos hneeds] at h
    exact .cons (if_pos h) (Nat.le_add_left _ _) (.nil _)
  · exact .nil _

theorem effects_catchUp (mode : Mode) (eipLag : UInt32) (e : Element) (depth : Nat) :
    Effects slots (depth + 1) (catchUp mode eipLag e) (depth + 1) := by
  have harity : (Rule.advance mode).arity = 2 := by cases mode <;> rfl
  unfold catchUp
  split
  · refine .push rfl ?_
    have h : Effects slots (depth + (Rule.advance mode).arity) [.apply (Rule.advance mode)] (depth + 1) :=
      .apply (.nil _)
    rwa [harity] at h
  · exact .nil _

variable {flow : Dataflow} {needsSlot : Table Node Bool}

theorem effects_of_emits (hflow : flow.WellFormed) {size : Nat} {s s' : Emission} {ns : List Node} {ops : List Op}
    (h : Emits flow needsSlot s ns ops s') (hs : s.Sound size needsSlot) (hslots : s'.slots ≤ slots) (depth : Nat) :
    Effects slots depth ops (depth + ns.length) := by
  induction h generalizing depth with
  | nil s => exact .nil depth
  | @restore s s' n ns ops slot hstatus h ih =>
      have hlt : slot.index < slots := (hs.slot_lt n slot hstatus).trans_le (h.slots_le.trans hslots)
      have hrest := ih (hs.push _) hslots (depth + 1)
      rw [Nat.add_right_comm] at hrest
      exact .push (if_pos hlt) hrest
  | @leaf s s' n ns ops d op hstatus hd ho hop h ih =>
      have hfinish := h.slots_le.trans hslots
      rw [finish_slots] at hfinish
      have hrest := ih ((hs.push op).finish n) hslots (depth + 1)
      rw [Nat.add_right_comm] at hrest
      exact .push (effect_leafOp? hop) ((effects_saves hfinish depth).append hrest)
  | @op s s₁ s' n ns ops ops' d m e f hstatus hd ho hk hin h ihin ih =>
      have hfinish := h.slots_le.trans hslots
      rw [finish_slots] at hfinish
      have hrest := ih (((hin.sound hs).push _).finish n) hslots (depth + 1)
      rw [Nat.add_right_comm] at hrest
      have hargs := ihin hs ((Nat.le_add_right _ _).trans hfinish) depth
      rw [(hflow n d hd).arity m e f hk] at hargs
      exact hargs.append (.apply ((effects_saves hfinish depth).append hrest))

theorem effects_of_turns (hflow : flow.WellFormed) {size : Nat} {s s' : Emission} {ns : List Node} {ops : List Op}
    (h : Turns flow needsSlot s ns ops s') (hs : s.Sound size needsSlot) (hslots : s'.slots ≤ slots) :
    Effects slots 0 ops 0 := by
  induction h with
  | nil s => exact .nil 0
  | @cons s s₁ s' n ns ops ops' d m e f hstatus hd ho hk hin h ih =>
      have hfinish := h.slots_le.trans hslots
      rw [push_slots, finish_slots] at hfinish
      have hrest := ih (((((hin.sound hs).note n).push (.apply f)).finish n).push .discard) hslots
      have hargs := effects_of_emits hflow hin hs ((Nat.le_add_right _ _).trans hfinish) 0
      rw [(hflow n d hd).arity m e f hk] at hargs
      have hdiscard : Effects slots 1 (.discard :: ops') 0 := .cons rfl (Nat.le_refl _) hrest
      exact hargs.append (.apply ((effects_saves hfinish 0).append hdiscard))

variable {status : Table Node Status}

theorem effects_of_fresh (hflow : flow.WellFormed) {ns : List Node} {ops : List Op} (h : Fresh flow status ns ops)
    (hslots : ∀ n slot, status.get? n = some (.computed (some slot)) → slot.index < slots) (depth : Nat) :
    Effects slots depth ops (depth + ns.length) := by
  induction h generalizing depth with
  | nil => exact .nil depth
  | @restore n ns ops d slot hd ho hs h ih =>
      have hrest := ih (depth + 1)
      rw [Nat.add_right_comm] at hrest
      exact .push (if_pos (hslots n slot hs)) hrest
  | leaf hd ho hop h ih =>
      have hrest := ih (depth + 1)
      rw [Nat.add_right_comm] at hrest
      exact .push (effect_leafOp? hop) hrest
  | @op n ns ops ops' d m e f hd ho hk hin h ihin ih =>
      have hrest := ih (depth + 1)
      rw [Nat.add_right_comm] at hrest
      have hargs := ihin depth
      rw [(hflow n d hd).arity m e f hk] at hargs
      exact hargs.append (.apply hrest)

theorem effects_of_freshState {g : Graph} (hflow : g.dataflow.WellFormed) {eipLag : UInt32}
    {ps : List (Element × Node)} {ops : List Op} (h : FreshState g status eipLag ps ops)
    (hslots : ∀ n slot, status.get? n = some (.computed (some slot)) → slot.index < slots) (depth : Nat) :
    Effects slots depth ops (depth + ps.length) := by
  induction h generalizing depth with
  | nil => exact .nil depth
  | @cons p ps ops ops' hp h ih =>
      have hrest := ih (depth + 1)
      rw [Nat.add_right_comm] at hrest
      exact (effects_of_fresh hflow hp hslots depth).append ((effects_catchUp g.mode eipLag p.1 depth).append hrest)

theorem follow_of_effects {main : Bool} {pc depth deepest : Nat} {ops rest : List Op} {op : Op}
    (h : Effects slots depth ops 0) (hend : isEnd main op = true) :
    ∃ deepest', follow slots main pc depth deepest (ops ++ op :: rest) = .ok ⟨rest, pc + ops.length + 1, deepest'⟩ := by
  generalize hzero : 0 = stop at h
  induction h generalizing pc deepest with
  | nil depth =>
      subst hzero
      exact ⟨deepest, by simp [follow, hend]⟩
  | @cons depth depth' pops pushes op' ops hop hpops h ih =>
      have hnot : isEnd main op' = false := by
        cases op' with
        | ret | rethrow retired => cases hop
        | _ => rfl
      obtain ⟨deepest', hfollow⟩ : ∃ deepest', follow slots main (pc + 1) (depth - pops + pushes)
          (max deepest (depth - pops + pushes)) (ops ++ op :: rest) = .ok ⟨rest, pc + 1 + ops.length + 1, deepest'⟩ :=
        ih hzero
      refine ⟨deepest', ?_⟩
      rw [List.cons_append, follow, hnot, hop]
      simp only [Bool.false_eq_true, if_false, if_neg (Nat.not_lt.mpr hpops), hfollow, List.length_cons]
      congr 2
      omega

end Dynarec.Body
