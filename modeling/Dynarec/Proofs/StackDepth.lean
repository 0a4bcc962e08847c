import Dynarec.Procedure

namespace Dynarec

namespace Op

/-- A frame can execute the op as it is meant: the arguments are on the stack, the slot exists, and
the processor is asked only for elements that it has. -/
def Allowed {σ : Type} (f : Frame σ) : Op → Prop
  | read e => e.isReadable = true
  | constant _ | ret | rethrow _ => True
  | apply fragment => fragment.arity ≤ f.stack.length
  | save s => s.index < f.slots.size ∧ f.stack ≠ []
  | restore s => s.index < f.slots.size
  | discard => f.stack ≠ []
  | commit e => e.isCommitted = true ∧ f.stack ≠ []

end Op

namespace Body

theorem follow_cons {slots pc depth deepest : Nat} {main : Bool} {op : Op} {rest : List Op} {st : Stretch}
    (h : follow slots main pc depth deepest (op :: rest) = .ok st) :
    (isEnd main op = true ∧ depth = 0 ∧ st = ⟨rest, pc + 1, deepest⟩) ∨
      ∃ pops pushes, isEnd main op = false ∧ effect slots op = .ok (pops, pushes) ∧ pops ≤ depth ∧
        follow slots main (pc + 1) (depth - pops + pushes) (max deepest (depth - pops + pushes)) rest = .ok st := by
  rw [follow] at h
  cases he : isEnd main op with
  | true =>
      by_cases hd : depth = 0
      · rw [if_pos he, if_pos hd] at h
        exact .inl ⟨rfl, hd, (Except.ok.inj h).symm⟩
      · simp [he, hd] at h
  | false =>
      cases hf : effect slots op with
      | error what => simp [he, hf] at h
      | ok p =>
          obtain ⟨pops, pushes⟩ := p
          simp only [he, hf, Bool.false_eq_true, if_false] at h
          by_cases hp : depth < pops
          · simp [hp] at h
          · rw [if_neg hp] at h
            exact .inr ⟨pops, pushes, rfl, rfl, by omega, h⟩

theorem deepest_le_of_follow {slots pc depth deepest : Nat} {main : Bool} {ops : List Op} {st : Stretch}
    (h : follow slots main pc depth deepest ops = .ok st) : deepest ≤ st.deepest := by
  induction ops generalizing pc depth deepest with
  | nil => simp [follow] at h
  | cons op rest ih =>
      rcases follow_cons h with ⟨_, _, rfl⟩ | ⟨pops, pushes, _, _, _, hf⟩
      · exact Nat.le_refl _
      · exact Nat.le_trans (Nat.le_max_left _ _) (ih hf)

theorem effect_pushes_le {slots pops pushes : Nat} {op : Op}
    (h : effect slots op = .ok (pops, pushes)) : pushes ≤ 1 := by
  have hp : ∀ p, effect slots op = .ok p → p.2 ≤ 1 := by
    cases op with
    | read e | save s | restore s | commit e =>
        intro p hp
        simp only [effect] at hp
        split at hp
        · cases hp; decide
        · cases hp
    | constant value | apply f | discard => rintro _ ⟨⟩; simp
    | ret | rethrow retired => rintro _ ⟨⟩
  exact hp _ h

theorem follow_deepest_le {slots pc depth deepest : Nat} {main : Bool} {ops : List Op} {st : Stretch}
    (h : follow slots main pc depth deepest ops = .ok st) :
    pc < st.stop ∧ st.stop + st.rest.length = pc + ops.length ∧
      st.deepest + pc ≤ max (deepest + pc) (depth + st.stop) := by
  induction ops generalizing pc depth deepest with
  | nil => simp [follow] at h
  | cons op rest ih =>
      rcases follow_cons h with ⟨_, _, rfl⟩ | ⟨pops, pushes, _, he, hp, hf⟩
      · simp only [List.length_cons]
        omega
      · have hpush := effect_pushes_le he
        obtain ⟨h₁, h₂, h₃⟩ := ih hf
        simp only [List.length_cons]
        omega

theorem rest_of_follow (code : List Op) {slots pc depth deepest : Nat} {main : Bool} {st : Stretch}
    (h : follow slots main pc depth deepest (code.drop pc) = .ok st) : st.rest = code.drop st.stop := by
  generalize hops : code.drop pc = ops at h
  induction ops generalizing pc depth deepest with
  | nil => simp [follow] at h
  | cons op rest ih =>
      have hrest : code.drop (pc + 1) = rest := by
        rw [← List.drop_drop, hops, List.drop_succ_cons, List.drop_zero]
      rcases follow_cons h with ⟨_, _, rfl⟩ | ⟨pops, pushes, _, _, _, hf⟩
      · exact hrest.symm
      · exact ih hrest hf

theorem follow_of_checkHandlers {slots : Nat} {code : List Op} {s last : Stretch} {targets : List Nat}
    (h : checkHandlers slots s targets = .ok last) (hs : s.rest = code.drop s.stop) :
    s.deepest ≤ last.deepest ∧
      ∀ t ∈ targets, ∃ deepest st, follow slots false t 0 deepest (code.drop t) = .ok st ∧
        st.deepest ≤ last.deepest := by
  induction targets generalizing s with
  | nil =>
      cases h
      exact ⟨Nat.le_refl _, by simp⟩
  | cons target targets ih =>
      rw [checkHandlers] at h
      by_cases ht : target = s.stop
      · rw [if_pos ht] at h
        cases hf : follow slots false s.stop 0 s.deepest s.rest with
        | error e => simp [hf, bind, Except.bind] at h
        | ok next =>
            rw [hf] at h
            rw [hs] at hf
            obtain ⟨hd, hall⟩ := ih h (rest_of_follow code hf)
            refine ⟨Nat.le_trans (deepest_le_of_follow hf) hd, ?_⟩
            intro t hmem
            rcases List.mem_cons.mp hmem with rfl | hmem
            · exact ⟨s.deepest, next, by rw [ht]; exact hf, hd⟩
            · exact hall t hmem
      · simp [ht] at h

theorem mem_insertTarget (t : Nat) (ts : List Nat) (u : Nat) : u ∈ insertTarget t ts ↔ u = t ∨ u ∈ ts := by
  induction ts with
  | nil => simp [insertTarget]
  | cons v ts ih =>
      rw [insertTarget]
      split
      · simp
      · split
        · simp_all
        · rw [List.mem_cons, ih, List.mem_cons, or_left_comm]

theorem target_mem_targets {h : Handler} {handlers : List Handler} (hh : h ∈ handlers) :
    h.target ∈ targets handlers := by
  induction handlers with
  | nil => cases hh
  | cons h' handlers ih =>
      rw [targets, List.map_cons, List.foldr_cons, mem_insertTarget]
      rcases List.mem_cons.mp hh with rfl | hh
      · exact .inl rfl
      · exact .inr (ih hh)

/-- Ranges that verification accepts from `previous` on protect nothing before it, and no op twice. -/
theorem length_filter_covers_le {mainStop previous : Nat} {handlers : List Handler}
    (h : checkRanges mainStop previous handlers = .ok ()) (pc : Nat) :
    (handlers.filter (·.covers pc)).length ≤ if previous ≤ pc then 1 else 0 := by
  induction handlers generalizing previous with
  | nil => simp
  | cons handler handlers ih =>
      rw [checkRanges] at h
      split at h
      · rename_i hr
        have hrest := ih h
        rw [List.filter_cons]
        cases hc : handler.covers pc with
        | false =>
            simp only [Bool.false_eq_true, if_false]
            split at hrest <;> split <;> omega
        | true =>
            simp only [Handler.covers, Bool.and_eq_true, decide_eq_true_eq] at hc
            rw [if_neg (by omega)] at hrest
            rw [if_pos rfl, if_pos (by omega), List.length_cons]
            omega
      · cases h

theorem verify_ok {b : Body} {maxStack : Nat} (h : b.verify = .ok maxStack) :
    ∃ main last, follow b.slots true 0 0 0 b.code = .ok main ∧
      checkRanges main.stop 0 b.handlers = .ok () ∧
      checkHandlers b.slots main (targets b.handlers) = .ok last ∧
      last.stop = b.code.length ∧ last.deepest = maxStack ∧ b.code.length ≤ limit := by
  unfold verify at h
  dsimp only at h
  split at h
  · cases h
  · rename_i hcount
    split at h
    · cases h
    · cases hmain : follow b.slots true 0 0 0 b.code with
      | error e => simp [hmain, bind, Except.bind] at h
      | ok main =>
          cases hranges : checkRanges main.stop 0 b.handlers with
          | error e => simp [hmain, hranges, bind, Except.bind] at h
          | ok u =>
              cases hlast : checkHandlers b.slots main (targets b.handlers) with
              | error e => simp [hmain, hranges, hlast, bind, Except.bind] at h
              | ok last =>
                  simp only [hmain, hranges, hlast, bind, Except.bind] at h
                  split at h
                  · cases h
                  · rename_i hstop
                    split at h
                    · cases h
                    · exact ⟨main, last, rfl, hranges, hlast, by omega, Except.ok.inj h, by omega⟩

end Body

namespace Frame

variable {σ : Type} [Processor σ]

theorem apply_slots (fragment : Fragment) (f : Frame σ) : (f.apply fragment).2.slots = f.slots := by
  unfold apply
  split
  · dsimp only
    split <;> rfl
  · rfl

theorem apply_of_arity_le {fragment : Fragment} {f : Frame σ} (h : fragment.arity ≤ f.stack.length) :
    ((f.apply fragment).1 = none ∧ (f.apply fragment).2.stack.length = f.stack.length - fragment.arity + 1) ∨
      ∃ fault, (f.apply fragment).1 = some (.faulted fault) := by
  unfold apply
  rw [if_pos h]
  dsimp only
  split
  · exact .inl ⟨rfl, by simp⟩
  · exact .inl ⟨rfl, by simp⟩
  · exact .inr ⟨_, rfl⟩

theorem step_slots_size (op : Op) (f : Frame σ) : (f.step op).2.slots.size = f.slots.size := by
  cases op with
  | apply fragment => exact congrArg Table.size (apply_slots fragment f)
  | save slot =>
      simp only [step]
      split
      · rfl
      · split
        · exact Table.size_set _ _ _
        · rfl
  | restore slot => simp only [step]; split <;> rfl
  | discard | commit e => simp only [step]; split <;> rfl
  | read e | constant value | ret | rethrow retired => rfl

theorem step_of_effect {op : Op} {f : Frame σ} {pops pushes : Nat}
    (he : Body.effect f.slots.size op = .ok (pops, pushes)) (hp : pops ≤ f.stack.length) :
    op.Allowed f ∧
      (((f.step op).1 = none ∧ (f.step op).2.stack.length = f.stack.length - pops + pushes) ∨
        ∃ fault, (f.step op).1 = some (.faulted fault)) := by
  cases op with
  | read e =>
      by_cases hr : e.isReadable = true
      · simp only [Body.effect, hr, if_true, Except.ok.injEq, Prod.mk.injEq] at he
        obtain ⟨rfl, rfl⟩ := he
        exact ⟨hr, .inl ⟨rfl, rfl⟩⟩
      · simp [Body.effect, hr] at he
  | constant value =>
      simp only [Body.effect, Except.ok.injEq, Prod.mk.injEq] at he
      obtain ⟨rfl, rfl⟩ := he
      exact ⟨trivial, .inl ⟨rfl, rfl⟩⟩
  | apply fragment =>
      simp only [Body.effect, Except.ok.injEq, Prod.mk.injEq] at he
      obtain ⟨rfl, rfl⟩ := he
      exact ⟨hp, apply_of_arity_le hp⟩
  | save slot =>
      by_cases hs : slot.index < f.slots.size
      · simp only [Body.effect, hs, if_true, Except.ok.injEq, Prod.mk.injEq] at he
        obtain ⟨rfl, rfl⟩ := he
        cases hstack : f.stack with
        | nil => simp [hstack] at hp
        | cons value rest => exact ⟨⟨hs, by simp [hstack]⟩, .inl (by simp [step, hstack, hs])⟩
      · simp [Body.effect, hs] at he
  | restore slot =>
      by_cases hs : slot.index < f.slots.size
      · simp only [Body.effect, hs, if_true, Except.ok.injEq, Prod.mk.injEq] at he
        obtain ⟨rfl, rfl⟩ := he
        obtain ⟨value, hget⟩ : ∃ value, f.slots.get? slot = some value := ⟨_, Array.getElem?_eq_getElem hs⟩
        exact ⟨hs, .inl (by simp [step, hget, push])⟩
      · simp [Body.effect, hs] at he
  | discard =>
      simp only [Body.effect, Except.ok.injEq, Prod.mk.injEq] at he
      obtain ⟨rfl, rfl⟩ := he
      cases hstack : f.stack with
      | nil => simp [hstack] at hp
      | cons value rest => exact ⟨by simp [Op.Allowed, hstack], .inl (by simp [step, hstack])⟩
  | commit e =>
      by_cases hc : e.isCommitted = true
      · simp only [Body.effect, hc, if_true, Except.ok.injEq, Prod.mk.injEq] at he
        obtain ⟨rfl, rfl⟩ := he
        cases hstack : f.stack with
        | nil => simp [hstack] at hp
        | cons value rest => exact ⟨⟨hc, by simp [hstack]⟩, .inl (by simp [step, hstack])⟩
      · simp [Body.effect, hc] at he
  | ret | rethrow retired => simp [Body.effect] at he

end Frame

end Dynarec
