import Dynarec.Procedure
import Dynarec.Proofs.DataflowEvaluation
import Dynarec.Proofs.EmissionRelation

namespace Dynarec

namespace Frame

variable {σ : Type} [Processor σ]

def Passes (ops : List Op) (f f' : Frame σ) : Prop :=
  ∀ pc rest, exec pc (ops ++ rest) f = exec (pc + ops.length) rest f'

theorem Passes.refl (f : Frame σ) : Passes [] f f := fun _ _ => rfl

theorem Passes.trans {ops ops' : List Op} {f f₁ f' : Frame σ} (h : Passes ops f f₁) (h' : Passes ops' f₁ f') :
    Passes (ops ++ ops') f f' := by
  intro pc rest
  rw [List.append_assoc, h, h', List.length_append, Nat.add_assoc]

theorem passes_of_step {op : Op} {f f' : Frame σ} (h : f.step op = (none, f')) : Passes [op] f f' := by
  intro pc rest
  rw [List.singleton_append, exec, h]
  rfl

theorem Passes.cons {op : Op} {ops : List Op} {f f₁ f' : Frame σ} (h : f.step op = (none, f₁))
    (h' : Passes ops f₁ f') : Passes (op :: ops) f f' :=
  (passes_of_step h).trans h'

theorem Passes.exec_stop {ops : List Op} {f f₁ f' : Frame σ} (h : Passes ops f f₁) (op : Op) {stop : Stop}
    (hstop : f₁.step op = (some stop, f')) (pc : Nat) (rest : List Op) :
    exec pc (ops ++ op :: rest) f = ⟨stop, pc + ops.length, f'⟩ := by
  rw [h, exec, hstop]

theorem apply_eq {fragment : Fragment} {f : Frame σ} {args rest : List UInt32} {reply : Reply} {cpu : σ}
    (hstack : f.stack = args.reverse ++ rest) (harity : args.length = fragment.arity)
    (hp : fragment.perform (args.getD · 0) f.cpu = (reply, cpu)) :
    f.step (.apply fragment) =
      match reply.result with
      | .ok (v, switched) => (none, ⟨cpu, v :: rest, f.slots, f.switched || switched⟩)
      | .error fault => (some (.faulted fault), ⟨cpu, rest, f.slots, f.switched⟩) := by
  have hlength : args.reverse.length = fragment.arity := by rw [List.length_reverse, harity]
  have hle : fragment.arity ≤ f.stack.length := by
    rw [hstack, List.length_append, hlength]
    exact Nat.le_add_right _ _
  have htake : (f.stack.take fragment.arity).reverse = args := by
    rw [hstack, ← hlength, List.take_left, List.reverse_reverse]
  have hdrop : f.stack.drop fragment.arity = rest := by rw [hstack, ← hlength, List.drop_left]
  rw [step, apply, if_pos hle]
  dsimp only
  rw [htake, hdrop, hp]
  cases reply <;> simp [Reply.result]

end Frame

namespace Emission

open Dynarec.Frame Evaluation Dataflow

variable {σ : Type} [Processor σ] {flow : Dataflow} {needsSlot : Table Node Bool} {ρ : Node → UInt32}

/-- The slots of the nodes that were kept hold their values. -/
def Holds (ρ : Node → UInt32) (s : Emission) (slots : Table Slot UInt32) : Prop :=
  ∀ n slot, s.status.get? n = some (.computed (some slot)) → slots.get? slot = some (ρ n)

theorem exists_saved {size : Nat} {s : Emission} {n : Node} {f : Frame σ} {rest : List UInt32}
    (hs : s.Sound size needsSlot) (hstack : f.stack = ρ n :: rest) (hheld : Holds ρ s f.slots)
    (hsize : (finish needsSlot s n).slots ≤ f.slots.size) :
    ∃ slots, Passes (saves needsSlot s n) f { f with slots } ∧ Holds ρ (finish needsSlot s n) slots ∧
      slots.size = f.slots.size := by
  rw [finish_slots] at hsize
  cases hneeds : needsSlot.getD n false with
  | false =>
      rw [saves, hneeds]
      refine ⟨f.slots, .refl f, ?_, rfl⟩
      intro x slot hx
      rcases computed_of_finish hx with hx | ⟨_, ho⟩
      · exact hheld x slot hx
      · simp [hneeds] at ho
  | true =>
      rw [saves, hneeds] at hsize
      rw [saves, hneeds]
      refine ⟨f.slots.set ⟨s.slots⟩ (ρ n), ?_, ?_, Table.size_set _ _ _⟩
      · apply passes_of_step
        rw [step, hstack]
        exact if_pos hsize
      · intro x slot hx
        rw [Table.get?_set]
        rcases computed_of_finish hx with hx | ⟨rfl, ho⟩
        · exact (if_neg (Nat.ne_of_gt (hs.slot_lt x slot hx))).trans (hheld x slot hx)
        · obtain rfl : slot = ⟨s.slots⟩ := by simpa [hneeds] using ho
          rw [if_pos rfl]
          exact if_pos hsize

theorem step_leaf {cpu₀ : σ} {d : Definition} {op : Op} {v : UInt32} (hop : leafOp? d.kind = some op)
    (hv : Settled σ (Interpreter.entryValues cpu₀) ρ d v) {f : Frame σ}
    (hget : ∀ e, Processor.get f.cpu e = Processor.get cpu₀ e) : f.step op = (none, f.push v) := by
  cases hk : d.kind with
  | entry e =>
      rw [hk] at hop
      cases hop
      rw [Settled, hk] at hv
      dsimp only at hv
      rw [Interpreter.entryValues, ElementMap.get_ofFn] at hv
      unfold entryOp
      split
      · rename_i hread
        rw [if_pos hread] at hv
        rw [step, hget, hv]
      · rename_i hread
        rw [if_neg hread] at hv
        rw [step, hv]
  | constant value =>
      rw [hk] at hop
      cases hop
      rw [Settled, hk] at hv
      rw [step, hv]
  | op m e fragment =>
      rw [hk] at hop
      cases hop

theorem step_restore {f : Frame σ} {slot : Slot} {v : UInt32} (h : f.slots.get? slot = some v) :
    f.step (.restore slot) = (none, f.push v) := by
  rw [step, h]

/-- Code for nodes pushes their values, and keeps those that are needed again. -/
theorem passes_emits (hflow : flow.WellFormed) {cpu₀ : σ} {k : Nat}
    (hρ : Consistent σ flow (Interpreter.entryValues cpu₀) ρ k) {size : Nat} {s s' : Emission} {ns : List Node}
    {ops : List Op} (h : Emits flow needsSlot s ns ops s') (hns : ∀ n ∈ ns, n.index < k)
    (hs : s.Sound size needsSlot) {f : Frame σ} (hget : ∀ e, Processor.get f.cpu e = Processor.get cpu₀ e)
    (hheld : Holds ρ s f.slots) (hsize : s'.slots ≤ f.slots.size) :
    ∃ slots, Passes ops f { f with stack := (ns.map ρ).reverse ++ f.stack, slots } ∧ Holds ρ s' slots ∧
      slots.size = f.slots.size := by
  -- the slots change on the way, but a slot once given to a node is not given to another
  induction h generalizing f with
  | nil s => exact ⟨f.slots, .refl f, hheld, rfl⟩
  | @restore s s' n ns ops slot hstatus h ih =>
      obtain ⟨slots, hpass, hheld', hsize'⟩ := ih (fun m hm => hns m (List.mem_cons_of_mem _ hm)) (hs.push _)
        (f := f.push (ρ n)) hget hheld hsize
      refine ⟨slots, ?_, hheld', hsize'⟩
      have := Passes.cons (step_restore (hheld n slot hstatus)) hpass
      simpa [Frame.push] using this
  | @leaf s s' n ns ops d op hstatus hd ho hop h ih =>
      have hvalue := hρ n d (hns n List.mem_cons_self) hd ho
      obtain ⟨slots₁, hsave, hheld₁, hsize₁⟩ := exists_saved (n := n) (hs.push op) (f := f.push (ρ n)) rfl hheld
        (h.slots_le.trans hsize)
      obtain ⟨slots, hpass, hheld', hsize'⟩ := ih (fun m hm => hns m (List.mem_cons_of_mem _ hm))
        ((hs.push op).finish n) (f := { f.push (ρ n) with slots := slots₁ }) hget hheld₁ (by rw [hsize₁]; exact hsize)
      refine ⟨slots, ?_, hheld', hsize'.trans hsize₁⟩
      have := Passes.cons (step_leaf hop hvalue hget) (hsave.trans hpass)
      simpa [Frame.push] using this
  | @op s s₁ s' n ns ops ops' d m e fragment hstatus hd ho hk hin h ihin ih =>
      have hfinish := h.slots_le.trans hsize
      have hn := hns n List.mem_cons_self
      have hwf := hflow n d hd
      have hvalue := hρ n d hn hd ho
      rw [Settled, hk] at hvalue
      have hs₁ := (hin.sound hs).push (.apply fragment)
      obtain ⟨slots₁, hargs, hheld₁, hsize₁⟩ := ihin (fun i hi => (hwf.inputs_lt i hi).trans hn) hs hget hheld
        (slots_le_of_finish hfinish :)
      have happly := apply_eq (f := { f with stack := (d.inputs.map ρ).reverse ++ f.stack, slots := slots₁ }) rfl
        (by rw [List.length_map, hwf.arity m e fragment hk]) (hvalue f.cpu)
      simp only [Reply.result, Bool.or_false] at happly
      obtain ⟨slots₂, hsave, hheld₂, hsize₂⟩ := exists_saved (n := n) hs₁
        (f := { f with stack := ρ n :: f.stack, slots := slots₁ }) rfl hheld₁ (by rw [hsize₁]; exact hfinish)
      obtain ⟨slots, hpass, hheld', hsize'⟩ := ih (fun i hi => hns i (List.mem_cons_of_mem _ hi)) (hs₁.finish n)
        (f := { f with stack := ρ n :: f.stack, slots := slots₂ }) hget hheld₂
        (by rw [hsize₂, hsize₁]; exact hsize)
      refine ⟨slots, ?_, hheld', hsize'.trans (hsize₂.trans hsize₁)⟩
      have := hargs.trans (Passes.cons happly (hsave.trans hpass))
      simpa using this

theorem passes_turns [SteadyProcessor σ] (hflow : flow.WellFormed) {cpu₀ : σ} {k : Nat}
    (hρ : Consistent σ flow (Interpreter.entryValues cpu₀) ρ k) {size : Nat} {s s' : Emission} {ns : List Node}
    {ops : List Op} (h : Turns flow needsSlot s ns ops s') (hns : ∀ n ∈ ns, n.index < k)
    (hs : s.Sound size needsSlot) {cpu cpu' : σ} {switched switched' : Bool}
    (hp : Performs flow ρ ns cpu switched cpu' switched') (hget : ∀ e, Processor.get cpu e = Processor.get cpu₀ e)
    {slots : Table Slot UInt32} (hheld : Holds ρ s slots) (hsize : s'.slots ≤ slots.size) :
    ∃ slots', Passes ops ⟨cpu, [], slots, switched⟩ ⟨cpu', [], slots', switched'⟩ ∧ Holds ρ s' slots' ∧
      slots'.size = slots.size := by
  induction h generalizing cpu switched slots with
  | nil s =>
      cases hp
      exact ⟨slots, .refl _, hheld, rfl⟩
  | @cons s s₁ s' n ns ops ops' d m e fragment hstatus hd ho hk hin h ih =>
      have hfinish := h.slots_le.trans hsize
      have hwf := hflow n d hd
      cases hp with
      | @cons _ _ d' m' e' fragment' reply _ cpu₁ _ _ switched₁ _ hd' hk' hperform hr hp =>
          -- both sides tell of the same definition
          rw [hd] at hd'
          cases hd'
          rw [hk] at hk'
          cases hk'
          have hn := hns n List.mem_cons_self
          have hs₁ := ((hin.sound hs).note n).push (.apply fragment)
          obtain ⟨slots₁, hargs, hheld₁, hsize₁⟩ := passes_emits hflow hρ hin
            (fun i hi => (hwf.inputs_lt i hi).trans hn) hs (f := ⟨cpu, [], slots, switched⟩) hget hheld
            (slots_le_of_finish hfinish :)
          have happly := apply_eq (f := ⟨cpu, (d.inputs.map ρ).reverse ++ [], slots₁, switched⟩) rfl
            (by rw [List.length_map, hwf.arity m e fragment hk]) hperform
          rw [hr] at happly
          obtain ⟨slots₂, hsave, hheld₂, hsize₂⟩ := exists_saved (n := n) hs₁
            (f := ⟨cpu₁, [ρ n], slots₁, switched || switched₁⟩) rfl hheld₁ (by rw [hsize₁]; exact hfinish)
          have hdiscard : Frame.step .discard (⟨cpu₁, [ρ n], slots₂, switched || switched₁⟩ : Frame σ) =
              (none, ⟨cpu₁, [], slots₂, switched || switched₁⟩) := rfl
          have hget₁ (x : Element) : Processor.get cpu₁ x = Processor.get cpu₀ x :=
            (Fragment.get_of_perform hperform x).trans (hget x)
          obtain ⟨slots', hpass, hheld', hsize'⟩ := ih (fun i hi => hns i (List.mem_cons_of_mem _ hi))
            ((hs₁.finish n).push .discard) hp hget₁ hheld₂ (by rw [hsize₂, hsize₁]; exact hsize)
          refine ⟨slots', ?_, hheld', hsize'.trans (hsize₂.trans hsize₁)⟩
          exact hargs.trans (Passes.cons happly (hsave.trans (Passes.cons hdiscard hpass)))

end Emission

end Dynarec
