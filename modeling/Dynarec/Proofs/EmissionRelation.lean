import Dynarec.Body.Generate
import Dynarec.Proofs.DataflowShape

namespace Dynarec.Emission

def leafOp? : Kind → Option Op
  | .entry e => some (entryOp e)
  | .constant value => some (.constant value)
  | .op _ _ _ => none

def note (s : Emission) (n : Node) : Emission := { s with applyAt := s.applyAt.set n (some s.code.size) }

def saves (needsSlot : Table Node Bool) (s : Emission) (n : Node) : List Op :=
  if needsSlot.getD n false then [.save ⟨s.slots⟩] else []

variable {flow : Dataflow} {needsSlot : Table Node Bool}

@[simp] theorem push_code (s : Emission) (op : Op) : (s.push op).code.toList = s.code.toList ++ [op] := by
  simp [push]

@[simp] theorem push_status (s : Emission) (op : Op) : (s.push op).status = s.status := rfl

@[simp] theorem push_applyAt (s : Emission) (op : Op) : (s.push op).applyAt = s.applyAt := rfl

@[simp] theorem push_slots (s : Emission) (op : Op) : (s.push op).slots = s.slots := rfl

@[simp] theorem finish_code (s : Emission) (n : Node) :
    (finish needsSlot s n).code.toList = s.code.toList ++ saves needsSlot s n := by
  unfold finish saves
  split <;> simp

@[simp] theorem saves_push (s : Emission) (op : Op) (n : Node) :
    saves needsSlot (s.push op) n = saves needsSlot s n := rfl

@[simp] theorem saves_note (s : Emission) (x n : Node) : saves needsSlot (s.note x) n = saves needsSlot s n := rfl

@[simp] theorem note_code (s : Emission) (n : Node) : (s.note n).code = s.code := rfl

@[simp] theorem push_size (s : Emission) (op : Op) : (s.push op).code.size = s.code.size + 1 :=
  Array.size_push op

@[simp] theorem finish_size (s : Emission) (n : Node) :
    (finish needsSlot s n).code.size = s.code.size + (saves needsSlot s n).length := by
  rw [← Array.length_toList, finish_code, List.length_append, Array.length_toList]

@[simp] theorem finish_applyAt (s : Emission) (n : Node) : (finish needsSlot s n).applyAt = s.applyAt := by
  unfold finish
  split <;> rfl

@[simp] theorem finish_slots (s : Emission) (n : Node) :
    (finish needsSlot s n).slots = s.slots + (saves needsSlot s n).length := by
  unfold finish saves
  split <;> rfl

theorem slots_le_of_finish {s : Emission} {n : Node} {k : Nat} (h : (finish needsSlot s n).slots ≤ k) :
    s.slots ≤ k := by
  rw [finish_slots] at h
  exact (Nat.le_add_right _ _).trans h

theorem finish_status (s : Emission) (n : Node) :
    (finish needsSlot s n).status =
      s.status.set n (.computed (if needsSlot.getD n false then some ⟨s.slots⟩ else none)) := by
  unfold finish
  split <;> rfl

theorem get?_finish_self {s : Emission} {n : Node} (hn : n.index < s.status.size) :
    (finish needsSlot s n).status.get? n =
      some (.computed (if needsSlot.getD n false then some ⟨s.slots⟩ else none)) := by
  rw [finish_status, Table.get?_set, if_pos rfl]
  exact if_pos hn

theorem get?_finish_of_ne (s : Emission) {n x : Node} (h : n ≠ x) :
    (finish needsSlot s n).status.get? x = s.status.get? x := by
  rw [finish_status, Table.get?_set]
  exact if_neg (fun hi => h (Node.ext_index hi))

theorem computed_of_finish {s : Emission} {n x : Node} {o : Option Slot}
    (hx : (finish needsSlot s n).status.get? x = some (.computed o)) :
    s.status.get? x = some (.computed o) ∨ (n = x ∧ o = if needsSlot.getD n false then some ⟨s.slots⟩ else none) := by
  by_cases hn : n = x
  · subst hn
    rw [finish_status, Table.get?_set, if_pos rfl] at hx
    split at hx
    · cases hx
      exact .inr ⟨rfl, rfl⟩
    · cases hx
  · rw [get?_finish_of_ne s hn] at hx
    exact .inl hx

/-- `Emits s ns ops s'` says that the main code, from `s` on, pushes the values of `ns` by `ops`. It
restores what is computed, and computes each other node after its inputs. -/
inductive Emits (flow : Dataflow) (needsSlot : Table Node Bool) :
    Emission → List Node → List Op → Emission → Prop
  | nil (s : Emission) : Emits flow needsSlot s [] [] s
  | restore {s s' : Emission} {n : Node} {ns : List Node} {ops : List Op} {slot : Slot}
      (hs : s.status.get? n = some (.computed (some slot)))
      (h : Emits flow needsSlot (s.push (.restore slot)) ns ops s') :
      Emits flow needsSlot s (n :: ns) (.restore slot :: ops) s'
  | leaf {s s' : Emission} {n : Node} {ns : List Node} {ops : List Op} {d : Definition} {op : Op}
      (hs : s.status.get? n = some .pending) (hd : flow.get? n = some d) (ho : d.isOrdered = false)
      (hop : leafOp? d.kind = some op)
      (h : Emits flow needsSlot (finish needsSlot (s.push op) n) ns ops s') :
      Emits flow needsSlot s (n :: ns) (op :: (saves needsSlot s n ++ ops)) s'
  | op {s s₁ s' : Emission} {n : Node} {ns : List Node} {ops ops' : List Op} {d : Definition}
      {m : Microcode} {e : Element} {f : Fragment}
      (hs : s.status.get? n = some .pending) (hd : flow.get? n = some d) (ho : d.isOrdered = false)
      (hk : d.kind = .op m e f) (hin : Emits flow needsSlot s d.inputs ops s₁)
      (h : Emits flow needsSlot (finish needsSlot (s₁.push (.apply f)) n) ns ops' s') :
      Emits flow needsSlot s (n :: ns) (ops ++ .apply f :: (saves needsSlot s₁ n ++ ops')) s'

theorem leafOp?_eq_some {k : Kind} {op : Op} (h : leafOp? k = some op) (m : Microcode) (e : Element) (f : Fragment) :
    k ≠ .op m e f := by
  rintro rfl
  cases h

theorem read_or_constant_of_leafOp? {k : Kind} {op : Op} (h : leafOp? k = some op) :
    (∃ e, op = .read e) ∨ ∃ value, op = .constant value := by
  cases k with
  | entry e =>
      rw [leafOp?, entryOp] at h
      split at h <;> cases h
      · exact .inl ⟨e, rfl⟩
      · exact .inr ⟨0, rfl⟩
  | constant value =>
      cases h
      exact .inr ⟨value, rfl⟩
  | op m e f => cases h

theorem leafOp?_eq_none {k : Kind} (h : leafOp? k = none) : ∃ m e f, k = .op m e f := by
  cases k with
  | op m e f => exact ⟨m, e, f, rfl⟩
  | entry e => cases h
  | constant value => cases h

theorem emit_of_leaf {fuel : Nat} {root : Bool} {s : Emission} {n : Node} {d : Definition} {op : Op}
    (hs : s.status.get? n = some .pending) (hd : flow.get? n = some d) (ho : d.isOrdered = false)
    (hop : leafOp? d.kind = some op) :
    emit flow needsSlot (fuel + 1) root s n = .ok (finish needsSlot (s.push op) n) := by
  rw [emit, hs, hd]
  simp only [ho, Bool.false_and, Bool.false_eq_true, if_false]
  cases hk : d.kind with
  | entry e =>
      rw [hk] at hop
      cases hop
      rfl
  | constant value =>
      rw [hk] at hop
      cases hop
      rfl
  | op m e f => exact absurd hk (leafOp?_eq_some hop m e f)

theorem emit_of_op {fuel : Nat} {root : Bool} {s s₁ : Emission} {n : Node} {d : Definition} {m : Microcode}
    {e : Element} {f : Fragment} (hs : s.status.get? n = some .pending) (hd : flow.get? n = some d)
    (hroot : d.isOrdered = true → root = true) (hk : d.kind = .op m e f)
    (hin : d.inputs.foldlM (emit flow needsSlot fuel false) s = .ok s₁) :
    emit flow needsSlot (fuel + 1) root s n =
      .ok (finish needsSlot ((if d.isOrdered then s₁.note n else s₁).push (.apply f)) n) := by
  have hturn : (d.isOrdered && !root) = false := by
    cases ho : d.isOrdered with
    | false => rfl
    | true => simp [hroot ho]
  rw [emit, hs, hd]
  simp only [hturn, Bool.false_eq_true, if_false, hk, hin]
  rfl

theorem Emits.append {s s₁ s' : Emission} {ns ms : List Node} {ops ops' : List Op}
    (h : Emits flow needsSlot s ns ops s₁) (h' : Emits flow needsSlot s₁ ms ops' s') :
    Emits flow needsSlot s (ns ++ ms) (ops ++ ops') s' := by
  induction h with
  | nil s => exact h'
  | restore hs _ ih => exact .restore hs (ih h')
  | leaf hs hd ho hop _ ih =>
      simpa only [List.cons_append, List.append_assoc] using Emits.leaf hs hd ho hop (ih h')
  | op hs hd ho hk hin _ _ ih =>
      simpa only [List.cons_append, List.append_assoc] using Emits.op hs hd ho hk hin (ih h')

theorem Emits.code {s s' : Emission} {ns : List Node} {ops : List Op} (h : Emits flow needsSlot s ns ops s') :
    s'.code.toList = s.code.toList ++ ops := by
  induction h with
  | nil s => simp
  | restore _ _ ih => simpa using ih
  | leaf _ _ _ _ _ ih =>
      rw [ih]
      simp
  | op _ _ _ _ _ _ ihin ih =>
      rw [ih]
      simp [ihin]

theorem Emits.size_eq {s s' : Emission} {ns : List Node} {ops : List Op} (h : Emits flow needsSlot s ns ops s') :
    s'.code.size = s.code.size + ops.length := by
  rw [← Array.length_toList, h.code, List.length_append, Array.length_toList]

theorem Emits.applyAt {s s' : Emission} {ns : List Node} {ops : List Op} (h : Emits flow needsSlot s ns ops s') :
    s'.applyAt = s.applyAt := by
  induction h with
  | nil s => rfl
  | restore _ _ ih => simpa using ih
  | leaf _ _ _ _ _ ih => simpa using ih
  | op _ _ _ _ _ _ ihin ih => simpa [ihin] using ih

theorem Emits.computed {s s' : Emission} {ns : List Node} {ops : List Op} (h : Emits flow needsSlot s ns ops s')
    {x : Node} {o : Option Slot} (hx : s.status.get? x = some (.computed o)) :
    s'.status.get? x = some (.computed o) := by
  induction h with
  | nil s => exact hx
  | restore _ _ ih => exact ih hx
  | @leaf s s' n ns ops d op hs hd ho hop h ih =>
      apply ih
      rw [get?_finish_of_ne, push_status, hx]
      rintro rfl
      rw [hs] at hx
      cases hx
  | @op s s₁ s' n ns ops ops' d m e f hs hd ho hk hin h ihin ih =>
      apply ih
      rw [get?_finish_of_ne, push_status, ihin hx]
      rintro rfl
      rw [hs] at hx
      cases hx

/-- Ordered nodes are left to their own turns. -/
theorem Emits.get?_of_isOrdered {s s' : Emission} {ns : List Node} {ops : List Op}
    (h : Emits flow needsSlot s ns ops s') {x : Node} (hx : flow.isOrdered x = true) :
    s'.status.get? x = s.status.get? x := by
  have hne {n : Node} {d : Definition} (hd : flow.get? n = some d) (ho : d.isOrdered = false) : n ≠ x := by
    rintro rfl
    rw [Dataflow.isOrdered_eq hd, ho] at hx
    cases hx
  induction h with
  | nil s => rfl
  | restore _ _ ih => exact ih
  | leaf _ hd ho _ _ ih => rw [ih, get?_finish_of_ne _ (hne hd ho), push_status]
  | op _ hd ho _ _ _ ihin ih => rw [ih, get?_finish_of_ne _ (hne hd ho), push_status, ihin]

/-- What holds of every emission: slots are given out one by one, to the nodes that need them. -/
structure Sound (size : Nat) (needsSlot : Table Node Bool) (s : Emission) : Prop where
  size : s.status.size = size
  slot_lt : ∀ n slot, s.status.get? n = some (.computed (some slot)) → slot.index < s.slots
  kept : ∀ n o, s.status.get? n = some (.computed o) → o.isSome = needsSlot.getD n false
  slots_le : s.slots ≤ s.code.size

theorem get?_initial {size : Nat} {n : Node} (hn : n.index < size) :
    (initial size).status.get? n = some .pending := by
  rw [initial, Table.get?_replicate]
  exact if_pos hn

theorem get?_initial_ne (size : Nat) (n : Node) (o : Option Slot) :
    (initial size).status.get? n ≠ some (.computed o) := by
  rw [initial, Table.get?_replicate]
  split <;> simp

theorem sound_initial (size : Nat) : (initial size).Sound size needsSlot where
  size := Table.size_replicate _ _
  slot_lt n _ h := absurd h (get?_initial_ne size n _)
  kept n o h := absurd h (get?_initial_ne size n o)
  slots_le := Nat.le_refl _

theorem Sound.push {size : Nat} {s : Emission} (h : s.Sound size needsSlot) (op : Op) :
    (s.push op).Sound size needsSlot :=
  ⟨h.size, h.slot_lt, h.kept, by simpa using Nat.le_succ_of_le h.slots_le⟩

theorem Sound.note {size : Nat} {s : Emission} (h : s.Sound size needsSlot) (n : Node) :
    (s.note n).Sound size needsSlot :=
  ⟨h.size, h.slot_lt, h.kept, h.slots_le⟩

theorem Sound.finish {size : Nat} {s : Emission} (h : s.Sound size needsSlot) (n : Node) :
    (finish needsSlot s n).Sound size needsSlot := by
  refine ⟨?_, ?_, ?_, ?_⟩
  · rw [finish_status, Table.size_set, h.size]
  · intro x slot hx
    rw [finish_slots]
    rcases computed_of_finish hx with hx | ⟨rfl, ho⟩
    · exact Nat.lt_add_right _ (h.slot_lt x slot hx)
    · split at ho
      · rename_i hneeds
        cases ho
        simp [saves, hneeds]
      · cases ho
  · intro x o hx
    rcases computed_of_finish hx with hx | ⟨rfl, rfl⟩
    · exact h.kept x o hx
    · cases needsSlot.getD n false <;> rfl
  · rw [finish_slots, finish_size]
    exact Nat.add_le_add_right h.slots_le _

theorem Emits.sound {size : Nat} {s s' : Emission} {ns : List Node} {ops : List Op}
    (h : Emits flow needsSlot s ns ops s') (hs : s.Sound size needsSlot) : s'.Sound size needsSlot := by
  induction h with
  | nil s => exact hs
  | restore _ _ ih => exact ih (hs.push _)
  | leaf _ _ _ _ _ ih => exact ih ((hs.push _).finish _)
  | op _ _ _ _ _ _ ihin ih => exact ih (((ihin hs).push _).finish _)

theorem Emits.slots_le {s s' : Emission} {ns : List Node} {ops : List Op}
    (h : Emits flow needsSlot s ns ops s') : s.slots ≤ s'.slots := by
  induction h with
  | nil s => exact Nat.le_refl _
  | restore _ _ ih => exact ih
  | leaf _ _ _ _ _ ih => exact (slots_le_of_finish ih :)
  | op _ _ _ _ _ _ ihin ih => exact ihin.trans (slots_le_of_finish ih :)

/-- `Turns s ns ops s'` says that the main code, from `s` on, computes the ordered nodes `ns` by `ops`,
each for its effect or its fault. -/
inductive Turns (flow : Dataflow) (needsSlot : Table Node Bool) :
    Emission → List Node → List Op → Emission → Prop
  | nil (s : Emission) : Turns flow needsSlot s [] [] s
  | cons {s s₁ s' : Emission} {n : Node} {ns : List Node} {ops ops' : List Op} {d : Definition}
      {m : Microcode} {e : Element} {f : Fragment}
      (hs : s.status.get? n = some .pending) (hd : flow.get? n = some d) (ho : d.isOrdered = true)
      (hk : d.kind = .op m e f) (hin : Emits flow needsSlot s d.inputs ops s₁)
      (h : Turns flow needsSlot ((finish needsSlot ((s₁.note n).push (.apply f)) n).push .discard) ns ops' s') :
      Turns flow needsSlot s (n :: ns) (ops ++ .apply f :: (saves needsSlot s₁ n ++ .discard :: ops')) s'

theorem Turns.code {s s' : Emission} {ns : List Node} {ops : List Op} (h : Turns flow needsSlot s ns ops s') :
    s'.code.toList = s.code.toList ++ ops := by
  induction h with
  | nil s => simp
  | cons _ _ _ _ hin _ ih =>
      rw [ih]
      simp [hin.code]

theorem Turns.size_eq {s s' : Emission} {ns : List Node} {ops : List Op} (h : Turns flow needsSlot s ns ops s') :
    s'.code.size = s.code.size + ops.length := by
  rw [← Array.length_toList, h.code, List.length_append, Array.length_toList]

theorem Turns.computed {s s' : Emission} {ns : List Node} {ops : List Op} (h : Turns flow needsSlot s ns ops s')
    {x : Node} {o : Option Slot} (hx : s.status.get? x = some (.computed o)) :
    s'.status.get? x = some (.computed o) := by
  induction h with
  | nil s => exact hx
  | @cons s s₁ s' n ns ops ops' d m e f hs hd ho hk hin h ih =>
      apply ih
      rw [push_status, get?_finish_of_ne]
      · exact hin.computed hx
      · rintro rfl
        rw [hs] at hx
        cases hx

theorem Turns.sound {size : Nat} {s s' : Emission} {ns : List Node} {ops : List Op}
    (h : Turns flow needsSlot s ns ops s') (hs : s.Sound size needsSlot) : s'.Sound size needsSlot := by
  induction h with
  | nil s => exact hs
  | cons _ _ _ _ hin _ ih => exact ih (((((hin.sound hs).note _).push _).finish _).push _)

theorem Turns.slots_le {s s' : Emission} {ns : List Node} {ops : List Op}
    (h : Turns flow needsSlot s ns ops s') : s.slots ≤ s'.slots := by
  induction h with
  | nil s => exact Nat.le_refl _
  | cons _ _ _ _ hin _ ih => exact hin.slots_le.trans (slots_le_of_finish ih :)

theorem Turns.exists_computed {s s' : Emission} {ns : List Node} {ops : List Op}
    (h : Turns flow needsSlot s ns ops s') (hs : s.Sound flow.size needsSlot) {x : Node} (hx : x ∈ ns) :
    ∃ o, s'.status.get? x = some (.computed o) := by
  induction h with
  | nil s => cases hx
  | @cons s s₁ s' n ns ops ops' d m e f _ hd _ _ hin h ih =>
      have hs₁ := (((hin.sound hs).note n).push (.apply f))
      rcases List.mem_cons.mp hx with rfl | hx
      · exact ⟨_, h.computed (get?_finish_self (by rw [hs₁.size]; exact Dataflow.lt_size_of_get? hd))⟩
      · exact ih ((hs₁.finish n).push _) hx

def place (s : Emission) (n : Node) : Nat := ((s.applyAt.get? n).join).getD 0

theorem Turns.applyAt_of_not_mem {s s' : Emission} {ns : List Node} {ops : List Op}
    (h : Turns flow needsSlot s ns ops s') {x : Node} (hx : x ∉ ns) : s'.applyAt.get? x = s.applyAt.get? x := by
  induction h with
  | nil s => rfl
  | @cons s s₁ s' n ns ops ops' d m e f _ _ _ _ hin _ ih =>
      rw [ih (fun h => hx (List.mem_cons_of_mem _ h)), push_applyAt, finish_applyAt, push_applyAt, note,
        Table.get?_set, hin.applyAt]
      have hne : n ≠ x := by
        rintro rfl
        exact hx List.mem_cons_self
      exact if_neg (fun hi => hne (Node.ext_index hi))

theorem Turns.applyAt_self {s₁ s' : Emission} {n : Node} {f : Fragment} {ns : List Node} {ops : List Op}
    (h : Turns flow needsSlot ((finish needsSlot ((s₁.note n).push (.apply f)) n).push .discard) ns ops s')
    (hn : n ∉ ns) (hlt : n.index < s₁.applyAt.size) : s'.applyAt.get? n = some (some s₁.code.size) := by
  rw [h.applyAt_of_not_mem hn, push_applyAt, finish_applyAt, push_applyAt, note, Table.get?_set, if_pos rfl]
  exact if_pos hlt

theorem Turns.places {s s' : Emission} {ns : List Node} {ops : List Op}
    (h : Turns flow needsSlot s ns ops s') (hns : ns.Nodup) (hsize : s.applyAt.size = flow.size) :
    (∀ n ∈ ns, (s'.applyAt.get? n).join = some (s'.place n) ∧
        s.code.size ≤ s'.place n ∧ s'.place n < s'.code.size) ∧
      ns.Pairwise (fun a b => s'.place a < s'.place b) := by
  induction h with
  | nil s => exact ⟨by simp, .nil⟩
  | @cons s s₁ s' n ns ops ops' d m e f _ hd _ _ hin h ih =>
      obtain ⟨hn, hns⟩ := List.nodup_cons.mp hns
      have hsize₁ : s₁.applyAt.size = flow.size := by rw [hin.applyAt, hsize]
      have hat := h.applyAt_self hn (by rw [hsize₁]; exact Dataflow.lt_size_of_get? hd)
      have hplace : s'.place n = s₁.code.size := by simp [place, hat]
      have hle := hin.size_eq
      have hstart := h.size_eq
      rw [push_size, finish_size, push_size, note_code] at hstart
      obtain ⟨hall, hpair⟩ := ih hns (by rw [push_applyAt, finish_applyAt]; exact (Table.size_set _ _ _).trans hsize₁)
      rw [push_size, finish_size, push_size, note_code] at hall
      refine ⟨?_, List.pairwise_cons.mpr ⟨?_, hpair⟩⟩
      · intro x hx
        rcases List.mem_cons.mp hx with rfl | hx
        · rw [hplace, hat]
          exact ⟨rfl, by omega, by omega⟩
        · obtain ⟨hget, hfirst, hlast⟩ := hall x hx
          exact ⟨hget, by omega, hlast⟩
      · intro x hx
        have hfirst := (hall x hx).2.1
        omega

/-- What stands before the `apply` of an ordered node: the turns of the earlier ones, and the code for
its inputs. -/
theorem Turns.split {s s' : Emission} {before after : List Node} {n : Node} {ops : List Op}
    (h : Turns flow needsSlot s (before ++ n :: after) ops s') (hn : n ∉ after) (hsize : s.applyAt.size = flow.size) :
    ∃ ops₁ s₁ ops₂ s₂ rest d m e f, Turns flow needsSlot s before ops₁ s₁ ∧ flow.get? n = some d ∧
      d.kind = .op m e f ∧ Emits flow needsSlot s₁ d.inputs ops₂ s₂ ∧ ops = ops₁ ++ (ops₂ ++ .apply f :: rest) ∧
      s'.place n = s.code.size + ops₁.length + ops₂.length ∧ s₂.slots ≤ s'.slots ∧
      ∀ x o, s₁.status.get? x = some (.computed o) → s'.status.get? x = some (.computed o) := by
  induction before generalizing s ops with
  | nil =>
      cases h with
      | @cons _ s₁ _ _ _ ops ops' d m e f hs hd ho hk hin h =>
          have hat := h.applyAt_self hn (by rw [hin.applyAt, hsize]; exact Dataflow.lt_size_of_get? hd)
          refine ⟨[], s, ops, s₁, _, d, m, e, f, .nil s, hd, hk, hin, rfl, ?_, (slots_le_of_finish h.slots_le :), ?_⟩
          · simp [place, hat, hin.size_eq]
          · intro x o hx
            have hne : n ≠ x := by
              rintro rfl
              rw [hs] at hx
              cases hx
            apply h.computed
            rw [push_status, get?_finish_of_ne _ hne]
            exact hin.computed hx
  | cons n' before ih =>
      cases h with
      | @cons _ s₀ _ _ _ opsIn opsRest d' m' e' f' hs hd ho hk hin h =>
          obtain ⟨ops₁, s₁, ops₂, s₂, rest, d, m, e, f, hturns, hd₂, hk₂, hemits, rfl, hplace, hslots, hcomputed⟩ :=
            ih h (by rw [push_applyAt, finish_applyAt]; exact (Table.size_set _ _ _).trans (by rw [hin.applyAt, hsize]))
          refine ⟨_, s₁, ops₂, s₂, rest, d, m, e, f, .cons hs hd ho hk hin hturns, hd₂, hk₂, hemits, ?_, ?_, hslots,
            hcomputed⟩
          · simp
          · rw [hplace, push_size, finish_size, push_size, note_code, hin.size_eq, saves_push, saves_note]
            simp only [List.length_append, List.length_cons]
            omega

end Dynarec.Emission
