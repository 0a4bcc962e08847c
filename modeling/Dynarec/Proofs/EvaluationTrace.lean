import Dynarec.Proofs.GeneratedLayout
import Dynarec.Proofs.ProgramOrder

namespace Dynarec

/-- The nodes whose values are on the stack, top first, and in the slots. -/
structure Contents where
  stack : List Node
  slots : Slot → Option Node

abbrev AnnotatedCode := List (Op × Option Node)

namespace AnnotatedCode

def nodes (code : AnnotatedCode) : List Node := code.filterMap Prod.snd

def evaluations (start : Nat) : AnnotatedCode → List (Node × Nat)
  | [] => []
  | (_, none) :: code => evaluations (start + 1) code
  | (_, some n) :: code => (n, start) :: evaluations (start + 1) code

def plain (ops : List Op) : AnnotatedCode := ops.map (·, none)

@[simp] theorem map_fst_plain (ops : List Op) : (plain ops).map Prod.fst = ops := by
  simp [plain, Function.comp_def]

@[simp] theorem length_plain (ops : List Op) : (plain ops).length = ops.length := List.length_map _

@[simp] theorem nodes_plain (ops : List Op) : (plain ops).nodes = [] := by
  simp [nodes, plain]

@[simp] theorem nodes_append (code code' : AnnotatedCode) : nodes (code ++ code') = code.nodes ++ code'.nodes :=
  List.filterMap_append

@[simp] theorem nodes_cons (op : Op) (n : Node) (code : AnnotatedCode) :
    nodes ((op, some n) :: code) = n :: code.nodes :=
  rfl

theorem map_fst_evaluations (start : Nat) (code : AnnotatedCode) :
    (code.evaluations start).map Prod.fst = code.nodes := by
  fun_induction evaluations start code with
  | case1 => rfl
  | case2 start op code ih => exact ih
  | case3 start op n code ih => exact congrArg (n :: ·) ih

@[simp] theorem evaluations_plain (start : Nat) (ops : List Op) : (plain ops).evaluations start = [] := by
  induction ops generalizing start with
  | nil => rfl
  | cons op ops ih => exact ih (start + 1)

theorem evaluations_append (start : Nat) (code code' : AnnotatedCode) :
    (code ++ code').evaluations start = code.evaluations start ++ code'.evaluations (start + code.length) := by
  fun_induction evaluations start code with
  | case1 => rfl
  | case2 start op code ih =>
      rw [List.cons_append, evaluations, ih, List.length_cons]
      congr 2
      omega
  | case3 start op n code ih =>
      rw [List.cons_append, evaluations, ih, List.length_cons, List.cons_append]
      congr 3
      omega

end AnnotatedCode

/-- `Computes c code c'` says that the annotations of `code` are right. An op that computes a node finds
the values of the inputs on the stack. -/
inductive Computes (flow : Dataflow) : Contents → AnnotatedCode → Contents → Prop
  | nil (c : Contents) : Computes flow c [] c
  | leaf {stack : List Node} {slots : Slot → Option Node} {n : Node} {d : Definition} {op : Op} {code : AnnotatedCode}
      {c : Contents} (hd : flow.get? n = some d) (hop : Emission.leafOp? d.kind = some op)
      (h : Computes flow ⟨n :: stack, slots⟩ code c) : Computes flow ⟨stack, slots⟩ ((op, some n) :: code) c
  | apply {stack : List Node} {slots : Slot → Option Node} {n : Node} {d : Definition} {m : Microcode} {e : Element}
      {f : Fragment} {code : AnnotatedCode} {c : Contents} (hd : flow.get? n = some d) (hk : d.kind = .op m e f)
      (h : Computes flow ⟨n :: stack, slots⟩ code c) :
      Computes flow ⟨d.inputs.reverse ++ stack, slots⟩ ((.apply f, some n) :: code) c
  | save {stack : List Node} {slots : Slot → Option Node} {n : Node} {s : Slot} {code : AnnotatedCode} {c : Contents}
      (h : Computes flow ⟨n :: stack, fun s' => if s' = s then some n else slots s'⟩ code c) :
      Computes flow ⟨n :: stack, slots⟩ ((.save s, none) :: code) c
  | restore {stack : List Node} {slots : Slot → Option Node} {n : Node} {s : Slot} {code : AnnotatedCode} {c : Contents}
      (hs : slots s = some n) (h : Computes flow ⟨n :: stack, slots⟩ code c) :
      Computes flow ⟨stack, slots⟩ ((.restore s, none) :: code) c
  | discard {stack : List Node} {slots : Slot → Option Node} {n : Node} {code : AnnotatedCode} {c : Contents}
      (h : Computes flow ⟨stack, slots⟩ code c) : Computes flow ⟨n :: stack, slots⟩ ((.discard, none) :: code) c
  | commit {stack : List Node} {slots : Slot → Option Node} {n : Node} {e : Element} {code : AnnotatedCode} {c : Contents}
      (h : Computes flow ⟨stack, slots⟩ code c) : Computes flow ⟨n :: stack, slots⟩ ((.commit e, none) :: code) c

namespace Computes

variable {flow : Dataflow} {c c₁ c' : Contents} {code code' : AnnotatedCode}

theorem append (h : Computes flow c code c₁) (h' : Computes flow c₁ code' c') : Computes flow c (code ++ code') c' := by
  induction h with
  | nil c => exact h'
  | leaf hd hop _ ih => exact .leaf hd hop (ih h')
  | apply hd hk _ ih => exact .apply hd hk (ih h')
  | save _ ih => exact .save (ih h')
  | restore hs _ ih => exact .restore hs (ih h')
  | discard _ ih => exact .discard (ih h')
  | commit _ ih => exact .commit (ih h')

theorem ret_not_mem (h : Computes flow c code c') : .ret ∉ code.map Prod.fst := by
  induction h with
  | nil c => exact List.not_mem_nil
  | @leaf stack slots n d op code c _ hop _ ih =>
      rw [List.map_cons, List.mem_cons, not_or]
      refine ⟨?_, ih⟩
      rintro rfl
      rcases Emission.read_or_constant_of_leafOp? hop with ⟨_, h⟩ | ⟨_, h⟩ <;> cases h
  | apply _ _ _ ih | save _ ih | restore _ _ ih | discard _ ih | commit _ ih => simpa using ih

end Computes

namespace Emission

variable {flow : Dataflow} {needsSlot : Table Node Bool} {s s₁ s' : Emission}

def IsComputed (s : Emission) (n : Node) : Prop := ∃ o, s.status.get? n = some (.computed o)

theorem not_isComputed_of_pending {n : Node} (h : s.status.get? n = some .pending) : ¬s.IsComputed n := by
  rintro ⟨o, ho⟩
  rw [h] at ho
  cases ho

theorem isComputed_finish {n : Node} (hn : n.index < s.status.size) (x : Node) :
    (finish needsSlot s n).IsComputed x ↔ s.IsComputed x ∨ x = n := by
  by_cases hx : n = x
  · subst hx
    exact ⟨fun _ => .inr rfl, fun _ => ⟨_, get?_finish_self hn⟩⟩
  · rw [IsComputed, get?_finish_of_ne s hx]
    exact ⟨.inl, fun h => h.resolve_right (Ne.symm hx)⟩

/-- Between two states of emission, the nodes `ns` are computed, each once. -/
structure Adds (s : Emission) (ns : List Node) (s' : Emission) : Prop where
  nodup : ns.Nodup
  fresh : ∀ n ∈ ns, ¬s.IsComputed n
  isComputed : ∀ x, s'.IsComputed x ↔ s.IsComputed x ∨ x ∈ ns

theorem adds_nil (s : Emission) : Adds s [] s := ⟨List.nodup_nil, List.forall_mem_nil _, by simp⟩

theorem adds_finish {n : Node} (hn : n.index < s.status.size) (hs : s.status.get? n = some .pending) :
    Adds s [n] (finish needsSlot s n) := by
  refine ⟨List.nodup_singleton n, ?_, ?_⟩
  · intro x hx
    rw [List.mem_singleton.mp hx]
    exact not_isComputed_of_pending hs
  · intro x
    rw [isComputed_finish hn, List.mem_singleton]

theorem Adds.append {ns ms : List Node} (h : Adds s ns s₁) (h' : Adds s₁ ms s') : Adds s (ns ++ ms) s' := by
  refine ⟨?_, ?_, ?_⟩
  · rw [List.nodup_append]
    refine ⟨h.nodup, h'.nodup, ?_⟩
    rintro a ha b hb rfl
    exact h'.fresh a hb ((h.isComputed a).mpr (.inr ha))
  · intro n hn
    rcases List.mem_append.mp hn with hn | hn
    · exact h.fresh n hn
    · exact fun hc => h'.fresh n hn ((h.isComputed n).mpr (.inl hc))
  · intro x
    rw [h'.isComputed, h.isComputed, List.mem_append, or_assoc]

theorem Adds.push {ns : List Node} (h : Adds s ns s') (op : Op) : Adds s ns (s'.push op) :=
  ⟨h.nodup, h.fresh, h.isComputed⟩

def KeptIn (s : Emission) (slots : Slot → Option Node) : Prop :=
  ∀ n slot, s.status.get? n = some (.computed (some slot)) → slots slot = some n

theorem KeptIn.finish {size : Nat} (hs : s.Sound size needsSlot) {slots : Slot → Option Node} (h : s.KeptIn slots)
    (n : Node) :
    ∃ slots', (finish needsSlot s n).KeptIn slots' ∧ ∀ stack,
      Computes flow ⟨n :: stack, slots⟩ (.plain (saves needsSlot s n)) ⟨n :: stack, slots'⟩ := by
  rw [saves]
  cases hneeds : needsSlot.getD n false with
  | false =>
      refine ⟨slots, ?_, fun stack => .nil _⟩
      intro x slot hx
      rcases computed_of_finish hx with hx | ⟨_, ho⟩
      · exact h x slot hx
      · simp [hneeds] at ho
  | true =>
      refine ⟨fun slot => if slot = ⟨s.slots⟩ then some n else slots slot, ?_, fun stack => .save (.nil _)⟩
      intro x slot hx
      rcases computed_of_finish hx with hx | ⟨rfl, ho⟩
      · -- a slot that was given out before is not the new one
        have hne : slot ≠ ⟨s.slots⟩ := by
          rintro rfl
          exact Nat.lt_irrefl _ (hs.slot_lt x _ hx)
        dsimp only
        rw [if_neg hne]
        exact h x slot hx
      · rw [hneeds, if_pos rfl] at ho
        exact if_pos (Option.some.inj ho)

/-- `code` is `ops` with annotations. It pushes the values of `ns`, and computes what is missing. -/
structure Annotates (flow : Dataflow) (s : Emission) (ns : List Node) (ops : List Op) (s' : Emission)
    (code : AnnotatedCode) : Prop where
  ops : code.map Prod.fst = ops
  adds : Adds s code.nodes s'
  computes : ∀ stack slots, s.KeptIn slots →
    ∃ slots', s'.KeptIn slots' ∧ Computes flow ⟨stack, slots⟩ code ⟨ns.reverse ++ stack, slots'⟩

theorem annotates_nil (s : Emission) : Annotates flow s [] [] s [] :=
  ⟨rfl, adds_nil s, fun _ slots h => ⟨slots, h, .nil _⟩⟩

theorem Annotates.append {ns ms : List Node} {ops ops' : List Op} {code code' : AnnotatedCode}
    (h : Annotates flow s ns ops s₁ code) (h' : Annotates flow s₁ ms ops' s' code') :
    Annotates flow s (ns ++ ms) (ops ++ ops') s' (code ++ code') := by
  refine ⟨?_, ?_, ?_⟩
  · rw [List.map_append, h.ops, h'.ops]
  · rw [AnnotatedCode.nodes_append]
    exact h.adds.append h'.adds
  · intro stack slots hslots
    obtain ⟨slots₁, hslots₁, hcode⟩ := h.computes stack slots hslots
    obtain ⟨slots', hslots', hcode'⟩ := h'.computes (ns.reverse ++ stack) slots₁ hslots₁
    refine ⟨slots', hslots', ?_⟩
    rw [List.reverse_append, List.append_assoc]
    exact hcode.append hcode'

theorem annotates_restore {n : Node} {slot : Slot} (hs : s.status.get? n = some (.computed (some slot))) :
    Annotates flow s [n] [.restore slot] (s.push (.restore slot)) [(.restore slot, none)] := by
  refine ⟨rfl, (adds_nil s).push _, ?_⟩
  intro stack slots hslots
  exact ⟨slots, hslots, .restore (hslots n slot hs) (.nil _)⟩

theorem annotates_leaf (hsound : s.Sound flow.size needsSlot) {n : Node} {d : Definition} {op : Op}
    (hs : s.status.get? n = some .pending) (hd : flow.get? n = some d) (hop : leafOp? d.kind = some op) :
    Annotates flow s [n] (op :: saves needsSlot s n) (finish needsSlot (s.push op) n)
      ((op, some n) :: AnnotatedCode.plain (saves needsSlot s n)) := by
  have hlt : n.index < s.status.size := by
    rw [hsound.size]
    exact Dataflow.lt_size_of_get? hd
  refine ⟨by simp, ?_, ?_⟩
  · rw [AnnotatedCode.nodes_cons, AnnotatedCode.nodes_plain]
    exact ((adds_nil s).push op).append (adds_finish hlt hs)
  · intro stack slots hslots
    obtain ⟨slots', hslots', hsaves⟩ := KeptIn.finish (hsound.push op) hslots n
    exact ⟨slots', hslots', .leaf hd hop (hsaves stack)⟩

theorem Annotates.apply {ops : List Op} {code : AnnotatedCode} {n : Node} {d : Definition} {m : Microcode} {e : Element}
    {f : Fragment} (hin : Annotates flow s d.inputs ops s₁ code) (hd : flow.get? n = some d) (hk : d.kind = .op m e f)
    {s₂ : Emission} (hsound : s₂.Sound flow.size needsSlot) (hstatus : s₂.status = s₁.status)
    (hslots₂ : s₂.slots = s₁.slots) (hs : s₂.status.get? n = some .pending) :
    Annotates flow s [n] (ops ++ .apply f :: saves needsSlot s₁ n) (finish needsSlot (s₂.push (.apply f)) n)
      (code ++ (.apply f, some n) :: AnnotatedCode.plain (saves needsSlot s₁ n)) := by
  have hlt : n.index < s₂.status.size := by
    rw [hsound.size]
    exact Dataflow.lt_size_of_get? hd
  have hadds : Adds s code.nodes (s₂.push (.apply f)) := by
    refine ⟨hin.adds.nodup, hin.adds.fresh, ?_⟩
    intro x
    rw [← hin.adds.isComputed, IsComputed, push_status, hstatus]
    rfl
  have hsaves₂ : saves needsSlot s₂ n = saves needsSlot s₁ n := by rw [saves, saves, hslots₂]
  refine ⟨by simp [hin.ops], ?_, ?_⟩
  · rw [AnnotatedCode.nodes_append, AnnotatedCode.nodes_cons, AnnotatedCode.nodes_plain]
    exact hadds.append (adds_finish hlt hs)
  · intro stack slots hslots
    obtain ⟨slots₁, hslots₁, hcode⟩ := hin.computes stack slots hslots
    have hkept : s₂.KeptIn slots₁ := by
      intro x slot hx
      rw [hstatus] at hx
      exact hslots₁ x slot hx
    obtain ⟨slots', hslots', hsaves⟩ := KeptIn.finish (hsound.push (.apply f)) hkept n
    refine ⟨slots', hslots', hcode.append (.apply hd hk ?_)⟩
    rw [← hsaves₂]
    exact hsaves stack

theorem Emits.get?_of_le (hflow : flow.WellFormed) {ns : List Node} {ops : List Op}
    (h : Emits flow needsSlot s ns ops s') {k : Nat} (hns : ∀ n ∈ ns, n.index < k) {x : Node} (hx : k ≤ x.index) :
    s'.status.get? x = s.status.get? x := by
  have hne {n : Node} (hn : n.index < k) : n ≠ x := by
    rintro rfl
    omega
  induction h with
  | nil s => rfl
  | restore _ _ ih => exact ih fun n hn => hns n (List.mem_cons_of_mem _ hn)
  | leaf _ _ _ _ _ ih =>
      rw [List.forall_mem_cons] at hns
      rw [ih hns.2, get?_finish_of_ne _ (hne hns.1), push_status]
  | op _ hd _ _ _ _ ihin ih =>
      rw [List.forall_mem_cons] at hns
      rw [ih hns.2, get?_finish_of_ne _ (hne hns.1), push_status]
      apply ihin
      intro i hi
      exact ((hflow _ _ hd).inputs_lt i hi).trans hns.1

theorem Emits.exists_annotates (hflow : flow.WellFormed) {ns : List Node} {ops : List Op}
    (h : Emits flow needsSlot s ns ops s') (hsound : s.Sound flow.size needsSlot) :
    ∃ code, Annotates flow s ns ops s' code := by
  induction h with
  | nil s => exact ⟨[], annotates_nil s⟩
  | restore hs _ ih =>
      obtain ⟨code, hcode⟩ := ih (hsound.push _)
      exact ⟨_, (annotates_restore hs).append hcode⟩
  | leaf hs hd _ hop _ ih =>
      obtain ⟨code, hcode⟩ := ih ((hsound.push _).finish _)
      exact ⟨_, (annotates_leaf hsound hs hd hop).append hcode⟩
  | @op s s₁ s' n ns ops ops' d m e f hs hd ho hk hin _ ihin ih =>
      obtain ⟨code, hcode⟩ := ihin hsound
      obtain ⟨code', hcode'⟩ := ih (((hin.sound hsound).push _).finish _)
      have hs₁ : s₁.status.get? n = some .pending := by
        rw [hin.get?_of_le hflow (hflow n d hd).inputs_lt (Nat.le_refl _), hs]
      have hn := (hcode.apply hd hk (hin.sound hsound) rfl rfl hs₁).append hcode'
      rw [List.append_assoc, List.cons_append] at hn
      exact ⟨_, hn⟩

theorem Emits.isComputed_of_mem {ns : List Node} {ops : List Op} (h : Emits flow needsSlot s ns ops s')
    (hsound : s.Sound flow.size needsSlot) {n : Node} (hn : n ∈ ns) : s'.IsComputed n := by
  induction h with
  | nil s => cases hn
  | restore hs h ih =>
      rcases List.mem_cons.mp hn with rfl | hn
      · exact ⟨_, h.computed hs⟩
      · exact ih (hsound.push _) hn
  | @leaf s s' x ns ops d op hs hd ho hop h ih =>
      rcases List.mem_cons.mp hn with rfl | hn
      · exact ⟨_, h.computed (get?_finish_self (by rw [(hsound.push op).size]; exact Dataflow.lt_size_of_get? hd))⟩
      · exact ih ((hsound.push _).finish _) hn
  | @op s s₁ s' x ns ops ops' d m e f hs hd ho hk hin h ihin ih =>
      have hsound₁ := (hin.sound hsound).push (.apply f)
      rcases List.mem_cons.mp hn with rfl | hn
      · exact ⟨_, h.computed (get?_finish_self (by rw [hsound₁.size]; exact Dataflow.lt_size_of_get? hd))⟩
      · exact ih (hsound₁.finish _) hn

/-- Only nodes with `P` are computed, and their inputs with them. -/
structure Spans (flow : Dataflow) (P : Node → Prop) (s : Emission) : Prop where
  within : ∀ n, s.IsComputed n → P n
  closed : ∀ n, s.IsComputed n → ∀ i ∈ flow.inputs n, s.IsComputed i

theorem Spans.push {P : Node → Prop} (h : Spans flow P s) (op : Op) : Spans flow P (s.push op) := ⟨h.within, h.closed⟩

theorem Spans.note {P : Node → Prop} (h : Spans flow P s) (n : Node) : Spans flow P (s.note n) := ⟨h.within, h.closed⟩

theorem Spans.finish {P : Node → Prop} (h : Spans flow P s) {n : Node} (hlt : n.index < s.status.size) (hn : P n)
    (hin : ∀ i ∈ flow.inputs n, s.IsComputed i) : Spans flow P (finish needsSlot s n) := by
  refine ⟨?_, ?_⟩
  · intro x hx
    rcases (isComputed_finish hlt x).mp hx with hx | rfl
    · exact h.within x hx
    · exact hn
  · intro x hx i hi
    apply (isComputed_finish hlt i).mpr
    rcases (isComputed_finish hlt x).mp hx with hx | rfl
    · exact .inl (h.closed x hx i hi)
    · exact .inl (hin i hi)

theorem Emits.spans {P : Node → Prop} (hflow : flow.WellFormed) (hP : ∀ n, P n → ∀ i ∈ flow.inputs n, P i)
    {ns : List Node} {ops : List Op} (h : Emits flow needsSlot s ns ops s') (hsound : s.Sound flow.size needsSlot)
    (hns : ∀ n ∈ ns, P n) (hs : Spans flow P s) : Spans flow P s' := by
  induction h with
  | nil s => exact hs
  | restore _ _ ih => exact ih (hsound.push _) (fun n hn => hns n (List.mem_cons_of_mem _ hn)) (hs.push _)
  | @leaf s s' n ns ops d op _ hd _ hop _ ih =>
      rw [List.forall_mem_cons] at hns
      refine ih ((hsound.push _).finish _) hns.2 ((hs.push op).finish ?_ hns.1 ?_)
      · rw [(hsound.push op).size]
        exact Dataflow.lt_size_of_get? hd
      · rw [Dataflow.inputs_eq hd, ((hflow n d hd).leaf (leafOp?_eq_some hop)).1]
        exact List.forall_mem_nil _
  | @op s s₁ s' n ns ops ops' d m e f _ hd _ _ hin _ ihin ih =>
      rw [List.forall_mem_cons] at hns
      have hinputs := Dataflow.inputs_eq hd
      have hspans := ihin hsound (fun i hi => hP n hns.1 i (hinputs ▸ hi)) hs
      have hsound₁ := (hin.sound hsound).push (.apply f)
      refine ih (hsound₁.finish _) hns.2 ((hspans.push _).finish ?_ hns.1 ?_)
      · rw [hsound₁.size]
        exact Dataflow.lt_size_of_get? hd
      · rw [hinputs]
        exact fun i hi => hin.isComputed_of_mem hsound hi

theorem Turns.spans {P : Node → Prop} (hflow : flow.WellFormed) (hP : ∀ n, P n → ∀ i ∈ flow.inputs n, P i)
    {ns : List Node} {ops : List Op} (h : Turns flow needsSlot s ns ops s') (hsound : s.Sound flow.size needsSlot)
    (hns : ∀ n ∈ ns, P n) (hs : Spans flow P s) : Spans flow P s' := by
  induction h with
  | nil s => exact hs
  | @cons s s₁ s' n ns ops ops' d m e f _ hd _ _ hin _ ih =>
      rw [List.forall_mem_cons] at hns
      have hinputs := Dataflow.inputs_eq hd
      have hspans := hin.spans hflow hP hsound (fun i hi => hP n hns.1 i (hinputs ▸ hi)) hs
      have hsound₁ := ((hin.sound hsound).note n).push (.apply f)
      refine ih ((hsound₁.finish _).push _) hns.2 ((((hspans.note n).push _).finish ?_ hns.1 ?_).push _)
      · rw [hsound₁.size]
        exact Dataflow.lt_size_of_get? hd
      · rw [hinputs]
        exact fun i hi => hin.isComputed_of_mem hsound hi

theorem Annotates.isOrdered_eq_false {ns : List Node} {ops : List Op} {code : AnnotatedCode}
    (hcode : Annotates flow s ns ops s' code) (h : Emits flow needsSlot s ns ops s') {n : Node} (hn : n ∈ code.nodes) :
    flow.isOrdered n = false := by
  by_contra ho
  rw [Bool.not_eq_false] at ho
  obtain ⟨o, hcomputed⟩ := (hcode.adds.isComputed n).mpr (.inr hn)
  rw [h.get?_of_isOrdered ho] at hcomputed
  exact hcode.adds.fresh n hn ⟨o, hcomputed⟩

theorem Annotates.filter_isOrdered {ns : List Node} {ops : List Op} {code : AnnotatedCode}
    (hcode : Annotates flow s ns ops s' code) (h : Emits flow needsSlot s ns ops s') :
    code.nodes.filter flow.isOrdered = [] := by
  rw [List.filter_eq_nil_iff]
  intro n hn
  rw [hcode.isOrdered_eq_false h hn]
  exact Bool.false_ne_true

theorem Annotates.isOrdered_evaluation {ns : List Node} {ops : List Op} {code : AnnotatedCode}
    (hcode : Annotates flow s ns ops s' code) (h : Emits flow needsSlot s ns ops s') {start : Nat} {p : Node × Nat}
    (hp : p ∈ code.evaluations start) : flow.isOrdered p.1 = false := by
  apply hcode.isOrdered_eq_false h
  rw [← AnnotatedCode.map_fst_evaluations start]
  exact List.mem_map_of_mem hp

theorem Annotates.discard {ops : List Op} {code : AnnotatedCode} {n : Node} (h : Annotates flow s [n] ops s' code) :
    Annotates flow s [] (ops ++ [.discard]) (s'.push .discard) (code ++ .plain [.discard]) := by
  refine ⟨by simp [h.ops], ?_, ?_⟩
  · rw [AnnotatedCode.nodes_append, AnnotatedCode.nodes_plain, List.append_nil]
    exact h.adds.push _
  · intro stack slots hslots
    obtain ⟨slots', hslots', hcode⟩ := h.computes stack slots hslots
    exact ⟨slots', hslots', hcode.append (.discard (.nil _))⟩

theorem Turns.exists_annotates (hflow : flow.WellFormed) {ns : List Node} {ops : List Op}
    (h : Turns flow needsSlot s ns ops s') (hsound : s.Sound flow.size needsSlot) (hns : ns.Nodup)
    (hsize : s.applyAt.size = flow.size) :
    ∃ code, Annotates flow s [] ops s' code ∧ code.nodes.filter flow.isOrdered = ns ∧
      ∀ p ∈ code.evaluations s.code.size, flow.isOrdered p.1 = true → s'.place p.1 = p.2 := by
  induction h with
  | nil s => exact ⟨[], annotates_nil s, rfl, List.forall_mem_nil _⟩
  | @cons s s₁ s' n ns ops ops' d m e f hs hd ho hk hin h ih =>
      obtain ⟨hn, hns⟩ := List.nodup_cons.mp hns
      have hsound₁ := (hin.sound hsound).note n
      have hsize₁ : s₁.applyAt.size = flow.size := by rw [hin.applyAt, hsize]
      have hs₁ : s₁.status.get? n = some .pending := by
        rw [hin.get?_of_le hflow (hflow n d hd).inputs_lt (Nat.le_refl _), hs]
      obtain ⟨code, hcode⟩ := hin.exists_annotates hflow hsound
      obtain ⟨code', hcode', hordered, hplaces⟩ := ih (((hsound₁.push _).finish _).push _) hns
        (by rw [push_applyAt, finish_applyAt]; exact (Table.size_set _ _ _).trans hsize₁)
      have hturn := (hcode.apply hd hk hsound₁ rfl rfl hs₁).discard.append hcode'
      simp only [List.append_assoc, List.cons_append, List.nil_append, List.append_nil] at hturn
      -- the arguments hold nothing ordered, so the turn adds its own node alone, where its op was noted
      refine ⟨_, hturn, ?_, ?_⟩
      · simp [hcode.filter_isOrdered hin, hordered, Dataflow.isOrdered_eq hd, ho]
      · have hlength : code.length = ops.length := by rw [← hcode.ops, List.length_map]
        have hat := h.applyAt_self hn (by rw [hsize₁]; exact Dataflow.lt_size_of_get? hd)
        have hstart : s.code.size + code.length = s₁.code.size := by rw [hlength, hin.size_eq]
        have hnext : s₁.code.size + 1 + (saves needsSlot s₁ n).length + 1 =
            ((finish needsSlot ((s₁.note n).push (.apply f)) n).push .discard).code.size := by
          rw [push_size, finish_size, push_size, note_code, saves_push, saves_note]
        rw [AnnotatedCode.evaluations_append, AnnotatedCode.evaluations, AnnotatedCode.evaluations_append,
          AnnotatedCode.evaluations_append, AnnotatedCode.evaluations_plain, AnnotatedCode.evaluations_plain,
          AnnotatedCode.length_plain, AnnotatedCode.length_plain, hstart, List.length_singleton, hnext]
        intro p hp hpo
        rcases List.mem_append.mp hp with hp | hp
        · rw [hcode.isOrdered_evaluation hin hp] at hpo
          cases hpo
        · rcases List.mem_cons.mp hp with rfl | hp
          · simp [place, hat]
          · exact hplaces p hp hpo

end Emission

namespace Graph

/-- The node is needed for an effect, a fault or the final state. -/
inductive Needs (g : Graph) : Node → Prop
  | ordered {n : Node} (h : n ∈ g.ordered) : Needs g n
  | sink {p : Element × Node} (h : p ∈ g.sinks) : Needs g p.2
  | input {n i : Node} (h : Needs g n) (hi : i ∈ g.dataflow.inputs n) : Needs g i

end Graph

namespace Body

open Emission

structure Evaluates (g : Graph) (b : Body) (code : AnnotatedCode) : Prop where
  main : ∃ rest, b.code = code.map Prod.fst ++ .ret :: rest
  computes : ∃ slots, Computes g.dataflow ⟨[], fun _ => none⟩ code ⟨[], slots⟩

theorem computes_commits {flow : Dataflow} (state : List (Element × Node)) (slots : Slot → Option Node) :
    Computes flow ⟨(state.map Prod.snd).reverse, slots⟩ (.plain (commits state)) ⟨[], slots⟩ := by
  rw [commits, ← List.map_reverse]
  induction state.reverse with
  | nil => exact .nil _
  | cons p state ih => exact .commit ih

variable {g : Graph} {b : Body}

theorem Layout.isComputed_iff (hg : g.WellFormed) (l : Layout g b) (n : Node) : l.main.IsComputed n ↔ g.Needs n := by
  have hinitial : Spans g.dataflow g.Needs (initial g.dataflow.size) :=
    ⟨fun x ⟨o, hx⟩ => absurd hx (get?_initial_ne _ x o), fun x ⟨o, hx⟩ => absurd hx (get?_initial_ne _ x o)⟩
  have hneeds (x : Node) (hx : g.Needs x) (i : Node) (hi : i ∈ g.dataflow.inputs x) : g.Needs i := .input hx hi
  have hturned := l.turns_spec.spans hg.flow hneeds (sound_initial _) (fun x hx => .ordered hx) hinitial
  have hmain := l.pushes_spec.spans hg.flow hneeds l.sound_turned
    (fun x hx => by obtain ⟨p, hp, rfl⟩ := List.mem_map.mp hx; exact .sink hp) hturned
  constructor
  · exact hmain.within n
  · intro h
    induction h with
    | ordered hn =>
        obtain ⟨o, ho⟩ := l.turns_spec.exists_computed (sound_initial _) hn
        exact ⟨o, l.pushes_spec.computed ho⟩
    | sink hp => exact l.pushes_spec.isComputed_of_mem l.sound_turned (List.mem_map_of_mem hp)
    | input _ hi ih => exact hmain.closed _ ih _ hi

/-- The main code can be annotated. Each node that is needed is computed once, and ordered nodes in
order, where emission noted their places. -/
theorem Layout.exists_evaluates (hg : g.WellFormed) (l : Layout g b) :
    ∃ code, Evaluates g b code ∧ code.map Prod.fst = l.turns ++ (l.pushes ++ commits g.sinks) ∧ code.nodes.Nodup ∧
      (∀ n, n ∈ code.nodes ↔ g.Needs n) ∧ code.nodes.filter g.dataflow.isOrdered = g.ordered ∧
      ∀ p ∈ code.evaluations 0, g.dataflow.isOrdered p.1 = true → l.main.place p.1 = p.2 := by
  obtain ⟨turns, hturns, hordered, hplaces⟩ :=
    l.turns_spec.exists_annotates hg.flow (sound_initial _) hg.nodup_ordered (Table.size_replicate _ _)
  obtain ⟨pushes, hpushes⟩ := l.pushes_spec.exists_annotates hg.flow l.sound_turned
  have hwhole := hturns.append hpushes
  have hcommits : AnnotatedCode.nodes (turns ++ (pushes ++ .plain (commits g.sinks))) = (turns ++ pushes).nodes := by
    simp
  have hops : (turns ++ (pushes ++ .plain (commits g.sinks))).map Prod.fst = l.turns ++ (l.pushes ++ commits g.sinks) := by
    simp [hturns.ops, hpushes.ops]
  refine ⟨turns ++ (pushes ++ .plain (commits g.sinks)), ⟨⟨l.handlerOps, ?_⟩, ?_⟩, hops, ?_, ?_, ?_, ?_⟩
  · rw [hops, l.code_eq]
    simp
  · obtain ⟨slots, _, hcode⟩ := hwhole.computes [] (fun _ => none)
      (fun x slot hx => absurd hx (get?_initial_ne _ x _))
    rw [List.nil_append, List.append_nil] at hcode
    rw [← List.append_assoc]
    exact ⟨slots, hcode.append (computes_commits g.sinks slots)⟩
  · rw [hcommits]
    exact hwhole.adds.nodup
  · intro n
    rw [hcommits, ← l.isComputed_iff hg, hwhole.adds.isComputed]
    exact ⟨.inr, fun h => h.resolve_left fun ⟨o, ho⟩ => get?_initial_ne _ n o ho⟩
  · rw [hcommits, AnnotatedCode.nodes_append, List.filter_append, hordered, hpushes.filter_isOrdered l.pushes_spec,
      List.append_nil]
  · rw [AnnotatedCode.evaluations_append, AnnotatedCode.evaluations_append, AnnotatedCode.evaluations_plain,
      List.append_nil]
    intro p hp ho
    rcases List.mem_append.mp hp with hp | hp
    · rw [place, l.pushes_spec.applyAt]
      exact hplaces p hp ho
    · rw [hpushes.isOrdered_evaluation l.pushes_spec hp] at ho
      cases ho

/-- The main code computes each node that is needed exactly once, from its inputs, and no other node.
Those that have effects or can fault are the ordered targets of the run, in program order, whether or
not their values are used. -/
theorem evaluates_once {limit : Nat} {instructions : List Instruction} {mode : Mode} {run : Run}
    (hrun : Run.build limit instructions = .ok run) (hg : Graph.build mode run = .ok g) :
    ∃ b code, generate g = .ok b ∧ Evaluates g b code ∧ .ret ∉ code.map Prod.fst ∧ code.nodes.Nodup ∧
      (∀ n, n ∈ code.nodes ↔ g.Needs n) ∧ code.nodes.filter g.dataflow.isOrdered = g.ordered ∧
      List.Forall₂ g.dataflow.IsTarget g.ordered (run.orderedTargets mode) := by
  have hwf := Graph.wellFormed_of_build (Run.ordered_of_build hrun) hg
  obtain ⟨b, hb, ⟨l⟩⟩ := exists_layout hwf
  obtain ⟨code, hcode, _, hnodup, hneeds, hordered, _⟩ := l.exists_evaluates hwf
  obtain ⟨slots, hcomputes⟩ := hcode.computes
  exact ⟨b, code, hb, hcode, hcomputes.ret_not_mem, hnodup, hneeds, hordered, Graph.forall₂_ordered hg⟩

def loadStoreDivide : List Instruction :=
  [⟨3, [Microcode.memReset, .addr .ebx, .loadSeg .ds, .load0Mem .four, .load0 .eax, .store0Mem .four, .eipUpdate].map
      Microcode.word⟩,
   ⟨2, [Microcode.load0 .eax, .load1 .ecx, .div, .store0 .eax, .eipUpdate].map Microcode.word⟩]

theorem evaluates_once_loadStoreDivide :
    ∃ run g, Run.build 2 loadStoreDivide = .ok run ∧ Graph.build .real run = .ok g ∧
      (run.orderedTargets .real).map (fun p => p.2.fragment) = [.load .four, .store .four, .divQuotient, .divRemainder] ∧
      ∃ b code, generate g = .ok b ∧ Evaluates g b code ∧ .ret ∉ code.map Prod.fst ∧ code.nodes.Nodup ∧
        (∀ n, n ∈ code.nodes ↔ g.Needs n) ∧ code.nodes.filter g.dataflow.isOrdered = g.ordered ∧
        List.Forall₂ g.dataflow.IsTarget g.ordered (run.orderedTargets .real) := by
  obtain ⟨g, h⟩ : ∃ g, (Run.build 2 loadStoreDivide >>= Graph.build .real) = .ok g :=
    exists_eq_ok (by decide +kernel)
  obtain ⟨run, hrun, hg⟩ := bind_eq_ok.mp h
  refine ⟨run, g, hrun, hg, ?_, evaluates_once hrun hg⟩
  rw [Run.build_ok hrun]
  decide +kernel

end Body

end Dynarec
