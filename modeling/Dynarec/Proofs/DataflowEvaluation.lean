import Dynarec.Interpreter
import Dynarec.Proofs.DataflowShape
import Mathlib.Data.List.Induction

namespace Dynarec

namespace Reply

def result : Reply → Except Fault (UInt32 × Bool)
  | value v => .ok (v, false)
  | modeSwitch => .ok (0, true)
  | fault f => .error f

end Reply

/-- How far a dataflow has been evaluated. -/
structure Evaluation (σ : Type) where
  values : List UInt32
  cpu : σ
  switched : Bool
  fault : Option Fault

namespace Evaluation

variable {σ : Type} [Processor σ]

def value (ev : Evaluation σ) (n : Node) : UInt32 := ev.values.getD n.index 0

def args (ρ : Node → UInt32) (inputs : List Node) (i : Nat) : UInt32 := (inputs.map ρ).getD i 0

def extend (entry : ElementMap UInt32) (ev : Evaluation σ) (d : Definition) : Evaluation σ :=
  match ev.fault, d.kind with
  | some _, _ => ev
  | none, .entry e => { ev with values := ev.values ++ [entry.get e] }
  | none, .constant v => { ev with values := ev.values ++ [v] }
  | none, .op _ _ f =>
    let (reply, cpu) := f.perform (args ev.value d.inputs) ev.cpu
    match reply.result with
    | .ok (v, switched) => ⟨ev.values ++ [v], cpu, ev.switched || switched, none⟩
    | .error fault => { ev with cpu, fault := some fault }

def ofDefinitions (cpu : σ) (ds : List Definition) : Evaluation σ :=
  ds.foldl (extend (Interpreter.entryValues cpu)) ⟨[], cpu, false, none⟩

theorem ofDefinitions_append (cpu : σ) (ds ds' : List Definition) :
    ofDefinitions cpu (ds ++ ds') = ds'.foldl (extend (Interpreter.entryValues cpu)) (ofDefinitions cpu ds) :=
  List.foldl_append

theorem extend_of_fault {entry : ElementMap UInt32} {ev : Evaluation σ} {fault : Fault} (h : ev.fault = some fault)
    (d : Definition) : ev.extend entry d = ev := by
  rw [extend, h]

theorem foldl_extend_of_fault {entry : ElementMap UInt32} {ev : Evaluation σ} {fault : Fault}
    (h : ev.fault = some fault) (ds : List Definition) : ds.foldl (extend entry) ev = ev := by
  induction ds with
  | nil => rfl
  | cons d ds ih => rw [List.foldl_cons, extend_of_fault h, ih]

theorem extend_constant (entry : ElementMap UInt32) {ev : Evaluation σ} {d : Definition} {v : UInt32}
    (h : ev.fault = none) (hk : d.kind = .constant v) :
    ev.extend entry d = { ev with values := ev.values ++ [v] } := by
  rw [extend, h, hk]

theorem extend_cases (entry : ElementMap UInt32) {ev : Evaluation σ} (h : ev.fault = none) (d : Definition) :
    (∃ e, d.kind = .entry e ∧ ev.extend entry d = { ev with values := ev.values ++ [entry.get e] }) ∨
      (∃ v, d.kind = .constant v ∧ ev.extend entry d = { ev with values := ev.values ++ [v] }) ∨
      ∃ m e f reply cpu, d.kind = .op m e f ∧ f.perform (args ev.value d.inputs) ev.cpu = (reply, cpu) ∧
        ((∃ v switched, reply.result = .ok (v, switched) ∧
            ev.extend entry d = ⟨ev.values ++ [v], cpu, ev.switched || switched, none⟩) ∨
          ∃ fault, reply.result = .error fault ∧ ev.extend entry d = { ev with cpu, fault := some fault }) := by
  cases hk : d.kind with
  | entry e => exact .inl ⟨e, rfl, by rw [extend, h, hk]⟩
  | constant v => exact .inr (.inl ⟨v, rfl, extend_constant entry h hk⟩)
  | op m e f =>
      cases hp : f.perform (args ev.value d.inputs) ev.cpu with
      | mk reply cpu =>
          refine .inr (.inr ⟨m, e, f, reply, cpu, rfl, hp, ?_⟩)
          cases hr : reply.result with
          | ok r => exact .inl ⟨r.1, r.2, rfl, by rw [extend, h, hk]; simp only [hp, hr]⟩
          | error fault => exact .inr ⟨fault, rfl, by rw [extend, h, hk]; simp only [hp, hr]⟩

theorem length_values (cpu : σ) (ds : List Definition) :
    ((ofDefinitions cpu ds).fault = none → (ofDefinitions cpu ds).values.length = ds.length) ∧
      ∀ fault, (ofDefinitions cpu ds).fault = some fault → (ofDefinitions cpu ds).values.length < ds.length := by
  induction ds using List.reverseRecOn with
  | nil => exact ⟨fun _ => rfl, fun _ h => by cases h⟩
  | append_singleton ds d ih =>
      rw [ofDefinitions_append, List.foldl_cons, List.foldl_nil, List.length_append, List.length_singleton]
      cases hf : (ofDefinitions cpu ds).fault with
      | some fault =>
          rw [extend_of_fault hf]
          exact ⟨fun h => by simp [hf] at h, fun _ _ => Nat.lt_succ_of_lt (ih.2 fault hf)⟩
      | none =>
          have hlength := ih.1 hf
          rcases extend_cases (Interpreter.entryValues cpu) hf d with ⟨e, _, he⟩ | ⟨v, _, he⟩ |
            ⟨m, e, f, reply, cpu', _, _, ⟨v, sw, _, he⟩ | ⟨fault, _, he⟩⟩
          · simp [he, hf, hlength]
          · simp [he, hf, hlength]
          · simp [he, hlength]
          · simp [he, hlength]

theorem values_isPrefix_foldl (entry : ElementMap UInt32) (ev : Evaluation σ) (ds : List Definition) :
    ev.values <+: (ds.foldl (extend entry) ev).values := by
  induction ds generalizing ev with
  | nil => exact List.prefix_rfl
  | cons d ds ih =>
      refine List.IsPrefix.trans ?_ (ih (ev.extend entry d))
      cases hf : ev.fault with
      | some fault => exact (extend_of_fault hf d).symm ▸ List.prefix_rfl
      | none =>
          rcases extend_cases entry hf d with ⟨e, _, he⟩ | ⟨v, _, he⟩ |
            ⟨m, e, f, reply, cpu', _, _, ⟨v, sw, _, he⟩ | ⟨fault, _, he⟩⟩
          · exact he ▸ List.prefix_append _ _
          · exact he ▸ List.prefix_append _ _
          · exact he ▸ List.prefix_append _ _
          · exact he ▸ List.prefix_rfl

theorem length_values_le (cpu : σ) (ds : List Definition) : (ofDefinitions cpu ds).values.length ≤ ds.length := by
  cases h : (ofDefinitions cpu ds).fault with
  | none => exact ((length_values cpu ds).1 h).le
  | some fault => exact ((length_values cpu ds).2 fault h).le

/-- What came before the fault was evaluated as if the rest were not there. -/
theorem ofDefinitions_take {cpu : σ} {ds : List Definition} {k : Nat}
    (hk : k ≤ (ofDefinitions cpu ds).values.length) :
    (ofDefinitions cpu (ds.take k)).fault = none ∧
      (ofDefinitions cpu (ds.take k)).values = (ofDefinitions cpu ds).values.take k := by
  have hsplit : ofDefinitions cpu ds = (ds.drop k).foldl (extend (Interpreter.entryValues cpu))
      (ofDefinitions cpu (ds.take k)) := by
    rw [← ofDefinitions_append, List.take_append_drop]
  have hlength := length_values cpu (ds.take k)
  have hvalues := values_isPrefix_foldl (Interpreter.entryValues cpu) (ofDefinitions cpu (ds.take k)) (ds.drop k)
  rw [← hsplit] at hvalues
  cases hf : (ofDefinitions cpu (ds.take k)).fault with
  | some fault =>
      have hlt := hlength.2 fault hf
      rw [List.length_take] at hlt
      rw [hsplit, foldl_extend_of_fault hf] at hk
      omega
  | none =>
      have heq := hlength.1 hf
      have htake := List.prefix_iff_eq_take.mp hvalues
      rw [heq, List.length_take] at htake
      refine ⟨rfl, htake.trans ?_⟩
      have hle : k ≤ ds.length := hk.trans (length_values_le cpu ds)
      rw [Nat.min_eq_left hle]

theorem getD_take_of_lt {values : List UInt32} {i k : Nat} (h : i < k) :
    (values.take k).getD i 0 = values.getD i 0 := by
  simp [List.getD_eq_getElem?_getD, h]

end Evaluation

namespace Dataflow

open Evaluation

variable {σ : Type} [Processor σ]

def evaluate (flow : Dataflow) (cpu : σ) : Evaluation σ := ofDefinitions cpu flow.definitions.toList

def evaluateTo (flow : Dataflow) (k : Nat) (cpu : σ) : Evaluation σ :=
  ofDefinitions cpu (flow.definitions.toList.take k)

theorem evaluate_push (flow : Dataflow) (cpu : σ) (d : Definition) :
    (flow.push d).evaluate cpu = (flow.evaluate cpu).extend (Interpreter.entryValues cpu) d := by
  rw [evaluate, push, Array.toList_push, ofDefinitions_append]
  rfl

/-- The values that nodes without effects and faults must have. -/
def Settled (σ : Type) [Processor σ] (entry : ElementMap UInt32) (ρ : Node → UInt32) (d : Definition) (v : UInt32) :
    Prop :=
  match d.kind with
  | .entry e => v = entry.get e
  | .constant value => v = value
  | .op _ _ f => ∀ cpu : σ, f.perform (args ρ d.inputs) cpu = (.value v, cpu)

def Consistent (σ : Type) [Processor σ] (flow : Dataflow) (entry : ElementMap UInt32) (ρ : Node → UInt32) (k : Nat) :
    Prop :=
  ∀ n d, n.index < k → flow.get? n = some d → d.isOrdered = false → Settled σ entry ρ d (ρ n)

/-- Nodes are performed in order, and none of them faults. -/
inductive Performs (flow : Dataflow) (ρ : Node → UInt32) : List Node → σ → Bool → σ → Bool → Prop
  | nil (cpu : σ) (switched : Bool) : Performs flow ρ [] cpu switched cpu switched
  | cons {n : Node} {ns : List Node} {d : Definition} {m : Microcode} {e : Element} {f : Fragment} {reply : Reply}
      {cpu cpu₁ cpu' : σ} {switched switched₁ switched' : Bool}
      (hd : flow.get? n = some d) (hk : d.kind = .op m e f)
      (hp : f.perform (args ρ d.inputs) cpu = (reply, cpu₁)) (hr : reply.result = .ok (ρ n, switched₁))
      (h : Performs flow ρ ns cpu₁ (switched || switched₁) cpu' switched') :
      Performs flow ρ (n :: ns) cpu switched cpu' switched'

theorem Performs.append {flow : Dataflow} {ρ : Node → UInt32} {ns ms : List Node} {cpu cpu₁ cpu' : σ}
    {switched switched₁ switched' : Bool} (h : Performs flow ρ ns cpu switched cpu₁ switched₁)
    (h' : Performs flow ρ ms cpu₁ switched₁ cpu' switched') :
    Performs flow ρ (ns ++ ms) cpu switched cpu' switched' := by
  induction h with
  | nil cpu switched => exact h'
  | cons hd hk hp hr _ ih => exact .cons hd hk hp hr (ih h')

theorem Performs.get [SteadyProcessor σ] {flow : Dataflow} {ρ : Node → UInt32} {ns : List Node} {cpu cpu' : σ}
    {switched switched' : Bool} (h : Performs flow ρ ns cpu switched cpu' switched') (e : Element) :
    Processor.get cpu' e = Processor.get cpu e := by
  induction h with
  | nil cpu switched => rfl
  | cons _ _ hp _ _ ih => exact ih.trans (Fragment.get_of_perform hp e)

def orderedBelow (flow : Dataflow) (k : Nat) : List Node := ((List.range k).map Node.mk).filter flow.isOrdered

theorem orderedBelow_succ (flow : Dataflow) (k : Nat) :
    flow.orderedBelow (k + 1) = flow.orderedBelow k ++ if flow.isOrdered ⟨k⟩ then [⟨k⟩] else [] := by
  rw [orderedBelow, List.range_succ, List.map_append, List.filter_append]
  cases h : flow.isOrdered ⟨k⟩ <;> simp [orderedBelow, h]

theorem orderedBelow_size (flow : Dataflow) : flow.orderedBelow flow.size = flow.nodesWhere Definition.isOrdered := rfl

theorem mem_orderedBelow {flow : Dataflow} {k : Nat} {n : Node} :
    n ∈ flow.orderedBelow k ↔ n.index < k ∧ flow.isOrdered n = true := by
  rw [orderedBelow, List.mem_filter]
  refine and_congr_left fun _ => ?_
  constructor
  · intro h
    obtain ⟨i, hi, rfl⟩ := List.mem_map.mp h
    exact List.mem_range.mp hi
  · intro h
    exact List.mem_map.mpr ⟨n.index, List.mem_range.mpr h, rfl⟩

theorem exists_orderedBelow_append (flow : Dataflow) {k l : Nat} (h : k ≤ l) :
    ∃ later, flow.orderedBelow l = flow.orderedBelow k ++ later := by
  induction l, h using Nat.le_induction with
  | base => exact ⟨[], by simp⟩
  | succ l _ ih =>
      obtain ⟨later, hlater⟩ := ih
      exact ⟨later ++ _, by rw [orderedBelow_succ, hlater, List.append_assoc]⟩

theorem exists_nodesWhere_isOrdered {flow : Dataflow} {n : Node} (hn : n.index < flow.size)
    (ho : flow.isOrdered n = true) :
    ∃ after, flow.nodesWhere Definition.isOrdered = flow.orderedBelow n.index ++ n :: after := by
  obtain ⟨after, hafter⟩ := exists_orderedBelow_append flow (Nat.succ_le_of_lt hn)
  refine ⟨after, ?_⟩
  rw [← orderedBelow_size, hafter, Nat.succ_eq_add_one, orderedBelow_succ, if_pos ho, List.append_assoc]
  rfl

theorem args_congr {ρ ρ' : Node → UInt32} {inputs : List Node} (h : ∀ i ∈ inputs, ρ i = ρ' i) :
    args ρ inputs = args ρ' inputs := by
  funext i
  rw [args, args, List.map_congr_left h]

theorem length_evaluate_eq {flow : Dataflow} {cpu : σ} (h : (flow.evaluate cpu).fault = none) :
    (flow.evaluate cpu).values.length = flow.size :=
  ((length_values cpu flow.definitions.toList).1 h).trans Array.length_toList

theorem length_evaluate_lt {flow : Dataflow} {cpu : σ} {fault : Fault} (h : (flow.evaluate cpu).fault = some fault) :
    (flow.evaluate cpu).values.length < flow.size :=
  ((length_values cpu flow.definitions.toList).2 fault h).trans_eq Array.length_toList

theorem length_evaluate_le (flow : Dataflow) (cpu : σ) : (flow.evaluate cpu).values.length ≤ flow.size :=
  (length_values_le cpu flow.definitions.toList).trans_eq Array.length_toList

theorem evaluateTo_succ {flow : Dataflow} {k : Nat} {d : Definition} (hd : flow.get? ⟨k⟩ = some d) (cpu : σ) :
    flow.evaluateTo (k + 1) cpu = (flow.evaluateTo k cpu).extend (Interpreter.entryValues cpu) d := by
  have hget : flow.definitions.toList[k]? = some d := (Array.getElem?_toList).trans hd
  rw [evaluateTo, List.take_add_one, hget, Option.toList_some, ofDefinitions_append]
  rfl

theorem fault_evaluateTo {flow : Dataflow} {cpu : σ} {k : Nat} (hk : k ≤ (flow.evaluate cpu).values.length) :
    (flow.evaluateTo k cpu).fault = none := (ofDefinitions_take hk).1

theorem values_evaluateTo {flow : Dataflow} {cpu : σ} {k : Nat} (hk : k ≤ (flow.evaluate cpu).values.length) :
    (flow.evaluateTo k cpu).values = (flow.evaluate cpu).values.take k := (ofDefinitions_take hk).2

theorem value_evaluateTo {flow : Dataflow} {cpu : σ} {k : Nat} (hk : k ≤ (flow.evaluate cpu).values.length) {n : Node}
    (hn : n.index < k) : (flow.evaluateTo k cpu).value n = (flow.evaluate cpu).value n := by
  rw [value, values_evaluateTo hk, getD_take_of_lt hn]
  rfl

theorem evaluateTo_step {flow : Dataflow} (hflow : flow.WellFormed) {cpu : σ} {k : Nat} {d : Definition}
    (hk : k < (flow.evaluate cpu).values.length) (hd : flow.get? ⟨k⟩ = some d) :
    ((∀ m e f, d.kind ≠ .op m e f) ∧
        Settled σ (Interpreter.entryValues cpu) (flow.evaluate cpu).value d ((flow.evaluate cpu).value ⟨k⟩) ∧
        (flow.evaluateTo (k + 1) cpu).cpu = (flow.evaluateTo k cpu).cpu ∧
        (flow.evaluateTo (k + 1) cpu).switched = (flow.evaluateTo k cpu).switched) ∨
      ∃ m e f reply switched, d.kind = .op m e f ∧
        f.perform (args (flow.evaluate cpu).value d.inputs) (flow.evaluateTo k cpu).cpu =
          (reply, (flow.evaluateTo (k + 1) cpu).cpu) ∧
        reply.result = .ok ((flow.evaluate cpu).value ⟨k⟩, switched) ∧
        (flow.evaluateTo (k + 1) cpu).switched = ((flow.evaluateTo k cpu).switched || switched) := by
  have hargs : args (flow.evaluateTo k cpu).value d.inputs = args (flow.evaluate cpu).value d.inputs :=
    args_congr fun i hi => value_evaluateTo (Nat.le_of_lt hk) ((hflow _ d hd).inputs_lt i hi)
  have hlength : (flow.evaluateTo k cpu).values.length = k := by
    rw [values_evaluateTo (Nat.le_of_lt hk), List.length_take, Nat.min_eq_left (Nat.le_of_lt hk)]
  have hlast {v : UInt32} (h : (flow.evaluateTo (k + 1) cpu).values = (flow.evaluateTo k cpu).values ++ [v]) :
      (flow.evaluate cpu).value ⟨k⟩ = v := by
    rw [← value_evaluateTo (Nat.succ_le_of_lt hk) (Nat.lt_succ_self k), value, h, List.getD_eq_getElem?_getD,
      List.getElem?_append_right hlength.le, hlength, Nat.sub_self]
    rfl
  have hfault := fault_evaluateTo (Nat.succ_le_of_lt hk)
  rcases extend_cases (Interpreter.entryValues cpu) (fault_evaluateTo (Nat.le_of_lt hk)) d with
    ⟨e, hkind, he⟩ | ⟨v, hkind, he⟩ | ⟨m, e, f, reply, cpu', hkind, hperform, ⟨v, switched, hr, he⟩ | ⟨fault, _, he⟩⟩
  · rw [← evaluateTo_succ hd] at he
    refine .inl ⟨by simp [hkind], ?_, by rw [he], by rw [he]⟩
    rw [hlast (congrArg values he), Settled, hkind]
  · rw [← evaluateTo_succ hd] at he
    refine .inl ⟨by simp [hkind], ?_, by rw [he], by rw [he]⟩
    rw [hlast (congrArg values he), Settled, hkind]
  · rw [← evaluateTo_succ hd] at he
    refine .inr ⟨m, e, f, reply, switched, hkind, ?_, ?_, by rw [he]⟩
    · rw [← hargs, hperform, he]
    · rw [hlast (congrArg values he), hr]
  · rw [← evaluateTo_succ hd] at he
    rw [he] at hfault
    cases hfault

theorem consistent_evaluate {flow : Dataflow} (hflow : flow.WellFormed) (cpu : σ) :
    Consistent σ flow (Interpreter.entryValues cpu) (flow.evaluate cpu).value (flow.evaluate cpu).values.length := by
  rintro ⟨k⟩ d hk hd ho
  rcases evaluateTo_step hflow hk hd with ⟨_, hsettled, _⟩ | ⟨m, e, f, reply, switched, hkind, hperform, hr, _⟩
  · exact hsettled
  · obtain ⟨v, hv⟩ := Fragment.perform_of_isPure (σ := σ) ((hflow _ d hd).isPure m e f hkind ho)
      (args (flow.evaluate cpu).value d.inputs)
    rw [hv] at hperform
    obtain ⟨rfl, _⟩ := Prod.mk.inj hperform
    obtain ⟨hvalue, _⟩ := Prod.mk.inj (Except.ok.inj hr)
    rw [Settled, hkind, ← hvalue]
    exact hv

theorem performs_evaluateTo {flow : Dataflow} (hflow : flow.WellFormed) (cpu : σ) {k : Nat}
    (hk : k ≤ (flow.evaluate cpu).values.length) :
    Performs flow (flow.evaluate cpu).value (flow.orderedBelow k) cpu false (flow.evaluateTo k cpu).cpu
      (flow.evaluateTo k cpu).switched := by
  induction k with
  | zero => exact .nil cpu false
  | succ k ih =>
      obtain ⟨d, hd⟩ : ∃ d, flow.get? ⟨k⟩ = some d := exists_get? (Nat.lt_of_lt_of_le hk (length_evaluate_le flow cpu))
      have hbefore := ih (Nat.le_of_succ_le hk)
      rw [orderedBelow_succ, isOrdered_eq hd]
      cases ho : d.isOrdered with
      | true =>
          obtain ⟨m, e, f, hkind⟩ := (hflow _ d hd).exists_op_of_isOrdered ho
          rcases evaluateTo_step hflow hk hd with
            ⟨hleaf, _⟩ | ⟨m, e, f, reply, switched, hkind, hperform, hr, hswitched⟩
          · exact absurd hkind (hleaf m e f)
          · refine hbefore.append ?_
            rw [if_pos rfl, hswitched]
            exact .cons hd hkind hperform hr (.nil _ _)
      | false =>
          rw [if_neg (by simp), List.append_nil]
          -- a node without effects may still be an operation, but then it leaves the processor alone
          rcases evaluateTo_step hflow hk hd with
            ⟨_, _, hcpu, hswitched⟩ | ⟨m, e, f, reply, switched, hkind, hperform, hr, hswitched⟩
          · rw [hcpu, hswitched]
            exact hbefore
          · have hsettled := consistent_evaluate hflow cpu ⟨k⟩ d hk hd ho
            rw [Settled, hkind] at hsettled
            rw [hsettled] at hperform
            obtain ⟨rfl, hcpu⟩ := Prod.mk.inj hperform
            obtain ⟨_, rfl⟩ := Prod.mk.inj (Except.ok.inj hr)
            rw [hswitched, Bool.or_false, ← hcpu]
            exact hbefore

theorem evaluateTo_size (flow : Dataflow) (cpu : σ) : flow.evaluateTo flow.size cpu = flow.evaluate cpu := by
  rw [evaluateTo, evaluate, List.take_of_length_le]
  exact (Array.length_toList).le

/-- The node at which evaluation stopped can fault, and did. -/
theorem faults_evaluate {flow : Dataflow} (hflow : flow.WellFormed) {cpu : σ} {fault : Fault}
    (h : (flow.evaluate cpu).fault = some fault) :
    ∃ d m e f, flow.get? ⟨(flow.evaluate cpu).values.length⟩ = some d ∧ d.kind = .op m e f ∧ d.canFault = true ∧
      f.perform (args (flow.evaluate cpu).value d.inputs)
          (flow.evaluateTo (flow.evaluate cpu).values.length cpu).cpu = (.fault fault, (flow.evaluate cpu).cpu) := by
  generalize hk : (flow.evaluate cpu).values.length = k
  obtain ⟨d, hd⟩ : ∃ d, flow.get? ⟨k⟩ = some d := exists_get? (hk ▸ length_evaluate_lt h)
  have hargs : args (flow.evaluateTo k cpu).value d.inputs = args (flow.evaluate cpu).value d.inputs :=
    args_congr fun i hi => value_evaluateTo hk.ge ((hflow _ d hd).inputs_lt i hi)
  have hrest : flow.evaluate cpu =
      (flow.definitions.toList.drop (k + 1)).foldl (extend (Interpreter.entryValues cpu))
        (flow.evaluateTo (k + 1) cpu) := by
    rw [evaluateTo, ← ofDefinitions_append, List.take_append_drop, evaluate]
  -- a value for node `k` would be one more than evaluation has
  have hnot {v : UInt32} (hv : (flow.evaluateTo (k + 1) cpu).values = (flow.evaluateTo k cpu).values ++ [v]) :
      False := by
    have hvalues := (values_isPrefix_foldl (Interpreter.entryValues cpu) (flow.evaluateTo (k + 1) cpu)
      (flow.definitions.toList.drop (k + 1))).length_le
    rw [← hrest, hv, values_evaluateTo hk.ge, List.length_append, List.length_take, hk, Nat.min_self] at hvalues
    exact Nat.not_succ_le_self k hvalues
  rcases extend_cases (Interpreter.entryValues cpu) (fault_evaluateTo hk.ge) d with
    ⟨e, _, he⟩ | ⟨v, _, he⟩ | ⟨m, e, f, reply, cpu', hkind, hperform, ⟨v, switched, _, he⟩ | ⟨fault', hr, he⟩⟩
  · exact (hnot ((congrArg values (evaluateTo_succ hd cpu)).trans (congrArg values he))).elim
  · exact (hnot ((congrArg values (evaluateTo_succ hd cpu)).trans (congrArg values he))).elim
  · exact (hnot ((congrArg values (evaluateTo_succ hd cpu)).trans (congrArg values he))).elim
  · rw [← evaluateTo_succ hd] at he
    have hend : flow.evaluate cpu = flow.evaluateTo (k + 1) cpu :=
      hrest.trans (foldl_extend_of_fault (congrArg Evaluation.fault he) _)
    have hreply : reply = .fault fault := by
      rw [hend, he] at h
      cases h
      cases reply <;> cases hr
      rfl
    subst hreply
    refine ⟨d, m, e, f, hd, hkind, ?_, ?_⟩
    · by_contra hcan
      have hnever := (hflow _ d hd).mayFault m e f hkind (by simpa using hcan)
      exact Fragment.perform_ne_fault hnever _ _ fault (congrArg Prod.fst hperform)
    · rw [← hargs, hperform, hend, he]

end Dataflow

end Dynarec
