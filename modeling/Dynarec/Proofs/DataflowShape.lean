import Dynarec.Proofs.FragmentPurity
import Dynarec.Dataflow
import Mathlib.Data.List.Basic
import Mathlib.Order.Nat

namespace Dynarec

theorem bind_eq_ok {ε α β : Type} {x : Except ε α} {f : α → Except ε β} {b : β} :
    (x >>= f) = .ok b ↔ ∃ a, x = .ok a ∧ f a = .ok b := by
  cases x <;> simp [bind, Except.bind]

theorem pure_eq_ok {ε α : Type} {a b : α} : (pure a : Except ε α) = .ok b ↔ a = b := by
  simp [pure, Except.pure]

theorem exists_eq_ok {ε α : Type} {x : Except ε α} (h : x.toOption.isSome = true) : ∃ a, x = .ok a := by
  cases x with
  | error e => cases h
  | ok a => exact ⟨a, rfl⟩

namespace Node

theorem ext_index {a b : Node} (h : a.index = b.index) : a = b := by
  cases a
  cases b
  exact congrArg Node.mk h

end Node

namespace Definition

/-- What a definition made from a rule, as node number `n`, is like. -/
structure WellFormed (n : Nat) (d : Definition) : Prop where
  inputs_lt : ∀ i ∈ d.inputs, i.index < n
  leaf : (∀ m e f, d.kind ≠ .op m e f) → d.inputs = [] ∧ d.hasEffect = false ∧ d.canFault = false
  arity : ∀ m e f, d.kind = .op m e f → d.inputs.length = f.arity
  isPure : ∀ m e f, d.kind = .op m e f → d.isOrdered = false → f.isPure = true
  mayFault : ∀ m e f, d.kind = .op m e f → d.canFault = false → f.mayFault = false

theorem WellFormed.exists_op_of_isOrdered {n : Nat} {d : Definition} (h : d.WellFormed n)
    (ho : d.isOrdered = true) : ∃ m e f, d.kind = .op m e f := by
  by_contra hleaf
  simp only [not_exists] at hleaf
  obtain ⟨_, heffect, hfault⟩ := h.leaf hleaf
  simp [isOrdered, heffect, hfault] at ho

theorem wellFormed_ofEntry (n : Nat) (e : Element) : (ofEntry e).WellFormed n := by
  constructor <;> simp [ofEntry]

theorem wellFormed_ofConstant (n : Nat) (value : UInt32) (x86Index : Nat) :
    (ofConstant value x86Index).WellFormed n := by
  constructor <;> simp [ofConstant]

theorem wellFormed_ofTarget {n : Nat} {t : Target} (ht : t.Sound) (m : Microcode) (x86Index : Nat)
    {inputs : List Node} (hlen : inputs.length = t.inputs.length) (hlt : ∀ i ∈ inputs, i.index < n) :
    (ofTarget m t x86Index inputs).WellFormed n where
  inputs_lt := hlt
  leaf h := absurd rfl (h m t.element t.fragment)
  arity _ _ _ h := by
    cases h
    exact hlen.trans ht.arity
  isPure _ _ _ h ho := by
    cases h
    exact ht.isPure ho
  mayFault _ _ _ h hc := by
    cases h
    exact ht.mayFault hc

end Definition

namespace Dataflow

theorem size_push (flow : Dataflow) (d : Definition) : (flow.push d).size = flow.size + 1 :=
  Array.size_push d

theorem get?_push (flow : Dataflow) (d : Definition) (n : Node) :
    (flow.push d).get? n = if n.index = flow.size then some d else flow.get? n :=
  Array.getElem?_push

theorem get?_eq_none {flow : Dataflow} {n : Node} (h : flow.size ≤ n.index) : flow.get? n = none :=
  Array.getElem?_eq_none h

theorem lt_size_of_get? {flow : Dataflow} {n : Node} {d : Definition} (h : flow.get? n = some d) :
    n.index < flow.size := by
  by_contra hn
  rw [get?_eq_none (by omega)] at h
  cases h

theorem exists_get? {flow : Dataflow} {n : Node} (h : n.index < flow.size) : ∃ d, flow.get? n = some d :=
  ⟨_, Array.getElem?_eq_getElem h⟩

theorem get?_push_of_get? {flow : Dataflow} {n : Node} {d : Definition} (h : flow.get? n = some d)
    (d' : Definition) : (flow.push d').get? n = some d := by
  have hn := lt_size_of_get? h
  rw [get?_push, if_neg (by omega), h]

theorem inputs_eq {flow : Dataflow} {n : Node} {d : Definition} (h : flow.get? n = some d) :
    flow.inputs n = d.inputs := by
  simp [inputs, h]

theorem isOrdered_eq {flow : Dataflow} {n : Node} {d : Definition} (h : flow.get? n = some d) :
    flow.isOrdered n = d.isOrdered := by
  simp [isOrdered, h]

theorem addOp_eq_ok_iff {flow flow' : Dataflow} {m : Microcode} {t : Target} {x86Index : Nat} {inputs : List Node} :
    flow.addOp m t x86Index inputs = .ok flow' ↔
      inputs.length = t.fragment.arity ∧ (∀ i ∈ inputs, i.index < flow.size) ∧
        flow' = flow.push (.ofTarget m t x86Index inputs) := by
  rw [addOp]
  split
  next hlen => simp [hlen]
  next hlen =>
    rw [not_not] at hlen
    cases hfind : inputs.find? (fun n => flow.size ≤ n.index) with
    | some i =>
        have hlate : flow.size ≤ i.index := by simpa using List.find?_some hfind
        have hnot : ¬ ∀ i ∈ inputs, i.index < flow.size :=
          fun hall => Nat.not_lt.mpr hlate (hall i (List.mem_of_find?_eq_some hfind))
        simp [hnot]
    | none =>
        have hall : ∀ i ∈ inputs, i.index < flow.size := by simpa using hfind
        constructor
        · rintro ⟨⟩
          exact ⟨hlen, hall, rfl⟩
        · rintro ⟨_, _, rfl⟩
          rfl

/-- The dataflow was made by additions, none of which was refused. -/
inductive Made : Dataflow → Prop
  | empty : Made .empty
  | entry {flow flow' : Dataflow} (e : Element) (h : Made flow) (hadd : flow.addEntry e = .ok flow') : Made flow'
  | constant {flow : Dataflow} (value : UInt32) (x86Index : Nat) (h : Made flow) : Made (flow.addConstant value x86Index)
  | op {flow flow' : Dataflow} {m : Microcode} {t : Target} {x86Index : Nat} {inputs : List Node} (h : Made flow)
      (hadd : flow.addOp m t x86Index inputs = .ok flow') : Made flow'

theorem Made.entries {flow flow' : Dataflow} {es : List Element} (h : Made flow)
    (hadd : es.foldlM addEntry flow = .ok flow') : Made flow' := by
  induction es generalizing flow with
  | nil =>
      cases hadd
      exact h
  | cons e es ih =>
      rw [List.foldlM_cons, bind_eq_ok] at hadd
      obtain ⟨flow₁, h₁, hadd⟩ := hadd
      exact ih (h.entry e h₁) hadd

theorem mem_nodes {flow : Dataflow} {n : Node} : n ∈ flow.nodes ↔ n.index < flow.size := by
  simp only [nodes, List.mem_map, List.mem_range]
  constructor
  · rintro ⟨i, hi, rfl⟩
    exact hi
  · intro hn
    exact ⟨n.index, hn, rfl⟩

theorem nodes_push (flow : Dataflow) (d : Definition) : (flow.push d).nodes = flow.nodes ++ [flow.next] := by
  simp [nodes, size_push, List.range_succ, next]

def nodesWhere (flow : Dataflow) (p : Definition → Bool) : List Node :=
  flow.nodes.filter fun n => (flow.get? n).any p

theorem mem_nodesWhere {flow : Dataflow} {p : Definition → Bool} {n : Node} :
    n ∈ flow.nodesWhere p ↔ ∃ d, flow.get? n = some d ∧ p d = true := by
  simp only [nodesWhere, List.mem_filter, mem_nodes, Option.any_eq_true]
  constructor
  · exact fun h => h.2
  · rintro ⟨d, hd, hp⟩
    exact ⟨lt_size_of_get? hd, d, hd, hp⟩

theorem nodesWhere_push (flow : Dataflow) (d : Definition) (p : Definition → Bool) :
    (flow.push d).nodesWhere p = flow.nodesWhere p ++ if p d then [flow.next] else [] := by
  rw [nodesWhere, nodes_push, List.filter_append]
  congr 1
  · apply List.filter_congr
    intro n hn
    rw [get?_push, if_neg (Nat.ne_of_lt (mem_nodes.mp hn))]
  · cases hp : p d <;> simp [get?_push, next, hp]

theorem nodes_pairwise (flow : Dataflow) : flow.nodes.Pairwise (fun a b => a.index < b.index) := by
  rw [nodes, List.pairwise_map]
  exact List.pairwise_lt_range

theorem nodesWhere_pairwise (flow : Dataflow) (p : Definition → Bool) :
    (flow.nodesWhere p).Pairwise (fun a b => a.index < b.index) :=
  flow.nodes_pairwise.filter _

theorem nodesWhere_sublist (flow : Dataflow) {p q : Definition → Bool} (h : ∀ d, p d = true → q d = true) :
    (flow.nodesWhere p).Sublist (flow.nodesWhere q) := by
  apply List.monotone_filter_right
  intro n hn
  obtain ⟨d, hd, hp⟩ := (Option.any_eq_true _ _).mp hn
  exact (Option.any_eq_true _ _).mpr ⟨d, hd, h d hp⟩

theorem nodesWhere_nodup (flow : Dataflow) (p : Definition → Bool) : (flow.nodesWhere p).Nodup := by
  refine (flow.nodesWhere_pairwise p).imp ?_
  rintro a b h rfl
  exact Nat.lt_irrefl _ h

def WellFormed (flow : Dataflow) : Prop := ∀ n d, flow.get? n = some d → d.WellFormed n.index

theorem WellFormed.inputs_lt {flow : Dataflow} (h : flow.WellFormed) {n i : Node} (hi : i ∈ flow.inputs n) :
    i.index < n.index := by
  rw [inputs] at hi
  split at hi
  · cases hi
  · rename_i d hd
    exact (h n d hd).inputs_lt i hi

theorem WellFormed.push {flow : Dataflow} (h : flow.WellFormed) {d : Definition} (hd : d.WellFormed flow.size) :
    (flow.push d).WellFormed := by
  intro n d' hn
  rw [get?_push] at hn
  split at hn
  · rename_i hi
    cases hn
    rw [hi]
    exact hd
  · exact h n d' hn

end Dataflow

end Dynarec
