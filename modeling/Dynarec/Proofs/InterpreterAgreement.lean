import Dynarec.Proofs.DataflowEvaluation
import Dynarec.Proofs.GraphInvariant

namespace Dynarec

namespace Evaluation

variable {σ : Type}

theorem value_of_isPrefix {ev ev' : Evaluation σ} (h : ev.values <+: ev'.values) {n : Node}
    (hn : n.index < ev.values.length) : ev'.value n = ev.value n := by
  obtain ⟨later, hlater⟩ := h
  rw [value, value, ← hlater, List.getD_eq_getElem?_getD, List.getElem?_append_left hn, List.getD_eq_getElem?_getD]

/-- Definitions by nodes say the same as definitions by values: what the run left alone has its node
on entry, and what it defined has a later node. -/
def Denotes (ev : Evaluation σ) (current : Definitions) (defined : ElementMap (Option UInt32)) : Prop :=
  ∀ e, (defined.get e = none → current.get e = Graph.entryDefinitions.get e) ∧
    ∀ v, defined.get e = some v → ∃ n, current.get e = some n ∧ Graph.entryDataflow.size ≤ n.index ∧
      n.index < ev.values.length ∧ ev.value n = v

theorem Denotes.mono {ev ev' : Evaluation σ} {current : Definitions} {defined : ElementMap (Option UInt32)}
    (h : ev.Denotes current defined) (hvalues : ev.values <+: ev'.values) : ev'.Denotes current defined := by
  intro e
  refine ⟨(h e).1, fun v hv => ?_⟩
  obtain ⟨n, hn, hlow, hlt, hvalue⟩ := (h e).2 v hv
  exact ⟨n, hn, hlow, hlt.trans_le hvalues.length_le, (value_of_isPrefix hvalues hlt).trans hvalue⟩

structure Defines (ev : Evaluation σ) (p : Element × Node) (r : Element × UInt32) : Prop where
  element : p.1 = r.1
  le_index : Graph.entryDataflow.size ≤ p.2.index
  index_lt : p.2.index < ev.values.length
  value : ev.value p.2 = r.2

theorem Defines.mono {ev ev' : Evaluation σ} {p : Element × Node} {r : Element × UInt32} (h : ev.Defines p r)
    (hvalues : ev.values <+: ev'.values) : ev'.Defines p r :=
  ⟨h.element, h.le_index, h.index_lt.trans_le hvalues.length_le, (value_of_isPrefix hvalues h.index_lt).trans h.value⟩

theorem Denotes.set {ev : Evaluation σ} {current : Definitions} {defined : ElementMap (Option UInt32)}
    (h : ev.Denotes current defined) {p : Element × Node} {r : Element × UInt32} (hp : ev.Defines p r) :
    ev.Denotes (current.set p.1 (some p.2)) (defined.set r.1 (some r.2)) := by
  intro e
  rw [ElementMap.get_set, ElementMap.get_set, hp.element]
  by_cases he : r.1 = e
  · rw [if_pos he, if_pos he]
    refine ⟨by simp, fun v hv => ?_⟩
    cases hv
    exact ⟨p.2, rfl, hp.le_index, hp.index_lt, hp.value⟩
  · rw [if_neg he, if_neg he]
    exact h e

/-- A boundary keeps the state that the interpreter keeps at the start of an instruction. -/
structure StartDenotes (ev : Evaluation σ) (start : Boundary) (s : Interpreter.Start) : Prop where
  x86Index : start.x86Index = s.x86Index
  lag : start.eipLag = s.lag
  defined : ∃ current : Definitions, ev.Denotes current s.defined ∧
    start.snapshot = current.changedFrom Graph.entryDefinitions ∧
    start.eip = (current.get .eip).getD Graph.entryEip

theorem StartDenotes.mono {ev ev' : Evaluation σ} {start : Boundary} {s : Interpreter.Start}
    (h : ev.StartDenotes start s) (hvalues : ev.values <+: ev'.values) : ev'.StartDenotes start s := by
  obtain ⟨current, hdenotes, hsnapshot, heip⟩ := h.defined
  exact ⟨h.x86Index, h.lag, current, hdenotes.mono hvalues, hsnapshot, heip⟩

end Evaluation

namespace Graph.Builder

open Interpreter Evaluation

variable {σ : Type} [Processor σ] {cpu₀ cpu : σ}

/-- The walks of the builder and of the interpreter are at the same place. -/
structure Follows (cpu₀ : σ) (b : Builder) (s : Start) (p : Progress) (switched : Bool) (cpu : σ) : Prop where
  fault : (b.dataflow.evaluate cpu₀).fault = none
  cpu : (b.dataflow.evaluate cpu₀).cpu = cpu
  switched : (b.dataflow.evaluate cpu₀).switched = switched
  defined : (b.dataflow.evaluate cpu₀).Denotes b.current p.defined
  eipSynced : b.eipSynced = p.eipSynced
  position : b.position = p.position
  start : (b.dataflow.evaluate cpu₀).StartDenotes b.start s

theorem Grows.values_isPrefix {b b' : Builder} (h : Grows b b') (cpu₀ : σ) :
    (b.dataflow.evaluate cpu₀).values <+: (b'.dataflow.evaluate cpu₀).values := by
  obtain ⟨ds, hds⟩ := h.dataflow
  rw [Dataflow.evaluate, Dataflow.evaluate, ← hds, ofDefinitions_append]
  exact values_isPrefix_foldl _ _ _

theorem Follows.grow {b b' : Builder} {s : Start} {p : Progress} {switched switched' : Bool} {cpu' : σ}
    (h : Follows cpu₀ b s p switched cpu) (hgrows : Grows b b') (hunmoved : Unmoved b b')
    (hfault : (b'.dataflow.evaluate cpu₀).fault = none) (hcpu : (b'.dataflow.evaluate cpu₀).cpu = cpu')
    (hswitched : (b'.dataflow.evaluate cpu₀).switched = switched') : Follows cpu₀ b' s p switched' cpu' where
  fault := hfault
  cpu := hcpu
  switched := hswitched
  defined := by
    rw [hunmoved.current]
    exact h.defined.mono (hgrows.values_isPrefix cpu₀)
  eipSynced := hunmoved.eipSynced.trans h.eipSynced
  position := hunmoved.position.trans h.position
  start := by
    rw [hunmoved.start]
    exact h.start.mono (hgrows.values_isPrefix cpu₀)

theorem value_next {b : Builder} {v : UInt32} {d : Definition} (hfault : (b.dataflow.evaluate cpu₀).fault = none)
    (h : ((b.dataflow.push d).evaluate cpu₀).values = (b.dataflow.evaluate cpu₀).values ++ [v]) :
    ((b.dataflow.push d).evaluate cpu₀).value b.dataflow.next = v := by
  have hlength := Dataflow.length_evaluate_eq hfault
  rw [value, h, List.getD_eq_getElem?_getD, Dataflow.next, List.getElem?_append_right hlength.le, hlength, Nat.sub_self]
  rfl

theorem operand_agrees {b b' : Builder} {s : Start} {p : Progress} {switched : Bool} {op : MicroOp} {m : Microcode}
    {o : Operand} {n : Node} (hb : b.Invariant) (h : Follows cpu₀ b s p switched cpu)
    (ho : b.operand op m o = .ok (n, b')) :
    operand? (entryValues cpu₀) p op o = some ((b'.dataflow.evaluate cpu₀).value n) ∧
      Follows cpu₀ b' s p switched cpu := by
  rcases operand_ok ho with ⟨rfl, e, rfl, hn⟩ | ⟨value, hpush, hsource⟩
  · refine ⟨?_, h⟩
    rw [operand?, Progress.value]
    cases hdefined : p.defined.get e with
    | none =>
        -- what was not defined yet still has its value from the start
        have hentry := (h.defined e).1 hdefined
        rw [hn] at hentry
        have hlt : n.index < (b'.dataflow.evaluate cpu₀).values.length := by
          rw [Dataflow.length_evaluate_eq h.fault]
          exact hb.current_lt e n hn
        have hsettled := Dataflow.consistent_evaluate hb.flow cpu₀ n _ hlt (hb.entries e n hentry.symm) rfl
        exact congrArg some hsettled.symm
    | some v =>
        obtain ⟨n', hn', _, _, hvalue⟩ := (h.defined e).2 v hdefined
        rw [hn] at hn'
        cases hn'
        exact congrArg some hvalue.symm
  · cases hpush
    have hextend : (b.dataflow.push (.ofConstant value op.x86Index)).evaluate cpu₀ =
        { b.dataflow.evaluate cpu₀ with values := (b.dataflow.evaluate cpu₀).values ++ [value] } := by
      rw [Dataflow.evaluate_push, extend_constant _ h.fault rfl]
    refine ⟨?_, h.grow (grows_push b _) (unmoved_push b _) ?_ ?_ ?_⟩
    · have hvalue : ((b.dataflow.push (.ofConstant value op.x86Index)).evaluate cpu₀).value b.dataflow.next = value :=
        value_next h.fault (congrArg values hextend)
      rcases hsource with ⟨rfl, himmediate⟩ | ⟨rfl, hlength⟩
      · exact himmediate.trans (congrArg some hvalue.symm)
      · rw [operand?, ← h.eipSynced, hlength]
        exact congrArg some hvalue.symm
    · exact (congrArg Evaluation.fault hextend).trans h.fault
    · exact (congrArg Evaluation.cpu hextend).trans h.cpu
    · exact (congrArg Evaluation.switched hextend).trans h.switched

theorem operands_agree {b b' : Builder} {s : Start} {p : Progress} {switched : Bool} {op : MicroOp} {m : Microcode}
    {os : List Operand} {ns : List Node} (hb : b.Invariant) (h : Follows cpu₀ b s p switched cpu)
    (ho : operands op m b os = .ok (ns, b')) :
    os.mapM (operand? (entryValues cpu₀) p op) = some (ns.map (b'.dataflow.evaluate cpu₀).value) ∧
      Follows cpu₀ b' s p switched cpu := by
  induction os generalizing b b' ns with
  | nil =>
      cases ho
      exact ⟨rfl, h⟩
  | cons o os ih =>
      rw [operands, bind_eq_ok] at ho
      obtain ⟨⟨n, b₁⟩, hn, ho⟩ := ho
      obtain ⟨⟨ns', b₂⟩, hns, ho⟩ := bind_eq_ok.mp ho
      cases ho
      obtain ⟨hb₁, _, hlt, _⟩ := hb.operand hn
      obtain ⟨hvalue, h₁⟩ := operand_agrees hb h hn
      obtain ⟨hvalues, h₂⟩ := ih hb₁ h₁ hns
      refine ⟨?_, h₂⟩
      have hkeep := value_of_isPrefix ((grows_operands hns).values_isPrefix cpu₀)
        (n := n) (by rw [Dataflow.length_evaluate_eq h₁.fault]; exact hlt)
      rw [List.mapM_cons, hvalue, hvalues, List.map_cons, hkeep]
      rfl

end Graph.Builder

namespace Interpreter

variable {σ : Type} [Processor σ]

theorem targets?_cons {entry : ElementMap UInt32} {p : Progress} {op : MicroOp} {t : Target} {rest : List Target}
    {cpu cpu₁ : σ} {args : List UInt32} {reply : Reply} (hargs : t.inputs.mapM (operand? entry p op) = some args)
    (harity : args.length = t.fragment.arity) (hp : t.fragment.perform (fun i => args.getD i 0) cpu = (reply, cpu₁)) :
    targets? entry p op (t :: rest) cpu =
      match reply.result with
      | .error fault => some (.error fault, cpu₁)
      | .ok (v, switched) => (targets? entry p op rest cpu₁).map fun r =>
          (r.1.map fun ts => ⟨(t.element, v) :: ts.results, switched || ts.switched⟩, r.2) := by
  have heval : t.fragment.evaluate? args cpu = some (reply, cpu₁) := by rw [Fragment.evaluate?, if_pos harity, hp]
  cases hrest : targets? entry p op rest cpu₁ with
  | none => cases reply <;> simp [targets?, hargs, heval, hrest, Reply.result]
  | some r =>
      obtain ⟨result, cpu₂⟩ := r
      cases reply <;> simp [targets?, hargs, heval, hrest, Reply.result]

end Interpreter

namespace Graph.Builder

open Interpreter Evaluation

variable {σ : Type} [Processor σ] {cpu₀ cpu : σ}

/-- The graph so far ends in a fault, and the boundary of the node that faulted keeps the state at the
start of its instruction. -/
structure Faulted (cpu₀ : σ) (b : Builder) (s : Start) (fault : Fault) (cpu : σ) : Prop where
  fault : (b.dataflow.evaluate cpu₀).fault = some fault
  cpu : (b.dataflow.evaluate cpu₀).cpu = cpu
  boundary : ∃ bd ∈ b.boundaries.toList, ⟨(b.dataflow.evaluate cpu₀).values.length⟩ ∈ bd.nodes ∧
    (b.dataflow.evaluate cpu₀).StartDenotes bd s

theorem Faulted.grow {b b' : Builder} {s : Start} {fault : Fault} (h : Faulted cpu₀ b s fault cpu)
    (hgrows : Grows b b') : Faulted cpu₀ b' s fault cpu := by
  have hsame : b'.dataflow.evaluate cpu₀ = b.dataflow.evaluate cpu₀ := by
    obtain ⟨ds, hds⟩ := hgrows.dataflow
    rw [Dataflow.evaluate, ← hds, ofDefinitions_append]
    exact foldl_extend_of_fault h.fault ds
  obtain ⟨bd, hbd, hn, hstart⟩ := h.boundary
  obtain ⟨bd', hbd', heq, hsub⟩ := hgrows.boundaries bd hbd
  refine ⟨by rw [hsame, h.fault], by rw [hsame, h.cpu], bd', hbd', ?_, ?_⟩
  · rw [hsame]
    exact hsub _ hn
  · rw [hsame, heq]
    exact ⟨hstart.x86Index, hstart.lag, hstart.defined⟩

theorem exists_boundary_of_place {b : Builder} (hb : b.Invariant) {t : Target} (ht : t.canFault = true)
    (d : Definition) : ∃ bd ∈ (b.place t d).boundaries.toList, b.dataflow.next ∈ bd.nodes ∧
      bd = { b.start with nodes := bd.nodes } := by
  rw [place_boundaries, if_pos ht]
  rcases protect_cases b b.dataflow.next with ⟨older, last, hlast, hindex, hp⟩ | ⟨_, hp⟩
  · have hresumed := hb.resumed last (by simp [hlast]) hindex
    rw [hp]
    refine ⟨_, List.mem_append_right _ List.mem_cons_self, by simp, ?_⟩
    dsimp only
    rw [hresumed]
  · rw [hp]
    exact ⟨_, List.mem_append_right _ List.mem_cons_self, by simp, rfl⟩

theorem target_agrees {b b' : Builder} {s : Start} {p : Progress} {switched : Bool} {last : Nat} {op : MicroOp}
    {m : Microcode} {t : Target} {n : Node} (hb : b.Invariant) (ht : t.Sound)
    (h : Follows cpu₀ b s p switched cpu) (ho : target last op m b t = .ok (n, b')) :
    ∃ args reply cpu₁, t.inputs.mapM (operand? (entryValues cpu₀) p op) = some args ∧
      args.length = t.fragment.arity ∧ t.fragment.perform (fun i => args.getD i 0) cpu = (reply, cpu₁) ∧
      ((∃ v switched₁, reply.result = .ok (v, switched₁) ∧ Follows cpu₀ b' s p (switched || switched₁) cpu₁ ∧
          (b'.dataflow.evaluate cpu₀).Defines (t.element, n) (t.element, v)) ∨
        ∃ fault, reply.result = .error fault ∧ Faulted cpu₀ b' s fault cpu₁) := by
  obtain ⟨inputs, b₁, hin, rfl, rfl⟩ := target_ok ho
  obtain ⟨hb₁, _, _, hlen, _⟩ := hb.operands hin
  obtain ⟨hargs, h₁⟩ := operands_agree hb h hin
  have hgrows := grows_place b₁ t (.ofTarget m t op.x86Index inputs)
  have hunmoved := unmoved_place b₁ t (.ofTarget m t op.x86Index inputs)
  have hextend : (b₁.place t (.ofTarget m t op.x86Index inputs)).dataflow.evaluate cpu₀ =
      (b₁.dataflow.evaluate cpu₀).extend (entryValues cpu₀) (.ofTarget m t op.x86Index inputs) := by
    rw [place_dataflow, Dataflow.evaluate_push]
  have hlength := Dataflow.length_evaluate_eq h₁.fault
  rcases extend_cases (entryValues cpu₀) h₁.fault (.ofTarget m t op.x86Index inputs) with
    ⟨e, hkind, _⟩ | ⟨v, hkind, _⟩ | ⟨m', e, f, reply, cpu₁, hkind, hperform, hcases⟩
  · cases hkind
  · cases hkind
  · cases hkind
    rw [h₁.cpu] at hperform
    refine ⟨_, reply, cpu₁, hargs, by rw [List.length_map, hlen, ht.arity], hperform, ?_⟩
    rcases hcases with ⟨v, switched₁, hr, he⟩ | ⟨fault, hr, he⟩
    · rw [← hextend] at he
      refine .inl ⟨v, switched₁, hr, ?_, rfl, ?_, ?_, ?_⟩
      · refine h₁.grow hgrows hunmoved (by rw [he]) (by rw [he]) ?_
        rw [he, h₁.switched]
      · exact hb₁.entryDataflow_size_le
      · rw [he, List.length_append, hlength]
        exact Nat.lt_succ_self _
      · rw [place_dataflow] at he ⊢
        exact value_next h₁.fault (congrArg values he)
    · rw [← hextend] at he
      -- only a node that can fault is put under a boundary, and this one did fault
      have hfaults : t.canFault = true := by
        by_contra hnot
        have hnever := ht.mayFault (by simpa using hnot)
        have hreply : reply = .fault fault := by cases reply <;> cases hr; rfl
        exact Fragment.perform_ne_fault hnever _ _ fault ((congrArg Prod.fst hperform).trans hreply)
      obtain ⟨bd, hbd, hmem, hstart⟩ := exists_boundary_of_place hb₁ hfaults (.ofTarget m t op.x86Index inputs)
      refine .inr ⟨fault, hr, by rw [he], by rw [he], bd, hbd, ?_, ?_⟩
      · rw [he, hlength]
        exact hmem
      · rw [hstart]
        have hkeep := h₁.start.mono (hgrows.values_isPrefix cpu₀)
        exact ⟨hkeep.x86Index, hkeep.lag, hkeep.defined⟩

theorem targets_agree {b b' : Builder} {s : Start} {p : Progress} {switched : Bool} {last : Nat} {op : MicroOp}
    {m : Microcode} {ts : List Target} {defined : List (Element × Node)} (hb : b.Invariant)
    (hpos : 1 ≤ b.start.x86Index) (hts : ∀ t ∈ ts, t.Sound) (h : Follows cpu₀ b s p switched cpu)
    (ho : targets last op m b ts = .ok (defined, b')) :
    (∃ results switched₁ cpu₁, targets? (entryValues cpu₀) p op ts cpu = some (.ok ⟨results, switched₁⟩, cpu₁) ∧
        Follows cpu₀ b' s p (switched || switched₁) cpu₁ ∧
        List.Forall₂ (b'.dataflow.evaluate cpu₀).Defines defined results) ∨
      ∃ fault cpu₁, targets? (entryValues cpu₀) p op ts cpu = some (.error fault, cpu₁) ∧
        Faulted cpu₀ b' s fault cpu₁ := by
  induction ts generalizing b b' defined switched cpu with
  | nil =>
      cases ho
      exact .inl ⟨[], false, cpu, rfl, by rw [Bool.or_false]; exact h, .nil⟩
  | cons t ts ih =>
      rw [targets, bind_eq_ok] at ho
      obtain ⟨⟨n, b₁⟩, hn, ho⟩ := ho
      obtain ⟨⟨defined', b₂⟩, hrest, ho⟩ := bind_eq_ok.mp ho
      cases ho
      have ht := hts t List.mem_cons_self
      obtain ⟨hb₁, hunmoved, _⟩ := hb.target hpos ht hn
      have hgrows := grows_targets hrest
      obtain ⟨args, reply, cpu₁, hargs, harity, hperform, hcases⟩ := target_agrees hb ht h hn
      have hcons : targets? (entryValues cpu₀) p op (t :: ts) cpu = _ := targets?_cons hargs harity hperform
      rcases hcases with ⟨v, switched₁, hr, h₁, hdefines⟩ | ⟨fault, hr, hfaulted⟩
      · rw [hr] at hcons
        rcases ih hb₁ (by rw [hunmoved.start]; exact hpos) (fun t' ht' => hts t' (List.mem_cons_of_mem _ ht')) h₁ hrest
          with ⟨results, switched₂, cpu₂, htargets, h₂, hall⟩ | ⟨fault, cpu₂, htargets, hfaulted⟩
        · refine .inl ⟨(t.element, v) :: results, switched₁ || switched₂, cpu₂, ?_, ?_, ?_⟩
          · rw [hcons, htargets]
            rfl
          · rw [← Bool.or_assoc]
            exact h₂
          · exact .cons (hdefines.mono (hgrows.values_isPrefix cpu₀)) hall
        · refine .inr ⟨fault, cpu₂, ?_, hfaulted⟩
          rw [hcons, htargets]
          rfl
      · rw [hr] at hcons
        exact .inr ⟨fault, cpu₁, hcons, hfaulted.grow hgrows⟩

theorem Follows.define {b : Builder} {s : Start} {p : Progress} {switched : Bool} {q : Element × Node}
    {r : Element × UInt32} (h : Follows cpu₀ b s p switched cpu) (hq : (b.dataflow.evaluate cpu₀).Defines q r)
    (position : UInt32) :
    Follows cpu₀ (b.define position q) s (Interpreter.define position p r) switched cpu := by
  refine { h with defined := h.defined.set hq, eipSynced := ?_ }
  simp only [Builder.define, Interpreter.define, hq.element, h.eipSynced]

theorem Follows.foldl_define {b : Builder} {s : Start} {p : Progress} {switched : Bool}
    {defined : List (Element × Node)} {results : List (Element × UInt32)} (h : Follows cpu₀ b s p switched cpu)
    (hall : List.Forall₂ (b.dataflow.evaluate cpu₀).Defines defined results) (position : UInt32) :
    Follows cpu₀ (defined.foldl (Builder.define position) b) s (results.foldl (Interpreter.define position) p) switched
      cpu := by
  induction defined generalizing b p results with
  | nil =>
      cases hall
      exact h
  | cons q defined ih =>
      cases hall with
      | cons hq hall =>
          have hrest := ih (h.define hq position) hall
          exact hrest

theorem Follows.enter {b : Builder} {s : Start} {p : Progress} {switched : Bool}
    (h : Follows cpu₀ b s p switched cpu) (x86Index : Nat) :
    Follows cpu₀ (b.enter x86Index) (s.follow p x86Index) p switched cpu := by
  unfold Builder.enter Start.follow
  rw [h.start.x86Index]
  split
  · exact h
  · refine { h with start := ⟨rfl, ?_, b.current, h.defined, rfl, rfl⟩ }
    dsimp only
    rw [h.position, h.eipSynced]

/-- One micro-op. Either both walks go on side by side, or the graph ends in the fault that the
interpreter meets. -/
theorem step_agrees {mode : Mode} {last x86Count : Nat} {b b' : Builder} {s : Start} {p : Progress} {switched : Bool}
    {op : MicroOp} {rest : List MicroOp} (hb : b.Invariant) (hle : b.start.x86Index ≤ op.x86Index)
    (hpos : 1 ≤ op.x86Index) (h : Follows cpu₀ b s p switched cpu) (hs : b.step mode last op = .ok b') :
    (∃ s' p' switched' cpu', Follows cpu₀ b' s' p' switched' cpu' ∧
        walk? mode x86Count (entryValues cpu₀) (op :: rest) s p switched cpu =
          walk? mode x86Count (entryValues cpu₀) rest s' p' switched' cpu') ∨
      ∃ s' fault cpu', Faulted cpu₀ b' s' fault cpu' ∧
        walk? mode x86Count (entryValues cpu₀) (op :: rest) s p switched cpu =
          some (.faulted (mode.asDelivered fault) (s'.x86Index - 1),
            commit (restart mode (entryValues cpu₀) s') cpu') := by
  obtain ⟨m, ts, defined, b₁, hword, hts, htargets, rfl⟩ := step_ok hs
  obtain ⟨hb₀, hindex⟩ := hb.enter hle
  have hsindex : (s.follow p op.x86Index).x86Index = op.x86Index := by
    rw [← (h.enter op.x86Index).start.x86Index, hindex]
  rcases targets_agree hb₀ (by rw [hindex]; exact hpos) (fun t ht => Rule.sound_of_mem hts ht)
    (h.enter op.x86Index) htargets with ⟨results, switched₁, cpu₁, hinterp, h₁, hall⟩ | ⟨fault, cpu₁, hinterp, hfaulted⟩
  · have hdefined := h₁.foldl_define hall op.position
    refine .inl ⟨s.follow p op.x86Index,
      { results.foldl (Interpreter.define op.position) p with position := op.position }, switched || switched₁, cpu₁,
      { hdefined with position := rfl }, ?_⟩
    simp [walk?, hword, hts, hinterp]
  · refine .inr ⟨s.follow p op.x86Index, fault, cpu₁, ?_, ?_⟩
    · exact hfaulted.grow ((grows_foldl_define op.position defined b₁).trans (grows_of_eq rfl rfl))
    · rw [hsindex]
      simp [walk?, hword, hts, hinterp]

theorem walk_agrees {mode : Mode} {last : Nat} {b b' : Builder} {s : Start} {p : Progress} {switched : Bool}
    {ops : List MicroOp} (x86Count : Nat) (hb : b.Invariant) (hle : ∀ op ∈ ops, b.start.x86Index ≤ op.x86Index)
    (hpos : ∀ op ∈ ops, 1 ≤ op.x86Index) (hops : ops.Pairwise (fun x y => x.x86Index ≤ y.x86Index))
    (h : Follows cpu₀ b s p switched cpu) (hs : ops.foldlM (step mode last) b = .ok b') :
    (∃ s' p' switched' cpu', Follows cpu₀ b' s' p' switched' cpu' ∧
        walk? mode x86Count (entryValues cpu₀) ops s p switched cpu =
          some (if switched' then .switched else .completed x86Count, commit p'.defined cpu')) ∨
      ∃ s' fault cpu', Faulted cpu₀ b' s' fault cpu' ∧
        walk? mode x86Count (entryValues cpu₀) ops s p switched cpu =
          some (.faulted (mode.asDelivered fault) (s'.x86Index - 1),
            commit (restart mode (entryValues cpu₀) s') cpu') := by
  induction ops generalizing b s p switched cpu with
  | nil =>
      cases hs
      exact .inl ⟨s, p, switched, cpu, h, rfl⟩
  | cons op ops ih =>
      rw [List.foldlM_cons, bind_eq_ok] at hs
      obtain ⟨b₁, h₁, hs⟩ := hs
      obtain ⟨hop, hops⟩ := List.pairwise_cons.mp hops
      obtain ⟨hb₁, hindex⟩ := hb.step (hle op List.mem_cons_self) (hpos op List.mem_cons_self) h₁
      rcases step_agrees hb (hle op List.mem_cons_self) (hpos op List.mem_cons_self) h h₁ with
        ⟨s', p', switched', cpu', hfollows, hwalk⟩ | ⟨s', fault, cpu', hfaulted, hwalk⟩
      · rw [hwalk]
        refine ih hb₁ ?_ (fun x hx => hpos x (List.mem_cons_of_mem _ hx)) hops hfollows hs
        intro x hx
        rw [hindex]
        exact hop x hx
      · -- the builder goes on past the fault, the interpreter does not
        exact .inr ⟨s', fault, cpu', hfaulted.grow (grows_foldlM hs), hwalk⟩

theorem evaluate_entryDataflow (cpu₀ : σ) :
    entryDataflow.evaluate cpu₀ = ⟨entryElements.map (entryValues cpu₀).get, cpu₀, false, none⟩ := by
  have hentries (es : List Element) (values : List UInt32) :
      (es.map Definition.ofEntry).foldl (extend (entryValues cpu₀)) ⟨values, cpu₀, false, none⟩ =
        ⟨values ++ es.map (entryValues cpu₀).get, cpu₀, false, none⟩ := by
    induction es generalizing values with
    | nil => simp
    | cons e es ih =>
        rw [List.map_cons, List.foldl_cons]
        exact (ih _).trans (by simp)
  exact hentries entryElements []

theorem follows_initial (cpu₀ : σ) :
    Follows cpu₀ initial ⟨0, ElementMap.replicate none, 0⟩ Progress.initial false cpu₀ := by
  have hnone : (entryDataflow.evaluate cpu₀).Denotes entryDefinitions (ElementMap.replicate none) := by
    intro e
    rw [ElementMap.get_replicate]
    exact ⟨fun _ => rfl, fun v hv => by cases hv⟩
  have hchanged : ([] : List (Element × Node)) = entryDefinitions.changedFrom entryDefinitions := by decide
  have hev := evaluate_entryDataflow cpu₀
  exact {
    fault := congrArg Evaluation.fault hev
    cpu := congrArg Evaluation.cpu hev
    switched := congrArg Evaluation.switched hev
    defined := hnone
    eipSynced := rfl
    position := rfl
    start := ⟨rfl, rfl, entryDefinitions, hnone, hchanged, rfl⟩ }

end Graph.Builder

end Dynarec
