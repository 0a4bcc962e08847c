import Dynarec.Proofs.EmissionExecution
import Dynarec.Proofs.GeneratedVerifies

namespace Dynarec

namespace Processor

variable {σ : Type} [Processor σ]

def assign (values : List (Element × UInt32)) (cpu : σ) : σ :=
  values.foldl (fun cpu p => Processor.set p.1 p.2 cpu) cpu

end Processor

namespace Body

open Dynarec.Frame Evaluation Dataflow Emission Processor

variable {σ : Type} [Processor σ]

def caughtUp (mode : Mode) (eipLag : UInt32) (e : Element) (v : UInt32) : UInt32 :=
  if e = .eip ∧ eipLag ≠ 0 then Interpreter.wrapEip mode (v + eipLag) else v

def stateValue (mode : Mode) (eipLag : UInt32) (ρ : Node → UInt32) (p : Element × Node) : Element × UInt32 :=
  (p.1, caughtUp mode eipLag p.1 (ρ p.2))

theorem perform_advance (mode : Mode) (a : Nat → UInt32) (cpu : σ) :
    (Rule.advance mode).perform a cpu = (.value (Interpreter.wrapEip mode (a 0 + a 1)), cpu) := by
  cases mode <;> rfl

theorem passes_catchUp (mode : Mode) (eipLag : UInt32) (e : Element) {f : Frame σ} {v : UInt32} {rest : List UInt32}
    (hstack : f.stack = v :: rest) :
    Passes (catchUp mode eipLag e) f { f with stack := caughtUp mode eipLag e v :: rest } := by
  unfold catchUp caughtUp
  split
  · have hargs : (f.push eipLag).stack = [v, eipLag].reverse ++ rest := by simp [Frame.push, hstack]
    have happly := apply_eq hargs (by cases mode <;> rfl) (perform_advance mode _ _)
    simp only [Reply.result, Bool.or_false] at happly
    exact Passes.cons rfl (passes_of_step happly)
  · rw [← hstack]
    exact .refl f

theorem passes_fresh {flow : Dataflow} (hflow : flow.WellFormed) {cpu₀ : σ} {ρ : Node → UInt32} {k : Nat}
    (hρ : Consistent σ flow (Interpreter.entryValues cpu₀) ρ k) {status : Table Node Status} {ns : List Node}
    {ops : List Op} (h : Fresh flow status ns ops) (hns : ∀ n ∈ ns, n.index < k) {f : Frame σ}
    (hget : ∀ e, Processor.get f.cpu e = Processor.get cpu₀ e)
    (hslots : ∀ n slot, flow.isOrdered n = true → n.index < k → status.get? n = some (.computed (some slot)) →
      f.slots.get? slot = some (ρ n)) :
    Passes ops f { f with stack := (ns.map ρ).reverse ++ f.stack } := by
  induction h generalizing f with
  | nil => exact .refl f
  | @restore n ns ops d slot hd ho hs h ih =>
      have hvalue := hslots n slot (by rw [isOrdered_eq hd, ho]) (hns n List.mem_cons_self) hs
      have hrest := ih (fun m hm => hns m (List.mem_cons_of_mem _ hm)) (f := f.push (ρ n)) hget hslots
      simpa [Frame.push] using Passes.cons (step_restore hvalue) hrest
  | @leaf n ns ops d op hd ho hop h ih =>
      have hvalue := hρ n d (hns n List.mem_cons_self) hd ho
      have hrest := ih (fun m hm => hns m (List.mem_cons_of_mem _ hm)) (f := f.push (ρ n)) hget hslots
      simpa [Frame.push] using Passes.cons (step_leaf hop hvalue hget) hrest
  | @op n ns ops ops' d m e fragment hd ho hk hin h ihin ih =>
      have hn := hns n List.mem_cons_self
      have hwf := hflow n d hd
      have hargs := ihin (fun i hi => (hwf.inputs_lt i hi).trans hn) hget hslots
      have hvalue := hρ n d hn hd ho
      rw [Settled, hk] at hvalue
      have happly := apply_eq (f := { f with stack := (d.inputs.map ρ).reverse ++ f.stack }) rfl
        (by rw [List.length_map, hwf.arity m e fragment hk]) (hvalue f.cpu)
      simp only [Reply.result, Bool.or_false] at happly
      have hrest := ih (fun m hm => hns m (List.mem_cons_of_mem _ hm)) (f := f.push (ρ n)) hget hslots
      simpa [Frame.push] using hargs.trans (Passes.cons happly hrest)

theorem passes_freshState {g : Graph} (hflow : g.dataflow.WellFormed) {cpu₀ : σ} {ρ : Node → UInt32} {k : Nat}
    (hρ : Consistent σ g.dataflow (Interpreter.entryValues cpu₀) ρ k) {status : Table Node Status} {eipLag : UInt32}
    {ps : List (Element × Node)} {ops : List Op} (h : FreshState g status eipLag ps ops)
    (hps : ∀ p ∈ ps, p.2.index < k) {f : Frame σ} (hget : ∀ e, Processor.get f.cpu e = Processor.get cpu₀ e)
    (hslots : ∀ n slot, g.dataflow.isOrdered n = true → n.index < k → status.get? n = some (.computed (some slot)) →
      f.slots.get? slot = some (ρ n)) :
    Passes ops f { f with stack := (ps.map (stateValue g.mode eipLag ρ)).reverse.map Prod.snd ++ f.stack } := by
  induction h generalizing f with
  | nil => exact .refl f
  | @cons p ps ops ops' hp h ih =>
      have hpush := passes_fresh hflow hρ hp (by simpa using hps p List.mem_cons_self) hget hslots
      have htop : ([p.2].map ρ).reverse ++ f.stack = ρ p.2 :: f.stack := rfl
      have hcatch := passes_catchUp g.mode eipLag p.1 (f := { f with stack := ([p.2].map ρ).reverse ++ f.stack }) htop
      have hrest := ih (fun q hq => hps q (List.mem_cons_of_mem _ hq))
        (f := f.push (caughtUp g.mode eipLag p.1 (ρ p.2))) hget hslots
      simpa [Frame.push, stateValue] using hpush.trans (hcatch.trans hrest)

theorem passes_commits (values : List (Element × UInt32)) {f : Frame σ} {rest : List UInt32}
    (hstack : f.stack = values.map Prod.snd ++ rest) :
    Passes (values.map fun p => .commit p.1) f { f with stack := rest, cpu := assign values f.cpu } := by
  induction values generalizing f with
  | nil =>
      rw [List.map_nil, List.nil_append] at hstack
      subst hstack
      exact .refl f
  | cons p values ih =>
      have hstep : f.step (.commit p.1) =
          (none, ⟨Processor.set p.1 p.2 f.cpu, values.map Prod.snd ++ rest, f.slots, f.switched⟩) := by
        rw [step, hstack]
        rfl
      exact Passes.cons hstep (ih rfl)

theorem commits_eq (state : List (Element × Node)) (value : Element × Node → Element × UInt32)
    (hvalue : ∀ p, (value p).1 = p.1) :
    commits state = (state.map value).reverse.map fun p => .commit p.1 := by
  rw [commits, ← List.map_reverse, List.map_map]
  exact List.map_congr_left fun p _ => congrArg Op.commit (hvalue p).symm

variable {g : Graph}

theorem holds_initial (ρ : Node → UInt32) (size : Nat) (slots : Table Slot UInt32) :
    Holds ρ (Emission.initial size) slots :=
  fun n slot h => absurd h (get?_initial_ne size n (some slot))

theorem exec_main [SteadyProcessor σ] (hg : g.WellFormed) {b : Body} (l : Layout g b) {cpu : σ}
    (hfault : (g.dataflow.evaluate cpu).fault = none) :
    ∃ pc slots, Frame.exec 0 b.code (Frame.initial b.slots cpu) =
      ⟨.returned, pc, ⟨assign (g.sinks.map fun p => (p.1, (g.dataflow.evaluate cpu).value p.2)).reverse
        (g.dataflow.evaluate cpu).cpu, [], slots, (g.dataflow.evaluate cpu).switched⟩⟩ := by
  have hlength := length_evaluate_eq hfault
  have hρ := consistent_evaluate hg.flow cpu
  have hp := performs_evaluateTo hg.flow cpu hlength.ge
  rw [evaluateTo_size, orderedBelow_size, ← hg.ordered] at hp
  rw [hlength] at hρ
  generalize g.dataflow.evaluate cpu = ev at hρ hp ⊢
  have hsize : l.main.slots ≤ (Table.replicate b.slots 0 : Table Slot UInt32).size := by
    rw [Table.size_replicate, l.slots_eq]
  obtain ⟨slots₁, hturns, hheld₁, hsize₁⟩ := passes_turns hg.flow hρ l.turns_spec
    (fun n hn => hg.ordered_lt hn) (sound_initial _) hp (fun _ => rfl) (holds_initial _ _ _)
    (l.pushes_spec.slots_le.trans hsize)
  obtain ⟨slots, hpushes, _, _⟩ := passes_emits hg.flow hρ l.pushes_spec (fun n hn => hg.sink_lt hn) l.sound_turned
    (f := ⟨ev.cpu, [], slots₁, ev.switched⟩) (fun e => hp.get e) hheld₁ (by rw [hsize₁]; exact hsize)
  have hstack : ((g.sinks.map Prod.snd).map ev.value).reverse ++ [] =
      (g.sinks.map fun p => (p.1, ev.value p.2)).reverse.map Prod.snd ++ [] := by
    rw [List.map_reverse, List.map_map, List.map_map]
    rfl
  have hcommits := passes_commits _ (f := ⟨ev.cpu, _, slots, ev.switched⟩) hstack
  rw [← commits_eq g.sinks _ (fun _ => rfl)] at hcommits
  have hexec := (hturns.trans (hpushes.trans hcommits)).exec_stop .ret rfl 0 l.handlerOps
  rw [List.append_assoc, List.append_assoc, ← l.code_eq] at hexec
  exact ⟨_, _, hexec⟩

/-- The main code around an ordered node: what stands before its `apply`, and what follows. -/
structure Layout.TurnAt {b : Body} (l : Layout g b) (n : Node) where
  definition : Definition
  microcode : Microcode
  element : Element
  fragment : Fragment
  before : List Op
  reached : Emission
  inputs : List Op
  loaded : Emission
  rest : List Op
  get?_eq : g.dataflow.get? n = some definition
  kind_eq : definition.kind = .op microcode element fragment
  before_spec : Turns g.dataflow (Demand.needsSlot g) (initial g.dataflow.size) (g.dataflow.orderedBelow n.index)
    before reached
  inputs_spec : Emits g.dataflow (Demand.needsSlot g) reached definition.inputs inputs loaded
  code_eq : b.code = before ++ inputs ++ .apply fragment :: rest
  place_eq : l.main.place n = (before ++ inputs).length
  slots_le : loaded.slots ≤ b.slots
  computed : ∀ x o, reached.status.get? x = some (.computed o) → l.main.status.get? x = some (.computed o)

theorem Layout.exists_turnAt (hg : g.WellFormed) {b : Body} (l : Layout g b) {n : Node} (hn : n.index < g.dataflow.size)
    (ho : g.dataflow.isOrdered n = true) : Nonempty (l.TurnAt n) := by
  obtain ⟨after, hafter⟩ := exists_nodesWhere_isOrdered hn ho
  have hnodup := nodesWhere_nodup g.dataflow Definition.isOrdered
  rw [hafter] at hnodup
  have hnot : n ∉ after := (List.nodup_cons.mp (List.nodup_append.mp hnodup).2.1).1
  have hturns := l.turns_spec
  rw [hg.ordered, hafter] at hturns
  obtain ⟨before, reached, inputs, loaded, rest, d, m, e, fragment, hbefore, hd, hk, hinputs, hops, hplace, hslots,
    hcomputed⟩ := hturns.split hnot (Table.size_replicate _ _)
  exact ⟨{
    definition := d, microcode := m, element := e, fragment, before, reached, inputs, loaded
    rest := rest ++ (l.pushes ++ (commits g.sinks ++ .ret :: l.handlerOps))
    get?_eq := hd
    kind_eq := hk
    before_spec := hbefore
    inputs_spec := hinputs
    code_eq := by
      rw [l.code_eq, hops]
      simp
    place_eq := by
      rw [place, l.pushes_spec.applyAt, ← place, hplace]
      simp [Emission.initial]
    slots_le := by
      rw [l.slots_eq]
      exact hslots.trans l.pushes_spec.slots_le
    computed := fun x o hx => l.pushes_spec.computed (hcomputed x o hx) }⟩

/-- The main code stops at the node that faults. By then every earlier ordered node that was kept is in
its slot. -/
theorem exec_fault [SteadyProcessor σ] (hg : g.WellFormed) {b : Body} (l : Layout g b) {cpu : σ} {fault : Fault}
    (hfault : (g.dataflow.evaluate cpu).fault = some fault) :
    ∃ stack slots switched, Frame.exec 0 b.code (Frame.initial b.slots cpu) =
        ⟨.faulted fault, l.main.place ⟨(g.dataflow.evaluate cpu).values.length⟩,
          ⟨(g.dataflow.evaluate cpu).cpu, stack, slots, switched⟩⟩ ∧
      (∀ e, Processor.get (g.dataflow.evaluate cpu).cpu e = Processor.get cpu e) ∧
      ∀ n slot, g.dataflow.isOrdered n = true → n.index < (g.dataflow.evaluate cpu).values.length →
        l.main.status.get? n = some (.computed (some slot)) →
        slots.get? slot = some ((g.dataflow.evaluate cpu).value n) := by
  have hρ := consistent_evaluate hg.flow cpu
  have hp := performs_evaluateTo hg.flow cpu (Nat.le_refl _)
  obtain ⟨d, m, e, fragment, hd, hk, hcan, hperform⟩ := faults_evaluate hg.flow hfault
  have ho : g.dataflow.isOrdered ⟨(g.dataflow.evaluate cpu).values.length⟩ = true := by
    simp [isOrdered_eq hd, Definition.isOrdered, hcan]
  obtain ⟨t⟩ := l.exists_turnAt hg (length_evaluate_lt hfault) ho
  obtain rfl := Option.some.inj (hd.symm.trans t.get?_eq)
  obtain ⟨_, _, rfl⟩ := Kind.op.inj (hk.symm.trans t.kind_eq)
  have hwf := hg.flow _ t.definition hd
  generalize (g.dataflow.evaluateTo (g.dataflow.evaluate cpu).values.length cpu).cpu = cpu₁ at hp hperform
  generalize (g.dataflow.evaluateTo (g.dataflow.evaluate cpu).values.length cpu).switched = switched₁ at hp
  have hsize : t.loaded.slots ≤ (Table.replicate b.slots 0 : Table Slot UInt32).size := by
    rw [Table.size_replicate]
    exact t.slots_le
  -- the turns before the node perform what evaluation performed, and its inputs cannot fault
  obtain ⟨slots₁, hbefore, hheld₁, hsize₁⟩ := passes_turns hg.flow hρ t.before_spec
    (fun x hx => (mem_orderedBelow.mp hx).1) (sound_initial _) hp (fun _ => rfl) (holds_initial _ _ _)
    (t.inputs_spec.slots_le.trans hsize)
  obtain ⟨slots₂, hinputs, hheld₂, _⟩ := passes_emits hg.flow hρ t.inputs_spec (fun i hi => hwf.inputs_lt i hi)
    (t.before_spec.sound (sound_initial _)) (f := ⟨cpu₁, [], slots₁, switched₁⟩) (fun x => hp.get x)
    hheld₁ (by rw [hsize₁]; exact hsize)
  have happly := apply_eq (f := ⟨cpu₁, (t.definition.inputs.map _).reverse ++ [], slots₂, switched₁⟩) rfl
    (by rw [List.length_map, hwf.arity _ _ _ hk]) hperform
  have hexec := (hbefore.trans hinputs).exec_stop (.apply t.fragment) happly 0 t.rest
  rw [← t.code_eq, Nat.zero_add, ← t.place_eq] at hexec
  refine ⟨_, slots₂, switched₁, hexec, ?_, ?_⟩
  · intro x
    exact (Fragment.get_of_perform hperform x).trans (hp.get x)
  · intro x slot hx hxn hstatus
    obtain ⟨o, hcomp⟩ := t.before_spec.exists_computed (sound_initial _) (mem_orderedBelow.mpr ⟨hxn, hx⟩)
    have hmain := t.computed x o hcomp
    rw [hstatus] at hmain
    cases hmain
    exact hheld₂ x slot (t.inputs_spec.computed hcomp)

/-- No op is protected twice, so the handler of an op is the one that covers it. -/
theorem handlerFor?_of_layout (hg : g.WellFormed) {b : Body} (l : Layout g b) {h : Handler} (hh : h ∈ b.handlers)
    {pc : Nat} (hpc : h.covers pc = true) : b.handlerFor? pc = some h := by
  have hone := length_filter_covers_le (checkRanges_of_layout hg l) pc
  have hmem : h ∈ b.handlers.filter (·.covers pc) := List.mem_filter.mpr ⟨hh, hpc⟩
  rw [if_pos (Nat.zero_le _)] at hone
  rw [handlerFor?, ← List.head?_filter]
  obtain ⟨h', hf⟩ := List.length_eq_one_iff.mp (Nat.le_antisymm hone (List.length_pos_of_mem hmem))
  rw [hf, List.mem_singleton] at hmem
  rw [hf, hmem]
  rfl

theorem exec_handler [SteadyProcessor σ] (hg : g.WellFormed) {b : Body} (l : Layout g b) {cpu₀ : σ} {ρ : Node → UInt32}
    {n : Node} (hρ : Consistent σ g.dataflow (Interpreter.entryValues cpu₀) ρ n.index) {bd : Boundary}
    (hbd : bd ∈ g.boundaries) (hn : n ∈ bd.nodes) {f : Frame σ}
    (hget : ∀ e, Processor.get f.cpu e = Processor.get cpu₀ e)
    (hslots : ∀ x slot, g.dataflow.isOrdered x = true → x.index < n.index →
      l.main.status.get? x = some (.computed (some slot)) → f.slots.get? slot = some (ρ x)) :
    ∃ h ∈ b.handlers, h.covers (l.main.place n) = true ∧ ∃ pc, Frame.exec h.target (b.code.drop h.target) f =
      ⟨.rethrown (bd.x86Index - 1), pc,
        { f with cpu := assign ((handlerState bd).map (stateValue g.mode bd.eipLag ρ)).reverse f.cpu }⟩ := by
  obtain ⟨before, body, after, first, last, hops, hstate, hrange, hmem⟩ := l.handlers_spec.split hbd
  have hplaces := (places_of_turns hg l.turns_spec l.pushes_spec).1
  obtain ⟨first', last', hrange', hall, _⟩ := exists_protectedRange? (List.ne_nil_of_mem hn)
    (fun x hx => (hplaces x (hg.mem_ordered_of_boundary hbd hx)).1)
  rw [hrange] at hrange'
  cases hrange'
  refine ⟨_, hmem, ?_, ?_⟩
  · have hin := hall n hn
    simp only [Handler.covers, Bool.and_eq_true, decide_eq_true_eq]
    omega
  · have hdrop : b.code.drop (l.turns.length + l.pushes.length + g.sinks.length + 1 + before.length) =
        body ++ commits (handlerState bd) ++ .rethrow (bd.x86Index - 1) :: after := by
      have hcode : b.code = (l.turns ++ l.pushes ++ commits g.sinks ++ [.ret] ++ before) ++
          (body ++ commits (handlerState bd) ++ .rethrow (bd.x86Index - 1) :: after) := by
        rw [l.code_eq, hops]
        simp
      rw [hcode]
      exact List.drop_left' (by simp [commits]; omega)
    have hpushes := passes_freshState hg.flow hρ hstate (fun p hp => handlerState_lt hg hbd hn hp) hget hslots
    have hcommits := passes_commits ((handlerState bd).map (stateValue g.mode bd.eipLag ρ)).reverse (f := ⟨f.cpu,
      ((handlerState bd).map (stateValue g.mode bd.eipLag ρ)).reverse.map Prod.snd ++ f.stack, f.slots, f.switched⟩) rfl
    rw [← commits_eq (handlerState bd) _ (fun _ => rfl)] at hcommits
    have hexec := (hpushes.trans hcommits).exec_stop (.rethrow (bd.x86Index - 1)) rfl
      (l.turns.length + l.pushes.length + g.sinks.length + 1 + before.length) after
    rw [← hdrop] at hexec
    exact ⟨_, hexec⟩

theorem run_of_layout [SteadyProcessor σ] (hg : g.WellFormed) {b : Body} (l : Layout g b) (mode : Mode) (x86Count : Nat)
    (cpu : σ) :
    ((g.dataflow.evaluate cpu).fault = none →
      b.run mode x86Count cpu =
        (if (g.dataflow.evaluate cpu).switched then .switched else .completed x86Count,
          assign (g.sinks.map fun p => (p.1, (g.dataflow.evaluate cpu).value p.2)).reverse
            (g.dataflow.evaluate cpu).cpu)) ∧
      ∀ fault bd, (g.dataflow.evaluate cpu).fault = some fault → bd ∈ g.boundaries →
        ⟨(g.dataflow.evaluate cpu).values.length⟩ ∈ bd.nodes →
        b.run mode x86Count cpu =
          (.faulted (mode.asDelivered fault) (bd.x86Index - 1),
            assign ((handlerState bd).map (stateValue g.mode bd.eipLag (g.dataflow.evaluate cpu).value)).reverse
              (g.dataflow.evaluate cpu).cpu) := by
  constructor
  · intro hfault
    obtain ⟨pc, slots, hexec⟩ := exec_main hg l hfault
    simp only [run, hexec]
  · intro fault bd hfault hbd hn
    obtain ⟨stack, slots, switched, hexec, hget, hslots⟩ := exec_fault hg l hfault
    obtain ⟨h, hh, hcovers, pc, hhandler⟩ := exec_handler hg l (consistent_evaluate hg.flow cpu) hbd hn
      (f := ⟨(g.dataflow.evaluate cpu).cpu, [], slots, switched⟩) hget hslots
    simp only [run, hexec, runHandler, handlerFor?_of_layout hg l hh hcovers, hhandler]

end Body

end Dynarec
