import Dynarec.Proofs.DefinedElements
import Dynarec.Proofs.HandlerTable

namespace Dynarec

/-- A use that running code makes of the processor. -/
inductive Access
  | get (e : Element)
  | apply (fragment : Fragment) (args : List UInt32)
  | set (e : Element) (value : UInt32)
  deriving DecidableEq, Repr

namespace Access

def op : Access → Op
  | get e => .read e
  | apply fragment _ => .apply fragment
  | set e _ => .commit e

def isSet : Access → Bool
  | set _ _ => true
  | get _ | apply _ _ => false

def element? : Access → Option Element
  | set e _ => some e
  | get _ | apply _ _ => none

def replay {σ : Type} [Processor σ] (cpu : σ) : Access → σ
  | get _ => cpu
  | apply fragment args => (fragment.perform (args.getD · 0) cpu).2
  | set e value => Processor.set e value cpu

def elementsSet (as : List Access) : List Element := as.filterMap element?

theorem get_replay {σ : Type} [Processor σ] [SteadyProcessor σ] [LawfulProcessor σ] {as : List Access} (cpu : σ) {e : Element}
    (he : e ∉ elementsSet as) : Processor.get (as.foldl replay cpu) e = Processor.get cpu e := by
  induction as generalizing cpu with
  | nil => rfl
  | cons a as ih =>
      rw [elementsSet, List.filterMap_cons] at he
      cases a with
      | get e' => exact ih cpu he
      | apply fragment args => exact (ih _ he).trans (Fragment.get_perform fragment _ cpu e)
      | set e' value =>
          obtain ⟨hne, he⟩ := not_or.mp (mt List.mem_cons.mpr he)
          refine (ih _ he).trans ?_
          rw [replay, LawfulProcessor.get_set, if_neg (Ne.symm hne)]

/-- The accesses end by setting these elements, and set nothing before. -/
def EndsIn (as : List Access) (es : List Element) : Prop :=
  ∃ before after, as = before ++ after ∧ (∀ a ∈ before, a.isSet = false) ∧ after.map op = es.map .commit

theorem EndsIn.append {as as' : List Access} {es : List Element} (h : EndsIn as' es) (has : ∀ a ∈ as, a.isSet = false) :
    EndsIn (as ++ as') es := by
  obtain ⟨before, after, rfl, hbefore, hafter⟩ := h
  exact ⟨as ++ before, after, (List.append_assoc _ _ _).symm, List.forall_mem_append.mpr ⟨has, hbefore⟩, hafter⟩

theorem EndsIn.pairwise {as : List Access} {es : List Element} (h : EndsIn as es) :
    as.Pairwise fun a a' => a.isSet = true → a'.isSet = true := by
  obtain ⟨before, after, rfl, hbefore, hafter⟩ := h
  have hset : ∀ a ∈ after, a.isSet = true := by
    intro a ha
    have hop : a.op ∈ es.map Op.commit := hafter ▸ List.mem_map_of_mem ha
    obtain ⟨e, _, he⟩ := List.mem_map.mp hop
    cases a with
    | get e' | apply fragment args => cases he
    | set e' value => rfl
  rw [List.pairwise_append]
  refine ⟨?_, ?_, fun _ _ a' ha' _ => hset a' ha'⟩
  · apply List.pairwise_of_forall_mem_list
    intro a ha a' _ hisSet
    rw [hbefore a ha] at hisSet
    cases hisSet
  · apply List.pairwise_of_forall_mem_list
    exact fun _ _ a' ha' _ => hset a' ha'

theorem EndsIn.elementsSet_eq {as : List Access} {es : List Element} (h : EndsIn as es) : elementsSet as = es := by
  obtain ⟨before, after, rfl, hbefore, hafter⟩ := h
  have hnone : before.filterMap element? = [] := by
    rw [List.filterMap_eq_nil_iff]
    intro a ha
    have hnot := hbefore a ha
    cases a with
    | get e | apply fragment args => rfl
    | set e value => cases hnot
  rw [elementsSet, List.filterMap_append, hnone, List.nil_append]
  -- each access at the end sets the element of the commit in its place
  induction after generalizing es with
  | nil =>
      rw [List.map_nil, List.nil_eq, List.map_eq_nil_iff] at hafter
      rw [hafter]
      rfl
  | cons a after ih =>
      cases es with
      | nil => cases hafter
      | cons e es =>
          obtain ⟨ha, hrest⟩ := List.cons.inj hafter
          cases a with
          | get e' | apply fragment args => cases ha
          | set e' value =>
              cases ha
              rw [List.filterMap_cons]
              exact congrArg (e :: ·) (ih hrest)

end Access

def Op.isAccess : Op → Bool
  | .read _ | .apply _ | .commit _ => true
  | .constant _ | .save _ | .restore _ | .discard | .ret | .rethrow _ => false

namespace Frame

variable {σ : Type}

def access? (f : Frame σ) : Op → Option Access
  | .read e => some (.get e)
  | .apply fragment =>
    if fragment.arity ≤ f.stack.length then some (.apply fragment (f.stack.take fragment.arity).reverse) else none
  | .commit e => f.stack.head?.map (.set e)
  | .constant _ | .save _ | .restore _ | .discard | .ret | .rethrow _ => none

variable [Processor σ]

def accesses : List Op → Frame σ → List Access
  | [], _ => []
  | op :: rest, f =>
    (f.access? op).toList ++
      match f.step op with
      | (none, f) => accesses rest f
      | (some _, _) => []

theorem cpu_step (op : Op) (f : Frame σ) : (f.step op).2.cpu = (f.access? op).toList.foldl Access.replay f.cpu := by
  cases op with
  | read e | constant value | ret | rethrow retired => rfl
  | apply fragment =>
      simp only [step, apply, access?]
      split
      · split <;> rename_i hperform <;> exact (congrArg Prod.snd hperform).symm
      · rfl
  | save slot =>
      simp only [step, access?]
      split
      · rfl
      · split <;> rfl
  | restore slot | discard =>
      simp only [step, access?]
      split <;> rfl
  | commit e =>
      simp only [step, access?]
      split <;> rename_i hstack <;> simp [hstack, Access.replay]

theorem cpu_exec (pc : Nat) (ops : List Op) (f : Frame σ) :
    (exec pc ops f).frame.cpu = (f.accesses ops).foldl Access.replay f.cpu := by
  induction ops generalizing pc f with
  | nil => rfl
  | cons op ops ih =>
      have hcpu := cpu_step op f
      rw [exec, accesses, List.foldl_append, ← hcpu]
      split
      next f' hstep => rw [hstep, ih]
      next stop f' hstep => rw [hstep]; rfl

/-- Execution goes through `ops` without stopping, and makes these accesses. -/
structure Traverses (ops : List Op) (f f' : Frame σ) (as : List Access) : Prop where
  passes : Passes ops f f'
  accesses : ∀ rest, f.accesses (ops ++ rest) = as ++ f'.accesses rest
  map_op : as.map Access.op = ops.filter Op.isAccess
  cpu : f'.cpu = as.foldl Access.replay f.cpu
  slots : f'.slots.size = f.slots.size

theorem Traverses.refl (f : Frame σ) : Traverses [] f f [] := ⟨.refl f, fun _ => rfl, rfl, rfl, rfl⟩

theorem Traverses.trans {ops ops' : List Op} {f f₁ f' : Frame σ} {as as' : List Access} (h : Traverses ops f f₁ as)
    (h' : Traverses ops' f₁ f' as') : Traverses (ops ++ ops') f f' (as ++ as') where
  passes := h.passes.trans h'.passes
  accesses rest := by rw [List.append_assoc, h.accesses, h'.accesses, List.append_assoc]
  map_op := by rw [List.map_append, h.map_op, h'.map_op, List.filter_append]
  cpu := by rw [List.foldl_append, ← h.cpu, h'.cpu]
  slots := h'.slots.trans h.slots

theorem traverses_of_step {op : Op} {f f' : Frame σ} (h : f.step op = (none, f')) :
    Traverses [op] f f' (f.access? op).toList where
  passes := passes_of_step h
  accesses rest := by rw [List.singleton_append, accesses, h]
  map_op := by
    cases op with
    | read e | constant value | ret | rethrow retired | save slot | restore slot | discard => rfl
    | apply fragment =>
        by_cases harity : fragment.arity ≤ f.stack.length
        · rw [access?, if_pos harity]
          rfl
        · simp [step, apply, harity] at h
    | commit e =>
        cases hstack : f.stack with
        | nil => simp [step, hstack] at h
        | cons value rest =>
            rw [access?, hstack]
            rfl
  cpu := by rw [← cpu_step, h]
  slots := by rw [← step_slots_size op f, h]

theorem perform_of_faulted {op : Op} {f : Frame σ} {fault : Fault} (h : (f.step op).1 = some (.faulted fault)) :
    ∃ fragment args, op = .apply fragment ∧ f.access? op = some (.apply fragment args) ∧
      (fragment.perform (args.getD · 0) f.cpu).1 = .fault fault := by
  cases op with
  | read e | constant value | ret | rethrow retired => cases h
  | save slot =>
      simp only [step] at h
      split at h
      · cases h
      · split at h <;> cases h
  | restore slot | discard | commit e =>
      simp only [step] at h
      split at h <;> cases h
  | apply fragment =>
      simp only [step, apply] at h
      split at h
      next harity =>
        refine ⟨fragment, _, rfl, if_pos harity, ?_⟩
        split at h <;> rename_i hperform <;> cases h
        exact congrArg Prod.fst hperform
      next => cases h

theorem traverses_or_faults {depth depth' : Nat} {ops : List Op} {f : Frame σ}
    (h : Body.Effects f.slots.size depth ops depth') (hdepth : f.stack.length = depth) :
    (∃ f' as, Traverses ops f f' as ∧ f'.stack.length = depth') ∨
      ∃ before fragment after f₁ as fault, ops = before ++ .apply fragment :: after ∧ Traverses before f f₁ as ∧
        (f₁.step (.apply fragment)).1 = some (.faulted fault) := by
  generalize hslots : f.slots.size = slots at h
  induction h generalizing f with
  | nil depth => exact .inl ⟨f, [], .refl f, hdepth⟩
  | @cons depth depth' pops pushes op ops hop hpops _ ih =>
      subst hslots hdepth
      obtain ⟨_, ⟨hnone, hlength⟩ | ⟨fault, hfault⟩⟩ := step_of_effect hop hpops
      · have hstep := traverses_of_step (Prod.ext hnone rfl : f.step op = (none, (f.step op).2))
        rcases ih hlength hstep.slots with ⟨f', as, htraverses, hdepth'⟩ | ⟨before, fragment, after, f₁, as, fault, rfl, h₁, hfault⟩
        · exact .inl ⟨f', _, hstep.trans htraverses, hdepth'⟩
        · exact .inr ⟨op :: before, fragment, after, f₁, _, fault, rfl, hstep.trans h₁, hfault⟩
      · obtain ⟨fragment, _, rfl, _⟩ := perform_of_faulted hfault
        exact .inr ⟨[], fragment, ops, f, [], fault, rfl, .refl f, hfault⟩

theorem exists_traverses {depth depth' : Nat} {ops : List Op} {f : Frame σ}
    (h : Body.Effects f.slots.size depth ops depth') (hpure : ∀ fragment, .apply fragment ∈ ops → fragment.isPure = true)
    (hdepth : f.stack.length = depth) : ∃ f' as, Traverses ops f f' as ∧ f'.stack.length = depth' := by
  rcases traverses_or_faults h hdepth with htraverses | ⟨before, fragment, after, f₁, as, fault, rfl, _, hfault⟩
  · exact htraverses
  · obtain ⟨_, args, hop, _, hperform⟩ := perform_of_faulted hfault
    cases hop
    obtain ⟨v, hv⟩ := Fragment.perform_of_isPure (σ := σ) (hpure fragment (by simp)) (args.getD · 0)
    rw [hv] at hperform
    cases hperform

theorem Traverses.isSet_eq_false {ops : List Op} {f f' : Frame σ} {as : List Access} (h : Traverses ops f f' as)
    (hops : ∀ e, .commit e ∉ ops) : ∀ a ∈ as, a.isSet = false := by
  intro a ha
  cases a with
  | get e | apply fragment args => rfl
  | set e value =>
      have hop : Op.commit e ∈ ops.filter Op.isAccess := h.map_op ▸ List.mem_map_of_mem ha
      exact absurd (List.mem_filter.mp hop).1 (hops e)

theorem accesses_of_stop {op : Op} (hop : op.isAccess = false) {f : Frame σ} {stop : Stop} (h : (f.step op).1 = some stop)
    (rest : List Op) : f.accesses (op :: rest) = [] := by
  have hnone : f.access? op = none := by
    cases op with
    | read e | apply fragment | commit e => cases hop
    | constant value | save slot | restore slot | discard | ret | rethrow retired => rfl
  rw [accesses, hnone, ← Prod.mk.eta (p := f.step op), h]
  rfl

theorem exec_commits {state : List (Element × Node)} {pushes : List Op} {op : Op} {stop : Stop} {f : Frame σ}
    (heffects : Body.Effects f.slots.size 0 pushes state.length) (hquiet : ∀ op ∈ pushes, op.isQuiet = true)
    (hstate : ∀ p ∈ state, p.1.isCommitted = true) (hop : op.isAccess = false)
    (hstop : ∀ f' : Frame σ, f'.step op = (some stop, f')) (hstack : f.stack = []) (pc : Nat) (rest : List Op) :
    ∃ pc' f', exec pc (pushes ++ (Body.commits state ++ op :: rest)) f = ⟨stop, pc', f'⟩ ∧
      Access.EndsIn (f.accesses (pushes ++ (Body.commits state ++ op :: rest))) (state.map Prod.fst).reverse := by
  have hcommits := Body.commits_eq_map state
  obtain ⟨f₁, as, h₁, hlength⟩ := exists_traverses heffects (fun fragment hf => hquiet _ hf) (by rw [hstack]; rfl)
  obtain ⟨f₂, as', h₂, _⟩ := exists_traverses (Body.effects_commits_state hstate)
    (fun fragment hf => by simp [hcommits] at hf) hlength
  have hexec := (h₁.passes.trans h₂.passes).exec_stop op (hstop f₂) pc rest
  rw [List.append_assoc] at hexec
  refine ⟨_, f₂, hexec, as, as', ?_, h₁.isSet_eq_false (fun e he => (by cases hquiet _ he)), ?_⟩
  · rw [h₁.accesses, h₂.accesses, accesses_of_stop hop (by rw [hstop f₂]), List.append_nil]
  · rw [h₂.map_op, hcommits, List.filter_eq_self]
    intro op hop
    obtain ⟨e, _, rfl⟩ := List.mem_map.mp hop
    rfl

end Frame

theorem AnnotatedCode.mem_evaluations (before after : AnnotatedCode) (op : Op) (n : Node) :
    (n, before.length) ∈ AnnotatedCode.evaluations 0 (before ++ (op, some n) :: after) := by
  rw [evaluations_append, Nat.zero_add]
  exact List.mem_append_right _ List.mem_cons_self

theorem Computes.exists_of_apply {flow : Dataflow} {c c' : Contents} {code : AnnotatedCode} (h : Computes flow c code c')
    {fragment : Fragment} {label : Option Node} (hmem : (.apply fragment, label) ∈ code) :
    ∃ n d m e, label = some n ∧ flow.get? n = some d ∧ d.kind = .op m e fragment := by
  induction h with
  | nil c => cases hmem
  | leaf _ hop _ ih =>
      rcases List.mem_cons.mp hmem with heq | hmem
      · cases heq
        rcases Emission.read_or_constant_of_leafOp? hop with ⟨_, h⟩ | ⟨_, h⟩ <;> cases h
      · exact ih hmem
  | @apply _ _ n d m e _ _ _ hd hk _ ih =>
      rcases List.mem_cons.mp hmem with heq | hmem
      · cases heq
        exact ⟨n, d, m, e, rfl, hd, hk⟩
      · exact ih hmem
  | save _ ih | restore _ _ ih | discard _ ih | commit _ ih =>
      rcases List.mem_cons.mp hmem with heq | hmem
      · cases heq
      · exact ih hmem

theorem Emission.Turns.commit_not_mem {flow : Dataflow} (hflow : flow.WellFormed) {needsSlot : Table Node Bool}
    {s s' : Emission} {ns : List Node} {ops : List Op} (h : Turns flow needsSlot s ns ops s') (e : Element) :
    .commit e ∉ ops := by
  induction h with
  | nil s => exact List.not_mem_nil
  | cons _ _ _ _ hin _ ih =>
      simp only [List.mem_append, List.mem_cons, reduceCtorEq, false_or, not_or]
      exact ⟨fun he => (by cases hin.isQuiet hflow _ he), fun he => (by cases isQuiet_saves _ _ _ he), ih⟩

def Run.Raises {σ : Type} [Processor σ] (mode : Mode) (run : Run) (cpu : σ) (as : List Access) (fault : Fault) (k : Nat) :
    Prop :=
  ∃ before after op t args raised, as = before ++ .apply t.fragment args :: after ∧ (op, t) ∈ run.orderedTargets mode ∧
    op.x86Index = k + 1 ∧ (t.fragment.perform (args.getD · 0) (before.foldl Access.replay cpu)).1 = .fault raised ∧
    mode.asDelivered raised = fault

namespace Body

open Access Emission Dynarec.Frame

variable {σ : Type} [Processor σ] {g : Graph} {b : Body}

def accesses (b : Body) (cpu : σ) : List Access :=
  let f := Frame.initial b.slots cpu
  let halt := Frame.exec 0 b.code f
  f.accesses b.code ++
    match halt.stop, b.handlerFor? halt.pc with
    | .faulted _, some h => Frame.accesses (b.code.drop h.target) { halt.frame with stack := [] }
    | _, _ => []

theorem cpu_run (b : Body) (mode : Mode) (x86Count : Nat) (cpu : σ) :
    (b.run mode x86Count cpu).2 = (b.accesses cpu).foldl Access.replay cpu := by
  have hmain := Frame.cpu_exec 0 b.code (Frame.initial b.slots cpu)
  rw [accesses, List.foldl_append]
  change _ = List.foldl _ (List.foldl _ (Frame.initial b.slots cpu).cpu _) _
  rw [← hmain, run]
  cases hstop : (Frame.exec 0 b.code (Frame.initial b.slots cpu)).stop with
  | returned | rethrown retired | broken what => rfl
  | faulted fault =>
      -- the handler goes on with the processor that the main code left
      dsimp only
      rw [runHandler]
      cases b.handlerFor? (Frame.exec 0 b.code (Frame.initial b.slots cpu)).pc with
      | none => rfl
      | some h =>
          dsimp only
          have hhandler := Frame.cpu_exec h.target (b.code.drop h.target)
            { (Frame.exec 0 b.code (Frame.initial b.slots cpu)).frame with stack := [] }
          split <;> exact hhandler

theorem Layout.exists_node_of_apply (hg : g.WellFormed) (l : Layout g b) {before after : List Op} {fragment : Fragment}
    (hturns : l.turns = before ++ .apply fragment :: after) (hfault : fragment.mayFault = true) :
    ∃ n d m e, g.dataflow.get? n = some d ∧ d.kind = .op m e fragment ∧ d.canFault = true ∧
      l.main.place n = before.length := by
  obtain ⟨code, hcode, hops, _, _, _, hplaces⟩ := l.exists_evaluates hg
  rw [hturns, List.append_assoc, List.map_eq_append_iff] at hops
  obtain ⟨code₁, code₂, rfl, hcode₁, hcode₂⟩ := hops
  obtain ⟨⟨op, label⟩, code₃, rfl, hop, _⟩ := List.map_eq_cons_iff.mp hcode₂
  cases hop
  obtain ⟨slots, hcomputes⟩ := hcode.computes
  obtain ⟨n, d, m, e, rfl, hd, hk⟩ := hcomputes.exists_of_apply (List.mem_append_right code₁ List.mem_cons_self)
  have hcan : d.canFault = true := by
    by_contra hnot
    rw [(hg.flow n d hd).mayFault m e fragment hk (by simpa using hnot)] at hfault
    cases hfault
  refine ⟨n, d, m, e, hd, hk, hcan, ?_⟩
  rw [← hcode₁, List.length_map]
  apply hplaces (n, code₁.length) (AnnotatedCode.mem_evaluations code₁ code₃ _ n)
  rw [Dataflow.isOrdered_eq hd]
  simp [Definition.isOrdered, hcan]

/-- The last access applies the fragment of a node that can fault, and this faults. -/
def Faults (g : Graph) (cpu : σ) (as : List Access) (n : Node) (fault : Fault) : Prop :=
  ∃ before fragment args d m e, as = before ++ [.apply fragment args] ∧ (∀ a ∈ before, a.isSet = false) ∧
    g.dataflow.get? n = some d ∧ d.kind = .op m e fragment ∧ d.canFault = true ∧
    (fragment.perform (args.getD · 0) (before.foldl Access.replay cpu)).1 = .fault fault

theorem Layout.main_cases (hg : g.WellFormed) (l : Layout g b) (cpu : σ) :
    (∃ pc f', exec 0 b.code (.initial b.slots cpu) = ⟨.returned, pc, f'⟩ ∧
      EndsIn ((Frame.initial b.slots cpu).accesses b.code) (g.sinks.map Prod.fst).reverse) ∨
    ∃ n fault f', exec 0 b.code (.initial b.slots cpu) = ⟨.faulted fault, l.main.place n, f'⟩ ∧
      f'.slots.size = b.slots ∧ Faults g cpu ((Frame.initial b.slots cpu).accesses b.code) n fault := by
  have hslots : (Frame.initial b.slots cpu).slots.size = b.slots := Table.size_replicate _ _
  have hturns : Effects (Frame.initial b.slots cpu).slots.size 0 l.turns 0 := by
    rw [hslots, l.slots_eq]
    exact effects_of_turns hg.flow l.turns_spec (sound_initial _) l.pushes_spec.slots_le
  have hcommit := l.turns_spec.commit_not_mem hg.flow
  -- only the turns can fault, and they commit nothing
  rcases traverses_or_faults hturns rfl with ⟨f₁, as, h₁, hdepth⟩ | ⟨before, fragment, after, f₁, as, fault, hsplit, h₁, hfault⟩
  · have hpushes : Effects f₁.slots.size 0 l.pushes g.sinks.length := by
      have h := effects_of_emits hg.flow l.pushes_spec l.sound_turned (Nat.le_refl _) 0
      rw [Nat.zero_add, List.length_map] at h
      rw [h₁.slots, hslots, l.slots_eq]
      exact h
    obtain ⟨pc, f', hexec, hends⟩ := exec_commits hpushes (l.pushes_spec.isQuiet hg.flow)
      (fun p hp => isCommitted_of_mem hg.sinks hp) (show Op.isAccess .ret = false from rfl) (fun _ => rfl)
      (List.eq_nil_of_length_eq_zero hdepth) (0 + l.turns.length) l.handlerOps
    rw [l.code_eq]
    refine .inl ⟨pc, f', (h₁.passes 0 _).trans hexec, ?_⟩
    rw [h₁.accesses]
    exact hends.append (h₁.isSet_eq_false hcommit)
  · obtain ⟨_, args, hop, haccess, hperform⟩ := perform_of_faulted hfault
    cases hop
    have hmay : fragment.mayFault = true := by
      by_contra hnot
      exact Fragment.perform_ne_fault (by simpa using hnot) _ _ fault hperform
    obtain ⟨n, d, m, e, hd, hk, hcan, hplace⟩ := l.exists_node_of_apply hg hsplit hmay
    have hstep : f₁.step (.apply fragment) = (some (.faulted fault), (f₁.step (.apply fragment)).2) := Prod.ext hfault rfl
    rw [h₁.cpu] at hperform
    rw [l.code_eq, hsplit, List.append_assoc, List.cons_append, h₁.passes.exec_stop _ hstep, h₁.accesses, Frame.accesses,
      haccess, hstep]
    refine .inr ⟨n, fault, _, by rw [hplace, Nat.zero_add], ?_, as, fragment, args, d, m, e, rfl, ?_, hd, hk, hcan, hperform⟩
    · rw [step_slots_size, h₁.slots, hslots]
    · apply h₁.isSet_eq_false
      intro e he
      apply hcommit e
      rw [hsplit]
      exact List.mem_append_left _ he

theorem Layout.handler_ends (hg : g.WellFormed) (l : Layout g b) {h : Handler} {bd : Boundary} (hbd : bd ∈ g.boundaries)
    (hh : Handled g l.main.status l.main.applyAt b.code h bd) {f : Frame σ} (hslots : f.slots.size = b.slots)
    (hstack : f.stack = []) :
    ∃ pc f', exec h.target (b.code.drop h.target) f = ⟨.rethrown (bd.x86Index - 1), pc, f'⟩ ∧
      EndsIn (f.accesses (b.code.drop h.target)) ((handlerState bd).map Prod.fst).reverse := by
  obtain ⟨pushes, rest, hdrop, hfresh⟩ := hh.body
  have hpushes : Effects f.slots.size 0 pushes (handlerState bd).length := by
    have heffects := effects_of_freshState hg.flow hfresh l.sound_main.slot_lt 0
    rw [Nat.zero_add] at heffects
    rw [hslots, l.slots_eq]
    exact heffects
  rw [hdrop]
  exact exec_commits hpushes (hfresh.isQuiet hg.flow) (fun p hp => isCommitted_of_mem_handlerState hg hbd hp) rfl
    (fun _ => rfl) hstack h.target rest

variable {mode : Mode} {run : Run}

/-- Code ends with its last commit, or in the handler of the instruction that faulted. -/
theorem Layout.run_cases (hrun : run.Ordered) (hbuild : Graph.build mode run = .ok g) (l : Layout g b) (x86Count : Nat)
    (cpu : σ) :
    (((b.run mode x86Count cpu).1 = .completed x86Count ∨ (b.run mode x86Count cpu).1 = .switched) ∧
      EndsIn (b.accesses cpu) (g.sinks.map Prod.fst).reverse) ∨
    ∃ bd ∈ g.boundaries, ∃ k fault, bd.x86Index = k + 1 ∧ (b.run mode x86Count cpu).1 = .faulted fault k ∧
      run.Raises mode cpu (b.accesses cpu) fault k ∧
      EndsIn (b.accesses cpu) ((handlerState bd).map Prod.fst).reverse := by
  have hg := Graph.wellFormed_of_build hrun hbuild
  rcases l.main_cases hg cpu with ⟨pc, f', hexec, hends⟩ | ⟨n, raised, f', hexec, hslots, before, fragment, args, d, m, e,
    haccesses, hbefore, hd, hk, hcan, hperform⟩
  · left
    rw [Body.accesses, Body.run, hexec]
    dsimp only
    rw [List.append_nil]
    refine ⟨?_, hends⟩
    cases f'.switched with
    | true => exact .inr rfl
    | false => exact .inl rfl
  · right
    have hordered : n ∈ g.ordered := by
      rw [hg.mem_ordered_iff, Dataflow.isOrdered_eq hd]
      simp [Definition.isOrdered, hcan]
    obtain ⟨⟨op, t⟩, htarget, m', inputs, _, hd'⟩ := exists_mem_right_of_forall₂ (Graph.forall₂_ordered hbuild) hordered
    cases hd.symm.trans hd'
    cases hk
    -- the entry of the instruction covers the node, so its body is what runs next
    obtain ⟨h, hh, hretired, hcovers⟩ := l.exists_covers hrun hbuild hd hcan
    obtain ⟨bd, hbd, hhandled⟩ := exists_mem_right_of_forall₂ l.forall₂_handled hh
    have hindex : bd.x86Index = h.retired + 1 := (hhandled.retired_succ hg hbd).symm
    obtain ⟨pc', f'', hbody, hends⟩ := l.handler_ends hg hbd hhandled (f := { f' with stack := [] }) hslots rfl
    have haccess : b.accesses cpu = before ++ .apply t.fragment args ::
        Frame.accesses (b.code.drop h.target) { f' with stack := [] } := by
      rw [Body.accesses, hexec, haccesses]
      dsimp only
      rw [handlerFor?_of_layout hg l hh hcovers, List.append_assoc, List.singleton_append]
    refine ⟨bd, hbd, h.retired, mode.asDelivered raised, hindex, ?_, ?_, ?_⟩
    · rw [Body.run, hexec]
      dsimp only
      rw [runHandler, handlerFor?_of_layout hg l hh hcovers]
      dsimp only
      rw [hbody, hhandled.retired]
    · exact ⟨before, _, op, t, args, raised, haccess, htarget, hretired.symm, hperform, rfl⟩
    · rw [haccess, ← List.singleton_append, ← List.append_assoc]
      apply hends.append
      rw [List.forall_mem_append, List.forall_mem_singleton]
      exact ⟨hbefore, rfl⟩

end Body

def Run.Commits (mode : Mode) (run : Run) : Ending → Element → Prop
  | .completed _, e | .switched, e => e.isCommitted = true ∧ ∃ op ∈ run.ops, op.defines mode e = true
  | .faulted _ k, e =>
    (e.isCommitted = true ∧ ∃ op ∈ (run.upTo k).ops, op.defines mode e = true) ∨
      e = .eip ∧ (run.upTo k).eipLag mode ≠ 0
  | .broken _, _ => False

namespace Procedure

def accesses {σ : Type} [Processor σ] (p : Procedure) (cpu : σ) : List Access := p.body.accesses cpu

/-- The procedure of a run sets what the run commits, and does so last. -/
structure CommitsLast {σ : Type} [Processor σ] (mode : Mode) (run : Run) (p : Procedure) (cpu : σ) : Prop where
  replay : (p.run cpu).2 = (p.accesses cpu).foldl Access.replay cpu
  -- Nothing is read or applied once an element is set.
  last : (p.accesses cpu).Pairwise fun a a' => a.isSet = true → a'.isSet = true
  once : (Access.elementsSet (p.accesses cpu)).Nodup
  elements : ∀ e, e ∈ Access.elementsSet (p.accesses cpu) ↔ run.Commits mode (p.run cpu).1 e
  -- The ending of a fault names the instruction before the one that raised it.
  raised : ∀ fault k, (p.run cpu).1 = .faulted fault k → run.Raises mode cpu (p.accesses cpu) fault k
  unbroken : ∀ what, (p.run cpu).1 ≠ .broken what

variable {name : String} {mode : Mode} {stamp : Nat} {run : Run} {p : Procedure}

theorem commitsLast_of_build {σ : Type} [Processor σ] (hrun : run.Ordered) (h : build name mode stamp run = .ok p)
    (cpu : σ) : p.CommitsLast mode run cpu := by
  obtain ⟨g, depth, hg, hgenerate, _, hp⟩ := build_ok h
  obtain ⟨b, hb, ⟨l⟩⟩ := Body.exists_layout (Graph.wellFormed_of_build hrun hg)
  cases hb.symm.trans hgenerate
  have hreplay : (p.run cpu).2 = (p.accesses cpu).foldl Access.replay cpu := Body.cpu_run _ _ _ cpu
  have hmode : p.mode = mode := by rw [hp]
  have hran : p.body.run mode p.x86Count cpu = p.run cpu := by rw [Procedure.run, hmode]
  have hcases := l.run_cases hrun hg p.x86Count cpu
  rw [hran] at hcases
  rcases hcases with ⟨hending, hends⟩ | ⟨bd, hbd, k, fault, hindex, hending, hraises, hends⟩
  · have helements : Access.elementsSet (p.accesses cpu) = (g.sinks.map Prod.fst).reverse := hends.elementsSet_eq
    refine ⟨hreplay, hends.pairwise, ?_, ?_, ?_, ?_⟩
    · rw [helements, List.nodup_reverse]
      exact Graph.nodup_sinks hg
    · intro e
      rw [helements, List.mem_reverse, Graph.mem_sinks_iff hrun hg]
      rcases hending with hending | hending <;> rw [hending] <;> rfl
    · intro fault k hfault
      rcases hending with hending | hending <;> cases hending.symm.trans hfault
    · intro what hbroken
      rcases hending with hending | hending <;> cases hending.symm.trans hbroken
  · have helements : Access.elementsSet (p.accesses cpu) = ((Body.handlerState bd).map Prod.fst).reverse :=
      hends.elementsSet_eq
    refine ⟨hreplay, hends.pairwise, ?_, ?_, ?_, ?_⟩
    · rw [helements, List.nodup_reverse]
      exact Body.nodup_handlerState_of_build hrun hg hbd
    · intro e
      rw [helements, List.mem_reverse, Body.mem_handlerState_iff_defines hrun hg hbd hindex, hending]
      rfl
    · intro fault' k' hfault
      cases hending.symm.trans hfault
      exact hraises
    · intro what hbroken
      cases hending.symm.trans hbroken

/-- A procedure reads and computes before it sets anything, and then sets each element that the run
defines once. After a fault, these are the elements that the instructions before define, with the
instruction pointer if it lags behind. Nothing else changes. -/
theorem commits_last {limit : Nat} {instructions : List Instruction} (hrun : Run.build limit instructions = .ok run)
    (h : build name mode stamp run = .ok p) :
    (∀ (σ : Type) [Processor σ] (cpu : σ), p.CommitsLast mode run cpu) ∧
      ∀ (σ : Type) [Processor σ] [SteadyProcessor σ] [LawfulProcessor σ] (cpu : σ) (e : Element),
        ¬run.Commits mode (p.run cpu).1 e → Processor.get (p.run cpu).2 e = Processor.get cpu e := by
  have hordered := Run.ordered_of_build hrun
  refine ⟨fun σ _ cpu => commitsLast_of_build hordered h cpu, ?_⟩
  intro σ _ _ _ cpu e he
  have hlast := commitsLast_of_build hordered h cpu
  rw [hlast.replay]
  exact Access.get_replay cpu (mt (hlast.elements e).mp he)

theorem commits_last_outputThenDivide :
    ∃ run p, Run.build 2 outputThenDivide = .ok run ∧ build "division" .real 0 run = .ok p ∧
      (p.run Machine.initial).1 = .faulted .divideError 1 ∧
      Access.elementsSet (p.accesses Machine.initial) = [.eip, .eax] ∧ p.CommitsLast .real run Machine.initial ∧
      ∀ e, ¬run.Commits .real (.faulted .divideError 1) e →
        (p.run Machine.initial).2.elements.get e = Machine.initial.elements.get e := by
  have hran : ((Run.build 2 outputThenDivide >>= build "division" .real 0).map fun p =>
      ((p.run Machine.initial).1, Access.elementsSet (p.accesses Machine.initial))) =
        .ok (.faulted .divideError 1, [.eip, .eax]) := by decide +kernel
  cases hbuilt : Run.build 2 outputThenDivide >>= build "division" .real 0 with
  | error e =>
      rw [hbuilt] at hran
      cases hran
  | ok p =>
      rw [hbuilt] at hran
      obtain ⟨hfault, hset⟩ := Prod.mk.inj (Except.ok.inj hran)
      obtain ⟨run, hrun, hp⟩ := bind_eq_ok.mp hbuilt
      obtain ⟨hlast, hrest⟩ := commits_last hrun hp
      refine ⟨run, p, hrun, hp, hfault, hset, hlast Machine Machine.initial, ?_⟩
      rw [← hfault]
      exact hrest Machine Machine.initial

end Procedure

end Dynarec
