import Dynarec.Compiler
import Dynarec.Proofs.DefinedElements

namespace Dynarec

def failure? {ε α : Type} : Except ε α → Option ε
  | .error e => some e
  | .ok _ => none

theorem failure?_eq_some {ε α : Type} {x : Except ε α} {e : ε} : failure? x = some e ↔ x = .error e := by
  cases x <;> simp [failure?]

theorem failure?_eq_none {ε α : Type} {x : Except ε α} : failure? x = none ↔ ∃ a, x = .ok a := by
  cases x <;> simp [failure?]

theorem failure?_bind {ε α β : Type} {x : Except ε α} {f : α → Except ε β} {r : Option ε}
    (h : ∀ a, x = .ok a → failure? (f a) = r) : failure? (x >>= f) = (failure? x).or r := by
  cases x with
  | error e => rfl
  | ok a => exact h a rfl

theorem failure?_bind_ok {ε α β : Type} {x : Except ε α} {f : α → Except ε β} (h : ∀ a, failure? (f a) = none) :
    failure? (x >>= f) = failure? x := by
  rw [failure?_bind fun a _ => h a, Option.or_none]

theorem findSome?_cons_eq_or {α β : Type} (f : α → Option β) (a : α) (l : List α) :
    (a :: l).findSome? f = (f a).or (l.findSome? f) := by
  rw [List.findSome?_cons]
  cases f a <;> rfl

namespace Rule

theorem all_inputs_not_sentinel (mode : Mode) (m : Microcode) :
    (((targets? mode m).getD []).flatMap Target.inputs).all
      (fun o => match o with | .element e => !e.isSentinel | _ => true) = true := by
  cases m with
  | load0 r | load1 r => cases r <;> rfl
  | addr base => cases base <;> rfl
  | loadSeg s => cases s <;> rfl
  | _ => cases mode <;> rfl

theorem isSentinel_of_mem {mode : Mode} {m : Microcode} {ts : List Target} {e : Element}
    (h : targets? mode m = some ts) (he : .element e ∈ ts.flatMap Target.inputs) : e.isSentinel = false := by
  have hall := all_inputs_not_sentinel mode m
  rw [h, Option.getD_some, List.all_eq_true] at hall
  simpa using hall _ he

/-- A microcode that can switch the mode does nothing else. -/
theorem switches_alone {mode : Mode} {m : Microcode} {ts : List Target} (h : targets? mode m = some ts) :
    (∀ t ∈ ts, t.switchesMode = false) ∨ ∃ t, ts = [t] := by
  have hall : ((targets? mode m).getD []).all (!·.switchesMode) = true ∨
      ((targets? mode m).getD []).length = 1 := by
    cases m <;> cases mode <;> first | exact .inl rfl | exact .inr rfl
  rw [h, Option.getD_some, List.all_eq_true, List.length_eq_one_iff] at hall
  exact hall.imp_left fun hall t ht => by simpa using hall t ht

theorem findSome?_targets {mode : Mode} {m : Microcode} {ts : List Target} (h : targets? mode m = some ts)
    (lack : Operand → Option CompileError) (refusal : Option CompileError) :
    (ts.findSome? fun t => (t.inputs.findSome? lack).or (if t.switchesMode then refusal else none)) =
      ((ts.flatMap Target.inputs).findSome? lack).or (if ts.any (·.switchesMode) then refusal else none) := by
  rcases switches_alone h with hnone | ⟨t, rfl⟩
  · clear h
    have hany : ts.any (·.switchesMode) = false := by simpa using hnone
    rw [hany, if_neg Bool.false_ne_true, Option.or_none]
    clear hany
    induction ts with
    | nil => rfl
    | cons t ts ih =>
        rw [List.forall_mem_cons] at hnone
        rw [findSome?_cons_eq_or, hnone.1, ih hnone.2, if_neg Bool.false_ne_true, Option.or_none, List.flatMap_cons,
          List.findSome?_append]
  · rw [List.findSome?_singleton, List.flatMap_singleton, List.any_cons, List.any_nil, Bool.or_false]

end Rule

namespace MicroOp

def readsImmediate (mode : Mode) (op : MicroOp) : Bool := (op.targets mode).any (·.inputs.contains .immediate)

def lack? (mode : Mode) (earlier : List MicroOp) (op : MicroOp) (m : Microcode) : Operand → Option CompileError
  | .element e =>
    if e.isTransient && !earlier.any (·.defines mode e) then some (.undefinedOperand m e) else none
  | .immediate => if op.immediate.isNone then some (.missingImmediate m op.x86Index) else none
  | .length => none

/-- The first thing wrong with the micro-op when the micro-ops `earlier` come before it and the run ends
with instruction `last`. -/
def offence? (mode : Mode) (last : Nat) (earlier : List MicroOp) (op : MicroOp) : Option CompileError :=
  match Microcode.ofWord? op.word with
  | none => some (.unknownMicrocode op.word op.x86Index)
  | some m =>
    match Rule.targets? mode m with
    | none => some (.unsupported mode m)
    | some ts =>
      ((ts.flatMap Target.inputs).findSome? (op.lack? mode earlier m)).or
        (if op.switches mode ∧ op.x86Index ≠ last then some (.modeSwitchNotLast m) else none)

theorem lacks_nothing_iff {mode : Mode} {earlier : List MicroOp} {op : MicroOp} {m : Microcode} {ts : List Target}
    (hop : op.targets mode = ts) :
    (ts.flatMap Target.inputs).findSome? (op.lack? mode earlier m) = none ↔
      (op.readsImmediate mode = true → op.immediate.isSome = true) ∧
        ∀ e, e.isTransient = true → op.reads mode e = true → ∃ r ∈ earlier, r.defines mode e = true := by
  have himmediate : op.readsImmediate mode = true ↔ .immediate ∈ ts.flatMap Target.inputs := by
    simp [readsImmediate, hop]
  have helement (e : Element) : op.reads mode e = true ↔ .element e ∈ ts.flatMap Target.inputs := by
    simp [reads, hop]
  simp only [himmediate, helement, List.findSome?_eq_none_iff]
  constructor
  · intro h
    refine ⟨fun ho => ?_, fun e he ho => ?_⟩
    · simpa [lack?, Option.isSome_iff_ne_none] using h _ ho
    · simpa [lack?, he] using h _ ho
  · rintro ⟨hsome, hdefined⟩ (e | _ | _) ho
    · by_cases he : e.isTransient = true
      · simpa [lack?, he] using hdefined e he ho
      · simp [lack?, he]
    · simpa [lack?, Option.isSome_iff_ne_none] using hsome ho
    · rfl

theorem offence?_eq_none {mode : Mode} {last : Nat} {earlier : List MicroOp} {op : MicroOp} :
    op.offence? mode last earlier = none ↔
      (∃ m ts, Microcode.ofWord? op.word = some m ∧ Rule.targets? mode m = some ts) ∧
        (op.readsImmediate mode = true → op.immediate.isSome = true) ∧
        (∀ e, e.isTransient = true → op.reads mode e = true → ∃ r ∈ earlier, r.defines mode e = true) ∧
        (op.switches mode = true → op.x86Index = last) := by
  cases hm : Microcode.ofWord? op.word with
  | none => simp [offence?, hm]
  | some m =>
      cases hts : Rule.targets? mode m with
      | none => simp [offence?, hm, hts]
      | some ts =>
          have hop := targets_of_eq (targets?_eq_some.mpr ⟨m, hm, hts⟩)
          simp only [offence?, hm, hts, Option.or_eq_none_iff, lacks_nothing_iff hop, ite_eq_right_iff, reduceCtorEq,
            imp_false, not_and, not_not]
          exact ⟨fun h => ⟨⟨m, ts, rfl, hts⟩, h.1.1, h.1.2, h.2⟩, fun h => ⟨⟨h.2.1, h.2.2.1⟩, h.2.2.2⟩⟩

def firstOffence? (mode : Mode) (last : Nat) : List MicroOp → List MicroOp → Option CompileError
  | _, [] => none
  | earlier, op :: rest =>
    (op.offence? mode last earlier).or (firstOffence? mode last (earlier ++ [op]) rest)

theorem firstOffence?_eq_none {mode : Mode} {last : Nat} {earlier ops : List MicroOp} :
    firstOffence? mode last earlier ops = none ↔
      ∀ before op after, ops = before ++ op :: after → op.offence? mode last (earlier ++ before) = none := by
  induction ops generalizing earlier with
  | nil => simp [firstOffence?]
  | cons op ops ih =>
      rw [firstOffence?, Option.or_eq_none_iff, ih]
      constructor
      · rintro ⟨hop, hrest⟩ (_ | ⟨x, before⟩) y after heq
        · obtain ⟨rfl, rfl⟩ := List.cons.inj heq
          rwa [List.append_nil]
        · obtain ⟨rfl, rfl⟩ := List.cons.inj heq
          have hy := hrest before y after rfl
          rwa [List.append_assoc] at hy
      · intro h
        refine ⟨by simpa using h [] op ops rfl, ?_⟩
        rintro before y after rfl
        rw [List.append_assoc]
        exact h (op :: before) y after rfl

theorem firstOffence?_eq_some {mode : Mode} {last : Nat} {earlier ops : List MicroOp} {e : CompileError} :
    firstOffence? mode last earlier ops = some e ↔
      ∃ before op after, ops = before ++ op :: after ∧ firstOffence? mode last earlier before = none ∧
        op.offence? mode last (earlier ++ before) = some e := by
  induction ops generalizing earlier with
  | nil => simp [firstOffence?]
  | cons op ops ih =>
      rw [firstOffence?, Option.or_eq_some_iff, ih]
      constructor
      · rintro (hop | ⟨hop, before, y, after, rfl, hbefore, hy⟩)
        · exact ⟨[], op, ops, rfl, rfl, by rwa [List.append_nil]⟩
        · refine ⟨op :: before, y, after, rfl, ?_, by rwa [List.append_assoc] at hy⟩
          rw [firstOffence?, hop, hbefore]
          rfl
      · rintro ⟨_ | ⟨x, before⟩, y, after, heq, hbefore, hy⟩
        · obtain ⟨rfl, rfl⟩ := List.cons.inj heq
          exact .inl (by rwa [List.append_nil] at hy)
        · obtain ⟨rfl, rfl⟩ := List.cons.inj heq
          rw [firstOffence?, Option.or_eq_none_iff] at hbefore
          exact .inr ⟨hbefore.1, before, y, after, rfl, hbefore.2, by rwa [List.append_assoc]⟩

end MicroOp

namespace Run

/-- What a run must be like to have a graph in `mode`. -/
structure WellFormed (mode : Mode) (run : Run) : Prop where
  compilable : ∀ op ∈ run.ops, ∃ m ts, Microcode.ofWord? op.word = some m ∧ Rule.targets? mode m = some ts
  immediate : ∀ op ∈ run.ops, op.readsImmediate mode = true → op.immediate.isSome = true
  defined : ∀ before op after, run.ops = before ++ op :: after →
    ∀ e, e.isTransient = true → op.reads mode e = true → ∃ r ∈ before, r.defines mode e = true
  switches : ∀ op ∈ run.ops, op.switches mode = true → op.x86Index = run.x86Count

theorem wellFormed_iff {mode : Mode} {run : Run} :
    run.WellFormed mode ↔ MicroOp.firstOffence? mode run.x86Count [] run.ops = none := by
  rw [MicroOp.firstOffence?_eq_none]
  constructor
  · intro h before op after hops
    have hop : op ∈ run.ops := by simp [hops]
    exact MicroOp.offence?_eq_none.mpr
      ⟨h.compilable op hop, h.immediate op hop, h.defined before op after hops, h.switches op hop⟩
  · intro h
    have hall (before op after) (hops : run.ops = before ++ op :: after) :=
      MicroOp.offence?_eq_none.mp (h before op after hops)
    refine ⟨?_, ?_, fun before op after hops => (hall before op after hops).2.2.1, ?_⟩
    all_goals
      intro op hop
      obtain ⟨before, after, hops⟩ := List.append_of_mem hop
    · exact (hall before op after hops).1
    · exact (hall before op after hops).2.1
    · exact (hall before op after hops).2.2.2

end Run

namespace Compiler

theorem lookup_frame (c : Compiler) (mode : Mode) (run : Run) :
    (c.lookup mode run).2.cache.buckets = c.cache.buckets ∧
      (c.lookup mode run).2.cache.statistics.publishes = c.cache.statistics.publishes := by
  rw [lookup, Cache.lookup]
  dsimp only
  split
  · exact ⟨rfl, rfl⟩
  · split <;> exact ⟨rfl, rfl⟩

theorem compile_error {c c' : Compiler} {mode : Mode} {name : Option String} {source : List Instruction}
    {e : CompileError} (h : c.compile mode name source = (.error e, c')) :
    c'.cache.buckets = c.cache.buckets ∧ c'.cache.statistics.publishes = c.cache.statistics.publishes := by
  rw [compile] at h
  split at h
  · cases h
    exact ⟨rfl, rfl⟩
  next run _ =>
    have hframe := c.lookup_frame mode run
    rw [compileRun] at h
    split at h
    · cases h
    next c₁ hc₁ =>
      rw [hc₁] at hframe
      rw [fresh] at h
      split at h
      next hfresh =>
        obtain ⟨_, rfl⟩ := Prod.mk.inj hfresh
        cases h
        exact hframe
      · cases h

end Compiler

namespace Graph

namespace Builder

variable {mode : Mode} {last : Nat} {earlier : List MicroOp} {b b' : Builder} {op : MicroOp} {m : Microcode}

/-- What has a definition once the micro-ops `earlier` are done. -/
def Knows (mode : Mode) (earlier : List MicroOp) (b : Builder) : Prop :=
  ∀ e, (b.current.get e).isSome = (e.isPersistent || earlier.any (·.defines mode e))

theorem knows_initial (mode : Mode) : initial.Knows mode [] := by
  intro e
  change (entryDefinitions.get e).isSome = _
  rw [entryDefinitions, ElementMap.get_ofFn]
  cases e <;> rfl

theorem Knows.congr (hb : b.Knows mode earlier) (h : b'.current = b.current) : b'.Knows mode earlier := by
  intro e
  rw [h, hb e]

theorem Knows.failure?_operand (hb : b.Knows mode earlier) {o : Operand}
    (ho : ∀ e, o = .element e → e.isSentinel = false) : failure? (b.operand op m o) = op.lack? mode earlier m o := by
  cases o with
  | element e =>
      have hsentinel := ho e rfl
      -- what is no sentinel and not there on entry is transient
      have hkinds : e.isTransient = !e.isPersistent := by
        simp only [Element.isSentinel, Element.isTransient, Element.isPersistent] at hsentinel ⊢
        grind
      rw [operand, MicroOp.lack?, hkinds, ← Bool.not_or, ← hb e]
      cases b.current.get e <;> rfl
  | immediate =>
      rw [operand, MicroOp.lack?]
      cases op.immediate <;> rfl
  | length => rfl

theorem operand_current {o : Operand} {n : Node} (h : b.operand op m o = .ok (n, b')) : b'.current = b.current := by
  rcases operand_ok h with ⟨rfl, _⟩ | ⟨value, hpush, _⟩
  · rfl
  · cases hpush
    rfl

theorem Knows.failure?_operands (hb : b.Knows mode earlier) {os : List Operand}
    (hos : ∀ e, .element e ∈ os → e.isSentinel = false) :
    failure? (operands op m b os) = os.findSome? (op.lack? mode earlier m) := by
  induction os generalizing b with
  | nil => rfl
  | cons o os ih =>
      rw [operands, findSome?_cons_eq_or, ← hb.failure?_operand fun e he => hos e (he ▸ List.mem_cons_self)]
      apply failure?_bind
      rintro ⟨n, b₁⟩ hn
      rw [failure?_bind_ok fun _ => rfl]
      exact ih (hb.congr (operand_current hn)) fun e he => hos e (List.mem_cons_of_mem _ he)

theorem Knows.failure?_target (hb : b.Knows mode earlier) {t : Target}
    (ht : ∀ e, .element e ∈ t.inputs → e.isSentinel = false) :
    failure? (target last op m b t) = (t.inputs.findSome? (op.lack? mode earlier m)).or
      (if t.switchesMode then if op.x86Index ≠ last then some (.modeSwitchNotLast m) else none else none) := by
  rw [target, failure?_bind, hb.failure?_operands ht]
  rintro ⟨inputs, b₁⟩ _
  rw [← ite_and]
  dsimp only
  split <;> rfl

theorem Knows.failure?_targets (hb : b.Knows mode earlier) {ts : List Target}
    (hts : ∀ e, .element e ∈ ts.flatMap Target.inputs → e.isSentinel = false) :
    failure? (targets last op m b ts) = ts.findSome? fun t => (t.inputs.findSome? (op.lack? mode earlier m)).or
      (if t.switchesMode then if op.x86Index ≠ last then some (.modeSwitchNotLast m) else none else none) := by
  induction ts generalizing b with
  | nil => rfl
  | cons t ts ih =>
      rw [List.flatMap_cons] at hts
      rw [targets, findSome?_cons_eq_or, ← hb.failure?_target fun e he => hts e (List.mem_append_left _ he)]
      apply failure?_bind
      rintro ⟨n, b₁⟩ hn
      obtain ⟨inputs, b₀, hin, _, rfl⟩ := target_ok hn
      have hsame := (unmoved_place b₀ t (.ofTarget m t op.x86Index inputs)).current.trans (operands_ok hin).1
      rw [failure?_bind_ok fun _ => rfl]
      exact ih (hb.congr hsame) fun e he => hts e (List.mem_append_right _ he)

theorem Knows.failure?_step (hb : b.Knows mode earlier) :
    failure? (b.step mode last op) = op.offence? mode last earlier := by
  have henter : (b.enter op.x86Index).Knows mode earlier := hb.congr (by rw [enter_eq])
  cases hm : Microcode.ofWord? op.word with
  | none => simp only [Builder.step, MicroOp.offence?, MicroOp.microcode, hm, bind, Except.bind, failure?]
  | some m =>
      cases hts : Rule.targets? mode m with
      | none => simp only [Builder.step, MicroOp.offence?, MicroOp.microcode, hm, hts, bind, Except.bind, failure?]
      | some ts =>
          have hop := MicroOp.targets_of_eq (MicroOp.targets?_eq_some.mpr ⟨m, hm, hts⟩)
          simp only [MicroOp.offence?, MicroOp.switches, hm, hts, hop, ite_and]
          -- the builder looks at one target after the other, and `offence?` at all operands first
          rw [← Rule.findSome?_targets hts, ← henter.failure?_targets fun e => Rule.isSentinel_of_mem hts]
          simp only [Builder.step, MicroOp.microcode, hm, hts, bind, Except.bind]
          cases targets last op m (b.enter op.x86Index) ts <;> rfl

theorem Knows.step (hb : b.Knows mode earlier) (hs : b.step mode last op = .ok b') :
    b'.Knows mode (earlier ++ [op]) := by
  intro e
  rw [List.any_append, List.any_cons, List.any_nil, Bool.or_false]
  cases hop : op.defines mode e with
  | false => rw [(step_demands hs).2.2 e hop, hb e, Bool.or_false]
  | true =>
      obtain ⟨m, ts, defined, b₁, hm, hts, htargets, rfl⟩ := step_ok hs
      have he : e ∈ defined.map Prod.fst := by
        rw [MicroOp.defines, MicroOp.targets_of_eq (MicroOp.targets?_eq_some.mpr ⟨m, hm, hts⟩)] at hop
        rw [(targets_demand htargets).2.1]
        simpa using hop
      obtain ⟨p, _, hget⟩ := exists_get_foldl_define op.position b₁ he
      rw [Bool.or_true, Bool.or_true]
      exact Option.isSome_of_eq_some hget

theorem Knows.failure?_foldlM (hb : b.Knows mode earlier) (ops : List MicroOp) :
    failure? (ops.foldlM (Builder.step mode last) b) = MicroOp.firstOffence? mode last earlier ops := by
  induction ops generalizing b earlier with
  | nil => rfl
  | cons op ops ih =>
      rw [List.foldlM_cons, failure?_bind fun b' hs => ih (hb.step hs), hb.failure?_step]
      rfl

end Builder

theorem failure?_build (mode : Mode) (run : Run) :
    failure? (build mode run) = MicroOp.firstOffence? mode run.x86Count [] run.ops := by
  rw [build, failure?_bind_ok fun _ => rfl]
  exact (Builder.knows_initial mode).failure?_foldlM run.ops

/-- A graph is built for the well-formed runs and no others. Any other run is refused for what is first
wrong with it, and a source that is refused leaves the compiled procedures as they were. -/
theorem accepts_exactly_wellFormed (mode : Mode) (run : Run) :
    ((∃ g, build mode run = .ok g) ↔ run.WellFormed mode) ∧
      (∀ e, build mode run = .error e ↔
        ∃ before op after, run.ops = before ++ op :: after ∧
          (∀ pre x post, before = pre ++ x :: post → x.offence? mode run.x86Count pre = none) ∧
          op.offence? mode run.x86Count before = some e) ∧
      ∀ (c c' : Compiler) (name : Option String) (source : List Instruction) (e : CompileError),
        c.compile mode name source = (.error e, c') →
          c'.cache.procedures = c.cache.procedures ∧ c'.cache.names = c.cache.names ∧
            c'.cache.statistics.publishes = c.cache.statistics.publishes := by
  refine ⟨?_, ?_, ?_⟩
  · rw [← failure?_eq_none, failure?_build, Run.wellFormed_iff]
  · intro e
    rw [← failure?_eq_some, failure?_build, MicroOp.firstOffence?_eq_some]
    simp only [MicroOp.firstOffence?_eq_none, List.nil_append]
  · intro c c' name source e h
    obtain ⟨hbuckets, hpublishes⟩ := Compiler.compile_error h
    have hprocedures : c'.cache.procedures = c.cache.procedures := by rw [Cache.procedures, hbuckets]; rfl
    exact ⟨hprocedures, by rw [Cache.names, hprocedures]; rfl, hpublishes⟩

def earlySwitch : List Instruction :=
  [⟨3, [Microcode.load0Imm.word, 1, Microcode.storeCr0.word]⟩, ⟨2, [Microcode.add.word]⟩]

def stockedCompiler : Compiler :=
  ((Compiler.new .standard 0).compile .real (some "clear") [⟨1, [Microcode.clc.word]⟩]).2

theorem accepts_exactly_wellFormed_earlySwitch :
    ∃ run c', Run.build 2 earlySwitch = .ok run ∧ ¬ run.WellFormed .real ∧
      (∃ before op after, run.ops = before ++ op :: after ∧
        (∀ pre x post, before = pre ++ x :: post → x.offence? .real run.x86Count pre = none) ∧
        op.offence? .real run.x86Count before = some (.modeSwitchNotLast .storeCr0)) ∧
      stockedCompiler.compile .real none earlySwitch = (.error (.modeSwitchNotLast .storeCr0), c') ∧
      c'.cache.procedures = stockedCompiler.cache.procedures ∧ c'.cache.names = ["clear"] ∧
      c'.cache.statistics.publishes = 1 := by
  obtain ⟨run, hrun⟩ : ∃ run, Run.build 2 earlySwitch = .ok run := exists_eq_ok (by decide +kernel)
  have herror : build .real run = .error (.modeSwitchNotLast .storeCr0) := by
    have hboth : (Run.build 2 earlySwitch >>= build .real) = .error (.modeSwitchNotLast .storeCr0) := by
      decide +kernel
    rwa [hrun] at hboth
  obtain ⟨c', hcompile⟩ : ∃ c', stockedCompiler.compile .real none earlySwitch =
      (.error (.modeSwitchNotLast .storeCr0), c') := by
    have hresult : (stockedCompiler.compile .real none earlySwitch).1 = .error (.modeSwitchNotLast .storeCr0) := by
      decide +kernel
    generalize stockedCompiler.compile .real none earlySwitch = r at hresult ⊢
    exact ⟨r.2, Prod.ext hresult rfl⟩
  obtain ⟨haccepts, hrefuses, hkeeps⟩ := accepts_exactly_wellFormed .real run
  obtain ⟨hprocedures, hnames, hpublishes⟩ := hkeeps _ _ _ _ _ hcompile
  refine ⟨run, c', hrun, ?_, (hrefuses _).mp herror, hcompile, hprocedures, hnames.trans (by decide +kernel),
    hpublishes.trans (by decide +kernel)⟩
  intro hwell
  obtain ⟨g, hg⟩ := haccepts.mpr hwell
  rw [herror] at hg
  cases hg

end Graph

end Dynarec
