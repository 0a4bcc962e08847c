import Dynarec.Proofs.FlagBits
import Dynarec.Proofs.InstructionPointer
import Dynarec.Proofs.MainCodeLength
import Dynarec.Proofs.RunParsing

namespace Dynarec

inductive Arithmetic
  | add | sub | inc
  deriving DecidableEq, Repr

namespace Arithmetic

def operation : Arithmetic → Microcode
  | add => .add
  | sub => .sub
  | inc => .inc

def flagging : Arithmetic → Microcode
  | add => .addFlags
  | sub => .subFlags
  | inc => .incFlags

def result (op : Arithmetic) (x y : UInt32) : UInt32 :=
  match op with
  | add => x + y
  | sub => x - y
  | inc => x + 1

/-- What a flag says about the operands. An increment has nothing to say about the carry. -/
def flag? (op : Arithmetic) (x y : UInt32) : Element → Option Bool
  | .carry => match op with
    | add => some (2 ^ 32 ≤ x.toNat + y.toNat)
    | sub => some (x.toNat < y.toNat)
    | inc => none
  | .overflow => match op with
    | add => some (¬IsSigned (signed x + signed y))
    | sub => some (¬IsSigned (signed x - signed y))
    | inc => some (x.toNat = 2 ^ 31 - 1)
  | .auxiliary => match op with
    | add => some (16 ≤ x.toNat % 16 + y.toNat % 16)
    | sub => some (x.toNat % 16 < y.toNat % 16)
    | inc => some (x.toNat % 16 = 15)
  | .zero => some (op.result x y = 0)
  | .sign => some ((op.result x y).toNat.testBit 31)
  | .parity => some (Even (∑ i ∈ Finset.range 8, (op.result x y).toNat / 2 ^ i % 2))
  | _ => none

def flagged (op : Arithmetic) (x y : UInt32) (e : Element) (old : UInt32) : UInt32 :=
  ((op.flag? x y e).map Fragment.ofBool).getD old

end Arithmetic

namespace Interpreter

theorem get_foldl_define_lookup (position : UInt32) {results : List (Element × UInt32)} (p : Progress)
    (hnodup : (results.map Prod.fst).Nodup) (e : Element) :
    (results.foldl (define position) p).defined.get e = (results.lookup e).or (p.defined.get e) := by
  induction results generalizing p with
  | nil => rfl
  | cons r results ih =>
      obtain ⟨e', v⟩ := r
      rw [List.map_cons, List.nodup_cons] at hnodup
      rw [List.foldl_cons, List.lookup_cons]
      by_cases he : e = e'
      · subst he
        rw [get_foldl_define position _ hnodup.1, beq_self_eq_true]
        exact ElementMap.get_set_self _ _ _
      · rw [ih _ hnodup.2, beq_eq_false_iff_ne.mpr he]
        exact congrArg _ (ElementMap.get_set_ne _ (Ne.symm he) _)

section Walks

variable {σ : Type} [Processor σ] {mode : Mode} {entry : ElementMap UInt32} {s s' : State σ} {o : MicroOp}
  {op : Arithmetic}

theorem advance?_of_word (mode : Mode) (entry : ElementMap UInt32) (s : State σ) {m : Microcode} {ts : List Target}
    {done : Targets} {cpu' : σ} (h : o.word = m.word) (hts : Rule.targets? mode m = some ts)
    (hdone : targets? entry s.progress o ts s.cpu = some (.ok done, cpu')) :
    ∃ s', advance? mode entry s o = some (.ok s') ∧ s'.switched = (s.switched || done.switched) ∧
      ∀ e, s'.progress.value entry e = (done.results.lookup e).getD (s.progress.value entry e) := by
  refine ⟨s.after o done cpu', ?_, rfl, ?_⟩
  · rw [advance?, MicroOp.targets?_of_word mode h, hts, Option.bind_some, hdone]
    rfl
  · intro e
    have hnodup : (done.results.map Prod.fst).Nodup := by
      rw [(targets?_ok hdone).1]
      exact Rule.nodup_elements hts
    have hget := get_foldl_define_lookup o.position s.progress hnodup e
    rw [Progress.value, Progress.value]
    change ((done.results.foldl (define o.position) s.progress).defined.get e).getD _ = _
    rw [hget]
    cases done.results.lookup e <;> rfl

theorem advance?_operation (mode : Mode) (entry : ElementMap UInt32) (s : State σ) (h : o.word = op.operation.word) :
    ∃ s', advance? mode entry s o = some (.ok s') ∧ s'.switched = s.switched ∧
      ∀ e, s'.progress.value entry e =
        ([(Element.reg0, op.result (s.progress.value entry .reg0) (s.progress.value entry .reg1)),
          (.reg2, s.progress.value entry .reg0)].lookup e).getD (s.progress.value entry e) := by
  have htargets : ∃ ts, Rule.targets? mode op.operation = some ts ∧ targets? entry s.progress o ts s.cpu =
      some (.ok ⟨[(.reg0, op.result (s.progress.value entry .reg0) (s.progress.value entry .reg1)),
        (.reg2, s.progress.value entry .reg0)], false⟩, s.cpu) := by
    cases op <;> exact ⟨_, rfl, rfl⟩
  obtain ⟨ts, hts, hdone⟩ := htargets
  obtain ⟨s', hs', hswitched, hvalue⟩ := advance?_of_word mode entry s h hts hdone
  exact ⟨s', hs', hswitched.trans (Bool.or_false _), hvalue⟩

theorem advance?_flagging (mode : Mode) {x y : UInt32} (h : o.word = op.flagging.word)
    (hx : s.progress.value entry .reg2 = x) (hy : s.progress.value entry .reg1 = y)
    (hresult : s.progress.value entry .reg0 = op.result x y) :
    ∃ s', advance? mode entry s o = some (.ok s') ∧ s'.switched = s.switched ∧
      ∀ e, s'.progress.value entry e = op.flagged x y e (s.progress.value entry e) := by
  have hzero (r : UInt32) : Fragment.ofBool (r == 0) = Fragment.ofBool (r = 0) := by rw [beq_eq_decide]
  have hparity (r : UInt32) := congrArg Fragment.ofBool (Fragment.evenParity_eq r)
  have htargets : ∃ ts done, Rule.targets? mode op.flagging = some ts ∧
      targets? entry s.progress o ts s.cpu = some (.ok done, s.cpu) ∧ done.switched = false ∧
      ∀ e, done.results.lookup e = (op.flag? x y e).map Fragment.ofBool := by
    cases op with
    | add =>
        refine ⟨_, _, rfl, rfl, rfl, fun e => ?_⟩
        rw [hx, hy, hresult]
        cases e with
        | carry => exact congrArg some (Fragment.carryAdd_eq x y)
        | overflow => exact congrArg some (Fragment.overflowAdd_eq x y)
        | auxiliary => exact congrArg some (Fragment.auxiliaryAdd_eq x y)
        | zero => exact congrArg some (hzero _)
        | sign => exact congrArg some (Fragment.shiftRight_31 _)
        | parity => exact congrArg some (hparity _)
        | _ => rfl
    | sub =>
        refine ⟨_, _, rfl, rfl, rfl, fun e => ?_⟩
        rw [hx, hy, hresult]
        cases e with
        | overflow => exact congrArg some (Fragment.overflowSub_eq x y)
        | auxiliary => exact congrArg some (Fragment.auxiliarySub_eq x y)
        | zero => exact congrArg some (hzero _)
        | sign => exact congrArg some (Fragment.shiftRight_31 _)
        | parity => exact congrArg some (hparity _)
        | _ => rfl
    | inc =>
        -- an increment compares its result with constants, and does not look at the operands
        refine ⟨_, _, rfl, rfl, rfl, fun e => ?_⟩
        rw [hresult]
        cases e with
        | overflow => exact congrArg some (Fragment.overflowInc_eq x)
        | auxiliary => exact congrArg some (Fragment.auxiliaryInc_eq x)
        | zero => exact congrArg some (hzero _)
        | sign => exact congrArg some (Fragment.shiftRight_31 _)
        | parity => exact congrArg some (hparity _)
        | _ => rfl
  obtain ⟨ts, done, hts, hdone, hnot, hlookup⟩ := htargets
  obtain ⟨s', hs', hswitched, hvalue⟩ := advance?_of_word mode entry s h hts hdone
  refine ⟨s', hs', by rw [hswitched, hnot, Bool.or_false], fun e => ?_⟩
  rw [hvalue, hlookup]
  rfl

theorem reach?_pair {a b : MicroOp} {s₁ s₂ : State σ} (h₁ : advance? mode entry s a = some (.ok s₁))
    (h₂ : advance? mode entry s₁ b = some (.ok s₂)) : reach? mode entry s [a, b] = some (.ok s₂) := by
  rw [reach?, h₁]
  exact (reach?_singleton b).trans h₂

theorem reach?_arithmetic (mode : Mode) (entry : ElementMap UInt32) (s : State σ) {a b : MicroOp}
    (ha : a.word = op.operation.word) (hb : b.word = op.flagging.word) :
    ∃ s', reach? mode entry s [a, b] = some (.ok s') ∧ s'.switched = s.switched ∧
      ∀ e, e.isCommitted = true → s'.progress.value entry e =
        op.flagged (s.progress.value entry .reg0) (s.progress.value entry .reg1) e (s.progress.value entry e) := by
  obtain ⟨s₁, h₁, hswitched₁, hvalue₁⟩ := advance?_operation mode entry s ha
  obtain ⟨s₂, h₂, hswitched₂, hvalue₂⟩ := advance?_flagging mode hb (hvalue₁ .reg2) (hvalue₁ .reg1) (hvalue₁ .reg0)
  refine ⟨s₂, reach?_pair h₁ h₂, hswitched₂.trans hswitched₁, ?_⟩
  intro e he
  have hkept : s₁.progress.value entry e = s.progress.value entry e := by
    rw [hvalue₁]
    cases e <;> first | rfl | cases he
  rw [hvalue₂, hkept]
  rfl

theorem value_reach? {e : Element} {ops : List MicroOp} (h : reach? mode entry s ops = some (.ok s'))
    (he : ∀ o ∈ ops, o.defines mode e = false) : s'.progress.value entry e = s.progress.value entry e := by
  induction ops generalizing s with
  | nil =>
      cases h
      rfl
  | cons o ops ih =>
      rw [List.forall_mem_cons] at he
      rw [reach?] at h
      split at h
      next s₁ hs₁ => rw [ih h he.2, Progress.value, Progress.value, get_advance? hs₁ he.1]
      next hstopped => exact absurd h (hstopped s')

theorem get_commit_reach? [SteadyProcessor σ] [LawfulProcessor σ] {cpu : σ} {ops : List MicroOp} {e : Element}
    (h : reach? mode (entryValues cpu) (State.initial cpu) ops = some (.ok s)) (he : e.isCommitted = true) :
    Processor.get (commit s.progress.defined s.cpu) e = s.progress.value (entryValues cpu) e := by
  rw [get_commit, if_pos he, (asked_reach? h).get_eq, Progress.value, entryValues_of_isCommitted he]
  rfl

end Walks

end Interpreter

inductive Source
  | register (r : Register)
  | immediate (value : UInt32)
  deriving DecidableEq, Repr

namespace Source

def value (cpu : Machine) : Source → UInt32
  | register r => cpu.elements.get r.element
  | immediate value => value

def immediate? : Source → Option UInt32
  | register _ => none
  | immediate value => some value

def operand : Source → Operand
  | register r => .element r.element
  | immediate _ => .immediate

def first : Source → Microcode
  | register r => .load0 r
  | immediate _ => .load0Imm

def second : Source → Microcode
  | register r => .load1 r
  | immediate _ => .load1Imm

theorem targets?_first (mode : Mode) (a : Source) :
    Rule.targets? mode a.first = some [.plain .reg0 [a.operand] .identity] := by
  cases a <;> rfl

theorem targets?_second (mode : Mode) (a : Source) :
    Rule.targets? mode a.second = some [.plain .reg1 [a.operand] .identity] := by
  cases a <;> rfl

end Source

namespace Arithmetic

def ops (op : Arithmetic) (a b : Source) (length : UInt32) : List MicroOp :=
  [⟨a.first.word, a.immediate?, length, 1⟩, ⟨b.second.word, b.immediate?, length, 1⟩,
   ⟨op.operation.word, none, length, 1⟩, ⟨op.flagging.word, none, length, 1⟩]

def instruction (op : Arithmetic) (a b : Source) (length : UInt32) : Instruction :=
  ⟨length, (op.ops a b length).flatMap MicroOp.words⟩

variable (op : Arithmetic) (a b : Source) (length : UInt32)

theorem splitAll_instruction : MicroOp.splitAll 0 0 [op.instruction a b length] = op.ops a b length := by
  have htakes (m : Microcode) : Microcode.takesImmediate m.word = m.hasImmediate := by
    rw [Microcode.takesImmediate, Microcode.ofWord?_word, Option.any_some]
  rw [MicroOp.splitAll, MicroOp.splitAll, List.append_nil]
  change MicroOp.split (0 + length) 1 ((op.ops a b length).flatMap MicroOp.words) = _
  rw [UInt32.zero_add]
  apply MicroOp.split_flatMap_words <;> simp only [ops, List.forall_mem_cons, htakes]
  · simp
  · simp
  · exact ⟨by cases a <;> rfl, by cases b <;> rfl, by cases op <;> rfl, by cases op <;> rfl, List.forall_mem_nil _⟩

theorem exists_run_instruction (limit : Nat) :
    ∃ run, Run.build limit [op.instruction a b length] = .ok run ∧ run.ops = op.ops a b length := by
  have htake : [op.instruction a b length].take (max limit 1) = [op.instruction a b length] :=
    List.take_of_length_le (Nat.le_max_right _ _)
  have hwords : ∃ i ∈ [op.instruction a b length].take (max limit 1), i.words ≠ [] := by
    rw [htake]
    exact ⟨_, List.mem_cons_self, List.cons_ne_nil _ _⟩
  have hlength : ([op.instruction a b length].take (max limit 1)).length < UInt32.size := by
    rw [htake, List.length_singleton]
    decide
  refine ⟨_, Run.build_of_words hlength hwords, ?_⟩
  rw [htake]
  exact op.splitAll_instruction a b length

end Arithmetic

namespace TreeSizes

variable {mode : Mode} {last : Nat} {s : TreeSizes} {o : MicroOp}

theorem step?_of_word (m : Microcode) {ts : List Target} (h : o.word = m.word) (hts : Rule.targets? mode m = some ts)
    (hall : ts.all (s.admits last o) = true) :
    s.step? mode last o = some (ts.foldl (fun s' t => Function.update s' t.element (s.ofTarget t)) s) := by
  rw [step?, MicroOp.targets?_of_word mode h, hts]
  exact if_pos hall

theorem step?_load {m : Microcode} {a : Source} {e : Element} (h : o.word = m.word)
    (hm : Rule.targets? mode m = some [.plain e [a.operand] .identity]) (ho : o.immediate = a.immediate?)
    (hs : ∀ r : Register, s r.element = 1) : s.step? mode last o = some (Function.update s e 2) := by
  have hprovides : s.provides o a.operand = true := by
    cases a with
    | register r => simp [Source.operand, provides, hs]
    | immediate v => simp [Source.operand, provides, ho, Source.immediate?]
  have hsize : s.ofOperand a.operand = 1 := by
    cases a with
    | register r => exact hs r
    | immediate v => rfl
  rw [step?_of_word m h hm (by simp [admits, Target.plain, hprovides])]
  simp [ofTarget, Target.plain, Target.isOrdered, hsize]

theorem exists_sizes (mode : Mode) (op : Arithmetic) (a b : Source) (length : UInt32) :
    ∃ s, (op.ops a b length).foldlM (step? mode 1) entry = some s ∧ ∀ e, s e ≤ 11 := by
  let s₁ : TreeSizes := Function.update entry .reg0 2
  let s₂ : TreeSizes := Function.update s₁ .reg1 2
  have hfirst : entry.step? mode 1 ⟨a.first.word, a.immediate?, length, 1⟩ = some s₁ :=
    step?_load rfl (a.targets?_first mode) rfl fun r => by cases r <;> rfl
  have hsecond : s₁.step? mode 1 ⟨b.second.word, b.immediate?, length, 1⟩ = some s₂ :=
    step?_load rfl (b.targets?_second mode) rfl fun r => by cases r <;> rfl
  have hrest : ∃ s₃ s₄, s₂.step? mode 1 ⟨op.operation.word, none, length, 1⟩ = some s₃ ∧
      step? mode 1 s₃ ⟨op.flagging.word, none, length, 1⟩ = some s₄ ∧ ∀ e ∈ Element.all, s₄ e ≤ 11 := by
    cases op with
    | add => exact ⟨_, _, step?_of_word .add rfl rfl rfl, step?_of_word .addFlags rfl rfl rfl, by decide⟩
    | sub => exact ⟨_, _, step?_of_word .sub rfl rfl rfl, step?_of_word .subFlags rfl rfl rfl, by decide⟩
    | inc => exact ⟨_, _, step?_of_word .inc rfl rfl rfl, step?_of_word .incFlags rfl rfl rfl, by decide⟩
  obtain ⟨s₃, s₄, hthird, hfourth, hall⟩ := hrest
  refine ⟨s₄, ?_, fun e => hall e (Element.mem_all e)⟩
  simp [Arithmetic.ops, hfirst, hsecond, hthird, hfourth]

end TreeSizes

theorem MicroOp.orderedTargets_of_word {mode : Mode} {o : MicroOp} (m : Microcode) {ts : List Target}
    (h : o.word = m.word) (hts : Rule.targets? mode m = some ts) (hall : ts.all (!·.isOrdered) = true) :
    o.orderedTargets mode = [] := by
  rw [orderedTargets, targets_of_eq ((targets?_of_word mode h).trans hts), List.map_eq_nil_iff, List.filter_eq_nil_iff]
  simpa using hall

namespace Arithmetic

variable (op : Arithmetic) (a b : Source) (length : UInt32)

theorem orderedTargets_ops (mode : Mode) : (op.ops a b length).flatMap (·.orderedTargets mode) = [] := by
  simp only [ops, List.flatMap_cons, List.flatMap_nil, List.append_nil, List.append_eq_nil_iff]
  refine ⟨?_, ?_, ?_, ?_⟩
  · exact MicroOp.orderedTargets_of_word a.first rfl (a.targets?_first mode) rfl
  · exact MicroOp.orderedTargets_of_word b.second rfl (b.targets?_second mode) rfl
  · cases op with
    | add => exact MicroOp.orderedTargets_of_word .add rfl rfl rfl
    | sub => exact MicroOp.orderedTargets_of_word .sub rfl rfl rfl
    | inc => exact MicroOp.orderedTargets_of_word .inc rfl rfl rfl
  · cases op with
    | add => exact MicroOp.orderedTargets_of_word .addFlags rfl rfl rfl
    | sub => exact MicroOp.orderedTargets_of_word .subFlags rfl rfl rfl
    | inc => exact MicroOp.orderedTargets_of_word .incFlags rfl rfl rfl

theorem exists_build_instruction (limit : Nat) (name : String) (mode : Mode) (stamp : Nat) :
    ∃ run p, Run.build limit [op.instruction a b length] = .ok run ∧ run.ops = op.ops a b length ∧
      Procedure.build name mode stamp run = .ok p := by
  obtain ⟨run, hrun, hops⟩ := op.exists_run_instruction a b length limit
  have hcount : run.x86Count = 1 := by
    rw [Run.x86Count, hops]
    rfl
  have hpure : run.orderedTargets mode = [] := by
    rw [Run.orderedTargets, hops]
    exact op.orderedTargets_ops a b length mode
  obtain ⟨s, hs, hsmall⟩ := TreeSizes.exists_sizes mode op a b length
  rw [← hops, ← hcount] at hs
  obtain ⟨p, hp⟩ := Procedure.exists_build_of_small (Run.ordered_of_build hrun) hpure hs hsmall (by decide) name stamp
  exact ⟨run, p, hrun, hops, hp⟩

end Arithmetic

namespace Interpreter

variable {mode : Mode} {o : MicroOp} {cpu : Machine}

/-- The processor still stands behind everything that is committed. -/
def State.Untouched (cpu : Machine) (s : State Machine) : Prop :=
  ∀ e, e.isCommitted = true → s.progress.value (entryValues cpu) e = cpu.elements.get e

theorem untouched_initial (cpu : Machine) : (State.initial cpu).Untouched cpu := by
  intro e he
  rw [Progress.value, State.initial, Progress.initial, ElementMap.get_replicate, Option.getD_none,
    entryValues_of_isCommitted he]
  rfl

theorem advance?_load {m : Microcode} {a : Source} {e : Element} {s : State Machine} (h : o.word = m.word)
    (hm : Rule.targets? mode m = some [.plain e [a.operand] .identity]) (ho : o.immediate = a.immediate?)
    (he : e.isCommitted = false) (hs : s.Untouched cpu) :
    ∃ s', advance? mode (entryValues cpu) s o = some (.ok s') ∧ s'.switched = s.switched ∧ s'.Untouched cpu ∧
      s'.progress.value (entryValues cpu) e = a.value cpu ∧
      ∀ e', e' ≠ e → s'.progress.value (entryValues cpu) e' = s.progress.value (entryValues cpu) e' := by
  have hoperand : operand? (entryValues cpu) s.progress o a.operand = some (a.value cpu) := by
    cases a with
    | register r => exact congrArg some (hs r.element (by cases r <;> rfl))
    | immediate v => exact ho
  have htargets : targets? (entryValues cpu) s.progress o [.plain e [a.operand] .identity] s.cpu =
      some (.ok ⟨[(e, a.value cpu)], false⟩, s.cpu) := by
    let t := Target.plain e [a.operand] .identity
    have hargs : t.inputs.mapM (operand? (entryValues cpu) s.progress o) = some [a.value cpu] := by
      simp [t, Target.plain, hoperand]
    have hperform : t.fragment.perform ([a.value cpu].getD · 0) s.cpu = (.value (a.value cpu), s.cpu) := rfl
    exact targets?_cons hargs rfl hperform
  obtain ⟨s', hs', hswitched, hvalue⟩ := advance?_of_word mode (entryValues cpu) s h hm htargets
  have hother (e' : Element) (hne : e' ≠ e) :
      s'.progress.value (entryValues cpu) e' = s.progress.value (entryValues cpu) e' := by
    rw [hvalue, List.lookup_cons, beq_eq_false_iff_ne.mpr hne]
    rfl
  refine ⟨s', hs', hswitched.trans (Bool.or_false _), ?_, ?_, hother⟩
  · intro e' he'
    rw [hother, hs e' he']
    rintro rfl
    rw [he] at he'
    cases he'
  · rw [hvalue, List.lookup_cons, beq_self_eq_true]
    rfl

theorem reach?_loads (mode : Mode) (a b : Source) (length : UInt32) (cpu : Machine) :
    ∃ s, reach? mode (entryValues cpu) (State.initial cpu)
        [⟨a.first.word, a.immediate?, length, 1⟩, ⟨b.second.word, b.immediate?, length, 1⟩] = some (.ok s) ∧
      s.switched = false ∧ s.Untouched cpu ∧ s.progress.value (entryValues cpu) .reg0 = a.value cpu ∧
      s.progress.value (entryValues cpu) .reg1 = b.value cpu := by
  let o₁ : MicroOp := ⟨a.first.word, a.immediate?, length, 1⟩
  let o₂ : MicroOp := ⟨b.second.word, b.immediate?, length, 1⟩
  obtain ⟨s₁, h₁, hswitched₁, huntouched₁, hfirst, _⟩ :=
    advance?_load (o := o₁) rfl (a.targets?_first mode) rfl rfl (untouched_initial cpu)
  obtain ⟨s₂, h₂, hswitched₂, huntouched₂, hsecond, hkept⟩ :=
    advance?_load (o := o₂) rfl (b.targets?_second mode) rfl rfl huntouched₁
  refine ⟨s₂, reach?_pair h₁ h₂, hswitched₂.trans hswitched₁, huntouched₂, ?_, hsecond⟩
  rw [hkept .reg0 (by decide), hfirst]

end Interpreter

namespace Procedure

open Interpreter

variable {name : String} {mode : Mode} {stamp : Nat} {run : Run} {p : Procedure} {op : Arithmetic}

/-- An operation and its flag microcode leave the flags, unless what comes after them faults or defines
them anew. -/
theorem run_arithmetic (hrun : run.Ordered) (h : build name mode stamp run = .ok p) {before after : List MicroOp}
    {a b : MicroOp} (hops : run.ops = before ++ a :: b :: after) (ha : a.word = op.operation.word)
    (hb : b.word = op.flagging.word) {cpu : Machine} {s : State Machine}
    (hs : reach? mode (entryValues cpu) (State.initial cpu) before = some (.ok s)) :
    (after = [] → (p.run cpu).1 = if s.switched then .switched else .completed run.x86Count) ∧
      ((∀ f k, (p.run cpu).1 ≠ .faulted f k) →
        ∀ e, e.isCommitted = true → (∀ o ∈ after, o.defines mode e = false) →
          (p.run cpu).2.elements.get e =
            op.flagged (s.progress.value (entryValues cpu) .reg0) (s.progress.value (entryValues cpu) .reg1) e
              (s.progress.value (entryValues cpu) e)) := by
  obtain ⟨s', hpair, hswitched, hflags⟩ := reach?_arithmetic mode (entryValues cpu) s ha hb
  have hreach : reach? mode (entryValues cpu) (State.initial cpu) run.ops = reach? mode (entryValues cpu) s' after := by
    rw [hops, reach?_append, hs]
    change reach? mode (entryValues cpu) s ([a, b] ++ after) = _
    rw [reach?_append, hpair]
  rcases walk_cases hrun h cpu with ⟨last, hlast, hend⟩ | ⟨stop, hstop, hend⟩
  · constructor
    · rintro rfl
      rw [hreach] at hlast
      cases hlast
      rw [hend, hswitched]
    · intro _ e he hafter
      have hget := get_commit_reach? hlast he
      rw [hreach] at hlast
      rw [hend, ← hflags e he, ← value_reach? hlast hafter]
      exact hget
  · constructor
    · rintro rfl
      rw [hreach] at hstop
      cases hstop
    · intro hnot
      rw [hend] at hnot
      exact absurd rfl (hnot _ _)

/-- In every mode the flags are those that the operands call for, wherever in a compiled run an operation
is followed by its flag microcode. An instruction that loads any two operands, computes and sets the flags
is compiled and completes, and it leaves everything else as it was. -/
theorem sets_flags (mode : Mode) (op : Arithmetic) :
    (∀ (limit : Nat) (instructions : List Instruction) (run : Run) (name : String) (stamp : Nat) (p : Procedure)
        (before after : List MicroOp) (a b : MicroOp) (cpu : Machine) (s : State Machine),
      Run.build limit instructions = .ok run → build name mode stamp run = .ok p →
      run.ops = before ++ a :: b :: after → a.word = op.operation.word → b.word = op.flagging.word →
      reach? mode (entryValues cpu) (State.initial cpu) before = some (.ok s) →
      (after = [] → (p.run cpu).1 = if s.switched then .switched else .completed run.x86Count) ∧
        ((∀ f k, (p.run cpu).1 ≠ .faulted f k) →
          ∀ e, e.isCommitted = true → (∀ o ∈ after, o.defines mode e = false) →
            (p.run cpu).2.elements.get e =
              op.flagged (s.progress.value (entryValues cpu) .reg0) (s.progress.value (entryValues cpu) .reg1) e
                (s.progress.value (entryValues cpu) e))) ∧
      ∀ (limit : Nat) (name : String) (stamp : Nat) (a b : Source) (length : UInt32),
        ∃ run p, Run.build limit [op.instruction a b length] = .ok run ∧ build name mode stamp run = .ok p ∧
          ∀ cpu : Machine, (p.run cpu).1 = .completed 1 ∧
            ∀ e, e.isCommitted = true → (p.run cpu).2.elements.get e =
              op.flagged (a.value cpu) (b.value cpu) e (cpu.elements.get e) := by
  constructor
  · intro limit instructions run name stamp p before after a b cpu s hrun h hops ha hb hs
    exact run_arithmetic (Run.ordered_of_build hrun) h hops ha hb hs
  · intro limit name stamp a b length
    obtain ⟨run, p, hrun, hops, hp⟩ := op.exists_build_instruction a b length limit name mode stamp
    refine ⟨run, p, hrun, hp, fun cpu => ?_⟩
    obtain ⟨s, hs, hswitched, huntouched, hx, hy⟩ := reach?_loads mode a b length cpu
    obtain ⟨hends, hflags⟩ := run_arithmetic (Run.ordered_of_build hrun) hp hops rfl rfl hs
    have hcompleted : (p.run cpu).1 = .completed 1 := by
      rw [hends rfl, hswitched, Run.x86Count, hops]
      rfl
    refine ⟨hcompleted, fun e he => ?_⟩
    rw [hflags (by simp [hcompleted]) e he (List.forall_mem_nil _), hx, hy, huntouched e he]

def subtractFromPort : List Instruction :=
  [⟨3, [Microcode.load0Imm.word, 0x5A] ++
    [Microcode.inByte, .load1 .ecx, .sub, .subFlags, .store0 .eax, .eipUpdate].map Microcode.word⟩]

def aboutToBorrow : Machine := Processor.set .ecx 1 Machine.initial

theorem sets_flags_subtractFromPort :
    ∃ run p, Run.build 1 subtractFromPort = .ok run ∧ build "difference" .protectedMode 0 run = .ok p ∧
      (p.run aboutToBorrow).1 = .completed 1 ∧
      [Element.carry, .overflow, .auxiliary, .zero, .sign, .parity].map (p.run aboutToBorrow).2.elements.get =
        [1, 0, 1, 0, 1, 1] := by
  obtain ⟨p, hbuilt⟩ : ∃ p, (Run.build 1 subtractFromPort >>= build "difference" .protectedMode 0) = .ok p :=
    exists_eq_ok (by decide +kernel)
  obtain ⟨run, hrun, hp⟩ := bind_eq_ok.mp hbuilt
  have hends : (run? .protectedMode run aboutToBorrow).map Prod.fst = some (.completed 1) := by
    rw [Run.build_ok hrun]
    decide +kernel
  rw [run?_eq_run (Run.ordered_of_build hrun) hp] at hends
  have hcompleted : (p.run aboutToBorrow).1 = .completed 1 := Option.some.inj hends
  have hops : run.ops = run.ops.take 3 ++ ⟨Microcode.sub.word, none, 3, 1⟩ :: ⟨Microcode.subFlags.word, none, 3, 1⟩ ::
      run.ops.drop 5 := by
    rw [Run.build_ok hrun]
    rfl
  have hloads : (reach? .protectedMode (entryValues aboutToBorrow) (State.initial aboutToBorrow) (run.ops.take 3)).map
      (fun r => r.toOption.map fun s => [Element.reg0, .reg1].map (s.progress.value (entryValues aboutToBorrow))) =
        some (some [0, 1]) := by
    rw [Run.build_ok hrun]
    decide +kernel
  have hafter : ∀ e ∈ [Element.carry, .overflow, .auxiliary, .zero, .sign, .parity],
      e.isCommitted = true ∧ ∀ o ∈ run.ops.drop 5, o.defines .protectedMode e = false := by
    rw [Run.build_ok hrun]
    decide +kernel
  obtain ⟨_ | s, hs, hoperands⟩ := Option.map_eq_some_iff.mp hloads
  · cases hoperands
  have hx : s.progress.value (entryValues aboutToBorrow) .reg0 = 0 := (List.cons.inj (Option.some.inj hoperands)).1
  have hy : s.progress.value (entryValues aboutToBorrow) .reg1 = 1 :=
    (List.cons.inj (List.cons.inj (Option.some.inj hoperands)).2).1
  obtain ⟨_, hflags⟩ :=
    (sets_flags .protectedMode .sub).1 1 _ run _ 0 p _ _ _ _ aboutToBorrow s hrun hp hops rfl rfl hs
  refine ⟨run, p, hrun, hp, hcompleted, ?_⟩
  rw [List.map_congr_left fun e he => hflags (by simp [hcompleted]) e (hafter e he).1 (hafter e he).2, hx, hy]
  rfl

end Procedure

end Dynarec
