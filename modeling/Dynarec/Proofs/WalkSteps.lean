import Dynarec.Proofs.CommittedState
import Mathlib.Logic.Relation

namespace Dynarec

namespace MicroOp

def targets? (mode : Mode) (op : MicroOp) : Option (List Target) :=
  (Microcode.ofWord? op.word).bind (Rule.targets? mode)

def targets (mode : Mode) (op : MicroOp) : List Target := (op.targets? mode).getD []

def defines (mode : Mode) (e : Element) (op : MicroOp) : Bool := (op.targets mode).any (·.element == e)

def reads (mode : Mode) (e : Element) (op : MicroOp) : Bool :=
  (op.targets mode).any (·.inputs.contains (.element e))

def switches (mode : Mode) (op : MicroOp) : Bool := (op.targets mode).any (·.switchesMode)

theorem targets_of_eq {mode : Mode} {op : MicroOp} {ts : List Target} (h : op.targets? mode = some ts) :
    op.targets mode = ts := by
  rw [targets, h, Option.getD_some]

theorem targets?_eq_some {mode : Mode} {op : MicroOp} {ts : List Target} :
    op.targets? mode = some ts ↔ ∃ m, Microcode.ofWord? op.word = some m ∧ Rule.targets? mode m = some ts :=
  Option.bind_eq_some_iff

theorem targets?_of_word (mode : Mode) {op : MicroOp} {m : Microcode} (h : op.word = m.word) :
    op.targets? mode = Rule.targets? mode m := by
  rw [targets?, h, Microcode.ofWord?_word, Option.bind_some]

end MicroOp

namespace Run

/-- Where the run last defines the instruction pointer. -/
def eipSynced (mode : Mode) (run : Run) : UInt32 :=
  ((run.ops.filter (·.defines mode .eip)).getLast?.map (·.position)).getD 0

end Run

namespace Rule

theorem all_switchesMode (mode : Mode) (m : Microcode) :
    ((targets? mode m).getD []).all (fun t => t.switchesMode || t.fragment != .setCr0) = true := by
  cases m <;> cases mode <;> rfl

theorem ne_setCr0_of_mem {mode : Mode} {m : Microcode} {ts : List Target} {t : Target}
    (h : targets? mode m = some ts) (ht : t ∈ ts) (hs : t.switchesMode = false) : t.fragment ≠ .setCr0 := by
  have hall := all_switchesMode mode m
  rw [h, Option.getD_some, List.all_eq_true] at hall
  simpa [hs] using hall t ht

theorem nodup_elements {mode : Mode} {m : Microcode} {ts : List Target} (h : targets? mode m = some ts) :
    (ts.map Target.element).Nodup := by
  have hall : (((targets? mode m).getD []).map Target.element).Nodup := by
    cases m <;> cases mode <;> first | exact List.nodup_singleton _ | decide
  rwa [h] at hall

end Rule

theorem Fragment.perform_ne_modeSwitch {σ : Type} [Processor σ] {f : Fragment} (h : f ≠ .setCr0)
    (a : Nat → UInt32) (cpu : σ) : (f.perform a cpu).1 ≠ .modeSwitch := by
  cases f with
  | setCr0 => exact absurd rfl h
  | divQuotient | divRemainder | ioplCheck _ | vm86IoplCheck _ | portInChecked | portOutChecked | haltChecked =>
      simp only [perform, denied]
      split <;> simp
  | load w | loadSegment segment =>
      simp only [perform, Reply.ofResult]
      split <;> simp
  | store w | pushStore =>
      simp only [perform, Reply.ofDone]
      split <;> simp
  | _ => simp [perform]

namespace Interpreter

variable {σ : Type} [Processor σ]

/-- A fragment asked something of the processor, or nothing. -/
def Asks (cpu cpu' : σ) : Prop := ∃ (f : Fragment) (a : Nat → UInt32), (f.perform a cpu).2 = cpu'

abbrev Asked : σ → σ → Prop := Relation.ReflTransGen Asks

theorem Asked.get_eq [SteadyProcessor σ] {cpu cpu' : σ} (h : Asked cpu cpu') (e : Element) :
    Processor.get cpu' e = Processor.get cpu e := by
  induction h with
  | refl => rfl
  | tail _ hask ih =>
      obtain ⟨f, a, rfl⟩ := hask
      rw [Fragment.get_perform, ih]

structure State (σ : Type) where
  start : Start
  progress : Progress
  switched : Bool
  cpu : σ

structure Stop (σ : Type) where
  fault : Fault
  start : Start
  cpu : σ

def State.initial (cpu : σ) : State σ := ⟨⟨0, ElementMap.replicate none, 0⟩, Progress.initial, false, cpu⟩

def State.after (s : State σ) (op : MicroOp) (done : Targets) (cpu : σ) : State σ where
  start := s.start.follow s.progress op.x86Index
  progress := { done.results.foldl (define op.position) s.progress with position := op.position }
  switched := s.switched || done.switched
  cpu := cpu

def advance? (mode : Mode) (entry : ElementMap UInt32) (s : State σ) (op : MicroOp) :
    Option (Except (Stop σ) (State σ)) :=
  (op.targets? mode).bind fun ts => (targets? entry s.progress op ts s.cpu).map fun r =>
    match r.1 with
    | .error fault => .error ⟨fault, s.start.follow s.progress op.x86Index, r.2⟩
    | .ok done => .ok (s.after op done r.2)

def reach? (mode : Mode) (entry : ElementMap UInt32) : State σ → List MicroOp → Option (Except (Stop σ) (State σ))
  | s, [] => some (.ok s)
  | s, op :: rest =>
    match advance? mode entry s op with
    | some (.ok s') => reach? mode entry s' rest
    | stopped => stopped

def finish (mode : Mode) (entry : ElementMap UInt32) (x86Count : Nat) : Except (Stop σ) (State σ) → Ending × σ
  | .error stop =>
    (.faulted (mode.asDelivered stop.fault) (stop.start.x86Index - 1), commit (restart mode entry stop.start) stop.cpu)
  | .ok s => (if s.switched then .switched else .completed x86Count, commit s.progress.defined s.cpu)

theorem x86Index_follow (start : Start) (p : Progress) (x86Index : Nat) :
    (start.follow p x86Index).x86Index = x86Index := by
  rw [Start.follow]
  split
  next h => exact h
  next => rfl

theorem walk?_eq (mode : Mode) (x86Count : Nat) (entry : ElementMap UInt32) (ops : List MicroOp) (s : State σ) :
    walk? mode x86Count entry ops s.start s.progress s.switched s.cpu =
      (reach? mode entry s ops).map (finish mode entry x86Count) := by
  induction ops generalizing s with
  | nil => rfl
  | cons op ops ih =>
      rw [walk?, reach?, advance?, MicroOp.targets?]
      cases Microcode.ofWord? op.word with
      | none => rfl
      | some m =>
          dsimp only [Option.bind_eq_bind, Option.bind_some]
          cases Rule.targets? mode m with
          | none => rfl
          | some ts =>
              dsimp only [Option.bind_some]
              rcases targets? entry s.progress op ts s.cpu with _ | ⟨fault | done, cpu⟩
              · rfl
              · simp [finish, x86Index_follow]
              · exact ih (s.after op done cpu)

theorem run?_eq (mode : Mode) (run : Run) (cpu : σ) :
    run? mode run cpu =
      (reach? mode (entryValues cpu) (State.initial cpu) run.ops).map (finish mode (entryValues cpu) run.x86Count) :=
  walk?_eq mode run.x86Count (entryValues cpu) run.ops (State.initial cpu)

section Walks

variable {mode : Mode} {entry : ElementMap UInt32} {s s' : State σ} {op : MicroOp} {ops : List MicroOp}

theorem reach?_append (a b : List MicroOp) :
    reach? mode entry s (a ++ b) =
      match reach? mode entry s a with
      | some (.ok s') => reach? mode entry s' b
      | stopped => stopped := by
  induction a generalizing s with
  | nil => rfl
  | cons op a ih =>
      rw [List.cons_append, reach?, reach?]
      rcases advance? mode entry s op with _ | ⟨stop | s'⟩
      · rfl
      · rfl
      · exact ih

theorem reach?_append_ok {a b : List MicroOp} (h : reach? mode entry s (a ++ b) = some (.ok s')) :
    ∃ s₁, reach? mode entry s a = some (.ok s₁) ∧ reach? mode entry s₁ b = some (.ok s') := by
  rw [reach?_append] at h
  split at h
  next s₁ hs₁ => exact ⟨s₁, hs₁, h⟩
  next hstopped => exact absurd h (hstopped s')

theorem reach?_singleton (op : MicroOp) : reach? mode entry s [op] = advance? mode entry s op := by
  rw [reach?]
  split
  next s₁ hs₁ =>
    rw [hs₁]
    rfl
  next => rfl

/-- A fault comes from one micro-op. Those before it completed, and those after it do not matter. -/
theorem reach?_error {stop : Stop σ} (h : reach? mode entry s ops = some (.error stop)) :
    ∃ before op after s', ops = before ++ op :: after ∧ reach? mode entry s before = some (.ok s') ∧
      advance? mode entry s' op = some (.error stop) := by
  induction ops generalizing s with
  | nil => cases h
  | cons op ops ih =>
      rw [reach?] at h
      split at h
      next s₁ hs₁ =>
        obtain ⟨before, op', after, s', rfl, hbefore, hop'⟩ := ih h
        refine ⟨op :: before, op', after, s', rfl, ?_, hop'⟩
        rw [reach?, hs₁]
        exact hbefore
      next => exact ⟨[], op, ops, s, rfl, rfl, h⟩

theorem advance?_ok (h : advance? mode entry s op = some (.ok s')) :
    ∃ ts done cpu', op.targets? mode = some ts ∧ targets? entry s.progress op ts s.cpu = some (.ok done, cpu') ∧
      s' = s.after op done cpu' := by
  obtain ⟨ts, hts, h⟩ := Option.bind_eq_some_iff.mp h
  obtain ⟨⟨result, cpu'⟩, htargets, h⟩ := Option.map_eq_some_iff.mp h
  cases result with
  | error fault => cases h
  | ok done =>
      cases h
      exact ⟨ts, done, cpu', hts, htargets, rfl⟩

theorem advance?_error {stop : Stop σ} (h : advance? mode entry s op = some (.error stop)) :
    ∃ ts, op.targets? mode = some ts ∧
      targets? entry s.progress op ts s.cpu = some (.error stop.fault, stop.cpu) ∧
      stop.start = s.start.follow s.progress op.x86Index := by
  obtain ⟨ts, hts, h⟩ := Option.bind_eq_some_iff.mp h
  obtain ⟨⟨result, cpu'⟩, htargets, h⟩ := Option.map_eq_some_iff.mp h
  cases result with
  | error fault =>
      cases h
      exact ⟨ts, hts, htargets, rfl⟩
  | ok done => cases h

theorem targets?_cons_some {p : Progress} {t : Target} {ts : List Target} {cpu cpu' : σ}
    {result : Except Fault Targets} (h : targets? entry p op (t :: ts) cpu = some (result, cpu')) :
    ∃ a reply cpu₁, t.fragment.perform a cpu = (reply, cpu₁) ∧
      ((∃ fault, reply = .fault fault ∧ result = .error fault ∧ cpu' = cpu₁) ∨
        ∃ v switched rest, reply.result = .ok (v, switched) ∧ targets? entry p op ts cpu₁ = some (rest, cpu') ∧
          result = rest.map fun done => ⟨(t.element, v) :: done.results, switched || done.switched⟩) := by
  have hargs : ∃ args, t.inputs.mapM (operand? entry p op) = some args := by
    cases hargs : t.inputs.mapM (operand? entry p op) with
    | none => simp [targets?, hargs] at h
    | some args => exact ⟨args, rfl⟩
  obtain ⟨args, hargs⟩ := hargs
  have harity : args.length = t.fragment.arity := by
    by_contra hne
    simp [targets?, hargs, Fragment.evaluate?, hne] at h
  cases hperform : t.fragment.perform (fun i => args.getD i 0) cpu with
  | mk reply cpu₁ =>
      rw [targets?_cons hargs harity hperform] at h
      refine ⟨_, reply, cpu₁, hperform, ?_⟩
      cases reply with
      | fault fault =>
          cases h
          exact .inl ⟨fault, rfl, rfl, rfl⟩
      | value v =>
          obtain ⟨⟨rest, cpu₂⟩, hrest, h⟩ := Option.map_eq_some_iff.mp h
          cases h
          exact .inr ⟨v, false, rest, rfl, hrest, rfl⟩
      | modeSwitch =>
          obtain ⟨⟨rest, cpu₂⟩, hrest, h⟩ := Option.map_eq_some_iff.mp h
          cases h
          exact .inr ⟨0, true, rest, rfl, hrest, rfl⟩

theorem asked_targets? {p : Progress} {ts : List Target} {cpu cpu' : σ} {result : Except Fault Targets}
    (h : targets? entry p op ts cpu = some (result, cpu')) : Asked cpu cpu' := by
  induction ts generalizing cpu result with
  | nil =>
      cases h
      exact .refl
  | cons t ts ih =>
      obtain ⟨a, reply, cpu₁, hperform, hcases⟩ := targets?_cons_some h
      have hask : Asks cpu cpu₁ := ⟨t.fragment, a, congrArg Prod.snd hperform⟩
      rcases hcases with ⟨_, _, _, rfl⟩ | ⟨_, _, rest, _, hrest, _⟩
      · exact .single hask
      · exact .head hask (ih hrest)

theorem targets?_ok {p : Progress} {ts : List Target} {cpu cpu' : σ} {done : Targets}
    (h : targets? entry p op ts cpu = some (.ok done, cpu')) :
    done.results.map Prod.fst = ts.map Target.element ∧
      ((∀ t ∈ ts, t.fragment ≠ .setCr0) → done.switched = false) := by
  induction ts generalizing cpu done with
  | nil =>
      cases h
      exact ⟨rfl, fun _ => rfl⟩
  | cons t ts ih =>
      obtain ⟨a, reply, cpu₁, hperform, ⟨_, _, hfault, _⟩ | ⟨v, switched, rest, hreply, hrest, hdone⟩⟩ :=
        targets?_cons_some h
      · cases hfault
      · cases rest with
        | error fault => cases hdone
        | ok rest =>
            cases hdone
            obtain ⟨helements, hswitched⟩ := ih hrest
            refine ⟨congrArg (t.element :: ·) helements, ?_⟩
            intro hne
            rw [List.forall_mem_cons] at hne
            have hnot := Fragment.perform_ne_modeSwitch hne.1 a cpu
            rw [hperform] at hnot
            cases reply with
            | value v =>
                cases hreply
                exact hswitched hne.2
            | modeSwitch => exact absurd rfl hnot
            | fault fault => cases hreply

theorem isSome_foldl_define (position : UInt32) (results : List (Element × UInt32)) (p : Progress) (e : Element) :
    ((results.foldl (define position) p).defined.get e).isSome =
      ((p.defined.get e).isSome || (results.map Prod.fst).contains e) := by
  induction results generalizing p with
  | nil => simp
  | cons r results ih =>
      rw [List.foldl_cons, ih, List.map_cons, List.contains_cons, define, ElementMap.get_set]
      by_cases he : r.1 = e
      · simp [he]
      · have hne : (e == r.1) = false := by simpa using Ne.symm he
        rw [if_neg he, hne, Bool.false_or]

theorem eipSynced_foldl_define (position : UInt32) (results : List (Element × UInt32)) (p : Progress) :
    (results.foldl (define position) p).eipSynced =
      if (results.map Prod.fst).contains .eip then position else p.eipSynced := by
  induction results generalizing p with
  | nil => simp
  | cons r results ih =>
      rw [List.foldl_cons, ih, List.map_cons, List.contains_cons, define]
      by_cases he : r.1 = .eip
      · simp [he]
      · have hne : (Element.eip == r.1) = false := by simpa using Ne.symm he
        rw [if_neg he, hne, Bool.false_or]

/-- What a micro-op that completes can change. -/
structure Advanced (mode : Mode) (s : State σ) (op : MicroOp) (s' : State σ) : Prop where
  start : s'.start = s.start.follow s.progress op.x86Index
  position : s'.progress.position = op.position
  eipSynced : s'.progress.eipSynced = if op.defines mode .eip then op.position else s.progress.eipSynced
  isSome : ∀ e, (s'.progress.defined.get e).isSome = ((s.progress.defined.get e).isSome || op.defines mode e)
  switched : op.switches mode = false → s'.switched = s.switched
  asked : Asked s.cpu s'.cpu

theorem advanced_of_advance? (h : advance? mode entry s op = some (.ok s')) : Advanced mode s op s' := by
  obtain ⟨ts, done, cpu', hts, htargets, rfl⟩ := advance?_ok h
  obtain ⟨helements, hswitched⟩ := targets?_ok htargets
  have hdefines (e : Element) : (done.results.map Prod.fst).contains e = op.defines mode e := by
    rw [MicroOp.defines, MicroOp.targets_of_eq hts, helements, List.contains_eq_any_beq, List.any_map]
    congr 1
    funext t
    exact Bool.beq_comm
  refine ⟨rfl, rfl, ?_, ?_, ?_, asked_targets? htargets⟩
  · rw [← hdefines]
    exact eipSynced_foldl_define op.position done.results s.progress
  · intro e
    rw [← hdefines]
    exact isSome_foldl_define op.position done.results s.progress e
  · intro hno
    obtain ⟨m, _, hm⟩ := MicroOp.targets?_eq_some.mp hts
    rw [MicroOp.switches, MicroOp.targets_of_eq hts, List.any_eq_false] at hno
    have hdone := hswitched fun t ht => Rule.ne_setCr0_of_mem hm ht (by simpa using hno t ht)
    rw [State.after, hdone, Bool.or_false]

/-- A property of states that every step keeps is kept by a walk. -/
theorem reach?_induction {P : List MicroOp → State σ → Prop} (hnil : P [] s)
    (hstep : ∀ before op s₁ s₂, op ∈ ops → P before s₁ → Advanced mode s₁ op s₂ → P (before ++ [op]) s₂)
    (h : reach? mode entry s ops = some (.ok s')) : P ops s' := by
  -- the last micro-op is the one whose step is known, so the induction is from the end
  induction ops using List.reverseRecOn generalizing s' with
  | nil =>
      cases h
      exact hnil
  | append_singleton ops op ih =>
      obtain ⟨s₁, h₁, h₂⟩ := reach?_append_ok h
      rw [reach?_singleton] at h₂
      have hmem {x : MicroOp} (hx : x ∈ ops) : x ∈ ops ++ [op] := List.mem_append_left _ hx
      refine hstep ops op s₁ s' (by simp) (ih (fun before x s₁ s₂ hx => hstep before x s₁ s₂ (hmem hx)) h₁) ?_
      exact advanced_of_advance? h₂

theorem asked_reach? (h : reach? mode entry s ops = some (.ok s')) : Asked s.cpu s'.cpu :=
  reach?_induction (P := fun _ s' => Asked s.cpu s'.cpu) .refl
    (fun _ _ _ _ _ hasked hadvanced => hasked.trans hadvanced.asked) h

theorem switched_reach? (h : reach? mode entry s ops = some (.ok s')) (hops : ∀ op ∈ ops, op.switches mode = false) :
    s'.switched = s.switched :=
  reach?_induction (P := fun _ s' => s'.switched = s.switched) rfl
    (fun _ op _ _ hop hsame hadvanced => (hadvanced.switched (hops op hop)).trans hsame) h

theorem follow_reach? {x86Index : Nat} (h : reach? mode entry s ops = some (.ok s'))
    (hstart : s.start.x86Index ≠ x86Index) (hops : ∀ op ∈ ops, op.x86Index = x86Index) :
    s'.start.follow s'.progress x86Index =
      ⟨x86Index, s.progress.defined, s.progress.position - s.progress.eipSynced⟩ := by
  refine reach?_induction (P := fun _ s' => s'.start.follow s'.progress x86Index = _) ?_ ?_ h
  · rw [Start.follow, if_neg hstart]
  · intro before op s₁ s₂ hop hkept hadvanced
    rw [hadvanced.start, hops op hop, hkept, Start.follow, if_pos rfl]

theorem start_reach? {k : Nat} (h : reach? mode entry s ops = some (.ok s')) (hstart : s.start.x86Index ≤ k)
    (hops : ∀ op ∈ ops, op.x86Index ≤ k) : s'.start.x86Index ≤ k := by
  refine reach?_induction (P := fun _ s' => s'.start.x86Index ≤ k) hstart ?_ h
  intro before op s₁ s₂ hop _ hadvanced
  rw [hadvanced.start, x86Index_follow]
  exact hops op hop

theorem position_reach? {cpu : σ} {run : Run} (h : reach? mode entry (State.initial cpu) run.ops = some (.ok s')) :
    s'.progress.position = run.x86Length := by
  have hlast : s'.progress.position = (run.ops.getLast?.map (·.position)).getD 0 := by
    refine reach?_induction (P := fun ops s' => s'.progress.position = (ops.getLast?.map (·.position)).getD 0) rfl ?_ h
    intro before op s₁ s₂ _ _ hadvanced
    simp [hadvanced.position]
  rw [hlast, Run.x86Length]
  cases run.ops.getLast? <;> rfl

theorem eipSynced_reach? {cpu : σ} {run : Run} (h : reach? mode entry (State.initial cpu) run.ops = some (.ok s')) :
    s'.progress.eipSynced = run.eipSynced mode := by
  refine reach?_induction (P := fun ops s' => s'.progress.eipSynced =
    ((ops.filter (·.defines mode .eip)).getLast?.map (·.position)).getD 0) rfl ?_ h
  intro before op s₁ s₂ _ hprogress hadvanced
  rw [hadvanced.eipSynced, List.filter_append]
  cases hdefines : op.defines mode .eip with
  | true => simp [hdefines]
  | false => simp [hdefines, hprogress]

end Walks

end Interpreter

end Dynarec
