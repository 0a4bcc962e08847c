import Dynarec.Proofs.CommitOrder

namespace Dynarec

/-- The level of the running code, and the lowest level that may do input and output. Lower levels have
higher numbers. -/
structure Privilege where
  cpl : UInt32
  iopl : UInt32

namespace Privilege

def ofCpu {σ : Type} [Processor σ] (cpu : σ) : Privilege := ⟨Processor.get cpu .cpl, Processor.get cpu .iopl⟩

def allowsPorts (q : Privilege) : Mode → Bool
  | .protectedMode => q.cpl ≤ q.iopl
  | .real | .virtual8086 => true

def allowsInterruptFlag (q : Privilege) : Mode → Bool
  | .real => true
  | .protectedMode => q.cpl ≤ q.iopl
  | .virtual8086 => q.iopl = 3

def allowsHalt (q : Privilege) : Mode → Bool
  | .protectedMode => q.cpl = 0
  | .real | .virtual8086 => true

def allows (q : Privilege) (mode : Mode) : Microcode → Bool
  | .cli | .sti => q.allowsInterruptFlag mode
  | .inByte | .outByte => q.allowsPorts mode
  | .hlt => q.allowsHalt mode
  | _ => true

def allowsCall (q : Privilege) (mode : Mode) : Call → Bool
  | .portIn _ | .portOut _ _ => q.allowsPorts mode
  | .halt => q.allowsHalt mode
  | _ => true

/-- The micro-op is one that code of this level may not use. -/
def Refuses (q : Privilege) (mode : Mode) (op : MicroOp) : Prop :=
  ∃ m, Microcode.ofWord? op.word = some m ∧ q.allows mode m = false

end Privilege

def Element.isPrivileged : Element → Bool
  | cpl | iopl | virtual8086 | cs => true
  | _ => false

namespace Rule

theorem all_not_isPrivileged (mode : Mode) (m : Microcode) :
    ((targets? mode m).getD []).all (fun t => !t.element.isPrivileged) = true := by
  cases m with
  | store0 r => cases r <;> rfl
  | storeSeg s => cases s <;> cases mode <;> rfl
  | _ => cases mode <;> rfl

theorem any_interrupt (mode : Mode) (m : Microcode) :
    ((targets? mode m).getD []).any (·.element == .interrupt) = (m == .cli || m == .sti) := by
  cases m with
  | store0 r => cases r <;> rfl
  | storeSeg s => cases s <;> cases mode <;> rfl
  | _ => cases mode <;> rfl

end Rule

namespace MicroOp

variable {mode : Mode} {op : MicroOp} {e : Element}

theorem targets_eq_getD {m : Microcode} (h : Microcode.ofWord? op.word = some m) :
    op.targets mode = (Rule.targets? mode m).getD [] := by
  rw [targets, targets?, h, Option.bind_some]

theorem defines_of_isPrivileged (he : e.isPrivileged = true) (mode : Mode) (op : MicroOp) :
    op.defines mode e = false := by
  rw [defines]
  cases hword : Microcode.ofWord? op.word with
  | none => rw [targets, targets?, hword, Option.bind_none, Option.getD_none, List.any_nil]
  | some m =>
      have hall := Rule.all_not_isPrivileged mode m
      rw [List.all_eq_true] at hall
      rw [targets_eq_getD hword, List.any_eq_false]
      intro t ht heq
      have hnot := hall t ht
      rw [eq_of_beq heq, he] at hnot
      cases hnot

theorem refuses_of_defines_interrupt {q : Privilege} (hq : q.allowsInterruptFlag mode = false)
    (h : op.defines mode .interrupt = true) : q.Refuses mode op := by
  rw [defines] at h
  cases hword : Microcode.ofWord? op.word with
  | none =>
      rw [targets, targets?, hword] at h
      cases h
  | some m =>
      rw [targets_eq_getD hword, Rule.any_interrupt, Bool.or_eq_true, beq_iff_eq, beq_iff_eq] at h
      refine ⟨m, hword, ?_⟩
      rcases h with rfl | rfl <;> exact hq

end MicroOp

namespace Privilege

variable {q : Privilege} {mode : Mode}

def allowsFragment (q : Privilege) (mode : Mode) : Fragment → Bool
  | .portIn | .portInChecked | .portOut | .portOutChecked => q.allowsPorts mode
  | .halt | .haltChecked => q.allowsHalt mode
  | _ => true

theorem all_allowsFragment {m : Microcode} (h : q.allows mode m = true) :
    ((Rule.targets? mode m).getD []).all (fun t => q.allowsFragment mode t.fragment) = true := by
  cases m with
  | inByte | outByte | hlt =>
      cases mode <;> simp_all [allows, allowsFragment, Rule.targets?, Target.faultingEffect, Target.effect]
  | _ => cases mode <;> rfl

theorem exists_denied {m : Microcode} (h : q.allows mode m = false) :
    ∃ t es, Rule.targets? mode m = some [t] ∧ t.inputs = Rule.reads es ∧
      ∀ value : Element → UInt32, value .cpl = q.cpl → value .iopl = q.iopl → ∀ {σ : Type} [Processor σ] (cpu : σ),
        t.fragment.evaluate? (es.map value) cpu = some (.fault (.generalProtection 0), cpu) := by
  cases m with
  | cli | sti =>
      cases mode with
      | real => cases h
      | protectedMode =>
          have hlt : ¬q.cpl ≤ q.iopl := of_decide_eq_false h
          refine ⟨_, [.cpl, .iopl], rfl, rfl, ?_⟩
          intro value hcpl hiopl σ _ cpu
          simp [Rule.interruptFlag, Target.faulting, Fragment.evaluate?, Fragment.arity, Fragment.perform,
            Fragment.denied, hcpl, hiopl, hlt]
      | virtual8086 =>
          have hne : ¬q.iopl = 3 := of_decide_eq_false h
          refine ⟨_, [.iopl], rfl, rfl, ?_⟩
          intro value _ hiopl σ _ cpu
          simp [Rule.interruptFlag, Target.faulting, Fragment.evaluate?, Fragment.arity, Fragment.perform,
            Fragment.denied, hiopl, hne]
  | inByte =>
      cases mode with
      | real | virtual8086 => cases h
      | protectedMode =>
          have hlt : ¬q.cpl ≤ q.iopl := of_decide_eq_false h
          refine ⟨_, [.cpl, .iopl, .reg0], rfl, rfl, ?_⟩
          intro value hcpl hiopl σ _ cpu
          simp [Target.faultingEffect, Fragment.evaluate?, Fragment.arity, Fragment.perform, Fragment.denied, hcpl,
            hiopl, hlt]
  | outByte =>
      cases mode with
      | real | virtual8086 => cases h
      | protectedMode =>
          have hlt : ¬q.cpl ≤ q.iopl := of_decide_eq_false h
          refine ⟨_, [.cpl, .iopl, .reg0, .reg1], rfl, rfl, ?_⟩
          intro value hcpl hiopl σ _ cpu
          simp [Target.faultingEffect, Fragment.evaluate?, Fragment.arity, Fragment.perform, Fragment.denied, hcpl,
            hiopl, hlt]
  | hlt =>
      cases mode with
      | real | virtual8086 => cases h
      | protectedMode =>
          have hne : ¬q.cpl = 0 := of_decide_eq_false h
          refine ⟨_, [.cpl], rfl, rfl, ?_⟩
          intro value hcpl _ σ _ cpu
          simp [Target.faultingEffect, Fragment.evaluate?, Fragment.arity, Fragment.perform, Fragment.denied, hcpl, hne]
  | _ => cases h

variable {σ : Type}

/-- Between two states of a monitored processor, only what is allowed was asked of the outside. -/
def Respected (q : Privilege) (mode : Mode) (m m' : Monitor σ) : Prop :=
  ∃ asked, m'.external = m.external ++ asked ∧ ∀ call ∈ asked, q.allowsCall mode call = true

theorem Respected.refl (m : Monitor σ) : q.Respected mode m m := ⟨[], by simp, by simp⟩

theorem Respected.trans {m m₁ m' : Monitor σ} (h : q.Respected mode m m₁) (h' : q.Respected mode m₁ m') :
    q.Respected mode m m' := by
  obtain ⟨asked, hexternal, hasked⟩ := h
  obtain ⟨asked', hexternal', hasked'⟩ := h'
  refine ⟨asked ++ asked', ?_, List.forall_mem_append.mpr ⟨hasked, hasked'⟩⟩
  rw [hexternal', hexternal, List.append_assoc]

theorem respected_log {call : Call} {m m' : Monitor σ} (hcalls : m'.calls = m.calls.push call)
    (h : q.allowsCall mode call = true) : q.Respected mode m m' := by
  refine ⟨[call].filter Call.isExternal, ?_, ?_⟩
  · rw [Monitor.external, Monitor.external, hcalls, Array.toList_push, List.filter_append]
  · intro call' hmem
    rw [List.mem_singleton.mp (List.mem_of_mem_filter hmem), h]

theorem respected_perform [Processor σ] {f : Fragment} (h : q.allowsFragment mode f = true) (a : Nat → UInt32)
    (m : Monitor σ) : q.Respected mode m (f.perform a m).2 := by
  cases f with
  | load w | store w | pushStore | loadSegment segment | setCr0 => exact respected_log rfl rfl
  | portIn | portOut | halt => exact respected_log rfl h
  | portInChecked | portOutChecked | haltChecked =>
      simp only [Fragment.perform]
      split
      · exact respected_log rfl h
      · exact .refl m
  | _ => exact .refl m

end Privilege

namespace Interpreter

variable {σ : Type}

def State.Unprivileged (s : State σ) : Prop := ∀ e : Element, e.isPrivileged = true → s.progress.defined.get e = none

theorem State.unprivileged_initial (cpu : σ) : (State.initial cpu).Unprivileged := by
  intro e _
  simp [State.initial, Progress.initial]

def entryPrivilege (entry : ElementMap UInt32) : Privilege := ⟨entry.get .cpl, entry.get .iopl⟩

variable {mode : Mode} {entry : ElementMap UInt32} {s s' : State σ} {op : MicroOp} {ops : List MicroOp}

theorem State.Unprivileged.value (hs : s.Unprivileged) {e : Element} (he : e.isPrivileged = true) :
    s.progress.value entry e = entry.get e := by
  rw [Progress.value, hs e he, Option.getD_none]

theorem mapM_reads (p : Progress) (op : MicroOp) (es : List Element) :
    (Rule.reads es).mapM (operand? entry p op) = some (es.map (p.value entry)) := by
  induction es with
  | nil => rfl
  | cons e es ih =>
      rw [Rule.reads] at ih ⊢
      simp [List.mapM_cons, operand?, ih]

variable [Processor σ]

theorem entryPrivilege_entryValues (cpu : σ) : entryPrivilege (entryValues cpu) = Privilege.ofCpu cpu := by
  simp only [entryPrivilege, entryValues, ElementMap.get_ofFn]
  rfl

theorem State.Unprivileged.advance (hs : s.Unprivileged) (h : Advanced mode s op s') : s'.Unprivileged := by
  intro e he
  have hsome := h.isSome e
  rw [hs e he, MicroOp.defines_of_isPrivileged he] at hsome
  simpa using hsome

theorem unprivileged_reach? (hs : s.Unprivileged) (h : reach? mode entry s ops = some (.ok s')) : s'.Unprivileged :=
  reach?_induction (P := fun _ s' => s'.Unprivileged) hs (fun _ _ _ _ _ hs₁ hadvanced => hs₁.advance hadvanced) h

theorem advance?_of_refuses (hs : s.Unprivileged) (h : (entryPrivilege entry).Refuses mode op) :
    advance? mode entry s op =
      some (.error ⟨.generalProtection 0, s.start.follow s.progress op.x86Index, s.cpu⟩) := by
  obtain ⟨m, hword, hm⟩ := h
  obtain ⟨t, es, ht, hreads, hdenied⟩ := Privilege.exists_denied hm
  have hargs : t.inputs.mapM (operand? entry s.progress op) = some (es.map (s.progress.value entry)) := by
    rw [hreads, mapM_reads]
  have htargets : targets? entry s.progress op [t] s.cpu = some (.error (.generalProtection 0), s.cpu) := by
    simp [targets?, hargs, hdenied (s.progress.value entry) (hs.value rfl) (hs.value rfl) s.cpu]
  rw [advance?, MicroOp.targets?, hword, Option.bind_some, ht, Option.bind_some, htargets]
  rfl

theorem not_refuses_of_reach? (hs : s.Unprivileged) (h : reach? mode entry s ops = some (.ok s')) :
    ∀ op ∈ ops, ¬(entryPrivilege entry).Refuses mode op := by
  induction ops generalizing s with
  | nil => simp
  | cons op ops ih =>
      rw [reach?] at h
      split at h
      next s₁ hs₁ =>
        rw [List.forall_mem_cons]
        refine ⟨?_, ih (hs.advance (advanced_of_advance? hs₁)) h⟩
        intro hrefuses
        rw [advance?_of_refuses hs hrefuses] at hs₁
        cases hs₁
      next hstopped => exact absurd h (hstopped s')

def reached : Except (Stop σ) (State σ) → σ
  | .ok s => s.cpu
  | .error stop => stop.cpu

theorem respected_targets? {q : Privilege} {p : Progress} {ts : List Target} {m m' : Monitor σ}
    {result : Except Fault Targets} (hts : ∀ t ∈ ts, q.allowsFragment mode t.fragment = true)
    (h : targets? entry p op ts m = some (result, m')) : q.Respected mode m m' := by
  induction ts generalizing m result with
  | nil =>
      cases h
      exact .refl _
  | cons t ts ih =>
      rw [List.forall_mem_cons] at hts
      obtain ⟨a, reply, m₁, hperform, hcases⟩ := targets?_cons_some h
      have hfirst : q.Respected mode m m₁ := by
        have hrespected := Privilege.respected_perform hts.1 a m
        rwa [hperform] at hrespected
      rcases hcases with ⟨_, _, _, rfl⟩ | ⟨_, _, rest, _, hrest, _⟩
      · exact hfirst
      · exact hfirst.trans (ih hts.2 hrest)

theorem respected_advance? {s : State (Monitor σ)} {result : Except (Stop (Monitor σ)) (State (Monitor σ))}
    (hs : s.Unprivileged) (h : advance? mode entry s op = some result) :
    (entryPrivilege entry).Respected mode s.cpu (reached result) := by
  by_cases hrefuses : (entryPrivilege entry).Refuses mode op
  · rw [advance?_of_refuses hs hrefuses] at h
    cases h
    exact .refl s.cpu
  · obtain ⟨ts, hts, h⟩ := Option.bind_eq_some_iff.mp h
    obtain ⟨⟨done, m'⟩, htargets, h⟩ := Option.map_eq_some_iff.mp h
    have hreached : reached result = m' := by
      cases done <;> cases h <;> rfl
    obtain ⟨m, hword, hm⟩ := MicroOp.targets?_eq_some.mp hts
    have hallows : (entryPrivilege entry).allows mode m = true := by
      by_contra hne
      exact hrefuses ⟨m, hword, by simpa using hne⟩
    have hall := Privilege.all_allowsFragment hallows
    rw [hm, Option.getD_some, List.all_eq_true] at hall
    rw [hreached]
    exact respected_targets? hall htargets

theorem respected_reach? {s : State (Monitor σ)} {result : Except (Stop (Monitor σ)) (State (Monitor σ))}
    (hs : s.Unprivileged) (h : reach? mode entry s ops = some result) :
    (entryPrivilege entry).Respected mode s.cpu (reached result) := by
  induction ops generalizing s with
  | nil =>
      cases h
      exact .refl s.cpu
  | cons op ops ih =>
      rw [reach?] at h
      split at h
      next s₁ hs₁ => exact (respected_advance? hs hs₁).trans (ih (hs.advance (advanced_of_advance? hs₁)) h)
      next => exact respected_advance? hs h

theorem external_finish (x86Count : Nat) (result : Except (Stop (Monitor σ)) (State (Monitor σ))) :
    (finish mode entry x86Count result).2.external = (reached result).external := by
  cases result <;> simp only [finish, reached, commit_eq_assign, Monitor.external_assign]

/-- A run that does not complete the micro-ops before one that is not allowed ends as they do. Otherwise it
ends there. -/
theorem run?_of_refuses {run : Run} {before after : List MicroOp} {cpu left : σ} {ending : Ending}
    (hops : run.ops = before ++ op :: after) (hop : (Privilege.ofCpu cpu).Refuses mode op)
    (h : run? mode run cpu = some (ending, left)) :
    (∃ f k left', run? mode { run with ops := before } cpu = some (.faulted f k, left') ∧ ending = .faulted f k) ∨
      ∃ ending' left', run? mode { run with ops := before } cpu = some (ending', left') ∧
        (∀ f k, ending' ≠ .faulted f k) ∧ ending = .faulted (.generalProtection 0) (op.x86Index - 1) := by
  rw [run?_eq, hops, reach?_append] at h
  rw [run?_eq]
  rcases hbefore : reach? mode (entryValues cpu) (State.initial cpu) before with _ | stop | s
  · rw [hbefore] at h
    cases h
  · rw [hbefore] at h
    cases h
    exact .inl ⟨_, _, _, rfl, rfl⟩
  · have hs : s.Unprivileged := unprivileged_reach? (State.unprivileged_initial cpu) hbefore
    rw [← entryPrivilege_entryValues] at hop
    rw [hbefore] at h
    dsimp only at h
    rw [reach?, advance?_of_refuses hs hop] at h
    have hmode : mode.asDelivered (.generalProtection 0) = .generalProtection 0 := by
      obtain ⟨m, _, hm⟩ := hop
      cases mode with
      | real => cases m <;> cases hm
      | protectedMode | virtual8086 => rfl
    refine .inr ⟨_, _, rfl, ?_, ?_⟩
    · intro f k
      cases s.switched <;> simp
    · have hfinish := congrArg Prod.fst (Option.some.inj h)
      rw [finish, hmode, x86Index_follow] at hfinish
      exact hfinish.symm

theorem not_commits_of_isPrivileged {e : Element} (he : e.isPrivileged = true) (mode : Mode) (run : Run)
    (ending : Ending) : ¬run.Commits mode ending e := by
  have hnot (ops : List MicroOp) : ¬∃ op ∈ ops, op.defines mode e = true := by
    simp [MicroOp.defines_of_isPrivileged he]
  cases ending with
  | completed _ | switched => exact fun h => hnot _ h.2
  | faulted f k =>
      rintro (h | ⟨rfl, _⟩)
      · exact hnot _ h.2
      · cases he
  | broken what => exact id

theorem not_commits_interrupt {run : Run} {g : Graph} (hrun : run.Ordered) (hg : Graph.build mode run = .ok g)
    {cpu left : σ} {ending : Ending} (hq : (Privilege.ofCpu cpu).allowsInterruptFlag mode = false)
    (h : run? mode run cpu = some (ending, left)) : ¬run.Commits mode ending .interrupt := by
  have hnot {ops : List MicroOp} {s : State σ}
      (hs : reach? mode (entryValues cpu) (State.initial cpu) ops = some (.ok s)) :
      ¬∃ op ∈ ops, op.defines mode .interrupt = true := by
    rintro ⟨op, hop, hdefines⟩
    have hallowed := not_refuses_of_reach? (State.unprivileged_initial cpu) hs op hop
    rw [entryPrivilege_entryValues] at hallowed
    exact hallowed (MicroOp.refuses_of_defines_interrupt hq hdefines)
  rw [run?_eq, Option.map_eq_some_iff] at h
  obtain ⟨result, hreach, hfinish⟩ := h
  cases result with
  | ok s =>
      cases hswitched : s.switched <;> rw [finish, hswitched] at hfinish <;> cases hfinish <;>
        exact fun hcommits => hnot hreach hcommits.2
  | error stop =>
      cases hfinish
      obtain ⟨_, s, hs, _⟩ := exists_start_of_error hrun hg hreach rfl
      rintro (⟨_, hdefines⟩ | ⟨heip, _⟩)
      · exact hnot hs hdefines
      · cases heip

end Interpreter

namespace Procedure

open Interpreter

variable {name : String} {mode : Mode} {stamp : Nat} {run : Run} {p : Procedure}

/-- A procedure keeps to the level at which it starts. It changes neither that level nor what it is read
from, and the interrupt flag only where that is allowed. Where it comes to a micro-op that is not allowed
it raises a fault, unless it raised one before. Ports and the halt state are reached only if allowed. -/
theorem enforces_privilege {limit : Nat} {instructions : List Instruction} (hrun : Run.build limit instructions = .ok run)
    (h : build name mode stamp run = .ok p) (σ : Type) [Processor σ] [SteadyProcessor σ] [LawfulProcessor σ] :
    (∀ cpu : σ,
      (∀ e : Element, e.isPrivileged = true → Processor.get (p.run cpu).2 e = Processor.get cpu e) ∧
      ((Privilege.ofCpu cpu).allowsInterruptFlag mode = false →
        Processor.get (p.run cpu).2 .interrupt = Processor.get cpu .interrupt) ∧
      ∀ before op after, run.ops = before ++ op :: after → (Privilege.ofCpu cpu).Refuses mode op →
        (∃ f k left, run? mode { run with ops := before } cpu = some (.faulted f k, left) ∧
          (p.run cpu).1 = .faulted f k) ∨
        ∃ ending left, run? mode { run with ops := before } cpu = some (ending, left) ∧
          (∀ f k, ending ≠ .faulted f k) ∧ (p.run cpu).1 = .faulted (.generalProtection 0) (op.x86Index - 1)) ∧
    ∀ m : Monitor σ, (Privilege.ofCpu m).Respected mode m (p.run m).2 := by
  have hordered := Run.ordered_of_build hrun
  obtain ⟨g, _, hg, _⟩ := build_ok h
  constructor
  · intro cpu
    have hlast := commitsLast_of_build hordered h cpu
    obtain ⟨ending, cpu', left, left', _, _, hinterpreted, hcompiled, _⟩ := exists_run hordered h cpu
    have hending : (p.run cpu).1 = ending := congrArg Prod.fst hcompiled
    have hkept {e : Element} (he : ¬run.Commits mode ending e) : Processor.get (p.run cpu).2 e = Processor.get cpu e := by
      rw [← hending, ← hlast.elements e] at he
      rw [hlast.replay]
      exact Access.get_replay cpu he
    refine ⟨?_, ?_, ?_⟩
    · intro e he
      exact hkept (not_commits_of_isPrivileged he mode run ending)
    · intro hq
      exact hkept (not_commits_interrupt hordered hg hq hinterpreted)
    · intro before op after hops hop
      rw [hending]
      exact run?_of_refuses hops hop hinterpreted
  · intro m
    obtain ⟨ending, m', left, left', _, _, hinterpreted, hcompiled, _⟩ := exists_run hordered h m
    rw [hcompiled]
    rw [run?_eq, Option.map_eq_some_iff] at hinterpreted
    obtain ⟨result, hreach, hfinish⟩ := hinterpreted
    obtain ⟨asked, hexternal, hasked⟩ := respected_reach? (State.unprivileged_initial m) hreach
    rw [entryPrivilege_entryValues] at hasked
    have hleft : (Processor.assign left m').external = (reached result).external := by
      rw [← external_finish run.x86Count result, hfinish]
    refine ⟨asked, ?_, hasked⟩
    rw [Monitor.external_assign] at hleft ⊢
    rw [hleft, hexternal]
    rfl

def countThenOutput : List Instruction :=
  [⟨1, [Microcode.load0 .eax, .inc, .store0 .eax, .eipUpdate].map Microcode.word⟩,
   ⟨1, [Microcode.sti, .load0 .edx, .load1 .eax, .outByte, .eipUpdate].map Microcode.word⟩]

theorem enforces_privilege_countThenOutput :
    let cpu : Machine := Processor.set .cpl 3 Machine.initial
    ∃ run p before op after, Run.build 2 countThenOutput = .ok run ∧ build "output" .protectedMode 0 run = .ok p ∧
      run.ops = before ++ op :: after ∧ (Privilege.ofCpu cpu).Refuses .protectedMode op ∧
      (p.run cpu).1 = .faulted (.generalProtection 0) 1 ∧
      (Privilege.ofCpu cpu).allowsInterruptFlag .protectedMode = false ∧
      Processor.get (p.run cpu).2 .interrupt = Processor.get cpu .interrupt ∧
      ∀ m : Monitor Machine, (Privilege.ofCpu m).Respected .protectedMode m (p.run m).2 := by
  intro cpu
  obtain ⟨p, h⟩ : ∃ p, (Run.build 2 countThenOutput >>= build "output" .protectedMode 0) = .ok p :=
    exists_eq_ok (by decide +kernel)
  obtain ⟨run, hrun, hp⟩ := bind_eq_ok.mp h
  obtain ⟨hcpu, hmonitor⟩ := enforces_privilege hrun hp Machine
  obtain ⟨_, hinterrupt, houtcome⟩ := hcpu cpu
  have hops : run.ops = run.ops.take 4 ++ ⟨Microcode.sti.word, none, 2, 2⟩ :: run.ops.drop 5 := by
    rw [Run.build_ok hrun]
    decide +kernel
  have hrefuses : (Privilege.ofCpu cpu).Refuses .protectedMode ⟨Microcode.sti.word, none, 2, 2⟩ :=
    ⟨.sti, by decide +kernel, by decide +kernel⟩
  have hbefore : (run? .protectedMode { run with ops := run.ops.take 4 } cpu).map Prod.fst = some (.completed 1) := by
    rw [Run.build_ok hrun]
    decide +kernel
  refine ⟨run, p, _, _, _, hrun, hp, hops, hrefuses, ?_, by decide +kernel, hinterrupt (by decide +kernel), hmonitor⟩
  rcases houtcome _ _ _ hops hrefuses with ⟨f, k, left, hran, _⟩ | ⟨_, _, _, _, hfault⟩
  · rw [hran] at hbefore
    cases hbefore
  · exact hfault

end Procedure

end Dynarec
