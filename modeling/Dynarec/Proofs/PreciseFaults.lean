import Dynarec.Proofs.CompiledRuns
import Dynarec.Proofs.CompilerCorrectness
import Dynarec.Proofs.InstructionEnds

namespace Dynarec

namespace Run

def upTo (run : Run) (k : Nat) : Run :=
  let ops := run.ops.filter (·.x86Index ≤ k)
  ⟨ops, ops.flatMap fun op => op.words.map fun word => ⟨word, op.position⟩⟩

/-- The bytes at the end of the run that the instruction pointer does not count. -/
def eipLag (mode : Mode) (run : Run) : UInt32 := run.x86Length - run.eipSynced mode

theorem eq_filter_append {ops : List MicroOp} (k : Nat) (h : ops.Pairwise (fun a b => a.x86Index ≤ b.x86Index)) :
    ops = ops.filter (·.x86Index ≤ k) ++ ops.filter (k < ·.x86Index) := by
  induction ops with
  | nil => rfl
  | cons op ops ih =>
      obtain ⟨hop, hops⟩ := List.pairwise_cons.mp h
      by_cases hk : op.x86Index ≤ k
      · rw [List.filter_cons_of_pos (by simpa using hk), List.filter_cons_of_neg (by simpa using hk), List.cons_append]
        exact congrArg (op :: ·) (ih hops)
      · have hlater : ∀ x ∈ op :: ops, k < x.x86Index := by
          rw [List.forall_mem_cons]
          exact ⟨by omega, fun x hx => by have := hop x hx; omega⟩
        rw [List.filter_eq_nil_iff.mpr (fun x hx => by simpa using hlater x hx), List.nil_append,
          List.filter_eq_self.mpr (fun x hx => by simpa using hlater x hx)]

theorem Ordered.ops_upTo {run : Run} (h : run.Ordered) {before after : List MicroOp} {op : MicroOp} {k : Nat}
    (hops : run.ops = before ++ op :: after) (hindex : op.x86Index = k + 1) :
    (∃ own, before = (run.upTo k).ops ++ own ∧ ∀ x ∈ own, x.x86Index = k + 1) ∧
      ∃ rest, (run.upTo (k + 1)).ops = before ++ op :: rest := by
  obtain ⟨hsorted, hsorted', hacross⟩ := List.pairwise_append.mp (hops ▸ h.pairwise)
  have hle : ∀ x ∈ before, x.x86Index ≤ k + 1 := fun x hx => hindex ▸ hacross x hx op List.mem_cons_self
  have hge : ∀ x ∈ op :: after, k < x.x86Index := by
    rw [List.forall_mem_cons]
    exact ⟨hindex.ge, fun x hx => hindex.ge.trans ((List.pairwise_cons.mp hsorted').1 x hx)⟩
  constructor
  · have hnone : (op :: after).filter (·.x86Index ≤ k) = [] :=
      List.filter_eq_nil_iff.mpr fun x hx => by simpa using hge x hx
    have hlow : (run.upTo k).ops = before.filter (·.x86Index ≤ k) := by
      change run.ops.filter (·.x86Index ≤ k) = _
      rw [hops, List.filter_append, hnone, List.append_nil]
    refine ⟨before.filter (k < ·.x86Index), ?_, ?_⟩
    · rw [hlow]
      exact eq_filter_append k hsorted
    · intro x hx
      obtain ⟨hx, hk⟩ := List.mem_filter.mp hx
      exact Nat.le_antisymm (hle x hx) (by simpa using hk)
  · refine ⟨after.filter (·.x86Index ≤ k + 1), ?_⟩
    change run.ops.filter (·.x86Index ≤ k + 1) = _
    rw [hops, List.filter_append, List.filter_cons_of_pos (by simp [hindex])]
    rw [List.filter_eq_self.mpr fun x hx => by simpa using hle x hx]

end Run

theorem Monitor.external_isPrefix_perform {σ : Type} [Processor σ] (f : Fragment) (a : Nat → UInt32)
    (m : Monitor σ) : m.external <+: (f.perform a m).2.external := by
  have hlog (call : Call) : m.external <+: (m.log call).external := by
    simp only [external, log, Array.toList_push, List.filter_append]
    exact List.prefix_append _ _
  cases f with
  | load w | store w | pushStore | loadSegment segment | portIn | portOut | halt | setCr0 => exact hlog _
  | portInChecked | portOutChecked | haltChecked =>
      simp only [Fragment.perform]
      split
      · exact hlog _
      · exact List.prefix_rfl
  | _ => exact List.prefix_rfl

namespace Interpreter

variable {σ : Type} [Processor σ]

theorem Asked.external_isPrefix {m m' : Monitor σ} (h : Asked m m') : m.external <+: m'.external := by
  induction h with
  | refl => exact List.prefix_rfl
  | tail _ hask ih =>
      obtain ⟨f, a, rfl⟩ := hask
      exact ih.trans (Monitor.external_isPrefix_perform f a _)

theorem get_commit_restart [LawfulProcessor σ] (mode : Mode) {entry : ElementMap UInt32} (start : Start) {cpu : σ}
    (hentry : entry.get .eip = Processor.get cpu .eip) (e : Element) :
    Processor.get (commit (restart mode entry start) cpu) e =
      Body.caughtUp mode start.lag e (Processor.get (commit start.defined cpu) e) := by
  by_cases hlag : start.lag = 0
  · rw [restart, if_pos hlag, Body.caughtUp, if_neg (fun h => h.2 hlag)]
  · rw [restart, if_neg hlag, get_commit, get_commit, ElementMap.get_set, Body.caughtUp]
    by_cases he : Element.eip = e
    · subst he
      have hcommitted : Element.eip.isCommitted = true := rfl
      simp [hcommitted, hlag, hentry]
    · have hne : ¬(e = .eip ∧ start.lag ≠ 0) := fun h => he h.1.symm
      rw [if_neg he, if_neg hne]

section Walks

variable {mode : Mode} {entry : ElementMap UInt32} {s s' : State σ} {ops : List MicroOp}

theorem reach?_of_error {before after : List MicroOp} {op : MicroOp} {stop : Stop σ}
    (hbefore : reach? mode entry s before = some (.ok s')) (hop : advance? mode entry s' op = some (.error stop)) :
    reach? mode entry s (before ++ op :: after) = some (.error stop) := by
  rw [reach?_append, hbefore]
  dsimp only
  rw [reach?, hop]

end Walks

/-- A fault in instruction `k + 1`, seen from the end of the instruction before it. -/
theorem exists_start_of_error {mode : Mode} {run : Run} {g : Graph} (hrun : run.Ordered)
    (hg : Graph.build mode run = .ok g) {cpu : σ} {entry : ElementMap UInt32} {stop : Stop σ}
    (h : reach? mode entry (State.initial cpu) run.ops = some (.error stop)) {k : Nat}
    (hk : stop.start.x86Index - 1 = k) :
    reach? mode entry (State.initial cpu) (run.upTo (k + 1)).ops = some (.error stop) ∧
      ∃ s, reach? mode entry (State.initial cpu) (run.upTo k).ops = some (.ok s) ∧ s.switched = false ∧
        stop.start = ⟨k + 1, s.progress.defined, (run.upTo k).eipLag mode⟩ ∧ Asked s.cpu stop.cpu := by
  obtain ⟨before, op, after, s', hops, hbefore, hop⟩ := reach?_error h
  obtain ⟨ts, _, htargets, hstart⟩ := advance?_error hop
  have hmem : op ∈ run.ops := by simp [hops]
  have hindex : op.x86Index = k + 1 := by
    have hpos := hrun.pos op hmem
    rw [hstart, x86Index_follow] at hk
    omega
  obtain ⟨⟨own, hown, hownindex⟩, rest, hnext⟩ := hrun.ops_upTo hops hindex
  have hsplit := hbefore
  rw [hown] at hsplit
  obtain ⟨s, hs, hrest⟩ := reach?_append_ok hsplit
  have hearlier : ∀ x ∈ (run.upTo k).ops, x ∈ run.ops ∧ x.x86Index ≤ k := by
    intro x hx
    simpa [Run.upTo] using hx
  refine ⟨by rw [hnext]; exact reach?_of_error hbefore hop, s, hs, ?_, ?_, ?_⟩
  · refine switched_reach? hs ?_
    intro x hx
    by_contra hswitches
    have hlast := Graph.eq_x86Count_of_switches hg (hearlier x hx).1 (by simpa using hswitches)
    have hle := hrun.le_x86Count hmem
    have := (hearlier x hx).2
    omega
  · have hfirst := start_reach? hs (Nat.zero_le k) fun x hx => (hearlier x hx).2
    rw [hstart, hindex, follow_reach? hrest (by omega) hownindex, position_reach? hs, eipSynced_reach? hs, Run.eipLag]
  · exact (asked_reach? hrest).trans (asked_targets? htargets)

theorem run?_faulted [SteadyProcessor σ] [LawfulProcessor σ] {mode : Mode} {run : Run} {g : Graph}
    (hrun : run.Ordered) (hg : Graph.build mode run = .ok g) {cpu left : σ} {f : Fault} {k : Nat}
    (h : run? mode run cpu = some (.faulted f k, left)) :
    run? mode (run.upTo (k + 1)) cpu = some (.faulted f k, left) ∧
      ∃ defined defined' cpu₁ cpu₂, Asked cpu₁ cpu₂ ∧ left = commit defined' cpu₂ ∧
        run? mode (run.upTo k) cpu = some (.completed (run.upTo k).x86Count, commit defined cpu₁) ∧
        ∀ e, Processor.get left e =
          Body.caughtUp mode ((run.upTo k).eipLag mode) e (Processor.get (commit defined cpu₁) e) := by
  rw [run?_eq, Option.map_eq_some_iff] at h
  obtain ⟨result, hreach, hfinish⟩ := h
  cases result with
  | ok s =>
      rw [finish] at hfinish
      split at hfinish <;> cases hfinish
  | error stop =>
      cases hfinish
      obtain ⟨hnext, s, hs, hswitched, hstart, hasked⟩ := exists_start_of_error hrun hg hreach rfl
      generalize stop.start.x86Index - 1 = k at *
      refine ⟨?_, s.progress.defined, _, s.cpu, stop.cpu, hasked, rfl, ?_, ?_⟩
      · rw [run?_eq, hnext, Option.map_some, finish, hstart]
        rfl
      · rw [run?_eq, hs, Option.map_some, finish, hswitched]
        rfl
      · intro e
        have heip : (entryValues cpu).get .eip = Processor.get stop.cpu .eip := by
          rw [entryValues, ElementMap.get_ofFn, hasked.get_eq, (asked_reach? hs).get_eq]
          rfl
        rw [get_commit_restart mode stop.start heip, hstart, get_commit, get_commit, hasked.get_eq]

end Interpreter

namespace Procedure

open Interpreter

variable {name : String} {mode : Mode} {stamp : Nat} {run : Run} {p : Procedure}

/-- After a fault in instruction `k + 1` the elements are those that the first `k` instructions leave, with
the instruction pointer brought up to date. What was asked of the outside is what these instructions and
then that one ask. -/
theorem faults_precisely {limit : Nat} {instructions : List Instruction}
    (hrun : Run.build limit instructions = .ok run) (h : build name mode stamp run = .ok p) :
    (∀ (cpu : Machine) (f : Fault) (k : Nat), (p.run cpu).1 = .faulted f k →
      ∃ before : Machine, run? mode (run.upTo k) cpu = some (.completed (run.upTo k).x86Count, before) ∧
        ∀ e, (p.run cpu).2.elements.get e =
          Body.caughtUp mode ((run.upTo k).eipLag mode) e (before.elements.get e)) ∧
      ∀ (m : Monitor Machine) (f : Fault) (k : Nat), (p.run m).1 = .faulted f k →
        ∃ before left : Monitor Machine,
          run? mode (run.upTo k) m = some (.completed (run.upTo k).x86Count, before) ∧
          run? mode (run.upTo (k + 1)) m = some (.faulted f k, left) ∧
          (∀ e, (p.run m).2.inner.elements.get e =
            Body.caughtUp mode ((run.upTo k).eipLag mode) e (before.inner.elements.get e)) ∧
          (p.run m).2.external = left.external ∧ before.external <+: left.external := by
  have hordered := Run.ordered_of_build hrun
  obtain ⟨g, _, hg, _⟩ := build_ok h
  constructor
  · intro cpu f k hf
    obtain ⟨ending, cpu', set, set', hnodup, hperm, hinterpreted, hcompiled, _⟩ := exists_run hordered h cpu
    rw [hcompiled] at hf ⊢
    cases hf
    obtain ⟨_, defined, _, cpu₁, _, _, _, hbefore, hget⟩ := run?_faulted hordered hg hinterpreted
    refine ⟨_, hbefore, ?_⟩
    rw [← Machine.assign_perm hperm hnodup]
    exact hget
  · intro m f k hf
    obtain ⟨ending, m', set, set', hnodup, hperm, hinterpreted, hcompiled, _⟩ := exists_run hordered h m
    rw [hcompiled] at hf ⊢
    cases hf
    obtain ⟨hnext, defined, defined', m₁, m₂, hasked, hleft, hbefore, hget⟩ := run?_faulted hordered hg hinterpreted
    refine ⟨_, _, hbefore, hnext, ?_, ?_, ?_⟩
    · intro e
      have hinner : (Processor.assign set' m').inner = (Processor.assign set m').inner := by
        rw [Monitor.inner_assign, Monitor.inner_assign, Machine.assign_perm hperm hnodup]
      rw [hinner]
      exact hget e
    · rw [Monitor.external_assign, Monitor.external_assign]
    · rw [hleft, commit_eq_assign, commit_eq_assign, Monitor.external_assign, Monitor.external_assign]
      exact hasked.external_isPrefix

def outputThenDivide : List Instruction :=
  [⟨1, [Microcode.load0 .eax, .inc, .store0 .eax, .load1 .ecx, .outByte].map Microcode.word⟩,
   ⟨2, [Microcode.load0 .eax, .load1 .ecx, .div, .store0 .eax, .eipUpdate].map Microcode.word⟩]

theorem faults_precisely_outputThenDivide :
    ∃ run p, Run.build 2 outputThenDivide = .ok run ∧ build "division" .real 0 run = .ok p ∧
      (p.run Machine.initial).1 = .faulted .divideError 1 ∧ (run.upTo 1).eipLag .real = 1 ∧
      ∃ before : Machine, run? .real (run.upTo 1) Machine.initial = some (.completed 1, before) ∧
        ∀ e, (p.run Machine.initial).2.elements.get e = Body.caughtUp .real 1 e (before.elements.get e) := by
  obtain ⟨p, hbuilt⟩ : ∃ p, (Run.build 2 outputThenDivide >>= build "division" .real 0) = .ok p :=
    exists_eq_ok (by decide +kernel)
  obtain ⟨run, hrun, hp⟩ := bind_eq_ok.mp hbuilt
  have hinterpreted : (run? .real run Machine.initial).map Prod.fst = some (.faulted .divideError 1) := by
    rw [Run.build_ok hrun]
    decide +kernel
  have hcount : (run.upTo 1).x86Count = 1 := by
    rw [Run.build_ok hrun]
    decide +kernel
  have hlag : (run.upTo 1).eipLag .real = 1 := by
    rw [Run.build_ok hrun]
    decide +kernel
  have hfault : (p.run Machine.initial).1 = .faulted .divideError 1 := by
    obtain ⟨ending, cpu', set, set', _, _, hending, hcompiled, _⟩ :=
      exists_run (Run.ordered_of_build hrun) hp Machine.initial
    rw [hending] at hinterpreted
    rw [hcompiled]
    exact Option.some.inj hinterpreted
  have hprecise := (faults_precisely hrun hp).1 Machine.initial _ _ hfault
  rw [hcount, hlag] at hprecise
  exact ⟨run, p, hrun, hp, hfault, hlag, hprecise⟩

end Procedure

end Dynarec
