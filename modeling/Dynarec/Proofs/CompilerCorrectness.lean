import Dynarec.Proofs.CommittedState
import Dynarec.Proofs.RunIdentity

namespace Dynarec

open Processor

namespace Machine

theorem set_comm {e e' : Element} (h : e ≠ e') (v v' : UInt32) (m : Machine) :
    Processor.set e v (Processor.set e' v' m) = Processor.set e' v' (Processor.set e v m) := by
  have helements : (m.elements.set e' v').set e v = (m.elements.set e v).set e' v' := by
    apply ElementMap.ext_get
    intro x
    simp only [ElementMap.get_set]
    by_cases hx : e = x
    · rw [if_pos hx, if_pos hx, if_neg (fun hx' => h (hx.trans hx'.symm))]
    · rw [if_neg hx, if_neg hx]
  exact congrArg (fun elements => { m with elements }) helements

theorem assign_perm {l l' : List (Element × UInt32)} (h : l.Perm l') (hnodup : (l.map Prod.fst).Nodup) (m : Machine) :
    assign l m = assign l' m := by
  apply h.foldl_eq'
  intro p hp q hq m
  by_cases hpq : p = q
  · rw [hpq]
  · exact set_comm (fun he => hpq (List.inj_on_of_nodup_map hnodup hq hp he).symm) _ _ m

end Machine

def Call.isExternal : Call → Bool
  | .set _ _ => false
  | _ => true

namespace Monitor

variable {σ : Type} [Processor σ]

def external (m : Monitor σ) : List Call := m.calls.toList.filter Call.isExternal

theorem inner_assign (l : List (Element × UInt32)) (m : Monitor σ) : (assign l m).inner = assign l m.inner := by
  induction l generalizing m with
  | nil => rfl
  | cons p l ih => exact ih _

theorem external_assign (l : List (Element × UInt32)) (m : Monitor σ) : (assign l m).external = m.external := by
  induction l generalizing m with
  | nil => rfl
  | cons p l ih =>
      refine (ih _).trans ?_
      simp [external, Processor.set, log, mapInner, Call.isExternal]

end Monitor

namespace Procedure

variable {σ : Type} [Processor σ] {name : String} {mode : Mode} {stamp : Nat} {run : Run} {p : Procedure}

/-- Interpretation and compiled code end alike. They set the same elements of the same processor, not
always in the same order. -/
theorem exists_run [SteadyProcessor σ] (hrun : run.Ordered) (h : build name mode stamp run = .ok p) (cpu : σ) :
    ∃ ending cpu' left left', (left.map Prod.fst).Nodup ∧ left.Perm left' ∧
      Interpreter.run? mode run cpu = some (ending, assign left cpu') ∧ p.run cpu = (ending, assign left' cpu') ∧
      ∀ what, ending ≠ .broken what := by
  obtain ⟨g, depth, hg, hbody, _, hp⟩ := build_ok h
  have hwf := Graph.wellFormed_of_build hrun hg
  obtain ⟨body, hbody', ⟨l⟩⟩ := Body.exists_layout hwf
  cases Except.ok.inj (hbody.symm.trans hbody')
  obtain ⟨hcompletes, hfaults⟩ := Body.run_of_layout hwf l mode run.x86Count cpu
  have hprun : p.run cpu = p.body.run mode run.x86Count cpu := by rw [hp]; rfl
  obtain ⟨b, hb, rfl⟩ := Graph.build_ok hg
  obtain ⟨hinv, _⟩ := Graph.Builder.invariant_initial.foldlM (fun op _ => Nat.zero_le _) hrun.pos hrun.pairwise hb
  -- evaluation of the graph stands between the interpreter and the code
  rcases Graph.Builder.walk_agrees run.x86Count Graph.Builder.invariant_initial
    (fun op _ => Nat.zero_le _) hrun.pos hrun.pairwise (Graph.Builder.follows_initial cpu) hb with
    ⟨s, progress, switched, cpu', hfollows, hwalk⟩ | ⟨s, fault, cpu', hfaulted, hwalk⟩
  · have hperm := hfollows.defined.committed_perm.trans (List.reverse_perm _).symm
    have hcompleted := hcompletes hfollows.fault
    dsimp only at hcompleted
    rw [hfollows.switched, hfollows.cpu] at hcompleted
    rw [Interpreter.commit_eq_assign] at hwalk
    refine ⟨_, cpu', _, _, Interpreter.nodup_committed _, hperm, hwalk, hprun.trans hcompleted, ?_⟩
    intro what
    cases switched <;> simp
  · obtain ⟨bd, hbd, hn, hstart⟩ := hfaulted.boundary
    have hentry : (b.dataflow.evaluate cpu).value Graph.entryEip = (Interpreter.entryValues cpu).get .eip := by
      have hlt := ((hinv.boundaries bd hbd).2.2 _ hn).eip_lt
      exact Dataflow.consistent_evaluate hinv.flow cpu _ _ (Nat.zero_lt_of_lt hlt) (hinv.entries .eip _ rfl) rfl
    have hperm := (Body.committed_restart_perm mode hstart hentry).trans (List.reverse_perm _).symm
    have hfaulting := hfaults fault bd hfaulted.fault hbd hn
    dsimp only at hfaulting
    rw [hfaulted.cpu, hstart.x86Index] at hfaulting
    rw [Interpreter.commit_eq_assign] at hwalk
    exact ⟨_, cpu', _, _, Interpreter.nodup_committed _, hperm, hwalk, hprun.trans hfaulting, by simp⟩

/-- Compiled code and interpretation of its run are the same. Either may commit the elements in an order
of its own, which only a monitor sees. -/
theorem run_eq_interpret {limit : Nat} {instructions : List Instruction}
    (hrun : Run.build limit instructions = .ok run) (h : build name mode stamp run = .ok p) :
    (∀ cpu : Machine, Interpreter.run? mode run cpu = some (p.run cpu)) ∧
      ∀ m : Monitor Machine, (∀ what, (p.run m).1 ≠ .broken what) ∧
        ∃ m' : Monitor Machine, Interpreter.run? mode run m = some ((p.run m).1, m') ∧
          m'.inner = (p.run m).2.inner ∧ m'.external = (p.run m).2.external := by
  have hordered := Run.ordered_of_build hrun
  constructor
  · intro cpu
    obtain ⟨ending, cpu', left, left', hnodup, hperm, hinterpreted, hcompiled, _⟩ := exists_run hordered h cpu
    rw [hinterpreted, hcompiled, Machine.assign_perm hperm hnodup]
  · intro m
    obtain ⟨ending, m', left, left', hnodup, hperm, hinterpreted, hcompiled, hwell⟩ := exists_run hordered h m
    rw [hcompiled]
    refine ⟨hwell, assign left m', hinterpreted, ?_, ?_⟩
    · rw [Monitor.inner_assign, Monitor.inner_assign, Machine.assign_perm hperm hnodup]
    · rw [Monitor.external_assign, Monitor.external_assign]

theorem run_eq_interpret_incrementThenDivide :
    ∃ run p, Run.build 2 Body.incrementThenDivide = .ok run ∧ build "division" .virtual8086 0 run = .ok p ∧
      (∀ cpu : Machine, Interpreter.run? .virtual8086 run cpu = some (p.run cpu)) ∧
      ∀ m : Monitor Machine, (∀ what, (p.run m).1 ≠ .broken what) ∧
        ∃ m' : Monitor Machine, Interpreter.run? .virtual8086 run m = some ((p.run m).1, m') ∧
          m'.inner = (p.run m).2.inner ∧ m'.external = (p.run m).2.external := by
  obtain ⟨p, h⟩ : ∃ p, (Run.build 2 Body.incrementThenDivide >>= build "division" .virtual8086 0) = .ok p :=
    exists_eq_ok (by decide +kernel)
  obtain ⟨run, hrun, hp⟩ := bind_eq_ok.mp h
  exact ⟨run, p, hrun, hp, run_eq_interpret hrun hp⟩

end Procedure

end Dynarec
