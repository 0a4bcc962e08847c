import Dynarec.Proofs.WalkSteps

namespace Dynarec

theorem Machine.writeMemory_cases (segment offset value : UInt32) (w : Width) (m : Machine) :
    (∃ m', m.writeMemory segment offset w value = (.ok (), m')) ∨
      ∃ fault, m.writeMemory segment offset w value = (.error fault, m) := by
  rw [writeMemory]
  split
  · exact .inl ⟨_, rfl⟩
  · exact .inr ⟨_, rfl⟩

namespace Fragment

def mayChange : Fragment → Bool
  | store _ | pushStore | portOut | portOutChecked | halt | haltChecked | setCr0 => true
  | _ => false

theorem perform_of_mayChange {f : Fragment} (h : f.mayChange = false) (a : Nat → UInt32) (m : Machine) :
    (f.perform a m).2 = m := by
  cases f with
  | store w | pushStore | portOut | portOutChecked | halt | haltChecked | setCr0 => cases h
  | portInChecked =>
      simp only [perform]
      split <;> rfl
  | _ => rfl

theorem perform_of_fault {f : Fragment} {a : Nat → UInt32} {m : Machine} {fault : Fault}
    (h : (f.perform a m).1 = .fault fault) : (f.perform a m).2 = m := by
  cases f with
  | store w =>
      rcases Machine.writeMemory_cases (a 0) (a 1) (w.mask (a 2)) w m with ⟨m', hwrite⟩ | ⟨fault', hwrite⟩
      · simp [perform, Processor.writeMemory, hwrite, Reply.ofDone] at h
      · simp [perform, Processor.writeMemory, hwrite]
  | pushStore =>
      rcases Machine.writeMemory_cases (a 0) (a 1 - 4) (a 2) .four m with ⟨m', hwrite⟩ | ⟨fault', hwrite⟩
      · simp [perform, Processor.writeMemory, hwrite, Reply.ofDone] at h
      · simp [perform, Processor.writeMemory, hwrite]
  | portOutChecked | haltChecked =>
      simp only [perform] at h ⊢
      split at h
      · cases h
      next hdenied => rw [if_neg hdenied]
  | portOut | halt | setCr0 => exact absurd h (perform_ne_fault rfl a m fault)
  | _ => exact perform_of_mayChange rfl a m

end Fragment

namespace Rule

theorem all_mayChange (mode : Mode) (m : Microcode) :
    ((targets? mode m).getD []).all (fun t => t.hasEffect || !t.fragment.mayChange) = true := by
  cases m <;> cases mode <;> rfl

theorem mayChange_of_mem {mode : Mode} {m : Microcode} {ts : List Target} {t : Target}
    (h : targets? mode m = some ts) (ht : t ∈ ts) (hs : t.hasEffect = false) : t.fragment.mayChange = false := by
  have hall := all_mayChange mode m
  rw [h, Option.getD_some, List.all_eq_true] at hall
  simpa [hs] using hall t ht

/-- A fragment with as many arguments as it takes gives an answer. It faults, switches the mode and
changes the machine only where its target is marked for that, and without marks the answer comes from
the arguments alone. -/
theorem flags_sound {mode : Mode} {m : Microcode} {ts : List Target} {t : Target} (h : targets? mode m = some ts)
    (ht : t ∈ ts) (args : List UInt32) (hargs : args.length = t.fragment.arity) (cpu : Machine) :
    ∃ reply cpu', t.fragment.evaluate? args cpu = some (reply, cpu') ∧
      (∀ fault, reply = .fault fault → t.canFault = true ∧ cpu' = cpu) ∧
      (reply = .modeSwitch → t.switchesMode = true) ∧
      (t.hasEffect = false → cpu' = cpu) ∧
      (t.hasEffect = false → t.canFault = false →
        ∀ other : Machine, t.fragment.evaluate? args other = some (reply, other)) := by
  have hsound := sound_of_mem h ht
  have hanswer (m : Machine) : t.fragment.evaluate? args m = some (t.fragment.perform (fun i => args.getD i 0) m) :=
    if_pos hargs
  generalize (fun i => args.getD i 0 : Nat → UInt32) = a at hanswer
  refine ⟨(t.fragment.perform a cpu).1, (t.fragment.perform a cpu).2, hanswer cpu, ?_, ?_, ?_, ?_⟩
  · intro fault hfault
    refine ⟨?_, Fragment.perform_of_fault hfault⟩
    by_contra hmark
    exact Fragment.perform_ne_fault (hsound.mayFault (by simpa using hmark)) a cpu fault hfault
  · intro hswitch
    by_contra hmark
    exact Fragment.perform_ne_modeSwitch (ne_setCr0_of_mem h ht (by simpa using hmark)) a cpu hswitch
  · intro heffect
    exact Fragment.perform_of_mayChange (mayChange_of_mem h ht heffect) a cpu
  · intro heffect hfault other
    have hordered : t.isOrdered = false := by rw [Target.isOrdered, heffect, hfault]; rfl
    obtain ⟨v, hv⟩ := Fragment.perform_of_isPure (σ := Machine) (hsound.isPure hordered) a
    rw [hanswer, hv, hv]

theorem flags_sound_divisionByZero :
    ∃ ts t, targets? .protectedMode .div = some ts ∧ t ∈ ts ∧ [7, 0].length = t.fragment.arity ∧
      t.fragment.evaluate? [7, 0] Machine.initial = some (.fault .divideError, Machine.initial) ∧ t.canFault = true := by
  obtain ⟨ts, hts⟩ : ∃ ts, targets? .protectedMode .div = some ts := ⟨_, rfl⟩
  have ht : .faulting .reg0 (reads [.reg0, .reg1]) .divQuotient ∈ ts := by
    cases hts
    exact List.mem_cons_self
  have hanswer : Fragment.divQuotient.evaluate? [7, 0] Machine.initial =
      some (.fault .divideError, Machine.initial) := rfl
  obtain ⟨reply, cpu', hreply, hfault, _⟩ := flags_sound hts ht [7, 0] rfl Machine.initial
  cases hreply.symm.trans hanswer
  exact ⟨ts, _, hts, ht, rfl, hanswer, (hfault _ rfl).1⟩

end Rule

end Dynarec
