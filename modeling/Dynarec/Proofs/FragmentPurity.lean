import Dynarec.Machine
import Dynarec.Monitor
import Dynarec.Rule

namespace Dynarec

/-- Whatever is asked of the processor, its elements keep their values until they are set. -/
class SteadyProcessor (σ : Type) [Processor σ] : Prop where
  get_readMemory (segment offset : UInt32) (w : Width) (cpu : σ) (e : Element) :
    Processor.get (Processor.readMemory segment offset w cpu).2 e = Processor.get cpu e
  get_writeMemory (segment offset : UInt32) (w : Width) (value : UInt32) (cpu : σ) (e : Element) :
    Processor.get (Processor.writeMemory segment offset w value cpu).2 e = Processor.get cpu e
  get_loadSegment (segment : Element) (selector : UInt32) (cpu : σ) (e : Element) :
    Processor.get (Processor.loadSegment segment selector cpu).2 e = Processor.get cpu e
  get_readPort (port : UInt16) (cpu : σ) (e : Element) :
    Processor.get (Processor.readPort port cpu).2 e = Processor.get cpu e
  get_writePort (port : UInt16) (value : UInt8) (cpu : σ) (e : Element) :
    Processor.get (Processor.writePort port value cpu) e = Processor.get cpu e
  get_halt (cpu : σ) (e : Element) : Processor.get (Processor.halt cpu) e = Processor.get cpu e
  get_setControl (value : UInt32) (cpu : σ) (e : Element) :
    Processor.get (Processor.setControl value cpu).2 e = Processor.get cpu e

instance : SteadyProcessor Machine where
  get_readMemory _ _ _ _ _ := rfl
  get_writeMemory segment offset w value m e := by
    simp only [Processor.writeMemory, Machine.writeMemory]
    split <;> rfl
  get_loadSegment _ _ _ _ := rfl
  get_readPort _ _ _ := rfl
  get_writePort _ _ _ _ := rfl
  get_halt _ _ := rfl
  get_setControl _ _ _ := rfl

instance {σ : Type} [Processor σ] [SteadyProcessor σ] : SteadyProcessor (Monitor σ) where
  get_readMemory segment offset w m e := SteadyProcessor.get_readMemory segment offset w m.inner e
  get_writeMemory segment offset w value m e := SteadyProcessor.get_writeMemory segment offset w value m.inner e
  get_loadSegment segment selector m e := SteadyProcessor.get_loadSegment segment selector m.inner e
  get_readPort port m e := SteadyProcessor.get_readPort port m.inner e
  get_writePort port value m e := SteadyProcessor.get_writePort port value m.inner e
  get_halt m e := SteadyProcessor.get_halt m.inner e
  get_setControl value m e := SteadyProcessor.get_setControl value m.inner e

namespace Fragment

def isPure : Fragment → Bool
  | divQuotient | divRemainder | load _ | store _ | pushStore | loadSegment _
  | ioplCheck _ | vm86IoplCheck _ | portIn | portInChecked | portOut | portOutChecked
  | halt | haltChecked | setCr0 => false
  | _ => true

def mayFault : Fragment → Bool
  | divQuotient | divRemainder | load _ | store _ | pushStore | loadSegment _
  | ioplCheck _ | vm86IoplCheck _ | portInChecked | portOutChecked | haltChecked => true
  | _ => false

variable {σ : Type} [Processor σ]

theorem perform_of_isPure {f : Fragment} (h : f.isPure = true) (a : Nat → UInt32) :
    ∃ v, ∀ cpu : σ, f.perform a cpu = (.value v, cpu) := by
  cases f <;> first | exact ⟨_, fun _ => rfl⟩ | cases h

theorem perform_ne_fault {f : Fragment} (h : f.mayFault = false) (a : Nat → UInt32) (cpu : σ) (fault : Fault) :
    (f.perform a cpu).1 ≠ .fault fault := by
  cases f <;> try cases h
  case setCr0 =>
    simp only [perform]
    split <;> simp
  all_goals simp [perform]

theorem get_perform [SteadyProcessor σ] (f : Fragment) (a : Nat → UInt32) (cpu : σ) (e : Element) :
    Processor.get (f.perform a cpu).2 e = Processor.get cpu e := by
  cases f with
  | load w => exact SteadyProcessor.get_readMemory _ _ _ _ _
  | store w | pushStore => exact SteadyProcessor.get_writeMemory _ _ _ _ _ _
  | loadSegment segment => exact SteadyProcessor.get_loadSegment _ _ _ _
  | portIn => exact SteadyProcessor.get_readPort _ _ _
  | portInChecked =>
      simp only [perform]
      split
      · exact SteadyProcessor.get_readPort _ _ _
      · rfl
  | portOut => exact SteadyProcessor.get_writePort _ _ _ _
  | portOutChecked =>
      simp only [perform]
      split
      · exact SteadyProcessor.get_writePort _ _ _ _
      · rfl
  | halt => exact SteadyProcessor.get_halt _ _
  | haltChecked =>
      simp only [perform]
      split
      · exact SteadyProcessor.get_halt _ _
      · rfl
  | setCr0 => exact SteadyProcessor.get_setControl _ _ _
  | _ => rfl

theorem get_of_perform [SteadyProcessor σ] {f : Fragment} {a : Nat → UInt32} {cpu cpu' : σ} {reply : Reply}
    (h : f.perform a cpu = (reply, cpu')) (e : Element) : Processor.get cpu' e = Processor.get cpu e := by
  have hget := get_perform f a cpu e
  rw [h] at hget
  exact hget

end Fragment

namespace Target

/-- The flags tell the truth about the fragment, and it gets as many operands as it takes. -/
structure Sound (t : Target) : Prop where
  arity : t.inputs.length = t.fragment.arity
  isPure : t.isOrdered = false → t.fragment.isPure = true
  mayFault : t.canFault = false → t.fragment.mayFault = false

end Target

namespace Rule

theorem all_isPure (mode : Mode) (m : Microcode) :
    ((targets? mode m).getD []).all (fun t => t.isOrdered || t.fragment.isPure) = true := by
  cases m <;> cases mode <;> rfl

theorem all_mayFault (mode : Mode) (m : Microcode) :
    ((targets? mode m).getD []).all (fun t => t.canFault || !t.fragment.mayFault) = true := by
  cases m <;> cases mode <;> rfl

theorem sound_of_mem {mode : Mode} {m : Microcode} {ts : List Target} {t : Target}
    (h : targets? mode m = some ts) (ht : t ∈ ts) : t.Sound := by
  have hpure := all_isPure mode m
  have hfault := all_mayFault mode m
  rw [h, Option.getD_some, List.all_eq_true] at hpure hfault
  refine ⟨(arity_eq_length_inputs h ht).symm, fun ho => ?_, fun hc => ?_⟩
  · simpa [ho] using hpure t ht
  · simpa [hc] using hfault t ht

end Rule

end Dynarec
