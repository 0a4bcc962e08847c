import Dynarec.Processor

namespace Dynarec

/-- A request that a monitor records. -/
inductive Call
  | set (e : Element) (value : UInt32)
  | read (segment offset : UInt32) (w : Width)
  | write (segment offset : UInt32) (w : Width) (value : UInt32)
  | loadSegment (segment : Element) (selector : UInt32)
  | portIn (port : UInt16)
  | portOut (port : UInt16) (value : UInt8)
  | halt
  | control (value : UInt32)
  deriving DecidableEq, Repr

namespace Call

def words (items : List String) : String := String.intercalate " " items

def text : Call → String
  | set e value => words ["set", e.name, toString value.toNat]
  | read segment offset w =>
    words ["read", toString segment.toNat, toString offset.toNat, toString w.bytes]
  | write segment offset w value =>
    words ["write", toString segment.toNat, toString offset.toNat, toString w.bytes, toString value.toNat]
  | loadSegment segment selector => words ["load_segment", segment.name, toString selector.toNat]
  | portIn port => words ["in", toString port.toNat]
  | portOut port value => words ["out", toString port.toNat, toString value.toNat]
  | halt => "halt"
  | control value => words ["cr0", toString value.toNat]

end Call

structure Monitor (σ : Type) where
  inner : σ
  -- Where the instruction pointer goes after each of the next faults.
  resumePoints : List UInt32
  calls : Array Call

namespace Monitor

variable {σ : Type}

def log (call : Call) (m : Monitor σ) : Monitor σ := { m with calls := m.calls.push call }

def through {α : Type} (f : σ → α × σ) (m : Monitor σ) : α × Monitor σ :=
  let (a, inner) := f m.inner
  (a, { m with inner })

def mapInner (f : σ → σ) (m : Monitor σ) : Monitor σ := { m with inner := f m.inner }

def resume [Processor σ] (m : Monitor σ) : Monitor σ :=
  match m.resumePoints with
  | [] => m
  | eip :: rest => { m with inner := Processor.set .eip eip m.inner, resumePoints := rest }

instance [Processor σ] : Processor (Monitor σ) where
  get m e := Processor.get m.inner e
  set e value m := (m.log (.set e value)).mapInner (Processor.set e value)
  instructionPointer m := Processor.instructionPointer m.inner
  isProtected m := Processor.isProtected m.inner
  isVirtual8086 m := Processor.isVirtual8086 m.inner
  isWide m := Processor.isWide m.inner
  readMemory segment offset w m :=
    (m.log (.read segment offset w)).through (Processor.readMemory segment offset w)
  writeMemory segment offset w value m :=
    (m.log (.write segment offset w value)).through (Processor.writeMemory segment offset w value)
  loadSegment segment selector m :=
    (m.log (.loadSegment segment selector)).through (Processor.loadSegment segment selector)
  readPort port m := (m.log (.portIn port)).through (Processor.readPort port)
  writePort port value m := (m.log (.portOut port value)).mapInner (Processor.writePort port value)
  halt m := (m.log .halt).mapInner Processor.halt
  setControl value m := (m.log (.control value)).through (Processor.setControl value)
  deliver mode fault m := (m.mapInner (Processor.deliver mode fault)).resume
  serviceInterrupts mode count m := m.mapInner (Processor.serviceInterrupts mode count)

end Monitor

end Dynarec
