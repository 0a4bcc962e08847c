import Dynarec.Element
import Dynarec.Mode

namespace Dynarec

inductive Width
  | one | two | four
  deriving DecidableEq, Repr

namespace Width

def all : List Width := [one, two, four]

def bytes : Width → Nat
  | one => 1
  | two => 2
  | four => 4

def mask (w : Width) (value : UInt32) : UInt32 :=
  match w with
  | one => value &&& 0xFF
  | two => value &&& 0xFFFF
  | four => value

def text : Width → String
  | one => "One"
  | two => "Two"
  | four => "Four"

def ofText? (s : String) : Option Width := all.find? (·.text == s)

end Width

class Processor (σ : Type) where
  get : σ → Element → UInt32
  set : Element → UInt32 → σ → σ
  instructionPointer : σ → UInt32
  isProtected : σ → Bool
  isVirtual8086 : σ → Bool
  isWide : σ → Bool
  readMemory : UInt32 → UInt32 → Width → σ → Except Fault UInt32 × σ
  writeMemory : UInt32 → UInt32 → Width → UInt32 → σ → Except Fault Unit × σ
  -- Checks that a selector may be loaded into a segment register, and gives the value to keep.
  loadSegment : Element → UInt32 → σ → Except Fault UInt32 × σ
  readPort : UInt16 → σ → UInt8 × σ
  writePort : UInt16 → UInt8 → σ → σ
  halt : σ → σ
  -- Writes control register 0, and says whether that changed the operating mode.
  setControl : UInt32 → σ → Bool × σ
  deliver : Mode → Fault → σ → σ
  serviceInterrupts : Mode → Nat → σ → σ

inductive Space
  | linear | physical
  deriving DecidableEq, Repr

namespace Space

def text : Space → String
  | linear => "Linear"
  | physical => "Physical"

end Space

namespace Processor

variable {σ : Type} [Processor σ]

def space (cpu : σ) : Space := if isProtected cpu then .linear else .physical

def subMode (cpu : σ) : SubMode :=
  if !isProtected cpu then .real
  else if isVirtual8086 cpu then .virtual8086
  else if isWide cpu then .protected32
  else .protected16

end Processor

end Dynarec
