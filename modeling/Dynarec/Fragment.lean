import Dynarec.Processor

namespace Dynarec

inductive Fragment
  | identity | zero | one
  | add | sub | and | or | xor | inc | dec | neg | not | shl | shr | sar
  | complement
  | selector
  | advance16
  -- Instruction pointer, length, displacement.
  | jump | jump16
  -- Flag, instruction pointer, length, displacement: jumps if the flag is `taken`.
  | branch (taken wide : Bool)
  | minus4 | plus4
  -- First operand, second operand, result.
  | carryAdd | carrySub | overflowAdd | overflowSub | auxiliaryCarry
  | zeroResult | signResult | parityResult | overflowInc | auxiliaryInc
  | divQuotient | divRemainder
  -- Segment, offset.
  | load (w : Width)
  -- Segment, offset, value.
  | store (w : Width)
  -- Stack segment, stack pointer, value, which goes just below the pointer.
  | pushStore
  | loadSegment (segment : Element)
  -- Current and required privilege: yields `value` if allowed.
  | ioplCheck (value : Bool)
  | vm86IoplCheck (value : Bool)
  | portIn | portInChecked | portOut | portOutChecked
  | halt | haltChecked
  | setCr0
  deriving DecidableEq, Repr

inductive Reply
  | value (v : UInt32)
  | fault (f : Fault)
  | modeSwitch
  deriving DecidableEq, Repr

namespace Reply

def ofResult : Except Fault UInt32 → Reply
  | .ok v => value v
  | .error f => fault f

def ofDone : Except Fault Unit → Reply
  | .ok () => value 0
  | .error f => fault f

end Reply

namespace Fragment

def arity : Fragment → Nat
  | zero | one | halt => 0
  | identity | inc | dec | neg | not | complement | selector | minus4 | plus4
  | zeroResult | signResult | parityResult | overflowInc | auxiliaryInc
  | loadSegment _ | vm86IoplCheck _ | portIn | haltChecked | setCr0 => 1
  | add | sub | and | or | xor | shl | shr | sar | advance16
  | divQuotient | divRemainder | load _ | ioplCheck _ | portOut => 2
  | jump | jump16 | carryAdd | carrySub | overflowAdd | overflowSub
  | auxiliaryCarry | store _ | pushStore | portInChecked => 3
  | branch _ _ | portOutChecked => 4

def ofBool (b : Bool) : UInt32 := if b then 1 else 0

def arithmeticShift (a n : UInt32) : UInt32 := (a.toInt32 >>> (n &&& 31).toInt32).toUInt32

def evenParity (a : UInt32) : Bool :=
  (List.range 8).countP (fun i => a.toNat.testBit i) % 2 == 0

def branchTarget (taken wide : Bool) (flag eip length displacement : UInt32) : UInt32 :=
  let next := eip + length
  let target := if (flag != 0) == taken then next + displacement else next
  if wide then target else target &&& 0xFFFF

def denied : Reply := .fault (.generalProtection 0)

variable {σ : Type} [Processor σ]

/-- What the fragment does with the arguments `a 0`, `a 1` and so on. -/
def perform (f : Fragment) (a : Nat → UInt32) (cpu : σ) : Reply × σ :=
  match f with
  | identity => (.value (a 0), cpu)
  | zero => (.value 0, cpu)
  | one => (.value 1, cpu)
  | add => (.value (a 0 + a 1), cpu)
  | sub => (.value (a 0 - a 1), cpu)
  | and => (.value (a 0 &&& a 1), cpu)
  | or => (.value (a 0 ||| a 1), cpu)
  | xor => (.value (a 0 ^^^ a 1), cpu)
  | inc => (.value (a 0 + 1), cpu)
  | dec => (.value (a 0 - 1), cpu)
  | neg => (.value (0 - a 0), cpu)
  | not => (.value (~~~ a 0), cpu)
  | shl => (.value (a 0 <<< (a 1 &&& 31)), cpu)
  | shr => (.value (a 0 >>> (a 1 &&& 31)), cpu)
  | sar => (.value (arithmeticShift (a 0) (a 1)), cpu)
  | complement => (.value (a 0 ^^^ 1), cpu)
  | selector => (.value (a 0 &&& 0xFFFF), cpu)
  | advance16 => (.value ((a 0 + a 1) &&& 0xFFFF), cpu)
  | jump => (.value (a 0 + a 1 + a 2), cpu)
  | jump16 => (.value ((a 0 + a 1 + a 2) &&& 0xFFFF), cpu)
  | branch taken wide => (.value (branchTarget taken wide (a 0) (a 1) (a 2) (a 3)), cpu)
  | minus4 => (.value (a 0 - 4), cpu)
  | plus4 => (.value (a 0 + 4), cpu)
  | carryAdd => (.value (ofBool (a 2 < a 0)), cpu)
  | carrySub => (.value (ofBool (a 0 < a 1)), cpu)
  | overflowAdd => (.value (((a 0 ^^^ a 2) &&& (a 1 ^^^ a 2)) >>> 31), cpu)
  | overflowSub => (.value (((a 0 ^^^ a 1) &&& (a 0 ^^^ a 2)) >>> 31), cpu)
  | auxiliaryCarry => (.value (((a 0 ^^^ a 1 ^^^ a 2) >>> 4) &&& 1), cpu)
  | zeroResult => (.value (ofBool (a 0 == 0)), cpu)
  | signResult => (.value (a 0 >>> 31), cpu)
  | parityResult => (.value (ofBool (evenParity (a 0))), cpu)
  | overflowInc => (.value (ofBool (a 0 == 0x80000000)), cpu)
  | auxiliaryInc => (.value (ofBool (a 0 &&& 0xF == 0)), cpu)
  | divQuotient => (if a 1 = 0 then .fault .divideError else .value (a 0 / a 1), cpu)
  | divRemainder => (if a 1 = 0 then .fault .divideError else .value (a 0 % a 1), cpu)
  | load w =>
    let (result, cpu) := Processor.readMemory (a 0) (a 1) w cpu
    (.ofResult result, cpu)
  | store w =>
    let (result, cpu) := Processor.writeMemory (a 0) (a 1) w (w.mask (a 2)) cpu
    (.ofDone result, cpu)
  | pushStore =>
    let (result, cpu) := Processor.writeMemory (a 0) (a 1 - 4) .four (a 2) cpu
    (.ofDone result, cpu)
  | loadSegment segment =>
    let (result, cpu) := Processor.loadSegment segment (a 0 &&& 0xFFFF) cpu
    (.ofResult result, cpu)
  | ioplCheck value => (if a 0 ≤ a 1 then .value (ofBool value) else denied, cpu)
  | vm86IoplCheck value => (if a 0 = 3 then .value (ofBool value) else denied, cpu)
  | portIn =>
    let (byte, cpu) := Processor.readPort (a 0).toUInt16 cpu
    (.value byte.toUInt32, cpu)
  | portInChecked =>
    if a 0 ≤ a 1 then
      let (byte, cpu) := Processor.readPort (a 2).toUInt16 cpu
      (.value byte.toUInt32, cpu)
    else (denied, cpu)
  | portOut => (.value 0, Processor.writePort (a 0).toUInt16 (a 1).toUInt8 cpu)
  | portOutChecked =>
    if a 0 ≤ a 1 then (.value 0, Processor.writePort (a 2).toUInt16 (a 3).toUInt8 cpu)
    else (denied, cpu)
  | halt => (.value 0, Processor.halt cpu)
  | haltChecked => if a 0 = 0 then (.value 0, Processor.halt cpu) else (denied, cpu)
  | setCr0 =>
    let (switched, cpu) := Processor.setControl (a 0) cpu
    (if switched then .modeSwitch else .value 0, cpu)

/-- Applies the fragment to a list of arguments, which must be as many as its arity. -/
def evaluate? (f : Fragment) (args : List UInt32) (cpu : σ) : Option (Reply × σ) :=
  if args.length = f.arity then some (f.perform (fun i => args.getD i 0) cpu) else none

def all : List Fragment :=
  [identity, zero, one, add, sub, and, or, xor, inc, dec, neg, not, shl, shr, sar,
   complement, selector, advance16, jump, jump16,
   branch true true, branch true false, branch false true, branch false false,
   minus4, plus4, carryAdd, carrySub, overflowAdd, overflowSub, auxiliaryCarry,
   zeroResult, signResult, parityResult, overflowInc, auxiliaryInc, divQuotient, divRemainder] ++
  Width.all.map load ++ Width.all.map store ++ [pushStore] ++ Element.all.map loadSegment ++
  [ioplCheck true, ioplCheck false, vm86IoplCheck true, vm86IoplCheck false,
   portIn, portInChecked, portOut, portOutChecked, halt, haltChecked, setCr0]

def text : Fragment → String
  | identity => "Identity" | zero => "Zero" | one => "One"
  | add => "Add" | sub => "Sub" | and => "And" | or => "Or" | xor => "Xor"
  | inc => "Inc" | dec => "Dec" | neg => "Neg" | not => "Not"
  | shl => "Shl" | shr => "Shr" | sar => "Sar"
  | complement => "Complement" | selector => "Selector"
  | advance16 => "Advance16" | jump => "Jump" | jump16 => "Jump16"
  | branch taken wide =>
    "Branch \x7b taken: " ++ Text.flag taken ++ ", wide: " ++ Text.flag wide ++ " \x7d"
  | minus4 => "Minus4" | plus4 => "Plus4"
  | carryAdd => "CarryAdd" | carrySub => "CarrySub"
  | overflowAdd => "OverflowAdd" | overflowSub => "OverflowSub"
  | auxiliaryCarry => "AuxiliaryCarry"
  | zeroResult => "ZeroResult" | signResult => "SignResult" | parityResult => "ParityResult"
  | overflowInc => "OverflowInc" | auxiliaryInc => "AuxiliaryInc"
  | divQuotient => "DivQuotient" | divRemainder => "DivRemainder"
  | load w => "Load(" ++ w.text ++ ")"
  | store w => "Store(" ++ w.text ++ ")"
  | pushStore => "PushStore"
  | loadSegment segment => "LoadSegment(" ++ segment.name ++ ")"
  | ioplCheck value => "IoplCheck \x7b value: " ++ Text.flag value ++ " \x7d"
  | vm86IoplCheck value => "Vm86IoplCheck \x7b value: " ++ Text.flag value ++ " \x7d"
  | portIn => "PortIn" | portInChecked => "PortInChecked"
  | portOut => "PortOut" | portOutChecked => "PortOutChecked"
  | halt => "Halt" | haltChecked => "HaltChecked"
  | setCr0 => "SetCr0"

def ofText? (s : String) : Option Fragment := all.find? (·.text == s)

end Fragment

end Dynarec
