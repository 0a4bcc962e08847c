import Dynarec.Fragment
import Dynarec.Microcode

namespace Dynarec

inductive Operand
  | element (e : Element)
  | immediate
  -- The bytes executed since the instruction pointer was last defined, up to the end of the current instruction.
  | length
  deriving DecidableEq, Repr

namespace Operand

def text : Operand → String
  | element e => "Element(" ++ e.name ++ ")"
  | immediate => "Immediate"
  | length => "X86Length"

end Operand

structure Target where
  element : Element
  inputs : List Operand
  fragment : Fragment
  -- The fragment runs even if nobody uses its value.
  hasEffect : Bool
  canFault : Bool
  switchesMode : Bool
  deriving DecidableEq, Repr

namespace Target

def isOrdered (t : Target) : Bool := t.hasEffect || t.canFault

def plain (element : Element) (inputs : List Operand) (fragment : Fragment) : Target :=
  ⟨element, inputs, fragment, false, false, false⟩

def effect (element : Element) (inputs : List Operand) (fragment : Fragment) : Target :=
  ⟨element, inputs, fragment, true, false, false⟩

def faulting (element : Element) (inputs : List Operand) (fragment : Fragment) : Target :=
  ⟨element, inputs, fragment, false, true, false⟩

def faultingEffect (element : Element) (inputs : List Operand) (fragment : Fragment) : Target :=
  ⟨element, inputs, fragment, true, true, false⟩

def switching (element : Element) (inputs : List Operand) (fragment : Fragment) : Target :=
  ⟨element, inputs, fragment, true, false, true⟩

end Target

namespace Rule

def reads (elements : List Element) : List Operand := elements.map .element

/-- An operation on both operands leaves its result in the first and keeps the first operand for
the flag microcodes that follow. -/
def binary (f : Fragment) : List Target :=
  [.plain .reg0 (reads [.reg0, .reg1]) f, .plain .reg2 (reads [.reg0]) .identity]

def unary (f : Fragment) : List Target :=
  [.plain .reg0 (reads [.reg0]) f, .plain .reg2 (reads [.reg0]) .identity]

def operation : List Operand := reads [.reg2, .reg1, .reg0]

def resultFlags : List Target :=
  [.plain .zero (reads [.reg0]) .zeroResult,
   .plain .sign (reads [.reg0]) .signResult,
   .plain .parity (reads [.reg0]) .parityResult]

def interruptFlag (mode : Mode) (value : Bool) : Target :=
  match mode with
  | .real => .plain .interrupt [] (if value then .one else .zero)
  | .protectedMode => .faulting .interrupt (reads [.cpl, .iopl]) (.ioplCheck value)
  | .virtual8086 => .faulting .interrupt (reads [.iopl]) (.vm86IoplCheck value)

def storeSegment (mode : Mode) (e : Element) : Target :=
  match mode with
  | .protectedMode => .faulting e (reads [.reg0]) (.loadSegment e)
  | .real | .virtual8086 => .plain e (reads [.reg0]) .selector

def isWide : Mode → Bool
  | .protectedMode => true
  | .real | .virtual8086 => false

def advance (mode : Mode) : Fragment := if isWide mode then .add else .advance16

def conditionalJump (mode : Mode) (taken : Bool) : List Target :=
  [.plain .eip [.element .zero, .element .eip, .length, .immediate] (.branch taken (isWide mode))]

/-- What `microcode` does in `mode`, or nothing if it cannot be compiled there. -/
def targets? (mode : Mode) : Microcode → Option (List Target)
  | .load0 r => some [.plain .reg0 (reads [r.element]) .identity]
  | .load1 r => some [.plain .reg1 (reads [r.element]) .identity]
  | .store0 r => some [.plain r.element (reads [.reg0]) .identity]
  | .load0Imm => some [.plain .reg0 [.immediate] .identity]
  | .load1Imm => some [.plain .reg1 [.immediate] .identity]
  | .load2Imm => some [.plain .reg2 [.immediate] .identity]
  | .memReset => some [.plain .addr0 [] .zero]
  | .addrImm => some [.plain .addr0 [.element .addr0, .immediate] .add]
  | .addr b => some [.plain .addr0 (reads [.addr0, b.element]) .add]
  | .loadSeg s => some [.plain .seg0 (reads [s.element]) .identity]
  | .load0Mem w => some [.faulting .reg0 (reads [.seg0, .addr0]) (.load w)]
  | .store0Mem w => some [.faultingEffect .memoryWrite (reads [.seg0, .addr0, .reg0]) (.store w)]
  | .storeSeg s => some [storeSegment mode s.element]
  | .add => some (binary .add)
  | .sub => some (binary .sub)
  | .and => some (binary .and)
  | .or => some (binary .or)
  | .xor => some (binary .xor)
  | .shl => some (binary .shl)
  | .shr => some (binary .shr)
  | .sar => some (binary .sar)
  | .inc => some (unary .inc)
  | .dec => some (unary .dec)
  | .neg => some (unary .neg)
  | .not => some [.plain .reg0 (reads [.reg0]) .not]
  | .div => some
      [.faulting .reg0 (reads [.reg0, .reg1]) .divQuotient,
       .faulting .reg1 (reads [.reg0, .reg1]) .divRemainder]
  | .addFlags => some
      ([.plain .carry operation .carryAdd,
        .plain .overflow operation .overflowAdd,
        .plain .auxiliary operation .auxiliaryCarry] ++ resultFlags)
  | .subFlags => some
      ([.plain .carry operation .carrySub,
        .plain .overflow operation .overflowSub,
        .plain .auxiliary operation .auxiliaryCarry] ++ resultFlags)
  | .logicFlags => some
      ([.plain .carry [] .zero, .plain .overflow [] .zero, .plain .auxiliary [] .zero] ++ resultFlags)
  | .incFlags => some
      ([.plain .overflow (reads [.reg0]) .overflowInc,
        .plain .auxiliary (reads [.reg0]) .auxiliaryInc] ++ resultFlags)
  | .clc => some [.plain .carry [] .zero]
  | .stc => some [.plain .carry [] .one]
  | .cmc => some [.plain .carry (reads [.carry]) .complement]
  | .cld => some [.plain .direction [] .zero]
  | .std => some [.plain .direction [] .one]
  | .cli => some [interruptFlag mode false]
  | .sti => some [interruptFlag mode true]
  | .eipUpdate => some [.plain .eip [.element .eip, .length] (advance mode)]
  | .jumpRel => some
      [.plain .eip [.element .eip, .length, .immediate] (if isWide mode then .jump else .jump16)]
  | .jumpZero => some (conditionalJump mode true)
  | .jumpNotZero => some (conditionalJump mode false)
  | .push32 => some
      [.plain .esp (reads [.esp]) .minus4,
       .faultingEffect .memoryWrite (reads [.ss, .esp, .reg0]) .pushStore]
  | .pop32 => some
      [.faulting .reg0 (reads [.ss, .esp]) (.load .four),
       .plain .esp (reads [.esp]) .plus4]
  | .inByte => some [match mode with
      | .protectedMode => .faultingEffect .reg0 (reads [.cpl, .iopl, .reg0]) .portInChecked
      | .real | .virtual8086 => .effect .reg0 (reads [.reg0]) .portIn]
  | .outByte => some [match mode with
      | .protectedMode =>
        .faultingEffect .ioPortWrite (reads [.cpl, .iopl, .reg0, .reg1]) .portOutChecked
      | .real | .virtual8086 => .effect .ioPortWrite (reads [.reg0, .reg1]) .portOut]
  | .hlt => match mode with
      | .real => some [.effect .executeCount [] .halt]
      | .protectedMode => some [.faultingEffect .executeCount (reads [.cpl]) .haltChecked]
      | .virtual8086 => none
  | .storeCr0 => match mode with
      | .real | .protectedMode => some [.switching .cpu (reads [.reg0]) .setCr0]
      | .virtual8086 => none
  | .cpuid | .repMovsb => none

theorem all_arity (mode : Mode) (m : Microcode) :
    ((targets? mode m).getD []).all (fun t => t.fragment.arity == t.inputs.length) = true := by
  cases m <;> cases mode <;> rfl

theorem arity_eq_length_inputs {mode : Mode} {m : Microcode} {ts : List Target} {t : Target}
    (h : targets? mode m = some ts) (ht : t ∈ ts) : t.fragment.arity = t.inputs.length := by
  have hall := all_arity mode m
  rw [h, Option.getD_some, List.all_eq_true] at hall
  exact eq_of_beq (hall t ht)

end Rule

end Dynarec
