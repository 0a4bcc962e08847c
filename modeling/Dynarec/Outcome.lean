import Dynarec.Dataflow

namespace Dynarec

inductive Malformation
  | ranOffEnd | unreadableElement | slotOutOfRange | uncommittableElement
  | wrongTerminator | valuesLeft | stackUnderflow
  deriving DecidableEq, Repr

namespace Malformation

def message : Malformation → String
  | ranOffEnd => "ran off the end"
  | unreadableElement => "unreadable element"
  | slotOutOfRange => "slot out of range"
  | uncommittableElement => "uncommittable element"
  | wrongTerminator => "wrong terminator"
  | valuesLeft => "values left on the stack"
  | stackUnderflow => "stack underflow"

end Malformation

/-- Why a run is too long, no body is generated for a graph, or a body is refused. -/
inductive Rejection
  | numberOverflow
  | reusedWithoutSlot (n : Node)
  | usedBeforeItRan (n : Node)
  | handlerNeedsSlot (n : Node)
  | unknownNode (n : Node)
  | noInstruction
  | tooManyOps (count : Nat)
  | tooManySlots (count : Nat)
  | tooDeepStack (depth : Nat)
  | malformed (what : Malformation) (pc : Nat)
  | badHandlerRange (start stop : Nat)
  | misplacedHandler (target expected : Nat)
  | unreachableOps (pc : Nat)
  deriving DecidableEq, Repr

namespace Rejection

def message : Rejection → String
  | numberOverflow => "instruction number overflow"
  | reusedWithoutSlot n => "reused without a slot " ++ n.text
  | usedBeforeItRan n => "ordered node used before it ran " ++ n.text
  | handlerNeedsSlot n => "handler needs " ++ n.text ++ ", which has no slot"
  | unknownNode n => "no such node " ++ n.text
  | noInstruction => "handler for no instruction"
  | tooManyOps count => toString count ++ " ops"
  | tooManySlots count => toString count ++ " slots"
  | tooDeepStack depth => "stack of " ++ toString depth
  | malformed what pc => what.message ++ " at " ++ toString pc
  | badHandlerRange start stop => "bad handler range " ++ toString start ++ ".." ++ toString stop
  | misplacedHandler target expected =>
    "handler at " ++ toString target ++ " does not follow " ++ toString expected
  | unreachableOps pc => "unreachable ops from " ++ toString pc

end Rejection

inductive CompileError
  | empty
  | unknownMicrocode (word : UInt32) (x86Index : Nat)
  | missingImmediate (m : Microcode) (x86Index : Nat)
  | unsupported (mode : Mode) (m : Microcode)
  | undefinedOperand (m : Microcode) (e : Element)
  | modeSwitchNotLast (m : Microcode)
  | rejected (reason : Rejection)
  deriving DecidableEq, Repr

namespace CompileError

def message : CompileError → String
  | empty => "instruction source yielded no instructions"
  | unknownMicrocode word x86Index =>
    "unknown microcode " ++ Text.hex word.toNat ++ " in instruction " ++ toString x86Index
  | missingImmediate m x86Index =>
    m.name ++ " in instruction " ++ toString x86Index ++ " is missing its immediate"
  | unsupported mode m => "no " ++ mode.text ++ " mode emission rule for " ++ m.name
  | undefinedOperand m e => m.name ++ " reads " ++ e.name ++ " before it is defined"
  | modeSwitchNotLast m => m.name ++ " can switch mode but is not in the last instruction"
  | rejected reason => "procedure rejected by verifier: " ++ reason.message

end CompileError

inductive DecodeError
  | notCode (address : UInt32)
  | unexpectedPageFault (address : UInt32) (fault : Fault)
  | faultLoop (address : UInt32) (retries : Nat)
  deriving DecidableEq, Repr

namespace DecodeError

def message : DecodeError → String
  | notCode address => "address " ++ Text.hex address.toNat ++ " is not backed by decoded code"
  | unexpectedPageFault address fault =>
    fault.message ++ " while fetching code at " ++ Text.hex address.toNat ++ " outside protected mode"
  | faultLoop address retries =>
    "gave up fetching code after " ++ toString retries ++ " faults, last at " ++ Text.hex address.toNat

end DecodeError

/-- How a stretch of code that was not replaced ended. -/
inductive Ending
  | completed (count : Nat)
  -- A fault. The state left is that at the start of the faulting instruction, and so many instructions were
  -- executed before it.
  | faulted (fault : Fault) (retired : Nat)
  | switched
  -- The code is not well formed. Verified code never ends so.
  | broken (what : Malformation)
  deriving DecidableEq, Repr

inductive Outcome (β : Type)
  | ended (e : Ending)
  | replaced (next : β)
  deriving DecidableEq, Repr

structure BlockInfo where
  name : String
  mode : Mode
  x86Count : Nat
  x86Length : UInt32
  deriving DecidableEq, Repr

class Described (β : Type) where
  info : β → BlockInfo

class CodeBlock (β σ : Type) extends Described β where
  execute : β → σ → Outcome β × σ

namespace Ending

def text : Ending → String
  | completed count => "Ok(" ++ toString count ++ ")"
  | faulted fault retired => "Fault(" ++ fault.text ++ ", " ++ toString retired ++ ")"
  | switched => "ModeSwitch"
  | broken what => "Broken(" ++ what.message ++ ")"

end Ending

namespace Outcome

def text {β : Type} [Described β] : Outcome β → String
  | ended e => e.text
  | replaced next => "Replace(" ++ (Described.info next).name ++ ")"

end Outcome

end Dynarec
