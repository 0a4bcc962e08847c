import Dynarec.Outcome
import Dynarec.Trace

namespace Dynarec

/-- What there is at an address. Looking may change the memory. -/
inductive Lookup (μ β : Type)
  | code (fetch : SubMode → β × μ)
  | notCode (memory : μ)
  | pageFault (fault : Fault) (memory : μ)

class CodeMemory (μ : Type) (β : outParam Type) where
  lookup : Space → UInt32 → μ → Lookup μ β

inductive Notice (β : Type)
  | decoded (address : UInt32) (space : Space) (block : β)
  | executed (address : UInt32) (space : Space) (block : β)
  deriving DecidableEq, Repr

structure Dispatcher (μ β : Type) where
  memory : μ
  trace : Trace β
  -- How many instructions there were in the blocks executed and decoded.
  instructionsRun : UInt64
  instructionsDecoded : UInt64
  listening : Bool
  -- What was heard while listening, oldest first.
  notices : Array (Notice β)

namespace Notice

variable {β : Type} [Described β]

def line (what : String) (address : UInt32) (space : Space) (block : β) : String :=
  String.intercalate " " [what, toString address.toNat, space.text, (Described.info block).name]

def text : Notice β → String
  | decoded address space block => line "decoded" address space block
  | executed address space block => line "executed" address space block

end Notice

namespace Dispatcher

/-- How many page faults are delivered for one block before it is given up, not counting the last. -/
def maxFaultRetries : Nat := 8

def maxReplacements : Nat := 8

variable {μ β σ : Type}

def new (traceCapacity : Nat) (memory : μ) : Dispatcher μ β := ⟨memory, .new traceCapacity, 0, 0, false, #[]⟩

def instructions (d : Dispatcher μ β) : Nat := d.instructionsRun.toNat

def decoded (d : Dispatcher μ β) : Nat := d.instructionsDecoded.toNat

def notify (d : Dispatcher μ β) (n : Notice β) : Dispatcher μ β :=
  if d.listening then { d with notices := d.notices.push n } else d

def noteDecoded [Described β] (d : Dispatcher μ β) (address : UInt32) (space : Space) (b : β) :
    Dispatcher μ β :=
  notify { d with instructionsDecoded := d.instructionsDecoded + .ofNat (Described.info b).x86Count }
    (.decoded address space b)

def noteExecuted [Described β] (d : Dispatcher μ β) (address : UInt32) (space : Space) (b : β) :
    Dispatcher μ β :=
  let d := d.notify (.executed address space b)
  { d with trace := d.trace.record ⟨address, b⟩
           instructionsRun := d.instructionsRun + .ofNat (Described.info b).x86Count }

def decodeWithin [Processor σ] [CodeMemory μ β] [Described β] :
    Nat → UInt32 → Dispatcher μ β → σ → Except DecodeError β × Dispatcher μ β × σ
  | 0, address, d, cpu => (.error (.faultLoop address maxFaultRetries), d, cpu)
  | attempts + 1, address, d, cpu =>
    let space := Processor.space cpu
    match CodeMemory.lookup space address d.memory with
    | .code fetch =>
      let (b, memory) := fetch (Processor.subMode cpu)
      (.ok b, noteDecoded { d with memory } address space b, cpu)
    | .notCode memory => (.error (.notCode address), { d with memory }, cpu)
    | .pageFault fault memory =>
      match space with
      | .physical => (.error (.unexpectedPageFault address fault), { d with memory }, cpu)
      | .linear =>
        let cpu := Processor.deliver .protectedMode fault cpu
        decodeWithin attempts (Processor.instructionPointer cpu) { d with memory } cpu

/-- The block at an address in the sub-mode of the processor. A page fault in protected mode is
delivered, and the lookup is tried again where the processor resumes. -/
def decodeAt [Processor σ] [CodeMemory μ β] [Described β] (address : UInt32) (d : Dispatcher μ β) (cpu : σ) :
    Except DecodeError β × Dispatcher μ β × σ :=
  decodeWithin (maxFaultRetries + 1) address d cpu

def settle [Processor σ] (mode : Mode) : Ending → σ → σ
  | .completed count, cpu => Processor.serviceInterrupts mode count cpu
  | .faulted fault _, cpu => Processor.deliver mode fault cpu
  | .switched, cpu | .broken _, cpu => cpu

/-- Runs a block, or what it is replaced by after at most so many replacements. Gives the last block
that ran. -/
def follow [Processor σ] [CodeBlock β σ] (b : β) (cpu : σ) (replacements : Nat) : β × σ :=
  match CodeBlock.execute b cpu with
  | (.ended e, cpu) => (b, settle (Described.info b).mode e cpu)
  | (.replaced next, cpu) =>
    match replacements with
    | 0 => (b, cpu)
    | n + 1 => follow next cpu n
termination_by structural replacements

def execute [Processor σ] [CodeMemory μ β] [CodeBlock β σ] (d : Dispatcher μ β) (cpu : σ) :
    Except DecodeError β × Dispatcher μ β × σ :=
  let address := Processor.instructionPointer cpu
  match d.decodeAt address cpu with
  | (.error e, d, cpu) => (.error e, d, cpu)
  | (.ok first, d, cpu) =>
    let (b, cpu) := follow first cpu maxReplacements
    (.ok b, d.noteExecuted address (Processor.space cpu) b, cpu)

def reset (d : Dispatcher μ β) : Dispatcher μ β :=
  { d with trace := d.trace.reset, instructionsRun := 0, instructionsDecoded := 0 }

def text (d : Dispatcher μ β) (memory : String) : String :=
  "Driver \x7b memory: " ++ memory ++ ", trace_length: " ++ toString d.trace.length
    ++ ", instructions: " ++ toString d.instructions ++ ", decoded: " ++ toString d.decoded ++ " \x7d"

end Dispatcher

end Dynarec
