import Dynarec.Graph
import Dynarec.Outcome

namespace Dynarec

namespace Interpreter

variable {σ : Type} [Processor σ]

structure Progress where
  defined : ElementMap (Option UInt32)
  eipSynced : UInt32
  position : UInt32

structure Start where
  x86Index : Nat
  defined : ElementMap (Option UInt32)
  lag : UInt32

def entryValues (cpu : σ) : ElementMap UInt32 :=
  ElementMap.ofFn fun e => if e.isReadable then Processor.get cpu e else 0

def Progress.initial : Progress := ⟨ElementMap.replicate none, 0, 0⟩

def Progress.value (entry : ElementMap UInt32) (p : Progress) (e : Element) : UInt32 :=
  (p.defined.get e).getD (entry.get e)

def Start.follow (start : Start) (p : Progress) (x86Index : Nat) : Start :=
  if start.x86Index = x86Index then start else ⟨x86Index, p.defined, p.position - p.eipSynced⟩

def operand? (entry : ElementMap UInt32) (p : Progress) (op : MicroOp) : Operand → Option UInt32
  | .element e => some (p.value entry e)
  | .immediate => op.immediate
  | .length => some (op.position - p.eipSynced)

structure Targets where
  results : List (Element × UInt32)
  switched : Bool

def targets? (entry : ElementMap UInt32) (p : Progress) (op : MicroOp) :
    List Target → σ → Option (Except Fault Targets × σ)
  | [], cpu => some (.ok ⟨[], false⟩, cpu)
  | t :: rest, cpu => do
    let args ← t.inputs.mapM (operand? entry p op)
    match ← t.fragment.evaluate? args cpu with
    | (.fault fault, cpu) => return (.error fault, cpu)
    | (.value value, cpu) =>
      let (result, cpu) ← targets? entry p op rest cpu
      return (result.map fun ts => { ts with results := (t.element, value) :: ts.results }, cpu)
    | (.modeSwitch, cpu) =>
      let (result, cpu) ← targets? entry p op rest cpu
      return (result.map fun ts => ⟨(t.element, 0) :: ts.results, true⟩, cpu)

def define (position : UInt32) (p : Progress) (result : Element × UInt32) : Progress :=
  { p with
    defined := p.defined.set result.1 (some result.2)
    eipSynced := if result.1 = .eip then position else p.eipSynced }

def commit (defined : ElementMap (Option UInt32)) (cpu : σ) : σ :=
  (Element.all.filter Element.isCommitted).foldl
    (fun cpu e => match defined.get e with
      | none => cpu
      | some value => Processor.set e value cpu)
    cpu

/-- Outside protected mode the instruction pointer has sixteen bits. -/
def wrapEip (mode : Mode) (eip : UInt32) : UInt32 := if Rule.isWide mode then eip else eip &&& 0xFFFF

/-- The definitions that a fault leaves: those at the start of its instruction, with the instruction
pointer brought up to date. -/
def restart (mode : Mode) (entry : ElementMap UInt32) (start : Start) : ElementMap (Option UInt32) :=
  if start.lag = 0 then start.defined
  else
    let eip := (start.defined.get .eip).getD (entry.get .eip)
    start.defined.set .eip (some (wrapEip mode (eip + start.lag)))

/-- Walks the micro-ops of a run that covers `x86Count` instructions. Fails on a word without a
meaning in `mode`, and where an immediate is missing. -/
def walk? (mode : Mode) (x86Count : Nat) (entry : ElementMap UInt32) :
    List MicroOp → Start → Progress → Bool → σ → Option (Ending × σ)
  | [], _, p, switched, cpu =>
    some (if switched then .switched else .completed x86Count, commit p.defined cpu)
  | op :: rest, start, p, switched, cpu => do
    let start := start.follow p op.x86Index
    let m ← Microcode.ofWord? op.word
    let ts ← Rule.targets? mode m
    match ← targets? entry p op ts cpu with
    | (.error fault, cpu) =>
      return (.faulted (mode.asDelivered fault) (op.x86Index - 1), commit (restart mode entry start) cpu)
    | (.ok done, cpu) =>
      let p := { done.results.foldl (define op.position) p with position := op.position }
      walk? mode x86Count entry rest start p (switched || done.switched) cpu

def run? (mode : Mode) (run : Run) (cpu : σ) : Option (Ending × σ) :=
  walk? mode run.x86Count (entryValues cpu) run.ops ⟨0, ElementMap.replicate none, 0⟩
    Progress.initial false cpu

end Interpreter

end Dynarec
