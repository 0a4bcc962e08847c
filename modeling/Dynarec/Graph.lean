import Dynarec.Run

namespace Dynarec

abbrev Definitions := ElementMap (Option Node)

namespace Definitions

/-- The definitions of committed elements that differ from those on entry, in element order. -/
def changedFrom (current entry : Definitions) : List (Element × Node) :=
  (Element.all.filter Element.isCommitted).filterMap fun e =>
    match current.get e with
    | none => none
    | some n => if current.get e = entry.get e then none else some (e, n)

end Definitions

/-- The state at the start of an instruction that can fault, which is what a fault inside it leaves
behind. -/
structure Boundary where
  x86Index : Nat
  -- The byte offset of the start of the instruction.
  position : UInt32
  snapshot : List (Element × Node)
  eip : Node
  -- The bytes executed since the instruction pointer was defined.
  eipLag : UInt32
  nodes : List Node
  deriving DecidableEq, Repr

structure Graph where
  mode : Mode
  dataflow : Dataflow
  ordered : List Node
  sinks : List (Element × Node)
  boundaries : List Boundary
  deriving DecidableEq, Repr

namespace Graph

/-- Entry nodes come first, and among them that of the instruction pointer. -/
def entryElements : List Element :=
  .eip :: Element.all.filter fun e => e.isPersistent && e != .eip

def entryDataflow : Dataflow := ⟨(entryElements.map Definition.ofEntry).toArray⟩

def entryDefinitions : Definitions :=
  ElementMap.ofFn fun e => (entryElements.idxOf? e).map Node.mk

def entryEip : Node := ⟨0⟩

structure Builder where
  dataflow : Dataflow
  current : Definitions
  eipSynced : UInt32
  position : UInt32
  -- The state at the start of the current instruction, as a boundary without nodes.
  start : Boundary
  ordered : Array Node
  boundaries : Array Boundary

namespace Builder

def initial : Builder :=
  { dataflow := entryDataflow
    current := entryDefinitions
    eipSynced := 0
    position := 0
    start := ⟨0, 0, [], entryEip, 0, []⟩
    ordered := #[]
    boundaries := #[] }

def enter (b : Builder) (x86Index : Nat) : Builder :=
  if b.start.x86Index = x86Index then b
  else { b with
    start :=
      { x86Index
        position := b.position
        snapshot := b.current.changedFrom entryDefinitions
        eip := (b.current.get .eip).getD entryEip
        eipLag := b.position - b.eipSynced
        nodes := [] } }

def push (b : Builder) (d : Definition) : Node × Builder :=
  (b.dataflow.next, { b with dataflow := b.dataflow.push d })

def operand (b : Builder) (op : MicroOp) (m : Microcode) : Operand → Except CompileError (Node × Builder)
  | .element e =>
    match b.current.get e with
    | some n => .ok (n, b)
    | none => .error (.undefinedOperand m e)
  | .immediate =>
    match op.immediate with
    | some value => .ok (b.push (.ofConstant value op.x86Index))
    | none => .error (.missingImmediate m op.x86Index)
  | .length => .ok (b.push (.ofConstant (op.position - b.eipSynced) op.x86Index))

def operands (op : MicroOp) (m : Microcode) :
    Builder → List Operand → Except CompileError (List Node × Builder)
  | b, [] => .ok ([], b)
  | b, o :: rest => do
    let (n, b) ← b.operand op m o
    let (ns, b) ← operands op m b rest
    return (n :: ns, b)

/-- Puts a node that can fault under the boundary of its instruction, which the first such node
opens. -/
def protect (b : Builder) (n : Node) : Builder :=
  match b.boundaries.back? with
  | some last =>
    if last.x86Index = b.start.x86Index then
      { b with boundaries := b.boundaries.pop.push { last with nodes := last.nodes ++ [n] } }
    else { b with boundaries := b.boundaries.push { b.start with nodes := [n] } }
  | none => { b with boundaries := b.boundaries.push { b.start with nodes := [n] } }

def target (last : Nat) (op : MicroOp) (m : Microcode) (b : Builder) (t : Target) :
    Except CompileError (Node × Builder) := do
  let (inputs, b) ← operands op m b t.inputs
  let (n, b) := b.push (.ofTarget m t op.x86Index inputs)
  if t.switchesMode ∧ op.x86Index ≠ last then .error (.modeSwitchNotLast m)
  else
    let b := if t.isOrdered then { b with ordered := b.ordered.push n } else b
    return (n, if t.canFault then b.protect n else b)

def targets (last : Nat) (op : MicroOp) (m : Microcode) :
    Builder → List Target → Except CompileError (List (Element × Node) × Builder)
  | b, [] => .ok ([], b)
  | b, t :: rest => do
    let (n, b) ← target last op m b t
    let (defined, b) ← targets last op m b rest
    return ((t.element, n) :: defined, b)

def define (position : UInt32) (b : Builder) (definition : Element × Node) : Builder :=
  { b with
    current := b.current.set definition.1 (some definition.2)
    eipSynced := if definition.1 = .eip then position else b.eipSynced }

/-- Walks one micro-op. All its inputs are read before any of its targets is defined. -/
def step (mode : Mode) (last : Nat) (b : Builder) (op : MicroOp) : Except CompileError Builder := do
  let b := b.enter op.x86Index
  let m ← op.microcode
  match Rule.targets? mode m with
  | none => .error (.unsupported mode m)
  | some ts =>
    let (defined, b) ← targets last op m b ts
    return { defined.foldl (define op.position) b with position := op.position }

end Builder

def build (mode : Mode) (run : Run) : Except CompileError Graph := do
  let b ← run.ops.foldlM (Builder.step mode run.x86Count) Builder.initial
  return {
    mode
    dataflow := b.dataflow
    ordered := b.ordered.toList
    sinks := b.current.changedFrom entryDefinitions
    boundaries := b.boundaries.toList }

end Graph

end Dynarec
