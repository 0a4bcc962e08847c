import Dynarec.Body

namespace Dynarec

structure Demand where
  -- How often each node is used, by sinks and by nodes that are computed.
  uses : Table Node Nat
  reached : Table Node Bool

namespace Demand

def reach (d : Demand) (n : Node) : Demand := { d with reached := d.reached.set n true }

def use (d : Demand) (n : Node) : Demand :=
  { uses := d.uses.modify n (· + 1), reached := d.reached.set n true }

def initial (g : Graph) : Demand :=
  let size := g.dataflow.size
  let d := g.ordered.foldl reach ⟨Table.replicate size 0, Table.replicate size false⟩
  (g.sinks.map Prod.snd).foldl use d

def sweep (flow : Dataflow) : Nat → Demand → Demand
  | 0, d => d
  | n + 1, d =>
    sweep flow n (if d.reached.getD ⟨n⟩ false then (flow.inputs ⟨n⟩).foldl use d else d)

def ofGraph (g : Graph) : Demand := sweep g.dataflow g.dataflow.size (initial g)

def handlerRoots (g : Graph) : List Node :=
  g.boundaries.flatMap fun b => b.snapshot.map Prod.snd ++ [b.eip]

def mark (t : Table Node Bool) (n : Node) : Table Node Bool := t.set n true

/-- Marks the inputs of the marked nodes below `n` that handlers compute anew: all but the ordered
ones. -/
def sweepHandlers (flow : Dataflow) : Nat → Table Node Bool → Table Node Bool
  | 0, t => t
  | n + 1, t =>
    sweepHandlers flow n
      (if t.getD ⟨n⟩ false && !flow.isOrdered ⟨n⟩ then (flow.inputs ⟨n⟩).foldl mark t else t)

def referenced (g : Graph) : Table Node Bool :=
  sweepHandlers g.dataflow g.dataflow.size
    ((handlerRoots g).foldl mark (Table.replicate g.dataflow.size false))

/-- An ordered node is kept if anybody uses it, any other node if it is used twice. -/
def needsSlot (g : Graph) : Table Node Bool :=
  let uses := (ofGraph g).uses
  let referenced := referenced g
  Table.ofFn g.dataflow.size fun i =>
    if g.dataflow.isOrdered ⟨i⟩ then 1 ≤ uses.getD ⟨i⟩ 0 || referenced.getD ⟨i⟩ false
    else 2 ≤ uses.getD ⟨i⟩ 0

end Demand

inductive Status
  | pending
  | computed (slot : Option Slot)
  deriving DecidableEq, Repr

structure Emission where
  code : Array Op
  status : Table Node Status
  -- The place of the `apply` of each ordered node.
  applyAt : Table Node (Option Nat)
  slots : Nat

namespace Emission

def initial (size : Nat) : Emission :=
  ⟨#[], Table.replicate size .pending, Table.replicate size none, 0⟩

def push (s : Emission) (op : Op) : Emission := { s with code := s.code.push op }

def finish (needsSlot : Table Node Bool) (s : Emission) (n : Node) : Emission :=
  if needsSlot.getD n false then
    { s with
      code := s.code.push (.save ⟨s.slots⟩)
      status := s.status.set n (.computed (some ⟨s.slots⟩))
      slots := s.slots + 1 }
  else { s with status := s.status.set n (.computed none) }

def entryOp (e : Element) : Op := if e.isReadable then .read e else .constant 0

/-- Pushes the value of `n` in the main code, restoring what is already computed. An ordered node is
computed at its own turn, when it is the root. The inputs of a node were made before it, so `fuel`
need not exceed the number of nodes. -/
def emit (flow : Dataflow) (needsSlot : Table Node Bool) :
    Nat → Bool → Emission → Node → Except Rejection Emission
  | 0, _, _, n => .error (.unknownNode n)
  | fuel + 1, root, s, n =>
    match s.status.get? n, flow.get? n with
    | some (.computed (some slot)), _ => .ok (s.push (.restore slot))
    | some (.computed none), _ => .error (.reusedWithoutSlot n)
    | some .pending, some d =>
      if d.isOrdered && !root then .error (.usedBeforeItRan n)
      else match d.kind with
        | .entry e => .ok (finish needsSlot (s.push (entryOp e)) n)
        | .constant value => .ok (finish needsSlot (s.push (.constant value)) n)
        | .op _ _ fragment => do
          let s ← d.inputs.foldlM (emit flow needsSlot fuel false) s
          let s := if d.isOrdered then { s with applyAt := s.applyAt.set n (some s.code.size) } else s
          return finish needsSlot (s.push (.apply fragment)) n
    | _, _ => .error (.unknownNode n)

def emitFresh (flow : Dataflow) (status : Table Node Status) :
    Nat → Array Op → Node → Except Rejection (Array Op)
  | 0, _, n => .error (.unknownNode n)
  | fuel + 1, code, n =>
    match flow.get? n with
    | none => .error (.unknownNode n)
    | some d =>
      if d.isOrdered then
        match status.get? n with
        | some (.computed (some slot)) => .ok (code.push (.restore slot))
        | _ => .error (.handlerNeedsSlot n)
      else match d.kind with
        | .entry e => .ok (code.push (entryOp e))
        | .constant value => .ok (code.push (.constant value))
        | .op _ _ fragment => do
          let code ← d.inputs.foldlM (emitFresh flow status fuel) code
          return code.push (.apply fragment)

end Emission

end Dynarec
