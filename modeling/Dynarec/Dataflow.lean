import Dynarec.Rule
import Dynarec.Table

namespace Dynarec

structure Node where
  index : Nat
  deriving DecidableEq, Repr

instance : Key Node := ⟨Node.index⟩

namespace Node

def text (n : Node) : String := "Node(" ++ toString n.index ++ ")"

end Node

inductive Kind
  | entry (e : Element)
  | constant (value : UInt32)
  | op (microcode : Microcode) (element : Element) (fragment : Fragment)
  deriving DecidableEq, Repr

namespace Kind

def text : Kind → String
  | entry e => "Entry(" ++ e.name ++ ")"
  | constant value => "Constant(" ++ toString value.toNat ++ ")"
  | op microcode element fragment =>
    "Op \x7b microcode: " ++ microcode.name ++ ", element: " ++ element.name ++
      ", fragment: " ++ fragment.text ++ " \x7d"

end Kind

structure Definition where
  kind : Kind
  inputs : List Node
  -- The number of the instruction that made the definition, from one. Zero on entry.
  x86Index : Nat
  hasEffect : Bool
  canFault : Bool
  switchesMode : Bool
  deriving DecidableEq, Repr

namespace Definition

/-- The node keeps its place in program order among all such nodes. -/
def isOrdered (d : Definition) : Bool := d.hasEffect || d.canFault

def ofEntry (e : Element) : Definition := ⟨.entry e, [], 0, false, false, false⟩

def ofConstant (value : UInt32) (x86Index : Nat) : Definition :=
  ⟨.constant value, [], x86Index, false, false, false⟩

def ofTarget (m : Microcode) (t : Target) (x86Index : Nat) (inputs : List Node) : Definition :=
  ⟨.op m t.element t.fragment, inputs, x86Index, t.hasEffect, t.canFault, t.switchesMode⟩

def text (d : Definition) : String :=
  d.kind.text ++ " (" ++ Text.commaSeparated (d.inputs.map Node.text) ++ ")" ++
    (if d.hasEffect then " effect" else "") ++ (if d.canFault then " faults" else "")

end Definition

structure Dataflow where
  definitions : Array Definition
  deriving DecidableEq, Repr

namespace Dataflow

inductive Misuse
  | notPersistent (e : Element)
  | wrongInputCount (f : Fragment) (count : Nat)
  | laterInput (n : Node)
  deriving DecidableEq, Repr

def empty : Dataflow := ⟨#[]⟩

def size (d : Dataflow) : Nat := d.definitions.size

def get? (d : Dataflow) (n : Node) : Option Definition := d.definitions[n.index]?

def next (d : Dataflow) : Node := ⟨d.size⟩

def push (d : Dataflow) (definition : Definition) : Dataflow := ⟨d.definitions.push definition⟩

def nodes (d : Dataflow) : List Node := (List.range d.size).map Node.mk

def addEntry (d : Dataflow) (e : Element) : Except Misuse Dataflow :=
  if e.isPersistent then .ok (d.push (.ofEntry e)) else .error (.notPersistent e)

def addConstant (d : Dataflow) (value : UInt32) (x86Index : Nat) : Dataflow :=
  d.push (.ofConstant value x86Index)

/-- Adds a target applied to nodes made before, as many as the target reads. -/
def addOp (d : Dataflow) (m : Microcode) (t : Target) (x86Index : Nat) (inputs : List Node) :
    Except Misuse Dataflow :=
  if inputs.length ≠ t.fragment.arity then .error (.wrongInputCount t.fragment inputs.length)
  else match inputs.find? (fun n => d.size ≤ n.index) with
    | some n => .error (.laterInput n)
    | none => .ok (d.push (.ofTarget m t x86Index inputs))

def isOrdered (d : Dataflow) (n : Node) : Bool := (d.get? n).any Definition.isOrdered

def inputs (d : Dataflow) (n : Node) : List Node :=
  match d.get? n with
  | none => []
  | some definition => definition.inputs

def listing (d : Dataflow) : String :=
  "Dataflow" ++ Text.bracketed
    (d.definitions.toList.zipIdx.map fun (definition, i) => (Node.mk i).text ++ " <- " ++ definition.text)

end Dataflow

end Dynarec
