import Dynarec.Body.Generate
import Dynarec.Body.Verify
import Dynarec.Outcome

namespace Dynarec

structure Frame (σ : Type) where
  cpu : σ
  stack : List UInt32
  slots : Table Slot UInt32
  switched : Bool

inductive Stop
  | returned
  | rethrown (retired : Nat)
  | faulted (fault : Fault)
  | broken (what : Malformation)
  deriving DecidableEq, Repr

namespace Frame

variable {σ : Type}

def initial (slots : Nat) (cpu : σ) : Frame σ := ⟨cpu, [], Table.replicate slots 0, false⟩

def push (f : Frame σ) (value : UInt32) : Frame σ := { f with stack := value :: f.stack }

variable [Processor σ]

/-- Replaces the arguments of a fragment, the last of which is on top, by its value. -/
def apply (fragment : Fragment) (f : Frame σ) : Option Stop × Frame σ :=
  if fragment.arity ≤ f.stack.length then
    let args := (f.stack.take fragment.arity).reverse
    let rest := f.stack.drop fragment.arity
    match fragment.perform (args.getD · 0) f.cpu with
    | (.value value, cpu) => (none, { f with cpu, stack := value :: rest })
    | (.modeSwitch, cpu) => (none, { f with cpu, stack := 0 :: rest, switched := true })
    | (.fault fault, cpu) => (some (.faulted fault), { f with cpu, stack := rest })
  else (some (.broken .stackUnderflow), f)

def step (op : Op) (f : Frame σ) : Option Stop × Frame σ :=
  match op with
  | .read e => (none, f.push (Processor.get f.cpu e))
  | .constant value => (none, f.push value)
  | .apply fragment => f.apply fragment
  | .save slot =>
    match f.stack with
    | [] => (some (.broken .stackUnderflow), f)
    | value :: _ =>
      if slot.index < f.slots.size then (none, { f with slots := f.slots.set slot value })
      else (some (.broken .slotOutOfRange), f)
  | .restore slot =>
    match f.slots.get? slot with
    | none => (some (.broken .slotOutOfRange), f)
    | some value => (none, f.push value)
  | .discard =>
    match f.stack with
    | [] => (some (.broken .stackUnderflow), f)
    | _ :: rest => (none, { f with stack := rest })
  | .commit e =>
    match f.stack with
    | [] => (some (.broken .stackUnderflow), f)
    | value :: rest => (none, { f with cpu := Processor.set e value f.cpu, stack := rest })
  | .ret => (some .returned, f)
  | .rethrow retired => (some (.rethrown retired), f)

structure Halt (σ : Type) where
  stop : Stop
  pc : Nat
  frame : Frame σ

/-- Runs ops, of which the first stands at `pc`, up to the one that stops. -/
def exec : Nat → List Op → Frame σ → Halt σ
  | pc, [], f => ⟨.broken .ranOffEnd, pc, f⟩
  | pc, op :: rest, f =>
    match f.step op with
    | (none, f) => exec (pc + 1) rest f
    | (some stop, f) => ⟨stop, pc, f⟩

end Frame

namespace Body

variable {σ : Type} [Processor σ]

/-- Runs the handler of a fault that stopped the main code at `pc`, if it has one. -/
def runHandler (b : Body) (fault : Fault) (pc : Nat) (f : Frame σ) : Ending × σ :=
  match b.handlerFor? pc with
  | none => (.faulted fault 0, f.cpu)
  | some h =>
    let halt := Frame.exec h.target (b.code.drop h.target) { f with stack := [] }
    match halt.stop with
    | .rethrown retired => (.faulted fault retired, halt.frame.cpu)
    | .broken what => (.broken what, halt.frame.cpu)
    | .returned | .faulted _ => (.faulted fault h.retired, halt.frame.cpu)

def run (b : Body) (mode : Mode) (x86Count : Nat) (cpu : σ) : Ending × σ :=
  let halt := Frame.exec 0 b.code (Frame.initial b.slots cpu)
  match halt.stop with
  | .returned =>
    (if halt.frame.switched then .switched else .completed x86Count, halt.frame.cpu)
  | .rethrown _ => (.completed x86Count, halt.frame.cpu)
  | .broken what => (.broken what, halt.frame.cpu)
  | .faulted fault => b.runHandler (mode.asDelivered fault) halt.pc halt.frame

end Body

structure Procedure where
  name : String
  mode : Mode
  entries : List Entry
  x86Count : Nat
  x86Length : UInt32
  body : Body
  maxStack : Nat
  -- Tells procedures apart that were built separately, even from the same run.
  stamp : Nat
  deriving DecidableEq, Repr

namespace Procedure

def ofBody (name : String) (mode : Mode) (stamp : Nat) (run : Run) (body : Body) :
    Except Rejection Procedure := do
  let maxStack ← body.verify
  return {
    name, mode, stamp, body, maxStack
    entries := run.entries
    x86Count := run.x86Count
    x86Length := run.x86Length }

def reject {α : Type} (r : Except Rejection α) : Except CompileError α :=
  r.mapError CompileError.rejected

def build (name : String) (mode : Mode) (stamp : Nat) (run : Run) : Except CompileError Procedure := do
  let graph ← Graph.build mode run
  let body ← reject (Body.generate graph)
  reject (ofBody name mode stamp run body)

def hash (p : Procedure) : Int32 := Run.hashOf p.entries

def isFor (p : Procedure) (run : Run) : Bool := p.entries == run.entries

def words (p : Procedure) : List UInt32 := p.entries.map (·.word)

def positions (p : Procedure) : List UInt32 := p.entries.map (·.position)

def info (p : Procedure) : BlockInfo := ⟨p.name, p.mode, p.x86Count, p.x86Length⟩

def run {σ : Type} [Processor σ] (p : Procedure) (cpu : σ) : Ending × σ :=
  p.body.run p.mode p.x86Count cpu

instance : Described Procedure := ⟨info⟩

def listing (p : Procedure) : String :=
  let head := p.name ++ " (" ++ p.mode.text ++ ", " ++ toString p.x86Count ++ " instructions, " ++
    toString p.x86Length.toNat ++ " bytes, " ++ toString p.body.slots ++ " slots, stack " ++
    toString p.maxStack ++ ")"
  let ops := p.body.code.zipIdx.map fun (op, pc) => "  " ++ Text.padLeft 4 (toString pc) ++ ": " ++ op.text
  let handlers := p.body.handlers.map fun h => "  " ++ h.text
  let words := "  microcodes " ++ Text.bracketed (p.words.map fun w => toString w.toNat)
  String.intercalate "\n" ([head] ++ ops ++ handlers ++ [words])

end Procedure

end Dynarec
