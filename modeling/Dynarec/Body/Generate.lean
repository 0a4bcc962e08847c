import Dynarec.Body.Emission

namespace Dynarec

namespace Body

def emitOrdered (flow : Dataflow) (needsSlot : Table Node Bool) (s : Emission) (n : Node) :
    Except Rejection Emission := do
  let s ← Emission.emit flow needsSlot flow.size true s n
  return s.push .discard

def commits (state : List (Element × Node)) : List Op := state.reverse.map fun p => .commit p.1

/-- Every ordered node in order, then the sinks, which are committed together at the end. -/
def emitMain (g : Graph) (needsSlot : Table Node Bool) : Except Rejection Emission := do
  let s ← g.ordered.foldlM (emitOrdered g.dataflow needsSlot) (Emission.initial g.dataflow.size)
  let s ← (g.sinks.map Prod.snd).foldlM (Emission.emit g.dataflow needsSlot g.dataflow.size true) s
  return { s with code := s.code ++ (commits g.sinks).toArray.push .ret }

def insertInOrder (p : Element × Node) : List (Element × Node) → List (Element × Node)
  | [] => [p]
  | q :: rest => if p.1.index ≤ q.1.index then p :: q :: rest else q :: insertInOrder p rest

def inElementOrder (state : List (Element × Node)) : List (Element × Node) :=
  state.foldr insertInOrder []

/-- What a handler commits: the snapshot, and the instruction pointer if it lags behind. -/
def handlerState (b : Boundary) : List (Element × Node) :=
  if b.eipLag ≠ 0 ∧ b.snapshot.all (fun p => p.1 != .eip) then
    inElementOrder (b.snapshot ++ [(.eip, b.eip)])
  else b.snapshot

def emitState (g : Graph) (status : Table Node Status) (eipLag : UInt32) (code : Array Op)
    (p : Element × Node) : Except Rejection (Array Op) := do
  let code ← Emission.emitFresh g.dataflow status g.dataflow.size code p.2
  return if p.1 = .eip ∧ eipLag ≠ 0 then
      (code.push (.constant eipLag)).push (.apply (Rule.advance g.mode))
    else code

def protectedRange? (applyAt : Table Node (Option Nat)) (nodes : List Node) : Option (Nat × Nat) :=
  (nodes.filterMap fun n => (applyAt.get? n).join).foldl
    (fun range i => match range with
      | none => some (i, i)
      | some (first, last) => some (min first i, max last i)) none

/-- Appends the handler body of a boundary, which commits the state at the start of the faulting
instruction and raises the fault again. A boundary of nodes that are not computed needs none. -/
def emitHandler (g : Graph) (main : Emission) (done : Array Op × Array Handler) (b : Boundary) :
    Except Rejection (Array Op × Array Handler) :=
  match b.nodes.find? (fun n => g.dataflow.size ≤ n.index) with
  | some n => .error (.unknownNode n)
  | none =>
    match protectedRange? main.applyAt b.nodes with
    | none => .ok done
    | some (first, last) => do
      let (code, handlers) := done
      let target := code.size
      let state := handlerState b
      let code ← state.foldlM (emitState g main.status b.eipLag) code
      if b.x86Index = 0 then .error .noInstruction
      else
        let retired := b.x86Index - 1
        let code := (code ++ (commits state).toArray).push (.rethrow retired)
        return (code, handlers.push ⟨first, last + 1, target, retired⟩)

def roots (g : Graph) : List Node := g.ordered ++ g.sinks.map Prod.snd ++ Demand.handlerRoots g

def generate (g : Graph) : Except Rejection Body :=
  match (roots g).find? (fun n => g.dataflow.size ≤ n.index) with
  | some n => .error (.unknownNode n)
  | none => do
    let main ← emitMain g (Demand.needsSlot g)
    let (code, handlers) ← g.boundaries.foldlM (emitHandler g main) (main.code, #[])
    return ⟨code.toList, handlers.toList, main.slots⟩

end Body

end Dynarec
