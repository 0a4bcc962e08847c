import Dynarec.Body

namespace Dynarec

namespace Body

def limit : Nat := 0xFFFF

/-- How many values an op pops and pushes, if it may stand in a body with so many slots and is not
its end. -/
def effect (slots : Nat) : Op → Except Malformation (Nat × Nat)
  | .read e => if e.isReadable then .ok (0, 1) else .error .unreadableElement
  | .constant _ => .ok (0, 1)
  | .apply f => .ok (f.arity, 1)
  | .save s => if s.index < slots then .ok (1, 1) else .error .slotOutOfRange
  | .restore s => if s.index < slots then .ok (0, 1) else .error .slotOutOfRange
  | .discard => .ok (1, 0)
  | .commit e => if e.isCommitted then .ok (1, 0) else .error .uncommittableElement
  | .ret | .rethrow _ => .error .wrongTerminator

def isEnd (main : Bool) : Op → Bool
  | .ret => main
  | .rethrow _ => !main
  | _ => false

structure Stretch where
  rest : List Op
  stop : Nat
  deepest : Nat

def follow (slots : Nat) (main : Bool) : Nat → Nat → Nat → List Op → Except Rejection Stretch
  | pc, _, _, [] => .error (.malformed .ranOffEnd pc)
  | pc, depth, deepest, op :: rest =>
    if isEnd main op then
      if depth = 0 then .ok ⟨rest, pc + 1, deepest⟩ else .error (.malformed .valuesLeft pc)
    else match effect slots op with
      | .error what => .error (.malformed what pc)
      | .ok (pops, pushes) =>
        if depth < pops then .error (.malformed .stackUnderflow pc)
        else
          let depth := depth - pops + pushes
          follow slots main (pc + 1) depth (max deepest depth) rest

/-- Protected ranges are not empty, do not overlap, and lie in the main code in order. -/
def checkRanges (mainStop : Nat) : Nat → List Handler → Except Rejection Unit
  | _, [] => .ok ()
  | previous, h :: rest =>
    if previous ≤ h.start ∧ h.start < h.stop ∧ h.stop ≤ mainStop then checkRanges mainStop h.stop rest
    else .error (.badHandlerRange h.start h.stop)

def checkHandlers (slots : Nat) : Stretch → List Nat → Except Rejection Stretch
  | s, [] => .ok s
  | s, target :: targets =>
    if target = s.stop then do
      let next ← follow slots false s.stop 0 s.deepest s.rest
      checkHandlers slots next targets
    else .error (.misplacedHandler target s.stop)

def insertTarget (t : Nat) : List Nat → List Nat
  | [] => [t]
  | u :: rest => if t < u then t :: u :: rest else if t = u then u :: rest else u :: insertTarget t rest

def targets (handlers : List Handler) : List Nat := (handlers.map Handler.target).foldr insertTarget []

/-- Checks that the body cannot misbehave, and gives the stack size it needs. -/
def verify (b : Body) : Except Rejection Nat := do
  let count := b.code.length
  if limit < count then .error (.tooManyOps count)
  else if limit < b.slots then .error (.tooManySlots b.slots)
  else
    let main ← follow b.slots true 0 0 0 b.code
    checkRanges main.stop 0 b.handlers
    let last ← checkHandlers b.slots main (targets b.handlers)
    if last.stop ≠ count then .error (.unreachableOps last.stop)
    else if limit < last.deepest then .error (.tooDeepStack last.deepest)
    else return last.deepest

end Body

end Dynarec
