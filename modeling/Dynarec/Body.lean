import Dynarec.Graph

namespace Dynarec

structure Slot where
  index : Nat
  deriving DecidableEq, Repr

instance : Key Slot := ⟨Slot.index⟩

inductive Op
  | read (e : Element)
  | constant (value : UInt32)
  | apply (f : Fragment)
  | save (s : Slot)
  | restore (s : Slot)
  | discard
  | commit (e : Element)
  | ret
  | rethrow (retired : Nat)
  deriving DecidableEq, Repr

/-- If an op from `start` to just before `stop` faults, execution goes on at `target`. -/
structure Handler where
  start : Nat
  stop : Nat
  target : Nat
  -- The instructions that completed before the protected one.
  retired : Nat
  deriving DecidableEq, Repr

structure Body where
  code : List Op
  handlers : List Handler
  slots : Nat
  deriving DecidableEq, Repr

namespace Slot

def text (s : Slot) : String := "s" ++ toString s.index

end Slot

namespace Op

def text : Op → String
  | read e => "Read(" ++ e.name ++ ")"
  | constant value => "Constant(" ++ toString value.toNat ++ ")"
  | apply f => "Apply(" ++ f.text ++ ")"
  | save s => "Save(" ++ s.text ++ ")"
  | restore s => "Restore(" ++ s.text ++ ")"
  | discard => "Discard"
  | commit e => "Commit(" ++ e.name ++ ")"
  | ret => "Return"
  | rethrow retired => "Rethrow \x7b retired: " ++ toString retired ++ " \x7d"

def between? (opening closing s : String) : Option String :=
  if s.startsWith opening && s.endsWith closing && opening.length + closing.length ≤ s.length then
    some ((s.drop opening.length).dropEnd closing.length).toString
  else none

def slotOfText? (s : String) : Option Slot :=
  if s.startsWith "s" then (s.drop 1).toNat?.map Slot.mk else none

def ofText? (s : String) : Option Op :=
  if s = "Discard" then some discard
  else if s = "Return" then some ret
  else if let some inner := between? "Read(" ")" s then (Element.ofName? inner).map read
  else if let some inner := between? "Constant(" ")" s then inner.toNat?.map fun n => constant n.toUInt32
  else if let some inner := between? "Apply(" ")" s then (Fragment.ofText? inner).map apply
  else if let some inner := between? "Save(" ")" s then (slotOfText? inner).map save
  else if let some inner := between? "Restore(" ")" s then (slotOfText? inner).map restore
  else if let some inner := between? "Commit(" ")" s then (Element.ofName? inner).map commit
  else if let some inner := between? "Rethrow \x7b retired: " " \x7d" s then inner.toNat?.map rethrow
  else none

end Op

namespace Handler

def covers (h : Handler) (pc : Nat) : Bool := h.start ≤ pc && pc < h.stop

def text (h : Handler) : String :=
  "handler " ++ toString h.start ++ ".." ++ toString h.stop ++ " -> " ++ toString h.target ++
    " (retired " ++ toString h.retired ++ ")"

end Handler

namespace Body

def handlerFor? (b : Body) (pc : Nat) : Option Handler := b.handlers.find? (·.covers pc)

end Body

end Dynarec
