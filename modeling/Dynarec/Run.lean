import Dynarec.Outcome
import Dynarec.Instruction

namespace Dynarec

structure MicroOp where
  -- Not every word is a microcode.
  word : UInt32
  immediate : Option UInt32
  -- The byte offset of the end of the instruction, from the start of the run.
  position : UInt32
  x86Index : Nat
  deriving DecidableEq, Repr

namespace MicroOp

def microcode (op : MicroOp) : Except CompileError Microcode :=
  match Microcode.ofWord? op.word with
  | some m => .ok m
  | none => .error (.unknownMicrocode op.word op.x86Index)

def text (op : MicroOp) : String :=
  (match Microcode.ofWord? op.word with
    | some m => m.name
    | none => Text.hex op.word.toNat) ++
  (match op.immediate with
    | some value => " " ++ Text.hex value.toNat
    | none => "") ++
  " @" ++ toString op.position.toNat ++ "#" ++ toString op.x86Index

/-- Splits the words of one instruction. The last word has no immediate, whatever it is. -/
def split (position : UInt32) (x86Index : Nat) : List UInt32 → List MicroOp
  | [] => []
  | [word] => [⟨word, none, position, x86Index⟩]
  | word :: next :: rest =>
    if Microcode.takesImmediate word then
      ⟨word, some next, position, x86Index⟩ :: split position x86Index rest
    else ⟨word, none, position, x86Index⟩ :: split position x86Index (next :: rest)

def splitAll (position : UInt32) (x86Index : Nat) : List Instruction → List MicroOp
  | [] => []
  | i :: rest =>
    split (position + i.length) (x86Index + 1) i.words ++ splitAll (position + i.length) (x86Index + 1) rest

end MicroOp

structure Run where
  ops : List MicroOp
  -- Every word with its position. This identifies the run.
  entries : List Entry
  deriving DecidableEq, Repr

namespace Run

/-- The run of the first `limit` instructions, or of the first one if `limit` is zero. Their numbers have 32 bits,
and start at one. -/
def build (limit : Nat) (instructions : List Instruction) : Except CompileError Run :=
  let taken := instructions.take (max limit 1)
  if taken.length < UInt32.size then
    match MicroOp.splitAll 0 0 taken with
    | [] => .error .empty
    | op :: ops => .ok ⟨op :: ops, Tape.record 0 taken⟩
  else .error (.rejected .numberOverflow)

def words (r : Run) : List UInt32 := r.entries.map (·.word)

def positions (r : Run) : List UInt32 := r.entries.map (·.position)

def x86Count (r : Run) : Nat :=
  match r.ops.getLast? with
  | none => 0
  | some op => op.x86Index

def x86Length (r : Run) : UInt32 :=
  match r.ops.getLast? with
  | none => 0
  | some op => op.position

/-- Depends on the words alone, so unequal runs may share it. -/
def hashOf (entries : List Entry) : Int32 := entries.foldl (fun h e => h * 31 + e.word.toInt32) 0

def hash (r : Run) : Int32 := hashOf r.entries

def text (r : Run) : String := "Run" ++ Text.bracketed (r.ops.map MicroOp.text)

end Run

end Dynarec
