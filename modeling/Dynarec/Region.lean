import Dynarec.Procedure
import Dynarec.Compiler

namespace Dynarec

inductive Block
  | procedure (p : Procedure)
  | advance (name : String) (mode : Mode) (length : UInt32)
  | idle (info : BlockInfo) (executed : Nat)
  | raise (info : BlockInfo) (fault : Fault) (retired : Nat)
  -- Ends as code does that leaves its mode.
  | switch (info : BlockInfo)
  | stale (info : BlockInfo) (next : Block)
  | endless (info : BlockInfo)
  deriving DecidableEq, Repr

namespace Block

def info : Block → BlockInfo
  | procedure p => p.info
  | advance name mode length => ⟨name, mode, 1, length⟩
  | idle info _ | raise info _ _ | switch info | stale info _ | endless info => info

instance : Described Block := ⟨info⟩

def execute {σ : Type} [Processor σ] (b : Block) (cpu : σ) : Outcome Block × σ :=
  match b with
  | procedure p =>
    let (e, cpu) := p.run cpu
    (.ended e, cpu)
  | advance _ _ length =>
    (.ended (.completed 1), Processor.set .eip (Processor.get cpu .eip + length) cpu)
  | idle _ executed => (.ended (.completed executed), cpu)
  | raise _ fault retired => (.ended (.faulted fault retired), cpu)
  | switch _ => (.ended .switched, cpu)
  | stale _ next => (.replaced next, cpu)
  | endless info => (.replaced (endless info), cpu)

instance {σ : Type} [Processor σ] : CodeBlock Block σ := ⟨execute⟩

end Block

inductive Request
  | lookup (space : Space) (address : UInt32)
  | decode (s : SubMode) (offset : UInt32)
  | fallback (s : SubMode) (offset : UInt32)
  deriving DecidableEq, Repr

namespace Request

def text : Request → String
  | lookup space address => "lookup " ++ space.text ++ " " ++ toString address.toNat
  | decode s offset => "decode " ++ s.text ++ " " ++ toString offset.toNat
  | fallback s offset => "fallback " ++ s.text ++ " " ++ toString offset.toNat

end Request

structure Region where
  decode : SubMode → UInt32 → List Instruction
  fallback : SubMode → UInt32 → Block
  blocks : List ((SubMode × UInt32) × Block)

namespace Region

def new (decode : SubMode → UInt32 → List Instruction) (fallback : SubMode → UInt32 → Block) : Region :=
  ⟨decode, fallback, []⟩

structure Fetched where
  block : Block
  region : Region
  compiler : Compiler
  requests : List Request

def remember (r : Region) (s : SubMode) (offset : UInt32) (b : Block) : Region :=
  { r with blocks := ((s, offset), b) :: r.blocks }

/-- The block from an offset on, compiled if that is possible. -/
def fetch (r : Region) (c : Compiler) (s : SubMode) (offset : UInt32) : Fetched :=
  match r.blocks.lookup (s, offset) with
  | some b => ⟨b, r, c, []⟩
  | none =>
    match c.get s.mode (r.decode s offset) with
    | (some p, c) => ⟨.procedure p, r.remember s offset (.procedure p), c, [.decode s offset]⟩
    | (none, c) =>
      let b := r.fallback s offset
      ⟨b, r.remember s offset b, c, [.decode s offset, .fallback s offset]⟩

def invalidate (r : Region) : Region := { r with blocks := [] }

def size (r : Region) : Nat := r.blocks.length

/-- Changes the instructions at an offset. Blocks that were made from the old ones stay. -/
def setProgram (r : Region) (offset : UInt32) (program : List Instruction) : Region :=
  { r with decode := fun s o => if o = offset then program else r.decode s o }

/-- A region with programs at some offsets, where the later of two at one offset counts. An
instruction that is not compiled counts as `length` bytes long. -/
def ofPrograms (programs : List (UInt32 × List Instruction)) (length : UInt32) : Region :=
  programs.foldl (fun r (offset, program) => r.setProgram offset program)
    (new (fun _ _ => []) fun s offset => .advance ("interpreted_" ++ toString offset.toNat) s.mode length)

end Region

end Dynarec
