import Dynarec.Cache

namespace Dynarec

structure Config where
  maxInstructions : Nat
  traceCapacity : Nat
  deriving DecidableEq, Repr

def Config.standard : Config := ⟨1000, 5000⟩

structure Compiler where
  cache : Cache
  maxInstructions : Nat
  nextStamp : Nat
  deriving DecidableEq, Repr

namespace Compiler

def new (config : Config) (firstStamp : Nat) : Compiler := ⟨.empty, config.maxInstructions, firstStamp⟩

def fresh (c : Compiler) (mode : Mode) (name : Option String) (run : Run) :
    Except CompileError Procedure × Compiler :=
  (Procedure.build (name.getD "") mode c.nextStamp run, { c with nextStamp := c.nextStamp + 1 })

def publish (c : Compiler) (p : Procedure) : Procedure × Compiler :=
  let (p, cache) := c.cache.publish p
  (p, { c with cache })

def publishGenerated (c : Compiler) (p : Procedure) : Procedure × Compiler :=
  let (p, cache) := c.cache.publishGenerated p
  (p, { c with cache })

def lookup (c : Compiler) (mode : Mode) (run : Run) : Option Procedure × Compiler :=
  let (p, cache) := c.cache.lookup mode run
  (p, { c with cache })

def compileRun (c : Compiler) (mode : Mode) (name : Option String) (run : Run) :
    Except CompileError Procedure × Compiler :=
  match c.lookup mode run with
  | (some p, c) => (.ok p, c)
  | (none, c) =>
    match c.fresh mode name run with
    | (.error e, c) => (.error e, c)
    | (.ok p, c) =>
      let (p, c) := if name.isSome then c.publish p else c.publishGenerated p
      (.ok p, c)

/-- The procedure of the first instructions of a source. A new one is published under `name` if it
is given one. -/
def compile (c : Compiler) (mode : Mode) (name : Option String) (source : List Instruction) :
    Except CompileError Procedure × Compiler :=
  match Run.build c.maxInstructions source with
  | .error e => (.error e, c)
  | .ok run => c.compileRun mode name run

def get (c : Compiler) (mode : Mode) (source : List Instruction) : Option Procedure × Compiler :=
  let (result, c) := c.compile mode none source
  (result.toOption, c)

end Compiler

end Dynarec
