import Dynarec.Procedure

namespace Dynarec

structure Statistics where
  hits : Nat
  -- Lookups that found no bucket.
  misses : Nat
  -- Lookups that found a bucket without the run.
  collisions : Nat
  publishes : Nat
  deriving DecidableEq, Repr

/-- The procedures of one mode whose words have the same hash, oldest first. -/
structure Bucket where
  mode : Mode
  hash : Int32
  procedures : List Procedure
  -- The number ever added. It never decreases, so that generated names are not used again.
  added : Nat
  deriving DecidableEq, Repr

structure Cache where
  buckets : List Bucket
  statistics : Statistics
  deriving DecidableEq, Repr

namespace Bucket

def holds (b : Bucket) (mode : Mode) (hash : Int32) : Bool := b.mode == mode && b.hash == hash

def find? (b : Bucket) (entries : List Entry) : Option Procedure :=
  b.procedures.find? fun p => p.entries == entries

def add (b : Bucket) (p : Procedure) : Bucket :=
  { b with procedures := b.procedures ++ [p], added := b.added + 1 }

def nextName (b : Bucket) : String :=
  let base := b.mode.tag ++ toString b.hash.toInt
  if b.added = 0 then base else base ++ "_" ++ toString b.added

end Bucket

namespace Cache

def empty : Cache := ⟨[], ⟨0, 0, 0, 0⟩⟩

def bucket? (c : Cache) (mode : Mode) (hash : Int32) : Option Bucket :=
  c.buckets.find? (·.holds mode hash)

def bucket (c : Cache) (mode : Mode) (hash : Int32) : Bucket :=
  (c.bucket? mode hash).getD ⟨mode, hash, [], 0⟩

def putBucket (b : Bucket) : List Bucket → List Bucket
  | [] => [b]
  | other :: rest => if other.holds b.mode b.hash then b :: rest else other :: putBucket b rest

def put (c : Cache) (b : Bucket) : Cache := { c with buckets := putBucket b c.buckets }

def lookup (c : Cache) (mode : Mode) (run : Run) : Option Procedure × Cache :=
  let s := c.statistics
  match c.bucket? mode run.hash with
  | none => (none, { c with statistics := { s with misses := s.misses + 1 } })
  | some b =>
    match b.find? run.entries with
    | some p => (some p, { c with statistics := { s with hits := s.hits + 1 } })
    | none => (none, { c with statistics := { s with collisions := s.collisions + 1 } })

def add (c : Cache) (b : Bucket) (p : Procedure) : Procedure × Cache :=
  let s := c.statistics
  (p, { c.put (b.add p) with statistics := { s with publishes := s.publishes + 1 } })

/-- Adds a procedure under its own name, unless its run has one already, which is given instead. -/
def publish (c : Cache) (p : Procedure) : Procedure × Cache :=
  let b := c.bucket p.mode p.hash
  match b.find? p.entries with
  | some existing => (existing, c)
  | none => c.add b p

/-- Adds a procedure under a name made from its mode and hash, unless its run has one already. -/
def publishGenerated (c : Cache) (p : Procedure) : Procedure × Cache :=
  let b := c.bucket p.mode p.hash
  match b.find? p.entries with
  | some existing => (existing, c)
  | none => c.add b { p with name := b.nextName }

def procedures (c : Cache) : List Procedure := c.buckets.flatMap (·.procedures)

def size (c : Cache) : Nat := c.procedures.length

def names (c : Cache) : List String := c.procedures.map (·.name)

def evictFrom (mode : Mode) (name : String) : List Bucket → Option (List Bucket)
  | [] => none
  | b :: rest =>
    if b.mode = mode ∧ b.procedures.any (·.name == name) then
      some ({ b with procedures := b.procedures.eraseP (·.name == name) } :: rest)
    else (evictFrom mode name rest).map (b :: ·)

/-- Removes a procedure, and says whether there was one. Its bucket stays. -/
def evict (c : Cache) (mode : Mode) (name : String) : Bool × Cache :=
  match evictFrom mode name c.buckets with
  | none => (false, c)
  | some buckets => (true, { c with buckets })

def clear (c : Cache) : Cache := { c with buckets := [] }

end Cache

end Dynarec
