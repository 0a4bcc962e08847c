namespace Dynarec

/-- An instruction as the decoder gives it: its length in bytes, and its microcode words. -/
structure Instruction where
  length : UInt32
  words : List UInt32
  deriving DecidableEq, Repr

structure Entry where
  word : UInt32
  -- The byte offset of the end of the instruction that the word belongs to.
  position : UInt32
  deriving DecidableEq, Repr

structure Tape where
  entries : List Entry
  deriving DecidableEq, Repr

namespace Tape

def words (t : Tape) : List UInt32 := t.entries.map (·.word)

def positions (t : Tape) : List UInt32 := t.entries.map (·.position)

def ofLists? (words positions : List UInt32) : Option Tape :=
  if words.length = positions.length then some ⟨List.zipWith Entry.mk words positions⟩ else none

def record (position : UInt32) : List Instruction → List Entry
  | [] => []
  | i :: rest =>
    i.words.map (fun word => ⟨word, position + i.length⟩) ++ record (position + i.length) rest

def ofInstructions (instructions : List Instruction) : Tape := ⟨record 0 instructions⟩

/-- A place on a tape, given by what lies around it. -/
structure Reader where
  -- The entries of the current instruction. Before the first one there are none.
  current : List Entry
  -- The entries from the next word on.
  unread : List Entry
  rest : List Entry
  -- Where the previous instruction ended.
  previous : UInt32
  deriving DecidableEq, Repr

def rewound (t : Tape) : Reader := ⟨[], t.entries, t.entries, 0⟩

namespace Reader

def advance? (r : Reader) : Option Reader :=
  match r.rest with
  | [] => none
  | e :: rest =>
    some {
      current := e :: rest.takeWhile (·.position == e.position)
      unread := e :: rest
      rest := rest.dropWhile (·.position == e.position)
      previous := match r.current with
        | [] => r.previous
        | c :: _ => c.position }

def wordCount (r : Reader) : Nat := r.current.length

def byteCount (r : Reader) : UInt32 :=
  match r.current, r.rest with
  | e :: _, _ | [], e :: _ => e.position - r.previous
  | [], [] => 0

def readWord? (r : Reader) : Option (UInt32 × Reader) :=
  match r.unread with
  | [] => none
  | e :: unread => some (e.word, { r with unread })

def instruction (r : Reader) : Instruction := ⟨r.byteCount, r.current.map (·.word)⟩

def following : Nat → Reader → List Instruction
  | 0, _ => []
  | n + 1, r =>
    match r.advance? with
    | none => []
    | some r => r.instruction :: following n r

end Reader

/-- What the tape gives when it is read from the start. No instruction is without words, so there
are no more instructions than entries. -/
def instructions (t : Tape) : List Instruction := t.rewound.following t.entries.length

end Tape

end Dynarec
