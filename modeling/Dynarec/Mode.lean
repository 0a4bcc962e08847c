namespace Dynarec

namespace Text

def hex (n : Nat) : String := "0x" ++ String.ofList (Nat.toDigits 16 n)

def commaSeparated (items : List String) : String := String.intercalate ", " items

def bracketed (items : List String) : String := "[" ++ commaSeparated items ++ "]"

def padLeft (width : Nat) (s : String) : String :=
  String.ofList (List.replicate (width - s.length) ' ') ++ s

def flag (b : Bool) : String := if b then "true" else "false"

def optional : Option String → String
  | none => "None"
  | some s => "Some(" ++ s ++ ")"

end Text

/-- Each mode has its own emission rules, its own fault handler and its own part of the cache. -/
inductive Mode
  | real | protectedMode | virtual8086
  deriving DecidableEq, Repr

/-- A mode refined by the default operand size of the code segment. -/
inductive SubMode
  | real | protected16 | protected32 | virtual8086
  deriving DecidableEq, Repr

inductive Exception
  | divideError | invalidOpcode | segmentNotPresent | stackSegment | generalProtection | pageFault
  deriving DecidableEq, Repr

structure Fault where
  exception : Exception
  code : Option UInt32
  deriving DecidableEq, Repr

namespace Exception

def all : List Exception :=
  [divideError, invalidOpcode, segmentNotPresent, stackSegment, generalProtection, pageFault]

def vector : Exception → Nat
  | divideError => 0
  | invalidOpcode => 6
  | segmentNotPresent => 11
  | stackSegment => 12
  | generalProtection => 13
  | pageFault => 14

def text : Exception → String
  | divideError => "DivideError"
  | invalidOpcode => "InvalidOpcode"
  | segmentNotPresent => "SegmentNotPresent"
  | stackSegment => "StackSegment"
  | generalProtection => "GeneralProtection"
  | pageFault => "PageFault"

def ofText? (s : String) : Option Exception := all.find? (·.text == s)

end Exception

namespace Fault

def divideError : Fault := ⟨.divideError, none⟩

def generalProtection (code : UInt32) : Fault := ⟨.generalProtection, some code⟩

def codeText (f : Fault) : String := Text.optional (f.code.map fun c => toString c.toNat)

def text (f : Fault) : String :=
  "Fault \x7b vector: " ++ f.exception.text ++ ", error_code: " ++ f.codeText ++ " \x7d"

def message (f : Fault) : String :=
  f.exception.text ++ " fault (error code " ++ f.codeText ++ ")"

end Fault

namespace Mode

def all : List Mode := [real, protectedMode, virtual8086]

def tag : Mode → String
  | real => "FAST_RM_"
  | protectedMode => "FAST_PM_"
  | virtual8086 => "FAST_VM_"

/-- The fault as the mode delivers it. Real mode exceptions carry no error code. -/
def asDelivered (m : Mode) (f : Fault) : Fault :=
  match m with
  | real => { f with code := none }
  | protectedMode | virtual8086 => f

def text : Mode → String
  | real => "Real"
  | protectedMode => "Protected"
  | virtual8086 => "Virtual8086"

def ofText? (s : String) : Option Mode := all.find? (·.text == s)

end Mode

namespace SubMode

def all : List SubMode := [real, protected16, protected32, virtual8086]

def mode : SubMode → Mode
  | real => .real
  | protected16 | protected32 => .protectedMode
  | virtual8086 => .virtual8086

def text : SubMode → String
  | real => "Real"
  | protected16 => "Protected16"
  | protected32 => "Protected32"
  | virtual8086 => "Virtual8086"

def ofText? (s : String) : Option SubMode := all.find? (·.text == s)

end SubMode

end Dynarec
