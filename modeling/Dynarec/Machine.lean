import Dynarec.Processor

namespace Dynarec

structure Memory where
  bytes : Array UInt8
  deriving DecidableEq

namespace Memory

def blank (size : Nat) : Memory := ⟨Array.replicate size 0⟩

def size (m : Memory) : Nat := m.bytes.size

def byte (m : Memory) (address : Nat) : UInt8 := m.bytes.getD address 0

def ofBytes : List UInt8 → UInt32
  | [] => 0
  | b :: rest => b.toUInt32 ||| (ofBytes rest <<< 8)

def toBytes : Nat → UInt32 → List UInt8
  | 0, _ => []
  | n + 1, value => value.toUInt8 :: toBytes n (value >>> 8)

/-- Replaces consecutive bytes. Those past the end are dropped. -/
def store (m : Memory) (address : Nat) : List UInt8 → Memory
  | [] => m
  | b :: rest => store ⟨m.bytes.setIfInBounds address b⟩ (address + 1) rest

def contains (m : Memory) (address : Nat) (w : Width) : Bool := address + w.bytes ≤ m.size

def read (m : Memory) (address : Nat) (w : Width) : UInt32 :=
  ofBytes ((List.range w.bytes).map fun i => m.byte (address + i))

def write (m : Memory) (address : Nat) (w : Width) (value : UInt32) : Memory :=
  m.store address (toBytes w.bytes value)

def extendRun (address : Nat) (b : UInt8) : List (Nat × List UInt8) → List (Nat × List UInt8)
  | (next, bytes) :: rest =>
    if next = address + 1 then (address, b :: bytes) :: rest else (address, [b]) :: (next, bytes) :: rest
  | [] => [(address, [b])]

def changesBelow (m before : Memory) : Nat → List (Nat × List UInt8) → List (Nat × List UInt8)
  | 0, found => found
  | n + 1, found =>
    changesBelow m before n (if m.byte n = before.byte n then found else extendRun n (m.byte n) found)

/-- The maximal runs of bytes that differ from `before`, in address order. -/
def changesSince (m before : Memory) : List (Nat × List UInt8) := changesBelow m before m.size []

@[simp] theorem size_store (m : Memory) (address : Nat) (bytes : List UInt8) :
    (m.store address bytes).size = m.size := by
  induction bytes generalizing m address with
  | nil => rfl
  | cons b rest ih => simpa [store, size] using ih ⟨m.bytes.setIfInBounds address b⟩ (address + 1)

@[simp] theorem size_write (m : Memory) (address : Nat) (w : Width) (value : UInt32) :
    (m.write address w value).size = m.size :=
  size_store _ _ _

end Memory

structure Machine where
  elements : ElementMap UInt32
  memory : Memory
  portWrites : List (UInt16 × UInt8)
  halted : Bool
  control : UInt32
  wide : Bool
  faults : List (Mode × Fault)
  interrupts : List (Mode × Nat)
  deriving DecidableEq

namespace Machine

def memorySize : Nat := 0x20000

def blankMemory : Memory := Memory.blank memorySize

def initial : Machine :=
  ⟨ElementMap.replicate 0, blankMemory, [], false, 0, false, [], []⟩

def address (segment offset : UInt32) : Nat := ((segment <<< 4) + offset).toNat

def readMemory (segment offset : UInt32) (w : Width) (m : Machine) : Except Fault UInt32 :=
  if m.memory.contains (address segment offset) w then .ok (m.memory.read (address segment offset) w)
  else .error (.generalProtection 0)

def writeMemory (segment offset : UInt32) (w : Width) (value : UInt32) (m : Machine) :
    Except Fault Unit × Machine :=
  if m.memory.contains (address segment offset) w then
    (.ok (), { m with memory := m.memory.write (address segment offset) w value })
  else (.error (.generalProtection 0), m)

/-- The stack segment refuses the null selector, and no segment takes a selector of the local
table. -/
def checkSelector (segment : Element) (selector : UInt32) : Except Fault UInt32 :=
  if selector = 0 ∧ segment = .ss then .error ⟨.stackSegment, some 0⟩
  else if selector &&& 4 ≠ 0 then .error ⟨.segmentNotPresent, some (selector &&& ~~~3)⟩
  else .ok selector

instance : Processor Machine where
  get m e := m.elements.get e
  set e value m := { m with elements := m.elements.set e value }
  instructionPointer m := m.elements.get .eip
  isProtected m := m.control &&& 1 != 0
  isVirtual8086 m := m.elements.get .virtual8086 != 0
  isWide m := m.wide
  readMemory segment offset w m := (readMemory segment offset w m, m)
  writeMemory := writeMemory
  loadSegment segment selector m := (checkSelector segment selector, m)
  readPort port m := (port.toUInt8 ^^^ 0x5A, m)
  writePort port value m := { m with portWrites := m.portWrites ++ [(port, value)] }
  halt m := { m with halted := true }
  setControl value m := ((m.control ^^^ value) &&& 1 != 0, { m with control := value })
  deliver mode fault m := { m with faults := m.faults ++ [(mode, fault)] }
  serviceInterrupts mode count m := { m with interrupts := m.interrupts ++ [(mode, count)] }

end Machine

end Dynarec
