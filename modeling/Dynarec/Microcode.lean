import Dynarec.Processor

namespace Dynarec

inductive Register
  | eax | ecx | edx | ebx | esp | ebp | esi | edi
  deriving DecidableEq, Repr

inductive BaseRegister
  | ebx | ebp | esi | edi
  deriving DecidableEq, Repr

inductive Segment
  | es | cs | ss | ds
  deriving DecidableEq, Repr

inductive DataSegment
  | es | ss | ds
  deriving DecidableEq, Repr

def Register.element : Register → Element
  | eax => .eax | ecx => .ecx | edx => .edx | ebx => .ebx
  | esp => .esp | ebp => .ebp | esi => .esi | edi => .edi

def Register.all : List Register := [eax, ecx, edx, ebx, esp, ebp, esi, edi]

def BaseRegister.element : BaseRegister → Element
  | ebx => .ebx | ebp => .ebp | esi => .esi | edi => .edi

def BaseRegister.all : List BaseRegister := [ebx, ebp, esi, edi]

def Segment.element : Segment → Element
  | es => .es | cs => .cs | ss => .ss | ds => .ds

def Segment.all : List Segment := [es, cs, ss, ds]

def DataSegment.element : DataSegment → Element
  | es => .es | ss => .ss | ds => .ds

def DataSegment.all : List DataSegment := [es, ss, ds]

inductive Microcode
  | load0 (r : Register) | load1 (r : Register) | store0 (r : Register)
  | load0Imm | load1Imm | load2Imm
  | memReset | addrImm | addr (b : BaseRegister)
  | loadSeg (s : Segment)
  | load0Mem (w : Width) | store0Mem (w : Width)
  | storeSeg (s : DataSegment)
  | add | sub | and | or | xor | inc | dec | neg | not | shl | shr | sar | div
  | addFlags | subFlags | logicFlags | incFlags
  | clc | stc | cmc | cld | std | cli | sti
  | eipUpdate | jumpRel | jumpZero | jumpNotZero
  | push32 | pop32
  | inByte | outByte
  | hlt | storeCr0
  | cpuid | repMovsb
  deriving DecidableEq, Repr

namespace Microcode

def all : List Microcode :=
  Register.all.map load0 ++ Register.all.map load1 ++ Register.all.map store0 ++
  [load0Imm, load1Imm, load2Imm, memReset, addrImm] ++
  BaseRegister.all.map addr ++ Segment.all.map loadSeg ++
  Width.all.map load0Mem ++ Width.all.map store0Mem ++ DataSegment.all.map storeSeg ++
  [add, sub, and, or, xor, inc, dec, neg, not, shl, shr, sar, div,
   addFlags, subFlags, logicFlags, incFlags,
   clc, stc, cmc, cld, std, cli, sti,
   eipUpdate, jumpRel, jumpZero, jumpNotZero,
   push32, pop32, inByte, outByte, hlt, storeCr0, cpuid, repMovsb]

def word : Microcode → UInt32
  | load0 r => r.ctorIdx.toUInt32
  | load1 r => 8 + r.ctorIdx.toUInt32
  | store0 r => 16 + r.ctorIdx.toUInt32
  | load0Imm => 24 | load1Imm => 25 | load2Imm => 26
  | memReset => 30 | addrImm => 31
  | addr b => 32 + b.ctorIdx.toUInt32
  | loadSeg s => 36 + s.ctorIdx.toUInt32
  | load0Mem w => 40 + w.ctorIdx.toUInt32
  | store0Mem w => 43 + w.ctorIdx.toUInt32
  | storeSeg s => 46 + s.ctorIdx.toUInt32
  | add => 50 | sub => 51 | and => 52 | or => 53 | xor => 54 | inc => 55 | dec => 56 | neg => 57
  | not => 58 | shl => 59 | shr => 60 | sar => 61 | div => 62
  | addFlags => 70 | subFlags => 71 | logicFlags => 72 | incFlags => 73
  | clc => 80 | stc => 81 | cmc => 82 | cld => 83 | std => 84 | cli => 85 | sti => 86
  | eipUpdate => 90 | jumpRel => 91 | jumpZero => 92 | jumpNotZero => 93
  | push32 => 100 | pop32 => 101
  | inByte => 110 | outByte => 111
  | hlt => 120 | storeCr0 => 121
  | cpuid => 130 | repMovsb => 131

def ofWord? (w : UInt32) : Option Microcode := all.find? (·.word == w)

/-- The microcode is followed by an immediate word of the same instruction. -/
def hasImmediate : Microcode → Bool
  | load0Imm | load1Imm | load2Imm | addrImm | jumpRel | jumpZero | jumpNotZero => true
  | _ => false

def takesImmediate (w : UInt32) : Bool := (ofWord? w).any hasImmediate

def sizeName : Width → String
  | .one => "BYTE" | .two => "WORD" | .four => "DWORD"

def name : Microcode → String
  | load0 r => "LOAD0_" ++ r.element.name
  | load1 r => "LOAD1_" ++ r.element.name
  | store0 r => "STORE0_" ++ r.element.name
  | load0Imm => "LOAD0_ID" | load1Imm => "LOAD1_ID" | load2Imm => "LOAD2_ID"
  | memReset => "MEM_RESET" | addrImm => "ADDR_ID"
  | addr b => "ADDR_" ++ b.element.name
  | loadSeg s => "LOAD_SEG_" ++ s.element.name
  | load0Mem w => "LOAD0_MEM_" ++ sizeName w
  | store0Mem w => "STORE0_MEM_" ++ sizeName w
  | storeSeg s => "STORE0_" ++ s.element.name
  | add => "ADD" | sub => "SUB" | and => "AND" | or => "OR" | xor => "XOR"
  | inc => "INC" | dec => "DEC" | neg => "NEG" | not => "NOT"
  | shl => "SHL" | shr => "SHR" | sar => "SAR" | div => "DIV"
  | addFlags => "ADD_FLAGS" | subFlags => "SUB_FLAGS"
  | logicFlags => "LOGIC_FLAGS" | incFlags => "INC_FLAGS"
  | clc => "CLC" | stc => "STC" | cmc => "CMC" | cld => "CLD" | std => "STD"
  | cli => "CLI" | sti => "STI"
  | eipUpdate => "EIP_UPDATE" | jumpRel => "JUMP_REL"
  | jumpZero => "JUMP_ZERO" | jumpNotZero => "JUMP_NOT_ZERO"
  | push32 => "PUSH_O32" | pop32 => "POP_O32"
  | inByte => "IN_BYTE" | outByte => "OUT_BYTE"
  | hlt => "HLT" | storeCr0 => "STORE0_CR0"
  | cpuid => "CPUID" | repMovsb => "REP_MOVSB"

theorem ofWord?_word (m : Microcode) : ofWord? m.word = some m := by
  cases m with
  | load0 r | load1 r | store0 r => cases r <;> decide +kernel
  | addr b => cases b <;> decide +kernel
  | loadSeg s | storeSeg s => cases s <;> decide +kernel
  | load0Mem w | store0Mem w => cases w <;> decide +kernel
  | _ => decide +kernel

end Microcode

end Dynarec
