namespace Dynarec

inductive Element
  | eax | ecx | edx | ebx | esp | ebp | esi | edi
  | eip
  | carry | parity | auxiliary | zero | sign | trap | interrupt | direction | overflow
  | iopl
  | nestedTask | resume | virtual8086 | alignment | virtualInterrupt | virtualPending | identification
  | es | cs | ss | ds | fs | gs
  | idtr | gdtr | ldtr | tss
  | cpl | ioPorts | cpu | addr0
  | reg0 | reg1 | reg2 | seg0
  | memoryWrite | ioPortWrite | executeCount
  deriving DecidableEq, Repr

namespace Element

def all : List Element :=
  [eax, ecx, edx, ebx, esp, ebp, esi, edi,
   eip,
   carry, parity, auxiliary, zero, sign, trap, interrupt, direction, overflow,
   iopl,
   nestedTask, resume, virtual8086, alignment, virtualInterrupt, virtualPending, identification,
   es, cs, ss, ds, fs, gs,
   idtr, gdtr, ldtr, tss,
   cpl, ioPorts, cpu, addr0,
   reg0, reg1, reg2, seg0,
   memoryWrite, ioPortWrite, executeCount]

def count : Nat := 47

def index (e : Element) : Nat := e.ctorIdx

def ofIndex? (i : Nat) : Option Element := all[i]?

theorem index_lt (e : Element) : e.index < count := by cases e <;> decide

theorem ofIndex?_index (e : Element) : ofIndex? e.index = some e := by cases e <;> rfl

def ofFin (i : Fin count) : Element := all.get i

theorem ofFin_index (e : Element) : ofFin ⟨e.index, e.index_lt⟩ = e := by cases e <;> rfl

theorem index_ofFin : ∀ i : Fin count, (ofFin i).index = i := by decide

theorem index_inj {a b : Element} (h : a.index = b.index) : a = b :=
  Option.some.inj (by rw [← ofIndex?_index a, ← ofIndex?_index b, h])

theorem mem_all (e : Element) : e ∈ all := by cases e <;> decide

/-- The element has a value on entry to a run. -/
def isPersistent (e : Element) : Bool := e.index < 40

def isTransient (e : Element) : Bool := 40 ≤ e.index && e.index < 44

def isSentinel (e : Element) : Bool := 44 ≤ e.index

/-- A changed value of the element is written back to the processor. The port array, the processor
itself and the address scratch register never are. -/
def isCommitted (e : Element) : Bool :=
  e.isPersistent && !(e == ioPorts || e == cpu || e == addr0)

/-- The processor supplies the value on entry. The other persistent elements start at zero. -/
def isReadable (e : Element) : Bool := e.isCommitted

def name : Element → String
  | eax => "EAX" | ecx => "ECX" | edx => "EDX" | ebx => "EBX"
  | esp => "ESP" | ebp => "EBP" | esi => "ESI" | edi => "EDI"
  | eip => "EIP"
  | carry => "CF" | parity => "PF" | auxiliary => "AF" | zero => "ZF" | sign => "SF"
  | trap => "TF" | interrupt => "IF" | direction => "DF" | overflow => "OF"
  | iopl => "IOPL"
  | nestedTask => "NT" | resume => "RF" | virtual8086 => "VM" | alignment => "AC"
  | virtualInterrupt => "VIF" | virtualPending => "VIP" | identification => "ID"
  | es => "ES" | cs => "CS" | ss => "SS" | ds => "DS" | fs => "FS" | gs => "GS"
  | idtr => "IDTR" | gdtr => "GDTR" | ldtr => "LDTR" | tss => "TSS"
  | cpl => "CPL" | ioPorts => "IOPORTS" | cpu => "CPU" | addr0 => "ADDR0"
  | reg0 => "REG0" | reg1 => "REG1" | reg2 => "REG2" | seg0 => "SEG0"
  | memoryWrite => "MEMORYWRITE" | ioPortWrite => "IOPORTWRITE" | executeCount => "EXECUTECOUNT"

def ofName? (s : String) : Option Element := all.find? (·.name == s)

end Element

structure ElementMap (α : Type) where
  values : Vector α Element.count
  deriving DecidableEq

namespace ElementMap

variable {α : Type}

def ofFn (f : Element → α) : ElementMap α := ⟨Vector.ofFn fun i => f (Element.ofFin i)⟩

def replicate (a : α) : ElementMap α := ofFn fun _ => a

def get (m : ElementMap α) (e : Element) : α :=
  have := e.index_lt
  m.values[e.index]

def set (m : ElementMap α) (e : Element) (a : α) : ElementMap α :=
  ⟨m.values.set e.index a e.index_lt⟩

@[simp] theorem get_ofFn (f : Element → α) (e : Element) : (ofFn f).get e = f e := by
  simp [get, ofFn, Element.ofFin_index]

@[simp] theorem get_replicate (a : α) (e : Element) : (replicate a).get e = a := get_ofFn _ e

theorem get_set (m : ElementMap α) (e e' : Element) (a : α) :
    (m.set e a).get e' = if e = e' then a else m.get e' := by
  by_cases h : e = e'
  · subst h
    simp [get, set]
  · have hi : e.index ≠ e'.index := fun hi => h (Element.index_inj hi)
    simp [get, set, h, hi]

@[simp] theorem get_set_self (m : ElementMap α) (e : Element) (a : α) : (m.set e a).get e = a := by
  simp [get_set]

theorem get_set_ne (m : ElementMap α) {e e' : Element} (h : e ≠ e') (a : α) :
    (m.set e a).get e' = m.get e' := by
  simp [get_set, h]

theorem ext_get {m m' : ElementMap α} (h : ∀ e, m.get e = m'.get e) : m = m' := by
  obtain ⟨v⟩ := m
  obtain ⟨w⟩ := m'
  congr 1
  apply Vector.ext
  intro i hi
  have hget := h (Element.ofFin ⟨i, hi⟩)
  simpa [get, Element.index_ofFin] using hget

end ElementMap

end Dynarec
