import Dynarec.CodeMap
import Dynarec.Machine
import Dynarec.Monitor
import Dynarec.Proofs.DataflowShape

namespace Dynarec

open Processor

theorem Processor.space_eq_iff {σ : Type} [Processor σ] {cpu cpu' : σ} :
    space cpu = space cpu' ↔ isProtected cpu = isProtected cpu' := by
  rw [space, space]
  cases isProtected cpu <;> cases isProtected cpu' <;> simp

structure Search (μ σ : Type) where
  address : UInt32
  memory : μ
  cpu : σ

structure Miss where
  address : UInt32
  fault : Fault
  deriving DecidableEq, Repr

def deliverMisses {σ : Type} [Processor σ] (misses : List Miss) (cpu : σ) : σ :=
  misses.foldl (fun cpu m => deliver .protectedMode m.fault cpu) cpu

namespace Search

variable {μ β σ : Type} [Processor σ] [CodeMemory μ β]

def resume (s : Search μ σ) (fault : Fault) (memory : μ) : Search μ σ :=
  let cpu := deliver .protectedMode fault s.cpu
  ⟨instructionPointer cpu, memory, cpu⟩

/-- Lookups that all raise page faults in protected mode, one after the other. -/
inductive Retries : Search μ σ → List Miss → Search μ σ → Prop
  | nil (s : Search μ σ) : Retries s [] s
  | cons {s s' : Search μ σ} {fault : Fault} {memory : μ} {misses : List Miss} (hspace : space s.cpu = .linear)
      (hlookup : CodeMemory.lookup .linear s.address s.memory = .pageFault fault memory)
      (hrest : Retries (s.resume fault memory) misses s') : Retries s (⟨s.address, fault⟩ :: misses) s'

variable {s s' : Search μ σ} {misses : List Miss}

theorem Retries.cpu (h : Retries s misses s') : s'.cpu = deliverMisses misses s.cpu := by
  induction h with
  | nil s => rfl
  | cons _ _ _ ih => exact ih

theorem Retries.address (h : Retries s misses s') (hs : s.address = instructionPointer s.cpu) :
    s'.address = instructionPointer s'.cpu := by
  induction h with
  | nil s => exact hs
  | cons _ _ _ ih => exact ih rfl

theorem Retries.address_of_ne_nil (h : Retries s misses s') (hmisses : misses ≠ []) :
    s'.address = instructionPointer s'.cpu := by
  cases h with
  | nil => exact absurd rfl hmisses
  | cons _ _ hrest => exact hrest.address rfl

end Search

def Notice.place {β : Type} : Notice β → UInt32 × Space
  | .decoded address space _ | .executed address space _ => (address, space)

namespace Dispatcher

open Search

variable {μ β σ : Type}

theorem notify_eq (d : Dispatcher μ β) (n : Notice β) :
    d.notify n = { d with notices := if d.listening then d.notices.push n else d.notices } := by
  rw [notify]
  split <;> rfl

@[simp] theorem memory_noteDecoded [Described β] (d : Dispatcher μ β) (address : UInt32) (space : Space) (b : β) :
    (d.noteDecoded address space b).memory = d.memory := by
  rw [noteDecoded, notify_eq]

@[simp] theorem memory_noteExecuted [Described β] (d : Dispatcher μ β) (address : UInt32) (space : Space) (b : β) :
    (d.noteExecuted address space b).memory = d.memory := by
  rw [noteExecuted, notify_eq]

variable [Processor σ] [CodeMemory μ β]

/-- What a lookup answers that does not make the search go on. -/
inductive Answers [Described β] (d : Dispatcher μ β) (s : Search μ σ) :
    Except DecodeError β × Dispatcher μ β × σ → Prop
  | code {fetch : SubMode → β × μ} (h : CodeMemory.lookup (space s.cpu) s.address s.memory = .code fetch) :
      Answers d s (.ok (fetch (subMode s.cpu)).1,
        noteDecoded { d with memory := (fetch (subMode s.cpu)).2 } s.address (space s.cpu) (fetch (subMode s.cpu)).1,
        s.cpu)
  | notCode {memory : μ} (h : CodeMemory.lookup (space s.cpu) s.address s.memory = .notCode memory) :
      Answers d s (.error (.notCode s.address), { d with memory }, s.cpu)
  | unexpected {fault : Fault} {memory : μ} (hspace : space s.cpu = .physical)
      (h : CodeMemory.lookup .physical s.address s.memory = .pageFault fault memory) :
      Answers d s (.error (.unexpectedPageFault s.address fault), { d with memory }, s.cpu)

theorem Answers.of_memory [Described β] {d : Dispatcher μ β} {memory : μ} {s : Search μ σ}
    {r : Except DecodeError β × Dispatcher μ β × σ} (h : Answers { d with memory } s r) : Answers d s r := by
  cases h with
  | code h => exact .code h
  | notCode h => exact .notCode h
  | unexpected hspace h => exact .unexpected hspace h

/-- A search either gets an answer or runs out of attempts, and until then meets page faults only. -/
theorem decodeWithin_cases [Described β] (attempts : Nat) (address : UInt32) (d : Dispatcher μ β) (cpu : σ) :
    ∃ misses s, Retries ⟨address, d.memory, cpu⟩ misses s ∧
      (misses.length < attempts ∧ Answers d s (decodeWithin attempts address d cpu) ∨
        misses.length = attempts ∧ decodeWithin attempts address d cpu =
          (.error (.faultLoop s.address maxFaultRetries), { d with memory := s.memory }, s.cpu)) := by
  induction attempts generalizing address d cpu with
  | zero => exact ⟨[], _, .nil _, .inr ⟨rfl, rfl⟩⟩
  | succ attempts ih =>
      rw [decodeWithin]
      dsimp only
      cases hlookup : CodeMemory.lookup (space cpu) address d.memory with
      | code fetch => exact ⟨[], _, .nil _, .inl ⟨Nat.succ_pos _, .code (s := ⟨address, d.memory, cpu⟩) hlookup⟩⟩
      | notCode memory =>
          exact ⟨[], _, .nil _, .inl ⟨Nat.succ_pos _, .notCode (s := ⟨address, d.memory, cpu⟩) hlookup⟩⟩
      | pageFault fault memory =>
          cases hspace : space cpu with
          | physical =>
              rw [hspace] at hlookup
              exact ⟨[], _, .nil _, .inl ⟨Nat.succ_pos _, .unexpected (s := ⟨address, d.memory, cpu⟩) hspace hlookup⟩⟩
          | linear =>
              rw [hspace] at hlookup
              obtain ⟨misses, s, hretries, hends⟩ := ih (instructionPointer (deliver .protectedMode fault cpu))
                { d with memory } (deliver .protectedMode fault cpu)
              refine ⟨⟨address, fault⟩ :: misses, s, .cons hspace hlookup hretries, ?_⟩
              rw [List.length_cons, Nat.add_lt_add_iff_right, Nat.add_right_cancel_iff]
              rcases hends with ⟨hlt, hanswers⟩ | hgivesUp
              · exact .inl ⟨hlt, hanswers.of_memory⟩
              · exact .inr hgivesUp

theorem decodeWithin_of_retries [Described β] {s s' : Search μ σ} {misses : List Miss} (h : Retries s misses s')
    (attempts : Nat) (d : Dispatcher μ β) :
    decodeWithin (misses.length + attempts) s.address { d with memory := s.memory } s.cpu =
      decodeWithin attempts s'.address { d with memory := s'.memory } s'.cpu := by
  induction h with
  | nil s => rw [List.length_nil, Nat.zero_add]
  | cons hspace hlookup _ ih =>
      rw [List.length_cons, Nat.add_right_comm, decodeWithin]
      simp only [hspace, hlookup]
      exact ih

/-- A search that does not give up hands over no more faults than it should. When it gives up it has
handed over one more than it says, and it names the place where the processor is to resume, which it
has not looked up. -/
theorem decodeAt_deliveries [Described β] (address : UInt32) (d : Dispatcher μ β) (cpu : σ) :
    ∃ misses s, Retries ⟨address, d.memory, cpu⟩ misses s ∧
      (d.decodeAt address cpu).2.2 = deliverMisses misses cpu ∧
      ((∀ a retries, (d.decodeAt address cpu).1 ≠ .error (.faultLoop a retries)) → misses.length ≤ maxFaultRetries) ∧
      ∀ a retries, (d.decodeAt address cpu).1 = .error (.faultLoop a retries) →
        retries = maxFaultRetries ∧ misses.length = retries + 1 ∧
          a = instructionPointer (d.decodeAt address cpu).2.2 := by
  obtain ⟨misses, s, hretries, hends⟩ := decodeWithin_cases (maxFaultRetries + 1) address d cpu
  rw [← decodeAt] at hends
  refine ⟨misses, s, hretries, ?_⟩
  rw [← hretries.cpu]
  rcases hends with ⟨hlt, hanswers⟩ | ⟨hlength, hgivesUp⟩
  · generalize d.decodeAt address cpu = r at hanswers
    refine ⟨?_, fun _ => Nat.le_of_lt_succ hlt, ?_⟩
    · cases hanswers <;> rfl
    · intro a retries hloop
      cases hanswers <;> cases hloop
  · rw [hgivesUp]
    refine ⟨rfl, fun hnot => absurd rfl (hnot _ _), ?_⟩
    rintro a retries ⟨⟩
    refine ⟨rfl, hlength, hretries.address_of_ne_nil ?_⟩
    rintro rfl
    cases hlength

def wandering : Monitor Machine := ⟨{ Machine.initial with control := 1 }, [5, 6, 7, 8, 9, 10, 11, 12, 13], #[]⟩

def faultingMemory (count : Nat) (mappings : List Mapping) : CodeMap :=
  { CodeMap.new (.new .standard 0) mappings with pageFaults := List.replicate count ⟨.pageFault, some 2⟩ }

theorem exists_deliveries_gt :
    ∃ (d : Dispatcher CodeMap Block) (cpu : Monitor Machine) (address : UInt32) (a : UInt32) (retries : Nat),
      (d.decodeAt address cpu).1 = .error (.faultLoop a retries) ∧
        maxFaultRetries < (d.decodeAt address cpu).2.2.inner.faults.length ∧
        retries ≠ (d.decodeAt address cpu).2.2.inner.faults.length ∧
        (d.decodeAt address cpu).2.1.memory.requests.back? ≠ some (.lookup .linear a) :=
  ⟨.new 1 (faultingMemory 9 []), wandering, 16, 13, 8, by decide +kernel⟩

theorem execute_cases [CodeBlock β σ] (d : Dispatcher μ β) (cpu : σ) :
    ∃ misses s, Retries ⟨instructionPointer cpu, d.memory, cpu⟩ misses s ∧
      ((∃ fetch b cpu', misses.length ≤ maxFaultRetries ∧
          CodeMemory.lookup (space s.cpu) s.address s.memory = .code fetch ∧
          follow (fetch (subMode s.cpu)).1 s.cpu maxReplacements = (b, cpu') ∧
          d.execute cpu = (.ok b,
            (noteDecoded { d with memory := (fetch (subMode s.cpu)).2 } s.address (space s.cpu)
              (fetch (subMode s.cpu)).1).noteExecuted (instructionPointer cpu) (space cpu') b, cpu')) ∨
        ∃ e memory, d.execute cpu = (.error e, { d with memory }, s.cpu)) := by
  obtain ⟨misses, s, hretries, hends⟩ := decodeWithin_cases (maxFaultRetries + 1) (instructionPointer cpu) d cpu
  rw [← decodeAt] at hends
  refine ⟨misses, s, hretries, ?_⟩
  rw [execute]
  dsimp only
  generalize d.decodeAt (instructionPointer cpu) cpu = r at hends ⊢
  rcases hends with ⟨hlt, hanswers⟩ | ⟨_, rfl⟩
  · cases hanswers with
    | @code fetch hlookup => exact .inl ⟨fetch, _, _, Nat.le_of_lt_succ hlt, hlookup, rfl, rfl⟩
    | notCode _ => exact .inr ⟨_, _, rfl⟩
    | unexpected _ _ => exact .inr ⟨_, _, rfl⟩
  · exact .inr ⟨_, _, rfl⟩

theorem execute_ok [CodeBlock β σ] {d : Dispatcher μ β} {cpu : σ} {b : β} (h : (d.execute cpu).1 = .ok b) :
    ∃ misses s fetch cpu', Retries ⟨instructionPointer cpu, d.memory, cpu⟩ misses s ∧
      misses.length ≤ maxFaultRetries ∧ CodeMemory.lookup (space s.cpu) s.address s.memory = .code fetch ∧
      follow (fetch (subMode s.cpu)).1 s.cpu maxReplacements = (b, cpu') ∧
      d.execute cpu = (.ok b,
        (noteDecoded { d with memory := (fetch (subMode s.cpu)).2 } s.address (space s.cpu)
          (fetch (subMode s.cpu)).1).noteExecuted (instructionPointer cpu) (space cpu') b, cpu') := by
  obtain ⟨misses, s, hretries, ⟨fetch, b', cpu', hlength, hlookup, hfollow, hexecute⟩ | ⟨e, memory, hexecute⟩⟩ :=
    d.execute_cases cpu
  · obtain rfl : b' = b := Except.ok.inj ((congrArg Prod.fst hexecute).symm.trans h)
    exact ⟨misses, s, fetch, cpu', hretries, hlength, hlookup, hfollow, hexecute⟩
  · cases (congrArg Prod.fst hexecute).symm.trans h

/-- A step tells where the processor stood when it began, and the address space that it left the
processor in. That is where its block was found exactly if page faults left the processor in its place
and the block left it in its address space. -/
theorem execute_reports [CodeBlock β σ] {d : Dispatcher μ β} {cpu : σ} {b : β} (h : (d.execute cpu).1 = .ok b) :
    let d' := (d.execute cpu).2.1
    let cpu' := (d.execute cpu).2.2
    ∃ misses s fetch, Retries ⟨instructionPointer cpu, d.memory, cpu⟩ misses s ∧
      CodeMemory.lookup (space s.cpu) s.address s.memory = .code fetch ∧
      d'.trace = d.trace.record ⟨instructionPointer cpu, b⟩ ∧
      d'.notices.toList = d.notices.toList ++
        (if d.listening then
          [.decoded s.address (space s.cpu) (fetch (subMode s.cpu)).1,
            .executed (instructionPointer cpu) (space cpu') b]
        else []) ∧
      (instructionPointer cpu = s.address ↔ instructionPointer (deliverMisses misses cpu) = instructionPointer cpu) ∧
      (space cpu' = space s.cpu ↔ isProtected cpu' = isProtected (deliverMisses misses cpu)) := by
  intro d' cpu'
  obtain ⟨misses, s, fetch, cpu'', hretries, -, hlookup, -, hexecute⟩ := execute_ok h
  have hcpu : cpu' = cpu'' := congrArg (·.2.2) hexecute
  have hdispatcher : d' = _ := congrArg (·.2.1) hexecute
  have haddress : s.address = instructionPointer (deliverMisses misses cpu) := by
    rw [hretries.address rfl, hretries.cpu]
  refine ⟨misses, s, fetch, hretries, hlookup, ?_, ?_, ?_, ?_⟩
  · simp [hdispatcher, noteExecuted, noteDecoded, notify_eq]
  · cases hlistening : d.listening <;> simp [hdispatcher, hcpu, noteExecuted, noteDecoded, notify_eq, hlistening]
  · rw [haddress]
    exact eq_comm
  · rw [hretries.cpu]
    exact space_eq_iff

def leaveProtectedMode : List Instruction :=
  [⟨3, [Microcode.load0Imm.word, 0, Microcode.storeCr0.word, Microcode.eipUpdate.word]⟩]

def besideTheCode : Dispatcher CodeMap Block :=
  { new 1 (faultingMemory 1 [⟨0, 4096, .region (.ofPrograms [(5, leaveProtectedMode)] 2)⟩]) with listening := true }

theorem execute_reports_besideTheCode :
    ∃ b, (besideTheCode.execute wandering).1 = .ok b ∧
      (besideTheCode.execute wandering).2.1.trace = besideTheCode.trace.record ⟨0, b⟩ ∧
      ∃ misses s, Retries ⟨0, besideTheCode.memory, wandering⟩ misses s ∧
        (0 = s.address ↔ instructionPointer (deliverMisses misses wandering) = 0) := by
  obtain ⟨b, hb⟩ : ∃ b, (besideTheCode.execute wandering).1 = .ok b := exists_eq_ok (by decide +kernel)
  obtain ⟨misses, s, _, hretries, _, htrace, _, haddress, _⟩ := execute_reports hb
  exact ⟨b, hb, htrace, misses, s, hretries, haddress⟩

theorem exists_report_elsewhere :
    ∃ (d : Dispatcher CodeMap Block) (cpu : Monitor Machine),
      (d.execute cpu).1.toOption.isSome = true ∧
      (d.execute cpu).2.1.notices.toList.map Notice.place = [(5, .linear), (0, .physical)] ∧
      (d.execute cpu).2.1.trace.address? 0 = some 0 :=
  ⟨besideTheCode, wandering, by decide +kernel⟩

end Dispatcher

end Dynarec
