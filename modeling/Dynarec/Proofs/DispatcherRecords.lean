import Dynarec.Dispatcher
import Mathlib.Algebra.GroupWithZero.Nat
import Mathlib.Data.List.DropRight

namespace Dynarec

namespace Trace

variable {α : Type} {t : Trace α} {visits : List (Visit α)}

/-- The slots hold the latest of the visits, the one with index i in slot i modulo the capacity. -/
structure Holds (t : Trace α) (visits : List (Visit α)) : Prop where
  executed : t.executed = visits.length
  slot : ∀ i, i < visits.length → visits.length ≤ i + t.capacity → t.slots[i % t.capacity]? = some visits[i]?

theorem holds_new (capacity : Nat) : (new capacity : Trace α).Holds [] :=
  ⟨rfl, fun i h => absurd h (Nat.not_lt_zero i)⟩

theorem holds_reset (t : Trace α) : t.reset.Holds [] :=
  ⟨rfl, fun i h => absurd h (Nat.not_lt_zero i)⟩

theorem mod_ne_mod_of_lt {i n c : Nat} (hi : i < n) (hn : n < i + c) : n % c ≠ i % c := by
  intro heq
  have hdvd : (n - i) % c = 0 := Nat.sub_mod_eq_zero_of_mod_eq heq
  rw [Nat.mod_eq_of_lt (by omega)] at hdvd
  omega

theorem Holds.record (h : t.Holds visits) (v : Visit α) : (t.record v).Holds (visits ++ [v]) where
  executed := by rw [executed_record, h.executed, List.length_append, List.length_singleton]
  slot := by
    intro i hi hlate
    rw [List.length_append, List.length_singleton] at hi hlate
    rw [capacity_record] at hlate ⊢
    rw [Trace.record, Array.getElem?_set, cursor, h.executed]
    change (if visits.length % t.capacity = i % t.capacity then _ else _) = _
    by_cases hlast : i = visits.length
    · rw [hlast, if_pos rfl, List.getElem?_concat_length]
    · have hlt : i < visits.length := by omega
      rw [if_neg (mod_ne_mod_of_lt hlt (by omega)), List.getElem?_append_left hlt]
      exact h.slot i hlt (by omega)

theorem Holds.visit? (h : t.Holds visits) {row : Nat} (hrow : row < t.length) :
    t.visit? row = visits[visits.length - t.length + row]? := by
  have hlength := t.length_eq_min
  rw [h.executed] at hlength
  have hslot := h.slot (visits.length - t.length + row) (by omega) (by omega)
  rw [Trace.visit?, slot?, if_pos hrow]
  by_cases hwrapped : t.isWrapped = true
  · have hlt : t.capacity < visits.length := by simpa [isWrapped, h.executed] using hwrapped
    have hindex : visits.length - t.length + row + t.capacity = row + visits.length := by omega
    rw [← Nat.add_mod_right, hindex] at hslot
    have hcursor : t.cursor = visits.length % t.capacity := by rw [cursor, h.executed, capacity]
    rw [if_pos hwrapped, hcursor, Nat.add_mod_mod, Option.bind_eq_bind, Option.bind_some, hslot]
    rfl
  · have hle : visits.length ≤ t.capacity := by simpa [isWrapped, h.executed] using hwrapped
    rw [Nat.mod_eq_of_lt (by omega)] at hslot
    have hindex : visits.length - t.length + row = row := by omega
    rw [hindex] at hslot ⊢
    rw [if_neg hwrapped, Option.bind_eq_bind, Option.bind_some, hslot]
    rfl

theorem visit?_eq_none {row : Nat} (h : t.length ≤ row) : t.visit? row = none := by
  rw [visit?, slot?, if_neg (Nat.not_lt.mpr h)]
  rfl

end Trace

namespace Dispatcher

variable {μ β σ : Type}

structure Records (β : Type) where
  trace : Trace β
  instructions : UInt64
  decoded : UInt64

def records (d : Dispatcher μ β) : Records β := ⟨d.trace, d.instructionsRun, d.instructionsDecoded⟩

/-- What a host does with a dispatcher. It may bring another processor each time. -/
inductive Action (μ σ : Type)
  | execute (cpu : σ)
  | decode (address : UInt32) (cpu : σ)
  | reset
  | change (memory : μ) (listening : Bool)

/-- What came of an action: the block that was found, if any, and the block that ran last. -/
inductive Entry (β : Type)
  | executed (address : UInt32) (found ran : Option β)
  | decoded (found : Option β)
  | reset
  | changed

namespace Entry

def isReset : Entry β → Bool
  | reset => true
  | _ => false

def visit? : Entry β → Option (Visit β)
  | executed address _ ran => ran.map fun b => ⟨address, b⟩
  | _ => none

def found? : Entry β → Option β
  | executed _ found _ | decoded found => found
  | _ => none

def recent (log : List (Entry β)) : List (Entry β) := log.rtakeWhile fun e => !e.isReset

def visits (log : List (Entry β)) : List (Visit β) := (recent log).filterMap visit?

/-- The blocks found since the last reset, whether or not they were to run. -/
def found (log : List (Entry β)) : List β := (recent log).filterMap found?

theorem filterMap_recent_concat {α : Type} (f : Entry β → Option α) (log : List (Entry β)) (e : Entry β) :
    (recent (log ++ [e])).filterMap f = if e.isReset then [] else (recent log).filterMap f ++ (f e).toList := by
  rw [recent, List.rtakeWhile_concat]
  cases e.isReset with
  | true => rfl
  | false => cases h : f e <;> simp [recent, h]

end Entry

section Counting

theorem records_notify (d : Dispatcher μ β) (n : Notice β) : (d.notify n).records = d.records := by
  rw [notify]
  split <;> rfl

variable [Described β]

def instructionCount (bs : List β) : Nat := (bs.map fun b => (Described.info b).x86Count).sum

@[simp] theorem instructionCount_nil : instructionCount ([] : List β) = 0 := rfl

@[simp] theorem instructionCount_append (bs bs' : List β) :
    instructionCount (bs ++ bs') = instructionCount bs + instructionCount bs' := by
  simp [instructionCount]

namespace Records

def update (r : Records β) : Entry β → Records β
  | .executed address found ran =>
    ⟨(ran.map fun b => r.trace.record ⟨address, b⟩).getD r.trace, r.instructions + .ofNat (instructionCount ran.toList),
      r.decoded + .ofNat (instructionCount found.toList)⟩
  | .decoded found => { r with decoded := r.decoded + .ofNat (instructionCount found.toList) }
  | .reset => ⟨r.trace.reset, 0, 0⟩
  | .changed => r

theorem update_decoded_none (r : Records β) : r.update (.decoded none) = r := by simp [update]

theorem update_executed_none (r : Records β) (address : UInt32) : r.update (.executed address none none) = r := by
  simp [update]

theorem capacity_update (r : Records β) (e : Entry β) : (r.update e).trace.capacity = r.trace.capacity := by
  cases e with
  | executed address found ran => cases ran <;> simp [update]
  | decoded found | changed => rfl
  | reset => exact r.trace.capacity_reset

structure Tallies (r : Records β) (log : List (Entry β)) : Prop where
  trace : r.trace.Holds (Entry.visits log)
  instructions : r.instructions = .ofNat (instructionCount ((Entry.visits log).map Visit.block))
  decoded : r.decoded = .ofNat (instructionCount (Entry.found log))

theorem Tallies.update {r : Records β} {log : List (Entry β)} (h : r.Tallies log) (e : Entry β) :
    (r.update e).Tallies (log ++ [e]) := by
  have hvisits : Entry.visits (log ++ [e]) = if e.isReset then [] else Entry.visits log ++ e.visit?.toList :=
    Entry.filterMap_recent_concat Entry.visit? log e
  have hfound : Entry.found (log ++ [e]) = if e.isReset then [] else Entry.found log ++ e.found?.toList :=
    Entry.filterMap_recent_concat Entry.found? log e
  cases e with
  | executed address found ran =>
      constructor
      · rw [hvisits]
        cases ran with
        | none => simpa [Records.update, Entry.isReset, Entry.visit?] using h.trace
        | some b => exact h.trace.record ⟨address, b⟩
      · cases ran <;> simp [Records.update, hvisits, Entry.isReset, Entry.visit?, h.instructions]
      · simp [Records.update, hfound, Entry.isReset, Entry.found?, h.decoded]
  | decoded found =>
      constructor
      · simpa [Records.update, hvisits, Entry.isReset, Entry.visit?] using h.trace
      · simp [Records.update, hvisits, Entry.isReset, Entry.visit?, h.instructions]
      · simp [Records.update, hfound, Entry.isReset, Entry.found?, h.decoded]
  | reset =>
      rw [Entry.isReset, if_pos rfl] at hvisits hfound
      constructor
      · rw [hvisits]
        exact r.trace.holds_reset
      · rw [hvisits]
        rfl
      · rw [hfound]
        rfl
  | changed =>
      constructor
      · simpa [Records.update, hvisits, Entry.isReset, Entry.visit?] using h.trace
      · simp [Records.update, hvisits, Entry.isReset, Entry.visit?, h.instructions]
      · simp [Records.update, hfound, Entry.isReset, Entry.found?, h.decoded]

end Records

theorem records_noteDecoded (d : Dispatcher μ β) (address : UInt32) (space : Space) (b : β) :
    (d.noteDecoded address space b).records = d.records.update (.decoded (some b)) := by
  rw [noteDecoded, records_notify]
  simp [records, Records.update, instructionCount]

theorem records_noteExecuted (d : Dispatcher μ β) (address : UInt32) (space : Space) (b : β) :
    (d.noteExecuted address space b).records =
      ⟨d.trace.record ⟨address, b⟩, d.instructionsRun + .ofNat (Described.info b).x86Count, d.instructionsDecoded⟩ := by
  have hkept := d.records_notify (.executed address space b)
  simp only [records, Records.mk.injEq] at hkept
  obtain ⟨htrace, hinstructions, hdecoded⟩ := hkept
  simp only [records, noteExecuted, htrace, hinstructions, hdecoded]

/-- However often it is tried, looking for a block counts the block once, if there is one. -/
theorem records_decodeWithin [Processor σ] [CodeMemory μ β] (attempts : Nat) (address : UInt32) (d : Dispatcher μ β)
    (cpu : σ) :
    (decodeWithin attempts address d cpu).2.1.records =
      d.records.update (.decoded (decodeWithin attempts address d cpu).1.toOption) := by
  induction attempts generalizing address d cpu with
  | zero => exact (Records.update_decoded_none d.records).symm
  | succ attempts ih =>
      rw [decodeWithin]
      dsimp only
      cases CodeMemory.lookup (Processor.space cpu) address d.memory with
      | code fetch => exact records_noteDecoded _ _ _ _
      | notCode memory => exact (Records.update_decoded_none d.records).symm
      | pageFault fault memory =>
          cases Processor.space cpu with
          | physical => exact (Records.update_decoded_none d.records).symm
          | linear => exact ih _ _ _

end Counting

variable [Processor σ] [CodeMemory μ β] [CodeBlock β σ]

def perform (d : Dispatcher μ β) : Action μ σ → Dispatcher μ β
  | .execute cpu => (d.execute cpu).2.1
  | .decode address cpu => (d.decodeAt address cpu).2.1
  | .reset => d.reset
  | .change memory listening => { d with memory, listening }

def entry (d : Dispatcher μ β) : Action μ σ → Entry β
  | .execute cpu =>
    let address := Processor.instructionPointer cpu
    .executed address (d.decodeAt address cpu).1.toOption (d.execute cpu).1.toOption
  | .decode address cpu => .decoded (d.decodeAt address cpu).1.toOption
  | .reset => .reset
  | .change _ _ => .changed

def performAll (d : Dispatcher μ β) (history : List (Action μ σ)) : Dispatcher μ β := history.foldl perform d

def log (d : Dispatcher μ β) : List (Action μ σ) → List (Entry β)
  | [] => []
  | action :: history => d.entry action :: (d.perform action).log history

theorem records_perform (d : Dispatcher μ β) (action : Action μ σ) :
    (d.perform action).records = d.records.update (d.entry action) := by
  cases action with
  | execute cpu =>
      have hdecode := records_decodeWithin (maxFaultRetries + 1) (Processor.instructionPointer cpu) d cpu
      rw [← decodeAt] at hdecode
      rw [perform, entry, execute]
      rcases hanswer : d.decodeAt (Processor.instructionPointer cpu) cpu with ⟨answer, d', cpu'⟩
      rw [hanswer] at hdecode
      cases answer with
      | error e =>
          have hnothing : d'.records = d.records := hdecode.trans (Records.update_decoded_none _)
          exact hnothing.trans (Records.update_executed_none _ _).symm
      | ok found =>
          have hfound : d'.records = d.records.update (.decoded (some found)) := hdecode
          simp only [records, Records.update, Records.mk.injEq] at hfound
          obtain ⟨htrace, hinstructions, hdecoded⟩ := hfound
          dsimp only
          rw [records_noteExecuted, htrace, hinstructions, hdecoded]
          simp [records, Records.update, Except.toOption, instructionCount]
  | decode address cpu => exact records_decodeWithin _ address d cpu
  | reset | change memory listening => rfl

theorem records_decodeAt_of_error {d : Dispatcher μ β} {address : UInt32} {cpu : σ} {e : DecodeError}
    (h : (d.decodeAt address cpu).1 = .error e) : (d.decodeAt address cpu).2.1.records = d.records := by
  have hrecords := d.records_perform (.decode address cpu)
  rw [perform, entry, h] at hrecords
  exact hrecords.trans (Records.update_decoded_none _)

theorem records_execute_of_error {d : Dispatcher μ β} {cpu : σ} {e : DecodeError} (h : (d.execute cpu).1 = .error e) :
    (d.execute cpu).2.1.records = d.records := by
  have hfound : ∃ e', (d.decodeAt (Processor.instructionPointer cpu) cpu).1 = .error e' := by
    rw [execute] at h
    rcases hanswer : d.decodeAt (Processor.instructionPointer cpu) cpu with ⟨answer, d', cpu'⟩
    rw [hanswer] at h
    cases answer with
    | error e' => exact ⟨e', rfl⟩
    | ok found => cases h
  obtain ⟨e', hfound⟩ := hfound
  have hrecords := d.records_perform (.execute cpu)
  rw [perform, entry, h, hfound] at hrecords
  exact hrecords.trans (Records.update_executed_none _ _)

theorem capacity_performAll (d : Dispatcher μ β) (history : List (Action μ σ)) :
    (d.performAll history).trace.capacity = d.trace.capacity := by
  induction history generalizing d with
  | nil => rfl
  | cons action history ih =>
      have hstep : (d.perform action).records.trace.capacity = d.trace.capacity := by
        rw [records_perform, Records.capacity_update]
        rfl
      exact (ih (d.perform action)).trans hstep

theorem tallies_performAll {d : Dispatcher μ β} {past : List (Entry β)} (h : d.records.Tallies past)
    (history : List (Action μ σ)) : (d.performAll history).records.Tallies (past ++ d.log history) := by
  induction history generalizing d past with
  | nil => simpa [performAll, log] using h
  | cons action history ih =>
      have hstep : (d.perform action).records.Tallies (past ++ [d.entry action]) := by
        rw [records_perform]
        exact h.update _
      simpa [performAll, log] using ih hstep

/-- Whatever was done with a dispatcher, its trace shows the latest of the blocks that ran since the
last reset, and where each was started. Its counts are those of all blocks run and found since, as far as 64 bits
hold them. -/
theorem records_exact (capacity : Nat) (memory : μ) (history : List (Action μ σ)) :
    let d : Dispatcher μ β := (new capacity memory).performAll history
    let log := (new capacity memory).log history
    let visits := Entry.visits log
    d.trace.executed = visits.length ∧
      d.trace.length = min visits.length (max capacity 1) ∧
      (∀ row < d.trace.length, ∃ v, visits[visits.length - d.trace.length + row]? = some v ∧
        d.trace.address? row = some v.address ∧ d.trace.block? row = some v.block) ∧
      (∀ row ≥ d.trace.length, d.trace.address? row = none ∧ d.trace.block? row = none) ∧
      d.instructions = instructionCount (visits.map Visit.block) % UInt64.size ∧
      d.decoded = instructionCount (Entry.found log) % UInt64.size ∧
      (∀ (cpu : σ) e, (d.execute cpu).1 = .error e → (d.execute cpu).2.1.records = d.records) ∧
      ∀ address (cpu : σ) e, (d.decodeAt address cpu).1 = .error e →
        (d.decodeAt address cpu).2.1.records = d.records := by
  intro d log visits
  have hnew : (new capacity memory : Dispatcher μ β).records.Tallies [] := ⟨Trace.holds_new capacity, rfl, rfl⟩
  obtain ⟨htrace, hinstructions, hdecoded⟩ : d.records.Tallies log := tallies_performAll hnew history
  have hexecuted : d.trace.executed = visits.length := htrace.executed
  have hcapacity : d.trace.capacity = max capacity 1 := by
    rw [capacity_performAll, new, Trace.capacity_new]
  have hlength : d.trace.length = min visits.length (max capacity 1) := by
    rw [Trace.length_eq_min, hexecuted, hcapacity]
  refine ⟨hexecuted, hlength, ?_, ?_, ?_, ?_, ?_, ?_⟩
  · intro row hrow
    have hindex : visits.length - d.trace.length + row < visits.length := by omega
    have hvisit : d.trace.visit? row = visits[visits.length - d.trace.length + row]? := htrace.visit? hrow
    rw [List.getElem?_eq_getElem hindex] at hvisit
    refine ⟨_, List.getElem?_eq_getElem hindex, ?_, ?_⟩
    · rw [Trace.address?, hvisit, Option.map_some]
    · rw [Trace.block?, hvisit, Option.map_some]
  · intro row hrow
    rw [Trace.address?, Trace.block?, Trace.visit?_eq_none hrow]
    exact ⟨rfl, rfl⟩
  · exact (congrArg UInt64.toNat hinstructions).trans UInt64.toNat_ofNat'
  · exact (congrArg UInt64.toNat hdecoded).trans UInt64.toNat_ofNat'
  · intro cpu e herror
    exact records_execute_of_error herror
  · intro address cpu e herror
    exact records_decodeAt_of_error herror

end Dispatcher

end Dynarec
