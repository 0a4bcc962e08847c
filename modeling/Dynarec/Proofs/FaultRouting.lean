import Dynarec.Proofs.CommitOrder
import Dynarec.Proofs.RegionMemory
import Dynarec.Proofs.RememberedBlocks

namespace Dynarec

open Processor

theorem Fragment.faults_perform (f : Fragment) (a : Nat → UInt32) (cpu : Machine) :
    (f.perform a cpu).2.faults = cpu.faults := by
  have hwrite (segment offset : UInt32) (w : Width) (value : UInt32) :
      (Machine.writeMemory segment offset w value cpu).2.faults = cpu.faults := by
    rw [Machine.writeMemory]
    split <;> rfl
  cases f with
  | store w | pushStore => exact hwrite _ _ _ _
  | portInChecked | portOutChecked | haltChecked =>
      rw [perform]
      split <;> rfl
  | _ => rfl

theorem Access.faults_replay (as : List Access) (cpu : Machine) : (as.foldl replay cpu).faults = cpu.faults := by
  induction as generalizing cpu with
  | nil => rfl
  | cons a as ih =>
      refine (ih _).trans ?_
      cases a with
      | get e | set e value => rfl
      | apply fragment args => exact fragment.faults_perform _ cpu

namespace Block

theorem faults_execute (b : Block) (cpu : Machine) : (b.execute cpu).2.faults = cpu.faults := by
  cases b with
  | procedure p =>
      change (p.body.run p.mode p.x86Count cpu).2.faults = cpu.faults
      rw [Body.cpu_run]
      exact Access.faults_replay _ cpu
  | _ => rfl

/-- The block is for a mode, and so is all that can replace it. -/
def Keeps (mode : Mode) : Block → Prop
  | stale info next => info.mode = mode ∧ next.Keeps mode
  | b => b.info.mode = mode

theorem Keeps.mode_eq {mode : Mode} {b : Block} (h : b.Keeps mode) : b.info.mode = mode := by
  cases b with
  | stale info next => exact h.1
  | _ => exact h

theorem Keeps.replaced {mode : Mode} {b next : Block} (h : b.Keeps mode) {cpu cpu' : Machine}
    (hexecute : b.execute cpu = (.replaced next, cpu')) : next.Keeps mode := by
  cases b with
  | stale info next' =>
      cases hexecute
      exact h.2
  | endless info =>
      cases hexecute
      exact h
  | _ => cases hexecute

end Block

namespace Dispatcher

theorem faults_settle (mode : Mode) (e : Ending) (cpu : Machine) :
    ∃ raised : Option Fault, (settle mode e cpu).faults = cpu.faults ++ raised.toList.map (mode, ·) := by
  cases e with
  | faulted fault retired => exact ⟨some fault, rfl⟩
  | completed count | switched | broken what => exact ⟨none, (List.append_nil _).symm⟩

theorem faults_follow_of_ended {mode : Mode} {b : Block} (h : b.Keeps mode) {cpu cpu' : Machine} {e : Ending}
    (hexecute : b.execute cpu = (.ended e, cpu')) (replacements : Nat) :
    ∃ raised : Option Fault, (follow b cpu replacements).2.faults = cpu.faults ++ raised.toList.map (mode, ·) := by
  have hfollow : follow b cpu replacements = (b, settle b.info.mode e cpu') := by
    cases replacements <;> rw [follow, show CodeBlock.execute b cpu = _ from hexecute] <;> rfl
  have hframe := b.faults_execute cpu
  rw [hexecute] at hframe
  obtain ⟨raised, hsettle⟩ := faults_settle mode e cpu'
  refine ⟨raised, ?_⟩
  rw [hfollow, h.mode_eq, hsettle, hframe]

/-- Blocks for a mode raise at most one fault before they are done with, for the handler of that mode. -/
theorem faults_follow {mode : Mode} {b : Block} (h : b.Keeps mode) (cpu : Machine) (replacements : Nat) :
    ∃ raised : Option Fault, (follow b cpu replacements).2.faults = cpu.faults ++ raised.toList.map (mode, ·) := by
  induction replacements generalizing b cpu with
  | zero =>
      cases hexecute : b.execute cpu with
      | mk outcome cpu' =>
          cases outcome with
          | ended e => exact faults_follow_of_ended h hexecute 0
          | replaced next =>
              have hframe := b.faults_execute cpu
              rw [hexecute] at hframe
              rw [follow, show CodeBlock.execute b cpu = _ from hexecute]
              exact ⟨none, hframe.trans (List.append_nil _).symm⟩
  | succ n ih =>
      cases hexecute : b.execute cpu with
      | mk outcome cpu' =>
          cases outcome with
          | ended e => exact faults_follow_of_ended h hexecute (n + 1)
          | replaced next =>
              have hframe := b.faults_execute cpu
              rw [hexecute] at hframe
              -- the next block starts with the faults of this one, which are none
              rw [follow, show CodeBlock.execute b cpu = _ from hexecute, ← hframe]
              exact ih (h.replaced hexecute) cpu'

end Dispatcher

theorem CodeStore.invariant_keeps {ι : Type} :
    Invariant (fun c => c.cache.Filed) (fun (_ : ι) r => r.Suits fun s b => b.Keeps s.mode)
      (fun _ s _ b => b.Keeps s.mode) where
  fetch hc hr s offset := hr.fetch (fun _ _ hmode => hmode) hc s offset
  invalidate hr := ⟨hr.fallback, List.forall_mem_nil _⟩
  evict hc mode name := hc.evict mode name
  clear hc := hc.serve .clear

def fetchFaults (misses : List Miss) : List (Mode × Fault) := misses.map fun m => (.protectedMode, m.fault)

theorem deliverMisses_eq (misses : List Miss) (cpu : Machine) :
    deliverMisses misses cpu = { cpu with faults := cpu.faults ++ fetchFaults misses } := by
  induction misses generalizing cpu with
  | nil => simp [deliverMisses, fetchFaults]
  | cons m misses ih =>
      refine (ih _).trans ?_
      simp [deliver, fetchFaults]

theorem Processor.mode_subMode_eq_iff {σ : Type} [Processor σ] {cpu : σ} (h : isProtected cpu = true) :
    (subMode cpu).mode = .protectedMode ↔ isVirtual8086 cpu = false := by
  rw [subMode, h]
  cases isVirtual8086 cpu <;> cases isWide cpu <;> decide

namespace Search

variable {μ : Type} [CodeMemory μ Block] {s s' : Search μ Machine} {misses : List Miss}

theorem Retries.subMode_eq (h : Retries s misses s') : subMode s'.cpu = subMode s.cpu := by
  rw [h.cpu, deliverMisses_eq]
  rfl

theorem Retries.faults_eq (h : Retries s misses s') : s'.cpu.faults = s.cpu.faults ++ fetchFaults misses := by
  rw [h.cpu, deliverMisses_eq]

theorem Retries.routed_iff (h : Retries s misses s') :
    (∀ x ∈ fetchFaults misses, x.1 = (subMode s.cpu).mode) ↔ misses = [] ∨ isVirtual8086 s.cpu = false := by
  cases h with
  | nil => simp [fetchFaults]
  | cons hspace _ _ =>
      have hprotected : isProtected s.cpu = true := by
        rw [space] at hspace
        split at hspace
        · assumption
        · cases hspace
      rw [← mode_subMode_eq_iff hprotected]
      constructor
      · intro hall
        exact .inr (hall _ List.mem_cons_self).symm
      · rintro (hnil | hmode)
        · cases hnil
        · intro x hx
          obtain ⟨m, _, rfl⟩ := List.mem_map.mp hx
          exact hmode.symm

end Search

namespace Dispatcher

open Search

variable {μ ι : Type} [CodeMemory μ Block] [DecidableEq ι] {R : RegionMemory μ ι}

theorem decodeAt_faults (d : Dispatcher μ Block) (address : UInt32) (cpu : Machine) :
    ∃ misses s, Retries ⟨address, d.memory, cpu⟩ misses s ∧
      (d.decodeAt address cpu).2.2.faults = cpu.faults ++ fetchFaults misses := by
  obtain ⟨misses, s, hretries, hends⟩ := decodeWithin_cases (maxFaultRetries + 1) address d cpu
  rw [← decodeAt] at hends
  refine ⟨misses, s, hretries, ?_⟩
  rw [← hretries.faults_eq]
  generalize d.decodeAt address cpu = r at hends
  rcases hends with ⟨_, hanswers⟩ | ⟨_, rfl⟩
  · cases hanswers <;> rfl
  · rfl

section KeepsModes

variable {d : Dispatcher μ Block}
  (h : R.Holds (fun c => c.cache.Filed) (fun _ r => r.Suits fun s b => b.Keeps s.mode) d.memory)

include h

theorem execute_faults (cpu : Machine) :
    ∃ misses s, ∃ raised : Option Fault, Retries ⟨instructionPointer cpu, d.memory, cpu⟩ misses s ∧
      (d.execute cpu).2.2.faults =
        cpu.faults ++ fetchFaults misses ++ raised.toList.map ((subMode cpu).mode, ·) := by
  obtain ⟨misses, s, hretries, hends⟩ := d.execute_cases cpu
  have hfaults : s.cpu.faults = cpu.faults ++ fetchFaults misses := hretries.faults_eq
  rcases hends with ⟨fetch, b, cpu', _, hlookup, hfollow, hexecute⟩ | ⟨e, memory, hexecute⟩
  · obtain ⟨_, _, _, hfetch⟩ := (h.retries hretries).code CodeStore.invariant_keeps hlookup
    -- delivering the faults left the processor in its sub-mode
    have hkeeps : (fetch (subMode s.cpu)).1.Keeps (subMode cpu).mode := by
      have hblock := (hfetch (subMode s.cpu)).1
      rwa [hretries.subMode_eq] at hblock ⊢
    obtain ⟨raised, hraised⟩ := faults_follow hkeeps s.cpu maxReplacements
    refine ⟨misses, s, raised, hretries, ?_⟩
    rw [hfollow, hfaults] at hraised
    rw [hexecute]
    exact hraised
  · refine ⟨misses, s, none, hretries, ?_⟩
    rw [hexecute, Option.toList_none, List.map_nil, List.append_nil]
    exact hfaults

theorem routed_of_holds (cpu : Machine) :
    let home := (subMode cpu).mode
    (∀ address misses s, Retries ⟨address, d.memory, cpu⟩ misses s → subMode s.cpu = subMode cpu ∧
      ((∀ x ∈ fetchFaults misses, x.1 = home) ↔ misses = [] ∨ isVirtual8086 cpu = false)) ∧
    (∀ address, ∃ misses s, Retries ⟨address, d.memory, cpu⟩ misses s ∧
      (d.decodeAt address cpu).2.2.faults = cpu.faults ++ fetchFaults misses) ∧
    ∃ misses s, ∃ raised : Option Fault, Retries ⟨instructionPointer cpu, d.memory, cpu⟩ misses s ∧
      (d.execute cpu).2.2.faults = cpu.faults ++ fetchFaults misses ++ raised.toList.map (home, ·) := by
  refine ⟨?_, fun address => d.decodeAt_faults address cpu, execute_faults h cpu⟩
  intro address misses s hretries
  exact ⟨hretries.subMode_eq, hretries.routed_iff⟩

end KeepsModes

theorem holds_of_fallbacks {config : Config} {firstStamp : Nat} {memory : μ} (hcarrier : R.carrier memory)
    (hcompiler : (R.store memory).compiler = .new config firstStamp)
    (hregions : ∀ i r, (R.store memory).region? i = some r → ∃ decode fallback, r = .new decode fallback ∧
      ∀ s offset, (fallback s offset).Keeps s.mode) :
    R.Holds (fun c => c.cache.Filed) (fun _ r => r.Suits fun s b => b.Keeps s.mode) memory := by
  refine ⟨hcarrier, ?_, ?_⟩
  · rw [hcompiler]
    exact Cache.filed_empty
  · intro i r hr
    obtain ⟨decode, fallback, rfl, hfallback⟩ := hregions i r hr
    exact Region.suits_new decode hfallback

/-- The faults of a search all go to the handler of protected mode. What a block raises goes to that of
the mode in which the block was looked up, whatever the memory is like and whatever the dispatcher did before. So a
fault misses the handler of its mode exactly if it is met while code is looked for in virtual 8086 mode. -/
theorem faults_routed (R : RegionMemory μ ι) (config : Config) (firstStamp : Nat) {memory : μ}
    (hcarrier : R.carrier memory) (hcompiler : (R.store memory).compiler = .new config firstStamp)
    (hregions : ∀ i r, (R.store memory).region? i = some r → ∃ decode fallback, r = .new decode fallback ∧
      ∀ s offset, (fallback s offset).Keeps s.mode)
    {d : Dispatcher μ Block} (hd : R.Reachable (new config.traceCapacity memory) d) (cpu : Machine) :
    let home := (subMode cpu).mode
    (∀ address misses s, Retries ⟨address, d.memory, cpu⟩ misses s → subMode s.cpu = subMode cpu ∧
      ((∀ x ∈ fetchFaults misses, x.1 = home) ↔ misses = [] ∨ isVirtual8086 cpu = false)) ∧
    (∀ address, ∃ misses s, Retries ⟨address, d.memory, cpu⟩ misses s ∧
      (d.decodeAt address cpu).2.2.faults = cpu.faults ++ fetchFaults misses) ∧
    ∃ misses s, ∃ raised : Option Fault, Retries ⟨instructionPointer cpu, d.memory, cpu⟩ misses s ∧
      (d.execute cpu).2.2.faults = cpu.faults ++ fetchFaults misses ++ raised.toList.map (home, ·) := by
  have hholds := holds_of_fallbacks hcarrier hcompiler hregions
  exact routed_of_holds (RegionMemory.Holds.reachable CodeStore.invariant_keeps hholds hd) cpu

section CodeMap

variable {mappings : List Mapping} (hmappings : ∀ m ∈ mappings, ∃ decode fallback,
  m.content = .region (.new decode fallback) ∧ ∀ s offset, (fallback s offset).Keeps (SubMode.mode s))

include hmappings

theorem hasRegions_mappings (compiler : Compiler) :
    (CodeMap.new compiler mappings).HasRegions (mappings.map Mapping.bounds) := by
  refine ⟨rfl, fun m hm => ?_⟩
  obtain ⟨decode, fallback, hcontent, _⟩ := hmappings m hm
  exact ⟨_, hcontent⟩

theorem region?_mappings {compiler : Compiler} {i : Nat} {r : Region}
    (h : (CodeMap.new compiler mappings).store.region? i = some r) :
    ∃ decode fallback, r = .new decode fallback ∧ ∀ s offset, (fallback s offset).Keeps (SubMode.mode s) := by
  obtain ⟨m, hm, hr⟩ := Option.bind_eq_some_iff.mp h
  obtain ⟨decode, fallback, hcontent, hfallback⟩ := hmappings m (List.mem_of_getElem? hm)
  rw [hcontent] at hr
  cases hr
  exact ⟨decode, fallback, rfl, hfallback⟩

theorem faults_routed_codeMap (config : Config) (firstStamp : Nat) (history : List Event) (cpu : Machine) :
    let d := history.foldl handle (new config.traceCapacity (.new (.new config firstStamp) mappings))
    let home := (subMode cpu).mode
    (∀ address misses s, Retries ⟨address, d.memory, cpu⟩ misses s → subMode s.cpu = subMode cpu ∧
      ((∀ x ∈ fetchFaults misses, x.1 = home) ↔ misses = [] ∨ isVirtual8086 cpu = false)) ∧
    (∀ address, ∃ misses s, Retries ⟨address, d.memory, cpu⟩ misses s ∧
      (d.decodeAt address cpu).2.2.faults = cpu.faults ++ fetchFaults misses) ∧
    ∃ misses s, ∃ raised : Option Fault, Retries ⟨instructionPointer cpu, d.memory, cpu⟩ misses s ∧
      (d.execute cpu).2.2.faults = cpu.faults ++ fetchFaults misses ++ raised.toList.map (home, ·) := by
  intro d
  have hstart := hasRegions_mappings hmappings (.new config firstStamp)
  have hd := reachable_foldl_handle hstart config.traceCapacity history
  have hholds : (CodeMap.regions (mappings.map Mapping.bounds)).Holds _ _ _ :=
    holds_of_fallbacks hstart rfl fun _ _ => region?_mappings hmappings
  exact routed_of_holds (RegionMemory.Holds.reachable CodeStore.invariant_keeps hholds hd) cpu

end CodeMap

def dividing : Mapping :=
  ⟨0, 4096, .region (.new (fun _ _ => []) fun s _ => .raise ⟨"divide", s.mode, 1, 2⟩ .divideError 0)⟩

def inVirtual8086 : Machine := set .virtual8086 1 { Machine.initial with control := 1 }

theorem faults_routed_dividing :
    let d := [Event.raise [⟨.pageFault, some 2⟩]].foldl handle (new 1 (.new (.new .standard 0) [dividing]))
    (d.execute inVirtual8086).2.2.faults = [(.protectedMode, ⟨.pageFault, some 2⟩), (.virtual8086, .divideError)] ∧
      ∃ misses s, ∃ raised : Option Fault, Retries ⟨0, d.memory, inVirtual8086⟩ misses s ∧
        (d.execute inVirtual8086).2.2.faults = fetchFaults misses ++ raised.toList.map (.virtual8086, ·) := by
  intro d
  have hmappings : ∀ m ∈ [dividing], ∃ decode fallback, m.content = .region (.new decode fallback) ∧
      ∀ s offset, (fallback s offset).Keeps (SubMode.mode s) := by
    rw [List.forall_mem_singleton]
    exact ⟨_, _, rfl, fun _ _ => rfl⟩
  have hstart := hasRegions_mappings hmappings (.new .standard 0)
  have hd := reachable_foldl_handle hstart Config.standard.traceCapacity [.raise [⟨.pageFault, some 2⟩]]
  obtain ⟨_, _, hexecute⟩ := faults_routed (CodeMap.regions [dividing.bounds]) .standard 0 hstart rfl
    (fun _ _ => region?_mappings hmappings) hd inVirtual8086
  exact ⟨by decide +kernel, hexecute⟩

theorem exists_fault_misrouted :
    ∃ d : Dispatcher CodeMap Block, d.memory = faultingMemory 1 [dividing] ∧
      (subMode inVirtual8086).mode = .virtual8086 ∧
      (d.decodeAt 0 inVirtual8086).2.2.faults = [(.protectedMode, ⟨.pageFault, some 2⟩)] ∧
      (d.execute inVirtual8086).2.2.faults =
        [(.protectedMode, ⟨.pageFault, some 2⟩), (.virtual8086, .divideError)] :=
  ⟨new 1 (faultingMemory 1 [dividing]), rfl, by decide +kernel⟩

end Dispatcher

end Dynarec
