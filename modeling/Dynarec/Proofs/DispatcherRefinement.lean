import Dynarec.Proofs.CacheSoundness
import Dynarec.Proofs.RegionMemory
import Dynarec.Proofs.RunSplitting

namespace Dynarec

open Processor

/-- What there is from each offset on, in each sub-mode. What cannot be compiled is interpreted, one instruction at
a time. -/
structure Listing where
  source : SubMode → UInt32 → Tape
  name : SubMode → UInt32 → String
  length : SubMode → UInt32 → UInt32

namespace Listing

instance : Inhabited Listing := ⟨⟨fun _ _ => ⟨[]⟩, fun _ _ => "", fun _ _ => 0⟩⟩

def fallback (l : Listing) (s : SubMode) (offset : UInt32) : Block :=
  .advance (l.name s offset) s.mode (l.length s offset)

def region (l : Listing) : Region := .new (fun s offset => (l.source s offset).instructions) l.fallback

variable (l : Listing) (limit : Nat) (s : SubMode) (offset : UInt32)

def compilable? : Option Run :=
  (Run.build limit (l.source s offset).instructions).toOption.filter fun run =>
    (Procedure.build "" s.mode 0 run).isOk

def interpret? (cpu : Machine) : Option (Ending × Machine) :=
  match l.compilable? limit s offset with
  | some run => Interpreter.run? s.mode run cpu
  | none => some (.completed 1, set .eip (get cpu .eip + l.length s offset) cpu)

/-- One step from an offset on, without blocks or caches. -/
def step? (cpu : Machine) : Option Machine :=
  (l.interpret? limit s offset cpu).bind fun
    | (.completed count, cpu) => some (serviceInterrupts s.mode count cpu)
    | (.faulted fault _, cpu) => some (deliver s.mode fault cpu)
    | (.switched, cpu) => some cpu
    | (.broken _, _) => none

/-- The block is what would be made for an offset now, up to its name. -/
inductive UpToDate : Block → Prop
  | compiled {run : Run} {p q : Procedure} (hrun : Run.build limit (l.source s offset).instructions = .ok run)
      (hq : Procedure.build "" s.mode 0 run = .ok q) (hcontent : p.content = q.content) : UpToDate (.procedure p)
  | interpreted (h : l.compilable? limit s offset = none) : UpToDate (l.fallback s offset)

end Listing

namespace Compiler

theorem maxInstructions_compile (c : Compiler) (mode : Mode) (name : Option String) (source : List Instruction) :
    (c.compile mode name source).2.maxInstructions = c.maxInstructions := by
  rw [compile]
  split
  · rfl
  · rw [compileRun, lookup]
    cases c.cache.lookup mode _ with
    | mk found cache =>
        cases found with
        | some p => rfl
        | none =>
            dsimp only [fresh]
            cases Procedure.build (name.getD "") mode c.nextStamp _ with
            | error e => rfl
            | ok p => cases name <;> rfl

structure Serves (c : Compiler) (limit : Nat) : Prop where
  sound : c.cache.Sound
  limit : c.maxInstructions = limit

theorem Serves.compile {c : Compiler} {limit : Nat} (hc : c.Serves limit) (mode : Mode) (name : Option String)
    (source : Tape) : (c.compile mode name source.instructions).2.Serves limit :=
  ⟨(compile_spec hc.sound mode name source).2, (c.maxInstructions_compile mode name _).trans hc.limit⟩

end Compiler

namespace Listing

variable {l : Listing} {limit : Nat} {s : SubMode} {offset : UInt32} {b : Block}

theorem compilable?_eq_some {run : Run} {q : Procedure}
    (hrun : Run.build limit (l.source s offset).instructions = .ok run) (hq : Procedure.build "" s.mode 0 run = .ok q) :
    l.compilable? limit s offset = some run := by
  simp [compilable?, hrun, hq, Except.toOption, Except.isOk, Except.toBool]

theorem compilable?_eq_none {e : CompileError}
    (h : (Run.build limit (l.source s offset).instructions >>= Procedure.build "" s.mode 0) = .error e) :
    l.compilable? limit s offset = none := by
  cases hrun : Run.build limit (l.source s offset).instructions with
  | error _ => simp [compilable?, hrun, Except.toOption]
  | ok run =>
      rw [hrun] at h
      have hbuild : Procedure.build "" s.mode 0 run = .error e := h
      simp [compilable?, hrun, hbuild, Except.toOption, Except.isOk, Except.toBool]

theorem UpToDate.follow (h : l.UpToDate limit s offset b) (cpu : Machine) (replacements : Nat) :
    ∃ last cpu', Dispatcher.follow b cpu replacements = (last, cpu') ∧ l.step? limit s offset cpu = some cpu' := by
  cases h with
  | @compiled run p q hrun hq hcontent =>
      have hmode : p.info.mode = s.mode := by
        obtain ⟨_, _, _, _, _, hparts⟩ := Procedure.build_ok hq
        have hpq : p.content.mode = q.content.mode := congrArg Procedure.mode hcontent
        rw [hparts] at hpq
        exact hpq
      have hp : p.content.run cpu = q.content.run cpu := congrArg (Procedure.run · cpu) hcontent
      -- a name and a stamp do not change what runs
      change p.run cpu = q.run cpu at hp
      obtain ⟨ending, cpu', _, left, _, _, _, hended, hwell⟩ := Procedure.exists_run (Run.ordered_of_build hrun) hq cpu
      have hinterpreted := Procedure.run?_eq_run (Run.ordered_of_build hrun) hq cpu
      rw [hended] at hinterpreted hp
      refine ⟨.procedure p, Dispatcher.settle p.info.mode ending (assign left cpu'), ?_, ?_⟩
      · cases replacements <;> simp [Dispatcher.follow, CodeBlock.execute, Block.execute, hp, Described.info, Block.info]
      · rw [step?, interpret?, compilable?_eq_some hrun hq]
        dsimp only
        rw [hinterpreted, hmode]
        cases ending with
        | completed count => rfl
        | faulted fault retired => rfl
        | switched => rfl
        | broken what => exact absurd rfl (hwell what)
  | interpreted h =>
      refine ⟨l.fallback s offset, _, by cases replacements <;> rfl, ?_⟩
      rw [step?, interpret?, h]
      rfl

end Listing

namespace Region

variable {l : Listing} {limit : Nat}

/-- The region has the code of a listing, and every block it remembers is up to date. -/
structure Backs (r : Region) (l : Listing) (limit : Nat) : Prop where
  decode : r.decode = fun s offset => (l.source s offset).instructions
  fallback : r.fallback = l.fallback
  blocks : ∀ e ∈ r.blocks, l.UpToDate limit e.1.1 e.1.2 e.2

theorem Backs.invalidate {r : Region} (h : r.Backs l limit) : r.invalidate.Backs l limit :=
  ⟨h.decode, h.fallback, fun _ he => by cases he⟩

theorem Backs.remember {r : Region} (h : r.Backs l limit) {s : SubMode} {offset : UInt32} {b : Block}
    (hb : l.UpToDate limit s offset b) : (r.remember s offset b).Backs l limit := by
  refine ⟨h.decode, h.fallback, ?_⟩
  intro e he
  rcases List.mem_cons.mp he with rfl | he
  · exact hb
  · exact h.blocks e he

theorem Backs.fetch {r : Region} (h : r.Backs l limit) {c : Compiler} (hc : c.Serves limit) (s : SubMode)
    (offset : UInt32) :
    l.UpToDate limit s offset (r.fetch c s offset).block ∧ (r.fetch c s offset).region.Backs l limit ∧
      (r.fetch c s offset).compiler.Serves limit := by
  rw [Region.fetch]
  cases hfound : r.blocks.lookup (s, offset) with
  | some b =>
      obtain ⟨_, _, hblocks, _⟩ := List.lookup_eq_some_iff.mp hfound
      exact ⟨h.blocks ((s, offset), b) (by simp [hblocks]), h, hc⟩
  | none =>
      have hserves := hc.compile s.mode none (l.source s offset)
      have hspec := (Compiler.compile_spec hc.sound s.mode none (l.source s offset)).1
      rw [hc.limit] at hspec
      rw [h.decode, h.fallback]
      dsimp only [Compiler.get]
      cases hcompile : c.compile s.mode none (l.source s offset).instructions with
      | mk result c' =>
          rw [hcompile] at hserves hspec
          cases result with
          | ok p =>
              obtain ⟨q, hq, hcontent⟩ : ∃ q, (Run.build limit (l.source s offset).instructions >>=
                  Procedure.build "" s.mode 0) = .ok q ∧ p.content = q.content := by
                cases hfresh : Run.build limit (l.source s offset).instructions >>= Procedure.build "" s.mode 0 with
                | error e =>
                    rw [hfresh] at hspec
                    cases hspec
                | ok q =>
                    rw [hfresh] at hspec
                    exact ⟨q, rfl, Except.ok.inj hspec⟩
              obtain ⟨run, hrun, hq⟩ := bind_eq_ok.mp hq
              have hdate : l.UpToDate limit s offset (.procedure p) := .compiled hrun hq hcontent
              exact ⟨hdate, h.remember hdate, hserves⟩
          | error e =>
              have hdate : l.UpToDate limit s offset (l.fallback s offset) := by
                apply Listing.UpToDate.interpreted
                cases hfresh : Run.build limit (l.source s offset).instructions >>= Procedure.build "" s.mode 0 with
                | error e => exact Listing.compilable?_eq_none hfresh
                | ok q =>
                    rw [hfresh] at hspec
                    cases hspec
              exact ⟨hdate, h.remember hdate, hserves⟩

end Region

namespace CodeStore

theorem invariant_backs {ι : Type} (listings : ι → Listing) (limit : Nat) :
    Invariant (fun c => c.Serves limit) (fun i r => r.Backs (listings i) limit)
      (fun i s offset b => (listings i).UpToDate limit s offset b) where
  fetch hc hr s offset := hr.fetch hc s offset
  invalidate hr := hr.invalidate
  evict hc mode name := ⟨hc.sound.evict mode name, hc.limit⟩
  clear hc := ⟨Cache.sound_clear _, hc.limit⟩

end CodeStore

namespace RegionMemory

open Search Dispatcher

variable {μ ι : Type} [CodeMemory μ Block] [DecidableEq ι] {R : RegionMemory μ ι} {listings : ι → Listing}

theorem holds_of_listings {config : Config} {firstStamp : Nat} {memory : μ} (hcarrier : R.carrier memory)
    (hcompiler : (R.store memory).compiler = .new config firstStamp)
    (hregions : ∀ i r, (R.store memory).region? i = some r → r = (listings i).region) :
    R.Holds (fun c => c.Serves config.maxInstructions) (fun i r => r.Backs (listings i) config.maxInstructions)
      memory := by
  refine ⟨hcarrier, ?_, ?_⟩
  · rw [hcompiler]
    exact ⟨Cache.sound_empty, rfl⟩
  · intro i r hr
    rw [hregions i r hr]
    exact ⟨rfl, rfl, fun _ he => by cases he⟩

theorem step?_of_place? {limit : Nat} {d : Dispatcher μ Block}
    (h : R.Holds (fun c => c.Serves limit) (fun i r => r.Backs (listings i) limit) d.memory) {cpu : Machine}
    {misses : List Miss} {s : Search μ Machine}
    (hretries : Retries ⟨instructionPointer cpu, d.memory, cpu⟩ misses s) (hlength : misses.length ≤ maxFaultRetries)
    {i : ι} {offset : UInt32} (hplace : R.place? (space s.cpu) s.address s.memory = some (i, offset)) :
    (∃ b, (d.execute cpu).1 = .ok b) ∧
      (listings i).step? limit (subMode s.cpu) offset s.cpu = some (d.execute cpu).2.2 := by
  obtain ⟨b, hdate, hran, hcpu⟩ := h.execute_of_place? (CodeStore.invariant_backs listings limit) hretries hlength hplace
  obtain ⟨last, cpu', hfollow, hstep⟩ := hdate.follow s.cpu maxReplacements
  rw [hfollow] at hran hcpu
  exact ⟨⟨last, hran⟩, by rw [hstep, hcpu]⟩

end RegionMemory

namespace Dispatcher

open Search

/-- Whatever the memory is like and whatever happened before, a step whose search comes to a place in a region before
it gives up changes the machine as interpretation of the code at that place does. There is no other way to run code. -/
theorem execute_refines {μ ι : Type} [CodeMemory μ Block] [DecidableEq ι] (R : RegionMemory μ ι) (config : Config)
    (firstStamp : Nat) (listings : ι → Listing) {memory : μ} (hcarrier : R.carrier memory)
    (hcompiler : (R.store memory).compiler = .new config firstStamp)
    (hregions : ∀ i r, (R.store memory).region? i = some r → r = (listings i).region)
    {d : Dispatcher μ Block} (hd : R.Reachable (.new config.traceCapacity memory) d) (cpu : Machine) :
    (∀ misses s i offset, Retries ⟨instructionPointer cpu, d.memory, cpu⟩ misses s → misses.length ≤ maxFaultRetries →
      R.place? (space s.cpu) s.address s.memory = some (i, offset) →
      (∃ b, (d.execute cpu).1 = .ok b) ∧
        (listings i).step? config.maxInstructions (subMode s.cpu) offset s.cpu = some (d.execute cpu).2.2) ∧
    ∀ b, (d.execute cpu).1 = .ok b → ∃ misses s i offset,
      Retries ⟨instructionPointer cpu, d.memory, cpu⟩ misses s ∧ misses.length ≤ maxFaultRetries ∧
        R.place? (space s.cpu) s.address s.memory = some (i, offset) := by
  have hholds := RegionMemory.holds_of_listings hcarrier hcompiler hregions
  have hinvariant := CodeStore.invariant_backs listings config.maxInstructions
  have hd' := RegionMemory.Holds.reachable hinvariant hholds hd
  refine ⟨?_, fun b hb => hd'.exists_place? hinvariant hb⟩
  intro misses s i offset hretries hlength hplace
  exact RegionMemory.step?_of_place? hd' hretries hlength hplace

/-- One region, which is seen through a translation of addresses. -/
structure Translated where
  translate : Space → UInt32 → Option UInt32
  compiler : Compiler
  region : Region

namespace Translated

def lookup (space : Space) (address : UInt32) (m : Translated) : Lookup Translated Block :=
  match m.translate space address with
  | none => .pageFault ⟨.pageFault, some 0⟩ m
  | some offset => .code fun s =>
    let f := m.region.fetch m.compiler s offset
    (f.block, { m with compiler := f.compiler, region := f.region })

instance : CodeMemory Translated Block := ⟨lookup⟩

def regions (translate : Space → UInt32 → Option UInt32) : RegionMemory Translated Unit where
  carrier m := m.translate = translate
  store m := ⟨m.compiler, fun _ => some m.region⟩
  place? space address m := (m.translate space address).map ((), ·)
  leadsTo := by
    intro m hm space address
    change (lookup space address m).LeadsTo _ _ _ _
    rw [lookup]
    cases m.translate space address with
    | none => exact .pageFault hm rfl
    | some offset =>
        refine .code (fun _ => hm) fun s => ?_
        rw [CodeStore.fetch?, Option.map_some]
        congr 3

end Translated

def leaving : Listing := ⟨fun _ _ => .ofInstructions leaveProtectedMode, fun _ _ => "", fun _ _ => 1⟩

def aliases (_ : Space) (address : UInt32) : Option UInt32 := some (address % 4096)

def aliased : Translated := ⟨aliases, .new .standard 0, leaving.region⟩

theorem execute_refines_aliased :
    let d : Dispatcher Translated Block := ((new Config.standard.traceCapacity aliased).execute Machine.initial).2.1
    let cpu : Machine := set .eip 4096 Machine.initial
    (∃ b, (d.execute cpu).1 = .ok b) ∧
      leaving.step? Config.standard.maxInstructions (subMode cpu) 0 cpu = some (d.execute cpu).2.2 := by
  intro d cpu
  have hcarrier : (Translated.regions aliases).carrier aliased := rfl
  have hregions : ∀ i r, ((Translated.regions aliases).store aliased).region? i = some r → r = leaving.region := by
    rintro _ _ ⟨⟩
    rfl
  have hd : (Translated.regions aliases).Reachable (new Config.standard.traceCapacity aliased) d :=
    RegionMemory.Reachable.start.execute Machine.initial
  have htranslate : d.memory.translate = aliases := hd.carrier hcarrier
  have haddress : instructionPointer cpu % 4096 = 0 := by decide +kernel
  clear_value d cpu
  have hplace : (Translated.regions aliases).place? (space cpu) (instructionPointer cpu) d.memory = some ((), 0) := by
    change (d.memory.translate (space cpu) (instructionPointer cpu)).map ((), ·) = _
    rw [htranslate, aliases, haddress]
    rfl
  obtain ⟨hruns, _⟩ := execute_refines (Translated.regions aliases) .standard 0 (fun _ => leaving) hcarrier rfl hregions
    hd cpu
  exact hruns [] ⟨instructionPointer cpu, d.memory, cpu⟩ () 0 (.nil _) (Nat.zero_le _) hplace

end Dispatcher

structure Window extends Listing where
  base : UInt32
  size : UInt32

namespace Window

def contains (w : Window) (address : UInt32) : Bool := address - w.base < w.size

def bounds (w : Window) : UInt32 × UInt32 := (w.base, w.size)

def mapping (w : Window) : Mapping := ⟨w.base, w.size, .region w.region⟩

def listings (windows : List Window) (i : Nat) : Listing := ((windows[i]?).map toListing).getD default

theorem listings_eq {windows : List Window} {i : Nat} {w : Window} (h : windows[i]? = some w) :
    listings windows i = w.toListing := by
  rw [listings, h, Option.map_some, Option.getD_some]

theorem contains_eq_of_bounds {w : Window} {m : Mapping} (h : m.bounds = w.bounds) (address : UInt32) :
    m.contains address = w.contains address := by
  obtain ⟨hbase, hsize⟩ := Prod.mk.inj h
  rw [Mapping.contains, Mapping.offset, hbase, hsize, contains]

end Window

namespace CodeMap

variable {windows : List Window} {mappings : List Mapping} {address : UInt32}

theorem find?_of_splitAt?_none (h : mappings.map Mapping.bounds = windows.map Window.bounds)
    (hsplit : splitAt? address mappings = none) : windows.find? (·.contains address) = none := by
  induction mappings generalizing windows with
  | nil =>
      rw [List.map_nil, List.nil_eq, List.map_eq_nil_iff] at h
      rw [h]
      rfl
  | cons m mappings ih =>
      obtain ⟨w, windows, rfl, hw, hrest⟩ := List.map_eq_cons_iff.mp h.symm
      rw [splitAt?] at hsplit
      by_cases hm : m.contains address = true
      · rw [if_pos hm] at hsplit
        cases hsplit
      · rw [if_neg hm, Option.map_eq_none_iff] at hsplit
        rw [Window.contains_eq_of_bounds hw.symm] at hm
        exact (List.find?_cons_of_neg (p := fun w : Window => w.contains address) hm).trans (ih hrest.symm hsplit)

theorem find?_of_splitAt?_some {before after : List Mapping} {m : Mapping}
    (h : mappings.map Mapping.bounds = windows.map Window.bounds)
    (hsplit : splitAt? address mappings = some (before, m, after)) :
    ∃ w, windows.find? (·.contains address) = some w ∧ windows[before.length]? = some w ∧
      m.offset address = address - w.base := by
  induction mappings generalizing windows before with
  | nil => cases hsplit
  | cons m₁ mappings ih =>
      obtain ⟨w, windows, rfl, hw, hrest⟩ := List.map_eq_cons_iff.mp h.symm
      rw [splitAt?] at hsplit
      by_cases hm : m₁.contains address = true
      · rw [if_pos hm] at hsplit
        cases hsplit
        rw [Window.contains_eq_of_bounds hw.symm] at hm
        refine ⟨w, List.find?_cons_of_pos hm, rfl, ?_⟩
        rw [Mapping.offset, (Prod.mk.inj hw).1]
      · rw [if_neg hm, Option.map_eq_some_iff] at hsplit
        obtain ⟨⟨_, _, _⟩, hsplit, heq⟩ := hsplit
        cases heq
        obtain ⟨w', hfind, hget, hoffset⟩ := ih hrest.symm hsplit
        rw [Window.contains_eq_of_bounds hw.symm] at hm
        refine ⟨w', (List.find?_cons_of_neg (p := fun w : Window => w.contains address) hm).trans hfind, ?_, hoffset⟩
        rw [List.length_cons, List.getElem?_cons_succ, hget]

theorem of_pageFault {map map' : CodeMap} {space : Space} {fault : Fault}
    (h : CodeMemory.lookup space address map = .pageFault fault map') :
    map.pageFaults = fault :: map'.pageFaults ∧ map'.mappings = map.mappings := by
  obtain ⟨compiler, mappings, pageFaults, requests⟩ := map
  change CodeMap.lookup space address _ = _ at h
  dsimp only [CodeMap.lookup, log] at h
  cases pageFaults with
  | cons fault' rest =>
      cases h
      exact ⟨rfl, rfl⟩
  | nil =>
      dsimp only at h
      split at h <;> cases h

end CodeMap

namespace Dispatcher

open Search

variable {windows : List Window}

/-- The window of the code at the instruction pointer. Page faults can only be raised in protected mode,
and only so often. -/
def locate? (windows : List Window) (pageFaults : List Fault) (retries : Nat) (cpu : Machine) : Option Window :=
  if pageFaults = [] ∨ isProtected cpu = true ∧ pageFaults.length ≤ retries then
    windows.find? (·.contains (instructionPointer cpu))
  else none

def deliverAll (pageFaults : List Fault) (cpu : Machine) : Machine :=
  pageFaults.foldl (fun cpu fault => deliver .protectedMode fault cpu) cpu

theorem subMode_deliverAll (pageFaults : List Fault) (cpu : Machine) :
    subMode (deliverAll pageFaults cpu) = subMode cpu := by
  induction pageFaults generalizing cpu with
  | nil => rfl
  | cons fault rest ih => exact ih (deliver .protectedMode fault cpu)

theorem retries_pageFaults (pageFaults : List Fault) {map : CodeMap} (hfaults : map.pageFaults = pageFaults)
    {cpu : Machine} (hcan : pageFaults = [] ∨ isProtected cpu = true) :
    ∃ misses map', misses.length = pageFaults.length ∧ map'.pageFaults = [] ∧ map'.mappings = map.mappings ∧
      Retries ⟨instructionPointer cpu, map, cpu⟩ misses ⟨instructionPointer cpu, map', deliverAll pageFaults cpu⟩ := by
  induction pageFaults generalizing map cpu with
  | nil => exact ⟨[], map, rfl, hfaults, rfl, .nil _⟩
  | cons fault rest ih =>
      have hprotected : isProtected cpu = true := hcan.resolve_left (List.cons_ne_nil _ _)
      have hspace : space cpu = .linear := by rw [space, hprotected]; rfl
      obtain ⟨compiler, mappings, _, requests⟩ := map
      cases hfaults
      -- the machine stays in protected mode and resumes at the same place
      have hdelivered : isProtected (deliver .protectedMode fault cpu) = true := hprotected
      let logged : CodeMap := ⟨compiler, mappings, rest, requests.appendList [.lookup .linear (instructionPointer cpu)]⟩
      have hlogged : logged.pageFaults = rest := rfl
      obtain ⟨misses, map', hlength, hnone, hmappings, hretries⟩ := ih hlogged (.inr hdelivered)
      exact ⟨⟨instructionPointer cpu, fault⟩ :: misses, map', by rw [List.length_cons, hlength, List.length_cons], hnone,
        hmappings, .cons hspace rfl hretries⟩

theorem of_retries {s s' : Search CodeMap Machine} {misses : List Miss} (h : Retries s misses s') :
    s.memory.pageFaults.length = misses.length + s'.memory.pageFaults.length ∧
      s'.memory.mappings = s.memory.mappings ∧ instructionPointer s'.cpu = instructionPointer s.cpu ∧
      (misses = [] ∨ isProtected s.cpu = true) := by
  induction h with
  | nil s => exact ⟨(Nat.zero_add _).symm, rfl, rfl, .inl rfl⟩
  | @cons s s' fault memory misses hspace hlookup _ ih =>
      obtain ⟨hlength, hmappings, hpointer, _⟩ := ih
      obtain ⟨hfaults, hmemory⟩ := CodeMap.of_pageFault hlookup
      have hprotected : isProtected s.cpu = true := by
        rw [space] at hspace
        split at hspace
        · assumption
        · cases hspace
      refine ⟨?_, hmappings.trans hmemory, hpointer, .inr hprotected⟩
      rw [hfaults, List.length_cons, List.length_cons, Nat.add_right_comm]
      exact congrArg Nat.succ hlength

theorem hasRegions_windows (compiler : Compiler) (windows : List Window) :
    (CodeMap.new compiler (windows.map Window.mapping)).HasRegions (windows.map Window.bounds) := by
  refine ⟨?_, ?_⟩
  · rw [CodeMap.new, List.map_map]
    rfl
  · intro m hm
    obtain ⟨w, _, rfl⟩ := List.mem_map.mp hm
    exact ⟨_, rfl⟩

theorem region?_windows {compiler : Compiler} {windows : List Window} {i : Nat} {r : Region}
    (h : (CodeMap.new compiler (windows.map Window.mapping)).store.region? i = some r) :
    r = (Window.listings windows i).region := by
  change ((windows.map Window.mapping)[i]?).bind (·.content.region?) = some r at h
  rw [List.getElem?_map] at h
  cases hw : windows[i]? with
  | none =>
      rw [hw] at h
      cases h
  | some w =>
      rw [hw] at h
      cases h
      rw [Window.listings_eq hw]

section Locate

variable {map : CodeMap} {retries : Nat} {cpu : Machine}

theorem exists_place?_of_locate? (hbounds : map.mappings.map Mapping.bounds = windows.map Window.bounds) {w : Window}
    (h : locate? windows map.pageFaults retries cpu = some w) :
    ∃ misses map' i, Retries ⟨instructionPointer cpu, map, cpu⟩ misses
        ⟨instructionPointer cpu, map', deliverAll map.pageFaults cpu⟩ ∧
      misses.length ≤ retries ∧ map'.place? (instructionPointer cpu) = some (i, instructionPointer cpu - w.base) ∧
      windows[i]? = some w := by
  rw [locate?] at h
  split at h
  next hcan =>
    obtain ⟨misses, map', hlength, hnone, hmappings, hretries⟩ := retries_pageFaults _ rfl (hcan.imp id And.left)
    rw [← hmappings] at hbounds
    cases hsplit : CodeMap.splitAt? (instructionPointer cpu) map'.mappings with
    | none =>
        rw [CodeMap.find?_of_splitAt?_none hbounds hsplit] at h
        cases h
    | some split =>
        obtain ⟨before, m, after⟩ := split
        obtain ⟨w', hfind, hget, hoffset⟩ := CodeMap.find?_of_splitAt?_some hbounds hsplit
        cases h.symm.trans hfind
        refine ⟨misses, map', before.length, hretries, ?_, ?_, hget⟩
        · rw [hlength]
          rcases hcan with hnil | ⟨_, hle⟩
          · rw [hnil]
            exact Nat.zero_le _
          · exact hle
        · simp only [CodeMap.place?, if_pos hnone, hsplit, Option.map_some, hoffset]
  next => cases h

theorem locate?_ne_none_of_place? (hbounds : map.mappings.map Mapping.bounds = windows.map Window.bounds)
    {misses : List Miss} {s : Search CodeMap Machine} (hretries : Retries ⟨instructionPointer cpu, map, cpu⟩ misses s)
    (hlength : misses.length ≤ retries) {place : Nat × UInt32} (hplace : s.memory.place? s.address = some place) :
    locate? windows map.pageFaults retries cpu ≠ none := by
  obtain ⟨hfaults, hmappings, hpointer, hprotected⟩ := of_retries hretries
  have haddress : s.address = instructionPointer cpu := (hretries.address rfl).trans hpointer
  rw [CodeMap.place?, haddress, hmappings] at hplace
  split at hplace
  next hnone =>
    obtain ⟨⟨before, m, after⟩, hsplit, _⟩ := Option.map_eq_some_iff.mp hplace
    obtain ⟨w, hfind, _⟩ := CodeMap.find?_of_splitAt?_some hbounds hsplit
    rw [hnone, List.length_nil, Nat.add_zero] at hfaults
    have hcan : map.pageFaults = [] ∨ isProtected cpu = true ∧ map.pageFaults.length ≤ retries := by
      rcases hprotected with rfl | hprotected
      · exact .inl (List.eq_nil_of_length_eq_zero hfaults)
      · exact .inr ⟨hprotected, hfaults ▸ hlength⟩
    rw [locate?, if_pos hcan, hfind]
    exact nofun
  next => cases hplace

end Locate

theorem execute_spec {limit : Nat} {d : Dispatcher CodeMap Block}
    (h : (CodeMap.regions (windows.map Window.bounds)).Holds (fun c => c.Serves limit)
      (fun i r => r.Backs (Window.listings windows i) limit) d.memory) (cpu : Machine) :
    match locate? windows d.memory.pageFaults maxFaultRetries cpu with
    | some w => (∃ b, (d.execute cpu).1 = .ok b) ∧
        w.step? limit (subMode cpu) (instructionPointer cpu - w.base) (deliverAll d.memory.pageFaults cpu) =
          some (d.execute cpu).2.2
    | none => ∃ e, (d.execute cpu).1 = .error e := by
  cases hlocate : locate? windows d.memory.pageFaults maxFaultRetries cpu with
  | some w =>
      obtain ⟨misses, map', i, hretries, hlength, hplace, hget⟩ := exists_place?_of_locate? h.carrier.bounds hlocate
      have hstep := RegionMemory.step?_of_place? h hretries hlength hplace
      rwa [Window.listings_eq hget, subMode_deliverAll] at hstep
  | none =>
      cases hexecute : (d.execute cpu).1 with
      | error e => exact ⟨e, rfl⟩
      | ok b =>
          obtain ⟨misses, s, i, offset, hretries, hlength, hplace⟩ :=
            h.exists_place? (CodeStore.invariant_backs (Window.listings windows) limit) hexecute
          exact absurd hlocate (locate?_ne_none_of_place? h.carrier.bounds hretries hlength hplace)

/-- In a code map, a step that finds code changes the machine as interpretation of the code at that place does, and a
step that finds none fails. -/
theorem execute_refines_codeMap (config : Config) (firstStamp : Nat) (windows : List Window) (history : List Event)
    (cpu : Machine) :
    let d := history.foldl handle
      (.new config.traceCapacity (.new (.new config firstStamp) (windows.map Window.mapping)))
    match locate? windows d.memory.pageFaults maxFaultRetries cpu with
    | some w => (∃ b, (d.execute cpu).1 = .ok b) ∧
        w.step? config.maxInstructions (subMode cpu) (instructionPointer cpu - w.base)
          (deliverAll d.memory.pageFaults cpu) = some (d.execute cpu).2.2
    | none => ∃ e, (d.execute cpu).1 = .error e := by
  intro d
  have hstart := hasRegions_windows (.new config firstStamp) windows
  have hd := reachable_foldl_handle hstart config.traceCapacity history
  have hholds : (CodeMap.regions (windows.map Window.bounds)).Holds _ _ _ :=
    RegionMemory.holds_of_listings hstart rfl fun _ _ => region?_windows
  exact execute_spec (RegionMemory.Holds.reachable (CodeStore.invariant_backs _ _) hholds hd) cpu

end Dispatcher

end Dynarec
