import Dynarec.Proofs.CodeSearch
import Mathlib.Logic.Function.Basic

namespace Dynarec

open Processor

structure CodeStore (ι : Type) where
  compiler : Compiler
  region? : ι → Option Region

namespace CodeStore

variable {ι : Type}

inductive Upkeep (ι : Type)
  | invalidate (i : ι)
  | evict (mode : Mode) (name : String)
  | clear

variable [DecidableEq ι]

def fetch? (c : CodeStore ι) (i : ι) (s : SubMode) (offset : UInt32) : Option (Block × CodeStore ι) :=
  (c.region? i).map fun r =>
    let f := r.fetch c.compiler s offset
    (f.block, ⟨f.compiler, Function.update c.region? i (some f.region)⟩)

def upkeep (c : CodeStore ι) : Upkeep ι → CodeStore ι
  | .invalidate i => { c with region? := Function.update c.region? i ((c.region? i).map Region.invalidate) }
  | .evict mode name => { c with compiler.cache := (c.compiler.cache.evict mode name).2 }
  | .clear => { c with compiler.cache := c.compiler.cache.clear }

/-- Properties of compilers and regions that fetching and upkeep preserve, and what then holds of every block that
is fetched. -/
structure Invariant (C : Compiler → Prop) (P : ι → Region → Prop) (Q : ι → SubMode → UInt32 → Block → Prop) : Prop where
  fetch : ∀ {c i r}, C c → P i r → ∀ s offset, Q i s offset (r.fetch c s offset).block ∧
    P i (r.fetch c s offset).region ∧ C (r.fetch c s offset).compiler
  invalidate : ∀ {i r}, P i r → P i r.invalidate
  evict : ∀ {c}, C c → ∀ mode name, C { c with cache := (c.cache.evict mode name).2 }
  clear : ∀ {c}, C c → C { c with cache := c.cache.clear }

structure Holds (C : Compiler → Prop) (P : ι → Region → Prop) (c : CodeStore ι) : Prop where
  compiler : C c.compiler
  regions : ∀ i r, c.region? i = some r → P i r

variable {C : Compiler → Prop} {P : ι → Region → Prop} {Q : ι → SubMode → UInt32 → Block → Prop} {c c' : CodeStore ι}

theorem Holds.update (h : c.Holds C P) {i : ι} {r? : Option Region} (hr : ∀ r, r? = some r → P i r) :
    ∀ j r, Function.update c.region? i r? j = some r → P j r := by
  intro j r hj
  by_cases heq : j = i
  · subst heq
    rw [Function.update_self] at hj
    exact hr r hj
  · rw [Function.update_of_ne heq] at hj
    exact h.regions j r hj

theorem Holds.fetch? (hI : Invariant C P Q) (h : c.Holds C P) {i : ι} {s : SubMode} {offset : UInt32} {b : Block}
    (hfetch : c.fetch? i s offset = some (b, c')) : Q i s offset b ∧ c'.Holds C P := by
  obtain ⟨r, hr, heq⟩ := Option.map_eq_some_iff.mp hfetch
  cases heq
  obtain ⟨hblock, hregion, hcompiler⟩ := hI.fetch h.compiler (h.regions i r hr) s offset
  refine ⟨hblock, hcompiler, h.update ?_⟩
  rintro _ ⟨⟩
  exact hregion

theorem Holds.upkeep (hI : Invariant C P Q) (h : c.Holds C P) (u : Upkeep ι) : (c.upkeep u).Holds C P := by
  cases u with
  | invalidate i =>
      refine ⟨h.compiler, h.update ?_⟩
      intro r hr
      obtain ⟨r', hr', rfl⟩ := Option.map_eq_some_iff.mp hr
      exact hI.invalidate (h.regions i r' hr')
  | evict mode name => exact ⟨hI.evict h.compiler mode name, h.regions⟩
  | clear => exact ⟨hI.clear h.compiler, h.regions⟩

omit [DecidableEq ι] in
theorem invariant_true :
    Invariant (fun _ => True) (fun (_ : ι) (_ : Region) => True) (fun _ _ _ _ => True) := by
  constructor <;> intros <;> simp

end CodeStore

/-- Looking up an address leads to a place in a region, or else leaves the regions alone. -/
inductive Lookup.LeadsTo {μ ι : Type} [DecidableEq ι] (carrier : μ → Prop) (store : μ → CodeStore ι) (m : μ) :
    Lookup μ Block → Option (ι × UInt32) → Prop
  | code {fetch : SubMode → Block × μ} {i : ι} {offset : UInt32} (hcarrier : ∀ s, carrier (fetch s).2)
      (hfetch : ∀ s, (store m).fetch? i s offset = some ((fetch s).1, store (fetch s).2)) :
      LeadsTo carrier store m (.code fetch) (some (i, offset))
  | notCode {m' : μ} (hcarrier : carrier m') (hstore : store m' = store m) : LeadsTo carrier store m (.notCode m') none
  | pageFault {fault : Fault} {m' : μ} (hcarrier : carrier m') (hstore : store m' = store m) :
      LeadsTo carrier store m (.pageFault fault m') none

/-- A memory whose code comes from regions. The way from an address to a place in a region can be any, and several
addresses may lead to the same place. -/
structure RegionMemory (μ ι : Type) [CodeMemory μ Block] [DecidableEq ι] where
  -- The memories in which there is no other code.
  carrier : μ → Prop
  store : μ → CodeStore ι
  place? : Space → UInt32 → μ → Option (ι × UInt32)
  leadsTo : ∀ {m}, carrier m → ∀ space address,
    (CodeMemory.lookup space address m).LeadsTo carrier store m (place? space address m)

namespace RegionMemory

open Search Dispatcher

variable {μ ι : Type} [CodeMemory μ Block] [DecidableEq ι] (R : RegionMemory μ ι)

/-- What a dispatcher can come to: it may search and run code for any processor, and the host may forget blocks and
procedures, and change whatever is not code. -/
inductive Reachable (d₀ : Dispatcher μ Block) : Dispatcher μ Block → Prop
  | start : Reachable d₀ d₀
  | execute {σ : Type} [Processor σ] {d : Dispatcher μ Block} (h : Reachable d₀ d) (cpu : σ) :
      Reachable d₀ (d.execute cpu).2.1
  | decode {σ : Type} [Processor σ] {d : Dispatcher μ Block} (h : Reachable d₀ d) (address : UInt32) (cpu : σ) :
      Reachable d₀ (d.decodeAt address cpu).2.1
  | upkeep {d d' : Dispatcher μ Block} (h : Reachable d₀ d) (u : CodeStore.Upkeep ι) (hcarrier : R.carrier d'.memory)
      (hstore : R.store d'.memory = (R.store d.memory).upkeep u) : Reachable d₀ d'
  | other {d d' : Dispatcher μ Block} (h : Reachable d₀ d) (hcarrier : R.carrier d'.memory)
      (hstore : R.store d'.memory = R.store d.memory) : Reachable d₀ d'

structure Holds (C : Compiler → Prop) (P : ι → Region → Prop) (m : μ) : Prop where
  carrier : R.carrier m
  store : (R.store m).Holds C P

variable {R} {C : Compiler → Prop} {P : ι → Region → Prop} {Q : ι → SubMode → UInt32 → Block → Prop}

section Lookup

variable {m m' : μ} {space : Space} {address : UInt32}

theorem exists_leadsTo (h : R.carrier m) {answer : Lookup μ Block} (hlookup : CodeMemory.lookup space address m = answer) :
    ∃ place, R.place? space address m = place ∧ answer.LeadsTo R.carrier R.store m place :=
  ⟨_, rfl, hlookup ▸ R.leadsTo h space address⟩

theorem Holds.pageFault (h : R.Holds C P m) {fault : Fault}
    (hlookup : CodeMemory.lookup space address m = .pageFault fault m') : R.Holds C P m' := by
  obtain ⟨_, _, hleads⟩ := exists_leadsTo h.carrier hlookup
  cases hleads with
  | pageFault hcarrier hstore => exact ⟨hcarrier, hstore ▸ h.store⟩

theorem Holds.notCode (h : R.Holds C P m) (hlookup : CodeMemory.lookup space address m = .notCode m') :
    R.Holds C P m' := by
  obtain ⟨_, _, hleads⟩ := exists_leadsTo h.carrier hlookup
  cases hleads with
  | notCode hcarrier hstore => exact ⟨hcarrier, hstore ▸ h.store⟩

theorem Holds.code (hI : CodeStore.Invariant C P Q) (h : R.Holds C P m) {fetch : SubMode → Block × μ}
    (hlookup : CodeMemory.lookup space address m = .code fetch) :
    ∃ i offset, R.place? space address m = some (i, offset) ∧
      ∀ s, Q i s offset (fetch s).1 ∧ R.Holds C P (fetch s).2 := by
  obtain ⟨_, hplace, hleads⟩ := exists_leadsTo h.carrier hlookup
  cases hleads with
  | @code _ i offset hcarrier hfetch =>
      refine ⟨i, offset, hplace, fun s => ?_⟩
      obtain ⟨hblock, hholds⟩ := h.store.fetch? hI (hfetch s)
      exact ⟨hblock, hcarrier s, hholds⟩

theorem exists_code_of_place? (h : R.carrier m) {i : ι} {offset : UInt32}
    (hplace : R.place? space address m = some (i, offset)) :
    ∃ fetch, CodeMemory.lookup space address m = .code fetch := by
  have hleads := R.leadsTo h space address
  rw [hplace] at hleads
  generalize CodeMemory.lookup space address m = answer at hleads
  cases hleads with
  | code _ _ => exact ⟨_, rfl⟩

end Lookup

theorem Holds.retries {σ : Type} [Processor σ] {s s' : Search μ σ} {misses : List Miss} (hs : R.Holds C P s.memory)
    (h : Retries s misses s') : R.Holds C P s'.memory := by
  induction h with
  | nil s => exact hs
  | cons _ hlookup _ ih => exact ih (hs.pageFault hlookup)

section Dispatcher

variable {σ : Type} [Processor σ] {d : Dispatcher μ Block}

theorem Holds.decodeAt (hI : CodeStore.Invariant C P Q) (h : R.Holds C P d.memory) (address : UInt32) (cpu : σ) :
    R.Holds C P (d.decodeAt address cpu).2.1.memory := by
  obtain ⟨misses, s, hretries, hends⟩ := decodeWithin_cases (maxFaultRetries + 1) address d cpu
  have hs : R.Holds C P s.memory := h.retries hretries
  rw [← Dispatcher.decodeAt] at hends
  generalize d.decodeAt address cpu = r at hends ⊢
  rcases hends with ⟨_, hanswers⟩ | ⟨_, rfl⟩
  · cases hanswers with
    | code hlookup =>
        obtain ⟨_, _, _, hfetch⟩ := hs.code hI hlookup
        rw [memory_noteDecoded]
        exact (hfetch _).2
    | notCode hlookup => exact hs.notCode hlookup
    | unexpected _ hlookup => exact hs.pageFault hlookup
  · exact hs

theorem Holds.execute (hI : CodeStore.Invariant C P Q) (h : R.Holds C P d.memory) (cpu : σ) :
    R.Holds C P (d.execute cpu).2.1.memory := by
  have hdecode := h.decodeAt hI (instructionPointer cpu) cpu
  rw [Dispatcher.execute]
  generalize d.decodeAt (instructionPointer cpu) cpu = r at hdecode ⊢
  obtain ⟨_ | b, d', cpu'⟩ := r
  · exact hdecode
  · rwa [← memory_noteExecuted] at hdecode

theorem Holds.reachable (hI : CodeStore.Invariant C P Q) {d₀ : Dispatcher μ Block} (h : R.Holds C P d₀.memory)
    (hd : R.Reachable d₀ d) : R.Holds C P d.memory := by
  induction hd with
  | start => exact h
  | execute _ cpu ih => exact ih.execute hI cpu
  | decode _ address cpu ih => exact ih.decodeAt hI address cpu
  | upkeep _ u hcarrier hstore ih => exact ⟨hcarrier, hstore ▸ ih.store.upkeep hI u⟩
  | other _ hcarrier hstore ih => exact ⟨hcarrier, hstore ▸ ih.store⟩

theorem Reachable.carrier {d₀ : Dispatcher μ Block} (h : R.carrier d₀.memory) (hd : R.Reachable d₀ d) :
    R.carrier d.memory :=
  (Holds.reachable CodeStore.invariant_true ⟨h, trivial, fun _ _ _ => trivial⟩ hd).carrier

theorem Holds.execute_of_place? (hI : CodeStore.Invariant C P Q) (h : R.Holds C P d.memory) {cpu : σ} {misses : List Miss}
    {s : Search μ σ} (hretries : Retries ⟨instructionPointer cpu, d.memory, cpu⟩ misses s)
    (hlength : misses.length ≤ maxFaultRetries) {i : ι} {offset : UInt32}
    (hplace : R.place? (space s.cpu) s.address s.memory = some (i, offset)) :
    ∃ b, Q i (subMode s.cpu) offset b ∧ (d.execute cpu).1 = .ok (follow b s.cpu maxReplacements).1 ∧
      (d.execute cpu).2.2 = (follow b s.cpu maxReplacements).2 := by
  have hs : R.Holds C P s.memory := h.retries hretries
  obtain ⟨fetch, hlookup⟩ := exists_code_of_place? hs.carrier hplace
  obtain ⟨i', offset', hplace', hfetch⟩ := hs.code hI hlookup
  cases hplace.symm.trans hplace'
  obtain ⟨attempts, hattempts⟩ := Nat.exists_eq_add_of_le hlength
  have hdecode := decodeWithin_of_retries hretries (attempts + 1) d
  rw [← Nat.add_assoc, ← hattempts] at hdecode
  refine ⟨_, (hfetch (subMode s.cpu)).1, ?_⟩
  rw [Dispatcher.execute, Dispatcher.decodeAt, hdecode, decodeWithin, hlookup]
  exact ⟨rfl, rfl⟩

theorem Holds.exists_place? (hI : CodeStore.Invariant C P Q) (h : R.Holds C P d.memory) {cpu : σ} {b : Block}
    (hb : (d.execute cpu).1 = .ok b) :
    ∃ misses s i offset, Retries ⟨instructionPointer cpu, d.memory, cpu⟩ misses s ∧ misses.length ≤ maxFaultRetries ∧
      R.place? (space s.cpu) s.address s.memory = some (i, offset) := by
  obtain ⟨misses, s, fetch, _, hretries, hlength, hlookup, _⟩ := execute_ok hb
  obtain ⟨i, offset, hplace, _⟩ := (h.retries hretries).code hI hlookup
  exact ⟨misses, s, i, offset, hretries, hlength, hplace⟩

end Dispatcher

end RegionMemory

def Mapping.bounds (m : Mapping) : UInt32 × UInt32 := (m.base, m.size)

namespace CodeMap

theorem eq_of_splitAt? {address : UInt32} {mappings before after : List Mapping} {m : Mapping}
    (h : splitAt? address mappings = some (before, m, after)) : mappings = before ++ m :: after := by
  induction mappings generalizing before with
  | nil => cases h
  | cons first rest ih =>
      rw [splitAt?] at h
      by_cases hfirst : first.contains address = true
      · rw [if_pos hfirst] at h
        cases h
        rfl
      · rw [if_neg hfirst, Option.map_eq_some_iff] at h
        obtain ⟨⟨_, _, _⟩, hrest, heq⟩ := h
        cases heq
        rw [ih hrest]
        rfl

structure HasRegions (bounds : List (UInt32 × UInt32)) (map : CodeMap) : Prop where
  bounds : map.mappings.map Mapping.bounds = bounds
  regions : ∀ m ∈ map.mappings, ∃ r, m.content = .region r

def store (map : CodeMap) : CodeStore Nat := ⟨map.compiler, fun i => (map.mappings[i]?).bind (·.content.region?)⟩

def place? (address : UInt32) (map : CodeMap) : Option (Nat × UInt32) :=
  if map.pageFaults = [] then
    (splitAt? address map.mappings).map fun (before, m, _) => (before.length, m.offset address)
  else none

variable {bounds : List (UInt32 × UInt32)} {map : CodeMap}

theorem HasRegions.fetch (h : map.HasRegions bounds) {before after : List Mapping} {m : Mapping}
    (hmappings : map.mappings = before ++ m :: after) (address : UInt32) (s : SubMode) :
    (map.fetch before m after address s).2.HasRegions bounds ∧
      map.store.fetch? before.length s (m.offset address) =
        some ((map.fetch before m after address s).1, (map.fetch before m after address s).2.store) := by
  obtain ⟨r, hr⟩ := h.regions m (by rw [hmappings]; exact List.mem_append_right _ List.mem_cons_self)
  have hbounds := h.bounds
  have hregions := h.regions
  rw [hmappings, List.map_append, List.map_cons] at hbounds
  rw [hmappings, List.forall_mem_append, List.forall_mem_cons] at hregions
  rw [CodeMap.fetch, hr]
  refine ⟨⟨?_, ?_⟩, ?_⟩
  · rw [← hbounds, List.map_append, List.map_cons]
    rfl
  · rw [List.forall_mem_append, List.forall_mem_cons]
    exact ⟨hregions.1, ⟨_, rfl⟩, hregions.2.2⟩
  · have hfound : map.store.region? before.length = some r := by
      simp [store, hmappings, hr, Content.region?]
    rw [CodeStore.fetch?, hfound, Option.map_some]
    have hothers : Function.update map.store.region? before.length (some (r.fetch map.compiler s (m.offset address)).region) =
        fun i => ((before ++ { m with content := .region (r.fetch map.compiler s (m.offset address)).region } :: after)[i]?).bind
          (·.content.region?) := by
      funext i
      rcases Nat.lt_trichotomy i before.length with hlt | rfl | hgt
      · rw [Function.update_of_ne hlt.ne]
        simp [store, hmappings, List.getElem?_append_left hlt]
      · simp [Content.region?]
      · obtain ⟨k, rfl⟩ := Nat.exists_eq_add_of_lt hgt
        rw [Function.update_of_ne hgt.ne']
        simp [store, hmappings, List.getElem?_append_right, Nat.add_assoc]
    exact congrArg (fun region? => some (_, CodeStore.mk _ region?)) hothers

theorem HasRegions.leadsTo (h : map.HasRegions bounds) (space : Space) (address : UInt32) :
    (CodeMemory.lookup space address map).LeadsTo (HasRegions bounds) store map (map.place? address) := by
  obtain ⟨compiler, mappings, pageFaults, requests⟩ := map
  change (CodeMap.lookup space address _).LeadsTo _ _ _ _
  dsimp only [CodeMap.lookup, log, place?]
  cases pageFaults with
  | cons fault rest => exact .pageFault ⟨h.bounds, h.regions⟩ rfl
  | nil =>
      cases hsplit : splitAt? address mappings with
      | none => exact .notCode ⟨h.bounds, h.regions⟩ rfl
      | some split =>
          obtain ⟨before, m, after⟩ := split
          -- the memory that fetches has the request on record, but the same code
          have hlog : HasRegions bounds ⟨compiler, mappings, [], requests.appendList [.lookup space address]⟩ :=
            ⟨h.bounds, h.regions⟩
          have hfetch := hlog.fetch (eq_of_splitAt? hsplit) address
          exact .code (fun s => (hfetch s).1) fun s => (hfetch s).2

def regions (bounds : List (UInt32 × UInt32)) : RegionMemory CodeMap Nat where
  carrier := HasRegions bounds
  store := store
  place? _ := place?
  leadsTo := HasRegions.leadsTo

theorem bounds_modifyRegion (m : Mapping) (f : Region → Region) : (m.modifyRegion f).bounds = m.bounds := by
  rw [Mapping.modifyRegion]
  split <;> rfl

theorem region?_modifyRegion (m : Mapping) (f : Region → Region) :
    (m.modifyRegion f).content.region? = m.content.region?.map f := by
  obtain ⟨base, size, content⟩ := m
  cases content <;> rfl

theorem HasRegions.invalidate (h : map.HasRegions bounds) (i : Nat) :
    (map.modifyRegion i Region.invalidate).HasRegions bounds ∧
      (map.modifyRegion i Region.invalidate).store = map.store.upkeep (.invalidate i) := by
  have hget (j : Nat) : (map.modifyRegion i Region.invalidate).mappings[j]? =
      (map.mappings[j]?).map fun m => if i = j then m.modifyRegion Region.invalidate else m := List.getElem?_modify _ _ _ _
  refine ⟨⟨?_, ?_⟩, ?_⟩
  · rw [← h.bounds]
    apply List.ext_getElem?
    intro j
    rw [List.getElem?_map, List.getElem?_map, hget, Option.map_map]
    congr 1
    funext m
    dsimp only [Function.comp_apply]
    split
    · exact bounds_modifyRegion m _
    · rfl
  · intro m hm
    obtain ⟨j, hj⟩ := List.mem_iff_getElem?.mp hm
    rw [hget, Option.map_eq_some_iff] at hj
    obtain ⟨m', hm', rfl⟩ := hj
    obtain ⟨r, hr⟩ := h.regions m' (List.mem_of_getElem? hm')
    split
    · rw [Mapping.modifyRegion, hr]
      exact ⟨_, rfl⟩
    · exact ⟨r, hr⟩
  · have hothers : (map.modifyRegion i Region.invalidate).store.region? = (map.store.upkeep (.invalidate i)).region? := by
      funext j
      change ((map.modifyRegion i Region.invalidate).mappings[j]?).bind (·.content.region?) =
        Function.update map.store.region? i ((map.store.region? i).map Region.invalidate) j
      rw [hget]
      by_cases hj : j = i
      · subst hj
        rw [Function.update_self]
        cases hm : map.mappings[j]? <;> simp [store, hm, region?_modifyRegion]
      · rw [Function.update_of_ne hj]
        simp [store, Ne.symm hj]
    exact congrArg (CodeStore.mk _) hothers

end CodeMap

namespace Dispatcher

inductive Event
  | execute (cpu : Machine)
  | invalidate (mapping : Nat)
  | evict (mode : Mode) (name : String)
  | clear
  | raise (pageFaults : List Fault)

def handle (d : Dispatcher CodeMap Block) : Event → Dispatcher CodeMap Block
  | .execute cpu => (d.execute cpu).2.1
  | .invalidate i => { d with memory := d.memory.modifyRegion i Region.invalidate }
  | .evict mode name => { d with memory.compiler.cache := (d.memory.compiler.cache.evict mode name).2 }
  | .clear => { d with memory.compiler.cache := d.memory.compiler.cache.clear }
  | .raise pageFaults => { d with memory.pageFaults := pageFaults }

variable {bounds : List (UInt32 × UInt32)} {d₀ d : Dispatcher CodeMap Block}

theorem reachable_handle (h₀ : d₀.memory.HasRegions bounds) (hd : (CodeMap.regions bounds).Reachable d₀ d) (e : Event) :
    (CodeMap.regions bounds).Reachable d₀ (d.handle e) := by
  have hregions : d.memory.HasRegions bounds := hd.carrier h₀
  cases e with
  | execute cpu => exact hd.execute cpu
  | invalidate i => exact hd.upkeep (.invalidate i) (hregions.invalidate i).1 (hregions.invalidate i).2
  | evict mode name => exact hd.upkeep (.evict mode name) ⟨hregions.bounds, hregions.regions⟩ rfl
  | clear => exact hd.upkeep .clear ⟨hregions.bounds, hregions.regions⟩ rfl
  | raise pageFaults => exact hd.other ⟨hregions.bounds, hregions.regions⟩ rfl

theorem reachable_foldl_handle {map : CodeMap} (h : map.HasRegions bounds) (capacity : Nat) (history : List Event) :
    (CodeMap.regions bounds).Reachable (new capacity map) (history.foldl handle (new capacity map)) := by
  have hall (d : Dispatcher CodeMap Block) (hd : (CodeMap.regions bounds).Reachable (new capacity map) d) :
      (CodeMap.regions bounds).Reachable (new capacity map) (history.foldl handle d) := by
    induction history generalizing d with
    | nil => exact hd
    | cons e history ih => exact ih _ (reachable_handle h hd e)
  exact hall _ .start

end Dispatcher

end Dynarec
