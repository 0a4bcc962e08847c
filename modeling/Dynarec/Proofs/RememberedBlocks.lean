import Dynarec.Proofs.FirstWriter
import Dynarec.Region

namespace Dynarec

namespace Cache

theorem Filed.key_publish {c : Cache} (h : c.Filed) (p : Procedure) :
    (c.publish p).1.key = p.key ∧ (c.publishGenerated p).1.key = p.key := by
  rcases h.publish_cases p with ⟨q, _, hkey, hpublish, hgenerated⟩ | ⟨_, hpublish, name, hgenerated⟩
  · rw [hpublish, hgenerated]
    exact ⟨hkey, hkey⟩
  · rw [hpublish, hgenerated]
    exact ⟨rfl, rfl⟩

end Cache

namespace Compiler

open Cache

theorem compileRun_filed {c : Compiler} (h : c.cache.Filed) (mode : Mode) (name : Option String) (run : Run) :
    (c.compileRun mode name run).2.cache.Filed ∧ ∀ p, (c.compileRun mode name run).1 = .ok p → p.mode = mode := by
  have hfiled := h.of_buckets_eq (c.cache.buckets_lookup mode run)
  rw [compileRun, Compiler.lookup]
  cases hlookup : c.cache.lookup mode run with
  | mk found cache =>
      rw [hlookup] at hfiled
      cases found with
      | some p =>
          have hfound := h.lookup_iff.mp (congrArg Prod.fst hlookup)
          refine ⟨hfiled, ?_⟩
          rintro _ ⟨⟩
          exact congrArg Prod.fst hfound.2
      | none =>
          dsimp only [fresh]
          cases hbuild : Procedure.build (name.getD "") mode c.nextStamp run with
          | error e =>
              refine ⟨hfiled, ?_⟩
              rintro _ ⟨⟩
          | ok q =>
              have hmode : q.mode = mode := by
                obtain ⟨_, _, _, _, _, hparts⟩ := Procedure.build_ok hbuild
                rw [hparts]
              obtain ⟨hpublish, hgenerated⟩ := hfiled.publish q
              obtain ⟨hkey, hkey'⟩ := hfiled.key_publish q
              cases name with
              | none =>
                  refine ⟨hgenerated, ?_⟩
                  rintro _ ⟨⟩
                  exact (congrArg Prod.fst hkey').trans hmode
              | some name =>
                  refine ⟨hpublish, ?_⟩
                  rintro _ ⟨⟩
                  exact (congrArg Prod.fst hkey).trans hmode

theorem compile_filed {c : Compiler} (h : c.cache.Filed) (mode : Mode) (name : Option String)
    (source : List Instruction) :
    (c.compile mode name source).2.cache.Filed ∧ ∀ p, (c.compile mode name source).1 = .ok p → p.mode = mode := by
  rw [compile]
  cases Run.build c.maxInstructions source with
  | error e =>
      refine ⟨h, ?_⟩
      rintro _ ⟨⟩
  | ok run => exact compileRun_filed h mode name run

theorem get_filed {c c' : Compiler} (h : c.cache.Filed) {mode : Mode} {source : List Instruction}
    {found : Option Procedure} (hget : c.get mode source = (found, c')) :
    c'.cache.Filed ∧ ∀ p ∈ found, p.mode = mode := by
  obtain ⟨hfiled, hmode⟩ := compile_filed h mode none source
  rw [get] at hget
  cases hcompile : c.compile mode none source with
  | mk result c'' =>
      rw [hcompile] at hget hfiled hmode
      cases hget
      refine ⟨hfiled, ?_⟩
      intro p hp
      cases result with
      | error e => cases hp
      | ok q => exact hmode p (congrArg Except.ok (Option.some.inj hp))

end Compiler

namespace Region

inductive Fetches (r : Region) (c : Compiler) (s : SubMode) (offset : UInt32) : Fetched → Prop
  | remembered {b : Block} (hfound : r.blocks.lookup (s, offset) = some b) : Fetches r c s offset ⟨b, r, c, []⟩
  | compiled {p : Procedure} {c' : Compiler} (hnew : r.blocks.lookup (s, offset) = none)
      (hget : c.get s.mode (r.decode s offset) = (some p, c')) :
      Fetches r c s offset ⟨.procedure p, r.remember s offset (.procedure p), c', [.decode s offset]⟩
  | interpreted {c' : Compiler} (hnew : r.blocks.lookup (s, offset) = none)
      (hget : c.get s.mode (r.decode s offset) = (none, c')) :
      Fetches r c s offset ⟨r.fallback s offset, r.remember s offset (r.fallback s offset), c',
        [.decode s offset, .fallback s offset]⟩

theorem fetches_fetch (r : Region) (c : Compiler) (s : SubMode) (offset : UInt32) :
    r.Fetches c s offset (r.fetch c s offset) := by
  rw [fetch]
  cases hfound : r.blocks.lookup (s, offset) with
  | some b => exact .remembered hfound
  | none =>
      cases hget : c.get s.mode (r.decode s offset) with
      | mk found c' =>
          cases found with
          | some p => exact .compiled hfound hget
          | none => exact .interpreted hfound hget

/-- Every block that the region remembers or falls back on suits its sub-mode. -/
structure Suits (P : SubMode → Block → Prop) (r : Region) : Prop where
  fallback : ∀ s offset, P s (r.fallback s offset)
  blocks : ∀ e ∈ r.blocks, P e.1.1 e.2

theorem suits_new {P : SubMode → Block → Prop} (decode : SubMode → UInt32 → List Instruction)
    {fallback : SubMode → UInt32 → Block} (h : ∀ s offset, P s (fallback s offset)) : (new decode fallback).Suits P :=
  ⟨h, List.forall_mem_nil _⟩

theorem Suits.remember {P : SubMode → Block → Prop} {r : Region} (h : r.Suits P) {s : SubMode} {b : Block} (hb : P s b)
    (offset : UInt32) : (r.remember s offset b).Suits P :=
  ⟨h.fallback, List.forall_mem_cons.mpr ⟨hb, h.blocks⟩⟩

theorem Suits.fetch {P : SubMode → Block → Prop} (hP : ∀ s p, p.mode = SubMode.mode s → P s (.procedure p))
    {r : Region} (h : r.Suits P) {c : Compiler} (hc : c.cache.Filed) (s : SubMode) (offset : UInt32) :
    P s (r.fetch c s offset).block ∧ (r.fetch c s offset).region.Suits P ∧
      (r.fetch c s offset).compiler.cache.Filed := by
  have hfetch := r.fetches_fetch c s offset
  generalize r.fetch c s offset = f at hfetch ⊢
  cases hfetch with
  | remembered hfound =>
      obtain ⟨_, _, hblocks, _⟩ := List.lookup_eq_some_iff.mp hfound
      exact ⟨h.blocks _ (by rw [hblocks]; exact List.mem_append_right _ List.mem_cons_self), h, hc⟩
  | compiled _ hget =>
      obtain ⟨hfiled, hmode⟩ := Compiler.get_filed hc hget
      have hp := hP s _ (hmode _ rfl)
      exact ⟨hp, h.remember hp offset, hfiled⟩
  | interpreted _ hget =>
      exact ⟨h.fallback s offset, h.remember (h.fallback s offset) offset, (Compiler.get_filed hc hget).1⟩

structure Site where
  region : Region
  compiler : Compiler

inductive Event
  | request (s : SubMode) (offset : UInt32)
  | invalidate
  | redefine (decode : SubMode → UInt32 → List Instruction) (fallback : SubMode → UInt32 → Block)
  | compile (mode : Mode) (name : Option String) (source : List Instruction)
  | cache (command : Cache.Command)
  | setMaxInstructions (limit : Nat)

structure Answer where
  key : SubMode × UInt32
  block : Block
  requests : List Request

def Event.KeepsModes : Event → Prop
  | redefine _ fallback => ∀ s offset, (fallback s offset).info.mode = s.mode
  | _ => True

namespace Site

def new (config : Config) (firstStamp : Nat) (decode : SubMode → UInt32 → List Instruction)
    (fallback : SubMode → UInt32 → Block) : Site :=
  ⟨.new decode fallback, .new config firstStamp⟩

def answer (w : Site) (s : SubMode) (offset : UInt32) : Answer :=
  let f := w.region.fetch w.compiler s offset
  ⟨(s, offset), f.block, f.requests⟩

def handle (w : Site) : Event → Site
  | .request s offset =>
    let f := w.region.fetch w.compiler s offset
    ⟨f.region, f.compiler⟩
  | .invalidate => { w with region := w.region.invalidate }
  | .redefine decode fallback => { w with region := { w.region with decode, fallback } }
  | .compile mode name source => { w with compiler := (w.compiler.compile mode name source).2 }
  | .cache command => { w with compiler.cache := w.compiler.cache.serve command }
  | .setMaxInstructions limit => { w with compiler.maxInstructions := limit }

def note (w : Site) (answers : List Answer) : Event → List Answer
  | .request s offset => answers ++ [w.answer s offset]
  | .invalidate => []
  | _ => answers

def run (w : Site) (history : List Event) : Site := history.foldl handle w

/-- The answers since the last invalidation, oldest first, if there were some before. -/
def epoch (w : Site) (answers : List Answer) : List Event → List Answer
  | [] => answers
  | e :: history => (w.handle e).epoch (w.note answers e) history

end Site

def asked (answers : List Answer) (request : Request) : Nat := (answers.flatMap Answer.requests).count request

def keys (answers : List Answer) : List (SubMode × UInt32) := answers.map Answer.key

/-- The region remembers what it answered, and asked no more than it had to. -/
structure Remembers (r : Region) (answers : List Answer) : Prop where
  nodup : (r.blocks.map Prod.fst).Nodup
  mem_keys : ∀ key, (r.blocks.lookup key).isSome = true ↔ key ∈ keys answers
  block : ∀ a ∈ answers, r.blocks.lookup a.key = some a.block
  decodes : ∀ s offset, asked answers (.decode s offset) = if (s, offset) ∈ keys answers then 1 else 0
  fallbacks : ∀ s offset, asked answers (.fallback s offset) ≤ if (s, offset) ∈ keys answers then 1 else 0

theorem remembers_nil {r : Region} (h : r.blocks = []) : r.Remembers [] := by
  constructor <;> simp [h, keys, asked]

theorem keys_concat (answers : List Answer) (a : Answer) : keys (answers ++ [a]) = keys answers ++ [a.key] :=
  List.map_append

theorem asked_concat (answers : List Answer) (a : Answer) (request : Request) :
    asked (answers ++ [a]) request = asked answers request + a.requests.count request := by
  simp [asked]

theorem isSome_lookup_iff {blocks : List ((SubMode × UInt32) × Block)} {key : SubMode × UInt32} :
    (blocks.lookup key).isSome = true ↔ key ∈ blocks.map Prod.fst := by
  rw [List.lookup_isSome_iff, List.mem_map]
  exact exists_congr fun e => and_congr_right' (beq_iff_eq.trans eq_comm)

theorem Remembers.again {r : Region} {answers : List Answer} (h : r.Remembers answers) {s : SubMode} {offset : UInt32}
    {b : Block} (hfound : r.blocks.lookup (s, offset) = some b) :
    r.Remembers (answers ++ [⟨(s, offset), b, []⟩]) := by
  have hkeys (key : SubMode × UInt32) : key ∈ keys (answers ++ [⟨(s, offset), b, []⟩]) ↔ key ∈ keys answers := by
    rw [keys_concat, List.mem_append, List.mem_singleton, or_iff_left_iff_imp]
    rintro rfl
    rw [← h.mem_keys, hfound]
    rfl
  refine ⟨h.nodup, ?_, ?_, ?_, ?_⟩
  · intro key
    rw [hkeys, h.mem_keys]
  · rw [List.forall_mem_append, List.forall_mem_singleton]
    exact ⟨h.block, hfound⟩
  · intro s' offset'
    simp only [asked_concat, hkeys, List.count_nil, Nat.add_zero]
    exact h.decodes s' offset'
  · intro s' offset'
    simp only [asked_concat, hkeys, List.count_nil, Nat.add_zero]
    exact h.fallbacks s' offset'

theorem Remembers.first {r : Region} {answers : List Answer} (h : r.Remembers answers) {s : SubMode} {offset : UInt32}
    (hnew : r.blocks.lookup (s, offset) = none) (b : Block) {more : List Request}
    (hmore : more.Sublist [.fallback s offset]) :
    (r.remember s offset b).Remembers (answers ++ [⟨(s, offset), b, .decode s offset :: more⟩]) := by
  have hnot : (s, offset) ∉ keys answers := by
    rw [← h.mem_keys, hnew]
    exact Bool.false_ne_true
  have hlookup (key : SubMode × UInt32) :
      (r.remember s offset b).blocks.lookup key = if key = (s, offset) then some b else r.blocks.lookup key := by
    rw [remember, List.lookup_cons]
    by_cases hkey : key = (s, offset)
    · simp [hkey]
    · rw [beq_eq_false_iff_ne.mpr hkey, if_neg hkey]
  refine ⟨?_, ?_, ?_, ?_, ?_⟩
  · refine List.nodup_cons.mpr ⟨?_, h.nodup⟩
    rw [← isSome_lookup_iff, hnew]
    exact Bool.false_ne_true
  · intro key
    rw [hlookup, keys_concat, List.mem_append, List.mem_singleton, ← h.mem_keys]
    by_cases hkey : key = (s, offset) <;> simp [hkey]
  · rw [List.forall_mem_append, List.forall_mem_singleton]
    refine ⟨?_, by rw [hlookup, if_pos rfl]⟩
    intro a ha
    have hne : a.key ≠ (s, offset) := fun heq => hnot (heq ▸ List.mem_map_of_mem ha)
    rw [hlookup, if_neg hne]
    exact h.block a ha
  · intro s' offset'
    have hcount : more.count (.decode s' offset') = 0 := by
      have hle := hmore.count_le (.decode s' offset')
      simpa using hle
    rw [asked_concat, h.decodes, keys_concat, List.count_cons, hcount]
    by_cases hkey : (s', offset') = (s, offset)
    · cases hkey
      simp [hnot]
    · have hne : Request.decode s offset ≠ .decode s' offset' := fun heq => hkey (by cases heq; rfl)
      simp [hkey, hne]
  · intro s' offset'
    have hold := h.fallbacks s' offset'
    have hle := hmore.count_le (.fallback s' offset')
    rw [asked_concat, keys_concat, List.count_cons]
    by_cases hkey : (s', offset') = (s, offset)
    · cases hkey
      rw [if_neg hnot] at hold
      simp at hle ⊢
      omega
    · have hne : Request.fallback s offset ≠ .fallback s' offset' := fun heq => hkey (by cases heq; rfl)
      simp [hne] at hle
      simpa [hkey, hle] using hold

theorem Remembers.fetch {r : Region} {answers : List Answer} (h : r.Remembers answers) (c : Compiler) (s : SubMode)
    (offset : UInt32) :
    (r.fetch c s offset).region.Remembers
      (answers ++ [⟨(s, offset), (r.fetch c s offset).block, (r.fetch c s offset).requests⟩]) := by
  have hfetch := r.fetches_fetch c s offset
  generalize r.fetch c s offset = f at hfetch ⊢
  cases hfetch with
  | remembered hfound => exact h.again hfound
  | compiled hnew _ => exact h.first hnew _ (List.nil_sublist _)
  | interpreted hnew _ => exact h.first hnew _ (List.Sublist.refl _)

theorem Remembers.size_eq {r : Region} {answers : List Answer} (h : r.Remembers answers) :
    r.size = (keys answers).toFinset.card := by
  have hkeys : (r.blocks.map Prod.fst).toFinset = (keys answers).toFinset := by
    ext key
    rw [List.mem_toFinset, List.mem_toFinset, ← h.mem_keys, isSome_lookup_iff]
  rw [← hkeys, List.toFinset_card_of_nodup h.nodup, List.length_map, size]

namespace Site

structure KeepsModes (w : Site) : Prop where
  region : w.region.Suits fun s b => b.info.mode = s.mode
  cache : w.compiler.cache.Filed

theorem KeepsModes.handle {w : Site} (h : w.KeepsModes) {e : Event} (he : e.KeepsModes) : (w.handle e).KeepsModes := by
  cases e with
  | request s offset =>
      obtain ⟨_, hregion, hcache⟩ := h.region.fetch (fun _ _ hmode => hmode) h.cache s offset
      exact ⟨hregion, hcache⟩
  | invalidate => exact ⟨⟨h.region.fallback, List.forall_mem_nil _⟩, h.cache⟩
  | redefine decode fallback => exact ⟨⟨he, h.region.blocks⟩, h.cache⟩
  | compile mode name source => exact ⟨h.region, (Compiler.compile_filed h.cache mode name source).1⟩
  | cache command => exact ⟨h.region, h.cache.serve command⟩
  | setMaxInstructions limit => exact ⟨h.region, h.cache⟩

theorem KeepsModes.note {w : Site} (h : w.KeepsModes) {answers : List Answer}
    (hanswers : ∀ a ∈ answers, a.block.info.mode = a.key.1.mode) (e : Event) :
    ∀ a ∈ w.note answers e, a.block.info.mode = a.key.1.mode := by
  cases e with
  | request s offset =>
      rw [Site.note, List.forall_mem_append, List.forall_mem_singleton]
      exact ⟨hanswers, (h.region.fetch (fun _ _ hmode => hmode) h.cache s offset).1⟩
  | invalidate => exact List.forall_mem_nil _
  | redefine decode fallback | compile mode name source | cache command | setMaxInstructions limit => exact hanswers

theorem KeepsModes.epoch {w : Site} (h : w.KeepsModes) {answers : List Answer}
    (hanswers : ∀ a ∈ answers, a.block.info.mode = a.key.1.mode) {history : List Event}
    (hhistory : ∀ e ∈ history, e.KeepsModes) : ∀ a ∈ w.epoch answers history, a.block.info.mode = a.key.1.mode := by
  induction history generalizing w answers with
  | nil => exact hanswers
  | cons e history ih =>
      obtain ⟨he, hhistory⟩ := List.forall_mem_cons.mp hhistory
      exact ih (h.handle he) (h.note hanswers e) hhistory

theorem remembers_handle {w : Site} {answers : List Answer} (h : w.region.Remembers answers) (e : Event) :
    (w.handle e).region.Remembers (w.note answers e) := by
  cases e with
  | request s offset => exact h.fetch w.compiler s offset
  | invalidate => exact remembers_nil rfl
  | redefine decode fallback => exact ⟨h.nodup, h.mem_keys, h.block, h.decodes, h.fallbacks⟩
  | compile mode name source | cache command | setMaxInstructions limit => exact h

theorem remembers_run {w : Site} {answers : List Answer} (h : w.region.Remembers answers) (history : List Event) :
    (w.run history).region.Remembers (w.epoch answers history) := by
  induction history generalizing w answers with
  | nil => exact h
  | cons e history ih => exact ih (remembers_handle h e)

end Site

/-- Whatever happens to a region and its compiler, all answers since the last invalidation agree. Each key
was decoded once, and what interprets it was made at most once. The region remembers as many blocks as
there are keys. Blocks are for the modes of their sub-modes, if those that interpret are. -/
theorem answers_stable (config : Config) (firstStamp : Nat) (decode : SubMode → UInt32 → List Instruction)
    (fallback : SubMode → UInt32 → Block) (history : List Event) :
    let start := Site.new config firstStamp decode fallback
    let answers := start.epoch [] history
    (∀ a ∈ answers, ∀ b ∈ answers, a.key = b.key → a.block = b.block) ∧
      (∀ s offset, asked answers (.decode s offset) = if (s, offset) ∈ keys answers then 1 else 0) ∧
      (∀ s offset, asked answers (.fallback s offset) ≤ if (s, offset) ∈ keys answers then 1 else 0) ∧
      (start.run history).region.size = (keys answers).toFinset.card ∧
      ((∀ s offset, (fallback s offset).info.mode = s.mode) → (∀ e ∈ history, e.KeepsModes) →
        ∀ a ∈ answers, a.block.info.mode = a.key.1.mode) := by
  intro start answers
  have h : (start.run history).region.Remembers answers := Site.remembers_run (remembers_nil rfl) history
  refine ⟨?_, h.decodes, h.fallbacks, h.size_eq, ?_⟩
  · intro a ha b hb hkey
    have hblock := h.block a ha
    rw [hkey, h.block b hb] at hblock
    exact (Option.some.inj hblock).symm
  · intro hfallback hhistory
    have hstart : start.KeepsModes := ⟨suits_new decode hfallback, Cache.filed_empty⟩
    exact hstart.epoch (List.forall_mem_nil _) hhistory

def askedAgain : List Event :=
  [.request .real 16, .redefine (fun _ _ => []) (fun s _ => .advance "slow" s.mode 3), .request .virtual8086 16,
    .redefine (fun _ _ => []) (fun s _ => .advance "slower" s.mode 4), .cache .clear, .request .real 16,
    .request .virtual8086 16]

theorem answers_stable_askedAgain :
    let start := Site.new .standard 0 (fun _ _ => [⟨1, [Microcode.sti.word]⟩]) (fun s _ => .advance "step" s.mode 2)
    let answers := start.epoch [] askedAgain
    answers.map (fun a => a.block.info.name) = ["FAST_RM_86", "slow", "FAST_RM_86", "slow"] ∧
      (∀ e ∈ askedAgain, e.KeepsModes) ∧ ∀ a ∈ answers, a.block.info.mode = a.key.1.mode := by
  intro start answers
  have hnames : answers.map (fun a => a.block.info.name) = ["FAST_RM_86", "slow", "FAST_RM_86", "slow"] := by
    decide +kernel
  have hmodes : ∀ e ∈ askedAgain, e.KeepsModes := by simp [askedAgain, Event.KeepsModes, Block.info]
  obtain ⟨_, _, _, _, hanswers⟩ := answers_stable .standard 0 (fun _ _ => [⟨1, [Microcode.sti.word]⟩])
    (fun s _ => .advance "step" s.mode 2) askedAgain
  exact ⟨hnames, hmodes, hanswers (fun _ _ => rfl) hmodes⟩

end Region

end Dynarec
