import Dynarec.Compiler
import Dynarec.Proofs.RunIdentity
import Mathlib.Logic.Function.Basic

namespace Dynarec

namespace Procedure

def Genuine (p : Procedure) : Prop :=
  ∃ (limit : Nat) (source : Tape) (run : Run), Run.build limit source.instructions = .ok run ∧
    build p.name p.mode p.stamp run = .ok p

theorem genuine_of_build {name : String} {mode : Mode} {stamp limit : Nat} {source : Tape} {run : Run} {p : Procedure}
    (hrun : Run.build limit source.instructions = .ok run) (h : build name mode stamp run = .ok p) : p.Genuine := by
  refine ⟨limit, source, run, hrun, ?_⟩
  obtain ⟨_, _, _, _, _, hparts⟩ := build_ok h
  rw [hparts] at h ⊢
  exact h

theorem Genuine.rename {p : Procedure} (h : p.Genuine) (name : String) : Genuine { p with name } := by
  obtain ⟨limit, source, run, hrun, hp⟩ := h
  refine ⟨limit, source, run, hrun, ?_⟩
  rw [build_rename p.name name p.mode p.stamp p.stamp run, hp]
  rfl

theorem Genuine.map_content_build {p : Procedure} (h : p.Genuine) {limit : Nat} {source : Tape} {run : Run}
    (hrun : Run.build limit source.instructions = .ok run) (hentries : p.entries = run.entries) (name : String)
    (stamp : Nat) : (build name p.mode stamp run).map content = .ok p.content := by
  obtain ⟨limit', source', run', hrun', hp⟩ := h
  cases Run.eq_of_entries_eq hrun' hrun ((entries_of_build hp).symm.trans hentries)
  rw [build_rename p.name name p.mode p.stamp stamp, hp]
  rfl

theorem Genuine.content_eq {p q : Procedure} (h : p.Genuine) (hq : q.Genuine) (hmode : p.mode = q.mode)
    (hentries : p.entries = q.entries) : p.content = q.content := by
  obtain ⟨limit, source, run, hrun, hbuild⟩ := hq
  have hp := h.map_content_build hrun (hentries.trans (entries_of_build hbuild)) q.name q.stamp
  rw [hmode, hbuild] at hp
  exact (Except.ok.inj hp).symm

end Procedure

namespace Cache

/-- Every procedure was compiled from what it is filed under. -/
def Sound (c : Cache) : Prop := ∀ b ∈ c.buckets, ∀ p ∈ b.procedures, p.mode = b.mode ∧ p.Genuine

theorem sound_empty : empty.Sound := by
  intro b hb
  cases hb

theorem bucket?_some {c : Cache} {mode : Mode} {hash : Int32} {b : Bucket} (h : c.bucket? mode hash = some b) :
    b ∈ c.buckets ∧ b.mode = mode := by
  have hholds := List.find?_some h
  simp only [Bucket.holds, Bool.and_eq_true, beq_iff_eq] at hholds
  exact ⟨List.mem_of_find?_eq_some h, hholds.1⟩

theorem bucket_mode (c : Cache) (mode : Mode) (hash : Int32) : (c.bucket mode hash).mode = mode := by
  rw [bucket]
  cases h : c.bucket? mode hash with
  | none => rfl
  | some b => exact (bucket?_some h).2

theorem Sound.bucket {c : Cache} (hc : c.Sound) {mode : Mode} {hash : Int32} {p : Procedure}
    (hp : p ∈ (c.bucket mode hash).procedures) : p.mode = mode ∧ p.Genuine := by
  rw [Cache.bucket] at hp
  cases h : c.bucket? mode hash with
  | none =>
      rw [h] at hp
      cases hp
  | some b =>
      rw [h] at hp
      obtain ⟨hb, rfl⟩ := bucket?_some h
      exact hc b hb p hp

theorem find?_some {b : Bucket} {entries : List Entry} {p : Procedure} (h : b.find? entries = some p) :
    p ∈ b.procedures ∧ p.entries = entries :=
  ⟨List.mem_of_find?_eq_some h, by simpa using List.find?_some h⟩

theorem mem_putBucket {b x : Bucket} {bs : List Bucket} (h : x ∈ putBucket b bs) : x = b ∨ x ∈ bs := by
  induction bs with
  | nil => exact .inl (List.mem_singleton.mp h)
  | cons other rest ih =>
      rw [putBucket] at h
      split at h
      · rcases List.mem_cons.mp h with rfl | h
        · exact .inl rfl
        · exact .inr (List.mem_cons_of_mem _ h)
      · rcases List.mem_cons.mp h with rfl | h
        · exact .inr List.mem_cons_self
        · exact (ih h).imp_right (List.mem_cons_of_mem _)

theorem Sound.add {c : Cache} (hc : c.Sound) {p : Procedure} (hp : p.Genuine) (hash : Int32) :
    (c.add (c.bucket p.mode hash) p).2.Sound := by
  intro b hb q hq
  rcases mem_putBucket hb with rfl | hb
  · rcases List.mem_append.mp hq with hq | hq
    · obtain ⟨hmode, hgenuine⟩ := hc.bucket hq
      exact ⟨hmode.trans (c.bucket_mode p.mode hash).symm, hgenuine⟩
    · cases List.mem_singleton.mp hq
      exact ⟨(c.bucket_mode p.mode hash).symm, hp⟩
  · exact hc b hb q hq

/-- What publishing a procedure gives: the one that its run has already, or itself under some name. -/
inductive Stores (c : Cache) (p : Procedure) : Procedure × Cache → Prop
  | found {q : Procedure} (hq : q ∈ (c.bucket p.mode p.hash).procedures) (hentries : q.entries = p.entries) :
      Stores c p (q, c)
  | added (name : String) : Stores c p (c.add (c.bucket p.mode p.hash) { p with name })

theorem stores_publish (c : Cache) (p : Procedure) : c.Stores p (c.publish p) := by
  rw [publish]
  split
  next q hq => exact .found (find?_some hq).1 (find?_some hq).2
  next => exact .added p.name

theorem stores_publishGenerated (c : Cache) (p : Procedure) : c.Stores p (c.publishGenerated p) := by
  rw [publishGenerated]
  split
  next q hq => exact .found (find?_some hq).1 (find?_some hq).2
  next => exact .added _

theorem Stores.sound {c : Cache} {p : Procedure} {r : Procedure × Cache} (h : c.Stores p r) (hc : c.Sound)
    (hp : p.Genuine) : r.2.Sound := by
  cases h with
  | found _ _ => exact hc
  | added name => exact hc.add (hp.rename name) p.hash

theorem Stores.content_eq {c : Cache} {p : Procedure} {r : Procedure × Cache} (h : c.Stores p r) (hc : c.Sound)
    (hp : p.Genuine) : r.1.content = p.content := by
  cases h with
  | @found q hq hentries =>
      obtain ⟨hmode, hgenuine⟩ := hc.bucket hq
      exact hgenuine.content_eq hp hmode hentries
  | added name => rfl

theorem Sound.lookup {c : Cache} (hc : c.Sound) (mode : Mode) (run : Run) :
    (c.lookup mode run).2.Sound ∧ ∀ p, (c.lookup mode run).1 = some p →
      p.mode = mode ∧ p.Genuine ∧ p.entries = run.entries := by
  rw [Cache.lookup]
  cases hb : c.bucket? mode run.hash with
  | none => exact ⟨hc, fun p hp => by cases hp⟩
  | some b =>
      dsimp only
      cases hfind : b.find? run.entries with
      | none => exact ⟨hc, fun p hp => by cases hp⟩
      | some q =>
          refine ⟨hc, ?_⟩
          intro p hp
          cases hp
          obtain ⟨hmem, rfl⟩ := bucket?_some hb
          obtain ⟨hq, hentries⟩ := find?_some hfind
          obtain ⟨hmode, hgenuine⟩ := hc b hmem q hq
          exact ⟨hmode, hgenuine, hentries⟩

theorem evictFrom_some {mode : Mode} {name : String} {bs bs' : List Bucket} (h : evictFrom mode name bs = some bs') :
    ∀ b' ∈ bs', ∃ b ∈ bs, b'.mode = b.mode ∧ ∀ p ∈ b'.procedures, p ∈ b.procedures := by
  induction bs generalizing bs' with
  | nil => cases h
  | cons b rest ih =>
      rw [evictFrom] at h
      intro b' hb'
      split at h
      · cases h
        rcases List.mem_cons.mp hb' with rfl | hb'
        · exact ⟨b, List.mem_cons_self, rfl, fun p hp => List.mem_of_mem_eraseP hp⟩
        · exact ⟨b', List.mem_cons_of_mem _ hb', rfl, fun _ hp => hp⟩
      · obtain ⟨rest', hrest, rfl⟩ := Option.map_eq_some_iff.mp h
        rcases List.mem_cons.mp hb' with rfl | hb'
        · exact ⟨b', List.mem_cons_self, rfl, fun _ hp => hp⟩
        · obtain ⟨x, hx, hsub⟩ := ih hrest b' hb'
          exact ⟨x, List.mem_cons_of_mem _ hx, hsub⟩

theorem Sound.evict {c : Cache} (hc : c.Sound) (mode : Mode) (name : String) : (c.evict mode name).2.Sound := by
  rw [Cache.evict]
  split
  next => exact hc
  next bs hbs =>
    intro b' hb' p hp
    obtain ⟨b, hb, hmode, hsub⟩ := evictFrom_some hbs b' hb'
    rw [hmode]
    exact hc b hb p (hsub p hp)

theorem sound_clear (c : Cache) : c.clear.Sound := by
  intro b hb
  cases hb

end Cache

namespace Compiler

open Procedure

theorem compileRun_spec {c : Compiler} (hc : c.cache.Sound) (mode : Mode) (name : Option String) {limit : Nat}
    {source : Tape} {run : Run} (hrun : Run.build limit source.instructions = .ok run) :
    (c.compileRun mode name run).1.map content = (build "" mode 0 run).map content ∧
      (c.compileRun mode name run).2.cache.Sound := by
  obtain ⟨hsound, hlookup⟩ := hc.lookup mode run
  rw [compileRun, Compiler.lookup]
  cases hl : c.cache.lookup mode run with
  | mk found cache =>
      rw [hl] at hsound hlookup
      cases found with
      | some p =>
          obtain ⟨rfl, hgenuine, hentries⟩ := hlookup p rfl
          exact ⟨(hgenuine.map_content_build hrun hentries "" 0).symm, hsound⟩
      | none =>
          -- a name and a stamp do not change what is built
          dsimp only [fresh]
          rw [build_rename (name.getD "") "" mode c.nextStamp 0 run]
          cases hbuild : build (name.getD "") mode c.nextStamp run with
          | error e => exact ⟨rfl, hsound⟩
          | ok p =>
              have hgenuine := genuine_of_build hrun hbuild
              obtain ⟨r, hr, hpublish⟩ : ∃ r, cache.Stores p r ∧
                  (if name.isSome then Compiler.publish ⟨cache, c.maxInstructions, c.nextStamp + 1⟩ p
                    else Compiler.publishGenerated ⟨cache, c.maxInstructions, c.nextStamp + 1⟩ p) =
                  (r.1, ⟨r.2, c.maxInstructions, c.nextStamp + 1⟩) := by
                cases name with
                | none => exact ⟨_, cache.stores_publishGenerated p, rfl⟩
                | some name => exact ⟨_, cache.stores_publish p, rfl⟩
              dsimp only
              rw [hpublish]
              exact ⟨congrArg Except.ok (hr.content_eq hsound hgenuine), hr.sound hsound hgenuine⟩

/-- Whatever is in a sound cache, the result is that of compiling anew, and the cache stays sound. -/
theorem compile_spec {c : Compiler} (hc : c.cache.Sound) (mode : Mode) (name : Option String) (source : Tape) :
    (c.compile mode name source.instructions).1.map content =
        (Run.build c.maxInstructions source.instructions >>= build "" mode 0).map content ∧
      (c.compile mode name source.instructions).2.cache.Sound := by
  rw [compile]
  cases hrun : Run.build c.maxInstructions source.instructions with
  | error e => exact ⟨rfl, hc⟩
  | ok run => exact compileRun_spec hc mode name hrun

inductive Request
  | compile (mode : Mode) (name : Option String) (source : Tape)
  | get (mode : Mode) (source : Tape)
  | lookup (mode : Mode) (run : Run)
  | publish (p : { p : Procedure // p.Genuine })
  | publishGenerated (p : { p : Procedure // p.Genuine })
  | evict (mode : Mode) (name : String)
  | clear
  | setMaxInstructions (limit : Nat)

def serve (c : Compiler) : Request → Compiler
  | .compile mode name source => (c.compile mode name source.instructions).2
  | .get mode source => (c.get mode source.instructions).2
  | .lookup mode run => (c.lookup mode run).2
  | .publish p => (c.publish p).2
  | .publishGenerated p => (c.publishGenerated p).2
  | .evict mode name => { c with cache := (c.cache.evict mode name).2 }
  | .clear => { c with cache := c.cache.clear }
  | .setMaxInstructions limit => { c with maxInstructions := limit }

theorem sound_serve {c : Compiler} (hc : c.cache.Sound) (r : Request) : (c.serve r).cache.Sound := by
  cases r with
  | compile mode name source => exact (compile_spec hc mode name source).2
  | get mode source => exact (compile_spec hc mode none source).2
  | lookup mode run => exact (hc.lookup mode run).1
  | publish p => exact (c.cache.stores_publish p).sound hc p.2
  | publishGenerated p => exact (c.cache.stores_publishGenerated p).sound hc p.2
  | evict mode name => exact hc.evict mode name
  | clear => exact c.cache.sound_clear
  | setMaxInstructions limit => exact hc

end Compiler

/-- Compilers with caches, any of which they may share. -/
structure Workshop where
  caches : Nat → Cache
  cacheOf : Nat → Nat
  maxInstructions : Nat → Nat
  nextStamp : Nat

namespace Workshop

open Compiler

def new (cacheOf maxInstructions : Nat → Nat) : Workshop := ⟨fun _ => .empty, cacheOf, maxInstructions, 0⟩

def compiler (w : Workshop) (i : Nat) : Compiler := ⟨w.caches (w.cacheOf i), w.maxInstructions i, w.nextStamp⟩

def put (w : Workshop) (i : Nat) (c : Compiler) : Workshop :=
  { w with
    caches := Function.update w.caches (w.cacheOf i) c.cache
    maxInstructions := Function.update w.maxInstructions i c.maxInstructions
    nextStamp := c.nextStamp }

def run (w : Workshop) (history : List (Nat × Request)) : Workshop :=
  history.foldl (fun w r => w.put r.1 ((w.compiler r.1).serve r.2)) w

def Sound (w : Workshop) : Prop := ∀ k, (w.caches k).Sound

theorem Sound.put {w : Workshop} (hw : w.Sound) (i : Nat) {c : Compiler} (hc : c.cache.Sound) : (w.put i c).Sound := by
  intro k
  change (Function.update w.caches (w.cacheOf i) c.cache k).Sound
  by_cases hk : k = w.cacheOf i
  · rw [hk, Function.update_self]
    exact hc
  · rw [Function.update_of_ne hk]
    exact hw k

theorem Sound.run {w : Workshop} (hw : w.Sound) (history : List (Nat × Request)) : (w.run history).Sound := by
  induction history generalizing w with
  | nil => exact hw
  | cons r history ih => exact ih (hw.put r.1 (sound_serve (hw _) r.2))

/-- Whatever was asked before of compilers that share caches, a compiler gives what it would give with
an empty cache, up to the name. -/
theorem compile_eq_uncached (cacheOf maxInstructions : Nat → Nat) (history : List (Nat × Request)) (i : Nat)
    (mode : Mode) (name : Option String) (source : Tape) :
    let c := ((new cacheOf maxInstructions).run history).compiler i
    (c.compile mode name source.instructions).1.map Procedure.content =
      (Compiler.compile { c with cache := .empty } mode name source.instructions).1.map Procedure.content := by
  intro c
  have hsound : (new cacheOf maxInstructions).Sound := fun _ => Cache.sound_empty
  have hc : c.cache.Sound := hsound.run history _
  rw [(compile_spec hc mode name source).1, (compile_spec Cache.sound_empty mode name source).1]

end Workshop

end Dynarec
