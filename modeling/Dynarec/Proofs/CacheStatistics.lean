import Dynarec.Proofs.GeneratedNames

namespace Dynarec

namespace Procedure

def place (p : Procedure) : Mode × Int32 := (p.mode, p.hash)

end Procedure

namespace Cache

open scoped List

/-- The modes and hashes that have a bucket, which may be empty. -/
def places (c : Cache) : List (Mode × Int32) := c.buckets.map fun b => (b.mode, b.hash)

theorem isSome_bucket? (c : Cache) (mode : Mode) (hash : Int32) :
    (c.bucket? mode hash).isSome = true ↔ (mode, hash) ∈ c.places := by
  rw [bucket?, List.find?_isSome, places, List.mem_map]
  simp only [Bucket.holds, Bool.and_eq_true, beq_iff_eq, Prod.mk.injEq]

theorem mem_places_add (c : Cache) (p : Procedure) (place : Mode × Int32) :
    place ∈ (c.add (c.bucket p.mode p.hash) p).2.places ↔ place = p.place ∨ place ∈ c.places := by
  have hmode : ((c.bucket p.mode p.hash).add p).mode = p.mode := c.bucket_mode p.mode p.hash
  have hhash : ((c.bucket p.mode p.hash).add p).hash = p.hash := c.bucket_hash p.mode p.hash
  simp only [add, put, places]
  rcases c.bucket_cases p.mode p.hash with ⟨before, after, hsplit, hput⟩ | ⟨_, _, hput⟩
  · rw [hput _ hmode hhash, hsplit]
    simp only [List.map_append, List.map_cons, List.mem_append, List.mem_cons, hmode, hhash, bucket_mode, bucket_hash]
    rw [Procedure.place]
    tauto
  · rw [hput _ hmode hhash, List.map_append, List.mem_append, List.map_singleton, List.mem_singleton, hmode, hhash, or_comm]
    rfl

theorem places_evict (c : Cache) (mode : Mode) (name : String) : (c.evict mode name).2.places = c.places := by
  rw [evict]
  cases hevict : evictFrom mode name c.buckets with
  | none => rfl
  | some bs =>
      obtain ⟨before, b, after, older, p, newer, hbs, _, _, _, rfl⟩ := evictFrom_eq_some hevict
      simp [places, hbs]

theorem statistics_evict (c : Cache) (mode : Mode) (name : String) :
    (c.evict mode name).2.statistics = c.statistics := by
  rw [evict]
  split <;> rfl

theorem lookup_cases (c : Cache) (mode : Mode) (run : Run) :
    (∃ p, c.lookup mode run =
        (some p, { c with statistics := { c.statistics with hits := c.statistics.hits + 1 } })) ∨
      (mode, run.hash) ∈ c.places ∧ c.lookup mode run =
        (none, { c with statistics := { c.statistics with collisions := c.statistics.collisions + 1 } }) ∨
      (mode, run.hash) ∉ c.places ∧ c.lookup mode run =
        (none, { c with statistics := { c.statistics with misses := c.statistics.misses + 1 } }) := by
  have hplace := c.isSome_bucket? mode run.hash
  rw [lookup]
  cases hbucket : c.bucket? mode run.hash with
  | none =>
      rw [hbucket] at hplace
      refine .inr (.inr ⟨?_, rfl⟩)
      intro hmem
      cases hplace.mpr hmem
  | some b =>
      rw [hbucket] at hplace
      dsimp only
      cases b.find? run.entries with
      | some p => exact .inl ⟨p, rfl⟩
      | none => exact .inr (.inl ⟨hplace.mp rfl, rfl⟩)

theorem Filed.statistics_lookup {c : Cache} (h : c.Filed) (mode : Mode) (run : Run) :
    ((∃ p ∈ c.procedures, p.key = (mode, run.entries)) →
        (c.lookup mode run).2.statistics = { c.statistics with hits := c.statistics.hits + 1 }) ∧
      ((∀ p ∈ c.procedures, p.key ≠ (mode, run.entries)) → (mode, run.hash) ∈ c.places →
        (c.lookup mode run).2.statistics = { c.statistics with collisions := c.statistics.collisions + 1 }) ∧
      ((∀ p ∈ c.procedures, p.key ≠ (mode, run.entries)) → (mode, run.hash) ∉ c.places →
        (c.lookup mode run).2.statistics = { c.statistics with misses := c.statistics.misses + 1 }) := by
  have hfound (p : Procedure) : (c.lookup mode run).1 = some p ↔ p ∈ c.procedures ∧ p.key = (mode, run.entries) :=
    h.lookup_iff
  rcases c.lookup_cases mode run with ⟨p, hlookup⟩ | ⟨hplace, hlookup⟩ | ⟨hplace, hlookup⟩
  · rw [hlookup] at hfound ⊢
    obtain ⟨hp, hkey⟩ := (hfound p).mp rfl
    exact ⟨fun _ => rfl, fun hnone => absurd hkey (hnone p hp), fun hnone => absurd hkey (hnone p hp)⟩
  · rw [hlookup] at hfound ⊢
    refine ⟨?_, fun _ _ => rfl, fun _ hnot => absurd hplace hnot⟩
    rintro ⟨p, hp⟩
    cases (hfound p).mpr hp
  · rw [hlookup] at hfound ⊢
    refine ⟨?_, fun _ hmem => absurd hmem hplace, fun _ _ => rfl⟩
    rintro ⟨p, hp⟩
    cases (hfound p).mpr hp

inductive Effect (c : Cache) : Cache → Prop
  | kept {c' : Cache} (hbuckets : c'.buckets = c.buckets)
      (hpublishes : c'.statistics.publishes = c.statistics.publishes) : Effect c c'
  | added (p : Procedure) : Effect c (c.add (c.bucket p.mode p.hash) p).2
  | evicted {c' : Cache} {p : Procedure} (hperm : c.procedures.Perm (p :: c'.procedures)) (hplaces : c'.places = c.places)
      (hpublishes : c'.statistics.publishes = c.statistics.publishes) : Effect c c'

theorem Filed.effect_serve {c : Cache} (h : c.Filed) {command : Command} (hcommand : command ≠ .clear) :
    c.Effect (c.serve command) := by
  cases command with
  | lookup mode run =>
      rcases c.lookup_cases mode run with ⟨p, hlookup⟩ | ⟨_, hlookup⟩ | ⟨_, hlookup⟩ <;>
        rw [Cache.serve, hlookup] <;> exact .kept rfl rfl
  | publish p =>
      rcases h.publish_cases p with ⟨q, _, _, hpublish, _⟩ | ⟨_, hpublish, _⟩
      · rw [Cache.serve, hpublish]
        exact .kept rfl rfl
      · rw [Cache.serve, hpublish]
        exact .added p
  | publishGenerated p =>
      rcases h.publish_cases p with ⟨q, _, _, _, hpublish⟩ | ⟨_, _, name, hpublish⟩
      · rw [Cache.serve, hpublish]
        exact .kept rfl rfl
      · rw [Cache.serve, hpublish]
        exact .added { p with name }
  | evict mode name =>
      have hplaces := c.places_evict mode name
      have hstatistics := c.statistics_evict mode name
      rcases h.evict_cases mode name with ⟨hevict, _⟩ | ⟨p, c', hevict, _, _, hperm, _⟩
      · rw [Cache.serve, hevict]
        exact .kept rfl rfl
      · rw [hevict] at hplaces hstatistics
        rw [Cache.serve, hevict]
        exact .evicted hperm hplaces (congrArg Statistics.publishes hstatistics)
  | clear => exact absurd rfl hcommand

/-- What became of the procedures that were added to a cache. -/
structure Ledger where
  added : List Procedure
  -- Those added since the cache was last cleared.
  recent : List Procedure
  -- Those evicted since the cache was last cleared.
  evicted : List Procedure

namespace Ledger

def blank : Ledger := ⟨[], [], []⟩

def note (l : Ledger) (c : Cache) : Command → Ledger
  | .clear => ⟨l.added, [], []⟩
  | command =>
    let new := (c.serve command).procedures.diff c.procedures
    ⟨l.added ++ new, l.recent ++ new, l.evicted ++ c.procedures.diff (c.serve command).procedures⟩

theorem note_of_ne_clear (l : Ledger) (c : Cache) {command : Command} (h : command ≠ .clear) :
    l.note c command =
      ⟨l.added ++ (c.serve command).procedures.diff c.procedures,
        l.recent ++ (c.serve command).procedures.diff c.procedures,
        l.evicted ++ c.procedures.diff (c.serve command).procedures⟩ := by
  cases command with
  | clear => exact absurd rfl h
  | _ => rfl

end Ledger

def ledger (c : Cache) (l : Ledger) : List Command → Ledger
  | [] => l
  | command :: history => (c.serve command).ledger (l.note c command) history

structure Books (c : Cache) (l : Ledger) : Prop where
  filed : c.Filed
  publishes : c.statistics.publishes = l.added.length
  recent : l.recent.Perm (c.procedures ++ l.evicted)
  places : ∀ place, place ∈ c.places ↔ ∃ p ∈ l.recent, p.place = place

theorem books_empty : empty.Books .blank := by
  refine ⟨filed_empty, rfl, .nil, ?_⟩
  simp [empty, places, Ledger.blank]

theorem Books.serve {c : Cache} {l : Ledger} (h : c.Books l) (command : Command) :
    (c.serve command).Books (l.note c command) := by
  have hfiled := h.filed.serve command
  by_cases hclear : command = .clear
  · subst hclear
    refine ⟨hfiled, h.publishes, .nil, ?_⟩
    simp [Cache.serve, clear, Cache.places, Ledger.note]
  · rw [Ledger.note_of_ne_clear l c hclear]
    have heffect := h.filed.effect_serve hclear
    generalize c.serve command = c' at heffect hfiled ⊢
    cases heffect with
    | kept hbuckets hpublishes =>
        have hprocedures : c'.procedures = c.procedures := by rw [procedures, hbuckets, procedures]
        have hplaces : c'.places = c.places := by rw [Cache.places, hbuckets, Cache.places]
        simp only [hprocedures, diff_self, List.append_nil]
        exact ⟨hfiled, hpublishes.trans h.publishes, hprocedures ▸ h.recent, hplaces ▸ h.places⟩
    | added p =>
        have hperm : (c.add (c.bucket p.mode p.hash) p).2.procedures.Perm (p :: c.procedures) :=
          c.procedures_add_perm p
        rw [(diff_of_perm_cons hperm).1, (diff_of_perm_cons hperm).2, List.append_nil]
        refine ⟨hfiled, ?_, ?_, ?_⟩
        · rw [List.length_append, List.length_singleton, ← h.publishes]
          rfl
        · calc l.recent ++ [p]
            _ ~ p :: l.recent := List.perm_append_singleton p l.recent
            _ ~ p :: (c.procedures ++ l.evicted) := h.recent.cons p
            _ ~ (c.add (c.bucket p.mode p.hash) p).2.procedures ++ l.evicted := hperm.symm.append_right l.evicted
        · intro place
          rw [mem_places_add, h.places]
          simp only [List.mem_append, List.mem_singleton]
          constructor
          · rintro (rfl | ⟨q, hq, rfl⟩)
            · exact ⟨p, .inr rfl, rfl⟩
            · exact ⟨q, .inl hq, rfl⟩
          · rintro ⟨q, hq | rfl, rfl⟩
            · exact .inr ⟨q, hq, rfl⟩
            · exact .inl rfl
    | @evicted _ p hperm hplaces hpublishes =>
        rw [(diff_of_perm_cons hperm).1, (diff_of_perm_cons hperm).2, List.append_nil, List.append_nil]
        refine ⟨hfiled, hpublishes.trans h.publishes, ?_, hplaces ▸ h.places⟩
        calc l.recent
          _ ~ c.procedures ++ l.evicted := h.recent
          _ ~ p :: c'.procedures ++ l.evicted := hperm.append_right l.evicted
          _ ~ c'.procedures ++ (p :: l.evicted) := List.perm_middle.symm
          _ ~ c'.procedures ++ (l.evicted ++ [p]) := (List.perm_append_singleton p l.evicted).symm.append_left _

theorem Books.run {c : Cache} {l : Ledger} (h : c.Books l) (history : List Command) :
    (c.run history).Books (c.ledger l history) := by
  induction history generalizing c l with
  | nil => exact h
  | cons command history ih => exact ih (h.serve command)

theorem statistics_serve (c : Cache) {command : Command} (h : ∀ mode run, command ≠ .lookup mode run) :
    (c.serve command).statistics = { c.statistics with publishes := (c.serve command).statistics.publishes } := by
  cases command with
  | lookup mode run => exact absurd rfl (h mode run)
  | publish p =>
      rw [serve]
      rcases c.publish_cases p with ⟨q, hpublish, _⟩ | ⟨hpublish, _⟩ <;> rw [hpublish]
      rfl
  | publishGenerated p =>
      rw [serve]
      rcases c.publish_cases p with ⟨q, _, hpublish⟩ | ⟨_, hpublish⟩ <;> rw [hpublish]
      rfl
  | evict mode name => rw [serve, statistics_evict]
  | clear => rfl

/-- After every history, the cache has what was added since it was cleared, less what was evicted. A
lookup that finds its run is a hit. Any other is a collision if the cache has a procedure of the same
mode and hash or had one that was evicted since, and else a miss. -/
theorem statistics_exact (history : List Command) :
    let c := empty.run history
    let l := empty.ledger .blank history
    c.statistics.publishes = l.added.length ∧
      l.recent.Perm (c.procedures ++ l.evicted) ∧
      (∀ mode run,
        ((∃ p ∈ c.procedures, p.key = (mode, run.entries)) →
          (c.lookup mode run).2.statistics = { c.statistics with hits := c.statistics.hits + 1 }) ∧
        ((∀ p ∈ c.procedures, p.key ≠ (mode, run.entries)) →
          (∃ p ∈ c.procedures ++ l.evicted, p.place = (mode, run.hash)) →
          (c.lookup mode run).2.statistics = { c.statistics with collisions := c.statistics.collisions + 1 }) ∧
        ((∀ p ∈ c.procedures ++ l.evicted, p.place ≠ (mode, run.hash)) →
          (c.lookup mode run).2.statistics = { c.statistics with misses := c.statistics.misses + 1 })) ∧
      ∀ command, (∀ mode run, command ≠ .lookup mode run) →
        (c.serve command).statistics = { c.statistics with publishes := (c.serve command).statistics.publishes } := by
  intro c l
  have h : c.Books l := books_empty.run history
  refine ⟨h.publishes, h.recent, ?_, fun command => c.statistics_serve⟩
  intro mode run
  obtain ⟨hhit, hcollision, hmiss⟩ := h.filed.statistics_lookup mode run
  have hplaces : (mode, run.hash) ∈ c.places ↔ ∃ p ∈ c.procedures ++ l.evicted, p.place = (mode, run.hash) := by
    rw [h.places]
    exact exists_congr fun p => and_congr_left' h.recent.mem_iff
  refine ⟨hhit, fun hnone hplace => hcollision hnone (hplaces.mpr hplace), ?_⟩
  intro hnone
  apply hmiss
  · intro p hp hkey
    apply hnone p (List.mem_append_left _ hp)
    -- the same words have the same hash
    rw [Procedure.key, Prod.mk.injEq] at hkey
    rw [Procedure.place, hkey.1, Procedure.hash, hkey.2]
    rfl
  · rw [hplaces]
    rintro ⟨p, hp, hplace⟩
    exact hnone p hp hplace

/-- Nothing in the cache has the hash of the run, and yet the lookup is not a miss but a collision. -/
theorem exists_collision_with_nothing :
    ∃ (history : List Command) (mode : Mode) (run : Run),
      let c := empty.run history
      (∀ p ∈ c.procedures, p.place ≠ (mode, run.hash)) ∧
        (c.lookup mode run).2.statistics = { c.statistics with collisions := c.statistics.collisions + 1 } :=
  let entries : List Entry := [⟨0, 1⟩, ⟨17, 1⟩]
  ⟨[.publish ⟨"copy", .real, entries, 1, 1, ⟨[], [], 0⟩, 0, 0⟩, .evict .real "copy"], .real,
    ⟨[⟨0, none, 1, 1⟩, ⟨17, none, 1, 1⟩], entries⟩, by decide +kernel⟩

end Cache

end Dynarec
