import Dynarec.Proofs.CacheSoundness
import Mathlib.Data.Set.Card

namespace Dynarec

namespace Procedure

def key (p : Procedure) : Mode × List Entry := (p.mode, p.entries)

end Procedure

namespace Cache

theorem lookup_eq_find? (c : Cache) (mode : Mode) (run : Run) :
    (c.lookup mode run).1 = (c.bucket mode run.hash).find? run.entries := by
  rw [lookup, bucket]
  cases c.bucket? mode run.hash with
  | none => rfl
  | some b =>
      dsimp only [Option.getD_some]
      cases b.find? run.entries <;> rfl

/-- The bucket of a mode and hash stands somewhere in the list or is yet to be made. Putting it back
changes nothing else. -/
theorem bucket_cases (c : Cache) (mode : Mode) (hash : Int32) :
    (∃ before after, c.buckets = before ++ c.bucket mode hash :: after ∧
        ∀ b : Bucket, b.mode = mode → b.hash = hash → putBucket b c.buckets = before ++ b :: after) ∨
      (c.bucket mode hash).procedures = [] ∧ (∀ b ∈ c.buckets, (b.mode, b.hash) ≠ (mode, hash)) ∧
        ∀ b : Bucket, b.mode = mode → b.hash = hash → putBucket b c.buckets = c.buckets ++ [b] := by
  obtain ⟨buckets, statistics⟩ := c
  simp only [bucket, bucket?]
  induction buckets with
  | nil => exact .inr ⟨rfl, by simp, fun b _ _ => rfl⟩
  | cons b bs ih =>
      by_cases hb : b.holds mode hash = true
      · refine .inl ⟨[], bs, ?_, ?_⟩
        · rw [List.find?_cons_of_pos (p := fun x : Bucket => x.holds mode hash) hb]
          rfl
        · rintro b' rfl rfl
          rw [putBucket, if_pos hb, List.nil_append]
      · rw [List.find?_cons_of_neg (p := fun x : Bucket => x.holds mode hash) hb]
        rcases ih with ⟨before, after, hsplit, hput⟩ | ⟨hnone, hne, hput⟩
        · refine .inl ⟨b :: before, after, congrArg (b :: ·) hsplit, ?_⟩
          intro b' hmode hhash
          rw [putBucket, hmode, hhash, if_neg hb, hput b' hmode hhash, List.cons_append]
        · refine .inr ⟨hnone, ?_, ?_⟩
          · intro b' hb'
            rcases List.mem_cons.mp hb' with rfl | hb'
            · simpa [Bucket.holds] using hb
            · exact hne b' hb'
          · intro b' hmode hhash
            rw [putBucket, hmode, hhash, if_neg hb, hput b' hmode hhash, List.cons_append]

theorem bucket_hash (c : Cache) (mode : Mode) (hash : Int32) : (c.bucket mode hash).hash = hash := by
  rw [bucket]
  cases h : c.bucket? mode hash with
  | none => rfl
  | some b =>
      have hholds := List.find?_some h
      simp only [Bucket.holds, Bool.and_eq_true, beq_iff_eq] at hholds
      exact hholds.2

/-- Procedures are filed by mode and hash, and no two of them have the same key. -/
structure Filed (c : Cache) : Prop where
  buckets : (c.buckets.map fun b => (b.mode, b.hash)).Nodup
  procedures : ∀ b ∈ c.buckets, ∀ p ∈ b.procedures, (p.mode, p.hash) = (b.mode, b.hash)
  keys : (c.procedures.map Procedure.key).Nodup

theorem filed_empty : empty.Filed := ⟨List.nodup_nil, by simp [empty], List.nodup_nil⟩

theorem Filed.of_buckets_eq {c c' : Cache} (h : c.Filed) (hbuckets : c'.buckets = c.buckets) : c'.Filed := by
  constructor <;> simp only [Cache.procedures, hbuckets]
  · exact h.buckets
  · exact h.procedures
  · exact h.keys

theorem Filed.eq_of_key_eq {c : Cache} (h : c.Filed) {p q : Procedure} (hp : p ∈ c.procedures) (hq : q ∈ c.procedures)
    (hkey : p.key = q.key) : p = q :=
  List.inj_on_of_nodup_map h.keys hp hq hkey

theorem mem_procedures {c : Cache} {p : Procedure} : p ∈ c.procedures ↔ ∃ b ∈ c.buckets, p ∈ b.procedures :=
  List.mem_flatMap

theorem Filed.mem_bucket_iff {c : Cache} (h : c.Filed) {p : Procedure} (mode : Mode) (hash : Int32) :
    p ∈ (c.bucket mode hash).procedures ↔ p ∈ c.procedures ∧ (p.mode, p.hash) = (mode, hash) := by
  rcases c.bucket_cases mode hash with ⟨before, after, hsplit, _⟩ | ⟨hnone, hne, _⟩
  · have hmem : c.bucket mode hash ∈ c.buckets := by
      rw [hsplit]
      simp
    have hplace : ((c.bucket mode hash).mode, (c.bucket mode hash).hash) = (mode, hash) := by
      rw [bucket_mode, bucket_hash]
    constructor
    · intro hp
      exact ⟨mem_procedures.mpr ⟨_, hmem, hp⟩, (h.procedures _ hmem p hp).trans hplace⟩
    · rintro ⟨hp, hfiled⟩
      obtain ⟨b, hb, hpb⟩ := mem_procedures.mp hp
      have hsame : (b.mode, b.hash) = ((c.bucket mode hash).mode, (c.bucket mode hash).hash) := by
        rw [← h.procedures b hb p hpb, hfiled, hplace]
      rw [← List.inj_on_of_nodup_map h.buckets hb hmem hsame]
      exact hpb
  · rw [hnone]
    constructor
    · intro hp
      cases hp
    · rintro ⟨hp, hfiled⟩
      obtain ⟨b, hb, hpb⟩ := mem_procedures.mp hp
      exact absurd ((h.procedures b hb p hpb).symm.trans hfiled) (hne b hb)

theorem Filed.find?_bucket_iff {c : Cache} (h : c.Filed) {mode : Mode} {entries : List Entry} {p : Procedure} :
    (c.bucket mode (Run.hashOf entries)).find? entries = some p ↔ p ∈ c.procedures ∧ p.key = (mode, entries) := by
  have hiff {q : Procedure} (hq : q.entries = entries) :
      q ∈ (c.bucket mode (Run.hashOf entries)).procedures ↔ q ∈ c.procedures ∧ q.key = (mode, entries) := by
    rw [h.mem_bucket_iff, Procedure.key, Procedure.hash, hq]
    simp
  constructor
  · intro hfind
    obtain ⟨hmem, hentries⟩ := find?_some hfind
    exact (hiff hentries).mp hmem
  · rintro ⟨hp, hkey⟩
    have hentries : p.entries = entries := congrArg Prod.snd hkey
    have hmem := (hiff hentries).mpr ⟨hp, hkey⟩
    cases hfind : (c.bucket mode (Run.hashOf entries)).find? entries with
    | none =>
        have hnot := List.find?_eq_none.mp hfind p hmem
        exact absurd (beq_iff_eq.mpr hentries) hnot
    | some q =>
        obtain ⟨hq, hqe⟩ := find?_some hfind
        obtain ⟨hq, hqkey⟩ := (hiff hqe).mp hq
        rw [h.eq_of_key_eq hq hp (hqkey.trans hkey.symm)]

theorem Filed.lookup_iff {c : Cache} (h : c.Filed) {mode : Mode} {run : Run} {p : Procedure} :
    (c.lookup mode run).1 = some p ↔ p ∈ c.procedures ∧ p.key = (mode, run.entries) := by
  rw [lookup_eq_find?]
  exact h.find?_bucket_iff

theorem procedures_add_perm (c : Cache) (p : Procedure) {mode : Mode} {hash : Int32} :
    (c.add (c.bucket mode hash) p).2.procedures.Perm (p :: c.procedures) := by
  have hmode : ((c.bucket mode hash).add p).mode = mode := c.bucket_mode mode hash
  have hhash : ((c.bucket mode hash).add p).hash = hash := c.bucket_hash mode hash
  simp only [add, put, procedures]
  rcases c.bucket_cases mode hash with ⟨before, after, hsplit, hput⟩ | ⟨hnone, _, hput⟩
  · rw [hput _ hmode hhash, hsplit]
    simp only [List.flatMap_append, List.flatMap_cons, Bucket.add, List.append_assoc, List.singleton_append]
    rw [← List.append_assoc, ← List.append_assoc]
    exact List.perm_middle
  · rw [hput _ hmode hhash]
    simp only [List.flatMap_append, List.flatMap_cons, List.flatMap_nil, Bucket.add, hnone, List.nil_append,
      List.append_nil]
    exact List.perm_append_comm

theorem Filed.add {c : Cache} (h : c.Filed) {p : Procedure} (hnew : ∀ q ∈ c.procedures, q.key ≠ p.key) :
    (c.add (c.bucket p.mode p.hash) p).2.Filed := by
  have hmode : ((c.bucket p.mode p.hash).add p).mode = p.mode := c.bucket_mode p.mode p.hash
  have hhash : ((c.bucket p.mode p.hash).add p).hash = p.hash := c.bucket_hash p.mode p.hash
  refine ⟨?_, ?_, ?_⟩
  · simp only [Cache.add, put]
    rcases c.bucket_cases p.mode p.hash with ⟨before, after, hsplit, hput⟩ | ⟨_, hne, hput⟩
    · have hplaces := h.buckets
      rw [hsplit] at hplaces
      rw [hput _ hmode hhash]
      simpa [Bucket.add] using hplaces
    · rw [hput _ hmode hhash, List.map_append, List.map_singleton, hmode, hhash, ← List.concat_eq_append]
      refine List.Nodup.concat ?_ h.buckets
      rw [List.mem_map]
      rintro ⟨b, hb, hplace⟩
      exact hne b hb hplace
  · intro b hb q hq
    rcases mem_putBucket hb with rfl | hb
    · rw [hmode, hhash]
      rcases List.mem_append.mp hq with hq | hq
      · exact ((h.mem_bucket_iff _ _).mp hq).2
      · cases List.mem_singleton.mp hq
        rfl
    · exact h.procedures b hb q hq
  · rw [((c.procedures_add_perm p).map Procedure.key).nodup_iff, List.map_cons, List.nodup_cons]
    refine ⟨?_, h.keys⟩
    rw [List.mem_map]
    rintro ⟨q, hq, hkey⟩
    exact hnew q hq hkey

/-- Publishing changes nothing where the key is present, and otherwise adds one procedure. -/
theorem Filed.publish_cases {c : Cache} (h : c.Filed) (p : Procedure) :
    (∃ q ∈ c.procedures, q.key = p.key ∧ c.publish p = (q, c) ∧ c.publishGenerated p = (q, c)) ∨
      (∀ q ∈ c.procedures, q.key ≠ p.key) ∧ c.publish p = c.add (c.bucket p.mode p.hash) p ∧
        ∃ name, c.publishGenerated p = c.add (c.bucket p.mode p.hash) { p with name } := by
  rw [publish, publishGenerated]
  cases hfind : (c.bucket p.mode p.hash).find? p.entries with
  | some q =>
      obtain ⟨hq, hkey⟩ := h.find?_bucket_iff.mp hfind
      exact .inl ⟨q, hq, hkey, rfl, rfl⟩
  | none =>
      refine .inr ⟨?_, rfl, _, rfl⟩
      intro q hq hkey
      cases hfind.symm.trans (h.find?_bucket_iff.mpr ⟨hq, hkey⟩)

theorem evictFrom_none {mode : Mode} {name : String} {bs : List Bucket} (h : evictFrom mode name bs = none) :
    ∀ b ∈ bs, b.mode = mode → ∀ p ∈ b.procedures, p.name ≠ name := by
  induction bs with
  | nil => simp
  | cons b rest ih =>
      rw [evictFrom] at h
      split at h
      · cases h
      next hnot =>
        rw [Option.map_eq_none_iff] at h
        intro b' hb' hmode p hp hname
        rcases List.mem_cons.mp hb' with rfl | hb'
        · exact hnot ⟨hmode, List.any_eq_true.mpr ⟨p, hp, beq_iff_eq.mpr hname⟩⟩
        · exact ih h b' hb' hmode p hp hname

theorem evictFrom_eq_some {mode : Mode} {name : String} {bs bs' : List Bucket}
    (h : evictFrom mode name bs = some bs') :
    ∃ before b after older p newer, bs = before ++ b :: after ∧ b.mode = mode ∧ p.name = name ∧
      b.procedures = older ++ p :: newer ∧ bs' = before ++ { b with procedures := older ++ newer } :: after := by
  induction bs generalizing bs' with
  | nil => cases h
  | cons b rest ih =>
      rw [evictFrom] at h
      split at h
      next hmode =>
        cases h
        obtain ⟨q, hq, hname⟩ := List.any_eq_true.mp hmode.2
        obtain ⟨p, older, newer, _, hname, hsplit, herase⟩ := List.exists_of_eraseP (p := fun x : Procedure => x.name == name) hq hname
        refine ⟨[], b, rest, older, p, newer, rfl, hmode.1, beq_iff_eq.mp hname, hsplit, ?_⟩
        rw [herase]
        rfl
      next =>
        obtain ⟨rest', hrest, rfl⟩ := Option.map_eq_some_iff.mp h
        obtain ⟨before, b', after, older, p, newer, hbs, hmode, hname, hsplit, hbs'⟩ := ih hrest
        refine ⟨b :: before, b', after, older, p, newer, ?_, hmode, hname, hsplit, ?_⟩
        · rw [hbs, List.cons_append]
        · rw [hbs', List.cons_append]

/-- Evicting either finds no procedure of the mode and name, or removes exactly one. -/
theorem Filed.evict_cases {c : Cache} (h : c.Filed) (mode : Mode) (name : String) :
    c.evict mode name = (false, c) ∧ (∀ p ∈ c.procedures, p.mode = mode → p.name ≠ name) ∨
      ∃ p c', c.evict mode name = (true, c') ∧ p.mode = mode ∧ p.name = name ∧
        c.procedures.Perm (p :: c'.procedures) ∧ c'.Filed := by
  rw [evict]
  cases hevict : evictFrom mode name c.buckets with
  | none =>
      refine .inl ⟨rfl, ?_⟩
      intro p hp hmode
      obtain ⟨b, hb, hpb⟩ := mem_procedures.mp hp
      have hbmode := congrArg Prod.fst (h.procedures b hb p hpb)
      exact evictFrom_none hevict b hb (hbmode.symm.trans hmode) p hpb
  | some bs' =>
      obtain ⟨before, b, after, older, p, newer, hbs, hmode, hname, hsplit, rfl⟩ := evictFrom_eq_some hevict
      have hb : b ∈ c.buckets := by
        rw [hbs]
        simp
      have hpb : p ∈ b.procedures := by
        rw [hsplit]
        simp
      have hpmode := congrArg Prod.fst (h.procedures b hb p hpb)
      have hperm : c.procedures.Perm
          (p :: (before ++ { b with procedures := older ++ newer } :: after).flatMap (·.procedures)) := by
        rw [Cache.procedures, hbs]
        simp only [List.flatMap_append, List.flatMap_cons, hsplit, List.append_assoc, List.cons_append]
        rw [← List.append_assoc, ← List.append_assoc]
        exact List.perm_middle
      refine .inr ⟨p, _, rfl, hpmode.trans hmode, hname, hperm, ?_, ?_, ?_⟩
      · have hplaces := h.buckets
        rw [hbs] at hplaces
        simpa using hplaces
      · intro b' hb' q hq
        have hold : ∃ x ∈ c.buckets, (b'.mode, b'.hash) = (x.mode, x.hash) ∧ q ∈ x.procedures := by
          rcases List.mem_append.mp hb' with hb' | hb'
          · exact ⟨b', by simp [hbs, hb'], rfl, hq⟩
          · rcases List.mem_cons.mp hb' with rfl | hb'
            · refine ⟨b, hb, rfl, ?_⟩
              rw [hsplit]
              rcases List.mem_append.mp hq with hq | hq
              · exact List.mem_append_left _ hq
              · exact List.mem_append_right _ (List.mem_cons_of_mem _ hq)
            · exact ⟨b', by simp [hbs, hb'], rfl, hq⟩
        obtain ⟨x, hx, hplace, hqx⟩ := hold
        exact (h.procedures x hx q hqx).trans hplace.symm
      · have hkeys := ((hperm.map Procedure.key).nodup_iff).mp h.keys
        exact (List.nodup_cons.mp hkeys).2

inductive Command
  | lookup (mode : Mode) (run : Run)
  | publish (p : Procedure)
  | publishGenerated (p : Procedure)
  | evict (mode : Mode) (name : String)
  | clear

inductive Event
  | published (p : Procedure)
  | evicted (key : Mode × List Entry)
  | cleared

def Event.Empties (key : Mode × List Entry) : Event → Prop
  | .published _ => False
  | .evicted other => other = key
  | .cleared => True

/-- The first procedure published for its key since that key was last emptied. -/
def FirstSince (log : List Event) (p : Procedure) : Prop :=
  ∃ earlier later, log = earlier ++ .published p :: later ∧ (∀ e ∈ later, ¬e.Empties p.key) ∧
    ∀ older q newer, earlier = older ++ .published q :: newer → q.key = p.key → ∃ e ∈ newer, e.Empties p.key

def serve (c : Cache) : Command → Cache
  | .lookup mode run => (c.lookup mode run).2
  | .publish p => (c.publish p).2
  | .publishGenerated p => (c.publishGenerated p).2
  | .evict mode name => (c.evict mode name).2
  | .clear => c.clear

theorem buckets_lookup (c : Cache) (mode : Mode) (run : Run) : (c.lookup mode run).2.buckets = c.buckets := by
  rw [lookup]
  split
  · rfl
  · split <;> rfl

theorem Filed.publish {c : Cache} (h : c.Filed) (p : Procedure) :
    (c.publish p).2.Filed ∧ (c.publishGenerated p).2.Filed := by
  rcases h.publish_cases p with ⟨q, _, _, hpublish, hgenerated⟩ | ⟨hnew, hpublish, name, hgenerated⟩
  · rw [hpublish, hgenerated]
    exact ⟨h, h⟩
  · rw [hpublish, hgenerated]
    exact ⟨h.add hnew, h.add (p := { p with name }) hnew⟩

theorem Filed.evict {c : Cache} (h : c.Filed) (mode : Mode) (name : String) : (c.evict mode name).2.Filed := by
  rcases h.evict_cases mode name with ⟨hevict, _⟩ | ⟨_, _, hevict, _, _, _, hfiled⟩
  · rw [hevict]
    exact h
  · rw [hevict]
    exact hfiled

theorem Filed.serve {c : Cache} (h : c.Filed) (command : Command) : (c.serve command).Filed := by
  cases command with
  | lookup mode run => exact h.of_buckets_eq (c.buckets_lookup mode run)
  | publish p => exact (h.publish p).1
  | publishGenerated p => exact (h.publish p).2
  | evict mode name => exact h.evict mode name
  | clear => exact filed_empty.of_buckets_eq rfl

def events (c : Cache) : Command → List Event
  | .lookup _ _ => []
  | .publish p => [.published p]
  | .publishGenerated p => [.published { p with name := (c.publishGenerated p).1.name }]
  | .evict mode name =>
    (c.procedures.filter fun p => p ∉ (c.evict mode name).2.procedures).map fun p => .evicted p.key
  | .clear => [.cleared]

def run (c : Cache) (history : List Command) : Cache := history.foldl serve c

def log (c : Cache) : List Command → List Event
  | [] => []
  | command :: history => c.events command ++ (c.serve command).log history

theorem not_firstSince_nil (p : Procedure) : ¬FirstSince [] p := by
  rintro ⟨earlier, later, hlog, _⟩
  cases earlier <;> cases hlog

theorem concat_eq_split {log earlier later : List Event} {e e' : Event} (h : log ++ [e] = earlier ++ e' :: later) :
    (e = e' ∧ log = earlier ∧ later = []) ∨ ∃ between, later = between ++ [e] ∧ log = earlier ++ e' :: between := by
  rcases List.eq_nil_or_concat later with rfl | ⟨between, e'', rfl⟩
  · obtain ⟨hlog, he⟩ := List.append_inj' h rfl
    exact .inl ⟨List.singleton_inj.mp he, hlog, rfl⟩
  · have hassoc : log ++ [e] = (earlier ++ e' :: between) ++ [e''] := by
      rw [h, List.concat_eq_append, List.append_assoc, List.cons_append]
    obtain ⟨hlog, he⟩ := List.append_inj' hassoc rfl
    rw [List.singleton_inj.mp he, List.concat_eq_append]
    exact .inr ⟨between, rfl, hlog⟩

theorem firstSince_concat {log : List Event} {e : Event} (he : ∀ q, e ≠ .published q) (p : Procedure) :
    FirstSince (log ++ [e]) p ↔ FirstSince log p ∧ ¬e.Empties p.key := by
  constructor
  · rintro ⟨earlier, later, hlog, hlater, hfirst⟩
    rcases concat_eq_split hlog with ⟨hpublished, _⟩ | ⟨between, rfl, hbetween⟩
    · exact absurd hpublished (he p)
    · rw [List.forall_mem_append] at hlater
      exact ⟨⟨earlier, between, hbetween, hlater.1, hfirst⟩, hlater.2 e (List.mem_singleton_self e)⟩
  · rintro ⟨⟨earlier, later, rfl, hlater, hfirst⟩, hempties⟩
    refine ⟨earlier, later ++ [e], by simp, ?_, hfirst⟩
    rw [List.forall_mem_append, List.forall_mem_singleton]
    exact ⟨hlater, hempties⟩

theorem exists_firstSince {log : List Event} {q : Procedure} {newer : List Event} (older : List Event)
    (hlog : log = older ++ .published q :: newer) (hnewer : ∀ e ∈ newer, ¬e.Empties q.key) :
    ∃ r, r.key = q.key ∧ FirstSince log r := by
  -- if it is not `q` itself, another one wrote the key before, which is nearer to the beginning
  by_cases hfirst : ∀ older' r newer', older = older' ++ .published r :: newer' → r.key = q.key →
      ∃ e ∈ newer', e.Empties q.key
  · exact ⟨q, rfl, older, newer, hlog, hnewer, hfirst⟩
  · push Not at hfirst
    obtain ⟨older', r, newer', rfl, hkey, hnewer'⟩ := hfirst
    rw [← hkey] at hnewer hnewer' ⊢
    have hearlier : log = older' ++ .published r :: (newer' ++ .published q :: newer) := by
      rw [hlog, List.append_assoc, List.cons_append]
    apply exists_firstSince older' hearlier
    rw [List.forall_mem_append, List.forall_mem_cons]
    exact ⟨hnewer', id, hnewer⟩
termination_by older.length
decreasing_by grind

theorem firstSince_concat_published (log : List Event) (q p : Procedure) :
    FirstSince (log ++ [.published q]) p ↔
      FirstSince log p ∨ p = q ∧ ∀ r, r.key = q.key → ¬FirstSince log r := by
  constructor
  · rintro ⟨earlier, later, hlog, hlater, hfirst⟩
    rcases concat_eq_split hlog with ⟨hpublished, rfl, _⟩ | ⟨between, rfl, hbetween⟩
    · cases hpublished
      refine .inr ⟨rfl, ?_⟩
      rintro r hkey ⟨older, newer, hlog, hnewer, _⟩
      obtain ⟨e, he, hempties⟩ := hfirst older r newer hlog hkey
      rw [← hkey] at hempties
      exact hnewer e he hempties
    · rw [List.forall_mem_append] at hlater
      exact .inl ⟨earlier, between, hbetween, hlater.1, hfirst⟩
  · rintro (⟨earlier, later, rfl, hlater, hfirst⟩ | ⟨rfl, hnone⟩)
    · refine ⟨earlier, later ++ [.published q], by simp, ?_, hfirst⟩
      rw [List.forall_mem_append, List.forall_mem_singleton]
      exact ⟨hlater, id⟩
    · refine ⟨log, [], rfl, by simp, ?_⟩
      intro older r newer hlog hkey
      by_contra hno
      push Not at hno
      rw [← hkey] at hno hnone
      obtain ⟨first, hfirst, hsince⟩ := exists_firstSince older hlog hno
      exact hnone first hfirst hsince

/-- The cache holds the first writer of every key, and nothing else. -/
structure Records (c : Cache) (log : List Event) : Prop where
  filed : c.Filed
  mem_iff : ∀ p, p ∈ c.procedures ↔ FirstSince log p

theorem records_empty : empty.Records [] := by
  refine ⟨filed_empty, ?_⟩
  intro p
  exact iff_of_false List.not_mem_nil (not_firstSince_nil p)

theorem Records.present {c : Cache} {log : List Event} (h : c.Records log) {p q : Procedure} (hq : q ∈ c.procedures)
    (hkey : q.key = p.key) : c.Records (log ++ [.published p]) := by
  refine ⟨h.filed, ?_⟩
  intro r
  rw [firstSince_concat_published, h.mem_iff]
  constructor
  · exact .inl
  · rintro (hr | ⟨_, hnone⟩)
    · exact hr
    · exact absurd ((h.mem_iff q).mp hq) (hnone q hkey)

theorem Records.absent {c : Cache} {log : List Event} (h : c.Records log) {p : Procedure}
    (hnew : ∀ q ∈ c.procedures, q.key ≠ p.key) :
    (c.add (c.bucket p.mode p.hash) p).2.Records (log ++ [.published p]) := by
  refine ⟨h.filed.add hnew, ?_⟩
  intro r
  rw [firstSince_concat_published, (c.procedures_add_perm p).mem_iff, List.mem_cons, h.mem_iff, or_comm]
  refine or_congr_right ⟨?_, And.left⟩
  intro hr
  exact ⟨hr, fun q hkey hq => hnew q ((h.mem_iff q).mpr hq) hkey⟩

theorem Records.publish {c : Cache} {log : List Event} (h : c.Records log) (p : Procedure) :
    (c.publish p).2.Records (log ++ [.published p]) := by
  rcases h.filed.publish_cases p with ⟨q, hq, hkey, hpublish, _⟩ | ⟨hnew, hpublish, _⟩
  · rw [hpublish]
    exact h.present hq hkey
  · rw [hpublish]
    exact h.absent hnew

theorem Records.publishGenerated {c : Cache} {log : List Event} (h : c.Records log) (p : Procedure) :
    (c.publishGenerated p).2.Records (log ++ c.events (.publishGenerated p)) := by
  rcases h.filed.publish_cases p with ⟨q, hq, hkey, _, hpublish⟩ | ⟨hnew, _, name, hpublish⟩
  · rw [events, hpublish]
    exact h.present hq hkey
  · rw [events, hpublish]
    exact h.absent (p := { p with name }) hnew

theorem Records.evict {c : Cache} {log : List Event} (h : c.Records log) (mode : Mode) (name : String) :
    (c.evict mode name).2.Records (log ++ c.events (.evict mode name)) := by
  rcases h.filed.evict_cases mode name with ⟨hevict, _⟩ | ⟨p, c', hevict, _, _, hperm, hfiled⟩
  · have hnone : c.events (.evict mode name) = [] := by
      rw [events, hevict, List.map_eq_nil_iff, List.filter_eq_nil_iff]
      simp
    rw [hnone, hevict, List.append_nil]
    exact h
  · have hkeys := List.nodup_cons.mp (((hperm.map Procedure.key).nodup_iff).mp h.filed.keys)
    have hgone : ∀ q ∈ c'.procedures, q.key ≠ p.key :=
      fun q hq hkey => hkeys.1 (hkey ▸ List.mem_map_of_mem hq)
    have hone : c.events (.evict mode name) = [.evicted p.key] := by
      have hfilter : (p :: c'.procedures).filter (fun q => q ∉ c'.procedures) = [p] := by
        rw [List.filter_cons_of_pos (by simpa using fun hp => hgone p hp rfl), List.filter_eq_nil_iff.mpr (by simp)]
      have hfound := hperm.filter (fun q => q ∉ c'.procedures)
      rw [hfilter, List.perm_singleton] at hfound
      rw [events, hevict, hfound, List.map_singleton]
    rw [hone, hevict]
    refine ⟨hfiled, ?_⟩
    intro q
    rw [firstSince_concat (by simp), ← h.mem_iff, hperm.mem_iff, List.mem_cons]
    constructor
    · intro hq
      exact ⟨.inr hq, fun hkey => hgone q hq hkey.symm⟩
    · rintro ⟨rfl | hq, hkey⟩
      · exact absurd rfl hkey
      · exact hq

theorem Records.serve {c : Cache} {log : List Event} (h : c.Records log) (command : Command) :
    (c.serve command).Records (log ++ c.events command) := by
  cases command with
  | lookup mode run =>
      have hbuckets := c.buckets_lookup mode run
      rw [events, List.append_nil]
      refine ⟨h.filed.of_buckets_eq hbuckets, ?_⟩
      rw [Cache.serve, Cache.procedures, hbuckets]
      exact h.mem_iff
  | publish p => exact h.publish p
  | publishGenerated p => exact h.publishGenerated p
  | evict mode name => exact h.evict mode name
  | clear =>
      refine ⟨filed_empty.of_buckets_eq rfl, ?_⟩
      intro p
      rw [events, firstSince_concat (by simp)]
      exact iff_of_false List.not_mem_nil fun hp => hp.2 trivial

theorem Records.run {c : Cache} {log : List Event} (h : c.Records log) (history : List Command) :
    (c.run history).Records (log ++ c.log history) := by
  induction history generalizing c log with
  | nil =>
      rw [Cache.log, List.append_nil]
      exact h
  | cons command history ih =>
      rw [Cache.log, ← List.append_assoc]
      exact ih (h.serve command)

theorem Filed.size_eq {c : Cache} (h : c.Filed) : c.size = {key | ∃ p ∈ c.procedures, p.key = key}.ncard := by
  have hset : {key | ∃ p ∈ c.procedures, p.key = key} = ↑(c.procedures.map Procedure.key).toFinset := by
    ext key
    simp
  rw [hset, Set.ncard_coe_finset, List.toFinset_card_of_nodup h.keys, List.length_map, size]

theorem Filed.lookup_of_perm {c c' : Cache} (h : c.Filed) (h' : c'.Filed) {p : Procedure}
    (hperm : c.procedures.Perm (p :: c'.procedures)) {mode : Mode} {run : Run} (hkey : p.key ≠ (mode, run.entries)) :
    (c'.lookup mode run).1 = (c.lookup mode run).1 := by
  ext q
  rw [h.lookup_iff, h'.lookup_iff, hperm.mem_iff, List.mem_cons]
  constructor
  · rintro ⟨hq, hqkey⟩
    exact ⟨.inr hq, hqkey⟩
  · rintro ⟨rfl | hq, hqkey⟩
    · exact absurd hqkey hkey
    · exact ⟨hq, hqkey⟩

theorem Filed.publish_eq {c : Cache} (h : c.Filed) {p q : Procedure} (hq : q ∈ c.procedures) (hkey : q.key = p.key) :
    c.publish p = (q, c) ∧ c.publishGenerated p = (q, c) := by
  rcases h.publish_cases p with ⟨q', hq', hkey', hpublish⟩ | ⟨hnew, _⟩
  · rw [h.eq_of_key_eq hq hq' (hkey.trans hkey'.symm)]
    exact hpublish
  · exact absurd hkey (hnew q hq)

theorem Filed.evict_spec {c : Cache} (h : c.Filed) (mode : Mode) (name : String) :
    ((c.evict mode name).1 = true ↔ ∃ p ∈ c.procedures, p.mode = mode ∧ p.name = name) ∧
      ((c.evict mode name).1 = false → (c.evict mode name).2 = c) ∧
      ((c.evict mode name).1 = true → ∃ p, p.mode = mode ∧ p.name = name ∧
        c.procedures.Perm (p :: (c.evict mode name).2.procedures) ∧
        ∀ mode' run, p.key ≠ (mode', run.entries) →
          ((c.evict mode name).2.lookup mode' run).1 = (c.lookup mode' run).1) := by
  rcases h.evict_cases mode name with ⟨hevict, hno⟩ | ⟨p, c', hevict, hmode, hname, hperm, hfiled⟩
  · rw [hevict]
    refine ⟨⟨nofun, ?_⟩, fun _ => rfl, nofun⟩
    rintro ⟨p, hp, hmode, hname⟩
    exact absurd hname (hno p hp hmode)
  · rw [hevict]
    refine ⟨⟨?_, fun _ => rfl⟩, nofun, ?_⟩
    · intro _
      exact ⟨p, hperm.mem_iff.mpr List.mem_cons_self, hmode, hname⟩
    · intro _
      exact ⟨p, hmode, hname, hperm, fun mode' run hkey => h.lookup_of_perm hfiled hperm hkey⟩

/-- After every history a cache is a map in which the first writer of a key wins. -/
theorem first_writer_wins (history : List Command) :
    let c := empty.run history
    let log := empty.log history
    (∀ mode run p, (c.lookup mode run).1 = some p ↔ FirstSince log p ∧ p.key = (mode, run.entries)) ∧
      (c.procedures.map Procedure.key).Nodup ∧
      (∀ p q, FirstSince log q → q.key = p.key → c.publish p = (q, c) ∧ c.publishGenerated p = (q, c)) ∧
      (∀ mode name, ((c.evict mode name).1 = true ↔ ∃ p ∈ c.procedures, p.mode = mode ∧ p.name = name) ∧
        ((c.evict mode name).1 = false → (c.evict mode name).2 = c) ∧
        ((c.evict mode name).1 = true → ∃ p, p.mode = mode ∧ p.name = name ∧
          c.procedures.Perm (p :: (c.evict mode name).2.procedures) ∧
          ∀ mode' run, p.key ≠ (mode', run.entries) →
            ((c.evict mode name).2.lookup mode' run).1 = (c.lookup mode' run).1)) ∧
      c.size = {key | ∃ p, FirstSince log p ∧ p.key = key}.ncard := by
  intro c log
  have h : c.Records log := records_empty.run history
  refine ⟨?_, h.filed.keys, ?_, h.filed.evict_spec, ?_⟩
  · intro mode run p
    rw [h.filed.lookup_iff, h.mem_iff]
  · intro p q hq hkey
    exact h.filed.publish_eq ((h.mem_iff q).mpr hq) hkey
  · simp only [← h.mem_iff]
    exact h.filed.size_eq

end Cache

end Dynarec
