import Dynarec.Proofs.RunSplitting
import Mathlib.Data.List.SplitBy

namespace Dynarec

namespace Tape

/-- The maximal groups of neighbouring entries with equal positions. -/
def groups (t : Tape) : List (List Entry) := t.entries.splitBy fun a b => a.position == b.position

theorem length_dropWhile_le {n : Nat} {e : Entry} {rest : List Entry} (h : (e :: rest).length ≤ n + 1) :
    (rest.dropWhile (·.position == e.position)).length ≤ n :=
  (List.dropWhile_suffix _).length_le.trans (Nat.le_of_succ_le_succ h)

inductive Request
  | rewind | advance | readWord

namespace Reader

def serve (t : Tape) (r : Reader) : Request → Reader
  | .rewind => t.rewound
  | .advance => r.advance?.getD r
  | .readWord => (r.readWord?.map Prod.snd).getD r

def readWords? : Nat → Reader → Option (List UInt32 × Reader)
  | 0, r => some ([], r)
  | n + 1, r => do
    let (word, r) ← r.readWord?
    let (words, r) ← readWords? n r
    return (word :: words, r)

/-- Reading instruction by instruction. Each is advanced to, and then gives as many words as it says. -/
inductive Reads : Reader → List Instruction → Reader → Prop
  | nil (r : Reader) : Reads r [] r
  | cons {r r₁ r₂ r₃ : Reader} {words : List UInt32} {l : List Instruction} (hadvance : r.advance? = some r₁)
      (hwords : r₁.readWords? r₁.wordCount = some (words, r₂)) (hrest : Reads r₂ l r₃) :
      Reads r (⟨r₁.byteCount, words⟩ :: l) r₃

def Yields (r : Reader) (l : List Instruction) : Prop := ∃ r', Reads r l r' ∧ r'.advance? = none

theorem readWords?_append (r : Reader) (l l' : List Entry) (h : r.unread = l ++ l') :
    r.readWords? l.length = some (l.map Entry.word, { r with unread := l' }) := by
  induction l generalizing r with
  | nil =>
      cases h
      rfl
  | cons e l ih =>
      have hrest := ih { r with unread := l ++ l' } rfl
      rw [List.length_cons, readWords?, readWord?, h, List.cons_append]
      dsimp only [Option.bind_eq_bind, Option.bind_some]
      rw [hrest]
      rfl

theorem exists_advance? {r : Reader} {e : Entry} {rest : List Entry} (h : r.rest = e :: rest) :
    ∃ r', r.advance? = some r' ∧ r'.byteCount = e.position - r.ends ∧ r'.ends = e.position ∧
      r'.current = e :: rest.takeWhile (·.position == e.position) ∧ r'.unread = e :: rest ∧
      r'.rest = rest.dropWhile (·.position == e.position) := by
  rw [advance?, h]
  exact ⟨_, rfl, rfl, rfl, rfl, rfl, rfl⟩

theorem yields_decode {n : Nat} (r : Reader) (hn : r.rest.length ≤ n) : r.Yields (decode n r.ends r.rest) := by
  induction n generalizing r with
  | zero =>
      have hrest : r.rest = [] := List.length_eq_zero_iff.mp (Nat.le_zero.mp hn)
      exact ⟨r, .nil r, by rw [advance?, hrest]⟩
  | succ n ih =>
      cases hrest : r.rest with
      | nil => exact ⟨r, .nil r, by rw [advance?, hrest]⟩
      | cons e rest =>
          obtain ⟨r₁, hadvance, hbytes, hends, hcurrent, hunread, hrest₁⟩ := exists_advance? hrest
          have hsplit : r₁.unread = r₁.current ++ r₁.rest := by
            rw [hunread, hcurrent, hrest₁, List.cons_append, List.takeWhile_append_dropWhile]
          have hle : r₁.rest.length ≤ n := hrest₁ ▸ length_dropWhile_le (hrest ▸ hn)
          obtain ⟨r', hreads, hdone⟩ := ih { r₁ with unread := r₁.rest } hle
          refine ⟨r', ?_, hdone⟩
          rw [decode, ← hbytes, ← List.map_cons (f := Entry.word), ← hcurrent, ← hrest₁, ← hends]
          exact .cons hadvance (readWords?_append r₁ r₁.current r₁.rest hsplit) hreads

theorem yields_rewind (t : Tape) (r : Reader) (history : List Request) :
    ((history ++ [Request.rewind]).foldl (serve t) r).Yields t.instructions := by
  rw [List.foldl_append, instructions_eq_decode]
  exact yields_decode t.rewound (Nat.le_refl _)

end Reader

theorem splitBy_cons (e : Entry) (rest : List Entry) :
    (e :: rest).splitBy (fun a b => a.position == b.position) =
      (e :: rest.takeWhile (·.position == e.position)) ::
        (rest.dropWhile (·.position == e.position)).splitBy fun a b => a.position == b.position := by
  have hsame : ∀ x ∈ e :: rest.takeWhile (·.position == e.position), x.position = e.position := by
    rw [List.forall_mem_cons]
    exact ⟨rfl, fun x hx => by simpa using List.mem_takeWhile_imp hx⟩
  have hchain : (e :: rest.takeWhile (·.position == e.position)).IsChain (fun a b => (a.position == b.position) = true) := by
    apply List.Pairwise.isChain
    apply List.pairwise_of_forall_mem_list
    intro a ha b hb
    rw [hsame a ha, hsame b hb]
    exact beq_self_eq_true _
  have hspan : e :: rest = (e :: rest.takeWhile (·.position == e.position)) ++ rest.dropWhile (·.position == e.position) := by
    rw [List.cons_append, List.takeWhile_append_dropWhile]
  nth_rewrite 1 [hspan]
  rw [List.splitBy_append, List.splitBy_of_isChain (List.cons_ne_nil _ _) hchain, List.singleton_append]
  -- the group is followed by an entry with another position
  intro x hx y hy
  have hne := position_ne_of_mem_head? hy
  rw [hsame x (List.mem_of_getLast? hx), beq_eq_false_iff_ne]
  exact hne.symm

theorem map_words_decode {n : Nat} {position : UInt32} {entries : List Entry} (hn : entries.length ≤ n) :
    (decode n position entries).map Instruction.words =
      (entries.splitBy fun a b => a.position == b.position).map (List.map Entry.word) := by
  induction n generalizing position entries with
  | zero =>
      rw [List.length_eq_zero_iff.mp (Nat.le_zero.mp hn)]
      rfl
  | succ n ih =>
      cases entries with
      | nil => rfl
      | cons e rest =>
          rw [decode, splitBy_cons, List.map_cons, List.map_cons, ih (length_dropWhile_le hn)]
          rfl

theorem foldl_take_decode {n k : Nat} {position : UInt32} {entries group : List Entry} {e : Entry}
    (hn : entries.length ≤ n) (hgroup : (entries.splitBy fun a b => a.position == b.position)[k]? = some group)
    (he : e ∈ group) :
    ((decode n position entries).take (k + 1)).foldl (fun position i => position + i.length) position = e.position := by
  induction n generalizing k position entries with
  | zero =>
      rw [List.length_eq_zero_iff.mp (Nat.le_zero.mp hn)] at hgroup
      cases hgroup
  | succ n ih =>
      cases entries with
      | nil => cases hgroup
      | cons e₀ rest =>
          have hends : position + (e₀.position - position) = e₀.position := by
            rw [UInt32.add_comm, UInt32.sub_add_cancel]
          rw [splitBy_cons] at hgroup
          rw [decode, List.take_succ_cons, List.foldl_cons, hends]
          cases k with
          | zero =>
              cases hgroup
              rw [List.take_zero, List.foldl_nil]
              rcases List.mem_cons.mp he with rfl | he
              · rfl
              · have hsame : e.position = e₀.position := by simpa using List.mem_takeWhile_imp he
                exact hsame.symm
          | succ k => exact ih (length_dropWhile_le hn) hgroup

theorem words_ne_nil_of_mem_instructions {t : Tape} {i : Instruction} (h : i ∈ t.instructions) : i.words ≠ [] := by
  rw [instructions_eq_decode] at h
  exact words_ne_nil_of_mem_decode h

theorem map_words_instructions (t : Tape) :
    t.instructions.map Instruction.words = t.groups.map (List.map Entry.word) := by
  rw [instructions_eq_decode]
  exact map_words_decode (Nat.le_refl _)

theorem length_instructions (t : Tape) : t.instructions.length = t.groups.length := by
  have hlength := congrArg List.length t.map_words_instructions
  rwa [List.length_map, List.length_map] at hlength

theorem flatMap_words_instructions (t : Tape) : t.instructions.flatMap Instruction.words = t.words := by
  rw [List.flatMap_def, map_words_instructions, ← List.map_flatten, groups, List.flatten_splitBy]
  rfl

theorem record_instructions (t : Tape) : record 0 t.instructions = t.entries := by
  rw [instructions_eq_decode]
  exact record_decode (Nat.le_refl _)

theorem instructions_ofInstructions {l : List Instruction} (hwords : ∀ i ∈ l, i.words ≠ [])
    (hends : ∀ i ∈ l.tail, i.length ≠ 0) : (ofInstructions l).instructions = l := by
  rw [instructions_eq_decode]
  exact decode_record 0 (length_le_length_record 0 hwords) hwords hends

theorem ofLists?_eq_some {words positions : List UInt32} (h : words.length = positions.length) :
    ∃ t, ofLists? words positions = some t ∧ t.words = words ∧ t.positions = positions := by
  refine ⟨_, if_pos h, ?_, ?_⟩
  · have hfst := List.map_fst_zip h.le
    simpa [Tape.words, List.zip, List.map_zipWith] using hfst
  · have hsnd := List.map_snd_zip h.ge
    simpa [Tape.positions, List.zip, List.map_zipWith] using hsnd

theorem ofLists?_words_positions (t : Tape) : ofLists? t.words t.positions = some t := by
  rw [ofLists?, if_pos (by simp [words, positions])]
  simp [words, positions, List.zipWith_map]

end Tape

namespace Run

open Tape

theorem exists_build_tape {t : Tape} (ht : t.entries ≠ []) {limit : Nat} (hlimit : t.groups.length ≤ limit)
    (hlength : t.groups.length < UInt32.size) :
    ∃ run, build limit t.instructions = .ok run ∧ run.entries = t.entries ∧ run.x86Count = t.groups.length := by
  rw [← length_instructions] at hlimit hlength ⊢
  have htake : t.instructions.take (max limit 1) = t.instructions := List.take_of_length_le (by omega)
  have hbuild : build limit t.instructions = .ok ⟨MicroOp.splitAll 0 0 t.instructions, t.entries⟩ := by
    rw [build_of_words, htake, record_instructions]
    · rwa [htake]
    · by_contra hnone
      have hnil : record 0 t.instructions = [] := record_eq_nil_iff.mpr (by simpa [htake] using hnone)
      exact ht (record_instructions t ▸ hnil)
  have hcovers := covers_of_build hbuild hlimit fun i hi => words_ne_nil_of_mem_instructions hi
  exact ⟨_, hbuild, rfl, hcovers.x86Count⟩

theorem build_entries {limit : Nat} {t : Tape} {run : Run} (h : build limit t.instructions = .ok run) :
    build limit (⟨run.entries⟩ : Tape).instructions = .ok run := by
  have hentries : run.entries = record 0 (t.instructions.take (max limit 1)) := by rw [build_ok h]
  have hsame : (⟨run.entries⟩ : Tape).instructions = t.instructions.take (max limit 1) := by
    rw [instructions_eq_decode, hentries, instructions_eq_decode, take_decode]
    exact decode_record_decode (length_decode_le _ _ _)
  rw [← h, hsame, build, build, List.take_take, Nat.min_self]

end Run

namespace Tape

/-- A tape is read back as it was stored. -/
theorem replays_faithfully :
    (∀ words positions : List UInt32, words.length = positions.length →
      ∃ t, ofLists? words positions = some t ∧ t.words = words ∧ t.positions = positions ∧
        (∀ (r : Reader) (history : List Request),
          ((history ++ [Request.rewind]).foldl (Reader.serve t) r).Yields t.instructions) ∧
        t.instructions.map Instruction.words = t.groups.map (List.map Entry.word) ∧
        t.instructions.flatMap Instruction.words = words ∧
        (∀ k group, t.groups[k]? = some group → ∀ e ∈ group,
          (t.instructions.take (k + 1)).foldl (fun position i => position + i.length) 0 = e.position) ∧
        ∀ limit, words ≠ [] → t.groups.length ≤ limit → t.groups.length < UInt32.size →
          ∃ run, Run.build limit t.instructions = .ok run ∧ run.words = words ∧ run.positions = positions ∧
            run.x86Count = t.groups.length) ∧
    (∀ limit (t : Tape) run, Run.build limit t.instructions = .ok run →
      ∃ t', ofLists? run.words run.positions = some t' ∧ Run.build limit t'.instructions = .ok run) ∧
    ∀ l : List Instruction, (∀ i ∈ l, i.words ≠ []) → (∀ i ∈ l.tail, i.length ≠ 0) →
      ∀ (r : Reader) (history : List Request),
        ((history ++ [Request.rewind]).foldl (Reader.serve (ofInstructions l)) r).Yields l := by
  refine ⟨?_, ?_, ?_⟩
  · intro words positions hlength
    obtain ⟨t, ht, rfl, rfl⟩ := ofLists?_eq_some hlength
    refine ⟨t, ht, rfl, rfl, Reader.yields_rewind t, map_words_instructions t, flatMap_words_instructions t, ?_, ?_⟩
    · intro k group hgroup e he
      rw [instructions_eq_decode]
      exact foldl_take_decode (Nat.le_refl _) hgroup he
    · intro limit hwords hlimit hlength
      obtain ⟨run, hrun, hentries, hcount⟩ := Run.exists_build_tape (by simpa [Tape.words] using hwords) hlimit hlength
      refine ⟨run, hrun, ?_, ?_, hcount⟩
      · rw [Run.words, hentries, Tape.words]
      · rw [Run.positions, hentries, Tape.positions]
  · intro limit t run hrun
    exact ⟨_, ofLists?_words_positions ⟨run.entries⟩, Run.build_entries hrun⟩
  · intro l hwords hends r history
    have hyields := Reader.yields_rewind (ofInstructions l) r history
    rwa [instructions_ofInstructions hwords hends] at hyields

def backAndForth : List UInt32 × List UInt32 :=
  ([(Microcode.load0 .eax).word, (Microcode.store0 .ebx).word, Microcode.eipUpdate.word, Microcode.clc.word],
    [0xFFFFFFFF, 0xFFFFFFFF, 3, 0xFFFFFFFF])

theorem replays_faithfully_backAndForth :
    ∃ t, ofLists? backAndForth.1 backAndForth.2 = some t ∧ t.groups.length = 3 ∧
      ([Request.advance, .readWord, .advance, .rewind].foldl (Reader.serve t) t.rewound).Yields t.instructions ∧
      (∃ run, Run.build 3 t.instructions = .ok run ∧ run.positions = backAndForth.2 ∧ run.x86Count = 3 ∧
        ∃ t', ofLists? run.words run.positions = some t' ∧ Run.build 3 t'.instructions = .ok run) ∧
      ([Request.rewind].foldl (Reader.serve (ofInstructions Run.loadAndStore)) t.rewound).Yields Run.loadAndStore := by
  obtain ⟨hlists, hruns, hback⟩ := replays_faithfully
  obtain ⟨t, ht, _, _, hyields, _, _, _, hbuild⟩ := hlists backAndForth.1 backAndForth.2 rfl
  have hgroups : t.groups.length = 3 := by
    cases ht
    decide
  obtain ⟨run, hrun, _, hpositions, hcount⟩ := hbuild 3 (by decide) hgroups.le (by rw [hgroups]; decide)
  refine ⟨t, ht, hgroups, hyields t.rewound [.advance, .readWord, .advance],
    ⟨run, hrun, hpositions, hcount.trans hgroups, hruns 3 t run hrun⟩, ?_⟩
  exact hback Run.loadAndStore (by decide) (by decide) t.rewound []

end Tape

end Dynarec
