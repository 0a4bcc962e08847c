import Dynarec.Proofs.RunIdentity

namespace Dynarec

namespace MicroOp

def words (op : MicroOp) : List UInt32 := op.word :: op.immediate.toList

theorem flatMap_words_split (position : UInt32) (x86Index : Nat) (ws : List UInt32) :
    (split position x86Index ws).flatMap words = ws := by
  fun_induction split position x86Index ws with
  | case1 => rfl
  | case2 word => rfl
  | case3 word next rest _ ih => simp [words, ih]
  | case4 word next rest _ ih => simpa [words] using ih

theorem position_of_mem_split {position : UInt32} {x86Index : Nat} {ws : List UInt32} {op : MicroOp}
    (h : op ∈ split position x86Index ws) : op.position = position := by
  fun_induction split position x86Index ws with
  | case1 => cases h
  | case2 word =>
      rw [List.mem_singleton.mp h]
  | case3 word next rest _ ih | case4 word next rest _ ih =>
      rcases List.mem_cons.mp h with rfl | h
      · rfl
      · exact ih h

theorem split_eq_nil_iff {position : UInt32} {x86Index : Nat} {ws : List UInt32} :
    split position x86Index ws = [] ↔ ws = [] := by
  constructor
  · intro h
    have hwords := flatMap_words_split position x86Index ws
    rw [h] at hwords
    exact hwords.symm
  · rintro rfl
    rfl

theorem splitAll_append (position : UInt32) (x86Index : Nat) (l l' : List Instruction) :
    splitAll position x86Index (l ++ l') = splitAll position x86Index l ++
      splitAll (l.foldl (fun position i => position + i.length) position) (x86Index + l.length) l' := by
  induction l generalizing position x86Index with
  | nil => rfl
  | cons i l ih =>
      rw [List.cons_append, splitAll, splitAll, ih, List.append_assoc, List.foldl_cons, List.length_cons,
        Nat.add_right_comm, Nat.add_assoc x86Index]

theorem splitAll_eq_nil_iff {position : UInt32} {x86Index : Nat} {l : List Instruction} :
    splitAll position x86Index l = [] ↔ ∀ i ∈ l, i.words = [] := by
  induction l generalizing position x86Index with
  | nil => simp [splitAll]
  | cons i l ih => simp [splitAll, split_eq_nil_iff, ih]

theorem filter_splitAll_cons (position : UInt32) (x86Index : Nat) (i : Instruction) (l : List Instruction) :
    (splitAll position x86Index (i :: l)).filter (·.x86Index = x86Index + 1) =
        split (position + i.length) (x86Index + 1) i.words ∧
      (splitAll position x86Index (i :: l)).filter (¬ ·.x86Index = x86Index + 1) =
        splitAll (position + i.length) (x86Index + 1) l := by
  have hfirst : ∀ op ∈ split (position + i.length) (x86Index + 1) i.words, op.x86Index = x86Index + 1 :=
    fun op hop => x86Index_of_mem_split hop
  have hrest : ∀ op ∈ splitAll (position + i.length) (x86Index + 1) l, ¬op.x86Index = x86Index + 1 :=
    fun op hop => Nat.ne_of_gt (lt_of_mem_splitAll hop)
  rw [splitAll, List.filter_append, List.filter_append]
  constructor
  · rw [List.filter_eq_self.mpr (by simpa using hfirst), List.filter_eq_nil_iff.mpr (by simpa using hrest), List.append_nil]
  · rw [List.filter_eq_nil_iff.mpr (by simpa using hfirst), List.filter_eq_self.mpr (by simpa using hrest), List.nil_append]

/-- Instructions with words can be read off their micro-ops, but what comes after the last word leaves no trace. -/
theorem eq_append_of_splitAll_eq {position : UInt32} {x86Index : Nat} {l l' : List Instruction}
    (hwords : ∀ i ∈ l', i.words ≠ []) (h : splitAll position x86Index l = splitAll position x86Index l') :
    ∃ idle, l = l' ++ idle ∧ ∀ i ∈ idle, i.words = [] := by
  induction l' generalizing position x86Index l with
  | nil => exact ⟨l, rfl, splitAll_eq_nil_iff.mp h⟩
  | cons i' l' ih =>
      have hi' := hwords i' List.mem_cons_self
      obtain ⟨hfirst', hrest'⟩ := filter_splitAll_cons position x86Index i' l'
      cases l with
      | nil =>
          rw [← h] at hfirst'
          exact absurd (split_eq_nil_iff.mp hfirst'.symm) hi'
      | cons i l =>
          obtain ⟨hfirst, hrest⟩ := filter_splitAll_cons position x86Index i l
          have hsplit := (h ▸ hfirst).symm.trans hfirst'
          have hws : i.words = i'.words := by
            rw [← flatMap_words_split (position + i.length) (x86Index + 1) i.words, hsplit, flatMap_words_split]
          have hends : position + i.length = position + i'.length := by
            obtain ⟨op, hop⟩ := List.exists_mem_of_ne_nil _ (mt split_eq_nil_iff.mp hi')
            have hends' := position_of_mem_split hop
            rw [← hsplit] at hop
            exact (position_of_mem_split hop).symm.trans hends'
          have hi : i = i' := by
            cases i
            cases i'
            exact congrArg₂ Instruction.mk (UInt32.add_right_inj _ |>.mp hends) hws
          subst hi
          obtain ⟨idle, rfl, hidle⟩ := ih (fun j hj => hwords j (List.mem_cons_of_mem _ hj)) ((h ▸ hrest).symm.trans hrest')
          exact ⟨idle, rfl, hidle⟩

end MicroOp

namespace Tape

theorem record_eq_nil_iff {position : UInt32} {l : List Instruction} :
    record position l = [] ↔ ∀ i ∈ l, i.words = [] := by
  induction l generalizing position with
  | nil => simp [record]
  | cons i l ih => simp [record, ih]

theorem record_append_idle (position : UInt32) (l : List Instruction) {idle : List Instruction}
    (hidle : ∀ i ∈ idle, i.words = []) : record position (l ++ idle) = record position l := by
  induction l generalizing position with
  | nil => exact record_eq_nil_iff.mpr hidle
  | cons i l ih => rw [List.cons_append, record, record, ih]

theorem length_le_length_record (position : UInt32) {l : List Instruction} (hwords : ∀ i ∈ l, i.words ≠ []) :
    l.length ≤ (record position l).length := by
  induction l generalizing position with
  | nil => exact Nat.zero_le _
  | cons i l ih =>
      have hi := List.length_pos_iff.mpr (hwords i List.mem_cons_self)
      have hl := ih (position + i.length) fun j hj => hwords j (List.mem_cons_of_mem _ hj)
      rw [record, List.length_append, List.length_map, List.length_cons]
      omega

/-- What reading consumes is everything, once as many instructions are read as there are entries. -/
theorem record_decode {n : Nat} {position : UInt32} {entries : List Entry} (hn : entries.length ≤ n) :
    record position (decode n position entries) = entries := by
  induction n generalizing position entries with
  | zero =>
      rw [List.length_eq_zero_iff.mp (Nat.le_zero.mp hn)]
      rfl
  | succ n ih =>
      cases entries with
      | nil => rfl
      | cons e rest =>
          have hle := (List.dropWhile_suffix (l := rest) (·.position == e.position)).length_le
          rw [record_decode_cons, ih (hle.trans (Nat.le_of_succ_le_succ hn)), List.cons_append,
            List.takeWhile_append_dropWhile]

theorem words_ne_nil_of_mem_decode {n : Nat} {position : UInt32} {entries : List Entry} {i : Instruction}
    (h : i ∈ decode n position entries) : i.words ≠ [] := by
  induction n generalizing position entries with
  | zero => cases h
  | succ n ih =>
      cases entries with
      | nil => cases h
      | cons e rest =>
          rcases List.mem_cons.mp h with rfl | h
          · exact List.cons_ne_nil _ _
          · exact ih h

theorem position_ne_of_mem_head? {position : UInt32} {entries : List Entry} {e : Entry}
    (h : e ∈ (entries.dropWhile (·.position == position)).head?) : e.position ≠ position := by
  have hstop := List.head?_dropWhile_not (·.position == position) entries
  rw [Option.mem_def.mp h] at hstop
  simpa using hstop

theorem length_ne_zero_of_mem_decode {n : Nat} {position : UInt32} {entries : List Entry} {i : Instruction}
    (hnext : ∀ e ∈ entries.head?, e.position ≠ position) (h : i ∈ decode n position entries) : i.length ≠ 0 := by
  induction n generalizing position entries with
  | zero => cases h
  | succ n ih =>
      cases entries with
      | nil => cases h
      | cons e rest =>
          rcases List.mem_cons.mp h with rfl | h
          · intro hzero
            have hsame := UInt32.sub_add_cancel e.position position
            rw [show e.position - position = 0 from hzero, UInt32.zero_add] at hsame
            exact hnext e rfl hsame.symm
          · exact ih (fun e' he' => position_ne_of_mem_head? he') h

theorem length_ne_zero_of_mem_tail_decode {n : Nat} {position : UInt32} {entries : List Entry} {i : Instruction}
    (h : i ∈ (decode n position entries).tail) : i.length ≠ 0 := by
  cases n with
  | zero => cases h
  | succ n =>
      cases entries with
      | nil => cases h
      | cons e rest => exact length_ne_zero_of_mem_decode (fun e' he' => position_ne_of_mem_head? he') h

theorem decode_record {n : Nat} (position : UInt32) {l : List Instruction} (hn : l.length ≤ n)
    (hwords : ∀ i ∈ l, i.words ≠ []) (hends : ∀ i ∈ l.tail, i.length ≠ 0) :
    decode n position (record position l) = l := by
  induction l generalizing n position with
  | nil => exact decode_nil n position
  | cons i l ih =>
      obtain ⟨n, rfl⟩ : ∃ m, n = m + 1 := ⟨n - 1, by simp at hn; omega⟩
      obtain ⟨w, ws, hi⟩ := List.exists_cons_of_ne_nil (hwords i List.mem_cons_self)
      have hgroup : ∀ e ∈ ws.map (fun word => (⟨word, position + i.length⟩ : Entry)),
          (e.position == position + i.length) = true := by simp
      -- the next instruction ends elsewhere, so the group of this one is its own words
      have hstop : (record (position + i.length) l).takeWhile (·.position == position + i.length) = [] ∧
          (record (position + i.length) l).dropWhile (·.position == position + i.length) =
            record (position + i.length) l := by
        cases l with
        | nil => exact ⟨rfl, rfl⟩
        | cons j l =>
            obtain ⟨v, vs, hj⟩ := List.exists_cons_of_ne_nil (hwords j (by simp))
            have hne : ¬(position + i.length + j.length == position + i.length) = true := by
              simpa using hends j (by simp)
            rw [record, hj]
            exact ⟨List.takeWhile_cons_of_neg hne, List.dropWhile_cons_of_neg hne⟩
      have hrest := ih (n := n) (position + i.length) (Nat.le_of_succ_le_succ hn)
        (fun j hj => hwords j (List.mem_cons_of_mem _ hj)) (fun j hj => hends j (List.mem_of_mem_tail hj))
      have hlength : position + i.length - position = i.length := by
        rw [UInt32.add_comm, UInt32.add_sub_cancel]
      rw [record, hi, List.map_cons, List.cons_append, decode, List.takeWhile_append_of_pos hgroup,
        List.dropWhile_append_of_pos hgroup, hstop.1, hstop.2, hrest, hlength, List.append_nil, List.map_map]
      simp [Function.comp_def, ← hi]

theorem exists_dropWhile_record (position ends : UInt32) (l : List Instruction) :
    ∃ position' l', l'.length ≤ l.length ∧
      (record position l).dropWhile (·.position == ends) = record position' l' := by
  induction l generalizing position with
  | nil => exact ⟨position, [], Nat.le_refl _, rfl⟩
  | cons i l ih =>
      obtain ⟨position', l', hle, hrest⟩ := ih (position + i.length)
      by_cases hends : position + i.length = ends
      · have hgroup : ∀ e ∈ i.words.map (fun word => (⟨word, position + i.length⟩ : Entry)), (e.position == ends) = true := by
          simp [hends]
        refine ⟨position', l', Nat.le_succ_of_le hle, ?_⟩
        rw [record, List.dropWhile_append_of_pos hgroup, hrest]
      · cases hwords : i.words with
        | nil =>
            refine ⟨position', l', Nat.le_succ_of_le hle, ?_⟩
            rw [record, hwords]
            exact hrest
        | cons w ws =>
            refine ⟨position, i :: l, Nat.le_refl _, ?_⟩
            rw [record, hwords]
            exact List.dropWhile_cons_of_neg (by simpa using hends)

theorem length_decode_record_le (n : Nat) (position position' : UInt32) (l : List Instruction) :
    (decode n position (record position' l)).length ≤ l.length := by
  induction n generalizing position position' l with
  | zero => exact Nat.zero_le _
  | succ n ih =>
      induction l generalizing position' with
      | nil => exact Nat.le_refl _
      | cons i l ihl =>
          cases hwords : i.words with
          | nil =>
              rw [record, hwords]
              exact Nat.le_succ_of_le (ihl _)
          | cons w ws =>
              have hgroup : ∀ e ∈ ws.map (fun word => (⟨word, position' + i.length⟩ : Entry)),
                  (e.position == position' + i.length) = true := by simp
              obtain ⟨position'', l', hle, hrest⟩ := exists_dropWhile_record (position' + i.length) (position' + i.length) l
              have hlength := ih (position' + i.length) position'' l'
              rw [record, hwords, List.map_cons, List.cons_append, decode, List.dropWhile_append_of_pos hgroup, hrest]
              simp only [List.length_cons]
              omega

end Tape

namespace Instruction

/-- The instructions up to the last word all have words, and each ends elsewhere than the one before it. -/
def Apart (l : List Instruction) : Prop :=
  ∃ worded idle, l = worded ++ idle ∧ (∀ i ∈ worded, i.words ≠ []) ∧ (∀ i ∈ worded.tail, i.length ≠ 0) ∧
    ∀ i ∈ idle, i.words = []

theorem apart_decode_append (n : Nat) (position : UInt32) (entries : List Entry) {idle : List Instruction}
    (hidle : ∀ i ∈ idle, i.words = []) : Apart (Tape.decode n position entries ++ idle) :=
  ⟨_, idle, rfl, fun _ hi => Tape.words_ne_nil_of_mem_decode hi,
    fun _ hi => Tape.length_ne_zero_of_mem_tail_decode hi, hidle⟩

end Instruction

namespace Run

open Tape Instruction

theorem entries_eq {run run' : Run} (hwords : run.words = run'.words) (hpositions : run.positions = run'.positions) :
    run.entries = run'.entries := by
  have hzip (entries : List Entry) :
      entries = List.zipWith Entry.mk (entries.map (·.word)) (entries.map (·.position)) := by
    induction entries with
    | nil => rfl
    | cons e entries ih => exact congrArg (e :: ·) ih
  rw [hzip run.entries, hzip run'.entries]
  exact congrArg₂ _ hwords hpositions

theorem build_of_words {limit : Nat} {source : List Instruction}
    (hlength : (source.take (max limit 1)).length < UInt32.size) (h : ∃ i ∈ source.take (max limit 1), i.words ≠ []) :
    build limit source = .ok ⟨MicroOp.splitAll 0 0 (source.take (max limit 1)),
      record 0 (source.take (max limit 1))⟩ := by
  simp only [build, if_pos hlength]
  split
  next hnil =>
    obtain ⟨i, hi, hwords⟩ := h
    exact absurd (MicroOp.splitAll_eq_nil_iff.mp hnil i hi) hwords
  next op ops hops => rw [hops]

theorem exists_words_of_build {limit : Nat} {source : List Instruction} {run : Run} (h : build limit source = .ok run) :
    ∃ i ∈ source.take (max limit 1), i.words ≠ [] := by
  by_contra hnone
  have hnil : MicroOp.splitAll 0 0 (source.take (max limit 1)) = [] :=
    MicroOp.splitAll_eq_nil_iff.mpr (by simpa using hnone)
  simp only [build, if_pos (length_lt_of_build h), hnil] at h
  cases h

theorem ops_of_apart {limit : Nat} {source : List Instruction} {run : Run} (h : build limit source = .ok run)
    (happart : Apart (source.take (max limit 1))) :
    run.ops = MicroOp.splitAll 0 0 (⟨run.entries⟩ : Tape).instructions := by
  obtain ⟨worded, idle, htaken, hwords, hends, hidle⟩ := happart
  rw [build_ok h, instructions_eq_decode, htaken, record_append_idle _ _ hidle,
    decode_record 0 (length_le_length_record 0 hwords) hwords hends, MicroOp.splitAll_append,
    MicroOp.splitAll_eq_nil_iff.mpr hidle, List.append_nil]

theorem build_tape {limit : Nat} {source : List Instruction} {run : Run} (h : build limit source = .ok run) :
    let instructions := decode run.entries.length 0 run.entries
    (⟨run.entries⟩ : Tape).instructions.take (max run.entries.length 1) = instructions ∧
      build run.entries.length (⟨run.entries⟩ : Tape).instructions =
        .ok ⟨MicroOp.splitAll 0 0 instructions, run.entries⟩ := by
  intro instructions
  have htaken : (⟨run.entries⟩ : Tape).instructions.take (max run.entries.length 1) = instructions := by
    rw [instructions_eq_decode, take_decode, Nat.min_eq_right (Nat.le_max_left _ _)]
  have hrecord : record 0 instructions = run.entries := record_decode (Nat.le_refl _)
  have hlength : instructions.length < UInt32.size := by
    have hle := length_decode_record_le run.entries.length 0 0 (source.take (max limit 1))
    have hentries : run.entries = record 0 (source.take (max limit 1)) := by rw [build_ok h]
    rw [← hentries] at hle
    exact hle.trans_lt (length_lt_of_build h)
  refine ⟨htaken, ?_⟩
  rw [build_of_words, htaken, hrecord]
  · rwa [htaken]
  · rw [htaken]
    obtain ⟨i, hi, hwords⟩ := exists_words_of_build h
    by_contra hnone
    have hnil : record 0 instructions = [] := record_eq_nil_iff.mpr (by simpa using hnone)
    rw [hrecord, build_ok h] at hnil
    exact hwords (record_eq_nil_iff.mp hnil i hi)

/-- Among the runs of instructions that are apart, words and positions identify a run. No other run is
identified by them. -/
theorem apart_iff_identified {limit : Nat} {source : List Instruction} {run : Run} (h : build limit source = .ok run) :
    Apart (source.take (max limit 1)) ↔ ∀ limit' source' run', build limit' source' = .ok run' →
      Apart (source'.take (max limit' 1)) → run'.words = run.words → run'.positions = run.positions → run' = run := by
  constructor
  · intro happart limit' source' run' h' happart' hwords hpositions
    have hentries := entries_eq hwords hpositions
    have hops : run'.ops = run.ops := by rw [ops_of_apart h' happart', ops_of_apart h happart, hentries]
    cases run
    cases run'
    exact congrArg₂ Run.mk hops hentries
  · intro hunique
    obtain ⟨htaken, htape⟩ := build_tape h
    have happart := apart_decode_append run.entries.length 0 run.entries (List.forall_mem_nil _)
    rw [List.append_nil, ← htaken] at happart
    have hsame := hunique _ _ _ htape happart rfl rfl
    have hops : run.ops = MicroOp.splitAll 0 0 (decode run.entries.length 0 run.entries) :=
      (congrArg Run.ops hsame).symm
    rw [build_ok h] at hops
    obtain ⟨idle, htaken', hidle⟩ := MicroOp.eq_append_of_splitAll_eq (fun i hi => words_ne_nil_of_mem_decode hi) hops
    rw [htaken']
    exact apart_decode_append _ _ _ hidle

def loadThenStore : List Instruction :=
  [⟨1, [(Microcode.load0 .eax).word]⟩, ⟨0, [(Microcode.store0 .ebx).word]⟩]

def loadAndStore : List Instruction := [⟨1, [(Microcode.load0 .eax).word, (Microcode.store0 .ebx).word]⟩]

theorem apart_iff_identified_loadAndStore :
    ∃ run, build 2 loadAndStore = .ok run ∧ ∀ limit' source' run', build limit' source' = .ok run' →
      Apart (source'.take (max limit' 1)) → run'.words = run.words → run'.positions = run.positions → run' = run := by
  obtain ⟨run, hrun⟩ : ∃ run, build 2 loadAndStore = .ok run := ⟨_, rfl⟩
  have happart : Apart (loadAndStore.take 2) := ⟨loadAndStore, [], rfl, by simp [loadAndStore], by simp [loadAndStore], by simp⟩
  exact ⟨run, hrun, (apart_iff_identified hrun).mp happart⟩

/-- Of two instructions that end at the same place, words and positions show one, and the procedure of
the one is taken for that of the two. -/
theorem exists_ne_of_entries_eq : ∃ run run' p p', build 2 loadThenStore = .ok run ∧ build 2 loadAndStore = .ok run' ∧
    run.words = run'.words ∧ run.positions = run'.positions ∧ run ≠ run' ∧
    Procedure.build "" .real 0 run = .ok p ∧ Procedure.build "" .real 0 run' = .ok p' ∧ p'.isFor run = true ∧
    p.x86Count = 2 ∧ p'.x86Count = 1 := by
  obtain ⟨run, hrun⟩ : ∃ run, build 2 loadThenStore = .ok run := ⟨_, rfl⟩
  obtain ⟨run', hrun'⟩ : ∃ run', build 2 loadAndStore = .ok run' := ⟨_, rfl⟩
  obtain ⟨p, hp⟩ : ∃ p, Procedure.build "" .real 0 run = .ok p := by
    rw [build_ok hrun]
    exact exists_eq_ok (by decide +kernel)
  obtain ⟨p', hp'⟩ : ∃ p', Procedure.build "" .real 0 run' = .ok p' := by
    rw [build_ok hrun']
    exact exists_eq_ok (by decide +kernel)
  refine ⟨run, run', p, p', hrun, hrun', ?_, ?_, ?_, hp, hp', ?_, ?_, ?_⟩
  · rw [build_ok hrun, build_ok hrun']
    rfl
  · rw [build_ok hrun, build_ok hrun']
    rfl
  · rw [build_ok hrun, build_ok hrun']
    decide
  · rw [Procedure.isFor, Procedure.entries_of_build hp', build_ok hrun, build_ok hrun']
    rfl
  · rw [Procedure.x86Count_of_build hp, build_ok hrun]
    rfl
  · rw [Procedure.x86Count_of_build hp', build_ok hrun']
    rfl

end Run

end Dynarec
