import Dynarec.Proofs.InstructionEnds

namespace Dynarec

namespace MicroOp

structure Parses (position : UInt32) (x86Index : Nat) (ws : List UInt32) (ops : List MicroOp) : Prop where
  words : ops.flatMap MicroOp.words = ws
  position : ∀ op ∈ ops, op.position = position
  x86Index : ∀ op ∈ ops, op.x86Index = x86Index
  -- A microcode that wants an immediate has one, unless no word of the instruction is left.
  immediate : ∀ before op after, ops = before ++ op :: after →
    (op.immediate.isSome = true ↔
      (∃ m, Microcode.ofWord? op.word = some m ∧ m.hasImmediate = true) ∧
        (before.flatMap MicroOp.words).length + 1 < ws.length)

variable {position : UInt32} {x86Index : Nat} {ws : List UInt32} {op : MicroOp} {ops : List MicroOp}

theorem takesImmediate_iff {w : UInt32} :
    Microcode.takesImmediate w = true ↔ ∃ m, Microcode.ofWord? w = some m ∧ m.hasImmediate = true := by
  simp [Microcode.takesImmediate, Option.any_eq_true]

theorem parses_nil_iff : Parses position x86Index ws [] ↔ ws = [] := by
  constructor
  · intro h
    exact h.words.symm
  · rintro rfl
    exact ⟨rfl, List.forall_mem_nil _, List.forall_mem_nil _, fun _ _ _ h => by simp at h⟩

theorem Parses.head (h : Parses position x86Index ws (op :: ops)) :
    op.immediate.isSome = true ↔ Microcode.takesImmediate op.word = true ∧ 1 < ws.length := by
  rw [takesImmediate_iff]
  exact h.immediate [] op ops rfl

theorem Parses.tail (h : Parses position x86Index ws (op :: ops)) :
    ∃ rest, ws = op.words ++ rest ∧ Parses position x86Index rest ops := by
  refine ⟨ops.flatMap MicroOp.words, h.words.symm, rfl, ?_, ?_, ?_⟩
  · exact fun x hx => h.position x (List.mem_cons_of_mem op hx)
  · exact fun x hx => h.x86Index x (List.mem_cons_of_mem op hx)
  · intro before x after hops
    have himmediate := h.immediate (op :: before) x after (congrArg (op :: ·) hops)
    rw [← h.words, List.flatMap_cons, List.flatMap_cons, List.length_append, List.length_append, Nat.add_assoc,
      Nat.add_lt_add_iff_left] at himmediate
    exact himmediate

theorem Parses.cons (op : MicroOp) {rest : List UInt32} (h : Parses op.position op.x86Index rest ops)
    (himmediate : op.immediate.isSome = true ↔
      Microcode.takesImmediate op.word = true ∧ 1 < (op.words ++ rest).length) :
    Parses op.position op.x86Index (op.words ++ rest) (op :: ops) := by
  refine ⟨congrArg (op.words ++ ·) h.words, ?_, ?_, ?_⟩
  · exact List.forall_mem_cons.mpr ⟨rfl, h.position⟩
  · exact List.forall_mem_cons.mpr ⟨rfl, h.x86Index⟩
  · intro before x after hops
    cases before with
    | nil =>
        obtain ⟨rfl, rfl⟩ := List.cons.inj hops
        rw [← takesImmediate_iff]
        exact himmediate
    | cons y before =>
        obtain ⟨rfl, hrest⟩ := List.cons.inj hops
        rw [h.immediate before x after hrest, List.flatMap_cons, List.length_append, List.length_append, Nat.add_assoc,
          Nat.add_lt_add_iff_left]

theorem parses_split (position : UInt32) (x86Index : Nat) (ws : List UInt32) :
    Parses position x86Index ws (split position x86Index ws) := by
  fun_induction split position x86Index ws with
  | case1 => exact parses_nil_iff.mpr rfl
  | case2 word =>
      exact Parses.cons ⟨word, none, position, x86Index⟩ (parses_nil_iff.mpr rfl) (by simp [words])
  | case3 word next rest h ih =>
      exact Parses.cons ⟨word, some next, position, x86Index⟩ ih (by simp [words, h])
  | case4 word next rest h ih =>
      exact Parses.cons ⟨word, none, position, x86Index⟩ ih (by simp [h])

theorem split_words_append {rest : List UInt32} (h : op.immediate.isSome = true ↔
    Microcode.takesImmediate op.word = true ∧ 1 < (op.words ++ rest).length) :
    split op.position op.x86Index (op.words ++ rest) = op :: split op.position op.x86Index rest := by
  obtain ⟨word, immediate, position, x86Index⟩ := op
  cases immediate with
  | some next => exact if_pos (h.mp rfl).1
  | none =>
      cases rest with
      | nil => rfl
      | cons next rest =>
          have hnot : ¬Microcode.takesImmediate word = true := fun htakes => by
            cases h.mpr ⟨htakes, by simp [MicroOp.words]⟩
          exact if_neg hnot

theorem split_flatMap_words (hposition : ∀ op ∈ ops, op.position = position)
    (hindex : ∀ op ∈ ops, op.x86Index = x86Index)
    (himmediate : ∀ op ∈ ops, op.immediate.isSome = Microcode.takesImmediate op.word) :
    split position x86Index (ops.flatMap MicroOp.words) = ops := by
  induction ops with
  | nil => rfl
  | cons op ops ih =>
      rw [List.forall_mem_cons] at hposition hindex himmediate
      obtain ⟨rfl, hposition⟩ := hposition
      obtain ⟨rfl, hindex⟩ := hindex
      rw [List.flatMap_cons, split_words_append, ih hposition hindex himmediate.2]
      rw [himmediate.1, iff_self_and, ← himmediate.1]
      intro hsome
      obtain ⟨v, hv⟩ := Option.isSome_iff_exists.mp hsome
      simp [MicroOp.words, hv]

/-- There is one way to take the words. -/
theorem Parses.eq_split (h : Parses position x86Index ws ops) : ops = split position x86Index ws := by
  induction ops generalizing ws with
  | nil =>
      rw [parses_nil_iff.mp h]
      rfl
  | cons op ops ih =>
      obtain ⟨rest, rfl, hrest⟩ := h.tail
      have hhead := h.head
      obtain rfl := h.position op List.mem_cons_self
      obtain rfl := h.x86Index op List.mem_cons_self
      rw [split_words_append hhead, ← ih hrest]

end MicroOp

namespace Instruction

def ends (position : UInt32) (l : List Instruction) (k : Nat) : UInt32 :=
  (l.take (k + 1)).foldl (fun position i => position + i.length) position

end Instruction

namespace MicroOp

def splitEach (position : UInt32) (x86Index : Nat) : List Instruction → List (List MicroOp)
  | [] => []
  | i :: rest =>
    split (position + i.length) (x86Index + 1) i.words :: splitEach (position + i.length) (x86Index + 1) rest

theorem flatten_splitEach (position : UInt32) (x86Index : Nat) (l : List Instruction) :
    (splitEach position x86Index l).flatten = splitAll position x86Index l := by
  induction l generalizing position x86Index with
  | nil => rfl
  | cons i l ih => rw [splitEach, List.flatten_cons, ih, splitAll]

theorem length_splitEach (position : UInt32) (x86Index : Nat) (l : List Instruction) :
    (splitEach position x86Index l).length = l.length := by
  induction l generalizing position x86Index with
  | nil => rfl
  | cons i l ih => rw [splitEach, List.length_cons, List.length_cons, ih]

theorem getElem?_splitEach (position : UInt32) (x86Index : Nat) (l : List Instruction) (k : Nat) :
    (splitEach position x86Index l)[k]? =
      l[k]?.map fun i => split (Instruction.ends position l k) (x86Index + k + 1) i.words := by
  induction l generalizing position x86Index k with
  | nil => rfl
  | cons i l ih =>
      cases k with
      | zero => rfl
      | succ k =>
          rw [splitEach, List.getElem?_cons_succ, List.getElem?_cons_succ, ih, Nat.add_right_comm x86Index 1 k]
          rfl

theorem flatMap_words_splitAll (position : UInt32) (x86Index : Nat) (l : List Instruction) :
    (splitAll position x86Index l).flatMap words = l.flatMap Instruction.words := by
  induction l generalizing position x86Index with
  | nil => rfl
  | cons i l ih => rw [splitAll, List.flatMap_append, flatMap_words_split, ih, List.flatMap_cons]

theorem positions_record (position : UInt32) (x86Index : Nat) (l : List Instruction) :
    (Tape.record position l).map Entry.position =
      (splitAll position x86Index l).flatMap fun op => op.words.map fun _ => op.position := by
  induction l generalizing position x86Index with
  | nil => rfl
  | cons i l ih =>
      have hfirst : (split (position + i.length) (x86Index + 1) i.words).flatMap
          (fun op => op.words.map fun _ => op.position) = i.words.map fun _ => position + i.length := by
        conv_rhs => rw [← flatMap_words_split (position + i.length) (x86Index + 1) i.words]
        rw [List.map_flatMap]
        apply List.flatMap_congr
        intro op hop
        rw [position_of_mem_split hop]
      rw [Tape.record, splitAll, List.map_append, List.flatMap_append, hfirst, ← ih, List.map_map]
      rfl

end MicroOp

namespace Tape

theorem words_record (position : UInt32) (l : List Instruction) :
    (record position l).map Entry.word = l.flatMap Instruction.words := by
  induction l generalizing position with
  | nil => rfl
  | cons i l ih =>
      rw [record, List.map_append, ih, List.map_map, List.flatMap_cons]
      exact congrArg (· ++ _) (List.map_id i.words)

end Tape

namespace Run

/-- The run is made of all words of the instructions. -/
structure Parses (run : Run) (l : List Instruction) : Prop where
  words : run.words = l.flatMap Instruction.words
  taken : run.ops.flatMap MicroOp.words = run.words
  positions : run.positions = run.ops.flatMap fun op => op.words.map fun _ => op.position
  -- Each instruction has its own micro-ops, which have its number and the place where it ends.
  ops : ∃ parts : List (List MicroOp), parts.length = l.length ∧ run.ops = parts.flatten ∧
    ∀ k part i, parts[k]? = some part → l[k]? = some i →
      MicroOp.Parses (Instruction.ends 0 l k) (k + 1) i.words part

theorem parses_splitAll (l : List Instruction) : Parses ⟨MicroOp.splitAll 0 0 l, Tape.record 0 l⟩ l where
  words := Tape.words_record 0 l
  taken := (MicroOp.flatMap_words_splitAll 0 0 l).trans (Tape.words_record 0 l).symm
  positions := MicroOp.positions_record 0 0 l
  ops := by
    have hget := MicroOp.getElem?_splitEach 0 0 l
    refine ⟨MicroOp.splitEach 0 0 l, ?_, (MicroOp.flatten_splitEach 0 0 l).symm, ?_⟩
    · exact MicroOp.length_splitEach 0 0 l
    · intro k part i hpart hi
      rw [hget, hi, Option.map_some, Nat.zero_add] at hpart
      cases hpart
      exact MicroOp.parses_split _ _ _

theorem Parses.eq_splitAll {run : Run} {l : List Instruction} (h : run.Parses l) :
    run = ⟨MicroOp.splitAll 0 0 l, Tape.record 0 l⟩ := by
  have hsplit := parses_splitAll l
  have hops : run.ops = MicroOp.splitAll 0 0 l := by
    obtain ⟨parts, hlength, hflatten, hparts⟩ := h.ops
    have heach : parts = MicroOp.splitEach 0 0 l := by
      apply List.ext_getElem?
      intro k
      rw [MicroOp.getElem?_splitEach, Nat.zero_add]
      cases hi : l[k]? with
      | none =>
          rw [List.getElem?_eq_none_iff] at hi
          exact List.getElem?_eq_none (hlength ▸ hi)
      | some i =>
          have hk : k < parts.length := hlength ▸ (List.getElem?_eq_some_iff.mp hi).1
          have hpart := hparts k _ i (List.getElem?_eq_getElem hk) hi
          rw [List.getElem?_eq_getElem hk, hpart.eq_split, Option.map_some]
    rw [hflatten, heach, MicroOp.flatten_splitEach]
  have hpositions : run.positions = (Tape.record 0 l).map Entry.position := by
    rw [h.positions, hops, MicroOp.positions_record 0 0]
  have hentries : run.entries = (⟨MicroOp.splitAll 0 0 l, Tape.record 0 l⟩ : Run).entries :=
    entries_eq (h.words.trans hsplit.words.symm) hpositions
  obtain ⟨ops, entries⟩ := run
  exact congrArg₂ Run.mk hops hentries

theorem build_eq_overflow_iff {limit : Nat} {source : List Instruction} :
    build limit source = .error (.rejected .numberOverflow) ↔ UInt32.size ≤ (source.take (max limit 1)).length := by
  constructor
  · intro h
    by_contra hlt
    simp only [build, if_pos (Nat.not_le.mp hlt)] at h
    split at h <;> cases h
  · exact build_of_size_le

theorem build_of_wordless {limit : Nat} {source : List Instruction}
    (hlength : (source.take (max limit 1)).length < UInt32.size) (h : ∀ i ∈ source.take (max limit 1), i.words = []) :
    build limit source = .error .empty := by
  simp only [build, if_pos hlength, MicroOp.splitAll_eq_nil_iff.mpr h]

/-- A run comes from the first instructions alone, as many as the limit allows but at least one. If there are
numbers for all of them, it is the only run that is made of their words, and there is none only if they have no
words. -/
theorem parses_exactly (limit : Nat) (source : List Instruction) :
    let taken := source.take (max limit 1)
    (∀ source', source'.take (max limit 1) = taken → build limit source' = build limit source) ∧
      (build limit source = .error (.rejected .numberOverflow) ↔ UInt32.size ≤ taken.length) ∧
      (taken.length < UInt32.size →
        (build limit source = .error .empty ↔ ∀ i ∈ taken, i.words = []) ∧
          ((∃ i ∈ taken, i.words ≠ []) →
            ∃ run, build limit source = .ok run ∧ ∀ run', Parses run' taken ↔ run' = run)) := by
  intro taken
  refine ⟨?_, build_eq_overflow_iff, fun hlength => ⟨?_, ?_⟩⟩
  · intro source' hsame
    rw [build, build, hsame]
  · constructor
    · intro hempty
      by_contra hwords
      rw [build_of_words hlength (by simpa using hwords)] at hempty
      cases hempty
    · exact build_of_wordless hlength
  · intro hwords
    refine ⟨_, build_of_words hlength hwords, ?_⟩
    intro run'
    constructor
    · exact Parses.eq_splitAll
    · rintro rfl
      exact parses_splitAll taken

def nestedImmediates : List Instruction :=
  [⟨0xFFFFFFFF, [Microcode.load0Imm, .load0Imm, .load0Imm].map Microcode.word⟩, ⟨4, []⟩,
   ⟨3, [Microcode.load1Imm, .eipUpdate, .eipUpdate].map Microcode.word⟩, ⟨1, [Microcode.clc.word]⟩]

theorem parses_exactly_nestedImmediates :
    ∃ run, build 3 nestedImmediates = .ok run ∧
      (∀ run', Parses run' (nestedImmediates.take 3) ↔ run' = run) ∧
      run.ops.map MicroOp.immediate =
        [some Microcode.load0Imm.word, none, some Microcode.eipUpdate.word, none] ∧
      run.ops.map MicroOp.x86Index = [1, 1, 3, 3] ∧ run.positions = [0xFFFFFFFF, 0xFFFFFFFF, 0xFFFFFFFF, 6, 6, 6] := by
  obtain ⟨_, _, hbuild⟩ := parses_exactly 3 nestedImmediates
  obtain ⟨run, hrun, honly⟩ := (hbuild (by decide)).2 (by decide)
  refine ⟨run, hrun, honly, ?_⟩
  rw [build_ok hrun]
  decide

def idle (n : Nat) : List Instruction := List.replicate n ⟨1, []⟩

/-- As many instructions as there are numbers, but the first number is one. There is no run of them, whether or not
there are words, and it is not for want of words. -/
theorem build_idle_eq_overflow :
    let words := idle (UInt32.size - 1) ++ [⟨1, [Microcode.clc.word]⟩]
    (∀ i ∈ (idle UInt32.size).take (max UInt32.size 1), i.words = []) ∧
      build UInt32.size (idle UInt32.size) ≠ .error .empty ∧
      (∃ i ∈ words.take (max UInt32.size 1), i.words ≠ []) ∧
      build UInt32.size words = .error (.rejected .numberOverflow) := by
  intro words
  have hmax : max UInt32.size 1 = UInt32.size := Nat.max_eq_left (by decide)
  have hidle : (idle UInt32.size).take (max UInt32.size 1) = idle UInt32.size := by
    rw [hmax]
    exact List.take_of_length_le (by rw [idle, List.length_replicate])
  have hlength : words.length = UInt32.size := by
    rw [List.length_append, idle, List.length_replicate, List.length_singleton]
    exact Nat.sub_add_cancel (by decide)
  have hwords : words.take (max UInt32.size 1) = words := by
    rw [hmax]
    exact List.take_of_length_le hlength.le
  refine ⟨?_, ?_, ?_, ?_⟩
  · intro i hi
    rw [hidle] at hi
    rw [List.eq_of_mem_replicate hi]
  · rw [build_of_size_le (by rw [hidle, idle, List.length_replicate])]
    exact nofun
  · rw [hwords]
    exact ⟨_, List.mem_append_right _ List.mem_cons_self, List.cons_ne_nil _ _⟩
  · exact build_of_size_le (by rw [hwords, hlength])

end Run

end Dynarec
