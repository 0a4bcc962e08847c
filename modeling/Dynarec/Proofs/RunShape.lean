import Dynarec.Run

namespace Dynarec

namespace MicroOp

theorem x86Index_of_mem_split {position : UInt32} {x86Index : Nat} {words : List UInt32} {op : MicroOp}
    (h : op ∈ split position x86Index words) : op.x86Index = x86Index := by
  fun_induction split position x86Index words with
  | case1 => cases h
  | case2 word =>
      rw [List.mem_singleton.mp h]
  | case3 word next rest _ ih | case4 word next rest _ ih =>
      rcases List.mem_cons.mp h with rfl | h
      · rfl
      · exact ih h

theorem lt_of_mem_splitAll {position : UInt32} {x86Index : Nat} {instructions : List Instruction} {op : MicroOp}
    (h : op ∈ splitAll position x86Index instructions) : x86Index < op.x86Index := by
  induction instructions generalizing position x86Index with
  | nil => cases h
  | cons i rest ih =>
      rcases List.mem_append.mp h with h | h
      · rw [x86Index_of_mem_split h]
        exact Nat.lt_succ_self _
      · exact Nat.lt_of_succ_lt (ih h)

theorem pairwise_splitAll (position : UInt32) (x86Index : Nat) (instructions : List Instruction) :
    (splitAll position x86Index instructions).Pairwise (fun a b => a.x86Index ≤ b.x86Index) := by
  induction instructions generalizing position x86Index with
  | nil => exact List.Pairwise.nil
  | cons i rest ih =>
      rw [splitAll, List.pairwise_append]
      refine ⟨?_, ih _ _, ?_⟩
      · apply List.pairwise_of_forall_mem_list
        intro a ha b hb
        exact Nat.le_of_eq ((x86Index_of_mem_split ha).trans (x86Index_of_mem_split hb).symm)
      · intro a ha b hb
        rw [x86Index_of_mem_split ha]
        exact Nat.le_of_lt (lt_of_mem_splitAll hb)

theorem le_of_getLast? {ops : List MicroOp} (h : ops.Pairwise (fun a b => a.x86Index ≤ b.x86Index))
    {op last : MicroOp} (hlast : ops.getLast? = some last) (hop : op ∈ ops) : op.x86Index ≤ last.x86Index := by
  obtain ⟨before, rfl⟩ := List.getLast?_eq_some_iff.mp hlast
  rcases List.mem_append.mp hop with hop | hop
  · exact (List.pairwise_append.mp h).2.2 op hop last (List.mem_singleton_self last)
  · exact Nat.le_of_eq (congrArg x86Index (List.mem_singleton.mp hop))

end MicroOp

namespace Run

/-- What graph building and interpretation rely on. -/
structure Ordered (run : Run) : Prop where
  pos : ∀ op ∈ run.ops, 1 ≤ op.x86Index
  pairwise : run.ops.Pairwise (fun a b => a.x86Index ≤ b.x86Index)

theorem Ordered.le_x86Count {run : Run} (h : run.Ordered) {op : MicroOp} (hop : op ∈ run.ops) :
    op.x86Index ≤ run.x86Count := by
  rw [x86Count]
  cases hlast : run.ops.getLast? with
  | none =>
      rw [List.getLast?_eq_none_iff.mp hlast] at hop
      cases hop
  | some last => exact MicroOp.le_of_getLast? h.pairwise hlast hop

theorem ordered_of_ops {run : Run} {position : UInt32} {x86Index : Nat} {l : List Instruction}
    (h : run.ops = MicroOp.splitAll position x86Index l) : run.Ordered := by
  constructor
  · intro op hop
    rw [h] at hop
    exact Nat.succ_le_of_lt (Nat.lt_of_le_of_lt (Nat.zero_le _) (MicroOp.lt_of_mem_splitAll hop))
  · rw [h]
    exact MicroOp.pairwise_splitAll _ _ _

section Build

variable {limit : Nat} {instructions : List Instruction} {run : Run}

theorem build_of_size_le (h : UInt32.size ≤ (instructions.take (max limit 1)).length) :
    build limit instructions = .error (.rejected .numberOverflow) :=
  if_neg (Nat.not_lt.mpr h)

theorem length_lt_of_build (h : build limit instructions = .ok run) :
    (instructions.take (max limit 1)).length < UInt32.size := by
  rcases Nat.lt_or_ge (instructions.take (max limit 1)).length UInt32.size with hlt | hle
  · exact hlt
  · rw [build_of_size_le hle] at h
    cases h

theorem build_ok (h : build limit instructions = .ok run) :
    run = ⟨MicroOp.splitAll 0 0 (instructions.take (max limit 1)),
      Tape.record 0 (instructions.take (max limit 1))⟩ := by
  have hlength := length_lt_of_build h
  simp only [build, if_pos hlength] at h
  split at h
  · cases h
  · rename_i op ops hsplit
    cases h
    rw [hsplit]

theorem ordered_of_build (h : build limit instructions = .ok run) : run.Ordered :=
  ordered_of_ops (congrArg Run.ops (build_ok h))

end Build

end Run

end Dynarec
