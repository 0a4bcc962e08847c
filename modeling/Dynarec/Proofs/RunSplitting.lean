import Dynarec.Proofs.CompiledRuns
import Dynarec.Proofs.InstructionEnds
import Dynarec.Proofs.RelocatedWalks

namespace Dynarec

namespace MicroOp

theorem split_behind (count : Nat) (length position : UInt32) (x86Index : Nat) (words : List UInt32) :
    split (position + length) (x86Index + count) words =
      (split position x86Index words).map (behind count length) := by
  fun_induction split position x86Index words with
  | case1 => rfl
  | case2 word => rfl
  | case3 word next rest h ih => rw [split, if_pos h, ih, List.map_cons, behind]
  | case4 word next rest h ih => rw [split, if_neg h, ih, List.map_cons, behind]

theorem splitAll_behind (count : Nat) (length position : UInt32) (x86Index : Nat) (l : List Instruction) :
    splitAll (position + length) (x86Index + count) l =
      (splitAll position x86Index l).map (behind count length) := by
  induction l generalizing position x86Index with
  | nil => rfl
  | cons i l ih =>
      have hposition : position + length + i.length = position + i.length + length := by
        rw [UInt32.add_assoc, UInt32.add_comm length, ← UInt32.add_assoc]
      rw [splitAll, splitAll, List.map_append, ← split_behind, ← ih, hposition, Nat.add_right_comm]

theorem position_of_x86Index {position : UInt32} {x86Index : Nat} {l : List Instruction} {op : MicroOp}
    (h : op ∈ splitAll position x86Index l) (hindex : op.x86Index = x86Index + l.length) :
    op.position = l.foldl (fun position i => position + i.length) position := by
  induction l generalizing position x86Index with
  | nil => cases h
  | cons i l ih =>
      rw [splitAll, List.mem_append] at h
      rw [List.length_cons] at hindex
      rcases h with h | h
      · -- an instruction that is followed by others does not have the last number
        have hfirst := x86Index_of_mem_split h
        have hnil : l = [] := List.length_eq_zero_iff.mp (by omega)
        rw [hnil, position_of_mem_split h]
        rfl
      · exact ih h (by omega)

theorem le_of_mem_splitAll {position : UInt32} {x86Index : Nat} {l : List Instruction} {op : MicroOp}
    (h : op ∈ splitAll position x86Index l) : op.x86Index ≤ x86Index + l.length := by
  induction l generalizing position x86Index with
  | nil => cases h
  | cons i l ih =>
      rw [List.length_cons]
      rcases List.mem_append.mp h with h | h
      · have := x86Index_of_mem_split h
        omega
      · have := ih h
        omega

theorem exists_last_splitAll (position : UInt32) (x86Index : Nat) {l : List Instruction} (hl : l ≠ [])
    (hwords : ∀ i ∈ l, i.words ≠ []) : ∃ op ∈ splitAll position x86Index l, op.x86Index = x86Index + l.length := by
  induction l generalizing position x86Index with
  | nil => exact absurd rfl hl
  | cons i l ih =>
      rw [List.forall_mem_cons] at hwords
      by_cases hrest : l = []
      · have hsplit : split (position + i.length) (x86Index + 1) i.words ≠ [] := mt split_eq_nil_iff.mp hwords.1
        obtain ⟨op, hop⟩ := List.exists_mem_of_ne_nil _ hsplit
        refine ⟨op, List.mem_append_left _ hop, ?_⟩
        rw [x86Index_of_mem_split hop, hrest]
        rfl
      · obtain ⟨op, hop, hindex⟩ := ih (position + i.length) (x86Index + 1) hrest hwords.2
        refine ⟨op, List.mem_append_right _ hop, ?_⟩
        rw [hindex, List.length_cons]
        omega

end MicroOp

namespace Run

/-- What is known of the run of instructions that are all taken and all have words. -/
structure Covers (run : Run) (l : List Instruction) : Prop where
  ops : run.ops = MicroOp.splitAll 0 0 l
  ordered : run.Ordered
  pos : 0 < l.length
  x86Count : run.x86Count = l.length
  x86Length : run.x86Length = l.foldl (fun position i => position + i.length) 0

theorem covers_of_ops {l : List Instruction} {run : Run} (hops : run.ops = MicroOp.splitAll 0 0 l) (hne : l ≠ [])
    (hwords : ∀ i ∈ l, i.words ≠ []) : run.Covers l := by
  have hordered : run.Ordered := ordered_of_ops hops
  obtain ⟨op, hop, hindex⟩ := MicroOp.exists_last_splitAll 0 0 hne hwords
  rw [← hops] at hop
  have hle := hordered.le_x86Count hop
  have hlast := List.getLast?_eq_some_getLast (List.ne_nil_of_mem hop)
  generalize run.ops.getLast (List.ne_nil_of_mem hop) = last at hlast
  have hmem : last ∈ MicroOp.splitAll 0 0 l := hops ▸ List.mem_of_getLast? hlast
  have hcount : run.x86Count = last.x86Index := by rw [Run.x86Count, hlast]
  have hlength : run.x86Length = last.position := by rw [Run.x86Length, hlast]
  have hlastindex : last.x86Index = 0 + l.length :=
    Nat.le_antisymm (MicroOp.le_of_mem_splitAll hmem) (hindex ▸ hcount ▸ hle)
  refine ⟨hops, hordered, List.length_pos_iff.mpr hne, ?_, ?_⟩
  · rw [hcount, hlastindex, Nat.zero_add]
  · rw [hlength, MicroOp.position_of_x86Index hmem hlastindex]

theorem covers_of_build {limit : Nat} {l : List Instruction} {run : Run} (h : build limit l = .ok run)
    (hlimit : l.length ≤ limit) (hwords : ∀ i ∈ l, i.words ≠ []) : run.Covers l := by
  have htake : l.take (max limit 1) = l := List.take_of_length_le (by omega)
  obtain ⟨i, hi, _⟩ := exists_words_of_build h
  rw [htake] at hi
  exact covers_of_ops (by rw [build_ok h, htake]) (List.ne_nil_of_mem hi) hwords

def EndsInSync (mode : Mode) (run : Run) : Prop :=
  ∃ op ∈ run.ops, op.x86Index = run.x86Count ∧ op.defines mode .eip = true

/-- Every read of the address comes after a reset of it. -/
def ResetsAddress (mode : Mode) (run : Run) : Prop :=
  ∀ i : Fin run.ops.length, (run.ops.get i).reads mode .addr0 = true →
    ∃ x ∈ run.ops.take i, Microcode.ofWord? x.word = some .memReset

instance (mode : Mode) (run : Run) : Decidable (run.EndsInSync mode) :=
  inferInstanceAs (Decidable (∃ op ∈ run.ops, op.x86Index = run.x86Count ∧ op.defines mode .eip = true))

instance (mode : Mode) (run : Run) : Decidable (run.ResetsAddress mode) :=
  inferInstanceAs (Decidable (∀ i : Fin run.ops.length, (run.ops.get i).reads mode .addr0 = true →
    ∃ x ∈ run.ops.take i, Microcode.ofWord? x.word = some .memReset))

theorem Covers.eipSynced {run : Run} {l : List Instruction} (h : run.Covers l) {mode : Mode}
    (heip : run.EndsInSync mode) : run.eipSynced mode = run.x86Length := by
  obtain ⟨op, hop, hindex, hdefines⟩ := heip
  have hmem : op ∈ run.ops.filter (·.defines mode .eip) := List.mem_filter.mpr ⟨hop, hdefines⟩
  have hlast := List.getLast?_eq_some_getLast (List.ne_nil_of_mem hmem)
  generalize (run.ops.filter (·.defines mode .eip)).getLast (List.ne_nil_of_mem hmem) = last at hlast
  have hlastmem : last ∈ run.ops := (List.mem_filter.mp (List.mem_of_getLast? hlast)).1
  have hle := MicroOp.le_of_getLast? (h.ordered.pairwise.filter (·.defines mode .eip)) hlast hmem
  have hge := h.ordered.le_x86Count hlastmem
  have hlastindex : last.x86Index = 0 + l.length := by
    rw [h.x86Count] at hge hindex
    omega
  rw [Run.eipSynced, hlast, Option.map_some, Option.getD_some, h.x86Length]
  exact MicroOp.position_of_x86Index (h.ops ▸ hlastmem) hlastindex

theorem Covers.ops_append {first second whole : Run} {l l' : List Instruction} (h : first.Covers l)
    (h' : second.Covers l') (hwhole : whole.Covers (l ++ l')) :
    whole.ops = first.ops ++ second.ops.map (MicroOp.behind l.length first.x86Length) := by
  have hbehind := MicroOp.splitAll_behind l.length first.x86Length 0 0 l'
  rw [UInt32.zero_add] at hbehind
  rw [hwhole.ops, MicroOp.splitAll_append, ← h.x86Length, hbehind, h.ops, h'.ops]

theorem Covers.build_append {run : Run} {l : List Instruction} (h : run.Covers l) (l' : List Instruction) {limit : Nat}
    (hlimit : l.length ≤ limit) : build l.length (l ++ l') = build limit l := by
  have hpos := h.pos
  have htake : (l ++ l').take (max l.length 1) = l.take (max limit 1) := by
    rw [Nat.max_eq_left hpos, List.take_left, List.take_of_length_le (by omega)]
  rw [build, build, htake]

theorem Covers.switches_eq_false {first second whole : Run} {l l' : List Instruction} (h : first.Covers l)
    (h' : second.Covers l') (hwhole : whole.Covers (l ++ l')) {mode : Mode} {g : Graph}
    (hg : Graph.build mode whole = .ok g) : ∀ op ∈ first.ops, op.switches mode = false := by
  intro op hop
  by_contra hswitches
  have hmem : op ∈ whole.ops := by
    rw [h.ops_append h' hwhole]
    exact List.mem_append_left _ hop
  have hlast := Graph.eq_x86Count_of_switches hg hmem (by simpa using hswitches)
  have hle := h.ordered.le_x86Count hop
  have hpos := h'.pos
  rw [hwhole.x86Count, List.length_append] at hlast
  rw [h.x86Count] at hle
  omega

end Run

namespace Rule

theorem all_reads (mode : Mode) (m : Microcode) :
    ((targets? mode m).getD []).all
      (fun t => !t.inputs.contains (.element .ioPorts) && !t.inputs.contains (.element .cpu)) = true := by
  cases m with
  | load0 r | load1 r | store0 r => cases r <;> rfl
  | addr b => cases b <;> rfl
  | loadSeg s => cases s <;> rfl
  | storeSeg s => cases s <;> cases mode <;> rfl
  | _ => cases mode <;> rfl

end Rule

namespace MicroOp

theorem reads_eq_false (mode : Mode) (op : MicroOp) {e : Element} (he : e = .ioPorts ∨ e = .cpu) :
    op.reads mode e = false := by
  rw [reads, targets, List.any_eq_false]
  cases hts : op.targets? mode with
  | none => simp
  | some ts =>
      obtain ⟨m, _, hm⟩ := targets?_eq_some.mp hts
      have hall := Rule.all_reads mode m
      rw [hm, List.all_eq_true] at hall
      intro t ht
      have hneither := hall t ht
      rw [Bool.and_eq_true, Bool.not_eq_true', Bool.not_eq_true'] at hneither
      rcases he with rfl | rfl
      · rw [hneither.1]
        exact Bool.false_ne_true
      · rw [hneither.2]
        exact Bool.false_ne_true

theorem defines_memReset (mode : Mode) {op : MicroOp} (h : Microcode.ofWord? op.word = some .memReset) :
    op.defines mode .addr0 = true := by
  rw [defines, targets, targets?, h]
  rfl

theorem supplied_of_build {mode : Mode} {run : Run} {g : Graph} (h : Graph.build mode run = .ok g)
    (haddr : run.ResetsAddress mode) : Supplied mode (ElementMap.replicate none) run.ops := by
  intro before op after hops e hreads
  by_cases hpersistent : e.isPersistent = true
  · by_cases hcommitted : e.isCommitted = true
    · exact .inl hcommitted
    · have hkinds : (e = .ioPorts ∨ e = .cpu) ∨ e = .addr0 := by
        by_contra hno
        rw [not_or, not_or] at hno
        exact hcommitted (by simp [Element.isCommitted, hpersistent, hno])
      rcases hkinds with he | rfl
      · rw [op.reads_eq_false mode he] at hreads
        cases hreads
      · have hlt : before.length < run.ops.length := by simp [hops]
        have hget : run.ops.get ⟨before.length, hlt⟩ = op := by simp [hops]
        obtain ⟨x, hx, hreset⟩ := haddr ⟨before.length, hlt⟩ (by rw [hget]; exact hreads)
        have htake : run.ops.take before.length = before := by simp [hops]
        exact .inr (.inr ⟨x, htake ▸ hx, defines_memReset mode hreset⟩)
  · exact .inr (.inr (Graph.exists_defines_of_reads h hops hreads (by simpa using hpersistent)))

end MicroOp

namespace Procedure

open Interpreter

theorem run?_eq_run {name : String} {mode : Mode} {stamp : Nat} {run : Run} {p : Procedure} (hrun : run.Ordered)
    (h : build name mode stamp run = .ok p) (cpu : Machine) : run? mode run cpu = some (p.run cpu) := by
  obtain ⟨ending, cpu', set, set', hnodup, hperm, hinterpreted, hcompiled, _⟩ := exists_run hrun h cpu
  rw [hinterpreted, hcompiled, Machine.assign_perm hperm hnodup]

theorem beside_initial {mode : Mode} {run : Run} {l : List Instruction} (h : run.Covers l) (heip : run.EndsInSync mode)
    {cpu : Machine} {s : State Machine} (hs : reach? mode (entryValues cpu) (State.initial cpu) run.ops = some (.ok s))
    (hswitched : s.switched = false) :
    Beside l.length run.x86Length s.progress.defined (State.initial (commit s.progress.defined s.cpu)) s where
  defined := (overlay_none _).symm
  eipSynced := by
    rw [eipSynced_reach? hs, h.eipSynced heip]
    exact (UInt32.zero_add _).symm
  position := (position_reach? hs).trans (UInt32.zero_add _).symm
  switched := hswitched
  cpu := rfl
  start := by
    refine .inr ⟨rfl, start_reach? hs (Nat.zero_le _) ?_⟩
    intro op hop
    rw [← h.x86Count]
    exact h.ordered.le_x86Count hop

theorem entryBeside_commit {cpu cpu' : Machine} (h : Asked cpu cpu') (defined : ElementMap (Option UInt32)) :
    EntryBeside defined (entryValues (commit defined cpu')) (entryValues cpu) := by
  intro e he
  rw [entryValues, entryValues, ElementMap.get_ofFn, ElementMap.get_ofFn, Element.isReadable, if_pos he, if_pos he,
    get_commit, if_pos he, h.get_eq]

/-- Behind the first part the whole goes on as the second part does alone. -/
theorem run?_append {mode : Mode} {l l' : List Instruction} {first second whole : Run} (h : first.Covers l)
    (h' : second.Covers l') (h'' : whole.Covers (l ++ l')) {g' g'' : Graph} (hg' : Graph.build mode second = .ok g')
    (hg'' : Graph.build mode whole = .ok g'') (heip : first.EndsInSync mode) (haddr : second.ResetsAddress mode)
    {cpu : Machine} {s : State Machine}
    (hs : reach? mode (entryValues cpu) (State.initial cpu) first.ops = some (.ok s)) {left : Ending × Machine}
    (hleft : run? mode second (commit s.progress.defined s.cpu) = some left) :
    ∃ left', run? mode whole cpu = some left' ∧ left'.2 = left.2 ∧
      ((left.1 = .completed l'.length ∧ left'.1 = .completed (l.length + l'.length)) ∨
        (∃ f r, left.1 = .faulted f r ∧ left'.1 = .faulted f (l.length + r)) ∨
        (left.1 = .switched ∧ left'.1 = .switched)) := by
  have hasked : Asked cpu s.cpu := asked_reach? hs
  have hentry := entryBeside_commit hasked s.progress.defined
  have hswitched : s.switched = false := switched_reach? hs (h.switches_eq_false h' h'' hg'')
  rw [run?_eq, Option.map_eq_some_iff] at hleft
  obtain ⟨r, hr, rfl⟩ := hleft
  obtain ⟨r', hr', hresult⟩ := (beside_initial h heip hs hswitched).reach? hentry h'.ordered.pos
    (MicroOp.supplied_of_build hg' haddr) hr
  have hcount : whole.x86Count = l.length + second.x86Count := by rw [h''.x86Count, h'.x86Count, List.length_append]
  have hwhole : run? mode whole cpu = some (finish mode (entryValues cpu) (l.length + second.x86Count) r') := by
    rw [run?_eq, h.ops_append h' h'', reach?_append, hs, hcount]
    dsimp only
    rw [hr', Option.map_some]
  rw [← h'.x86Count]
  exact ⟨_, hwhole, hresult.finish mode hentry second.x86Count⟩

/-- A block does what its first instructions and then the others do as blocks of their own, if the first
ones leave the instruction pointer up to date and the others do not use an address that the first ones
computed. A lower limit makes blocks end earlier, and nothing else. -/
theorem run_append {mode : Mode} {limit : Nat} {l l' : List Instruction} {first second whole : Run}
    {name name' name'' : String} {stamp stamp' stamp'' : Nat} {p p' p'' : Procedure}
    (hwords : ∀ i ∈ l ++ l', i.words ≠ []) (hlimit : (l ++ l').length ≤ limit)
    (hfirst : Run.build limit l = .ok first) (hsecond : Run.build limit l' = .ok second)
    (hwhole : Run.build limit (l ++ l') = .ok whole) (hp : build name mode stamp first = .ok p)
    (hp' : build name' mode stamp' second = .ok p') (hp'' : build name'' mode stamp'' whole = .ok p'')
    (heip : first.EndsInSync mode) (haddr : second.ResetsAddress mode) :
    Run.build l.length (l ++ l') = .ok first ∧ ∀ cpu : Machine,
      (∃ cpu', p.run cpu = (.completed l.length, cpu') ∧ (p''.run cpu).2 = (p'.run cpu').2 ∧
        (((p'.run cpu').1 = .completed l'.length ∧ (p''.run cpu).1 = .completed (l.length + l'.length)) ∨
          (∃ f r, (p'.run cpu').1 = .faulted f r ∧ (p''.run cpu).1 = .faulted f (l.length + r)) ∨
          ((p'.run cpu').1 = .switched ∧ (p''.run cpu).1 = .switched))) ∨
      ∃ f r cpu', p.run cpu = (.faulted f r, cpu') ∧ p''.run cpu = (.faulted f r, cpu') := by
  rw [List.length_append] at hlimit
  rw [List.forall_mem_append] at hwords
  have h := Run.covers_of_build hfirst (by omega) hwords.1
  have h' := Run.covers_of_build hsecond (by omega) hwords.2
  have h'' := Run.covers_of_build hwhole (by rw [List.length_append]; exact hlimit) (List.forall_mem_append.mpr hwords)
  obtain ⟨_, _, hg', _⟩ := build_ok hp'
  obtain ⟨_, _, hg'', _⟩ := build_ok hp''
  refine ⟨(h.build_append l' ((Nat.le_add_right _ _).trans hlimit)).trans hfirst, ?_⟩
  intro cpu
  have hrun := run?_eq_run h.ordered hp cpu
  rw [run?_eq, Option.map_eq_some_iff] at hrun
  obtain ⟨r, hreach, hrun⟩ := hrun
  cases r with
  | error stop =>
      -- nothing after the fault matters
      have hrun'' := run?_eq_run h''.ordered hp'' cpu
      rw [run?_eq, h.ops_append h' h'', reach?_append, hreach] at hrun''
      exact .inr ⟨_, _, _, hrun.symm, (Option.some.inj hrun'').symm⟩
  | ok s =>
      obtain ⟨left', hwhole, hleft, hending⟩ := run?_append h h' h'' hg' hg'' heip haddr hreach
        (run?_eq_run h'.ordered hp' (commit s.progress.defined s.cpu))
      rw [run?_eq_run h''.ordered hp''] at hwhole
      cases hwhole
      have hswitched : s.switched = false := switched_reach? hreach (h.switches_eq_false h' h'' hg'')
      rw [finish, hswitched, h.x86Count] at hrun
      exact .inl ⟨_, hrun.symm, hleft, hending⟩

def increment : List Instruction :=
  [⟨1, [Microcode.load0 .eax, .inc, .store0 .eax, .eipUpdate].map Microcode.word⟩]

def storeAtAddress : List Instruction :=
  [⟨3, [Microcode.memReset, .addr .ebx, .loadSeg .ds, .load0 .eax, .store0Mem .four, .eipUpdate].map Microcode.word⟩]

theorem run_append_increment_storeAtAddress :
    ∃ first second whole p p' p'', Run.build 2 increment = .ok first ∧ Run.build 2 storeAtAddress = .ok second ∧
      Run.build 2 (increment ++ storeAtAddress) = .ok whole ∧ build "" .protectedMode 0 first = .ok p ∧
      build "" .protectedMode 0 second = .ok p' ∧ build "" .protectedMode 0 whole = .ok p'' ∧
      first.EndsInSync .protectedMode ∧ second.ResetsAddress .protectedMode ∧
      Run.build 1 (increment ++ storeAtAddress) = .ok first ∧ ∀ cpu : Machine,
        (∃ cpu', p.run cpu = (.completed 1, cpu') ∧ (p''.run cpu).2 = (p'.run cpu').2 ∧
          (((p'.run cpu').1 = .completed 1 ∧ (p''.run cpu).1 = .completed 2) ∨
            (∃ f r, (p'.run cpu').1 = .faulted f r ∧ (p''.run cpu).1 = .faulted f (1 + r)) ∨
            ((p'.run cpu').1 = .switched ∧ (p''.run cpu).1 = .switched))) ∨
        ∃ f r cpu', p.run cpu = (.faulted f r, cpu') ∧ p''.run cpu = (.faulted f r, cpu') := by
  have hbuilds (l : List Instruction) (h : (Run.build 2 l >>= build "" .protectedMode 0).toOption.isSome = true) :
      ∃ run p, Run.build 2 l = .ok run ∧ build "" .protectedMode 0 run = .ok p := by
    obtain ⟨p, hp⟩ := exists_eq_ok h
    obtain ⟨run, hrun, hp⟩ := bind_eq_ok.mp hp
    exact ⟨run, p, hrun, hp⟩
  obtain ⟨first, p, hfirst, hp⟩ := hbuilds increment (by decide +kernel)
  obtain ⟨second, p', hsecond, hp'⟩ := hbuilds storeAtAddress (by decide +kernel)
  obtain ⟨whole, p'', hwhole, hp''⟩ := hbuilds (increment ++ storeAtAddress) (by decide +kernel)
  have heip : first.EndsInSync .protectedMode := by
    rw [Run.build_ok hfirst]
    decide +kernel
  have haddr : second.ResetsAddress .protectedMode := by
    rw [Run.build_ok hsecond]
    decide +kernel
  exact ⟨first, second, whole, p, p', p'', hfirst, hsecond, hwhole, hp, hp', hp'', heip, haddr,
    run_append (by decide) (by decide) hfirst hsecond hwhole hp hp' hp'' heip haddr⟩

end Procedure

end Dynarec
