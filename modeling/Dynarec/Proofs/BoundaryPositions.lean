import Dynarec.Proofs.BoundarySnapshots
import Mathlib.Data.List.DropRight

namespace Dynarec

theorem Mode.add_mod_eipRange_iff (mode : Mode) (a n d : Nat) :
    (a + n % 2 ^ 32) % mode.eipRange = (a + (n + d)) % mode.eipRange ↔ d % mode.eipRange = 0 := by
  cases mode <;> simp only [eipRange] <;> omega

namespace Instruction

/-- A walk over micro-ops passes the instruction without noticing. -/
def isIdle (i : Instruction) : Bool := i.words.isEmpty

def defines (mode : Mode) (e : Element) (i : Instruction) : Bool :=
  (MicroOp.split 0 0 i.words).any (·.defines mode e)

theorem totalLength_append (l l' : List Instruction) : totalLength (l ++ l') = totalLength l + totalLength l' := by
  simp [totalLength]

theorem foldl_length_eq (l : List Instruction) :
    l.foldl (fun position i => position + i.length) 0 = UInt32.ofNat (totalLength l) := by
  apply UInt32.toNat_inj.mp
  rw [toNat_foldl_length, UInt32.toNat_ofNat']
  exact congrArg (· % 2 ^ 32) (Nat.zero_add _)

end Instruction

namespace MicroOp

open Instruction

theorem split_eq_map_behind (position : UInt32) (x86Index : Nat) (words : List UInt32) :
    split position x86Index words = (split 0 0 words).map (behind x86Index position) := by
  have h := split_behind x86Index position 0 0 words
  rwa [UInt32.zero_add, Nat.zero_add] at h

theorem position_getLast?_filter {p : MicroOp → Bool} (hp : ∀ count length op, p (behind count length op) = p op)
    (l : List Instruction) :
    (((splitAll 0 0 l).filter p).getLast?.map (·.position)).getD 0 =
      UInt32.ofNat (totalLength (l.rdropWhile fun i => !(split 0 0 i.words).any p)) := by
  induction l using List.reverseRecOn with
  | nil => rfl
  | append_singleton l i ih =>
      have hlast : splitAll 0 0 (l ++ [i]) = splitAll 0 0 l ++
          split (UInt32.ofNat (totalLength (l ++ [i]))) (l.length + 1) i.words := by
        rw [splitAll_append, ← foldl_length_eq, List.foldl_append]
        simp [splitAll]
      have hsame : (split 0 0 i.words).any p =
          (split (UInt32.ofNat (totalLength (l ++ [i]))) (l.length + 1) i.words).any p := by
        rw [split_eq_map_behind (UInt32.ofNat _), List.any_map]
        exact congrArg ((split 0 0 i.words).any ·) (funext fun op => (hp _ _ op).symm)
      rw [hlast, List.filter_append, List.getLast?_append, List.rdropWhile_concat, hsame]
      generalize hown : split (UInt32.ofNat (totalLength (l ++ [i]))) (l.length + 1) i.words = own
      cases hany : own.any p with
      | false =>
          have hnil : own.filter p = [] := by simpa using hany
          rw [hnil, List.getLast?_nil, Option.none_or, ih]
          rfl
      | true =>
          obtain ⟨op, hop⟩ : ∃ op, (own.filter p).getLast? = some op := by
            rw [← Option.isSome_iff_exists, List.getLast?_isSome]
            simpa using hany
          have hmem := (List.mem_filter.mp (List.mem_of_getLast? hop)).1
          rw [hop, Option.some_or, Option.map_some, Option.getD_some]
          exact position_of_mem_split (hown ▸ hmem)

end MicroOp

namespace Run

variable {limit : Nat} {instructions : List Instruction} {run : Run}

open Instruction

theorem x86Length_upTo (h : build limit instructions = .ok run) {k : Nat} (hk : k ≤ max limit 1) :
    (run.upTo k).x86Length = UInt32.ofNat (totalLength ((instructions.take k).rdropWhile isIdle)) := by
  have hidle : (fun i : Instruction => !(MicroOp.split 0 0 i.words).any fun _ => true) = isIdle := by
    funext i
    rw [Bool.eq_iff_iff]
    simp [isIdle, ← List.eq_nil_iff_forall_not_mem, MicroOp.split_eq_nil_iff]
  have hends := MicroOp.position_getLast?_filter (p := fun _ => true) (fun _ _ _ => rfl) (instructions.take k)
  have hops := ops_upTo_of_build h k
  rw [List.take_take, Nat.min_eq_left hk] at hops
  rw [List.filter_true, hidle, ← hops] at hends
  rw [x86Length_eq, hends]

theorem eipSynced_upTo (h : build limit instructions = .ok run) {k : Nat} (hk : k ≤ max limit 1) (mode : Mode) :
    (run.upTo k).eipSynced mode =
      UInt32.ofNat (totalLength ((instructions.take k).rdropWhile fun i => !i.defines mode .eip)) := by
  have hops := ops_upTo_of_build h k
  rw [List.take_take, Nat.min_eq_left hk] at hops
  rw [eipSynced, hops]
  exact MicroOp.position_getLast?_filter (fun _ _ _ => rfl) (instructions.take k)

end Run

namespace Interpreter

variable {mode : Mode} {run : Run} {g : Graph} {cpu : Machine} {stop : Stop Machine} {k : Nat}

theorem toNat_caughtUp_mod (mode : Mode) (lag v : UInt32) :
    (Body.caughtUp mode lag .eip v).toNat % mode.eipRange = (v.toNat + lag.toNat) % mode.eipRange := by
  have hlag : lag.toNat = lag.toNat % 2 ^ 32 := (Nat.mod_eq_of_lt lag.toNat_lt).symm
  rw [Body.caughtUp]
  by_cases hzero : lag = 0
  · rw [hzero, if_neg (fun h => h.2 rfl)]
    rfl
  · rw [if_pos ⟨rfl, hzero⟩, toNat_wrapEip_add mode v hlag, Nat.mod_mod]

theorem eip_mod_of_faulted (hrun : run.Ordered) (hg : Graph.build mode run = .ok g)
    (heip : ∀ op ∈ run.ops, op.defines mode .eip = true → op.word = Microcode.eipUpdate.word)
    (h : reach? mode (entryValues cpu) (State.initial cpu) run.ops = some (.error stop))
    (hk : stop.start.x86Index - 1 = k) :
    (Processor.get (commit (restart mode (entryValues cpu) stop.start) stop.cpu) .eip).toNat % mode.eipRange =
      ((Processor.get cpu .eip).toNat + (run.upTo k).x86Length.toNat) % mode.eipRange := by
  obtain ⟨_, s, hs, _, hstart, hasked⟩ := exists_start_of_error hrun hg h hk
  have hlength := (Nat.mod_eq_of_lt (run.upTo k).x86Length.toNat_lt).symm
  have hcounts := (Progress.counts_initial mode _).reach? (fun op hop => heip op (List.mem_filter.mp hop).1) hs
  have hrestart := hcounts.restart (k + 1) (run.upTo k).x86Length
  rw [eipSynced_reach? hs, ← Run.eipLag, ← hstart, entryValues_eip] at hrestart
  rw [get_commit_eip, hrestart]
  split
  next hnothing =>
    -- nothing is committed, and the fault leaves the instruction pointer alone
    rw [Option.getD_none, hnothing.2, hasked.get_eq, (asked_reach? hs).get_eq]
    rfl
  next => rw [Option.getD_some, toNat_wrapEip_add mode _ hlength, Nat.mod_mod]

end Interpreter

namespace Graph

open Interpreter Instruction

variable {mode : Mode} {run : Run} {g : Graph} {bd : Boundary} {k : Nat}

theorem eip_mod_of_mem_boundaries (hrun : run.Ordered) (hg : build mode run = .ok g) (hbd : bd ∈ g.boundaries)
    (hk : bd.x86Index = k + 1) {name : String} {stamp : Nat} {p : Procedure}
    (h : Procedure.build name mode stamp run = .ok p) {cpu : Machine} {f : Fault} (hf : (p.run cpu).1 = .faulted f k) :
    (∃ before : Machine, run? mode (run.upTo k) cpu = some (.completed (run.upTo k).x86Count, before) ∧
        ((p.run cpu).2.elements.get .eip).toNat % mode.eipRange =
          ((before.elements.get .eip).toNat + bd.eipLag.toNat) % mode.eipRange) ∧
      ((∀ op ∈ run.ops, op.defines mode .eip = true → op.word = Microcode.eipUpdate.word) →
        ((p.run cpu).2.elements.get .eip).toNat % mode.eipRange =
          ((cpu.elements.get .eip).toNat + bd.position.toNat) % mode.eipRange) := by
  constructor
  · have hfaulted : run? mode run cpu = some (.faulted f k, (p.run cpu).2) := by
      rw [Procedure.run?_eq_run hrun h, ← hf]
    obtain ⟨_, defined, _, cpu₁, _, _, _, hbefore, hget⟩ := run?_faulted hrun hg hfaulted
    refine ⟨_, hbefore, ?_⟩
    have heip := hget .eip
    rw [← eipLag_of_mem_boundaries hrun hg hbd hk] at heip
    have hcaught := toNat_caughtUp_mod mode bd.eipLag (Processor.get (commit defined cpu₁) .eip)
    rw [← heip] at hcaught
    exact hcaught
  · intro heip
    rcases Procedure.walk_cases hrun h cpu with ⟨s, _, hend⟩ | ⟨stop, hreach, hend⟩
    · rw [hend] at hf
      dsimp only at hf
      split at hf <;> cases hf
    · have hretired : stop.start.x86Index - 1 = k := by
        rw [hend] at hf
        cases hf
        rfl
      rw [hend, position_of_mem_boundaries hrun hg hbd hk]
      exact eip_mod_of_faulted hrun hg heip hreach hretired

theorem boundaries_start_behind_words {limit : Nat} {instructions : List Instruction}
    (hrun : Run.build limit instructions = .ok run) (hg : build mode run = .ok g) (hbd : bd ∈ g.boundaries)
    (hk : bd.x86Index = k + 1) :
    let before := instructions.take k
    let idle := totalLength (before.rtakeWhile isIdle)
    bd.position = UInt32.ofNat (totalLength (before.rdropWhile isIdle)) ∧
      bd.eipLag = bd.position - UInt32.ofNat (totalLength (before.rdropWhile fun i => !i.defines mode .eip)) ∧
      (bd.position = UInt32.ofNat (totalLength before) ↔ idle % 2 ^ 32 = 0) ∧
      ∀ name stamp p, Procedure.build name mode stamp run = .ok p →
        ∀ (cpu : Machine) f, (p.run cpu).1 = .faulted f k →
          let eip := (cpu.elements.get .eip).toNat
          let eip' := ((p.run cpu).2.elements.get .eip).toNat
          (∃ left : Machine, run? mode (run.upTo k) cpu = some (.completed (run.upTo k).x86Count, left) ∧
              eip' % mode.eipRange = ((left.elements.get .eip).toNat + bd.eipLag.toNat) % mode.eipRange) ∧
            ((∀ op ∈ run.ops, op.defines mode .eip = true → op.word = Microcode.eipUpdate.word) →
              eip' % mode.eipRange = (eip + bd.position.toNat) % mode.eipRange ∧
                (eip' % mode.eipRange = (eip + totalLength before) % mode.eipRange ↔ idle % mode.eipRange = 0)) := by
  intro before idle
  have hordered := Run.ordered_of_build hrun
  have hlimit := x86Index_le_limit hrun hg hbd
  have hposition := position_of_mem_boundaries hordered hg hbd hk
  rw [Run.x86Length_upTo hrun (by omega)] at hposition
  change bd.position = UInt32.ofNat (totalLength (before.rdropWhile isIdle)) at hposition
  have htotal : totalLength before = totalLength (before.rdropWhile isIdle) + idle := by
    rw [← totalLength_append, List.rdropWhile_append_rtakeWhile]
  refine ⟨hposition, ?_, ?_, ?_⟩
  · rw [eipLag_of_mem_boundaries hordered hg hbd hk, Run.eipLag, Run.eipSynced_upTo hrun (by omega),
      position_of_mem_boundaries hordered hg hbd hk]
  · rw [hposition, htotal, ← UInt32.toNat_inj, UInt32.toNat_ofNat', UInt32.toNat_ofNat']
    clear_value idle
    omega
  · intro name stamp p h cpu f hf eip eip'
    obtain ⟨hleft, hmoved⟩ := eip_mod_of_mem_boundaries hordered hg hbd hk h hf
    refine ⟨hleft, fun heip => ⟨hmoved heip, ?_⟩⟩
    rw [hmoved heip, hposition, htotal, UInt32.toNat_ofNat']
    exact mode.add_mod_eipRange_iff _ _ _

def idleBeforeFault : List Instruction :=
  [⟨2, [Microcode.clc, .eipUpdate].map Microcode.word⟩, ⟨3, [Microcode.cmc.word]⟩, ⟨1, []⟩, ⟨1, [Microcode.cli.word]⟩]

def unprivileged : Machine := Processor.set .cpl 3 Machine.initial

theorem boundaries_start_behind_words_idleBeforeFault :
    ∃ run g bd p, Run.build 4 idleBeforeFault = .ok run ∧ build .protectedMode run = .ok g ∧ g.boundaries = [bd] ∧
      Procedure.build "masking" .protectedMode 0 run = .ok p ∧ bd.x86Index = 4 ∧ bd.position = 5 ∧ bd.eipLag = 3 ∧
      (p.run unprivileged).1 = .faulted (.generalProtection 0) 3 ∧
      ((p.run unprivileged).2.elements.get .eip).toNat % 2 ^ 32 = 5 := by
  obtain ⟨p, hbuilt⟩ : ∃ p, (Run.build 4 idleBeforeFault >>= Procedure.build "masking" .protectedMode 0) = .ok p :=
    exists_eq_ok (by decide +kernel)
  obtain ⟨run, hrun, hp⟩ := bind_eq_ok.mp hbuilt
  obtain ⟨g, _, hg, _⟩ := Procedure.build_ok hp
  have hindex : g.boundaries.map (·.x86Index) = [4] := by
    have hall : (Run.build 4 idleBeforeFault >>= build .protectedMode).toOption.map
        (fun g => g.boundaries.map (·.x86Index)) = some [4] := by
      decide +kernel
    rw [bind_eq_ok.mpr ⟨run, hrun, hg⟩] at hall
    exact Option.some.inj hall
  obtain ⟨bd, hbd, hk⟩ := List.map_eq_singleton_iff.mp hindex
  have hfaulted : (p.run unprivileged).1 = .faulted (.generalProtection 0) 3 := by
    have hwalk : (run? .protectedMode run unprivileged).map Prod.fst = some (.faulted (.generalProtection 0) 3) := by
      rw [Run.build_ok hrun]
      decide +kernel
    rw [Procedure.run?_eq_run (Run.ordered_of_build hrun) hp] at hwalk
    exact Option.some.inj hwalk
  have heip : ∀ op ∈ run.ops, op.defines .protectedMode .eip = true → op.word = Microcode.eipUpdate.word := by
    rw [Run.build_ok hrun]
    decide +kernel
  obtain ⟨hposition, hlag, _, hexecution⟩ :=
    boundaries_start_behind_words hrun hg (by rw [hbd]; exact List.mem_singleton_self _) hk
  have hfive : bd.position = 5 := hposition.trans (by decide +kernel)
  obtain ⟨hmoved, _⟩ := (hexecution _ _ _ hp _ _ hfaulted).2 heip
  rw [hfive] at hlag hmoved
  exact ⟨run, g, bd, p, hrun, hg, hbd, hp, hk, hfive, hlag.trans (by decide +kernel), hfaulted,
    hmoved.trans (by decide +kernel)⟩

/-- One byte without words comes before, and neither the boundary nor the instruction pointer counts it. -/
theorem exists_boundary_misplaced :
    ∃ run g bd p, Run.build 2 [⟨1, []⟩, ⟨1, [Microcode.cli.word]⟩] = .ok run ∧ build .protectedMode run = .ok g ∧
      g.boundaries = [bd] ∧ bd.x86Index = 2 ∧ bd.position = 0 ∧ bd.eipLag = 0 ∧
      Procedure.build "masking" .protectedMode 0 run = .ok p ∧
      (p.run unprivileged).1 = .faulted (.generalProtection 0) 1 ∧ (p.run unprivileged).2.elements.get .eip = 0 := by
  obtain ⟨p, hbuilt⟩ : ∃ p, (Run.build 2 [⟨1, []⟩, ⟨1, [Microcode.cli.word]⟩] >>=
      Procedure.build "masking" .protectedMode 0) = .ok p := exists_eq_ok (by decide +kernel)
  obtain ⟨run, hrun, hp⟩ := bind_eq_ok.mp hbuilt
  obtain ⟨g, _, hg, _⟩ := Procedure.build_ok hp
  have hboundaries : g.boundaries.map (fun bd => (bd.x86Index, bd.position, bd.eipLag)) = [(2, 0, 0)] := by
    have hall : (Run.build 2 [⟨1, []⟩, ⟨1, [Microcode.cli.word]⟩] >>= build .protectedMode).toOption.map
        (fun g => g.boundaries.map fun bd => (bd.x86Index, bd.position, bd.eipLag)) = some [(2, 0, 0)] := by
      decide +kernel
    rw [bind_eq_ok.mpr ⟨run, hrun, hg⟩] at hall
    exact Option.some.inj hall
  obtain ⟨bd, hbd, hplace⟩ := List.map_eq_singleton_iff.mp hboundaries
  obtain ⟨hindex, hposition, hlag⟩ : bd.x86Index = 2 ∧ bd.position = 0 ∧ bd.eipLag = 0 := by simpa using hplace
  have hwalk : (run? .protectedMode run unprivileged).map (fun r => (r.1, r.2.elements.get .eip)) =
      some (.faulted (.generalProtection 0) 1, 0) := by
    rw [Run.build_ok hrun]
    decide +kernel
  rw [Procedure.run?_eq_run (Run.ordered_of_build hrun) hp] at hwalk
  obtain ⟨hfaulted, heip⟩ := Prod.mk.inj (Option.some.inj hwalk)
  exact ⟨run, g, bd, p, hrun, hg, hbd, hindex, hposition, hlag, hp, hfaulted, heip⟩

end Graph

end Dynarec
