import Dynarec.Proofs.PreciseFaults
import Dynarec.Proofs.RunSplitting

namespace Dynarec

/-- The number of values that the instruction pointer can have. -/
def Mode.eipRange : Mode → Nat
  | .protectedMode => 2 ^ 32
  | .real | .virtual8086 => 2 ^ 16

theorem Mode.eipRange_dvd (mode : Mode) : mode.eipRange ∣ 2 ^ 32 := by cases mode <;> decide

namespace MicroOp

theorem filter_splitAll_take (position : UInt32) (x86Index k : Nat) (l : List Instruction) :
    (splitAll position x86Index l).filter (·.x86Index ≤ x86Index + k) = splitAll position x86Index (l.take k) := by
  induction l generalizing position x86Index k with
  | nil => simp [splitAll]
  | cons i l ih =>
      cases k with
      | zero =>
          rw [List.take_zero, splitAll, List.filter_eq_nil_iff]
          intro op hop
          have := lt_of_mem_splitAll hop
          simp
          omega
      | succ k =>
          have hfirst : (split (position + i.length) (x86Index + 1) i.words).filter
              (·.x86Index ≤ x86Index + (k + 1)) = split (position + i.length) (x86Index + 1) i.words := by
            rw [List.filter_eq_self]
            intro op hop
            simp [x86Index_of_mem_split hop]
          rw [List.take_succ_cons, splitAll, splitAll, List.filter_append, hfirst, ← ih,
            Nat.add_right_comm x86Index 1 k]
          rfl

theorem targets?_eipUpdate (mode : Mode) {op : MicroOp} (h : op.word = Microcode.eipUpdate.word) :
    op.targets? mode = some [.plain .eip [.element .eip, .length] (Rule.advance mode)] :=
  targets?_of_word mode h

theorem defines_eipUpdate (mode : Mode) {op : MicroOp} (h : op.word = Microcode.eipUpdate.word) :
    op.defines mode .eip = true := by
  rw [defines, targets_of_eq (targets?_eipUpdate mode h)]
  rfl

end MicroOp

namespace Instruction

def totalLength (l : List Instruction) : Nat := (l.map (·.length.toNat)).sum

theorem toNat_foldl_length (position : UInt32) (l : List Instruction) :
    (l.foldl (fun position i => position + i.length) position).toNat = (position.toNat + totalLength l) % 2 ^ 32 := by
  induction l generalizing position with
  | nil => exact (Nat.mod_eq_of_lt position.toNat_lt).symm
  | cons i l ih =>
      rw [List.foldl_cons, ih, UInt32.toNat_add, Nat.mod_add_mod, totalLength, totalLength, List.map_cons,
        List.sum_cons, Nat.add_assoc]

end Instruction

namespace Run

theorem ops_upTo_of_build {limit : Nat} {instructions : List Instruction} {run : Run}
    (h : build limit instructions = .ok run) (k : Nat) :
    (run.upTo k).ops = MicroOp.splitAll 0 0 ((instructions.take (max limit 1)).take k) := by
  have hfilter := MicroOp.filter_splitAll_take 0 0 k (instructions.take (max limit 1))
  rw [Nat.zero_add] at hfilter
  rw [build_ok h]
  exact hfilter

theorem x86Length_of_ops {run : Run} {l : List Instruction} (hops : run.ops = MicroOp.splitAll 0 0 l)
    (hwords : ∀ i ∈ l, i.words ≠ []) : run.x86Length = l.foldl (fun position i => position + i.length) 0 := by
  cases l with
  | nil => rw [x86Length, hops]; rfl
  | cons i l => exact (covers_of_ops hops (List.cons_ne_nil i l) hwords).x86Length

theorem toNat_x86Length_upTo {limit : Nat} {instructions : List Instruction} {run : Run}
    (h : build limit instructions = .ok run) (hwords : ∀ i ∈ instructions, i.words ≠ []) {k : Nat}
    (hk : k ≤ max limit 1) :
    (run.upTo k).x86Length.toNat = Instruction.totalLength (instructions.take k) % 2 ^ 32 := by
  have hops := ops_upTo_of_build h k
  rw [List.take_take, Nat.min_eq_left hk] at hops
  rw [x86Length_of_ops hops fun i hi => hwords i (List.mem_of_mem_take hi), Instruction.toNat_foldl_length]
  exact congrArg (· % 2 ^ 32) (Nat.zero_add _)

theorem covers_take_of_build {limit : Nat} {l : List Instruction} {run : Run} (h : build limit l = .ok run)
    (hwords : ∀ i ∈ l, i.words ≠ []) : run.Covers (l.take (max limit 1)) := by
  refine covers_of_build ?_ (Nat.le_refl _) fun i hi => hwords i (List.mem_of_mem_take hi)
  rw [build, List.take_of_length_le (Nat.le_max_left _ _)]
  exact h

end Run

namespace Interpreter

theorem toNat_wrapEip (mode : Mode) (x : UInt32) : (wrapEip mode x).toNat = x.toNat % mode.eipRange := by
  cases mode with
  | protectedMode => exact (Nat.mod_eq_of_lt x.toNat_lt).symm
  | real | virtual8086 =>
      change (x &&& 0xFFFF).toNat = _
      rw [UInt32.toNat_and]
      exact Nat.and_two_pow_sub_one_eq_mod x.toNat 16

theorem toNat_wrapEip_add (mode : Mode) (a : UInt32) {b : UInt32} {n : Nat} (hb : b.toNat = n % 2 ^ 32) :
    (wrapEip mode (a + b)).toNat = (a.toNat + n) % mode.eipRange := by
  rw [toNat_wrapEip, UInt32.toNat_add, hb, Nat.add_mod_mod, Nat.mod_mod_of_dvd _ mode.eipRange_dvd]

theorem wrapEip_wrapEip_add (mode : Mode) (a b : UInt32) : wrapEip mode (wrapEip mode a + b) = wrapEip mode (a + b) := by
  have hb : b.toNat = b.toNat % 2 ^ 32 := (Nat.mod_eq_of_lt b.toNat_lt).symm
  apply UInt32.toNat_inj.mp
  rw [toNat_wrapEip_add mode _ hb, toNat_wrapEip_add mode _ hb, toNat_wrapEip, Nat.mod_add_mod]

/-- Until it is defined, the instruction pointer has counted nothing. Then it counts, from `eip` on, the
bytes up to where it was last defined. -/
def Progress.Counts (mode : Mode) (eip : UInt32) (p : Progress) : Prop :=
  match p.defined.get .eip with
  | none => p.eipSynced = 0
  | some v => v = wrapEip mode (eip + p.eipSynced)

theorem Progress.Counts.wrapEip_value {mode : Mode} {entry : ElementMap UInt32} {p : Progress}
    (hp : p.Counts mode (entry.get .eip)) (position : UInt32) :
    wrapEip mode (p.value entry .eip + (position - p.eipSynced)) = wrapEip mode (entry.get .eip + position) := by
  rw [Counts] at hp
  rw [Progress.value]
  cases heip : p.defined.get .eip with
  | none =>
      rw [heip] at hp
      rw [hp, Option.getD_none, UInt32.sub_zero]
  | some v =>
      rw [heip] at hp
      have hsum : entry.get .eip + p.eipSynced + (position - p.eipSynced) = entry.get .eip + position := by grind
      rw [hp, Option.getD_some, wrapEip_wrapEip_add, hsum]

/-- What a fault makes of the instruction pointer, if the instruction before ends at `position`. -/
theorem Progress.Counts.restart {mode : Mode} {entry : ElementMap UInt32} {p : Progress}
    (hp : p.Counts mode (entry.get .eip)) (x86Index : Nat) (position : UInt32) :
    (restart mode entry ⟨x86Index, p.defined, position - p.eipSynced⟩).get .eip =
      if p.defined.get .eip = none ∧ position = 0 then none
      else some (wrapEip mode (entry.get .eip + position)) := by
  have hvalue := hp.wrapEip_value position
  rw [Counts] at hp
  rw [Progress.value] at hvalue
  by_cases hlag : position - p.eipSynced = 0
  · obtain rfl : position = p.eipSynced := by grind
    rw [Interpreter.restart, if_pos hlag]
    -- without a lag nothing is added, so a pointer that was never defined stays so
    cases heip : p.defined.get .eip <;> rw [heip] at hp <;> simpa using hp
  · have hnot : ¬(p.defined.get .eip = none ∧ position = 0) := by
      rintro ⟨heip, rfl⟩
      rw [heip] at hp
      exact hlag (by rw [hp, UInt32.sub_zero])
    rw [Interpreter.restart, if_neg hlag, if_neg hnot]
    dsimp only
    rw [ElementMap.get_set_self, hvalue]

theorem get_foldl_define (position : UInt32) {results : List (Element × UInt32)} (p : Progress) {e : Element}
    (he : e ∉ results.map Prod.fst) : (results.foldl (define position) p).defined.get e = p.defined.get e := by
  induction results generalizing p with
  | nil => rfl
  | cons r results ih =>
      rw [List.map_cons, List.mem_cons, not_or] at he
      rw [List.foldl_cons, ih _ he.2]
      exact ElementMap.get_set_ne _ (Ne.symm he.1) _

section Walks

variable {σ : Type} [Processor σ] {mode : Mode} {entry : ElementMap UInt32} {s s' : State σ} {op : MicroOp}
  {ops : List MicroOp}

theorem targets?_advance (p : Progress) (cpu : σ) :
    targets? entry p op [.plain .eip [.element .eip, .length] (Rule.advance mode)] cpu =
      some (.ok ⟨[(.eip, wrapEip mode (p.value entry .eip + (op.position - p.eipSynced)))], false⟩, cpu) := by
  let t := Target.plain .eip [.element .eip, .length] (Rule.advance mode)
  have hargs : t.inputs.mapM (operand? entry p op) = some [p.value entry .eip, op.position - p.eipSynced] := rfl
  have harity : [p.value entry .eip, op.position - p.eipSynced].length = t.fragment.arity := by cases mode <;> rfl
  exact targets?_cons hargs harity (Body.perform_advance mode _ cpu)

theorem get_advance? {e : Element} (h : advance? mode entry s op = some (.ok s')) (he : op.defines mode e = false) :
    s'.progress.defined.get e = s.progress.defined.get e := by
  obtain ⟨ts, done, cpu', hts, htargets, rfl⟩ := advance?_ok h
  rw [MicroOp.defines, MicroOp.targets_of_eq hts, List.any_eq_false] at he
  apply get_foldl_define
  rw [(targets?_ok htargets).1, List.mem_map]
  rintro ⟨t, ht, heq⟩
  exact he t ht (by simp [heq])

theorem Progress.Counts.advance? (hs : s.progress.Counts mode (entry.get .eip))
    (hop : op.defines mode .eip = true → op.word = Microcode.eipUpdate.word)
    (h : advance? mode entry s op = some (.ok s')) : s'.progress.Counts mode (entry.get .eip) := by
  obtain ⟨ts, done, cpu', hts, htargets, rfl⟩ := advance?_ok h
  cases hdefines : op.defines mode .eip with
  | false =>
      have hsynced := (advanced_of_advance? h).eipSynced
      rw [hdefines, if_neg Bool.false_ne_true] at hsynced
      rw [Counts, get_advance? h hdefines, hsynced]
      exact hs
  | true =>
      have hupdate := MicroOp.targets?_eipUpdate mode (hop hdefines)
      rw [hts] at hupdate
      cases hupdate
      rw [targets?_advance] at htargets
      cases htargets
      have hget : (s.after op ⟨[(.eip, wrapEip mode (entry.get .eip + op.position))], false⟩ s.cpu).progress.defined.get
          .eip = some (wrapEip mode (entry.get .eip + op.position)) := ElementMap.get_set_self _ _ _
      rw [hs.wrapEip_value, Counts, hget]
      rfl

theorem Progress.Counts.reach? (hs : s.progress.Counts mode (entry.get .eip))
    (hops : ∀ op ∈ ops, op.defines mode .eip = true → op.word = Microcode.eipUpdate.word)
    (h : reach? mode entry s ops = some (.ok s')) : s'.progress.Counts mode (entry.get .eip) := by
  induction ops generalizing s with
  | nil =>
      cases h
      exact hs
  | cons op ops ih =>
      rw [List.forall_mem_cons] at hops
      rw [Interpreter.reach?] at h
      split at h
      next s₁ hs₁ => exact ih (hs.advance? hops.1 hs₁) hops.2 h
      next hstopped => exact absurd h (hstopped s')

theorem isSome_reach? {e : Element} (h : reach? mode entry s ops = some (.ok s')) (hop : op ∈ ops)
    (hdefines : op.defines mode e = true) : (s'.progress.defined.get e).isSome = true := by
  have hall : ∀ x ∈ ops, x.defines mode e = true → (s'.progress.defined.get e).isSome = true := by
    refine reach?_induction (P := fun ops s' => ∀ x ∈ ops, x.defines mode e = true →
      (s'.progress.defined.get e).isSome = true) (List.forall_mem_nil _) ?_ h
    intro before y s₁ s₂ _ hbefore hadvanced x hx hdefines
    rw [hadvanced.isSome]
    rcases List.mem_append.mp hx with hx | hx
    · rw [hbefore x hx hdefines, Bool.true_or]
    · rw [← List.mem_singleton.mp hx, hdefines, Bool.or_true]
  exact hall op hop hdefines

end Walks

theorem Progress.counts_initial (mode : Mode) (eip : UInt32) : Progress.initial.Counts mode eip := by
  rw [Counts, Progress.initial, ElementMap.get_replicate]

theorem entryValues_of_isCommitted {σ : Type} [Processor σ] {e : Element} (he : e.isCommitted = true) (cpu : σ) :
    (entryValues cpu).get e = Processor.get cpu e := by
  rw [entryValues, ElementMap.get_ofFn, Element.isReadable, if_pos he]

theorem entryValues_eip {σ : Type} [Processor σ] (cpu : σ) : (entryValues cpu).get .eip = Processor.get cpu .eip :=
  entryValues_of_isCommitted rfl cpu

theorem get_commit_eip {σ : Type} [Processor σ] [LawfulProcessor σ] (defined : ElementMap (Option UInt32)) (cpu : σ) :
    Processor.get (commit defined cpu) .eip = (defined.get .eip).getD (Processor.get cpu .eip) :=
  get_commit defined cpu .eip

section Ends

variable {mode : Mode} {run : Run} {cpu : Machine}

theorem eip_of_completed {l : List Instruction} (hrun : run.Covers l) (hlast : run.EndsInSync mode)
    (heip : ∀ op ∈ run.ops, op.defines mode .eip = true → op.word = Microcode.eipUpdate.word)
    {s : State Machine} (h : reach? mode (entryValues cpu) (State.initial cpu) run.ops = some (.ok s)) :
    Processor.get (commit s.progress.defined s.cpu) .eip = wrapEip mode (Processor.get cpu .eip + run.x86Length) := by
  have hcounts := (Progress.counts_initial mode _).reach? heip h
  have hsynced := hrun.eipSynced hlast
  obtain ⟨op, hop, _, hdefines⟩ := hlast
  obtain ⟨v, hv⟩ := Option.isSome_iff_exists.mp (isSome_reach? h hop hdefines)
  rw [Progress.Counts, hv, eipSynced_reach? h, hsynced, entryValues_eip] at hcounts
  rw [get_commit_eip, hv, Option.getD_some]
  exact hcounts

theorem eip_of_faulted {g : Graph} (hrun : run.Ordered) (hg : Graph.build mode run = .ok g)
    (heip : ∀ op ∈ run.ops, op.defines mode .eip = true → op.word = Microcode.eipUpdate.word)
    {stop : Stop Machine} (h : reach? mode (entryValues cpu) (State.initial cpu) run.ops = some (.error stop)) {k : Nat}
    (hk : stop.start.x86Index - 1 = k) :
    ((run.upTo k).x86Length ≠ 0 → Processor.get (commit (restart mode (entryValues cpu) stop.start) stop.cpu) .eip =
        wrapEip mode (Processor.get cpu .eip + (run.upTo k).x86Length)) ∧
      (k = 0 → Processor.get (commit (restart mode (entryValues cpu) stop.start) stop.cpu) .eip =
        Processor.get cpu .eip) := by
  obtain ⟨_, s, hs, _, hstart, hasked⟩ := exists_start_of_error hrun hg h hk
  have hearlier : ∀ op ∈ (run.upTo k).ops, op ∈ run.ops := fun op hop => (List.mem_filter.mp hop).1
  have hcounts := (Progress.counts_initial mode _).reach? (fun op hop => heip op (hearlier op hop)) hs
  have hrestart := hcounts.restart (k + 1) (run.upTo k).x86Length
  rw [eipSynced_reach? hs, ← Run.eipLag, ← hstart, entryValues_eip] at hrestart
  rw [get_commit_eip, hrestart]
  constructor
  · intro hlength
    rw [if_neg (fun hno => hlength hno.2), Option.getD_some]
  · rintro rfl
    have hnil : (run.upTo 0).ops = [] :=
      List.filter_eq_nil_iff.mpr fun op hop => by simpa using Nat.ne_of_gt (hrun.pos op hop)
    rw [hnil] at hs
    cases hs
    rw [if_pos ⟨ElementMap.get_replicate _ _, by rw [Run.x86Length, hnil]; rfl⟩, Option.getD_none, hasked.get_eq]
    rfl

theorem retired_lt {limit : Nat} {instructions : List Instruction} {g : Graph}
    (hrun : Run.build limit instructions = .ok run) (hg : Graph.build mode run = .ok g)
    {stop : Stop Machine} (h : reach? mode (entryValues cpu) (State.initial cpu) run.ops = some (.error stop)) :
    stop.start.x86Index - 1 < max limit 1 := by
  obtain ⟨hnext, s, hs, _⟩ := exists_start_of_error (Run.ordered_of_build hrun) hg h rfl
  by_contra hge
  -- past the last instruction one more of them makes no difference
  have hlength := List.length_take_le (max limit 1) instructions
  rw [Run.ops_upTo_of_build hrun, List.take_of_length_le (by omega)] at hnext hs
  rw [hs] at hnext
  cases hnext

end Ends

end Interpreter

namespace Procedure

open Interpreter

variable {name : String} {mode : Mode} {stamp : Nat} {run : Run} {p : Procedure}

theorem walk_cases (hrun : run.Ordered) (h : build name mode stamp run = .ok p) (cpu : Machine) :
    (∃ s, reach? mode (entryValues cpu) (State.initial cpu) run.ops = some (.ok s) ∧
        p.run cpu = (if s.switched then .switched else .completed run.x86Count, commit s.progress.defined s.cpu)) ∨
      ∃ stop, reach? mode (entryValues cpu) (State.initial cpu) run.ops = some (.error stop) ∧
        p.run cpu = (.faulted (mode.asDelivered stop.fault) (stop.start.x86Index - 1),
          commit (restart mode (entryValues cpu) stop.start) stop.cpu) := by
  have hwalk := run?_eq_run hrun h cpu
  rw [run?_eq, Option.map_eq_some_iff] at hwalk
  obtain ⟨result, hreach, hfinish⟩ := hwalk
  cases result with
  | ok s => exact .inl ⟨s, hreach, hfinish.symm⟩
  | error stop => exact .inr ⟨stop, hreach, hfinish.symm⟩

/-- Wherever a run leaves the instruction pointer, it has moved by the bytes executed, as far as the mode
has bits for it. -/
theorem eip_counts_bytes {limit : Nat} {instructions : List Instruction} (hwords : ∀ i ∈ instructions, i.words ≠ [])
    (hrun : Run.build limit instructions = .ok run) (h : build name mode stamp run = .ok p)
    (heip : ∀ op ∈ run.ops, op.defines mode .eip = true → op.word = Microcode.eipUpdate.word) (cpu : Machine) :
    let eip := cpu.elements.get .eip
    let eip' := (p.run cpu).2.elements.get .eip
    ((∃ n, (p.run cpu).1 = .completed n) ∨ (p.run cpu).1 = .switched →
        (∃ op ∈ run.ops, op.x86Index = run.x86Count ∧ op.word = Microcode.eipUpdate.word) →
        eip'.toNat = (eip.toNat + p.x86Length.toNat) % mode.eipRange) ∧
      ∀ f k, (p.run cpu).1 = .faulted f k →
        (Instruction.totalLength (instructions.take k) % 2 ^ 32 ≠ 0 →
          eip'.toNat = (eip.toNat + Instruction.totalLength (instructions.take k)) % mode.eipRange) ∧
        (k = 0 → eip' = eip) := by
  intro eip eip'
  have hordered := Run.ordered_of_build hrun
  obtain ⟨g, _, hg, _, _, hparts⟩ := build_ok h
  rcases walk_cases hordered h cpu with ⟨s, hreach, hend⟩ | ⟨stop, hreach, hend⟩
  · constructor
    · rintro _ ⟨op, hop, hindex, hword⟩
      have hlast : run.EndsInSync mode := ⟨op, hop, hindex, MicroOp.defines_eipUpdate mode hword⟩
      have hmoved : eip' = wrapEip mode (eip + run.x86Length) := by
        change (p.run cpu).2.elements.get .eip = _
        rw [hend]
        exact eip_of_completed (Run.covers_take_of_build hrun hwords) hlast heip hreach
      rw [hmoved, hparts]
      exact toNat_wrapEip_add mode eip (Nat.mod_eq_of_lt run.x86Length.toNat_lt).symm
    · intro f k hf
      rw [hend] at hf
      dsimp only at hf
      split at hf <;> cases hf
  · constructor
    · intro hends
      rw [hend] at hends
      rcases hends with ⟨n, hn⟩ | hn <;> cases hn
    · intro f k hf
      have hk : stop.start.x86Index - 1 = k := by
        rw [hend] at hf
        cases hf
        rfl
      have hlt := retired_lt hrun hg hreach
      have hbytes := Run.toNat_x86Length_upTo hrun hwords (Nat.le_of_lt (hk ▸ hlt))
      have hleft : eip' = Processor.get (commit (restart mode (entryValues cpu) stop.start) stop.cpu) .eip := by
        change (p.run cpu).2.elements.get .eip = _
        rw [hend]
        rfl
      obtain ⟨hmoved, hstill⟩ := eip_of_faulted hordered hg heip hreach hk
      rw [hleft]
      refine ⟨?_, hstill⟩
      intro hne
      have hmoves : (run.upTo k).x86Length ≠ 0 := by
        intro hzero
        rw [hzero] at hbytes
        exact hne hbytes.symm
      rw [hmoved hmoves]
      exact toNat_wrapEip_add mode eip hbytes

def skippedUpdate : List Instruction :=
  [⟨2, [Microcode.clc].map Microcode.word⟩,
   ⟨3, [Microcode.eipUpdate, .cmc, .eipUpdate].map Microcode.word⟩,
   ⟨4, [Microcode.load0 .eax, .load1 .ecx, .div, .eipUpdate].map Microcode.word⟩]

def aboutToWrap (divisor : UInt32) : Machine := Processor.set .ecx divisor (Processor.set .eip 0xFFFE Machine.initial)

theorem eip_counts_bytes_skippedUpdate :
    ∃ run p, Run.build 3 skippedUpdate = .ok run ∧ build "division" .real 0 run = .ok p ∧
      (p.run (aboutToWrap 0)).1 = .faulted .divideError 2 ∧ ((p.run (aboutToWrap 0)).2.elements.get .eip).toNat = 3 ∧
      (p.run (aboutToWrap 1)).1 = .completed 3 ∧ ((p.run (aboutToWrap 1)).2.elements.get .eip).toNat = 7 := by
  obtain ⟨p, hbuilt⟩ : ∃ p, (Run.build 3 skippedUpdate >>= build "division" .real 0) = .ok p :=
    exists_eq_ok (by decide +kernel)
  obtain ⟨run, hrun, hp⟩ := bind_eq_ok.mp hbuilt
  have heip : ∀ op ∈ run.ops, op.defines .real .eip = true → op.word = Microcode.eipUpdate.word := by
    rw [Run.build_ok hrun]
    decide +kernel
  have hlast : ∃ op ∈ run.ops, op.x86Index = run.x86Count ∧ op.word = Microcode.eipUpdate.word := by
    rw [Run.build_ok hrun]
    decide +kernel
  have hlength : p.x86Length = 9 := by
    obtain ⟨_, _, _, _, _, hparts⟩ := build_ok hp
    rw [hparts, Run.build_ok hrun]
    rfl
  have hwalks : (run? .real run (aboutToWrap 0)).map Prod.fst = some (.faulted .divideError 2) ∧
      (run? .real run (aboutToWrap 1)).map Prod.fst = some (.completed 3) := by
    rw [Run.build_ok hrun]
    decide +kernel
  have hordered := Run.ordered_of_build hrun
  rw [run?_eq_run hordered hp, run?_eq_run hordered hp] at hwalks
  have hfaulted : (p.run (aboutToWrap 0)).1 = .faulted .divideError 2 := Option.some.inj hwalks.1
  have hcompleted : (p.run (aboutToWrap 1)).1 = .completed 3 := Option.some.inj hwalks.2
  have hwords : ∀ i ∈ skippedUpdate, i.words ≠ [] := by decide
  obtain ⟨_, hfaults⟩ := eip_counts_bytes hwords hrun hp heip (aboutToWrap 0)
  obtain ⟨hcompletes, _⟩ := eip_counts_bytes hwords hrun hp heip (aboutToWrap 1)
  have hstart := (hfaults _ _ hfaulted).1 (by decide)
  have hend := hcompletes (.inl ⟨3, hcompleted⟩) hlast
  rw [hlength] at hend
  exact ⟨run, p, hrun, hp, hfaulted, hstart.trans (by decide), hcompleted, hend.trans (by decide)⟩

end Procedure

end Dynarec
