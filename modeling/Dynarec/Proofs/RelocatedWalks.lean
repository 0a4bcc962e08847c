import Dynarec.Proofs.CompilerCorrectness
import Dynarec.Proofs.WalkSteps
import Mathlib.Data.UInt

namespace Dynarec

namespace MicroOp

/-- The micro-op behind `count` instructions that take up `length` bytes. -/
def behind (count : Nat) (length : UInt32) (op : MicroOp) : MicroOp :=
  { op with position := op.position + length, x86Index := op.x86Index + count }

/-- What the micro-ops read is committed, or it is defined already, or by one of those before. -/
def Supplied (mode : Mode) (defined : ElementMap (Option UInt32)) (ops : List MicroOp) : Prop :=
  ∀ before op after, ops = before ++ op :: after → ∀ e, op.reads mode e = true →
    e.isCommitted = true ∨ (defined.get e).isSome = true ∨ ∃ x ∈ before, x.defines mode e = true

theorem Supplied.tail {mode : Mode} {defined defined' : ElementMap (Option UInt32)} {op : MicroOp} {ops : List MicroOp}
    (h : Supplied mode defined (op :: ops))
    (hdefined : ∀ e, (defined'.get e).isSome = ((defined.get e).isSome || op.defines mode e)) :
    Supplied mode defined' ops := by
  rintro before op' after rfl e hreads
  rw [hdefined]
  rcases h (op :: before) op' after rfl e hreads with he | he | ⟨x, hx, he⟩
  · exact .inl he
  · exact .inr (.inl (by rw [he, Bool.true_or]))
  · rcases List.mem_cons.mp hx with rfl | hx
    · exact .inr (.inl (by rw [he, Bool.or_true]))
    · exact .inr (.inr ⟨x, hx, he⟩)

end MicroOp

namespace Interpreter

def overlay (later earlier : ElementMap (Option UInt32)) : ElementMap (Option UInt32) :=
  ElementMap.ofFn fun e => (later.get e).or (earlier.get e)

theorem overlay_none (earlier : ElementMap (Option UInt32)) : overlay (ElementMap.replicate none) earlier = earlier := by
  apply ElementMap.ext_get
  intro e
  rw [overlay, ElementMap.get_ofFn, ElementMap.get_replicate, Option.none_or]

theorem overlay_set (later earlier : ElementMap (Option UInt32)) (e : Element) (v : UInt32) :
    overlay (later.set e (some v)) earlier = (overlay later earlier).set e (some v) := by
  apply ElementMap.ext_get
  intro e'
  simp only [overlay, ElementMap.get_ofFn, ElementMap.get_set]
  by_cases he : e = e'
  · rw [if_pos he, if_pos he, Option.some_or]
  · rw [if_neg he, if_neg he]

end Interpreter

namespace Machine

open Interpreter

theorem assign_eq (l : List (Element × UInt32)) (m : Machine) :
    Processor.assign l m = { m with elements := (Processor.assign l m).elements } := by
  induction l generalizing m with
  | nil => rfl
  | cons r l ih => exact ih _

theorem commit_overlay (later earlier : ElementMap (Option UInt32)) (m : Machine) :
    commit (overlay later earlier) m = commit later (commit earlier m) := by
  have helements : (commit (overlay later earlier) m).elements = (commit later (commit earlier m)).elements := by
    apply ElementMap.ext_get
    intro e
    change Processor.get (commit (overlay later earlier) m) e = Processor.get (commit later (commit earlier m)) e
    simp only [get_commit, overlay, ElementMap.get_ofFn]
    by_cases he : e.isCommitted = true
    · rw [if_pos he, if_pos he, if_pos he]
      cases later.get e <;> rfl
    · rw [if_neg he, if_neg he, if_neg he]
  simp only [commit_eq_assign] at helements ⊢
  rw [assign_eq (committed (overlay later earlier)), assign_eq (committed later), helements,
    assign_eq (committed earlier)]

theorem perform_set (f : Fragment) (a : Nat → UInt32) (e : Element) (v : UInt32) (m : Machine) :
    f.perform a (Processor.set e v m) = ((f.perform a m).1, Processor.set e v (f.perform a m).2) := by
  cases f with
  | store w | pushStore =>
      simp only [Fragment.perform, Processor.writeMemory, writeMemory, Processor.set]
      split <;> rfl
  | portInChecked | portOutChecked | haltChecked =>
      simp only [Fragment.perform]
      split <;> rfl
  | _ => rfl

theorem perform_commit (f : Fragment) (a : Nat → UInt32) (defined : ElementMap (Option UInt32)) (m : Machine) :
    f.perform a (commit defined m) = ((f.perform a m).1, commit defined (f.perform a m).2) := by
  rw [commit_eq_assign, commit_eq_assign]
  induction committed defined generalizing m with
  | nil => rfl
  | cons r l ih =>
      refine (ih _).trans ?_
      rw [perform_set]
      rfl

end Machine

namespace Interpreter

variable {σ : Type} [Processor σ]

theorem mapM_operand?_congr {entry entry' : ElementMap UInt32} {p p' : Progress} {op op' : MicroOp} {os : List Operand}
    (h : ∀ o ∈ os, operand? entry p op o = operand? entry' p' op' o) :
    os.mapM (operand? entry p op) = os.mapM (operand? entry' p' op') := by
  induction os with
  | nil => rfl
  | cons o os ih =>
      rw [List.forall_mem_cons] at h
      rw [List.mapM_cons, List.mapM_cons, h.1, ih h.2]

theorem targets?_congr {entry entry' : ElementMap UInt32} {p p' : Progress} {op op' : MicroOp} {g : σ → σ}
    {ts : List Target} (hg : ∀ (f : Fragment) a cpu, f.perform a (g cpu) = ((f.perform a cpu).1, g (f.perform a cpu).2))
    (hoperands : ∀ t ∈ ts, ∀ o ∈ t.inputs, operand? entry p op o = operand? entry' p' op' o) (cpu : σ) :
    targets? entry p op ts (g cpu) = (targets? entry' p' op' ts cpu).map fun r => (r.1, g r.2) := by
  induction ts generalizing cpu with
  | nil => rfl
  | cons t ts ih =>
      rw [List.forall_mem_cons] at hoperands
      have hsame := mapM_operand?_congr hoperands.1
      cases hargs : t.inputs.mapM (operand? entry' p' op') with
      | none =>
          rw [hargs] at hsame
          simp [targets?, hargs, hsame]
      | some args =>
          rw [hargs] at hsame
          by_cases harity : args.length = t.fragment.arity
          · cases hperform : t.fragment.perform (fun i => args.getD i 0) cpu with
            | mk reply cpu₁ =>
                have hperform' : t.fragment.perform (fun i => args.getD i 0) (g cpu) = (reply, g cpu₁) := by
                  rw [hg, hperform]
                rw [targets?_cons hsame harity hperform', targets?_cons hargs harity hperform]
                cases reply.result with
                | error fault => rfl
                | ok r =>
                    dsimp only
                    rw [ih hoperands.2, Option.map_map, Option.map_map]
                    rfl
          · simp [targets?, hargs, hsame, Fragment.evaluate?, harity]

structure StartBeside (count : Nat) (earlier : ElementMap (Option UInt32)) (start start' : Start) : Prop where
  x86Index : start'.x86Index = start.x86Index + count
  defined : start'.defined = overlay start.defined earlier
  lag : start'.lag = start.lag

/-- The walk of some micro-ops from the start, and their walk behind `count` instructions that take up
`length` bytes and made the definitions `earlier`. -/
structure Beside (count : Nat) (length : UInt32) (earlier : ElementMap (Option UInt32)) (s s' : State Machine) :
    Prop where
  defined : s'.progress.defined = overlay s.progress.defined earlier
  eipSynced : s'.progress.eipSynced = s.progress.eipSynced + length
  position : s'.progress.position = s.progress.position + length
  switched : s'.switched = s.switched
  cpu : s.cpu = commit earlier s'.cpu
  -- before the first instruction neither walk knows its start
  start : StartBeside count earlier s.start s'.start ∨ s.start.x86Index = 0 ∧ s'.start.x86Index ≤ count

def EntryBeside (earlier : ElementMap (Option UInt32)) (entry entry' : ElementMap UInt32) : Prop :=
  ∀ e, e.isCommitted = true → entry.get e = (earlier.get e).getD (entry'.get e)

inductive ResultBeside (count : Nat) (length : UInt32) (earlier : ElementMap (Option UInt32)) :
    Except (Stop Machine) (State Machine) → Except (Stop Machine) (State Machine) → Prop
  | ok {s s' : State Machine} (h : Beside count length earlier s s') : ResultBeside count length earlier (.ok s) (.ok s')
  | error {stop stop' : Stop Machine} (hpos : 1 ≤ stop.start.x86Index) (hfault : stop'.fault = stop.fault)
      (hstart : StartBeside count earlier stop.start stop'.start) (hcpu : stop.cpu = commit earlier stop'.cpu) :
      ResultBeside count length earlier (.error stop) (.error stop')

section Beside

variable {count : Nat} {length : UInt32} {earlier : ElementMap (Option UInt32)} {s s' : State Machine}
  {entry entry' : ElementMap UInt32}

theorem Beside.follow (h : Beside count length earlier s s') {x86Index : Nat} (hpos : 1 ≤ x86Index) :
    StartBeside count earlier (s.start.follow s.progress x86Index)
      (s'.start.follow s'.progress (x86Index + count)) := by
  have hfresh : StartBeside count earlier ⟨x86Index, s.progress.defined, s.progress.position - s.progress.eipSynced⟩
      ⟨x86Index + count, s'.progress.defined, s'.progress.position - s'.progress.eipSynced⟩ := by
    refine ⟨rfl, h.defined, ?_⟩
    rw [h.position, h.eipSynced]
    exact add_sub_add_right_eq_sub _ _ _
  rw [Start.follow, Start.follow]
  rcases h.start with hstart | ⟨hzero, hle⟩
  · by_cases hi : s.start.x86Index = x86Index
    · rw [if_pos hi, if_pos (by rw [hstart.x86Index, hi])]
      exact hstart
    · rw [if_neg hi, if_neg (by rw [hstart.x86Index]; omega)]
      exact hfresh
  · rw [if_neg (by omega), if_neg (by omega)]
    exact hfresh

theorem Beside.value (h : Beside count length earlier s s') (hentry : EntryBeside earlier entry entry') {e : Element}
    (he : e.isCommitted = true ∨ (s.progress.defined.get e).isSome = true) :
    s.progress.value entry e = s'.progress.value entry' e := by
  rw [Progress.value, Progress.value, h.defined, overlay, ElementMap.get_ofFn]
  cases hd : s.progress.defined.get e with
  | some v => rfl
  | none =>
      have hcommitted : e.isCommitted = true := by simpa [hd] using he
      exact hentry e hcommitted

theorem Beside.operand? (h : Beside count length earlier s s') (hentry : EntryBeside earlier entry entry')
    {op : MicroOp} {o : Operand}
    (ho : ∀ e, o = .element e → e.isCommitted = true ∨ (s.progress.defined.get e).isSome = true) :
    operand? entry s.progress op o = operand? entry' s'.progress (op.behind count length) o := by
  cases o with
  | element e => exact congrArg some (h.value hentry (ho e rfl))
  | immediate => rfl
  | length =>
      rw [Interpreter.operand?, Interpreter.operand?, h.eipSynced, MicroOp.behind]
      exact congrArg some (add_sub_add_right_eq_sub _ _ _).symm

theorem Beside.define (h : Beside count length earlier s s') (position : UInt32) (results : List (Element × UInt32)) :
    (results.foldl (define (position + length)) s'.progress).defined =
        overlay (results.foldl (define position) s.progress).defined earlier ∧
      (results.foldl (define (position + length)) s'.progress).eipSynced =
        (results.foldl (define position) s.progress).eipSynced + length := by
  have hfold (p p' : Progress) (hdefined : p'.defined = overlay p.defined earlier)
      (heip : p'.eipSynced = p.eipSynced + length) :
      (results.foldl (Interpreter.define (position + length)) p').defined =
          overlay (results.foldl (Interpreter.define position) p).defined earlier ∧
        (results.foldl (Interpreter.define (position + length)) p').eipSynced =
          (results.foldl (Interpreter.define position) p).eipSynced + length := by
    induction results generalizing p p' with
    | nil => exact ⟨hdefined, heip⟩
    | cons r results ih =>
        apply ih
        · simp only [Interpreter.define, hdefined, overlay_set]
        · simp only [Interpreter.define, heip]
          split <;> rfl
  exact hfold s.progress s'.progress h.defined h.eipSynced

theorem Beside.advance? (h : Beside count length earlier s s') {mode : Mode} {op : MicroOp}
    (hentry : EntryBeside earlier entry entry') (hpos : 1 ≤ op.x86Index)
    (hreads : ∀ e, op.reads mode e = true → e.isCommitted = true ∨ (s.progress.defined.get e).isSome = true)
    {r : Except (Stop Machine) (State Machine)} (hr : advance? mode entry s op = some r) :
    ∃ r', advance? mode entry' s' (op.behind count length) = some r' ∧ ResultBeside count length earlier r r' := by
  obtain ⟨ts, hts, hr⟩ := Option.bind_eq_some_iff.mp hr
  obtain ⟨⟨_, cpu⟩, htargets, hr⟩ := Option.map_eq_some_iff.mp hr
  have hoperands : ∀ t ∈ ts, ∀ o ∈ t.inputs,
      Interpreter.operand? entry s.progress op o =
        Interpreter.operand? entry' s'.progress (op.behind count length) o := by
    intro t ht o ho
    apply h.operand? hentry
    rintro e rfl
    apply hreads
    rw [MicroOp.reads, MicroOp.targets_of_eq hts, List.any_eq_true]
    exact ⟨t, ht, List.contains_iff_mem.mpr ho⟩
  rw [h.cpu, targets?_congr (Machine.perform_commit · · earlier ·) hoperands] at htargets
  obtain ⟨⟨result, cpu'⟩, htargets', hpair⟩ := Option.map_eq_some_iff.mp htargets
  cases hpair
  have hfollow := h.follow hpos
  have hadvance : Interpreter.advance? mode entry' s' (op.behind count length) = _ :=
    Option.bind_eq_some_iff.mpr ⟨ts, hts, Option.map_eq_some_iff.mpr ⟨_, htargets', rfl⟩⟩
  refine ⟨_, hadvance, ?_⟩
  cases result with
  | error fault =>
      cases hr
      refine .error ?_ rfl hfollow rfl
      rw [x86Index_follow]
      exact hpos
  | ok done =>
      cases hr
      obtain ⟨hdefined, heip⟩ := h.define op.position done.results
      refine .ok ⟨hdefined, heip, rfl, ?_, rfl, .inl hfollow⟩
      exact congrArg (· || done.switched) h.switched

theorem Beside.reach? (h : Beside count length earlier s s') {mode : Mode} {ops : List MicroOp}
    (hentry : EntryBeside earlier entry entry') (hpos : ∀ op ∈ ops, 1 ≤ op.x86Index)
    (hsupplied : MicroOp.Supplied mode s.progress.defined ops)
    {r : Except (Stop Machine) (State Machine)} (hr : reach? mode entry s ops = some r) :
    ∃ r', reach? mode entry' s' (ops.map (MicroOp.behind count length)) = some r' ∧
      ResultBeside count length earlier r r' := by
  induction ops generalizing s s' with
  | nil =>
      cases hr
      exact ⟨_, rfl, .ok h⟩
  | cons op ops ih =>
      rw [List.forall_mem_cons] at hpos
      have hreads : ∀ e, op.reads mode e = true → e.isCommitted = true ∨ (s.progress.defined.get e).isSome = true := by
        intro e he
        simpa using hsupplied [] op ops rfl e he
      rw [Interpreter.reach?] at hr
      split at hr
      next s₁ hs₁ =>
        obtain ⟨r', hr', hbeside⟩ := h.advance? hentry hpos.1 hreads hs₁
        cases hbeside with
        | ok h₁ =>
            have hrest := hsupplied.tail (advanced_of_advance? hs₁).isSome
            obtain ⟨r'', hr'', hbeside⟩ := ih h₁ hpos.2 hrest hr
            refine ⟨r'', ?_, hbeside⟩
            rw [List.map_cons, Interpreter.reach?, hr']
            exact hr''
      next hstopped =>
        obtain ⟨r', hr', hbeside⟩ := h.advance? hentry hpos.1 hreads hr
        refine ⟨r', ?_, hbeside⟩
        rw [List.map_cons, Interpreter.reach?, hr']
        cases hbeside with
        | ok _ => exact absurd hr (hstopped _)
        | error _ _ _ _ => rfl

theorem StartBeside.restart {start start' : Start} (h : StartBeside count earlier start start') (mode : Mode)
    (hentry : EntryBeside earlier entry entry') :
    restart mode entry' start' = overlay (restart mode entry start) earlier := by
  rw [Interpreter.restart, Interpreter.restart, h.lag]
  by_cases hlag : start.lag = 0
  · rw [if_pos hlag, if_pos hlag, h.defined]
  · have heip : (start'.defined.get .eip).getD (entry'.get .eip) = (start.defined.get .eip).getD (entry.get .eip) := by
      rw [h.defined, overlay, ElementMap.get_ofFn, hentry .eip rfl]
      cases start.defined.get .eip <;> rfl
    rw [if_neg hlag, if_neg hlag, heip, h.defined, overlay_set]

/-- Both walks leave the same machine, and they end alike up to the instructions in front. -/
theorem ResultBeside.finish {r r' : Except (Stop Machine) (State Machine)} (h : ResultBeside count length earlier r r')
    (mode : Mode) (hentry : EntryBeside earlier entry entry') (x86Count : Nat) :
    (finish mode entry' (count + x86Count) r').2 = (finish mode entry x86Count r).2 ∧
      (((finish mode entry x86Count r).1 = .completed x86Count ∧
          (finish mode entry' (count + x86Count) r').1 = .completed (count + x86Count)) ∨
        (∃ f k, (finish mode entry x86Count r).1 = .faulted f k ∧
          (finish mode entry' (count + x86Count) r').1 = .faulted f (count + k)) ∨
        ((finish mode entry x86Count r).1 = .switched ∧
          (finish mode entry' (count + x86Count) r').1 = .switched)) := by
  cases h with
  | @ok s s' h =>
      constructor
      · rw [Interpreter.finish, Interpreter.finish, h.defined, Machine.commit_overlay, h.cpu]
      · rw [Interpreter.finish, Interpreter.finish, h.switched]
        cases s.switched with
        | false => exact .inl ⟨rfl, rfl⟩
        | true => exact .inr (.inr ⟨rfl, rfl⟩)
  | @error stop stop' hpos hfault hstart hcpu =>
      constructor
      · rw [Interpreter.finish, Interpreter.finish, hstart.restart mode hentry, Machine.commit_overlay, hcpu]
      · refine .inr (.inl ⟨_, _, rfl, ?_⟩)
        have hindex : stop'.start.x86Index - 1 = count + (stop.start.x86Index - 1) := by
          rw [hstart.x86Index]
          omega
        rw [Interpreter.finish, hfault, hindex]

end Beside

end Interpreter

end Dynarec
