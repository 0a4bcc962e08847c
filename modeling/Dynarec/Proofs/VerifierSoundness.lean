import Dynarec.Machine
import Dynarec.Proofs.StackDepth
import Mathlib.Logic.Function.Iterate

namespace Dynarec.Body

variable {σ : Type}

/-- A body at work: in its main code, in the handler that a fault led to, or done. -/
inductive Config (σ : Type)
  | main (pc : Nat) (f : Frame σ)
  | handler (fault : Fault) (h : Handler) (pc : Nat) (f : Frame σ)
  | ended (e : Ending) (cpu : σ)

def start (b : Body) (cpu : σ) : Config σ := .main 0 (Frame.initial b.slots cpu)

def afterMain (b : Body) (mode : Mode) (x86Count pc : Nat) (f : Frame σ) : Stop → Config σ
  | .returned => .ended (if f.switched then .switched else .completed x86Count) f.cpu
  | .rethrown _ => .ended (.completed x86Count) f.cpu
  | .broken what => .ended (.broken what) f.cpu
  | .faulted fault =>
    match b.handlerFor? pc with
    | none => .ended (.faulted (mode.asDelivered fault) 0) f.cpu
    | some h => .handler (mode.asDelivered fault) h h.target { f with stack := [] }

def afterHandler (fault : Fault) (h : Handler) (f : Frame σ) : Stop → Config σ
  | .rethrown retired => .ended (.faulted fault retired) f.cpu
  | .broken what => .ended (.broken what) f.cpu
  | .returned | .faulted _ => .ended (.faulted fault h.retired) f.cpu

variable [Processor σ]

def next (b : Body) (mode : Mode) (x86Count : Nat) : Config σ → Config σ
  | .main pc f =>
    match b.code[pc]? with
    | none => .ended (.broken .ranOffEnd) f.cpu
    | some op =>
      match f.step op with
      | (none, f) => .main (pc + 1) f
      | (some stop, f) => b.afterMain mode x86Count pc f stop
  | .handler fault h pc f =>
    match b.code[pc]? with
    | none => .ended (.broken .ranOffEnd) f.cpu
    | some op =>
      match f.step op with
      | (none, f) => .handler fault h (pc + 1) f
      | (some stop, f) => afterHandler fault h f stop
  | .ended e cpu => .ended e cpu

theorem drop_eq_cons {code rest : List Op} {op : Op} {pc : Nat} (h : code.drop pc = op :: rest) :
    code[pc]? = some op ∧ code.drop (pc + 1) = rest := by
  constructor
  · rw [← List.head?_drop, h, List.head?_cons]
  · rw [← List.drop_drop, h, List.drop_succ_cons, List.drop_zero]

def advance (b : Body) (here : Nat → Frame σ → Config σ) (after : Nat → Frame σ → Stop → Config σ) (pc : Nat)
    (f : Frame σ) : Config σ :=
  match b.code[pc]? with
  | none => after pc f (.broken .ranOffEnd)
  | some op =>
    match f.step op with
    | (none, f) => here (pc + 1) f
    | (some stop, f) => after pc f stop

theorem next_main (b : Body) (mode : Mode) (x86Count pc : Nat) (f : Frame σ) :
    b.next mode x86Count (.main pc f) = b.advance .main (b.afterMain mode x86Count) pc f := by
  rw [next, advance]
  cases b.code[pc]? <;> rfl

theorem next_handler (b : Body) (mode : Mode) (x86Count : Nat) (fault : Fault) (h : Handler) (pc : Nat) (f : Frame σ) :
    b.next mode x86Count (.handler fault h pc f) =
      b.advance (.handler fault h) (fun _ => afterHandler fault h) pc f := by
  rw [next, advance]
  cases b.code[pc]? <;> rfl

theorem iterate_advance (b : Body) {next : Config σ → Config σ} {here : Nat → Frame σ → Config σ}
    {after : Nat → Frame σ → Stop → Config σ} (hnext : ∀ pc f, next (here pc f) = b.advance here after pc f) (pc : Nat)
    (f : Frame σ) :
    ∃ k, k ≤ (b.code.drop pc).length + 1 ∧ next^[k] (here pc f) =
      after (Frame.exec pc (b.code.drop pc) f).pc (Frame.exec pc (b.code.drop pc) f).frame
        (Frame.exec pc (b.code.drop pc) f).stop := by
  generalize hops : b.code.drop pc = ops
  induction ops generalizing pc f with
  | nil =>
      have hnone : b.code[pc]? = none := by rw [← List.head?_drop, hops, List.head?_nil]
      exact ⟨1, by simp, by simp [hnext, advance, hnone, Frame.exec]⟩
  | cons op rest ih =>
      obtain ⟨hop, hrest⟩ := drop_eq_cons hops
      rcases hstep : f.step op with ⟨_ | stop, g⟩
      · obtain ⟨k, hk, he⟩ := ih (pc + 1) g hrest
        refine ⟨k + 1, by simpa using hk, ?_⟩
        simpa only [Function.iterate_succ_apply, hnext, advance, hop, Frame.exec, hstep] using he
      · exact ⟨1, by simp, by simp [hnext, advance, hop, Frame.exec, hstep]⟩

theorem iterate_run (b : Body) (mode : Mode) (x86Count : Nat) (cpu : σ) :
    ∃ k, k ≤ 2 * (b.code.length + 1) ∧
      (b.next mode x86Count)^[k] (b.start cpu) =
        .ended (b.run mode x86Count cpu).1 (b.run mode x86Count cpu).2 := by
  obtain ⟨k, hk, he⟩ := b.iterate_advance (b.next_main mode x86Count) 0 (Frame.initial b.slots cpu)
  rw [List.drop_zero] at hk he
  generalize hhalt : Frame.exec 0 b.code (Frame.initial b.slots cpu) = halt at he
  obtain ⟨stop, pc, f⟩ := halt
  cases stop with
  | returned | rethrown retired | broken what =>
      refine ⟨k, by omega, ?_⟩
      simp only [start, he, run, hhalt, afterMain]
  | faulted fault =>
      cases hh : b.handlerFor? pc with
      | none =>
          refine ⟨k, by omega, ?_⟩
          simp only [start, he, run, hhalt, afterMain, runHandler, hh]
      | some h =>
          -- the ops of the handler come after those of the main code
          obtain ⟨l, hl, he'⟩ := b.iterate_advance (b.next_handler mode x86Count (mode.asDelivered fault) h) h.target
            { f with stack := [] }
          have hlen : (b.code.drop h.target).length ≤ b.code.length := by simp
          refine ⟨l + k, by omega, ?_⟩
          simp only [afterMain, hh] at he
          rw [Function.iterate_add_apply, start, he, he']
          simp only [run, hhalt, runHandler, hh]
          cases (Frame.exec h.target (b.code.drop h.target) { f with stack := [] }).stop <;> rfl

/-- From here verification follows the depth of the stack to the end of the stretch. -/
def Followed (b : Body) (maxStack : Nat) (main : Bool) (pc : Nat) (f : Frame σ) : Prop :=
  f.slots.size = b.slots ∧ ∃ deepest st,
    follow b.slots main pc f.stack.length deepest (b.code.drop pc) = .ok st ∧
      f.stack.length ≤ deepest ∧ st.deepest ≤ maxStack

def Config.Valid (b : Body) (maxStack : Nat) : Config σ → Prop
  | .main pc f => b.Followed maxStack true pc f
  | .handler _ _ pc f => b.Followed maxStack false pc f
  | .ended e _ => ∀ what, e ≠ .broken what

omit [Processor σ] in
theorem Followed.stack_le {b : Body} {maxStack pc : Nat} {main : Bool} {f : Frame σ}
    (h : b.Followed maxStack main pc f) : f.stack.length ≤ maxStack := by
  obtain ⟨_, deepest, st, hf, hd, hm⟩ := h
  have := deepest_le_of_follow hf
  omega

theorem Followed.cases {b : Body} {maxStack pc : Nat} {main : Bool} {f : Frame σ}
    (h : b.Followed maxStack main pc f) :
    ∃ op, b.code[pc]? = some op ∧ op.Allowed f ∧
      ((isEnd main op = true) ∨
        isEnd (!main) op = false ∧
          (((f.step op).1 = none ∧ b.Followed maxStack main (pc + 1) (f.step op).2) ∨
            ∃ fault, (f.step op).1 = some (.faulted fault))) := by
  obtain ⟨hs, deepest, st, hf, hd, hm⟩ := h
  cases hops : b.code.drop pc with
  | nil => simp [hops, follow] at hf
  | cons op rest =>
      obtain ⟨hop, hrest⟩ := drop_eq_cons hops
      rw [hops] at hf
      rcases follow_cons hf with ⟨he, hz, rfl⟩ | ⟨pops, pushes, _, he, hp, hf'⟩
      · refine ⟨op, hop, ?_, .inl he⟩
        cases op <;> simp_all [isEnd, Op.Allowed]
      · rw [← hs] at he
        obtain ⟨hallowed, hstep⟩ := Frame.step_of_effect he hp
        refine ⟨op, hop, hallowed, .inr ⟨?_, ?_⟩⟩
        · cases op <;> simp_all [isEnd, effect]
        · rcases hstep with ⟨hn, hl⟩ | hfault
          · rw [← hl, ← hrest] at hf'
            exact .inl ⟨hn, by rw [Frame.step_slots_size, hs], _, st, hf', Nat.le_max_right _ _, hm⟩
          · exact .inr hfault

inductive Proper : Bool → Stop → Prop
  | returned : Proper true .returned
  | rethrown (retired : Nat) : Proper false (.rethrown retired)
  | faulted (main : Bool) (fault : Fault) : Proper main (.faulted fault)

theorem Followed.advance {b : Body} {maxStack pc : Nat} {main : Bool} {f : Frame σ}
    (h : b.Followed maxStack main pc f) (here : Nat → Frame σ → Config σ) (after : Nat → Frame σ → Stop → Config σ) :
    (∃ f', b.Followed maxStack main (pc + 1) f' ∧ b.advance here after pc f = here (pc + 1) f') ∨
      ∃ f' stop, f'.slots.size = b.slots ∧ Proper main stop ∧ b.advance here after pc f = after pc f' stop := by
  obtain ⟨op, hop, _, hend | ⟨_, hstep⟩⟩ := Followed.cases h
  · cases op with
    | ret =>
        cases main with
        | true => exact .inr ⟨f, _, h.1, .returned, by simp [Body.advance, hop, Frame.step]⟩
        | false => simp [isEnd] at hend
    | rethrow retired =>
        cases main with
        | true => simp [isEnd] at hend
        | false => exact .inr ⟨f, _, h.1, .rethrown retired, by simp [Body.advance, hop, Frame.step]⟩
    | _ => cases main <;> simp [isEnd] at hend
  · have hsize := (Frame.step_slots_size op f).trans h.1
    rcases hs : f.step op with ⟨_ | stop, f'⟩
    · rw [hs] at hstep
      rcases hstep with ⟨_, hf'⟩ | ⟨_, hfault⟩
      · exact .inl ⟨f', hf', by simp [Body.advance, hop, hs]⟩
      · cases hfault
    · rw [hs] at hstep hsize
      rcases hstep with ⟨hnone, _⟩ | ⟨fault, hfault⟩
      · cases hnone
      · cases hfault
        exact .inr ⟨f', _, hsize, .faulted main fault, by simp [Body.advance, hop, hs]⟩

omit [Processor σ] in
theorem followed_start {b : Body} {maxStack : Nat} (h : b.verify = .ok maxStack) (cpu : σ) :
    b.Followed maxStack true 0 (Frame.initial b.slots cpu) := by
  obtain ⟨main, last, hmain, _, hlast, _, rfl, _⟩ := verify_ok h
  refine ⟨Table.size_replicate _ _, 0, main, hmain, Nat.le_refl _, ?_⟩
  exact (follow_of_checkHandlers hlast (rest_of_follow b.code hmain)).1

omit [Processor σ] in
theorem followed_handler {b : Body} {maxStack : Nat} (h : b.verify = .ok maxStack) {handler : Handler}
    (hh : handler ∈ b.handlers) {f : Frame σ} (hf : f.slots.size = b.slots) :
    b.Followed maxStack false handler.target { f with stack := [] } := by
  obtain ⟨main, last, hmain, _, hlast, _, rfl, _⟩ := verify_ok h
  obtain ⟨deepest, st, hst, hd⟩ :=
    (follow_of_checkHandlers hlast (rest_of_follow b.code hmain)).2 _ (target_mem_targets hh)
  exact ⟨hf, deepest, st, hst, Nat.zero_le _, hd⟩

omit [Processor σ] in
theorem valid_afterMain {b : Body} {maxStack : Nat} (h : b.verify = .ok maxStack) (mode : Mode) (x86Count pc : Nat)
    {f : Frame σ} (hf : f.slots.size = b.slots) {stop : Stop} (hs : Proper true stop) :
    (b.afterMain mode x86Count pc f stop).Valid b maxStack := by
  cases hs with
  | returned =>
      intro what
      simp only [ne_eq]
      split <;> simp
  | faulted _ fault =>
      simp only [afterMain]
      cases hh : b.handlerFor? pc with
      | none => simp [Config.Valid]
      | some handler => exact followed_handler h (List.mem_of_find?_eq_some hh) hf

/-- One op keeps the invariant. A fault in the main code starts a handler with an empty stack, and a
fault in a handler ends it. -/
theorem valid_next {b : Body} {maxStack : Nat} (h : b.verify = .ok maxStack) (mode : Mode) (x86Count : Nat)
    {c : Config σ} (hc : c.Valid b maxStack) : (b.next mode x86Count c).Valid b maxStack := by
  cases c with
  | main pc f =>
      rw [next_main]
      rcases Followed.advance hc .main (b.afterMain mode x86Count) with ⟨f', hf', he⟩ | ⟨f', stop, hsize, hstop, he⟩
      · rw [he]
        exact hf'
      · rw [he]
        exact valid_afterMain h mode x86Count pc hsize hstop
  | handler fault handler pc f =>
      rw [next_handler]
      rcases Followed.advance hc (.handler fault handler) (fun _ => afterHandler fault handler) with
        ⟨f', hf', he⟩ | ⟨f', stop, _, hstop, he⟩
      · rw [he]
        exact hf'
      · rw [he]
        cases hstop <;> simp [afterHandler, Config.Valid]
  | ended e cpu => exact hc

theorem valid_iterate {b : Body} {maxStack : Nat} (h : b.verify = .ok maxStack) (mode : Mode) (x86Count : Nat)
    (cpu : σ) (k : Nat) : ((b.next mode x86Count)^[k] (b.start cpu)).Valid b maxStack := by
  induction k with
  | zero => exact followed_start h cpu
  | succ k ih =>
      rw [Function.iterate_succ_apply']
      exact valid_next h mode x86Count ih

/-- Nothing is out of place at this point of a run: the stack is within bounds, there is an op, it
finds what it needs, and it is not the end of the other kind of code. A run that is over was not
broken off. -/
def Config.Safe (b : Body) (maxStack : Nat) : Config σ → Prop
  | .main pc f =>
    f.stack.length ≤ maxStack ∧ ∃ op, b.code[pc]? = some op ∧ op.Allowed f ∧ ∀ retired, op ≠ .rethrow retired
  | .handler _ _ pc f => f.stack.length ≤ maxStack ∧ ∃ op, b.code[pc]? = some op ∧ op.Allowed f ∧ op ≠ .ret
  | .ended e _ => ∀ what, e ≠ .broken what

theorem Config.Valid.safe {b : Body} {maxStack : Nat} {c : Config σ} (h : c.Valid b maxStack) :
    c.Safe b maxStack := by
  cases c with
  | main pc f =>
      obtain ⟨op, hop, hallowed, hend⟩ := Followed.cases h
      refine ⟨Followed.stack_le h, op, hop, hallowed, ?_⟩
      rintro retired rfl
      rcases hend with hend | ⟨hend, _⟩ <;> simp [isEnd] at hend
  | handler fault handler pc f =>
      obtain ⟨op, hop, hallowed, hend⟩ := Followed.cases h
      refine ⟨Followed.stack_le h, op, hop, hallowed, ?_⟩
      rintro rfl
      rcases hend with hend | ⟨hend, _⟩ <;> simp [isEnd] at hend
  | ended e cpu => exact h

/-- A verified body is safe on every processor: each configuration that it comes to is safe, it ends
after at most so many ops as `run` says, and no op has two handlers. -/
theorem verify_sound {b : Body} {maxStack : Nat} (h : b.verify = .ok maxStack) (mode : Mode) (x86Count : Nat)
    (cpu : σ) :
    (∀ k, ((b.next mode x86Count)^[k] (b.start cpu)).Safe b maxStack) ∧
      (∃ k, k ≤ 2 * (b.code.length + 1) ∧
        (b.next mode x86Count)^[k] (b.start cpu) =
          .ended (b.run mode x86Count cpu).1 (b.run mode x86Count cpu).2) ∧
      (∀ what, (b.run mode x86Count cpu).1 ≠ .broken what) ∧
      ∀ pc, (b.handlers.filter (·.covers pc)).length ≤ 1 := by
  obtain ⟨k, hk, he⟩ := b.iterate_run mode x86Count cpu
  have hsafe (k : Nat) := (valid_iterate h mode x86Count cpu k).safe
  refine ⟨hsafe, ⟨k, hk, he⟩, ?_, ?_⟩
  · have hend := hsafe k
    rw [he] at hend
    exact hend
  · obtain ⟨main, _, _, hranges, _⟩ := verify_ok h
    intro pc
    exact length_filter_covers_le hranges pc

def guardedDivision : Body :=
  ⟨[.constant 1, .constant 0, .apply .divQuotient, .save ⟨0⟩, .commit .eax, .ret,
    .restore ⟨0⟩, .commit .ebx, .rethrow 3], [⟨2, 3, 6, 3⟩], 1⟩

theorem verify_sound_guardedDivision :
    guardedDivision.verify = .ok 2 ∧
      (∀ k, ((guardedDivision.next .real 4)^[k] (guardedDivision.start Machine.initial)).Safe guardedDivision 2) ∧
      guardedDivision.run .real 4 Machine.initial =
        (.faulted .divideError 3, Processor.set .ebx 0 Machine.initial) := by
  have h : guardedDivision.verify = .ok 2 := rfl
  exact ⟨h, (verify_sound h .real 4 Machine.initial).1, rfl⟩

end Dynarec.Body
