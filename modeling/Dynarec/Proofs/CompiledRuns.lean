import Dynarec.Proofs.WalkSteps

namespace Dynarec

namespace Graph.Builder

theorem operands_ok {b b' : Builder} {op : MicroOp} {m : Microcode} {os : List Operand} {ns : List Node}
    (h : operands op m b os = .ok (ns, b')) :
    b'.current = b.current ∧ ∀ e, .element e ∈ os → (b.current.get e).isSome = true := by
  induction os generalizing b ns with
  | nil =>
      cases h
      exact ⟨rfl, fun e he => absurd he List.not_mem_nil⟩
  | cons o os ih =>
      rw [operands, bind_eq_ok] at h
      obtain ⟨⟨n, b₁⟩, hn, h⟩ := h
      obtain ⟨⟨ns', b₂⟩, hns, h⟩ := bind_eq_ok.mp h
      cases h
      obtain ⟨hsame, hrest⟩ := ih hns
      have hfirst : b₁.current = b.current ∧ ∀ e, .element e = o → (b.current.get e).isSome = true := by
        rcases operand_ok hn with ⟨rfl, e, rfl, he⟩ | ⟨value, hpush, hsource⟩
        · refine ⟨rfl, ?_⟩
          rintro e' ⟨⟩
          rw [he]
          rfl
        · cases hpush
          refine ⟨rfl, ?_⟩
          rintro e rfl
          rcases hsource with ⟨ho, _⟩ | ⟨ho, _⟩ <;> cases ho
      refine ⟨hsame.trans hfirst.1, ?_⟩
      intro e he
      rcases List.mem_cons.mp he with he | he
      · exact hfirst.2 e he
      · rw [← hfirst.1]
        exact hrest e he

theorem target_switchesMode {last : Nat} {op : MicroOp} {m : Microcode} {b : Builder} {t : Target}
    {r : Node × Builder} (h : target last op m b t = .ok r) (ht : t.switchesMode = true) : op.x86Index = last := by
  rw [target, bind_eq_ok] at h
  obtain ⟨⟨inputs, b₁⟩, _, h⟩ := h
  dsimp only at h
  split at h
  · cases h
  next hnot =>
    by_contra hne
    exact hnot ⟨ht, hne⟩

theorem targets_demand {last : Nat} {op : MicroOp} {m : Microcode} {b b' : Builder} {ts : List Target}
    {defined : List (Element × Node)} (h : targets last op m b ts = .ok (defined, b')) :
    b'.current = b.current ∧ defined.map Prod.fst = ts.map Target.element ∧
      ∀ t ∈ ts, (t.switchesMode = true → op.x86Index = last) ∧
        ∀ e, .element e ∈ t.inputs → (b.current.get e).isSome = true := by
  induction ts generalizing b defined with
  | nil =>
      cases h
      exact ⟨rfl, rfl, List.forall_mem_nil _⟩
  | cons t ts ih =>
      rw [targets, bind_eq_ok] at h
      obtain ⟨⟨n, b₁⟩, hn, h⟩ := h
      obtain ⟨⟨defined', b₂⟩, hrest, h⟩ := bind_eq_ok.mp h
      cases h
      obtain ⟨inputs, b₀, hin, _, hb₁⟩ := target_ok hn
      obtain ⟨hsame₀, hread⟩ := operands_ok hin
      have hsame₁ : b₁.current = b.current := by
        rw [hb₁, (unmoved_place _ _ _).current, hsame₀]
      obtain ⟨hsame, helements, hall⟩ := ih hrest
      refine ⟨hsame.trans hsame₁, congrArg (t.element :: ·) helements, ?_⟩
      rw [List.forall_mem_cons]
      refine ⟨⟨target_switchesMode hn, hread⟩, ?_⟩
      rw [hsame₁] at hall
      exact hall

theorem get_foldl_define (position : UInt32) {defined : List (Element × Node)} (b : Builder) {e : Element}
    (he : e ∉ defined.map Prod.fst) : (defined.foldl (define position) b).current.get e = b.current.get e := by
  induction defined generalizing b with
  | nil => rfl
  | cons p defined ih =>
      rw [List.map_cons, List.mem_cons, not_or] at he
      rw [List.foldl_cons, ih _ he.2]
      exact ElementMap.get_set_ne _ (Ne.symm he.1) _

theorem step_demands {mode : Mode} {last : Nat} {b b' : Builder} {op : MicroOp} (h : b.step mode last op = .ok b') :
    (op.switches mode = true → op.x86Index = last) ∧
      (∀ e, op.reads mode e = true → (b.current.get e).isSome = true) ∧
      ∀ e, op.defines mode e = false → b'.current.get e = b.current.get e := by
  obtain ⟨m, ts, defined, b₁, hm, hts, htargets, rfl⟩ := step_ok h
  obtain ⟨hsame, helements, hall⟩ := targets_demand htargets
  have hcurrent : (b.enter op.x86Index).current = b.current := by
    rw [enter]
    split <;> rfl
  rw [hcurrent] at hsame hall
  have hop := MicroOp.targets_of_eq (MicroOp.targets?_eq_some.mpr ⟨m, hm, hts⟩)
  refine ⟨?_, ?_, ?_⟩
  · intro hswitches
    rw [MicroOp.switches, hop, List.any_eq_true] at hswitches
    obtain ⟨t, ht, hswitches⟩ := hswitches
    exact (hall t ht).1 hswitches
  · intro e hreads
    rw [MicroOp.reads, hop, List.any_eq_true] at hreads
    obtain ⟨t, ht, hreads⟩ := hreads
    exact (hall t ht).2 e (List.contains_iff_mem.mp hreads)
  · intro e hdefines
    rw [MicroOp.defines, hop, List.any_eq_false] at hdefines
    rw [← hsame]
    apply get_foldl_define
    rw [helements, List.mem_map]
    rintro ⟨t, ht, rfl⟩
    exact hdefines t ht (beq_self_eq_true _)

theorem get_foldlM {mode : Mode} {last : Nat} {b b' : Builder} {ops : List MicroOp} {e : Element}
    (h : ops.foldlM (step mode last) b = .ok b') (he : ∀ op ∈ ops, op.defines mode e = false) :
    b'.current.get e = b.current.get e := by
  induction ops generalizing b with
  | nil =>
      cases h
      rfl
  | cons op ops ih =>
      rw [List.foldlM_cons, bind_eq_ok] at h
      obtain ⟨b₁, h₁, h⟩ := h
      rw [List.forall_mem_cons] at he
      rw [ih h he.2, (step_demands h₁).2.2 e he.1]

end Graph.Builder

namespace Graph

theorem isPersistent_of_entryDefinitions {e : Element} (h : (entryDefinitions.get e).isSome = true) :
    e.isPersistent = true := by
  revert h
  rw [entryDefinitions, ElementMap.get_ofFn]
  cases e <;> decide

variable {mode : Mode} {run : Run} {g : Graph}

theorem exists_steps_of_build (h : build mode run = .ok g) {before after : List MicroOp} {op : MicroOp}
    (hops : run.ops = before ++ op :: after) :
    ∃ b b', before.foldlM (Builder.step mode run.x86Count) Builder.initial = .ok b ∧
      b.step mode run.x86Count op = .ok b' := by
  obtain ⟨last, hlast, _⟩ := build_ok h
  rw [hops, List.foldlM_append, bind_eq_ok] at hlast
  obtain ⟨b, hb, hrest⟩ := hlast
  rw [List.foldlM_cons, bind_eq_ok] at hrest
  obtain ⟨b', hb', _⟩ := hrest
  exact ⟨b, b', hb, hb'⟩

theorem eq_x86Count_of_switches (h : build mode run = .ok g) {op : MicroOp} (hop : op ∈ run.ops)
    (hswitches : op.switches mode = true) : op.x86Index = run.x86Count := by
  obtain ⟨before, after, hops⟩ := List.append_of_mem hop
  obtain ⟨b, b', _, hstep⟩ := exists_steps_of_build h hops
  exact (Builder.step_demands hstep).1 hswitches

/-- What is not there on entry is defined before it is read. -/
theorem exists_defines_of_reads (h : build mode run = .ok g) {before after : List MicroOp} {op : MicroOp}
    (hops : run.ops = before ++ op :: after) {e : Element} (hreads : op.reads mode e = true)
    (he : e.isPersistent = false) : ∃ r ∈ before, r.defines mode e = true := by
  obtain ⟨b, b', hbefore, hstep⟩ := exists_steps_of_build h hops
  have hsome := (Builder.step_demands hstep).2.1 e hreads
  by_contra hnone
  push Not at hnone
  rw [Builder.get_foldlM hbefore (by simpa using hnone)] at hsome
  rw [isPersistent_of_entryDefinitions hsome] at he
  cases he

end Graph

end Dynarec
