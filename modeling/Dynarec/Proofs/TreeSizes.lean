import Dynarec.Proofs.DefinedElements

namespace Dynarec

namespace Dataflow

variable {flow flow' : Dataflow} {n : Node} {d : Definition}

/-- The size of the tree of a node. Inputs were made before the node, so `fuel` need not exceed its number. -/
def unfoldedWithin (flow : Dataflow) : Nat → Node → Nat
  | 0, _ => 0
  | fuel + 1, n =>
    match flow.get? n with
    | none => 0
    | some d => if d.isOrdered then 1 else (d.inputs.map (unfoldedWithin flow fuel)).sum + 1

/-- The number of nodes in the tree of a node, which ends at ordered nodes. What is used twice counts twice. -/
def unfoldedSize (flow : Dataflow) (n : Node) : Nat := unfoldedWithin flow (n.index + 1) n

theorem unfoldedWithin_eq (hflow : flow.WellFormed) {fuel : Nat} {n : Node} (h : n.index < fuel) :
    unfoldedWithin flow fuel n = flow.unfoldedSize n := by
  induction fuel using Nat.strongRecOn generalizing n with
  | ind fuel ih =>
      obtain ⟨fuel, rfl⟩ : ∃ k, fuel = k + 1 := ⟨fuel - 1, by omega⟩
      rw [unfoldedSize, unfoldedWithin, unfoldedWithin]
      cases hd : flow.get? n with
      | none => rfl
      | some d =>
          have hinputs : d.inputs.map (unfoldedWithin flow fuel) = d.inputs.map (unfoldedWithin flow n.index) := by
            apply List.map_congr_left
            intro i hi
            have hlt := (hflow n d hd).inputs_lt i hi
            exact (ih fuel (by omega) (by omega)).trans (ih n.index h hlt).symm
          simp only [hinputs]

theorem unfoldedSize_eq (hflow : flow.WellFormed) (hd : flow.get? n = some d) :
    flow.unfoldedSize n = if d.isOrdered then 1 else (d.inputs.map flow.unfoldedSize).sum + 1 := by
  have hinputs : d.inputs.map (unfoldedWithin flow n.index) = d.inputs.map flow.unfoldedSize := by
    apply List.map_congr_left
    intro i hi
    exact unfoldedWithin_eq hflow ((hflow n d hd).inputs_lt i hi)
  rw [unfoldedSize, unfoldedWithin, hd]
  simp only [hinputs]

theorem unfoldedSize_of_isPrefix (hflow : flow.WellFormed) (hflow' : flow'.WellFormed)
    (h : flow.definitions.toList <+: flow'.definitions.toList) (hn : n.index < flow.size) :
    flow'.unfoldedSize n = flow.unfoldedSize n := by
  induction hk : n.index using Nat.strongRecOn generalizing n with
  | ind k ih =>
      obtain ⟨d, hd⟩ := exists_get? hn
      rw [unfoldedSize_eq hflow hd, unfoldedSize_eq hflow' (get?_of_isPrefix h hd)]
      have hinputs : d.inputs.map flow'.unfoldedSize = d.inputs.map flow.unfoldedSize := by
        apply List.map_congr_left
        intro i hi
        have hlt := (hflow n d hd).inputs_lt i hi
        exact ih i.index (by omega) (by omega) rfl
      rw [hinputs]

end Dataflow

def Operand.nodeCount : Operand → Nat
  | .element _ => 0
  | .immediate | .length => 1

def Target.nodeCount (t : Target) : Nat := (t.inputs.map Operand.nodeCount).sum + 1

def MicroOp.nodeCount (mode : Mode) (op : MicroOp) : Nat := ((op.targets mode).map Target.nodeCount).sum

/-- The sizes of the trees that the elements stand for. Undefined elements have none. -/
abbrev TreeSizes := Element → Nat

namespace TreeSizes

def entry : TreeSizes := fun e => if e.isPersistent then 1 else 0

def ofOperand (s : TreeSizes) : Operand → Nat
  | .element e => s e
  | .immediate | .length => 1

def ofTarget (s : TreeSizes) (t : Target) : Nat :=
  if t.isOrdered then 1 else (t.inputs.map s.ofOperand).sum + 1

def provides (s : TreeSizes) (op : MicroOp) : Operand → Bool
  | .element e => 0 < s e
  | .immediate => op.immediate.isSome
  | .length => true

/-- The target can be compiled: its operands are there, and it switches mode only in the last instruction. -/
def admits (last : Nat) (s : TreeSizes) (op : MicroOp) (t : Target) : Bool :=
  t.inputs.all (s.provides op) && (!t.switchesMode || op.x86Index == last)

def step? (mode : Mode) (last : Nat) (s : TreeSizes) (op : MicroOp) : Option TreeSizes :=
  match op.targets? mode with
  | none => none
  | some ts =>
    if ts.all (s.admits last op) then some (ts.foldl (fun s' t => Function.update s' t.element (s.ofTarget t)) s)
    else none

end TreeSizes

namespace Graph.Builder

variable {mode : Mode} {last : Nat} {b b' : Builder} {op : MicroOp} {m : Microcode}

section NodeCounts

theorem size_push (b : Builder) (d : Definition) : (b.push d).2.dataflow.size = b.dataflow.size + 1 :=
  Dataflow.size_push _ _

theorem size_operands {os : List Operand} {ns : List Node} (h : operands op m b os = .ok (ns, b')) :
    b'.dataflow.size = b.dataflow.size + (os.map Operand.nodeCount).sum := by
  induction os generalizing b ns with
  | nil =>
      cases h
      rfl
  | cons o os ih =>
      rw [operands, bind_eq_ok] at h
      obtain ⟨⟨n, b₁⟩, hn, h⟩ := h
      obtain ⟨⟨ns', b₂⟩, hns, h⟩ := bind_eq_ok.mp h
      cases h
      have hfirst : b₁.dataflow.size = b.dataflow.size + o.nodeCount := by
        rcases operand_ok hn with ⟨rfl, e, rfl, _⟩ | ⟨value, hpush, ⟨rfl, _⟩ | ⟨rfl, _⟩⟩
        · rfl
        · cases hpush
          exact size_push b _
        · cases hpush
          exact size_push b _
      rw [ih hns, hfirst, List.map_cons, List.sum_cons, Nat.add_assoc]

theorem size_targets {ts : List Target} {defined : List (Element × Node)}
    (h : targets last op m b ts = .ok (defined, b')) :
    b'.dataflow.size = b.dataflow.size + (ts.map Target.nodeCount).sum := by
  induction ts generalizing b defined with
  | nil =>
      cases h
      rfl
  | cons t ts ih =>
      rw [targets, bind_eq_ok] at h
      obtain ⟨⟨n, b₁⟩, hn, h⟩ := h
      obtain ⟨⟨defined', b₂⟩, hrest, h⟩ := bind_eq_ok.mp h
      cases h
      obtain ⟨inputs, b₃, hin, _, rfl⟩ := target_ok hn
      rw [ih hrest, place_dataflow, Dataflow.size_push, size_operands hin, List.map_cons, List.sum_cons,
        Target.nodeCount]
      omega

theorem size_step (h : b.step mode last op = .ok b') :
    b'.dataflow.size = b.dataflow.size + op.nodeCount mode := by
  obtain ⟨m, ts, defined, b₁, hm, hts, htargets, rfl⟩ := step_ok h
  dsimp only
  rw [foldl_define_eq, size_targets htargets, enter_eq, MicroOp.nodeCount,
    MicroOp.targets_of_eq (MicroOp.targets?_eq_some.mpr ⟨m, hm, hts⟩)]

theorem size_foldlM {ops : List MicroOp} (h : ops.foldlM (step mode last) b = .ok b') :
    b'.dataflow.size = b.dataflow.size + (ops.map (MicroOp.nodeCount mode)).sum := by
  induction ops generalizing b with
  | nil =>
      cases h
      rfl
  | cons op ops ih =>
      rw [List.foldlM_cons, bind_eq_ok] at h
      obtain ⟨b₁, h₁, h⟩ := h
      rw [ih h, size_step h₁, List.map_cons, List.sum_cons, Nat.add_assoc]

end NodeCounts

def treeSize (b : Builder) : TreeSizes := fun e => ((b.current.get e).map b.dataflow.unfoldedSize).getD 0

theorem treeSize_initial : initial.treeSize = TreeSizes.entry := by
  have hall : ∀ e ∈ Element.all, initial.treeSize e = TreeSizes.entry e := by decide +kernel
  funext e
  exact hall e (Element.mem_all e)

theorem treeSize_enter (b : Builder) (x86Index : Nat) : (b.enter x86Index).treeSize = b.treeSize := by
  rw [enter_eq]
  rfl

theorem treeSize_define (position : UInt32) (b : Builder) (p : Element × Node) :
    (b.define position p).treeSize = Function.update b.treeSize p.1 (b.dataflow.unfoldedSize p.2) := by
  funext e
  change ((((b.current.set p.1 (some p.2)).get e).map _).getD 0) = _
  by_cases he : e = p.1
  · subst he
    rw [ElementMap.get_set_self, Function.update_self]
    rfl
  · rw [ElementMap.get_set_ne _ (Ne.symm he), Function.update_of_ne he]
    rfl

theorem treeSize_foldl_define (position : UInt32) {flow : Dataflow} (hflow : b.dataflow = flow) {f : Target → Nat}
    {ts : List Target} {defined : List (Element × Node)}
    (h : List.Forall₂ (fun t p => p.1 = t.element ∧ flow.unfoldedSize p.2 = f t) ts defined) :
    (defined.foldl (define position) b).treeSize =
      ts.foldl (fun s t => Function.update s t.element (f t)) b.treeSize := by
  induction h generalizing b with
  | nil => rfl
  | cons hp _ ih =>
      -- defining an element leaves the dataflow alone, so the other sizes are still those of `flow`
      rw [List.foldl_cons, List.foldl_cons, ← hp.1, ← hp.2, ← hflow, ← treeSize_define position]
      exact ih hflow

section Trees

theorem Invariant.unfoldedSize_eq (h : b.Invariant) (h' : b'.Invariant) (hgrows : Grows b b') {n : Node}
    (hn : n.index < b.dataflow.size) : b'.dataflow.unfoldedSize n = b.dataflow.unfoldedSize n :=
  Dataflow.unfoldedSize_of_isPrefix h.flow h'.flow hgrows.dataflow hn

theorem Invariant.treeSize_eq (h : b.Invariant) (h' : b'.Invariant) (hgrows : Grows b b')
    (hsame : b'.current = b.current) : b'.treeSize = b.treeSize := by
  funext e
  rw [treeSize, treeSize, hsame]
  cases he : b.current.get e with
  | none => rfl
  | some n => exact h.unfoldedSize_eq h' hgrows (h.current_lt e n he)

theorem Invariant.treeSize_operand (h : b.Invariant) {o : Operand} {n : Node}
    (ho : b.operand op m o = .ok (n, b')) :
    b'.treeSize = b.treeSize ∧ b'.dataflow.unfoldedSize n = b.treeSize.ofOperand o := by
  obtain ⟨h', hunmoved, _⟩ := h.operand ho
  rcases operand_ok ho with ⟨rfl, e, rfl, hn⟩ | ⟨value, hpush, hconstant⟩
  · refine ⟨rfl, ?_⟩
    simp [TreeSizes.ofOperand, treeSize, hn]
  · cases hpush
    refine ⟨h.treeSize_eq h' (grows_push b _) rfl, ?_⟩
    have hsize : b.treeSize.ofOperand o = 1 := by
      rcases hconstant with ⟨rfl, _⟩ | ⟨rfl, _⟩ <;> rfl
    rw [hsize, Dataflow.unfoldedSize_eq h'.flow (d := .ofConstant value op.x86Index)]
    · rfl
    · exact (Dataflow.get?_push _ _ _).trans (if_pos rfl)

theorem Invariant.unfoldedSize_operands (h : b.Invariant) {os : List Operand} {ns : List Node}
    (ho : Builder.operands op m b os = .ok (ns, b')) :
    ns.map b'.dataflow.unfoldedSize = os.map b.treeSize.ofOperand := by
  induction os generalizing b ns with
  | nil =>
      cases ho
      rfl
  | cons o os ih =>
      rw [Builder.operands, bind_eq_ok] at ho
      obtain ⟨⟨n, b₁⟩, hn, ho⟩ := ho
      obtain ⟨⟨ns', b₂⟩, hns, ho⟩ := bind_eq_ok.mp ho
      cases ho
      obtain ⟨h₁, _, hlt, _⟩ := h.operand hn
      obtain ⟨hsame, hsize⟩ := h.treeSize_operand hn
      have hhead := h₁.unfoldedSize_eq (h₁.operands hns).1 (grows_operands hns) hlt
      rw [List.map_cons, List.map_cons, hhead, hsize, ih h₁ hns, hsame]

theorem Invariant.treeSize_target (h : b.Invariant) (hpos : 1 ≤ b.start.x86Index) {t : Target} (hs : t.Sound) {n : Node}
    (ht : Builder.target last op m b t = .ok (n, b')) :
    b'.treeSize = b.treeSize ∧ b'.dataflow.unfoldedSize n = b.treeSize.ofTarget t := by
  obtain ⟨h', hunmoved, _⟩ := h.target hpos hs ht
  obtain ⟨inputs, b₁, hin, rfl, rfl⟩ := target_ok ht
  refine ⟨h.treeSize_eq h' ((grows_operands hin).trans (grows_place b₁ t _)) hunmoved.current, ?_⟩
  obtain ⟨h₁, _, hlt, _⟩ := h.operands hin
  have hd : (b₁.place t (.ofTarget m t op.x86Index inputs)).dataflow.get? b₁.dataflow.next =
      some (.ofTarget m t op.x86Index inputs) := by
    rw [place_dataflow, Dataflow.get?_push]
    exact if_pos rfl
  have hinputs : inputs.map (b₁.place t (.ofTarget m t op.x86Index inputs)).dataflow.unfoldedSize =
      t.inputs.map b.treeSize.ofOperand := by
    rw [← h.unfoldedSize_operands hin]
    exact List.map_congr_left fun i hi => h₁.unfoldedSize_eq h' (grows_place _ _ _) (hlt i hi)
  rw [Dataflow.unfoldedSize_eq h'.flow hd, TreeSizes.ofTarget, ← hinputs]
  rfl

theorem Invariant.unfoldedSize_targets (h : b.Invariant) (hpos : 1 ≤ b.start.x86Index) {ts : List Target}
    (hs : ∀ t ∈ ts, t.Sound) {defined : List (Element × Node)}
    (ht : Builder.targets last op m b ts = .ok (defined, b')) :
    List.Forall₂ (fun t p => p.1 = t.element ∧ b'.dataflow.unfoldedSize p.2 = b.treeSize.ofTarget t) ts defined := by
  induction ts generalizing b defined with
  | nil =>
      cases ht
      exact .nil
  | cons t ts ih =>
      rw [Builder.targets, bind_eq_ok] at ht
      obtain ⟨⟨n, b₁⟩, hn, ht⟩ := ht
      obtain ⟨⟨defined', b₂⟩, hrest, ht⟩ := bind_eq_ok.mp ht
      cases ht
      rw [List.forall_mem_cons] at hs
      obtain ⟨h₁, hunmoved, hlt, _⟩ := h.target hpos hs.1 hn
      obtain ⟨hsame, hsize⟩ := h.treeSize_target hpos hs.1 hn
      have hpos₁ : 1 ≤ b₁.start.x86Index := by rw [hunmoved.start]; exact hpos
      have hhead := h₁.unfoldedSize_eq (h₁.targets hpos₁ hs.2 hrest).1 (grows_targets hrest) hlt
      rw [← hsame]
      exact .cons ⟨rfl, by rw [hhead, hsize, hsame]⟩ (ih h₁ hpos₁ hs.2 hrest)

theorem Invariant.treeSize_step (h : b.Invariant) (hle : b.start.x86Index ≤ op.x86Index) (hpos : 1 ≤ op.x86Index)
    (hs : b.step mode last op = .ok b') :
    ∃ ts, op.targets? mode = some ts ∧
      b'.treeSize = ts.foldl (fun s t => Function.update s t.element (b.treeSize.ofTarget t)) b.treeSize := by
  obtain ⟨m, ts, defined, b₁, hm, hts, htargets, rfl⟩ := step_ok hs
  refine ⟨ts, MicroOp.targets?_eq_some.mpr ⟨m, hm, hts⟩, ?_⟩
  obtain ⟨hentered, hindex⟩ := h.enter hle
  have hpos₀ : 1 ≤ (b.enter op.x86Index).start.x86Index := by rw [hindex]; exact hpos
  have hsound : ∀ t ∈ ts, t.Sound := fun t ht => Rule.sound_of_mem hts ht
  obtain ⟨h₁, hunmoved, _⟩ := hentered.targets hpos₀ hsound htargets
  have hdefined := hentered.unfoldedSize_targets hpos₀ hsound htargets
  have hsame := hentered.treeSize_eq h₁ (grows_targets htargets) hunmoved.current
  rw [treeSize_enter] at hdefined hsame
  rw [← hsame] at hdefined ⊢
  exact treeSize_foldl_define op.position rfl hdefined

end Trees

section Success

theorem isSome_of_treeSize_pos {e : Element} (h : 0 < b.treeSize e) : (b.current.get e).isSome = true := by
  cases he : b.current.get e with
  | none => simp [treeSize, he] at h
  | some n => rfl

theorem exists_operand {o : Operand} (h : b.treeSize.provides op o = true) : ∃ r, b.operand op m o = .ok r := by
  cases o with
  | element e =>
      obtain ⟨n, hn⟩ := Option.isSome_iff_exists.mp (isSome_of_treeSize_pos (of_decide_eq_true h))
      exact ⟨(n, b), by rw [operand, hn]⟩
  | immediate =>
      obtain ⟨value, hvalue⟩ := Option.isSome_iff_exists.mp h
      exact ⟨_, by rw [operand, hvalue]⟩
  | length => exact ⟨_, rfl⟩

theorem Invariant.exists_operands (h : b.Invariant) {os : List Operand}
    (hos : ∀ o ∈ os, b.treeSize.provides op o = true) : ∃ r, Builder.operands op m b os = .ok r := by
  induction os generalizing b with
  | nil => exact ⟨_, rfl⟩
  | cons o os ih =>
      rw [List.forall_mem_cons] at hos
      obtain ⟨⟨n, b₁⟩, hn⟩ := exists_operand (m := m) hos.1
      rw [← (h.treeSize_operand hn).1] at hos
      obtain ⟨r, hr⟩ := ih (h.operand hn).1 hos.2
      exact ⟨_, bind_eq_ok.mpr ⟨_, hn, bind_eq_ok.mpr ⟨_, hr, rfl⟩⟩⟩

theorem Invariant.exists_target (h : b.Invariant) {t : Target} (ht : b.treeSize.admits last op t = true) :
    ∃ r, Builder.target last op m b t = .ok r := by
  rw [TreeSizes.admits, Bool.and_eq_true, List.all_eq_true] at ht
  obtain ⟨⟨inputs, b₁⟩, hin⟩ := h.exists_operands (m := m) ht.1
  have hswitch : ¬(t.switchesMode = true ∧ op.x86Index ≠ last) := by
    rintro ⟨hswitches, hne⟩
    simp [hswitches, hne] at ht
  refine ⟨(b₁.dataflow.next, b₁.place t (.ofTarget m t op.x86Index inputs)),
    bind_eq_ok.mpr ⟨(inputs, b₁), hin, ?_⟩⟩
  exact if_neg hswitch

theorem Invariant.exists_targets (h : b.Invariant) (hpos : 1 ≤ b.start.x86Index) {ts : List Target}
    (hs : ∀ t ∈ ts, t.Sound) (hts : ∀ t ∈ ts, b.treeSize.admits last op t = true) :
    ∃ r, Builder.targets last op m b ts = .ok r := by
  induction ts generalizing b with
  | nil => exact ⟨_, rfl⟩
  | cons t ts ih =>
      rw [List.forall_mem_cons] at hs hts
      obtain ⟨⟨n, b₁⟩, hn⟩ := h.exists_target (m := m) hts.1
      obtain ⟨h₁, hunmoved, _⟩ := h.target hpos hs.1 hn
      rw [← (h.treeSize_target hpos hs.1 hn).1] at hts
      obtain ⟨r, hr⟩ := ih h₁ (by rw [hunmoved.start]; exact hpos) hs.2 hts.2
      exact ⟨_, bind_eq_ok.mpr ⟨_, hn, bind_eq_ok.mpr ⟨_, hr, rfl⟩⟩⟩

/-- Steps on sizes are steps of the builder. -/
theorem Invariant.exists_step (h : b.Invariant) (hle : b.start.x86Index ≤ op.x86Index) (hpos : 1 ≤ op.x86Index)
    {s : TreeSizes} (hs : b.treeSize.step? mode last op = some s) :
    ∃ b', b.step mode last op = .ok b' ∧ b'.treeSize = s := by
  rw [TreeSizes.step?] at hs
  split at hs
  · cases hs
  next ts hts =>
    split at hs
    next hall =>
      cases hs
      obtain ⟨m, hm, hrule⟩ := MicroOp.targets?_eq_some.mp hts
      obtain ⟨hentered, hindex⟩ := h.enter hle
      rw [List.all_eq_true, ← treeSize_enter b op.x86Index] at hall
      obtain ⟨⟨defined, b₁⟩, hr⟩ := hentered.exists_targets (m := m) (by rw [hindex]; exact hpos)
        (fun t ht => Rule.sound_of_mem hrule ht) hall
      have hstep : b.step mode last op =
          .ok { defined.foldl (Builder.define op.position) b₁ with position := op.position } := by
        rw [Builder.step, MicroOp.microcode, hm]
        dsimp only [bind, Except.bind]
        rw [hrule]
        dsimp only
        rw [hr]
        rfl
      refine ⟨_, hstep, ?_⟩
      obtain ⟨ts', hts', hsizes⟩ := h.treeSize_step hle hpos hstep
      cases hts.symm.trans hts'
      exact hsizes
    · cases hs

theorem Invariant.exists_foldlM (h : b.Invariant) {ops : List MicroOp}
    (hle : ∀ op ∈ ops, b.start.x86Index ≤ op.x86Index) (hpos : ∀ op ∈ ops, 1 ≤ op.x86Index)
    (hops : ops.Pairwise (fun x y => x.x86Index ≤ y.x86Index)) {s : TreeSizes}
    (hs : ops.foldlM (TreeSizes.step? mode last) b.treeSize = some s) :
    ∃ b', ops.foldlM (Builder.step mode last) b = .ok b' ∧ b'.treeSize = s := by
  induction ops generalizing b with
  | nil =>
      cases hs
      exact ⟨b, rfl, rfl⟩
  | cons op ops ih =>
      rw [List.foldlM_cons, Option.bind_eq_bind, Option.bind_eq_some_iff] at hs
      obtain ⟨s₁, hs₁, hs⟩ := hs
      rw [List.forall_mem_cons] at hle hpos
      obtain ⟨hop, hops⟩ := List.pairwise_cons.mp hops
      obtain ⟨b₁, hb₁, rfl⟩ := h.exists_step hle.1 hpos.1 hs₁
      obtain ⟨h₁, hindex⟩ := h.step hle.1 hpos.1 hb₁
      obtain ⟨b', hb', hsizes⟩ := ih h₁ (fun op' hop' => by rw [hindex]; exact hop op' hop') hpos.2 hops hs
      exact ⟨b', by rw [List.foldlM_cons]; exact bind_eq_ok.mpr ⟨b₁, hb₁, hb'⟩, hsizes⟩

end Success

end Graph.Builder

namespace Run

variable {run : Run} {mode : Mode} {last : Nat} {b : Graph.Builder}

theorem Ordered.invariant (h : run.Ordered) (hb : run.ops.foldlM (Graph.Builder.step mode last) .initial = .ok b) :
    b.Invariant :=
  (Graph.Builder.invariant_initial.foldlM (fun _ _ => Nat.zero_le _) h.pos h.pairwise hb).1

theorem Ordered.exists_foldlM (h : run.Ordered) {s : TreeSizes}
    (hs : run.ops.foldlM (TreeSizes.step? mode last) TreeSizes.entry = some s) :
    ∃ b, run.ops.foldlM (Graph.Builder.step mode last) .initial = .ok b ∧ b.treeSize = s := by
  rw [← Graph.Builder.treeSize_initial] at hs
  exact Graph.Builder.invariant_initial.exists_foldlM (fun op _ => Nat.zero_le _) h.pos h.pairwise hs

end Run

namespace Graph

variable {mode : Mode} {run : Run} {g : Graph}

theorem size_of_build (h : build mode run = .ok g) :
    g.dataflow.size = entryDataflow.size + (run.ops.map (MicroOp.nodeCount mode)).sum := by
  obtain ⟨b, hb, rfl⟩ := build_ok h
  exact Builder.size_foldlM hb

theorem exists_build (hrun : run.Ordered) {s : TreeSizes}
    (hs : run.ops.foldlM (TreeSizes.step? mode run.x86Count) TreeSizes.entry = some s) :
    ∃ g, build mode run = .ok g := by
  obtain ⟨b, hb, _⟩ := hrun.exists_foldlM hs
  exact ⟨_, bind_eq_ok.mpr ⟨b, hb, rfl⟩⟩

theorem unfoldedSize_of_upTo (hrun : run.Ordered) (h : build mode run = .ok g) {k : Nat} {b : Builder}
    (hb : (run.upTo k).ops.foldlM (Builder.step mode run.x86Count) .initial = .ok b) {e : Element} {n : Node}
    (hn : b.current.get e = some n) : g.dataflow.unfoldedSize n = b.treeSize e := by
  obtain ⟨last, hlast, rfl⟩ := build_ok h
  have hinv := (hrun.upTo k).invariant hb
  have hinv' := hrun.invariant hlast
  rw [Run.eq_filter_append k hrun.pairwise, List.foldlM_append, bind_eq_ok] at hlast
  obtain ⟨b', hb', hrest⟩ := hlast
  cases hb'.symm.trans hb
  rw [hinv.unfoldedSize_eq hinv' (Builder.grows_foldlM hrest) (hinv.current_lt e n hn)]
  simp [Builder.treeSize, hn]

end Graph

end Dynarec
