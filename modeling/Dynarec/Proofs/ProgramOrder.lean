import Dynarec.Proofs.CompiledRuns
import Mathlib.Data.List.Forall2

namespace Dynarec

section Related

variable {α β : Type} {R : α → β → Prop} {as : List α} {bs : List β}

theorem exists_mem_right_of_forall₂ (h : List.Forall₂ R as bs) {a : α} (ha : a ∈ as) : ∃ b ∈ bs, R a b := by
  induction h with
  | nil => cases ha
  | @cons a' b as bs hab _ ih =>
      rcases List.mem_cons.mp ha with rfl | ha
      · exact ⟨b, List.mem_cons_self, hab⟩
      · obtain ⟨b', hb', hr⟩ := ih ha
        exact ⟨b', List.mem_cons_of_mem _ hb', hr⟩

theorem exists_mem_left_of_forall₂ (h : List.Forall₂ R as bs) {b : β} (hb : b ∈ bs) : ∃ a ∈ as, R a b :=
  exists_mem_right_of_forall₂ (R := fun b a => R a b) (List.Forall₂.flip h) hb

theorem pairwise_of_forall₂ {S : β → β → Prop} {T : α → α → Prop} (h : List.Forall₂ R as bs) (hbs : bs.Pairwise S)
    (hT : ∀ {a a' b b'}, b ∈ bs → b' ∈ bs → R a b → R a' b' → S b b' → T a a') : as.Pairwise T := by
  induction h with
  | nil => exact .nil
  | cons hab hrest ih =>
      obtain ⟨hb, hbs⟩ := List.pairwise_cons.mp hbs
      refine .cons ?_ (ih hbs fun hb hb' => hT (List.mem_cons_of_mem _ hb) (List.mem_cons_of_mem _ hb'))
      intro a' ha'
      obtain ⟨b', hb', hr⟩ := exists_mem_right_of_forall₂ hrest ha'
      exact hT List.mem_cons_self (List.mem_cons_of_mem _ hb') hab hr (hb b' hb')

theorem rel_of_pairwise {S : α → α → Prop} (h : as.Pairwise S) {a a' : α} (ha : a ∈ as) (ha' : a' ∈ as) (hne : a ≠ a') :
    S a a' ∨ S a' a := by
  have : Std.Symm fun x y => S x y ∨ S y x := ⟨fun _ _ => Or.symm⟩
  have hpair : as.Pairwise fun x y => S x y ∨ S y x := h.imp Or.inl
  exact hpair.forall ha ha' hne

end Related

namespace MicroOp

def canFault (mode : Mode) (op : MicroOp) : Bool := (op.targets mode).any (·.canFault)

def orderedTargets (mode : Mode) (op : MicroOp) : List (MicroOp × Target) :=
  ((op.targets mode).filter Target.isOrdered).map (op, ·)

end MicroOp

namespace Run

/-- The targets that keep their places, each with its micro-op, in program order. -/
def orderedTargets (mode : Mode) (run : Run) : List (MicroOp × Target) := run.ops.flatMap (·.orderedTargets mode)

theorem mem_orderedTargets {mode : Mode} {run : Run} {op : MicroOp} {t : Target} :
    (op, t) ∈ run.orderedTargets mode ↔ op ∈ run.ops ∧ t ∈ op.targets mode ∧ t.isOrdered = true := by
  simp only [orderedTargets, MicroOp.orderedTargets, List.mem_flatMap, List.mem_map, List.mem_filter, Prod.mk.injEq]
  constructor
  · rintro ⟨op', hop, t', ht, rfl, rfl⟩
    exact ⟨hop, ht⟩
  · rintro ⟨hop, ht⟩
    exact ⟨op, hop, t, ht, rfl, rfl⟩

theorem Ordered.pairwise_orderedTargets {run : Run} (h : run.Ordered) (mode : Mode) :
    (run.orderedTargets mode).Pairwise (fun p q => p.1.x86Index ≤ q.1.x86Index) := by
  have hop {op : MicroOp} {p : MicroOp × Target} (hp : p ∈ op.orderedTargets mode) : p.1 = op := by
    obtain ⟨t, _, rfl⟩ := List.mem_map.mp hp
    rfl
  rw [orderedTargets, List.pairwise_flatMap]
  constructor
  · intro op _
    apply List.pairwise_of_forall_mem_list
    intro p hp q hq
    rw [hop hp, hop hq]
  · refine h.pairwise.imp ?_
    intro op op' hle p hp q hq
    rw [hop hp, hop hq]
    exact hle

end Run

namespace Dataflow

def IsTarget (flow : Dataflow) (n : Node) (p : MicroOp × Target) : Prop :=
  ∃ m inputs, Microcode.ofWord? p.1.word = some m ∧ flow.get? n = some (.ofTarget m p.2 p.1.x86Index inputs)

theorem get?_of_isPrefix {flow flow' : Dataflow} (h : flow.definitions.toList <+: flow'.definitions.toList) {n : Node}
    {d : Definition} (hd : flow.get? n = some d) : flow'.get? n = some d := by
  obtain ⟨added, h⟩ := h
  have hlt := lt_size_of_get? hd
  rw [get?, ← Array.getElem?_toList] at hd ⊢
  rw [← h, List.getElem?_append_left hlt, hd]

theorem IsTarget.mono {flow flow' : Dataflow} (h : flow.definitions.toList <+: flow'.definitions.toList) {n : Node}
    {p : MicroOp × Target} (hn : flow.IsTarget n p) : flow'.IsTarget n p := by
  obtain ⟨m, inputs, hm, hd⟩ := hn
  exact ⟨m, inputs, hm, get?_of_isPrefix h hd⟩

end Dataflow

namespace Graph.Builder

variable {mode : Mode} {last : Nat} {b b' : Builder} {op : MicroOp}

theorem operands_eq {m : Microcode} {os : List Operand} {ns : List Node}
    (h : operands op m b os = .ok (ns, b')) : b' = { b with dataflow := b'.dataflow } := by
  induction os generalizing b b' ns with
  | nil =>
      cases h
      rfl
  | cons o os ih =>
      rw [operands, bind_eq_ok] at h
      obtain ⟨⟨n, b₁⟩, hn, h⟩ := h
      obtain ⟨⟨ns', b₂⟩, hns, h⟩ := bind_eq_ok.mp h
      cases h
      rcases operand_ok hn with ⟨rfl, _⟩ | ⟨value, hpush, _⟩
      · exact ih hns
      · cases hpush
        have hrest := ih hns
        exact hrest

theorem ordered_target {m : Microcode} {t : Target} {n : Node} (hm : Microcode.ofWord? op.word = some m)
    (h : target last op m b t = .ok (n, b')) :
    ∃ ns, b'.ordered.toList = b.ordered.toList ++ ns ∧
      List.Forall₂ b'.dataflow.IsTarget ns (([t].filter Target.isOrdered).map (op, ·)) := by
  obtain ⟨inputs, b₁, hin, rfl, rfl⟩ := target_ok h
  refine ⟨_, by rw [place_ordered, operands_eq hin], ?_⟩
  cases ht : t.isOrdered with
  | false => simp [ht]
  | true =>
      rw [if_pos rfl, List.filter_cons_of_pos ht]
      refine .cons ⟨m, inputs, hm, ?_⟩ .nil
      rw [place_dataflow, Dataflow.get?_push]
      exact if_pos rfl

theorem ordered_targets {m : Microcode} {ts : List Target} {defined : List (Element × Node)}
    (hm : Microcode.ofWord? op.word = some m) (h : targets last op m b ts = .ok (defined, b')) :
    ∃ ns, b'.ordered.toList = b.ordered.toList ++ ns ∧
      List.Forall₂ b'.dataflow.IsTarget ns ((ts.filter Target.isOrdered).map (op, ·)) := by
  induction ts generalizing b b' defined with
  | nil =>
      cases h
      exact ⟨[], by simp, .nil⟩
  | cons t ts ih =>
      rw [targets, bind_eq_ok] at h
      obtain ⟨⟨n, b₁⟩, hn, h⟩ := h
      obtain ⟨⟨defined', b₂⟩, hrest, h⟩ := bind_eq_ok.mp h
      cases h
      obtain ⟨ns, hns, hnodes⟩ := ordered_target hm hn
      obtain ⟨ns', hns', hnodes'⟩ := ih hrest
      refine ⟨ns ++ ns', by rw [hns', hns, List.append_assoc], ?_⟩
      rw [← List.singleton_append, List.filter_append, List.map_append]
      exact List.rel_append (hnodes.imp fun _ _ hx => hx.mono (grows_targets hrest).dataflow) hnodes'

theorem enter_eq (b : Builder) (x86Index : Nat) : b.enter x86Index = { b with start := (b.enter x86Index).start } := by
  rw [enter]
  split <;> rfl

theorem foldl_define_eq (position : UInt32) (defined : List (Element × Node)) (b : Builder) :
    defined.foldl (define position) b =
      { b with
        current := (defined.foldl (define position) b).current
        eipSynced := (defined.foldl (define position) b).eipSynced } := by
  induction defined generalizing b with
  | nil => rfl
  | cons p defined ih => exact ih (b.define position p)

theorem ordered_step (h : b.step mode last op = .ok b') :
    ∃ ns, b'.ordered.toList = b.ordered.toList ++ ns ∧
      List.Forall₂ b'.dataflow.IsTarget ns (op.orderedTargets mode) := by
  obtain ⟨m, ts, defined, b₁, hm, hts, htargets, rfl⟩ := step_ok h
  obtain ⟨ns, hns, hnodes⟩ := ordered_targets hm htargets
  rw [enter_eq] at hns
  rw [foldl_define_eq, MicroOp.orderedTargets, MicroOp.targets_of_eq (MicroOp.targets?_eq_some.mpr ⟨m, hm, hts⟩)]
  exact ⟨ns, hns, hnodes⟩

theorem ordered_foldlM {ops : List MicroOp} (h : ops.foldlM (step mode last) b = .ok b') :
    ∃ ns, b'.ordered.toList = b.ordered.toList ++ ns ∧
      List.Forall₂ b'.dataflow.IsTarget ns (ops.flatMap (·.orderedTargets mode)) := by
  induction ops generalizing b with
  | nil =>
      cases h
      exact ⟨[], by simp, .nil⟩
  | cons op ops ih =>
      rw [List.foldlM_cons, bind_eq_ok] at h
      obtain ⟨b₁, h₁, h⟩ := h
      obtain ⟨ns, hns, hnodes⟩ := ordered_step h₁
      obtain ⟨ns', hns', hnodes'⟩ := ih h
      refine ⟨ns ++ ns', by rw [hns', hns, List.append_assoc], ?_⟩
      rw [List.flatMap_cons]
      exact List.rel_append (hnodes.imp fun _ _ hx => hx.mono (grows_foldlM h).dataflow) hnodes'

def boundaryAt (b : Builder) (x86Index : Nat) : Boundary :=
  { x86Index
    position := b.position
    snapshot := b.current.changedFrom entryDefinitions
    eip := (b.current.get .eip).getD entryEip
    eipLag := b.position - b.eipSynced
    nodes := [] }

end Graph.Builder

namespace Boundary

open Dynarec.Graph

/-- Apart from its nodes, the boundary is what the micro-ops of earlier instructions leave. -/
def IsStart (mode : Mode) (last : Nat) (ops : List MicroOp) (bd : Boundary) : Prop :=
  ∃ b, (ops.filter (·.x86Index < bd.x86Index)).foldlM (Builder.step mode last) Builder.initial = .ok b ∧
    bd = { b.boundaryAt bd.x86Index with nodes := bd.nodes }

theorem IsStart.with_nodes {mode : Mode} {last : Nat} {ops : List MicroOp} {bd : Boundary} (h : bd.IsStart mode last ops)
    (nodes : List Node) : IsStart mode last ops { bd with nodes } := by
  obtain ⟨b, hb, hbd⟩ := h
  refine ⟨b, hb, ?_⟩
  rw [hbd]
  rfl

theorem IsStart.append {mode : Mode} {last : Nat} {ops : List MicroOp} {bd : Boundary} (h : bd.IsStart mode last ops)
    {op : MicroOp} (hop : bd.x86Index ≤ op.x86Index) : bd.IsStart mode last (ops ++ [op]) := by
  obtain ⟨b, hb, hbd⟩ := h
  refine ⟨b, ?_, hbd⟩
  rw [List.filter_append, List.filter_cons_of_neg (by simpa using hop), List.filter_nil, List.append_nil]
  exact hb

end Boundary

namespace Graph.Builder

variable {mode : Mode} {last : Nat} {b b' : Builder} {op : MicroOp}

theorem mem_boundaries_place {t : Target} {d : Definition} {bd : Boundary}
    (h : bd ∈ (b.place t d).boundaries.toList) :
    bd ∈ b.boundaries.toList ∨
      ∃ bd₀, (bd₀ ∈ b.boundaries.toList ∨ bd₀ = { b.start with nodes := [] }) ∧ bd₀.x86Index = b.start.x86Index ∧
        bd = { bd₀ with nodes := bd₀.nodes ++ [b.dataflow.next] } := by
  rw [place_boundaries] at h
  split at h
  · rcases protect_cases b b.dataflow.next with ⟨older, last, hlast, hindex, hp⟩ | ⟨_, hp⟩
    · rw [hp, List.mem_append, List.mem_singleton] at h
      rcases h with h | rfl
      · exact .inl (by rw [hlast]; exact List.mem_append_left _ h)
      · exact .inr ⟨last, .inl (by simp [hlast]), hindex, rfl⟩
    · rw [hp, List.mem_append, List.mem_singleton] at h
      rcases h with h | rfl
      · exact .inl h
      · exact .inr ⟨_, .inr rfl, rfl, rfl⟩
  · exact .inl h

theorem boundaries_targets {P : Boundary → Prop} (hP : ∀ bd nodes, P bd → P { bd with nodes }) {m : Microcode}
    {ts : List Target} {defined : List (Element × Node)} (h : targets last op m b ts = .ok (defined, b'))
    (hstart : P b.start) (hbds : ∀ bd ∈ b.boundaries.toList, P bd) : ∀ bd ∈ b'.boundaries.toList, P bd := by
  induction ts generalizing b b' defined with
  | nil =>
      cases h
      exact hbds
  | cons t ts ih =>
      rw [targets, bind_eq_ok] at h
      obtain ⟨⟨n, b₁⟩, hn, h⟩ := h
      obtain ⟨⟨defined', b₂⟩, hrest, h⟩ := bind_eq_ok.mp h
      cases h
      obtain ⟨inputs, b₀, hin, rfl, rfl⟩ := target_ok hn
      have hb₀ := operands_eq hin
      apply ih hrest
      · rw [(unmoved_place _ _ _).start, hb₀]
        exact hstart
      · intro bd hbd
        rcases mem_boundaries_place hbd with hbd | ⟨bd₀, hbd₀ | rfl, _, rfl⟩
        · rw [hb₀] at hbd
          exact hbds bd hbd
        · rw [hb₀] at hbd₀
          exact hP _ _ (hbds bd₀ hbd₀)
        · rw [hb₀]
          exact hP _ _ (hP _ _ hstart)

def Indexed (b : Builder) : Prop :=
  ∀ bd ∈ b.boundaries.toList, ∀ n ∈ bd.nodes, ∃ d, b.dataflow.get? n = some d ∧ d.x86Index = bd.x86Index

theorem Indexed.mono (h : b.Indexed) (hbds : b'.boundaries = b.boundaries)
    (hgrows : b.dataflow.definitions.toList <+: b'.dataflow.definitions.toList) : b'.Indexed := by
  intro bd hbd n hn
  rw [hbds] at hbd
  obtain ⟨d, hd, hindex⟩ := h bd hbd n hn
  exact ⟨d, Dataflow.get?_of_isPrefix hgrows hd, hindex⟩

theorem Indexed.place (h : b.Indexed) {t : Target} {d : Definition} (hd : d.x86Index = b.start.x86Index) :
    (b.place t d).Indexed := by
  have hold (n : Node) (d' : Definition) (hn : b.dataflow.get? n = some d') : (b.place t d).dataflow.get? n = some d' := by
    rw [place_dataflow]
    exact Dataflow.get?_push_of_get? hn d
  intro bd hbd n hn
  rcases mem_boundaries_place hbd with hbd | ⟨bd₀, hbd₀, hindex, rfl⟩
  · obtain ⟨d', hd', hindex⟩ := h bd hbd n hn
    exact ⟨d', hold n d' hd', hindex⟩
  · rcases List.mem_append.mp hn with hn | hn
    · rcases hbd₀ with hbd₀ | rfl
      · obtain ⟨d', hd', hindex'⟩ := h bd₀ hbd₀ n hn
        exact ⟨d', hold n d' hd', hindex'⟩
      · cases hn
    · refine ⟨d, ?_, hd.trans hindex.symm⟩
      rw [List.mem_singleton.mp hn, place_dataflow, Dataflow.get?_push]
      exact if_pos rfl

theorem Indexed.targets {m : Microcode} {ts : List Target} {defined : List (Element × Node)} (hb : b.Indexed)
    (hindex : b.start.x86Index = op.x86Index) (h : targets last op m b ts = .ok (defined, b')) : b'.Indexed := by
  induction ts generalizing b b' defined with
  | nil =>
      cases h
      exact hb
  | cons t ts ih =>
      rw [Builder.targets, bind_eq_ok] at h
      obtain ⟨⟨n, b₁⟩, hn, h⟩ := h
      obtain ⟨⟨defined', b₂⟩, hrest, h⟩ := bind_eq_ok.mp h
      cases h
      obtain ⟨inputs, b₀, hin, rfl, rfl⟩ := target_ok hn
      have hb₀ := operands_eq hin
      have hstart : b₀.start.x86Index = op.x86Index := by rw [hb₀]; exact hindex
      apply ih _ _ hrest
      · exact (hb.mono (by rw [hb₀]) (grows_operands hin).dataflow).place hstart.symm
      · rw [(unmoved_place _ _ _).start]
        exact hstart

structure Recorded (mode : Mode) (last : Nat) (ops : List MicroOp) (b : Builder) : Prop where
  walked : ops.foldlM (step mode last) initial = .ok b
  invariant : b.Invariant
  start : b.start.IsStart mode last ops
  latest : ∀ op ∈ ops, op.x86Index ≤ b.start.x86Index
  boundaries : ∀ bd ∈ b.boundaries.toList, bd.IsStart mode last ops
  indexed : b.Indexed

theorem recorded_initial (mode : Mode) (last : Nat) : Recorded mode last [] initial where
  walked := rfl
  invariant := invariant_initial
  start := ⟨initial, rfl, by decide⟩
  latest := by simp
  boundaries := by simp [initial]
  indexed := by simp [Indexed, initial]

theorem Recorded.enter {ops : List MicroOp} (h : Recorded mode last ops b) (hle : b.start.x86Index ≤ op.x86Index) :
    (b.enter op.x86Index).start.IsStart mode last (ops ++ [op]) := by
  rw [Builder.enter]
  split
  next heq => exact h.start.append hle
  next hne =>
    refine ⟨b, ?_, rfl⟩
    have hall : ops.filter (·.x86Index < op.x86Index) = ops := by
      rw [List.filter_eq_self]
      intro x hx
      have := h.latest x hx
      simp only [decide_eq_true_eq]
      omega
    dsimp only
    rw [List.filter_append, hall, List.filter_cons_of_neg (by simp), List.filter_nil, List.append_nil]
    exact h.walked

theorem Recorded.step {ops : List MicroOp} (h : Recorded mode last ops b) (hle : b.start.x86Index ≤ op.x86Index)
    (hpos : 1 ≤ op.x86Index) (hs : b.step mode last op = .ok b') : Recorded mode last (ops ++ [op]) b' := by
  obtain ⟨hinv, hindex⟩ := h.invariant.step hle hpos hs
  have hwalked : (ops ++ [op]).foldlM (Builder.step mode last) initial = .ok b' := by
    rw [List.foldlM_append, bind_eq_ok]
    refine ⟨b, h.walked, ?_⟩
    rw [List.foldlM_cons, bind_eq_ok]
    exact ⟨b', hs, rfl⟩
  obtain ⟨m, ts, defined, b₁, hm, hts, htargets, rfl⟩ := step_ok hs
  obtain ⟨hentered, hentry⟩ := h.invariant.enter hle
  have hstart : b₁.start = (b.enter op.x86Index).start :=
    (hentered.targets (by rw [hentry]; exact hpos) (fun t ht => Rule.sound_of_mem hts ht) htargets).2.1.start
  have hbds : ∀ bd ∈ b₁.boundaries.toList, bd.IsStart mode last (ops ++ [op]) := by
    refine boundaries_targets (fun bd nodes hbd => hbd.with_nodes nodes) htargets (h.enter hle) ?_
    intro bd hbd
    rw [enter_eq] at hbd
    exact (h.boundaries bd hbd).append ((h.invariant.latest bd hbd).trans hle)
  have hindexed : b₁.Indexed := by
    apply Indexed.targets _ hentry htargets
    rw [enter_eq]
    exact h.indexed
  rw [foldl_define_eq] at hwalked hinv hindex ⊢
  refine ⟨hwalked, hinv, ?_, ?_, hbds, hindexed⟩
  · dsimp only
    rw [hstart]
    exact h.enter hle
  · rw [hindex]
    intro x hx
    rcases List.mem_append.mp hx with hx | hx
    · exact (h.latest x hx).trans hle
    · rw [List.mem_singleton.mp hx]

/-- What each micro-op preserves holds after a walk over micro-ops that never go back to an earlier
instruction. -/
theorem foldlM_induction {P : List MicroOp → Builder → Prop} (hinitial : P [] initial)
    (hstep : ∀ ops b op b', P ops b → b.Invariant → b.start.x86Index ≤ op.x86Index → 1 ≤ op.x86Index →
      b.step mode last op = .ok b' → P (ops ++ [op]) b')
    {ops : List MicroOp} (hpos : ∀ op ∈ ops, 1 ≤ op.x86Index)
    (hops : ops.Pairwise (fun x y => x.x86Index ≤ y.x86Index))
    (h : ops.foldlM (step mode last) initial = .ok b) : P ops b := by
  -- what is done of the walk, and what is left
  have hwalk (before after : List MicroOp) (b₀ : Builder) (hP : P before b₀) (hb₀ : b₀.Invariant)
      (hle : ∀ op ∈ after, b₀.start.x86Index ≤ op.x86Index) (hpos : ∀ op ∈ after, 1 ≤ op.x86Index)
      (hops : after.Pairwise (fun x y => x.x86Index ≤ y.x86Index)) (h : after.foldlM (step mode last) b₀ = .ok b) :
      P (before ++ after) b := by
    induction after generalizing before b₀ with
    | nil =>
        cases h
        rw [List.append_nil]
        exact hP
    | cons op after ih =>
        rw [List.foldlM_cons, bind_eq_ok] at h
        obtain ⟨b₁, h₁, h⟩ := h
        obtain ⟨hop, hops⟩ := List.pairwise_cons.mp hops
        rw [List.forall_mem_cons] at hle hpos
        obtain ⟨hb₁, hindex⟩ := hb₀.step hle.1 hpos.1 h₁
        rw [List.append_cons]
        apply ih _ b₁ (hstep before b₀ op b₁ hP hb₀ hle.1 hpos.1 h₁) hb₁ _ hpos.2 hops h
        intro op' h'
        rw [hindex]
        exact hop op' h'
  exact hwalk [] ops initial hinitial invariant_initial (fun op _ => Nat.zero_le _) hpos hops h

end Graph.Builder

namespace Graph

variable {mode : Mode} {run : Run} {g : Graph}

theorem recorded_of_build (hrun : run.Ordered) (h : build mode run = .ok g) :
    ∃ b, Builder.Recorded mode run.x86Count run.ops b ∧
      g = ⟨mode, b.dataflow, b.ordered.toList, b.current.changedFrom entryDefinitions, b.boundaries.toList⟩ := by
  obtain ⟨b, hb, hg⟩ := build_ok h
  exact ⟨b, Builder.foldlM_induction (Builder.recorded_initial mode run.x86Count)
    (fun _ _ _ _ hrec _ hle hpos hs => hrec.step hle hpos hs) hrun.pos hrun.pairwise hb, hg⟩

theorem forall₂_ordered (h : build mode run = .ok g) :
    List.Forall₂ g.dataflow.IsTarget g.ordered (run.orderedTargets mode) := by
  obtain ⟨b, hb, rfl⟩ := build_ok h
  obtain ⟨ns, hns, hnodes⟩ := Builder.ordered_foldlM hb
  dsimp only
  rw [hns]
  exact hnodes

theorem isStart_of_mem_boundaries (hrun : run.Ordered) (h : build mode run = .ok g) {bd : Boundary}
    (hbd : bd ∈ g.boundaries) : bd.IsStart mode run.x86Count run.ops := by
  obtain ⟨b, hb, rfl⟩ := recorded_of_build hrun h
  exact hb.boundaries bd hbd

theorem x86Index_of_mem_nodes (hrun : run.Ordered) (h : build mode run = .ok g) {bd : Boundary}
    (hbd : bd ∈ g.boundaries) {n : Node} (hn : n ∈ bd.nodes) :
    ∃ d, g.dataflow.get? n = some d ∧ d.x86Index = bd.x86Index := by
  obtain ⟨b, hb, rfl⟩ := recorded_of_build hrun h
  exact hb.indexed bd hbd n hn

theorem pairwise_boundaries (hrun : run.Ordered) (h : build mode run = .ok g) :
    g.boundaries.Pairwise (fun x y => x.x86Index < y.x86Index) := by
  obtain ⟨b, hb, rfl⟩ := recorded_of_build hrun h
  exact hb.invariant.increasing

theorem pairwise_ordered (hrun : run.Ordered) (h : build mode run = .ok g) :
    g.ordered.Pairwise fun a b => ∀ d d', g.dataflow.get? a = some d → g.dataflow.get? b = some d' →
      d.x86Index ≤ d'.x86Index := by
  refine pairwise_of_forall₂ (forall₂_ordered h) (hrun.pairwise_orderedTargets mode) ?_
  rintro a b p q _ _ ⟨_, _, _, hp⟩ ⟨_, _, _, hq⟩ hle d d' hd hd'
  cases hp.symm.trans hd
  cases hq.symm.trans hd'
  exact hle

theorem exists_boundary_iff (hrun : run.Ordered) (h : build mode run = .ok g) {i : Nat} :
    (∃ bd ∈ g.boundaries, bd.x86Index = i) ↔ ∃ op ∈ run.ops, op.x86Index = i ∧ op.canFault mode = true := by
  have hg := wellFormed_of_build hrun h
  constructor
  · rintro ⟨bd, hbd, rfl⟩
    obtain ⟨n, hn⟩ := List.exists_mem_of_ne_nil _ (hg.boundaries bd hbd).2.1
    obtain ⟨d, hd, hindex⟩ := x86Index_of_mem_nodes hrun h hbd hn
    obtain ⟨⟨op, t⟩, hmem, m, inputs, _, htarget⟩ :=
      exists_mem_right_of_forall₂ (forall₂_ordered h) (hg.mem_ordered_of_boundary hbd hn)
    cases hd.symm.trans htarget
    have hfaulting : n ∈ g.boundaries.flatMap (·.nodes) := List.mem_flatMap.mpr ⟨bd, hbd, hn⟩
    rw [hg.faulting] at hfaulting
    obtain ⟨d', hd', hfault⟩ := Dataflow.mem_nodesWhere.mp hfaulting
    cases hd.symm.trans hd'
    obtain ⟨hop, ht, _⟩ := Run.mem_orderedTargets.mp hmem
    exact ⟨op, hop, hindex, List.any_eq_true.mpr ⟨t, ht, hfault⟩⟩
  · rintro ⟨op, hop, rfl, hfaults⟩
    obtain ⟨t, ht, hfault⟩ := List.any_eq_true.mp hfaults
    have hordered : t.isOrdered = true := by simp [Target.isOrdered, hfault]
    obtain ⟨n, _, m, inputs, _, htarget⟩ :=
      exists_mem_left_of_forall₂ (forall₂_ordered h) (Run.mem_orderedTargets.mpr ⟨hop, ht, hordered⟩)
    have hfaulting : n ∈ g.dataflow.nodesWhere (·.canFault) := Dataflow.mem_nodesWhere.mpr ⟨_, htarget, hfault⟩
    rw [← hg.faulting] at hfaulting
    obtain ⟨bd, hbd, hn⟩ := List.mem_flatMap.mp hfaulting
    obtain ⟨d, hd, hindex⟩ := x86Index_of_mem_nodes hrun h hbd hn
    cases hd.symm.trans htarget
    exact ⟨bd, hbd, hindex.symm⟩

end Graph

end Dynarec
