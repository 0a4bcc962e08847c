import Dynarec.Proofs.EvaluationTrace
import Dynarec.Proofs.GeneratedVerifies

namespace Dynarec

def Fragment.IsQuiet (f : Fragment) : Prop :=
  ∀ (σ : Type) [Processor σ] (a : Nat → UInt32) (cpu : σ), ∃ v, f.perform a cpu = (.value v, cpu)

theorem Fragment.isQuiet_of_isPure {f : Fragment} (h : f.isPure = true) : f.IsQuiet := by
  intro σ _ a cpu
  obtain ⟨v, hv⟩ := Fragment.perform_of_isPure (σ := σ) h a
  exact ⟨v, hv cpu⟩

def Op.isQuiet : Op → Bool
  | .apply f => f.isPure
  | .commit _ | .ret | .rethrow _ => false
  | .read _ | .constant _ | .save _ | .restore _ | .discard => true

namespace Emission

variable {flow : Dataflow} {status : Table Node Status} {needsSlot : Table Node Bool}

theorem isQuiet_leafOp? {k : Kind} {op : Op} (h : leafOp? k = some op) : op.isQuiet = true := by
  rcases read_or_constant_of_leafOp? h with ⟨e, rfl⟩ | ⟨value, rfl⟩ <;> rfl

theorem isQuiet_saves (s : Emission) (n : Node) : ∀ op ∈ saves needsSlot s n, op.isQuiet = true := by
  rw [saves]
  split <;> simp [Op.isQuiet]

theorem Emits.isQuiet (hflow : flow.WellFormed) {s s' : Emission} {ns : List Node} {ops : List Op}
    (h : Emits flow needsSlot s ns ops s') : ∀ op ∈ ops, op.isQuiet = true := by
  induction h with
  | nil s => exact List.forall_mem_nil _
  | restore _ _ ih => exact List.forall_mem_cons.mpr ⟨rfl, ih⟩
  | leaf _ _ _ hop _ ih =>
      exact List.forall_mem_cons.mpr ⟨isQuiet_leafOp? hop, List.forall_mem_append.mpr ⟨isQuiet_saves _ _, ih⟩⟩
  | op _ hd ho hk _ _ ihin ih =>
      refine List.forall_mem_append.mpr ⟨ihin, List.forall_mem_cons.mpr ⟨(hflow _ _ hd).isPure _ _ _ hk ho, ?_⟩⟩
      exact List.forall_mem_append.mpr ⟨isQuiet_saves _ _, ih⟩

theorem Fresh.isQuiet (hflow : flow.WellFormed) {ns : List Node} {ops : List Op} (h : Fresh flow status ns ops) :
    ∀ op ∈ ops, op.isQuiet = true := by
  induction h with
  | nil => exact List.forall_mem_nil _
  | restore _ _ _ _ ih => exact List.forall_mem_cons.mpr ⟨rfl, ih⟩
  | leaf _ _ hop _ ih => exact List.forall_mem_cons.mpr ⟨isQuiet_leafOp? hop, ih⟩
  | op hd ho hk _ _ ihin ih =>
      exact List.forall_mem_append.mpr ⟨ihin, List.forall_mem_cons.mpr ⟨(hflow _ _ hd).isPure _ _ _ hk ho, ih⟩⟩

theorem isQuiet_catchUp (mode : Mode) (eipLag : UInt32) (e : Element) : ∀ op ∈ catchUp mode eipLag e, op.isQuiet = true := by
  rw [catchUp]
  split
  · cases mode <;> simp [Op.isQuiet, Rule.advance, Rule.isWide, Fragment.isPure]
  · exact List.forall_mem_nil _

theorem FreshState.isQuiet {g : Graph} (hflow : g.dataflow.WellFormed) {eipLag : UInt32} {ps : List (Element × Node)}
    {ops : List Op} (h : FreshState g status eipLag ps ops) : ∀ op ∈ ops, op.isQuiet = true := by
  induction h with
  | nil => exact List.forall_mem_nil _
  | cons hp _ ih =>
      exact List.forall_mem_append.mpr ⟨hp.isQuiet hflow, List.forall_mem_append.mpr ⟨isQuiet_catchUp _ _ _, ih⟩⟩

structure Handled (g : Graph) (status : Table Node Status) (applyAt : Table Node (Option Nat)) (code : List Op)
    (h : Handler) (bd : Boundary) : Prop where
  range : ∃ last, Body.protectedRange? applyAt bd.nodes = some (h.start, last) ∧ h.stop = last + 1
  retired : h.retired = bd.x86Index - 1
  body : ∃ pushes rest, code.drop h.target =
      pushes ++ (Body.commits (Body.handlerState bd) ++ .rethrow (bd.x86Index - 1) :: rest) ∧
    FreshState g status bd.eipLag (Body.handlerState bd) pushes

theorem Handled.retired_succ {g : Graph} (hg : g.WellFormed) {applyAt : Table Node (Option Nat)} {code : List Op} {h : Handler}
    {bd : Boundary} (hh : Handled g status applyAt code h bd) (hbd : bd ∈ g.boundaries) : h.retired + 1 = bd.x86Index := by
  rw [hh.retired]
  exact Nat.sub_add_cancel (hg.boundaries bd hbd).1

theorem Handles.forall₂_handled {g : Graph} {applyAt : Table Node (Option Nat)} {target : Nat} {bds : List Boundary}
    {ops : List Op} {hs : List Handler} (h : Handles g status applyAt target bds ops hs) {before : List Op}
    (hbefore : before.length = target) : List.Forall₂ (Handled g status applyAt (before ++ ops)) hs bds := by
  induction h generalizing before with
  | nil target => exact .nil
  | @cons target first last bd bds ops ops' hs hrange hstate h ih =>
      refine .cons ⟨⟨last, hrange, rfl⟩, rfl, ops, ops', ?_, hstate⟩ ?_
      · exact List.drop_left' hbefore
      · have hlength : (before ++ (ops ++ (Body.commits (Body.handlerState bd) ++ [Op.rethrow (bd.x86Index - 1)]))).length =
            target + ops.length + (Body.handlerState bd).length + 1 := by
          simp [Body.commits, hbefore]
          omega
        simpa using ih hlength

end Emission

namespace Body

open Emission

variable {g : Graph} {b : Body}

theorem Layout.forall₂_handled (l : Layout g b) :
    List.Forall₂ (Handled g l.main.status l.main.applyAt b.code) b.handlers g.boundaries := by
  have hlength : (l.turns ++ (l.pushes ++ (commits g.sinks ++ [Op.ret]))).length =
      l.turns.length + l.pushes.length + g.sinks.length + 1 := by
    simp [commits]
    omega
  have hcode : b.code = (l.turns ++ (l.pushes ++ (commits g.sinks ++ [Op.ret]))) ++ l.handlerOps := by
    rw [l.code_eq]
    simp
  rw [hcode]
  exact l.handlers_spec.forall₂_handled hlength

structure Protects (place : Node → Nat) (h : Handler) (bd : Boundary) : Prop where
  inside : ∀ n ∈ bd.nodes, h.start ≤ place n ∧ place n < h.stop
  first : ∃ n ∈ bd.nodes, place n = h.start
  last : ∃ n ∈ bd.nodes, place n + 1 = h.stop

theorem Layout.protects (hg : g.WellFormed) (l : Layout g b) {h : Handler} {bd : Boundary} (hbd : bd ∈ g.boundaries)
    (hh : Handled g l.main.status l.main.applyAt b.code h bd) : Protects l.main.place h bd := by
  obtain ⟨last, hrange, hstop⟩ := hh.range
  obtain ⟨first', last', hrange', hall, hfirst, n, hn, hlast⟩ := exists_protectedRange? (hg.boundaries bd hbd).2.1
    (fun n hn => ((places_of_turns hg l.turns_spec l.pushes_spec).1 n (hg.mem_ordered_of_boundary hbd hn)).1)
  cases hrange.symm.trans hrange'
  refine ⟨?_, hfirst, n, hn, by omega⟩
  intro n hn
  have := hall n hn
  omega

theorem Layout.pairwise_boundaries (hg : g.WellFormed) (l : Layout g b) :
    g.boundaries.Pairwise fun bd bd' => ∀ n ∈ bd.nodes, ∀ n' ∈ bd'.nodes, l.main.place n < l.main.place n' := by
  have hpair := (places_of_turns hg l.turns_spec l.pushes_spec).2
  rw [hg.ordered] at hpair
  have hfaulting : (g.boundaries.flatMap (·.nodes)).Pairwise fun a c => l.main.place a < l.main.place c := by
    rw [hg.faulting]
    apply hpair.sublist (Dataflow.nodesWhere_sublist _ _)
    intro d hd
    simp [Definition.isOrdered, hd]
  exact (List.pairwise_flatMap.mp hfaulting).2

theorem Layout.pairwise_ranges (hg : g.WellFormed) (l : Layout g b) :
    b.handlers.Pairwise fun h h' => h.stop ≤ h'.start := by
  apply pairwise_of_forall₂ l.forall₂_handled (l.pairwise_boundaries hg)
  intro h h' bd bd' hbd hbd' hh hh' hlt
  obtain ⟨n, hn, hlast⟩ := (l.protects hg hbd hh).last
  obtain ⟨n', hn', hfirst⟩ := (l.protects hg hbd' hh').first
  have := hlt n hn n' hn'
  omega

section

variable {mode : Mode} {run : Run}

theorem Layout.pairwise_retired (hrun : run.Ordered) (hbuild : Graph.build mode run = .ok g) (l : Layout g b) :
    b.handlers.Pairwise fun h h' => h.retired < h'.retired := by
  have hg := Graph.wellFormed_of_build hrun hbuild
  apply pairwise_of_forall₂ l.forall₂_handled (Graph.pairwise_boundaries hrun hbuild)
  intro h h' bd bd' hbd hbd' hh hh' hlt
  have hretired := hh.retired_succ hg hbd
  have hretired' := hh'.retired_succ hg hbd'
  omega

theorem Layout.x86Index_le (hrun : run.Ordered) (hbuild : Graph.build mode run = .ok g) (l : Layout g b)
    {n n' : Node} (hn : n ∈ g.ordered) (hn' : n' ∈ g.ordered) (hle : l.main.place n ≤ l.main.place n')
    {d d' : Definition} (hd : g.dataflow.get? n = some d) (hd' : g.dataflow.get? n' = some d') :
    d.x86Index ≤ d'.x86Index := by
  have hg := Graph.wellFormed_of_build hrun hbuild
  have hpair := (places_of_turns hg l.turns_spec l.pushes_spec).2.and (Graph.pairwise_ordered hrun hbuild)
  by_cases heq : n = n'
  · subst heq
    cases hd.symm.trans hd'
    exact Nat.le_refl _
  · rcases rel_of_pairwise hpair hn hn' heq with ⟨_, hindex⟩ | ⟨hlt, _⟩
    · exact hindex d d' hd hd'
    · omega

theorem Layout.exists_handler_iff (hrun : run.Ordered) (hbuild : Graph.build mode run = .ok g) (l : Layout g b) (i : Nat) :
    (∃ h ∈ b.handlers, h.retired + 1 = i) ↔ ∃ op ∈ run.ops, op.x86Index = i ∧ op.canFault mode = true := by
  have hg := Graph.wellFormed_of_build hrun hbuild
  rw [← Graph.exists_boundary_iff hrun hbuild]
  constructor
  · rintro ⟨h, hh, rfl⟩
    obtain ⟨bd, hbd, hhandled⟩ := exists_mem_right_of_forall₂ l.forall₂_handled hh
    exact ⟨bd, hbd, (hhandled.retired_succ hg hbd).symm⟩
  · rintro ⟨bd, hbd, rfl⟩
    obtain ⟨h, hh, hhandled⟩ := exists_mem_left_of_forall₂ l.forall₂_handled hbd
    exact ⟨h, hh, hhandled.retired_succ hg hbd⟩

theorem Layout.range_of_mem (hg : g.WellFormed) (l : Layout g b) {h : Handler} (hh : h ∈ b.handlers) :
    h.start < h.stop ∧ h.stop ≤ l.turns.length := by
  obtain ⟨bd, hbd, hhandled⟩ := exists_mem_right_of_forall₂ l.forall₂_handled hh
  have hprotects := l.protects hg hbd hhandled
  obtain ⟨n, hn, hlast⟩ := hprotects.last
  have hinside := hprotects.inside n hn
  have hplace := ((places_of_turns hg l.turns_spec l.pushes_spec).1 n (hg.mem_ordered_of_boundary hbd hn)).2
  omega

theorem Layout.exists_covers (hrun : run.Ordered) (hbuild : Graph.build mode run = .ok g) (l : Layout g b) {n : Node}
    {d : Definition} (hd : g.dataflow.get? n = some d) (hfault : d.canFault = true) :
    ∃ h ∈ b.handlers, h.retired + 1 = d.x86Index ∧ h.covers (l.main.place n) = true := by
  have hg := Graph.wellFormed_of_build hrun hbuild
  have hmem : n ∈ g.dataflow.nodesWhere (·.canFault) := Dataflow.mem_nodesWhere.mpr ⟨d, hd, hfault⟩
  rw [← hg.faulting] at hmem
  obtain ⟨bd, hbd, hn⟩ := List.mem_flatMap.mp hmem
  obtain ⟨h, hh, hhandled⟩ := exists_mem_left_of_forall₂ l.forall₂_handled hbd
  obtain ⟨d', hd', hindex⟩ := Graph.x86Index_of_mem_nodes hrun hbuild hbd hn
  cases hd.symm.trans hd'
  have hinside := (l.protects hg hbd hhandled).inside n hn
  refine ⟨h, hh, (hhandled.retired_succ hg hbd).trans hindex.symm, ?_⟩
  rw [Handler.covers, decide_eq_true hinside.1, decide_eq_true hinside.2]
  rfl

/-- An entry covers no ordered node of another instruction. It reaches from one node of its own
instruction to another, and ordered nodes keep the order of their instructions. -/
theorem Layout.x86Index_of_covers (hrun : run.Ordered) (hbuild : Graph.build mode run = .ok g) (l : Layout g b)
    {n : Node} {d : Definition} (hd : g.dataflow.get? n = some d) (ho : d.isOrdered = true) {h : Handler}
    (hh : h ∈ b.handlers) (hcovers : h.covers (l.main.place n) = true) : h.retired + 1 = d.x86Index := by
  have hg := Graph.wellFormed_of_build hrun hbuild
  obtain ⟨bd, hbd, hhandled⟩ := exists_mem_right_of_forall₂ l.forall₂_handled hh
  obtain ⟨first, hfirst, hstart⟩ := (l.protects hg hbd hhandled).first
  obtain ⟨last, hlast, hstop⟩ := (l.protects hg hbd hhandled).last
  obtain ⟨d₁, hd₁, hindex₁⟩ := Graph.x86Index_of_mem_nodes hrun hbuild hbd hfirst
  obtain ⟨d₂, hd₂, hindex₂⟩ := Graph.x86Index_of_mem_nodes hrun hbuild hbd hlast
  have hn : n ∈ g.ordered := by
    rw [hg.mem_ordered_iff, Dataflow.isOrdered_eq hd]
    exact ho
  simp only [Handler.covers, Bool.and_eq_true, decide_eq_true_eq] at hcovers
  have hlow := l.x86Index_le hrun hbuild (hg.mem_ordered_of_boundary hbd hfirst) hn (by omega) hd₁ hd
  have hhigh := l.x86Index_le hrun hbuild hn (hg.mem_ordered_of_boundary hbd hlast) (by omega) hd hd₂
  have hretired := hhandled.retired_succ hg hbd
  omega

theorem Layout.eq_of_covers (hg : g.WellFormed) (l : Layout g b) {h h' : Handler} (hh : h ∈ b.handlers)
    (hh' : h' ∈ b.handlers) {pc : Nat} (hpc : h.covers pc = true) (hpc' : h'.covers pc = true) : h' = h := by
  by_contra hne
  simp only [Handler.covers, Bool.and_eq_true, decide_eq_true_eq] at hpc hpc'
  rcases rel_of_pairwise (l.pairwise_ranges hg) hh' hh hne with hle | hle <;> omega

theorem Layout.exists_body (hg : g.WellFormed) (l : Layout g b) {h : Handler} (hh : h ∈ b.handlers) :
    ∃ body rest, b.code.drop h.target = body ++ .rethrow h.retired :: rest ∧
      (∀ f, .apply f ∈ body → f.IsQuiet) ∧ ∀ k, .rethrow k ∉ body := by
  obtain ⟨bd, hbd, hhandled⟩ := exists_mem_right_of_forall₂ l.forall₂_handled hh
  obtain ⟨pushes, rest, hdrop, hstate⟩ := hhandled.body
  have hquiet := hstate.isQuiet hg.flow
  have hcommits (op : Op) (hop : op ∈ commits (handlerState bd)) : ∃ e, op = .commit e := by
    obtain ⟨p, _, rfl⟩ := List.mem_map.mp hop
    exact ⟨p.1, rfl⟩
  refine ⟨pushes ++ commits (handlerState bd), rest, ?_, ?_, ?_⟩
  · rw [hdrop, hhandled.retired, List.append_assoc]
  · intro f hf
    rcases List.mem_append.mp hf with hf | hf
    · exact Fragment.isQuiet_of_isPure (hquiet _ hf)
    · obtain ⟨e, he⟩ := hcommits _ hf
      cases he
  · intro k hk
    rcases List.mem_append.mp hk with hk | hk
    · cases hquiet _ hk
    · obtain ⟨e, he⟩ := hcommits _ hk
      cases he

/-- What a handler table owes to the code that it protects. -/
structure TableExact (mode : Mode) (run : Run) (g : Graph) (b : Body) (code : AnnotatedCode) : Prop where
  increasing : b.handlers.Pairwise fun h h' => h.retired < h'.retired ∧ h.stop ≤ h'.start
  -- The entries are those of the instructions that can fault.
  instructions : ∀ i, (∃ h ∈ b.handlers, h.retired + 1 = i) ↔ ∃ op ∈ run.ops, op.x86Index = i ∧ op.canFault mode = true
  ranges : ∀ h ∈ b.handlers, h.start < h.stop ∧ h.stop ≤ code.length
  -- What can fault is protected by the entry of its instruction alone.
  covered : ∀ n pc d, (n, pc) ∈ code.evaluations 0 → g.dataflow.get? n = some d → d.canFault = true →
    ∃ h ∈ b.handlers, h.retired + 1 = d.x86Index ∧ h.covers pc = true ∧
      ∀ h' ∈ b.handlers, h'.covers pc = true → h' = h
  -- Nothing ordered from another instruction is covered.
  own : ∀ n pc d, (n, pc) ∈ code.evaluations 0 → g.dataflow.get? n = some d → d.isOrdered = true →
    ∀ h ∈ b.handlers, h.covers pc = true → h.retired + 1 = d.x86Index
  bodies : ∀ h ∈ b.handlers, ∃ body rest, b.code.drop h.target = body ++ .rethrow h.retired :: rest ∧
    (∀ f, .apply f ∈ body → f.IsQuiet) ∧ ∀ k, .rethrow k ∉ body

/-- Generated code has an exact handler table. -/
theorem handlers_exact {limit : Nat} {instructions : List Instruction} (hrun : Run.build limit instructions = .ok run)
    (hg : Graph.build mode run = .ok g) :
    ∃ b code, generate g = .ok b ∧ Evaluates g b code ∧ code.nodes.Nodup ∧
      code.nodes.filter g.dataflow.isOrdered = g.ordered ∧ TableExact mode run g b code := by
  have hordered := Run.ordered_of_build hrun
  have hwf := Graph.wellFormed_of_build hordered hg
  obtain ⟨b, hb, ⟨l⟩⟩ := exists_layout hwf
  obtain ⟨code, hcode, hops, hnodup, _, hinorder, hplaces⟩ := l.exists_evaluates hwf
  have hplace {n : Node} {pc : Nat} {d : Definition} (hn : (n, pc) ∈ code.evaluations 0)
      (hd : g.dataflow.get? n = some d) (ho : d.isOrdered = true) : l.main.place n = pc :=
    hplaces (n, pc) hn (by rw [Dataflow.isOrdered_eq hd]; exact ho)
  refine ⟨b, code, hb, hcode, hnodup, hinorder, ?_⟩
  refine ⟨(l.pairwise_retired hordered hg).and (l.pairwise_ranges hwf), l.exists_handler_iff hordered hg, ?_, ?_, ?_,
    fun h hh => l.exists_body hwf hh⟩
  · intro h hh
    obtain ⟨hlt, hle⟩ := l.range_of_mem hwf hh
    have hlength := congrArg List.length hops
    rw [List.length_map, List.length_append] at hlength
    omega
  · intro n pc d hn hd hfault
    have hpc := hplace hn hd (by simp [Definition.isOrdered, hfault])
    obtain ⟨h, hh, hretired, hcovers⟩ := l.exists_covers hordered hg hd hfault
    rw [hpc] at hcovers
    exact ⟨h, hh, hretired, hcovers, fun h' hh' hpc' => l.eq_of_covers hwf hh hh' hcovers hpc'⟩
  · intro n pc d hn hd ho h hh hcovers
    rw [← hplace hn hd ho] at hcovers
    exact l.x86Index_of_covers hordered hg hd ho hh hcovers

theorem handlers_exact_loadStoreDivide :
    ∃ run g, Run.build 2 loadStoreDivide = .ok run ∧ Graph.build .protectedMode run = .ok g ∧
      ∃ b code, generate g = .ok b ∧ Evaluates g b code ∧ code.nodes.Nodup ∧
        code.nodes.filter g.dataflow.isOrdered = g.ordered ∧ TableExact .protectedMode run g b code := by
  obtain ⟨g, h⟩ : ∃ g, (Run.build 2 loadStoreDivide >>= Graph.build .protectedMode) = .ok g :=
    exists_eq_ok (by decide +kernel)
  obtain ⟨run, hrun, hg⟩ := bind_eq_ok.mp h
  exact ⟨run, g, hrun, hg, handlers_exact hrun hg⟩

end

end Body

end Dynarec
