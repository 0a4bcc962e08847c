import Dynarec.Proofs.DefinedElements
import Dynarec.Proofs.InstructionPointer
import Dynarec.Proofs.RunParsing

namespace Dynarec

def Kind.element? : Kind → Option Element
  | .entry e => some e
  | .constant _ => none
  | .op _ e _ => some e

namespace Dataflow

/-- The last definition of an element. -/
def definition? (flow : Dataflow) (e : Element) : Option Node :=
  (flow.nodesWhere (·.kind.element? == some e)).getLast?

theorem definition?_push (flow : Dataflow) (d : Definition) (e : Element) :
    (flow.push d).definition? e = if d.kind.element? = some e then some flow.next else flow.definition? e := by
  rw [definition?, nodesWhere_push, List.getLast?_append]
  by_cases h : d.kind.element? = some e <;> simp [h, definition?]

theorem isSome_definition? {flow : Dataflow} {n : Node} {d : Definition} {e : Element} (hn : flow.get? n = some d)
    (he : d.kind.element? = some e) : (flow.definition? e).isSome = true := by
  have hmem : n ∈ flow.nodesWhere (·.kind.element? == some e) := mem_nodesWhere.mpr ⟨d, hn, by simpa using he⟩
  rw [definition?, List.getLast?_isSome]
  exact List.ne_nil_of_mem hmem

end Dataflow

namespace Graph.Builder

variable {mode : Mode} {last : Nat} {b b' : Builder} {op : MicroOp} {ops : List MicroOp}

theorem target_of_not_switches {m : Microcode} {t : Target} (ht : t.switchesMode = false) (last last' : Nat) :
    target last op m b t = target last' op m b t := by
  simp [target, ht]

theorem targets_of_not_switches {m : Microcode} {ts : List Target} (hts : ∀ t ∈ ts, t.switchesMode = false)
    (last last' : Nat) : targets last op m b ts = targets last' op m b ts := by
  induction ts generalizing b with
  | nil => rfl
  | cons t ts ih =>
      rw [List.forall_mem_cons] at hts
      rw [targets, targets, target_of_not_switches hts.1 last last']
      apply bind_congr
      rintro ⟨n, b₁⟩
      dsimp only
      rw [ih hts.2]

theorem step_of_not_switches (hop : op.switches mode = false) (h : b.step mode last op = .ok b') (last' : Nat) :
    b.step mode last' op = .ok b' := by
  obtain ⟨m, ts, defined, b₁, hm, hts, htargets, rfl⟩ := step_ok h
  have hall : ∀ t ∈ ts, t.switchesMode = false := by
    rw [MicroOp.switches, MicroOp.targets_of_eq (MicroOp.targets?_eq_some.mpr ⟨m, hm, hts⟩)] at hop
    simpa using hop
  rw [targets_of_not_switches hall last last'] at htargets
  rw [step, bind_eq_ok]
  refine ⟨m, by rw [MicroOp.microcode, hm], ?_⟩
  rw [hts]
  exact bind_eq_ok.mpr ⟨_, htargets, rfl⟩

theorem foldlM_of_not_switches (hops : ∀ op ∈ ops, op.switches mode = false)
    (h : ops.foldlM (step mode last) b = .ok b') (last' : Nat) : ops.foldlM (step mode last') b = .ok b' := by
  induction ops generalizing b with
  | nil => exact h
  | cons op ops ih =>
      rw [List.foldlM_cons, bind_eq_ok] at h ⊢
      obtain ⟨b₁, h₁, h⟩ := h
      rw [List.forall_mem_cons] at hops
      exact ⟨b₁, step_of_not_switches hops.1 h₁ last', ih hops.2 h⟩

/-- What stands for each element is the last node that defines it. -/
def Current (b : Builder) : Prop := ∀ e, b.current.get e = b.dataflow.definition? e

theorem current_initial : initial.Current := by
  have hall : ∀ e ∈ Element.all, initial.current.get e = initial.dataflow.definition? e := by decide +kernel
  exact fun e => hall e (Element.mem_all e)

theorem definition?_operands {m : Microcode} {os : List Operand} {ns : List Node}
    (h : operands op m b os = .ok (ns, b')) (e : Element) : b'.dataflow.definition? e = b.dataflow.definition? e := by
  induction os generalizing b ns with
  | nil =>
      cases h
      rfl
  | cons o os ih =>
      rw [operands, bind_eq_ok] at h
      obtain ⟨⟨n, b₁⟩, hn, h⟩ := h
      obtain ⟨⟨ns', b₂⟩, hns, h⟩ := bind_eq_ok.mp h
      cases h
      rw [ih hns]
      rcases operand_ok hn with ⟨rfl, _⟩ | ⟨value, hpush, _⟩
      · rfl
      · cases hpush
        rw [Dataflow.definition?_push]
        rfl

-- The targets of a micro-op are defined once all are there, so that `current` lags behind until then.
theorem definition?_targets {m : Microcode} {ts : List Target} {defined : List (Element × Node)}
    (h : targets last op m b ts = .ok (defined, b')) (current : Definitions)
    (hcurrent : ∀ e, current.get e = b.dataflow.definition? e) (e : Element) :
    (defined.foldl (fun current p => current.set p.1 (some p.2)) current).get e = b'.dataflow.definition? e := by
  induction ts generalizing b defined current with
  | nil =>
      cases h
      exact hcurrent e
  | cons t ts ih =>
      rw [targets, bind_eq_ok] at h
      obtain ⟨⟨n, b₁⟩, hn, h⟩ := h
      obtain ⟨⟨defined', b₂⟩, hrest, h⟩ := bind_eq_ok.mp h
      cases h
      obtain ⟨inputs, b₀, hin, rfl, rfl⟩ := target_ok hn
      rw [List.foldl_cons]
      apply ih hrest
      intro e'
      rw [ElementMap.get_set, place_dataflow, Dataflow.definition?_push, definition?_operands hin, hcurrent]
      simp only [Definition.ofTarget, Kind.element?, Option.some.injEq]

theorem current_foldl_define (position : UInt32) (defined : List (Element × Node)) (b : Builder) :
    (defined.foldl (define position) b).current =
      defined.foldl (fun current p => current.set p.1 (some p.2)) b.current := by
  induction defined generalizing b with
  | nil => rfl
  | cons p defined ih => exact ih (b.define position p)

theorem Current.step (h : b.Current) (hs : b.step mode last op = .ok b') : b'.Current := by
  obtain ⟨m, ts, defined, b₁, _, _, htargets, rfl⟩ := step_ok hs
  have hentered : ∀ e, b.current.get e = (b.enter op.x86Index).dataflow.definition? e := by
    rw [enter_eq]
    exact h
  have hsame : b₁.current = b.current := by
    rw [(targets_demand htargets).1, enter_eq]
  intro e
  dsimp only
  rw [current_foldl_define, hsame, definition?_targets htargets b.current hentered, foldl_define_eq]

theorem Current.foldlM (h : b.Current) (hs : ops.foldlM (Builder.step mode last) b = .ok b') : b'.Current := by
  induction ops generalizing b with
  | nil =>
      cases hs
      exact h
  | cons op ops ih =>
      rw [List.foldlM_cons, bind_eq_ok] at hs
      obtain ⟨b₁, h₁, hs⟩ := hs
      exact ih (h.step h₁) hs

end Graph.Builder

namespace Run

theorem build_upTo {limit : Nat} {instructions : List Instruction} {run : Run} (h : build limit instructions = .ok run)
    {k : Nat} (hk : k ≤ max limit 1) (hne : (run.upTo k).ops ≠ []) : build k instructions = .ok (run.upTo k) := by
  have hops := ops_upTo_of_build h k
  rw [List.take_take, Nat.min_eq_left hk] at hops
  have hpos : max k 1 = k := by
    rcases Nat.eq_zero_or_pos k with rfl | hpos
    · exact absurd hops hne
    · exact Nat.max_eq_left hpos
  have hwords : ∃ i ∈ instructions.take (max k 1), i.words ≠ [] := by
    rw [hops, Ne, MicroOp.splitAll_eq_nil_iff] at hne
    rw [hpos]
    simpa using hne
  have hentries : Tape.record 0 (instructions.take k) = (run.upTo k).entries := by
    apply @entries_eq ⟨(run.upTo k).ops, Tape.record 0 (instructions.take k)⟩ (run.upTo k)
    · rw [words, words, Tape.words_record, ← MicroOp.flatMap_words_splitAll 0 0, ← hops]
      simp [upTo, List.map_flatMap, Function.comp_def]
    · rw [positions, positions, MicroOp.positions_record 0 0, ← hops]
      simp [upTo, List.map_flatMap, Function.comp_def]
  have hlength : (instructions.take (max k 1)).length < UInt32.size := by
    have hbuilt := length_lt_of_build h
    rw [List.length_take] at hbuilt ⊢
    omega
  rw [build_of_words hlength hwords, hpos, ← hops, hentries]

end Run

namespace Graph

variable {mode : Mode} {run : Run} {g : Graph} {bd : Boundary}

theorem x86Index_le_x86Count (hrun : run.Ordered) (h : build mode run = .ok g) (hbd : bd ∈ g.boundaries) :
    bd.x86Index ≤ run.x86Count := by
  obtain ⟨op, hop, hindex, _⟩ := (exists_boundary_iff hrun h).mp ⟨bd, hbd, rfl⟩
  exact hindex ▸ hrun.le_x86Count hop

theorem x86Index_le_limit {limit : Nat} {instructions : List Instruction} (hrun : Run.build limit instructions = .ok run)
    (h : build mode run = .ok g) (hbd : bd ∈ g.boundaries) : bd.x86Index ≤ max limit 1 := by
  obtain ⟨op, hop, hindex, _⟩ := (exists_boundary_iff (Run.ordered_of_build hrun) h).mp ⟨bd, hbd, rfl⟩
  rw [Run.build_ok hrun] at hop
  have hle := MicroOp.le_of_mem_splitAll hop
  rw [Nat.zero_add, hindex] at hle
  exact hle.trans (List.length_take_le _ _)

theorem exists_build_upTo (hrun : run.Ordered) (h : build mode run = .ok g) (hbd : bd ∈ g.boundaries) {k : Nat}
    (hk : bd.x86Index = k + 1) :
    ∃ g', build mode (run.upTo k) = .ok g' ∧
      g'.dataflow.definitions.toList <+: g.dataflow.definitions.toList ∧ g'.sinks = bd.snapshot ∧
      g'.dataflow.definition? .eip = some bd.eip := by
  obtain ⟨b, hb, hstart⟩ := exists_walk_of_mem_boundaries hrun h hbd hk
  have hearlier : ∀ op ∈ (run.upTo k).ops, op.switches mode = false := by
    intro op hop
    obtain ⟨hop, hle⟩ := List.mem_filter.mp hop
    by_contra hswitches
    have hlast := eq_x86Count_of_switches h hop (by simpa using hswitches)
    have hcount := x86Index_le_x86Count hrun h hbd
    rw [decide_eq_true_eq] at hle
    omega
  have hbuild := Builder.foldlM_of_not_switches hearlier hb (run.upTo k).x86Count
  refine ⟨_, bind_eq_ok.mpr ⟨b, hbuild, rfl⟩, ?_, ?_, ?_⟩
  · obtain ⟨b', hb', rfl⟩ := build_ok h
    rw [Run.eq_filter_append k hrun.pairwise, List.foldlM_append, bind_eq_ok] at hb'
    obtain ⟨b₁, hb₁, hrest⟩ := hb'
    cases hb.symm.trans hb₁
    exact (Builder.grows_foldlM hrest).dataflow
  · rw [hstart]
    rfl
  · obtain ⟨hinv, _⟩ := Builder.invariant_initial.foldlM (fun _ _ => Nat.zero_le _) (hrun.upTo k).pos
      (hrun.upTo k).pairwise hb
    obtain ⟨n, hn⟩ := Option.isSome_iff_exists.mp (Dataflow.isSome_definition? (hinv.entries .eip entryEip rfl) rfl)
    rw [hstart]
    change b.dataflow.definition? .eip = some ((b.current.get .eip).getD entryEip)
    rw [Builder.current_initial.foldlM hb, hn, Option.getD_some]

theorem nodes_eq (hrun : run.Ordered) (h : build mode run = .ok g) (hbd : bd ∈ g.boundaries) :
    bd.nodes = g.dataflow.nodesWhere fun d => d.canFault && d.x86Index == bd.x86Index := by
  have hg := wellFormed_of_build hrun h
  have hsorted : bd.nodes.Pairwise fun a b => a.index < b.index := by
    have hall := g.dataflow.nodesWhere_pairwise (·.canFault)
    rw [← hg.faulting] at hall
    exact (List.pairwise_flatMap.mp hall).1 bd hbd
  have hmem (n : Node) : n ∈ bd.nodes ↔
      n ∈ g.dataflow.nodesWhere fun d => d.canFault && d.x86Index == bd.x86Index := by
    rw [Dataflow.mem_nodesWhere]
    constructor
    · intro hn
      obtain ⟨d, hd, hindex⟩ := x86Index_of_mem_nodes hrun h hbd hn
      have hfaulting : n ∈ g.boundaries.flatMap (·.nodes) := List.mem_flatMap.mpr ⟨bd, hbd, hn⟩
      rw [hg.faulting] at hfaulting
      obtain ⟨d', hd', hfault⟩ := Dataflow.mem_nodesWhere.mp hfaulting
      cases hd.symm.trans hd'
      exact ⟨d, hd, by simp [hfault, hindex]⟩
    · rintro ⟨d, hd, hp⟩
      obtain ⟨hfault, hindex⟩ : d.canFault = true ∧ d.x86Index = bd.x86Index := by simpa using hp
      have hfaulting : n ∈ g.dataflow.nodesWhere (·.canFault) := Dataflow.mem_nodesWhere.mpr ⟨d, hd, hfault⟩
      rw [← hg.faulting] at hfaulting
      obtain ⟨bd', hbd', hn⟩ := List.mem_flatMap.mp hfaulting
      obtain ⟨d', hd', hindex'⟩ := x86Index_of_mem_nodes hrun h hbd' hn
      cases hd.symm.trans hd'
      -- no two boundaries belong to one instruction
      by_cases hsame : bd' = bd
      · exact hsame ▸ hn
      · rcases rel_of_pairwise (pairwise_boundaries hrun h) hbd' hbd hsame with hlt | hlt <;> omega
  have hperm := (List.perm_ext_iff_of_nodup (hsorted.imp fun hlt heq => absurd (congrArg Node.index heq) hlt.ne)
    (g.dataflow.nodesWhere_nodup _)).mpr hmem
  exact hperm.eq_of_pairwise (fun a b _ _ hab hba => absurd hab hba.asymm) hsorted (g.dataflow.nodesWhere_pairwise _)

theorem sinks_eq_nil (hrun : run.Ordered) (h : build mode run = .ok g) (hops : run.ops = []) : g.sinks = [] := by
  rw [List.eq_nil_iff_forall_not_mem]
  intro p hp
  obtain ⟨_, op, hop, _⟩ := (mem_sinks_iff hrun h p.1).mp (List.mem_map_of_mem hp)
  rw [hops] at hop
  cases hop

theorem snapshots_are_sinks {limit : Nat} {instructions : List Instruction} (hrun : Run.build limit instructions = .ok run)
    (h : build mode run = .ok g) :
    g.boundaries.Pairwise (fun bd bd' => bd.x86Index < bd'.x86Index) ∧
      ∀ bd ∈ g.boundaries, ∃ k, bd.x86Index = k + 1 ∧
        bd.nodes = g.dataflow.nodesWhere (fun d => d.canFault && d.x86Index == bd.x86Index) ∧
        (∀ p ∈ bd.snapshot, ∀ n ∈ bd.nodes, p.2.index < n.index) ∧
        ((run.upTo k).ops = [] → bd.snapshot = []) ∧
        ((run.upTo k).ops ≠ [] → Run.build k instructions = .ok (run.upTo k)) ∧
        ∃ g', build mode (run.upTo k) = .ok g' ∧
          g'.dataflow.definitions.toList <+: g.dataflow.definitions.toList ∧ g'.sinks = bd.snapshot ∧
          g'.dataflow.definition? .eip = some bd.eip := by
  have hordered := Run.ordered_of_build hrun
  have hg := wellFormed_of_build hordered h
  refine ⟨pairwise_boundaries hordered h, ?_⟩
  intro bd hbd
  obtain ⟨hpos, _, hsound⟩ := hg.boundaries bd hbd
  obtain ⟨k, hk⟩ := Nat.exists_eq_add_of_le' hpos
  have htaken := x86Index_le_limit hrun h hbd
  obtain ⟨g', hg', hflow, hsinks, heip⟩ := exists_build_upTo hordered h hbd hk
  refine ⟨k, hk, nodes_eq hordered h hbd, fun p hp n hn => (hsound n hn).snapshot_lt p hp, ?_, ?_, g', hg', hflow,
    hsinks, heip⟩
  · intro hops
    rw [← hsinks]
    exact sinks_eq_nil (hordered.upTo k) hg' hops
  · exact Run.build_upTo hrun (by omega)

def moveThenPop : List Instruction :=
  [⟨2, [Microcode.load0 .eax, .store0 .ebx].map Microcode.word⟩, ⟨1, []⟩, ⟨1, [Microcode.pop32.word]⟩]

theorem snapshots_are_sinks_moveThenPop :
    ∃ run g, Run.build 3 moveThenPop = .ok run ∧ build .real run = .ok g ∧
      ∃ bd, g.boundaries = [bd] ∧ bd.x86Index = 3 ∧ bd.snapshot.map Prod.fst = [.ebx] ∧
        ∃ g', Run.build 2 moveThenPop >>= build .real = .ok g' ∧ g'.sinks = bd.snapshot := by
  obtain ⟨g, h⟩ : ∃ g, (Run.build 3 moveThenPop >>= build .real) = .ok g := exists_eq_ok (by decide +kernel)
  have hboundaries : g.boundaries.map (fun bd => (bd.x86Index, bd.snapshot.map Prod.fst)) = [(3, [.ebx])] := by
    have hall : (Run.build 3 moveThenPop >>= build .real).toOption.map
        (fun g => g.boundaries.map fun bd => (bd.x86Index, bd.snapshot.map Prod.fst)) = some [(3, [.ebx])] := by
      decide +kernel
    rw [h] at hall
    exact Option.some.inj hall
  obtain ⟨run, hrun, hg⟩ := bind_eq_ok.mp h
  obtain ⟨bd, hbd, hpair⟩ := List.map_eq_singleton_iff.mp hboundaries
  obtain ⟨hindex, hsnapshot⟩ := Prod.mk.inj hpair
  obtain ⟨k, hk, _, _, hempty, hbuild, g', hg', _, hsinks, _⟩ :=
    (snapshots_are_sinks hrun hg).2 bd (by rw [hbd]; exact List.mem_singleton_self _)
  obtain rfl : k = 2 := by omega
  have hne : (run.upTo 2).ops ≠ [] := by
    intro hops
    rw [hempty hops] at hsnapshot
    cases hsnapshot
  exact ⟨run, g, hrun, hg, bd, hbd, hindex, hsnapshot, g', bind_eq_ok.mpr ⟨_, hbuild hne, hg'⟩, hsinks⟩

end Graph

end Dynarec
