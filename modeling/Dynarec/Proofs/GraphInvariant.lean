import Dynarec.Proofs.BuilderSteps
import Dynarec.Proofs.RunShape

namespace Dynarec

namespace Boundary

/-- The boundaries of a walk that has come to the instruction which starts with `start`. -/
structure History (start : Boundary) (bds : List Boundary) : Prop where
  boundaries : ∀ bd ∈ bds, 1 ≤ bd.x86Index ∧ bd.nodes ≠ [] ∧ ∀ n ∈ bd.nodes, bd.Sound n.index
  increasing : bds.Pairwise (fun x y => x.x86Index < y.x86Index)
  latest : ∀ bd ∈ bds, bd.x86Index ≤ start.x86Index
  resumed : ∀ bd ∈ bds, bd.x86Index = start.x86Index → bd = { start with nodes := bd.nodes }

theorem history_nil (start : Boundary) : History start [] :=
  ⟨by simp, List.Pairwise.nil, by simp, by simp⟩

theorem History.sublist {start : Boundary} {bds older : List Boundary} (h : History start bds)
    (hsub : older.Sublist bds) : History start older :=
  ⟨fun bd hbd => h.boundaries bd (hsub.mem hbd), h.increasing.sublist hsub,
    fun bd hbd => h.latest bd (hsub.mem hbd), fun bd hbd => h.resumed bd (hsub.mem hbd)⟩

theorem History.later {start start' : Boundary} {bds : List Boundary} (h : History start bds)
    (hlt : start.x86Index < start'.x86Index) : History start' bds := by
  refine { h with latest := ?_, resumed := ?_ }
  · intro bd hbd
    exact (h.latest bd hbd).trans hlt.le
  · intro bd hbd heq
    have := h.latest bd hbd
    omega

theorem History.lt_of_last {start : Boundary} {bds : List Boundary} (h : History start bds)
    (hne : ∀ older last, bds = older ++ [last] → last.x86Index ≠ start.x86Index) :
    ∀ bd ∈ bds, bd.x86Index < start.x86Index := by
  intro bd hbd
  rcases List.eq_nil_or_concat bds with rfl | ⟨older, last, hlast⟩
  · cases hbd
  · rw [List.concat_eq_append] at hlast
    have hle := h.latest last (by simp [hlast])
    have hlast' := hne older last hlast
    have hinc := h.increasing
    rw [hlast, List.pairwise_append] at hinc
    rw [hlast] at hbd
    rcases List.mem_append.mp hbd with hbd | hbd
    · have := hinc.2.2 bd hbd last (List.mem_singleton_self _)
      omega
    · rw [List.mem_singleton.mp hbd]
      omega

theorem History.concat {start : Boundary} {older : List Boundary} (h : History start older)
    (hlt : ∀ bd ∈ older, bd.x86Index < start.x86Index) (hpos : 1 ≤ start.x86Index) {nodes : List Node}
    (hnodes : nodes ≠ []) (hsound : ∀ n ∈ nodes, start.Sound n.index) :
    History start (older ++ [{ start with nodes }]) where
  boundaries := by
    intro bd hbd
    rcases List.mem_append.mp hbd with hbd | hbd
    · exact h.boundaries bd hbd
    · rw [List.mem_singleton.mp hbd]
      exact ⟨hpos, hnodes, fun n hn => ⟨(hsound n hn).committed, (hsound n hn).snapshot_lt, (hsound n hn).eip_lt⟩⟩
  increasing := by
    rw [List.pairwise_append]
    refine ⟨h.increasing, List.pairwise_singleton _ _, ?_⟩
    intro x hx y hy
    rw [List.mem_singleton.mp hy]
    exact hlt x hx
  latest := by
    intro bd hbd
    rcases List.mem_append.mp hbd with hbd | hbd
    · exact h.latest bd hbd
    · rw [List.mem_singleton.mp hbd]
  resumed := by
    intro bd hbd heq
    rcases List.mem_append.mp hbd with hbd | hbd
    · exact h.resumed bd hbd heq
    · rw [List.mem_singleton.mp hbd]

end Boundary

namespace Graph

namespace Builder

structure Invariant (b : Builder) : Prop extends Boundary.History b.start b.boundaries.toList where
  made : b.dataflow.Made
  flow : b.dataflow.WellFormed
  entries : ∀ e n, entryDefinitions.get e = some n → b.dataflow.get? n = some (.ofEntry e)
  current_lt : ∀ e n, b.current.get e = some n → n.index < b.dataflow.size
  ordered : b.ordered.toList = b.dataflow.nodesWhere Definition.isOrdered
  faulting : b.boundaries.toList.flatMap (·.nodes) = b.dataflow.nodesWhere (·.canFault)
  start : b.start.Sound b.dataflow.size

theorem foldlM_addEntry_entryElements : entryElements.foldlM Dataflow.addEntry .empty = .ok entryDataflow := rfl

theorem invariant_initial : initial.Invariant where
  toHistory := Boundary.history_nil _
  made := Dataflow.Made.empty.entries foldlM_addEntry_entryElements
  flow := by
    intro n d h
    obtain ⟨e, _, rfl⟩ : ∃ e ∈ entryElements, Definition.ofEntry e = d := by
      have hd : d ∈ entryDataflow.definitions := Array.mem_of_getElem? h
      simpa [entryDataflow] using hd
    exact Definition.wellFormed_ofEntry _ e
  entries _ _ h := entryDefinitions_get? h
  current_lt _ _ h := Dataflow.lt_size_of_get? (entryDefinitions_get? h)
  ordered := by decide
  faulting := by decide
  start := ⟨List.nil_sublist _, by simp [initial], by decide⟩

theorem Invariant.entryDataflow_size_le {b : Builder} (h : b.Invariant) : entryDataflow.size ≤ b.dataflow.size :=
  Dataflow.lt_size_of_get? (h.entries .addr0 ⟨39⟩ rfl)

theorem Invariant.enter {b : Builder} (h : b.Invariant) {x86Index : Nat} (hle : b.start.x86Index ≤ x86Index) :
    (b.enter x86Index).Invariant ∧ (b.enter x86Index).start.x86Index = x86Index := by
  unfold Builder.enter
  split
  · rename_i heq
    exact ⟨h, heq⟩
  · rename_i hne
    refine ⟨{ h with toHistory := h.toHistory.later (Nat.lt_of_le_of_ne hle hne), start := ?_ }, rfl⟩
    refine ⟨Definitions.changedFrom_elements _ _, ?_, ?_⟩
    · intro p hp
      exact h.current_lt p.1 p.2 (Definitions.mem_changedFrom.mp hp).2.1
    · dsimp only
      cases heip : b.current.get .eip with
      | none => exact Dataflow.lt_size_of_get? (h.entries .eip entryEip rfl)
      | some n => exact h.current_lt _ _ heip

theorem Invariant.addConstant {b : Builder} (h : b.Invariant) (value : UInt32) (x86Index : Nat) :
    (b.push (.ofConstant value x86Index)).2.Invariant := by
  have hsize : b.dataflow.size ≤ (b.push (.ofConstant value x86Index)).2.dataflow.size := by
    simp [push, Dataflow.size_push]
  exact {
    toHistory := h.toHistory
    made := h.made.constant value x86Index
    flow := h.flow.push (Definition.wellFormed_ofConstant _ _ _)
    entries := fun e n he => Dataflow.get?_push_of_get? (h.entries e n he) _
    current_lt := fun e n he => (h.current_lt e n he).trans_le hsize
    ordered := by
      simp only [push, Dataflow.nodesWhere_push]
      simpa [Definition.ofConstant, Definition.isOrdered] using h.ordered
    faulting := by
      simp only [push, Dataflow.nodesWhere_push]
      simpa [Definition.ofConstant] using h.faulting
    start := h.start.mono hsize }

theorem Invariant.operand {b b' : Builder} {op : MicroOp} {m : Microcode} {o : Operand} {n : Node}
    (h : b.Invariant) (ho : b.operand op m o = .ok (n, b')) :
    b'.Invariant ∧ Unmoved b b' ∧ n.index < b'.dataflow.size ∧ b.dataflow.size ≤ b'.dataflow.size := by
  rcases operand_ok ho with ⟨rfl, e, _, hn⟩ | ⟨value, hpush, _⟩
  · exact ⟨h, .refl _, h.current_lt e n hn, Nat.le_refl _⟩
  · cases hpush
    exact ⟨h.addConstant value op.x86Index, unmoved_push _ _,
      by simp [Dataflow.next, Dataflow.size_push], by simp [Dataflow.size_push]⟩

theorem Invariant.operands {b b' : Builder} {op : MicroOp} {m : Microcode} {os : List Operand} {ns : List Node}
    (h : b.Invariant) (ho : operands op m b os = .ok (ns, b')) :
    b'.Invariant ∧ Unmoved b b' ∧ (∀ n ∈ ns, n.index < b'.dataflow.size) ∧ ns.length = os.length ∧
      b.dataflow.size ≤ b'.dataflow.size := by
  induction os generalizing b b' ns with
  | nil =>
      cases ho
      exact ⟨h, .refl _, by simp, rfl, Nat.le_refl _⟩
  | cons o os ih =>
      rw [Builder.operands, bind_eq_ok] at ho
      obtain ⟨⟨n, b₁⟩, hn, ho⟩ := ho
      obtain ⟨⟨ns', b₂⟩, hns, ho⟩ := bind_eq_ok.mp ho
      cases ho
      obtain ⟨h₁, hu₁, hlt₁, hs₁⟩ := h.operand hn
      obtain ⟨h₂, hu₂, hlt₂, hlen, hs₂⟩ := ih h₁ hns
      refine ⟨h₂, hu₁.trans hu₂, ?_, by simp [hlen], hs₁.trans hs₂⟩
      intro i hi
      rcases List.mem_cons.mp hi with rfl | hi
      · exact hlt₁.trans_le hs₂
      · exact hlt₂ i hi

/-- A new node goes under the boundary of its instruction. It lies after everything that the boundary
leaves, since it comes after everything. -/
theorem Invariant.protect {b : Builder} (h : b.Invariant) (hpos : 1 ≤ b.start.x86Index) :
    Boundary.History b.start (b.protect b.dataflow.next).boundaries.toList ∧
      (b.protect b.dataflow.next).boundaries.toList.flatMap (·.nodes) =
        b.boundaries.toList.flatMap (·.nodes) ++ [b.dataflow.next] := by
  rcases protect_cases b b.dataflow.next with ⟨older, last, hlast, hi, hp⟩ | ⟨hne, hp⟩
  · have hmem : last ∈ b.boundaries.toList := by simp [hlast]
    have hresumed := h.resumed last hmem hi
    have hextended : { last with nodes := last.nodes ++ [b.dataflow.next] } =
        { b.start with nodes := last.nodes ++ [b.dataflow.next] } := by rw [hresumed]
    have hinc := h.increasing
    rw [hlast, List.pairwise_append] at hinc
    rw [hp]
    refine ⟨?_, by simp [hlast]⟩
    rw [hextended]
    apply (h.toHistory.sublist (by rw [hlast]; exact List.sublist_append_left _ _)).concat ?_ hpos (by simp)
    · intro n hn
      rcases List.mem_append.mp hn with hn | hn
      · have hsound := (h.boundaries last hmem).2.2 n hn
        rw [hresumed] at hsound
        exact ⟨hsound.committed, hsound.snapshot_lt, hsound.eip_lt⟩
      · rw [List.mem_singleton.mp hn]
        exact h.start
    · intro bd hbd
      rw [← hi]
      exact hinc.2.2 bd hbd last (List.mem_singleton_self _)
  · rw [hp]
    refine ⟨h.toHistory.concat (h.toHistory.lt_of_last hne) hpos (by simp) ?_, by simp⟩
    intro n hn
    rw [List.mem_singleton.mp hn]
    exact h.start

theorem Invariant.place {b : Builder} (h : b.Invariant) (hpos : 1 ≤ b.start.x86Index) {t : Target} (ht : t.Sound)
    (m : Microcode) (x86Index : Nat) {inputs : List Node} (hlen : inputs.length = t.inputs.length)
    (hlt : ∀ i ∈ inputs, i.index < b.dataflow.size) :
    (b.place t (.ofTarget m t x86Index inputs)).Invariant := by
  obtain ⟨hcurrent, _, _, hstart⟩ := unmoved_place b t (.ofTarget m t x86Index inputs)
  obtain ⟨hhistory, hfaulting⟩ := h.protect hpos
  have hflow := place_dataflow b t (.ofTarget m t x86Index inputs)
  have hbds := place_boundaries b t (.ofTarget m t x86Index inputs)
  have hfaults : (Definition.ofTarget m t x86Index inputs).canFault = t.canFault := rfl
  refine ⟨?_, ?_, ?_, ?_, ?_, ?_, ?_, ?_⟩
  · rw [hbds, hstart]
    split
    · exact hhistory
    · exact h.toHistory
  · rw [hflow]
    exact h.made.op (Dataflow.addOp_eq_ok_iff.mpr ⟨hlen.trans ht.arity, hlt, rfl⟩)
  · rw [hflow]
    exact h.flow.push (Definition.wellFormed_ofTarget ht m x86Index hlen hlt)
  · intro e n he
    rw [hflow]
    exact Dataflow.get?_push_of_get? (h.entries e n he) _
  · intro e n he
    rw [hcurrent] at he
    rw [hflow, Dataflow.size_push]
    exact Nat.lt_succ_of_lt (h.current_lt e n he)
  · rw [place_ordered, hflow, Dataflow.nodesWhere_push, h.ordered]
    rfl
  · rw [hflow, Dataflow.nodesWhere_push, ← h.faulting, hfaults, hbds]
    cases t.canFault
    · simp
    · simpa using hfaulting
  · rw [hstart, hflow, Dataflow.size_push]
    exact h.start.mono (Nat.le_succ _)

theorem Invariant.target {b b' : Builder} {last : Nat} {op : MicroOp} {m : Microcode} {t : Target} {n : Node}
    (h : b.Invariant) (hpos : 1 ≤ b.start.x86Index) (hs : t.Sound) (ht : target last op m b t = .ok (n, b')) :
    b'.Invariant ∧ Unmoved b b' ∧ n.index < b'.dataflow.size ∧ b.dataflow.size ≤ n.index := by
  obtain ⟨inputs, b₁, hin, rfl, rfl⟩ := target_ok ht
  obtain ⟨h₁, hu, hlt, hlen, hsize⟩ := h.operands hin
  refine ⟨h₁.place (by rw [hu.start]; exact hpos) hs m op.x86Index hlen hlt, hu.trans (unmoved_place _ _ _), ?_, hsize⟩
  rw [place_dataflow, Dataflow.size_push]
  exact Nat.lt_succ_self _

theorem Invariant.targets {b b' : Builder} {last : Nat} {op : MicroOp} {m : Microcode} {ts : List Target}
    {defined : List (Element × Node)} (h : b.Invariant) (hpos : 1 ≤ b.start.x86Index) (hs : ∀ t ∈ ts, t.Sound)
    (ht : targets last op m b ts = .ok (defined, b')) :
    b'.Invariant ∧ Unmoved b b' ∧ b.dataflow.size ≤ b'.dataflow.size ∧
      ∀ p ∈ defined, b.dataflow.size ≤ p.2.index ∧ p.2.index < b'.dataflow.size := by
  induction ts generalizing b b' defined with
  | nil =>
      cases ht
      exact ⟨h, .refl _, Nat.le_refl _, by simp⟩
  | cons t ts ih =>
      rw [Builder.targets, bind_eq_ok] at ht
      obtain ⟨⟨n, b₁⟩, hn, ht⟩ := ht
      obtain ⟨⟨defined', b₂⟩, hrest, ht⟩ := bind_eq_ok.mp ht
      cases ht
      obtain ⟨h₁, hu₁, hlt, hge⟩ := h.target hpos (hs t (List.mem_cons_self)) hn
      obtain ⟨h₂, hu₂, hle, hmem⟩ := ih h₁ (by rw [hu₁.start]; exact hpos)
        (fun t' ht' => hs t' (List.mem_cons_of_mem _ ht')) hrest
      refine ⟨h₂, hu₁.trans hu₂, by omega, ?_⟩
      intro p hp
      rcases List.mem_cons.mp hp with rfl | hp
      · exact ⟨hge, hlt.trans_le hle⟩
      · have := hmem p hp
        omega

theorem Invariant.define {b : Builder} (h : b.Invariant) {p : Element × Node} (hp : p.2.index < b.dataflow.size)
    (position : UInt32) : (b.define position p).Invariant := by
  refine { h with current_lt := ?_ }
  intro e n he
  simp only [Builder.define, ElementMap.get_set] at he
  split at he
  · cases he
    exact hp
  · exact h.current_lt e n he

theorem Invariant.foldl_define {b : Builder} (h : b.Invariant) {defined : List (Element × Node)}
    (hp : ∀ p ∈ defined, p.2.index < b.dataflow.size) (position : UInt32) :
    (defined.foldl (Builder.define position) b).Invariant ∧
      (defined.foldl (Builder.define position) b).start = b.start := by
  induction defined generalizing b with
  | nil => exact ⟨h, rfl⟩
  | cons p defined ih =>
      exact ih (h.define (hp p List.mem_cons_self) position) (fun q hq => hp q (List.mem_cons_of_mem _ hq))

theorem Invariant.step {b b' : Builder} {mode : Mode} {last : Nat} {op : MicroOp} (h : b.Invariant)
    (hle : b.start.x86Index ≤ op.x86Index) (hpos : 1 ≤ op.x86Index) (hs : b.step mode last op = .ok b') :
    b'.Invariant ∧ b'.start.x86Index = op.x86Index := by
  obtain ⟨m, ts, defined, b₁, _, hts, htargets, rfl⟩ := step_ok hs
  obtain ⟨h₀, hindex⟩ := h.enter hle
  obtain ⟨h₁, hu, _, hmem⟩ := h₀.targets (by rw [hindex]; exact hpos) (fun t ht => Rule.sound_of_mem hts ht) htargets
  obtain ⟨h₂, hstart⟩ := h₁.foldl_define (fun p hp => (hmem p hp).2) op.position
  refine ⟨{ h₂ with }, ?_⟩
  dsimp only
  rw [hstart, hu.start, hindex]

theorem Invariant.foldlM {b b' : Builder} {mode : Mode} {last : Nat} {ops : List MicroOp} (h : b.Invariant)
    (hle : ∀ op ∈ ops, b.start.x86Index ≤ op.x86Index) (hpos : ∀ op ∈ ops, 1 ≤ op.x86Index)
    (hops : ops.Pairwise (fun x y => x.x86Index ≤ y.x86Index))
    (hs : ops.foldlM (Builder.step mode last) b = .ok b') :
    b'.Invariant ∧ ∀ k, b.start.x86Index ≤ k → (∀ op ∈ ops, op.x86Index ≤ k) → b'.start.x86Index ≤ k := by
  induction ops generalizing b with
  | nil =>
      cases hs
      exact ⟨h, fun k hk _ => hk⟩
  | cons op ops ih =>
      rw [List.foldlM_cons, bind_eq_ok] at hs
      obtain ⟨b₁, h₁, hs⟩ := hs
      obtain ⟨hop, hops⟩ := List.pairwise_cons.mp hops
      obtain ⟨hinv, hindex⟩ := h.step (hle op List.mem_cons_self) (hpos op List.mem_cons_self) h₁
      rw [← hindex] at hop
      obtain ⟨hinv', hstart⟩ := ih hinv hop (fun op' h' => hpos op' (List.mem_cons_of_mem _ h')) hops hs
      refine ⟨hinv', fun k _ hk => ?_⟩
      rw [List.forall_mem_cons, ← hindex] at hk
      exact hstart k hk.1 hk.2

end Builder

structure WellFormed (g : Graph) : Prop where
  made : g.dataflow.Made
  flow : g.dataflow.WellFormed
  ordered : g.ordered = g.dataflow.nodesWhere Definition.isOrdered
  faulting : g.boundaries.flatMap (·.nodes) = g.dataflow.nodesWhere (·.canFault)
  sinks : (g.sinks.map Prod.fst).Sublist (Element.all.filter Element.isCommitted)
  sinks_lt : ∀ p ∈ g.sinks, p.2.index < g.dataflow.size
  boundaries : ∀ bd ∈ g.boundaries, 1 ≤ bd.x86Index ∧ bd.nodes ≠ [] ∧ ∀ n ∈ bd.nodes, bd.Sound n.index

namespace WellFormed

variable {g : Graph}

theorem mem_ordered_iff (hg : g.WellFormed) {x : Node} : x ∈ g.ordered ↔ g.dataflow.isOrdered x = true := by
  rw [hg.ordered, Dataflow.mem_nodesWhere, Dataflow.isOrdered, Option.any_eq_true]

theorem nodup_ordered (hg : g.WellFormed) : g.ordered.Nodup := by
  rw [hg.ordered]
  exact Dataflow.nodesWhere_nodup _ _

theorem ordered_lt (hg : g.WellFormed) {n : Node} (hn : n ∈ g.ordered) : n.index < g.dataflow.size := by
  rw [hg.ordered] at hn
  obtain ⟨d, hd, _⟩ := Dataflow.mem_nodesWhere.mp hn
  exact Dataflow.lt_size_of_get? hd

theorem sink_lt (hg : g.WellFormed) {n : Node} (hn : n ∈ g.sinks.map Prod.snd) : n.index < g.dataflow.size := by
  obtain ⟨p, hp, rfl⟩ := List.mem_map.mp hn
  exact hg.sinks_lt p hp

theorem mem_ordered_of_boundary (hg : g.WellFormed) {b : Boundary} (hb : b ∈ g.boundaries) {n : Node}
    (hn : n ∈ b.nodes) : n ∈ g.ordered := by
  have hmem : n ∈ g.boundaries.flatMap (·.nodes) := List.mem_flatMap.mpr ⟨b, hb, hn⟩
  rw [hg.faulting] at hmem
  obtain ⟨d, hd, hfault⟩ := Dataflow.mem_nodesWhere.mp hmem
  rw [hg.ordered]
  exact Dataflow.mem_nodesWhere.mpr ⟨d, hd, by simp [Definition.isOrdered, hfault]⟩

end WellFormed

theorem build_ok {mode : Mode} {run : Run} {g : Graph} (h : build mode run = .ok g) :
    ∃ b, run.ops.foldlM (Builder.step mode run.x86Count) Builder.initial = .ok b ∧
      g = ⟨mode, b.dataflow, b.ordered.toList, b.current.changedFrom entryDefinitions, b.boundaries.toList⟩ := by
  obtain ⟨b, hb, h⟩ := bind_eq_ok.mp h
  exact ⟨b, hb, (pure_eq_ok.mp h).symm⟩

theorem wellFormed_of_build {mode : Mode} {run : Run} {g : Graph} (hrun : run.Ordered)
    (h : build mode run = .ok g) : g.WellFormed := by
  obtain ⟨b, hb, rfl⟩ := build_ok h
  obtain ⟨hinv, _⟩ := Builder.invariant_initial.foldlM (fun op _ => Nat.zero_le _) hrun.pos hrun.pairwise hb
  exact {
    made := hinv.made
    flow := hinv.flow
    ordered := hinv.ordered
    faulting := hinv.faulting
    sinks := Definitions.changedFrom_elements _ _
    sinks_lt := fun p hp => hinv.current_lt p.1 p.2 (Definitions.mem_changedFrom.mp hp).2.1
    boundaries := hinv.boundaries }

/-- Wherever the walk over a run has come, and whether or not it will go on, the dataflow accepts the next node. -/
theorem exists_addOp_of_walk {mode : Mode} {run : Run} (hrun : run.Ordered) {before after : List MicroOp} {op : MicroOp}
    (hops : run.ops = before ++ op :: after) {last : Nat} {b b₁ b₂ : Builder}
    (hb : before.foldlM (Builder.step mode last) Builder.initial = .ok b) {m : Microcode} {done rest : List Target}
    {t : Target} (hts : Rule.targets? mode m = some (done ++ t :: rest)) {defined : List (Element × Node)}
    (hdone : Builder.targets last op m (b.enter op.x86Index) done = .ok (defined, b₁)) {inputs : List Node}
    (hin : Builder.operands op m b₁ t.inputs = .ok (inputs, b₂)) :
    ∃ flow, b₂.dataflow.addOp m t op.x86Index inputs = .ok flow := by
  have hpos := hrun.pos
  have hpairwise := hrun.pairwise
  rw [hops, List.forall_mem_append, List.forall_mem_cons] at hpos
  rw [hops, List.pairwise_append] at hpairwise
  obtain ⟨hinv, hstart⟩ := Builder.invariant_initial.foldlM (fun op _ => Nat.zero_le _) hpos.1 hpairwise.1 hb
  obtain ⟨hentered, hindex⟩ := hinv.enter
    (hstart op.x86Index (Nat.zero_le _) fun x hx => hpairwise.2.2 x hx op List.mem_cons_self)
  have hsound : ∀ t' ∈ done ++ t :: rest, t'.Sound := fun t' ht' => Rule.sound_of_mem hts ht'
  rw [List.forall_mem_append, List.forall_mem_cons] at hsound
  obtain ⟨h₁, _⟩ := hentered.targets (by rw [hindex]; exact hpos.2.1) hsound.1 hdone
  obtain ⟨_, _, hlt, hlen, _⟩ := h₁.operands hin
  exact ⟨_, Dataflow.addOp_eq_ok_iff.mpr ⟨hlen.trans hsound.2.1.arity, hlt, rfl⟩⟩

end Graph

end Dynarec
