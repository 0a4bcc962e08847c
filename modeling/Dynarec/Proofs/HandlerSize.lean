import Dynarec.Proofs.HandlerTable
import Dynarec.Proofs.RunSplitting
import Dynarec.Proofs.TreeSizes
import Mathlib.Algebra.Group.Action.Defs

namespace Dynarec

namespace Emission

variable {flow : Dataflow} {status : Table Node Status}

theorem Fresh.length (hflow : flow.WellFormed) {ns : List Node} {ops : List Op} (h : Fresh flow status ns ops) :
    ops.length = (ns.map flow.unfoldedSize).sum := by
  induction h with
  | nil => rfl
  | restore hd ho _ _ ih =>
      rw [List.length_cons, ih, List.map_cons, List.sum_cons, Dataflow.unfoldedSize_eq hflow hd, if_pos ho,
        Nat.add_comm]
  | leaf hd ho hop _ ih =>
      have hinputs := ((hflow _ _ hd).leaf (leafOp?_eq_some hop)).1
      rw [List.length_cons, ih, List.map_cons, List.sum_cons, Dataflow.unfoldedSize_eq hflow hd, if_neg (by simp [ho]),
        hinputs, List.map_nil, List.sum_nil]
      omega
  | op hd ho hk _ _ ihin ih =>
      rw [List.length_append, List.length_cons, ihin, ih, List.map_cons, List.sum_cons,
        Dataflow.unfoldedSize_eq hflow hd, if_neg (by simp [ho])]
      omega

def stateLength (g : Graph) (eipLag : UInt32) (p : Element × Node) : Nat :=
  g.dataflow.unfoldedSize p.2 + (catchUp g.mode eipLag p.1).length

theorem stateLength_le (g : Graph) (eipLag : UInt32) (p : Element × Node) :
    stateLength g eipLag p ≤ g.dataflow.unfoldedSize p.2 + 2 := by
  have hlag : (catchUp g.mode eipLag p.1).length ≤ 2 := by
    rw [catchUp]
    split <;> simp
  exact Nat.add_le_add_left hlag _

theorem FreshState.length {g : Graph} (hflow : g.dataflow.WellFormed) {eipLag : UInt32} {ps : List (Element × Node)}
    {ops : List Op} (h : FreshState g status eipLag ps ops) : ops.length = (ps.map (stateLength g eipLag)).sum := by
  induction h with
  | nil => rfl
  | cons hp _ ih =>
      rw [List.length_append, List.length_append, hp.length hflow, ih, List.map_singleton, List.sum_singleton,
        List.map_cons, List.sum_cons, stateLength, Nat.add_assoc]

end Emission

def Op.isRethrow : Op → Bool
  | .rethrow _ => true
  | _ => false

def doubling : Instruction := ⟨1, [Microcode.load0 .eax, .load1 .eax, .add, .store0 .eax].map Microcode.word⟩

def doublings (k : Nat) : List Instruction := List.replicate k doubling ++ [⟨1, [Microcode.pop32.word]⟩]

namespace Body

open Emission

def handlerBody (b : Body) (h : Handler) : List Op :=
  let rest := b.code.drop h.target
  rest.take (rest.findIdx Op.isRethrow + 1)

/-- The length of the handler of a boundary. It pushes and commits its state, then raises the fault again. -/
def handlerLength (g : Graph) (bd : Boundary) : Nat :=
  ((handlerState bd).map (stateLength g bd.eipLag)).sum + (handlerState bd).length + 1

variable {g : Graph} {b : Body} {mode : Mode} {run : Run} {bd : Boundary}

theorem handlerBody_eq {h : Handler} {body rest : List Op} {k : Nat}
    (hdrop : b.code.drop h.target = body ++ .rethrow k :: rest) (hbody : ∀ op ∈ body, op.isRethrow = false) :
    b.handlerBody h = body ++ [.rethrow k] := by
  have hindex : (body ++ .rethrow k :: rest).findIdx Op.isRethrow = body.length := by
    rw [List.findIdx_append, List.findIdx_eq_length_of_false hbody, if_neg (Nat.lt_irrefl _), List.findIdx_cons]
    simp [Op.isRethrow]
  rw [handlerBody, hdrop, hindex, List.append_cons]
  exact List.take_left' (by simp)

theorem handlerBody_of_handled (hg : g.WellFormed) {status : Table Node Status} {applyAt : Table Node (Option Nat)}
    {h : Handler} (hh : Handled g status applyAt b.code h bd) :
    ∃ pushes, FreshState g status bd.eipLag (handlerState bd) pushes ∧
      b.handlerBody h = pushes ++ commits (handlerState bd) ++ [.rethrow (bd.x86Index - 1)] := by
  obtain ⟨pushes, rest, hdrop, hstate⟩ := hh.body
  rw [← List.append_assoc] at hdrop
  refine ⟨pushes, hstate, handlerBody_eq hdrop ?_⟩
  intro op hop
  rcases List.mem_append.mp hop with hop | hop
  · have hquiet := hstate.isQuiet hg.flow op hop
    cases op with
    | rethrow k => cases hquiet
    | _ => rfl
  · obtain ⟨p, _, rfl⟩ := List.mem_map.mp hop
    rfl

theorem length_of_handled (hg : g.WellFormed) {status : Table Node Status} {applyAt : Table Node (Option Nat)}
    {h : Handler} (hh : Handled g status applyAt b.code h bd) : (b.handlerBody h).length = handlerLength g bd := by
  obtain ⟨pushes, hstate, hbody⟩ := handlerBody_of_handled hg hh
  rw [hbody, List.length_append, List.length_append, hstate.length hg.flow, commits, List.length_map,
    List.length_reverse]
  rfl

theorem length_handlerState_le (hrun : run.Ordered) (hg : Graph.build mode run = .ok g) (hbd : bd ∈ g.boundaries) :
    (handlerState bd).length ≤ 37 := by
  have hpos := ((Graph.wellFormed_of_build hrun hg).boundaries bd hbd).1
  have hsubset : (handlerState bd).map Prod.fst ⊆ Element.all.filter Element.isCommitted := by
    intro e he
    rw [mem_handlerState_iff_defines hrun hg hbd (Nat.sub_add_cancel hpos).symm] at he
    rw [List.mem_filter]
    rcases he with ⟨hcommitted, _⟩ | ⟨rfl, _⟩
    · exact ⟨Element.mem_all e, hcommitted⟩
    · exact ⟨Element.mem_all _, rfl⟩
  have hlength := ((nodup_handlerState_of_build hrun hg hbd).subperm hsubset).length_le
  rwa [List.length_map] at hlength

theorem handlerLength_le (hrun : run.Ordered) (hg : Graph.build mode run = .ok g) (hbd : bd ∈ g.boundaries)
    (h : ∀ p ∈ handlerState bd, g.dataflow.unfoldedSize p.2 ≤ g.dataflow.size) :
    handlerLength g bd ≤ 40 * g.dataflow.size := by
  have hstate := length_handlerState_le hrun hg hbd
  have hsize : 40 ≤ g.dataflow.size := by
    rw [Graph.size_of_build hg]
    exact Nat.le_add_right _ _
  have hsum : ((handlerState bd).map (stateLength g bd.eipLag)).sum ≤
      (handlerState bd).length * (g.dataflow.size + 2) := by
    refine (List.sum_le_card_nsmul _ (g.dataflow.size + 2) ?_).trans (by rw [List.length_map, smul_eq_mul])
    intro k hk
    obtain ⟨p, hp, rfl⟩ := List.mem_map.mp hk
    exact (stateLength_le g bd.eipLag p).trans (Nat.add_le_add_right (h p hp) 2)
  have hmul := Nat.mul_le_mul_right (g.dataflow.size + 2) hstate
  rw [handlerLength]
  omega

/-- A handler is as long as the trees that it evaluates. It is short if none of them is larger than the graph. -/
theorem length_handlerBody_eq {limit : Nat} {instructions : List Instruction}
    (hrun : Run.build limit instructions = .ok run) (hg : Graph.build mode run = .ok g) :
    ∃ b, generate g = .ok b ∧ ∀ h ∈ b.handlers,
      ∃ bd ∈ g.boundaries, h.retired + 1 = bd.x86Index ∧ (b.handlerBody h).length = handlerLength g bd ∧
        ((∀ p ∈ handlerState bd, g.dataflow.unfoldedSize p.2 ≤ g.dataflow.size) →
          (b.handlerBody h).length ≤ 40 * g.dataflow.size) := by
  have hordered := Run.ordered_of_build hrun
  have hwf := Graph.wellFormed_of_build hordered hg
  obtain ⟨b, hb, ⟨l⟩⟩ := exists_layout hwf
  refine ⟨b, hb, ?_⟩
  intro h hh
  obtain ⟨bd, hbd, hhandled⟩ := exists_mem_right_of_forall₂ l.forall₂_handled hh
  have hlength := length_of_handled hwf hhandled
  refine ⟨bd, hbd, hhandled.retired_succ hwf hbd, hlength, ?_⟩
  intro hsmall
  rw [hlength]
  exact handlerLength_le hordered hg hbd hsmall

theorem length_handlerBody_eq_doublings :
    ∃ run g, Run.build 3 (doublings 2) = .ok run ∧ Graph.build .protectedMode run = .ok g ∧
      ∃ b, generate g = .ok b ∧ b.handlers.length = 1 ∧ ∀ h ∈ b.handlers, h.retired = 2 ∧
        (b.handlerBody h).length = 22 ∧ (b.handlerBody h).length ≤ 40 * g.dataflow.size := by
  obtain ⟨g, h⟩ : ∃ g, (Run.build 3 (doublings 2) >>= Graph.build .protectedMode) = .ok g :=
    exists_eq_ok (by decide +kernel)
  obtain ⟨run, hrun, hg⟩ := bind_eq_ok.mp h
  have hgraph : (Graph.build .protectedMode run).toOption.all (fun g =>
      (generate g).toOption.all (·.handlers.length = 1) = true ∧ ∀ bd ∈ g.boundaries, bd.x86Index = 3 ∧
        handlerLength g bd = 22 ∧ ∀ p ∈ handlerState bd, g.dataflow.unfoldedSize p.2 ≤ g.dataflow.size) = true := by
    rw [Run.build_ok hrun]
    decide +kernel
  rw [hg] at hgraph
  obtain ⟨hone, hall⟩ := of_decide_eq_true hgraph
  obtain ⟨b, hb, hhandlers⟩ := length_handlerBody_eq hrun hg
  rw [hb] at hone
  refine ⟨run, g, hrun, hg, b, hb, of_decide_eq_true hone, ?_⟩
  intro h hh
  obtain ⟨bd, hbd, hretired, hlength, hle⟩ := hhandlers h hh
  obtain ⟨hindex, hexact, hsmall⟩ := hall bd hbd
  exact ⟨by omega, hlength.trans hexact, hle hsmall⟩

theorem mem_handlerState_of_mem_snapshot {p : Element × Node} (h : p ∈ bd.snapshot) : p ∈ handlerState bd := by
  rw [handlerState]
  split
  · exact (inElementOrder_perm _).mem_iff.mpr (List.mem_append_left _ h)
  · exact h

theorem unfoldedSize_lt_handlerLength {p : Element × Node} (h : p ∈ handlerState bd) :
    g.dataflow.unfoldedSize p.2 + 1 < handlerLength g bd := by
  have hpos := List.length_pos_of_mem h
  have hle := List.single_le_sum (fun _ _ => Nat.zero_le _) _ (List.mem_map_of_mem (f := stateLength g bd.eipLag) h)
  rw [stateLength] at hle
  rw [handlerLength]
  omega

/-- The trees of a handler are those that the elements stand for at the start of its instruction. -/
theorem exists_mem_handlerState (hrun : run.Ordered) (hg : Graph.build mode run = .ok g) (hbd : bd ∈ g.boundaries)
    {k : Nat} (hk : bd.x86Index = k + 1) {s : TreeSizes}
    (hs : (run.upTo k).ops.foldlM (TreeSizes.step? mode run.x86Count) TreeSizes.entry = some s) {e : Element}
    (he : e.isCommitted = true) (hdefines : ∃ op ∈ (run.upTo k).ops, op.defines mode e = true) :
    ∃ n, (e, n) ∈ handlerState bd ∧ g.dataflow.unfoldedSize n = s e := by
  obtain ⟨b, hb, hstart⟩ := Graph.exists_walk_of_mem_boundaries hrun hg hbd hk
  obtain ⟨b', hb', rfl⟩ := (hrun.upTo k).exists_foldlM hs
  cases hb'.symm.trans hb
  have hmem : e ∈ (b.current.changedFrom Graph.entryDefinitions).map Prod.fst :=
    (((hrun.upTo k).tracks hb).mem_changedFrom_iff e).mpr ⟨he, hdefines⟩
  obtain ⟨⟨e, n⟩, hp, rfl⟩ := List.mem_map.mp hmem
  have hsnapshot : (e, n) ∈ bd.snapshot := by
    rw [hstart]
    exact hp
  exact ⟨n, mem_handlerState_of_mem_snapshot hsnapshot,
    Graph.unfoldedSize_of_upTo hrun hg hb (Definitions.mem_changedFrom.mp hp).2.1⟩

end Body

section Doublings

namespace MicroOp

variable (mode : Mode)

theorem targets?_word (m : Microcode) (immediate : Option UInt32) (position : UInt32) (x86Index : Nat) :
    targets? mode ⟨m.word, immediate, position, x86Index⟩ = Rule.targets? mode m :=
  targets?_of_word mode rfl

theorem splitAll_doublings (k : Nat) : ∃ position, splitAll 0 0 (doublings k) =
    splitAll 0 0 (List.replicate k doubling) ++ [⟨Microcode.pop32.word, none, position, k + 1⟩] := by
  rw [doublings, splitAll_append, List.length_replicate, Nat.zero_add]
  exact ⟨_, rfl⟩

theorem sum_nodeCount_doubling (k : Nat) (position : UInt32) (x86Index : Nat) :
    ((splitAll position x86Index (List.replicate k doubling)).map (nodeCount mode)).sum = 5 * k := by
  induction k generalizing position x86Index with
  | zero => rfl
  | succ k ih =>
      have hfirst (position : UInt32) (x86Index : Nat) :
          ((split position x86Index doubling.words).map (nodeCount mode)).sum = 5 := by
        cases mode <;> rfl
      rw [List.replicate_succ, splitAll, List.map_append, List.sum_append, ih, hfirst]
      omega

theorem exists_defines_eax {k : Nat} (hk : 0 < k) :
    ∃ op ∈ splitAll 0 0 (List.replicate k doubling), op.defines mode .eax = true := by
  obtain ⟨k, rfl⟩ : ∃ j, k = j + 1 := ⟨k - 1, by omega⟩
  refine ⟨⟨(Microcode.store0 .eax).word, none, 1, 1⟩, List.mem_append_left _ (by decide), ?_⟩
  cases mode <;> rfl

end MicroOp

theorem Run.exists_build_doublings {k limit : Nat} (hlimit : k < limit) (hk : k + 1 < UInt32.size) :
    ∃ run position, build limit (doublings k) = .ok run ∧
      run.ops = (run.upTo k).ops ++ [⟨Microcode.pop32.word, none, position, k + 1⟩] ∧
      (run.upTo k).ops = MicroOp.splitAll 0 0 (List.replicate k doubling) := by
  obtain ⟨position, hsplit⟩ := MicroOp.splitAll_doublings k
  have htake : (doublings k).take (max limit 1) = doublings k := List.take_of_length_le (by simp [doublings]; omega)
  have hwords : ∃ i ∈ (doublings k).take (max limit 1), i.words ≠ [] := by
    rw [htake]
    exact ⟨_, List.mem_append_right _ List.mem_cons_self, List.cons_ne_nil _ _⟩
  have hrun := build_of_words (by rw [htake]; simpa [doublings] using hk) hwords
  rw [htake, hsplit] at hrun
  have hfilter : (MicroOp.splitAll 0 0 (List.replicate k doubling)).filter (·.x86Index ≤ k) =
      MicroOp.splitAll 0 0 (List.replicate k doubling) := by
    rw [List.filter_eq_self]
    intro op hop
    simpa using MicroOp.le_of_mem_splitAll hop
  refine ⟨_, position, hrun, ?_, ?_⟩
  · simp [upTo, hfilter]
  · simp [upTo, hfilter]

namespace TreeSizes

variable {s : TreeSizes} (mode : Mode) (last : Nat)

theorem foldlM_doubling (h : 0 < s .eax) (position : UInt32) (x86Index : Nat) :
    ∃ s', (MicroOp.split position x86Index doubling.words).foldlM (step? mode last) s = some s' ∧
      s' .eax = 2 * s .eax + 4 ∧ s' .ss = s .ss ∧ s' .esp = s .esp := by
  have hsplit : MicroOp.split position x86Index doubling.words =
      [Microcode.load0 .eax, .load1 .eax, .add, .store0 .eax].map fun m => ⟨m.word, none, position, x86Index⟩ := rfl
  have hsize : s .eax + 1 + (s .eax + 1) + 1 + 1 = 2 * s .eax + 4 := by omega
  rw [hsplit]
  simp [step?, MicroOp.targets?_word, Rule.targets?, Rule.binary, Rule.reads, Register.element, Target.plain,
    Target.isOrdered, admits, provides, ofTarget, ofOperand, h, Function.update, hsize]

theorem foldlM_replicate_doubling (k : Nat) (h : 0 < s .eax) (position : UInt32) (x86Index : Nat) :
    ∃ s', (MicroOp.splitAll position x86Index (List.replicate k doubling)).foldlM (step? mode last) s = some s' ∧
      s' .eax + 4 = 2 ^ k * (s .eax + 4) ∧ s' .ss = s .ss ∧ s' .esp = s .esp := by
  induction k generalizing s position x86Index with
  | zero => exact ⟨s, rfl, by simp, rfl, rfl⟩
  | succ k ih =>
      obtain ⟨s₁, hs₁, heax₁, hss₁, hesp₁⟩ :=
        foldlM_doubling mode last h (position + doubling.length) (x86Index + 1)
      obtain ⟨s₂, hs₂, heax₂, hss₂, hesp₂⟩ :=
        ih (by omega : 0 < s₁ .eax) (position + doubling.length) (x86Index + 1)
      refine ⟨s₂, ?_, ?_, hss₂.trans hss₁, hesp₂.trans hesp₁⟩
      · rw [List.replicate_succ, MicroOp.splitAll, List.foldlM_append, hs₁]
        exact hs₂
      · have hdouble : s₁ .eax + 4 = 2 * (s .eax + 4) := by omega
        rw [heax₂, hdouble, pow_succ, Nat.mul_assoc]

theorem exists_step?_pop32 (hss : 0 < s .ss) (hesp : 0 < s .esp) (position : UInt32) (x86Index : Nat) :
    ∃ s', s.step? mode last ⟨Microcode.pop32.word, none, position, x86Index⟩ = some s' := by
  simp [step?, MicroOp.targets?_word, Rule.targets?, Rule.reads, Target.plain, Target.faulting, admits, provides, hss,
    hesp]

end TreeSizes

theorem Graph.exists_build_doublings (mode : Mode) {k limit : Nat} (hlimit : k < limit) (hk : k + 1 < UInt32.size) :
    ∃ run g s, Run.build limit (doublings k) = .ok run ∧ build mode run = .ok g ∧ g.dataflow.size = 5 * k + 42 ∧
      (run.upTo k).ops = MicroOp.splitAll 0 0 (List.replicate k doubling) ∧
      (run.upTo k).ops.foldlM (TreeSizes.step? mode run.x86Count) TreeSizes.entry = some s ∧
      s .eax + 4 = 2 ^ k * 5 ∧ ∃ bd ∈ g.boundaries, bd.x86Index = k + 1 := by
  obtain ⟨run, position, hrun, hops, hupTo⟩ := Run.exists_build_doublings hlimit hk
  have hordered := Run.ordered_of_build hrun
  obtain ⟨s, hs, heax, hss, hesp⟩ :=
    TreeSizes.foldlM_replicate_doubling mode run.x86Count k (s := .entry) (by decide) 0 0
  rw [← hupTo] at hs
  obtain ⟨s', hs'⟩ := TreeSizes.exists_step?_pop32 mode run.x86Count (s := s) (by rw [hss]; decide)
    (by rw [hesp]; decide) position (k + 1)
  obtain ⟨g, hg⟩ : ∃ g, build mode run = .ok g := by
    apply exists_build hordered (s := s')
    rw [hops, List.foldlM_append, hs]
    simpa using hs'
  refine ⟨run, g, s, hrun, hg, ?_, hupTo, hs, heax, ?_⟩
  · have hpop : MicroOp.nodeCount mode ⟨Microcode.pop32.word, none, position, k + 1⟩ = 2 := by cases mode <;> rfl
    have hentry : entryDataflow.size = 40 := rfl
    rw [size_of_build hg, hops, hupTo, List.map_append, List.sum_append, MicroOp.sum_nodeCount_doubling,
      List.map_singleton, List.sum_singleton, hpop, hentry]
    omega
  · rw [exists_boundary_iff hordered hg]
    exact ⟨⟨Microcode.pop32.word, none, position, k + 1⟩, by simp [hops], rfl, by cases mode <;> rfl⟩

namespace Body

/-- The graph grows linearly with the number of doublings, but a handler exponentially. -/
theorem exists_long_handler (mode : Mode) {k limit : Nat} (hpos : 0 < k) (hlimit : k < limit)
    (hk : k + 1 < UInt32.size) :
    ∃ run g b h, Run.build limit (doublings k) = .ok run ∧ Graph.build mode run = .ok g ∧ generate g = .ok b ∧
      h ∈ b.handlers ∧ g.dataflow.size = 5 * k + 42 ∧ 5 * 2 ^ k ≤ (b.handlerBody h).length + 2 := by
  obtain ⟨run, g, s, hrun, hg, hsize, hupTo, hs, heax, bd, hbd, hindex⟩ :=
    Graph.exists_build_doublings mode hlimit hk
  have hordered := Run.ordered_of_build hrun
  have hwf := Graph.wellFormed_of_build hordered hg
  obtain ⟨b, hb, ⟨l⟩⟩ := exists_layout hwf
  obtain ⟨h, hh, hhandled⟩ := exists_mem_left_of_forall₂ l.forall₂_handled hbd
  have hdefines : ∃ op ∈ (run.upTo k).ops, op.defines mode .eax = true := by
    rw [hupTo]
    exact MicroOp.exists_defines_eax mode hpos
  obtain ⟨n, hn, htree⟩ := exists_mem_handlerState hordered hg hbd hindex hs rfl hdefines
  have hlt : g.dataflow.unfoldedSize n + 1 < handlerLength g bd := unfoldedSize_lt_handlerLength hn
  refine ⟨run, g, b, h, hrun, hg, hb, hh, hsize, ?_⟩
  rw [length_of_handled hwf hhandled]
  omega

/-- After ten doublings a handler is longer than forty times the graph. -/
theorem exists_lt_length_handlerBody :
    ∃ run g b h, Run.build 1000 (doublings 10) = .ok run ∧ Graph.build .protectedMode run = .ok g ∧
      generate g = .ok b ∧ h ∈ b.handlers ∧ 40 * g.dataflow.size < (b.handlerBody h).length := by
  obtain ⟨run, g, b, h, hrun, hg, hb, hh, hsize, hlength⟩ :=
    exists_long_handler .protectedMode (by decide : 0 < 10) (by decide : 10 < 1000) (by decide)
  exact ⟨run, g, b, h, hrun, hg, hb, hh, by omega⟩

end Body

end Doublings

end Dynarec
