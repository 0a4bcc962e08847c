import Dynarec.Graph
import Dynarec.Proofs.DataflowShape

namespace Dynarec

namespace Boundary

/-- The state that the boundary leaves is made of nodes before number `k`. -/
structure Sound (bd : Boundary) (k : Nat) : Prop where
  committed : (bd.snapshot.map Prod.fst).Sublist (Element.all.filter Element.isCommitted)
  snapshot_lt : ∀ p ∈ bd.snapshot, p.2.index < k
  eip_lt : bd.eip.index < k

theorem Sound.mono {bd : Boundary} {k l : Nat} (h : bd.Sound k) (hkl : k ≤ l) : bd.Sound l :=
  ⟨h.committed, fun p hp => Nat.lt_of_lt_of_le (h.snapshot_lt p hp) hkl, Nat.lt_of_lt_of_le h.eip_lt hkl⟩

end Boundary

namespace Definitions

theorem mem_changedFrom {current entry : Definitions} {p : Element × Node} :
    p ∈ current.changedFrom entry ↔
      p.1.isCommitted = true ∧ current.get p.1 = some p.2 ∧ current.get p.1 ≠ entry.get p.1 := by
  obtain ⟨e, n⟩ := p
  simp only [changedFrom, List.mem_filterMap, List.mem_filter, Element.mem_all, true_and]
  constructor
  · rintro ⟨e', hc, h⟩
    split at h
    · cases h
    · rename_i n' hn
      split at h
      · cases h
      · rename_i hne
        cases h
        exact ⟨hc, hn, hne⟩
  · rintro ⟨hc, hn, hne⟩
    refine ⟨e, hc, ?_⟩
    rw [hn] at hne ⊢
    simp [hne]

theorem changedFrom_elements (current entry : Definitions) :
    ((current.changedFrom entry).map Prod.fst).Sublist (Element.all.filter Element.isCommitted) := by
  rw [changedFrom]
  generalize Element.all.filter Element.isCommitted = elements
  induction elements with
  | nil => exact List.Sublist.slnil
  | cons e elements ih =>
      rw [List.filterMap_cons]
      split
      · exact ih.cons e
      · rename_i p hp
        have he : p.1 = e := by
          split at hp
          · cases hp
          · split at hp <;> cases hp
            rfl
        rw [List.map_cons, he]
        exact ih.cons_cons e

end Definitions

namespace Graph

theorem entryDefinitions_get? {e : Element} {n : Node} (h : entryDefinitions.get e = some n) :
    entryDataflow.get? n = some (.ofEntry e) := by
  revert h
  cases e <;> simp only [entryDefinitions, ElementMap.get_ofFn] <;> intro h <;> cases h <;> rfl

namespace Builder

theorem operand_ok {b b' : Builder} {op : MicroOp} {m : Microcode} {o : Operand} {n : Node}
    (h : b.operand op m o = .ok (n, b')) :
    (b' = b ∧ ∃ e, o = .element e ∧ b.current.get e = some n) ∨
      ∃ value, b.push (.ofConstant value op.x86Index) = (n, b') ∧
        ((o = .immediate ∧ op.immediate = some value) ∨ (o = .length ∧ op.position - b.eipSynced = value)) := by
  cases o with
  | element e =>
      rw [operand] at h
      split at h
      · rename_i n' hn
        cases h
        exact .inl ⟨rfl, e, rfl, hn⟩
      · cases h
  | immediate =>
      rw [operand] at h
      split at h
      · rename_i value hv
        exact .inr ⟨value, Except.ok.inj h, .inl ⟨rfl, hv⟩⟩
      · cases h
  | length => exact .inr ⟨_, Except.ok.inj h, .inr ⟨rfl, rfl⟩⟩

def place (b : Builder) (t : Target) (d : Definition) : Builder :=
  let n := b.dataflow.next
  let b := (b.push d).2
  let b := if t.isOrdered then { b with ordered := b.ordered.push n } else b
  if t.canFault then b.protect n else b

theorem target_ok {last : Nat} {op : MicroOp} {m : Microcode} {b b' : Builder} {t : Target} {n : Node}
    (h : target last op m b t = .ok (n, b')) :
    ∃ inputs b₁, operands op m b t.inputs = .ok (inputs, b₁) ∧ n = b₁.dataflow.next ∧
      b' = b₁.place t (.ofTarget m t op.x86Index inputs) := by
  rw [target, bind_eq_ok] at h
  obtain ⟨⟨inputs, b₁⟩, hin, h⟩ := h
  dsimp only [push] at h
  split at h
  · cases h
  · cases h
    exact ⟨inputs, b₁, hin, rfl, rfl⟩

theorem step_ok {mode : Mode} {last : Nat} {b b' : Builder} {op : MicroOp} (h : b.step mode last op = .ok b') :
    ∃ m ts defined b₁, Microcode.ofWord? op.word = some m ∧ Rule.targets? mode m = some ts ∧
      targets last op m (b.enter op.x86Index) ts = .ok (defined, b₁) ∧
      b' = { defined.foldl (define op.position) b₁ with position := op.position } := by
  rw [step, bind_eq_ok] at h
  obtain ⟨m, hm, h⟩ := h
  rw [MicroOp.microcode] at hm
  split at hm
  · rename_i m' hword
    cases hm
    dsimp only at h
    split at h
    · cases h
    · rename_i ts hts
      rw [bind_eq_ok] at h
      obtain ⟨⟨defined, b₁⟩, htargets, h⟩ := h
      exact ⟨m, ts, defined, b₁, hword, hts, htargets, (pure_eq_ok.mp h).symm⟩
  · cases hm

structure Unmoved (b b' : Builder) : Prop where
  current : b'.current = b.current
  eipSynced : b'.eipSynced = b.eipSynced
  position : b'.position = b.position
  start : b'.start = b.start

theorem Unmoved.refl (b : Builder) : Unmoved b b := ⟨rfl, rfl, rfl, rfl⟩

theorem Unmoved.trans {b₁ b₂ b₃ : Builder} (h : Unmoved b₁ b₂) (h' : Unmoved b₂ b₃) : Unmoved b₁ b₃ :=
  ⟨h'.current.trans h.current, h'.eipSynced.trans h.eipSynced, h'.position.trans h.position,
    h'.start.trans h.start⟩

theorem unmoved_push (b : Builder) (d : Definition) : Unmoved b (b.push d).2 := ⟨rfl, rfl, rfl, rfl⟩

theorem protect_eq (b : Builder) (n : Node) :
    b.protect n = { b with boundaries := (b.protect n).boundaries } := by
  unfold protect
  split
  · split <;> rfl
  · rfl

theorem unmoved_place (b : Builder) (t : Target) (d : Definition) : Unmoved b (b.place t d) := by
  unfold place
  dsimp only
  split <;> split <;> first | (rw [protect_eq]; exact ⟨rfl, rfl, rfl, rfl⟩) | exact ⟨rfl, rfl, rfl, rfl⟩

theorem place_dataflow (b : Builder) (t : Target) (d : Definition) :
    (b.place t d).dataflow = b.dataflow.push d := by
  unfold place
  dsimp only
  split <;> split <;> first | (rw [protect_eq]; rfl) | rfl

theorem place_ordered (b : Builder) (t : Target) (d : Definition) :
    (b.place t d).ordered.toList = b.ordered.toList ++ if t.isOrdered then [b.dataflow.next] else [] := by
  unfold place
  dsimp only
  split <;> split <;> first | (rw [protect_eq]; simp [push]) | simp [push]

theorem protect_boundaries_congr {b b' : Builder} (hb : b'.boundaries = b.boundaries) (hs : b'.start = b.start)
    (n : Node) : (b'.protect n).boundaries = (b.protect n).boundaries := by
  unfold protect
  rw [hb, hs]
  split
  · split <;> rfl
  · rfl

theorem place_boundaries (b : Builder) (t : Target) (d : Definition) :
    (b.place t d).boundaries = if t.canFault then (b.protect b.dataflow.next).boundaries else b.boundaries := by
  unfold place
  dsimp only
  split <;> split <;> first | rfl | (apply protect_boundaries_congr <;> rfl)

/-- The boundary that a node is put under is the last one if it belongs to the same instruction,
else a new one. -/
theorem protect_cases (b : Builder) (n : Node) :
    (∃ older last, b.boundaries.toList = older ++ [last] ∧ last.x86Index = b.start.x86Index ∧
        (b.protect n).boundaries.toList = older ++ [{ last with nodes := last.nodes ++ [n] }]) ∨
      ((∀ older last, b.boundaries.toList = older ++ [last] → last.x86Index ≠ b.start.x86Index) ∧
        (b.protect n).boundaries.toList = b.boundaries.toList ++ [{ b.start with nodes := [n] }]) := by
  rcases List.eq_nil_or_concat b.boundaries.toList with hnil | ⟨older, last, hlast⟩
  · have hback : b.boundaries.back? = none := by
      rw [← Array.getLast?_toList, hnil, List.getLast?_nil]
    refine .inr ⟨fun older last h => by simp [hnil] at h, ?_⟩
    simp [protect, hback]
  · have hback : b.boundaries.back? = some last := by
      rw [← Array.getLast?_toList, hlast, List.concat_eq_append, List.getLast?_concat]
    rw [List.concat_eq_append] at hlast
    by_cases hi : last.x86Index = b.start.x86Index
    · refine .inl ⟨older, last, hlast, hi, ?_⟩
      simp [protect, hback, hi, hlast]
    · refine .inr ⟨?_, by simp [protect, hback, hi]⟩
      intro older' last' h
      rw [hlast] at h
      obtain ⟨_, h⟩ := List.append_inj' h rfl
      cases h
      exact hi

/-- Nodes are only ever added, and boundaries only ever cover more nodes. -/
structure Grows (b b' : Builder) : Prop where
  dataflow : b.dataflow.definitions.toList <+: b'.dataflow.definitions.toList
  boundaries : ∀ bd ∈ b.boundaries.toList, ∃ bd' ∈ b'.boundaries.toList,
    bd' = { bd with nodes := bd'.nodes } ∧ ∀ n ∈ bd.nodes, n ∈ bd'.nodes

theorem grows_of_eq {b b' : Builder} (hd : b'.dataflow = b.dataflow) (hb : b'.boundaries = b.boundaries) : Grows b b' :=
  ⟨hd ▸ List.prefix_rfl, fun bd hbd => ⟨bd, hb ▸ hbd, rfl, fun _ h => h⟩⟩

theorem Grows.trans {b₁ b₂ b₃ : Builder} (h : Grows b₁ b₂) (h' : Grows b₂ b₃) : Grows b₁ b₃ := by
  refine ⟨h.dataflow.trans h'.dataflow, ?_⟩
  intro bd hbd
  obtain ⟨bd₂, hbd₂, heq₂, hsub₂⟩ := h.boundaries bd hbd
  obtain ⟨bd₃, hbd₃, heq₃, hsub₃⟩ := h'.boundaries bd₂ hbd₂
  refine ⟨bd₃, hbd₃, ?_, fun n hn => hsub₃ n (hsub₂ n hn)⟩
  rw [heq₃, heq₂]

theorem grows_push (b : Builder) (d : Definition) : Grows b (b.push d).2 := by
  refine ⟨?_, (grows_of_eq rfl rfl).boundaries⟩
  simp [push, Dataflow.push]

theorem grows_place (b : Builder) (t : Target) (d : Definition) : Grows b (b.place t d) := by
  refine ⟨?_, ?_⟩
  · rw [place_dataflow]
    simp [Dataflow.push]
  · rw [place_boundaries]
    intro bd hbd
    cases t.canFault with
    | false => exact ⟨bd, hbd, rfl, fun _ h => h⟩
    | true =>
        rw [if_pos rfl]
        rcases protect_cases b b.dataflow.next with ⟨older, last, hlast, _, hp⟩ | ⟨_, hp⟩
        · rw [hp]
          rw [hlast, List.mem_append, List.mem_singleton] at hbd
          rcases hbd with hbd | rfl
          · exact ⟨bd, List.mem_append_left _ hbd, rfl, fun _ h => h⟩
          · refine ⟨_, List.mem_append_right _ List.mem_cons_self, rfl, fun n hn => ?_⟩
            exact List.mem_append_left _ hn
        · rw [hp]
          exact ⟨bd, List.mem_append_left _ hbd, rfl, fun _ h => h⟩

theorem grows_operands {b b' : Builder} {op : MicroOp} {m : Microcode} {os : List Operand} {ns : List Node}
    (h : operands op m b os = .ok (ns, b')) : Grows b b' := by
  induction os generalizing b b' ns with
  | nil =>
      cases h
      exact grows_of_eq rfl rfl
  | cons o os ih =>
      rw [operands, bind_eq_ok] at h
      obtain ⟨⟨n, b₁⟩, hn, h⟩ := h
      obtain ⟨⟨ns', b₂⟩, hns, h⟩ := bind_eq_ok.mp h
      cases h
      refine Grows.trans ?_ (ih hns)
      rcases operand_ok hn with ⟨rfl, _⟩ | ⟨value, hpush, _⟩
      · exact grows_of_eq rfl rfl
      · cases hpush
        exact grows_push b _

theorem grows_targets {b b' : Builder} {last : Nat} {op : MicroOp} {m : Microcode} {ts : List Target}
    {defined : List (Element × Node)} (h : targets last op m b ts = .ok (defined, b')) : Grows b b' := by
  induction ts generalizing b b' defined with
  | nil =>
      cases h
      exact grows_of_eq rfl rfl
  | cons t ts ih =>
      rw [targets, bind_eq_ok] at h
      obtain ⟨⟨n, b₁⟩, hn, h⟩ := h
      obtain ⟨⟨defined', b₂⟩, hrest, h⟩ := bind_eq_ok.mp h
      cases h
      obtain ⟨inputs, b₃, hin, _, rfl⟩ := target_ok hn
      exact ((grows_operands hin).trans (grows_place b₃ t _)).trans (ih hrest)

theorem grows_foldl_define (position : UInt32) (defined : List (Element × Node)) (b : Builder) :
    Grows b (defined.foldl (define position) b) := by
  induction defined generalizing b with
  | nil => exact grows_of_eq rfl rfl
  | cons p defined ih => exact (grows_of_eq rfl rfl : Grows b (b.define position p)).trans (ih _)

theorem grows_enter (b : Builder) (x86Index : Nat) : Grows b (b.enter x86Index) := by
  unfold enter
  split <;> exact grows_of_eq rfl rfl

theorem grows_step {mode : Mode} {last : Nat} {b b' : Builder} {op : MicroOp} (h : b.step mode last op = .ok b') :
    Grows b b' := by
  obtain ⟨m, ts, defined, b₁, _, _, htargets, rfl⟩ := step_ok h
  have hdefine := grows_foldl_define op.position defined b₁
  exact ((grows_enter b op.x86Index).trans (grows_targets htargets)).trans
    (hdefine.trans (grows_of_eq rfl rfl))

theorem grows_foldlM {mode : Mode} {last : Nat} {b b' : Builder} {ops : List MicroOp}
    (h : ops.foldlM (step mode last) b = .ok b') : Grows b b' := by
  induction ops generalizing b with
  | nil =>
      cases h
      exact grows_of_eq rfl rfl
  | cons op ops ih =>
      rw [List.foldlM_cons, bind_eq_ok] at h
      obtain ⟨b₁, h₁, h⟩ := h
      exact (grows_step h₁).trans (ih h)

end Builder

end Graph

end Dynarec
