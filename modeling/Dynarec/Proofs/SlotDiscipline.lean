import Dynarec.Proofs.HandlerSize
import Dynarec.Proofs.VerifierSoundness

namespace Dynarec

namespace Op

def saved? : Op → Option Slot
  | .save s => some s
  | _ => none

def evaluates : Op → Bool
  | .read _ | .constant _ | .apply _ => true
  | _ => false

theorem saved?_eq_some {op : Op} {s : Slot} : op.saved? = some s ↔ op = .save s := by
  cases op <;> simp [saved?]

theorem saved?_of_evaluates {op : Op} (h : op.evaluates = true) : op.saved? = none := by
  cases op <;> first | rfl | cases h

end Op

namespace Emission

/-- The ops save the slots from number `k` to just before `k'`, in order, and each of them right after the op
whose value it keeps. -/
structure Keeps (k : Nat) (ops : List Op) (k' : Nat) : Prop where
  numbered : (List.range k).map Slot.mk ++ ops.filterMap Op.saved? = (List.range k').map Slot.mk
  adjacent : ops.IsChain fun op op' => op'.saved?.isSome = true → op.evaluates = true
  first : ∀ op ∈ ops.head?, op.saved? = none

theorem keeps_of_none {ops : List Op} (h : ∀ op ∈ ops, op.saved? = none) (k : Nat) : Keeps k ops k where
  numbered := by rw [List.filterMap_eq_nil_iff.mpr h, List.append_nil]
  adjacent := by
    apply List.Pairwise.isChain
    apply List.pairwise_of_forall_mem_list
    intro op _ op' hop' hsaved
    rw [h op' hop'] at hsaved
    cases hsaved
  first op hop := h op (List.mem_of_head? hop)

theorem Keeps.append {k k₁ k' : Nat} {ops ops' : List Op} (h : Keeps k ops k₁) (h' : Keeps k₁ ops' k') :
    Keeps k (ops ++ ops') k' where
  numbered := by rw [List.filterMap_append, ← List.append_assoc, h.numbered, h'.numbered]
  adjacent := by
    rw [List.isChain_append]
    refine ⟨h.adjacent, h'.adjacent, ?_⟩
    intro op _ op' hop' hsaved
    rw [h'.first op' hop'] at hsaved
    cases hsaved
  first := by
    cases ops with
    | nil => exact h'.first
    | cons op ops => exact h.first

theorem keeps_evaluation {op : Op} (hop : op.evaluates = true) (needsSlot : Table Node Bool) (s : Emission) (n : Node) :
    Keeps s.slots (op :: saves needsSlot s n) (s.slots + (saves needsSlot s n).length) := by
  rw [saves]
  split
  · refine ⟨?_, ?_, ?_⟩
    · rw [List.filterMap_cons_none (Op.saved?_of_evaluates hop)]
      simp [Op.saved?, List.range_succ]
    · simp [hop]
    · simp [Op.saved?_of_evaluates hop]
  · exact keeps_of_none (by simp [Op.saved?_of_evaluates hop]) _

variable {flow : Dataflow} {needsSlot : Table Node Bool} {status : Table Node Status} {s s' : Emission}
  {ns : List Node} {ops : List Op}

theorem evaluates_leafOp? {k : Kind} {op : Op} (h : leafOp? k = some op) : op.evaluates = true := by
  rcases read_or_constant_of_leafOp? h with ⟨e, rfl⟩ | ⟨value, rfl⟩ <;> rfl

theorem Emits.keeps (h : Emits flow needsSlot s ns ops s') : Keeps s.slots ops s'.slots := by
  induction h with
  | nil s => exact keeps_of_none (List.forall_mem_nil _) _
  | @restore s s' n ns ops slot _ _ ih =>
      exact (keeps_of_none (List.forall_mem_singleton.mpr rfl) s.slots : Keeps _ [.restore slot] _).append ih
  | leaf _ _ _ hop _ ih =>
      rw [finish_slots] at ih
      exact (keeps_evaluation (evaluates_leafOp? hop) needsSlot _ _).append ih
  | op _ _ _ _ _ _ ihin ih =>
      rw [finish_slots] at ih
      exact ihin.append ((keeps_evaluation rfl needsSlot _ _).append ih)

theorem Turns.keeps (h : Turns flow needsSlot s ns ops s') : Keeps s.slots ops s'.slots := by
  induction h with
  | nil s => exact keeps_of_none (List.forall_mem_nil _) _
  | cons _ _ _ _ hin _ ih =>
      rw [push_slots, finish_slots] at ih
      have hdiscard := (keeps_of_none (List.forall_mem_singleton.mpr rfl) _ : Keeps _ [.discard] _).append ih
      exact hin.keeps.append ((keeps_evaluation rfl needsSlot _ _).append hdiscard)

theorem Fresh.saved?_eq_none (h : Fresh flow status ns ops) : ∀ op ∈ ops, op.saved? = none := by
  induction h with
  | nil => exact List.forall_mem_nil _
  | restore _ _ _ _ ih => exact List.forall_mem_cons.mpr ⟨rfl, ih⟩
  | leaf _ _ hop _ ih => exact List.forall_mem_cons.mpr ⟨Op.saved?_of_evaluates (evaluates_leafOp? hop), ih⟩
  | op _ _ _ _ _ ihin ih => exact List.forall_mem_append.mpr ⟨ihin, List.forall_mem_cons.mpr ⟨rfl, ih⟩⟩

theorem FreshState.saved?_eq_none {g : Graph} {eipLag : UInt32} {ps : List (Element × Node)}
    (h : FreshState g status eipLag ps ops) : ∀ op ∈ ops, op.saved? = none := by
  induction h with
  | nil => exact List.forall_mem_nil _
  | cons hp _ ih =>
      refine List.forall_mem_append.mpr ⟨hp.saved?_eq_none, List.forall_mem_append.mpr ⟨?_, ih⟩⟩
      rw [catchUp]
      split <;> simp [Op.saved?]

theorem saved?_commits (state : List (Element × Node)) : ∀ op ∈ Body.commits state, op.saved? = none := by
  intro op hop
  obtain ⟨p, _, rfl⟩ := List.mem_map.mp hop
  rfl

theorem Handles.saved?_eq_none {g : Graph} {applyAt : Table Node (Option Nat)} {target : Nat} {bds : List Boundary}
    {hs : List Handler} (h : Handles g status applyAt target bds ops hs) : ∀ op ∈ ops, op.saved? = none := by
  induction h with
  | nil target => exact List.forall_mem_nil _
  | cons _ hstate _ ih =>
      refine List.forall_mem_append.mpr ⟨hstate.saved?_eq_none, List.forall_mem_append.mpr ⟨saved?_commits _, ?_⟩⟩
      exact List.forall_mem_cons.mpr ⟨rfl, ih⟩

section Saves

variable {k : Nat} (h : Keeps 0 ops k)
include h

theorem Keeps.filterMap_eq : ops.filterMap Op.saved? = (List.range k).map Slot.mk := h.numbered

theorem Keeps.exists_save {i : Nat} (hi : i < k) : ∃ pc : Nat, ops[pc]? = some (.save ⟨i⟩) := by
  have hmem : Slot.mk i ∈ ops.filterMap Op.saved? := by
    rw [h.filterMap_eq]
    exact List.mem_map_of_mem (List.mem_range.mpr hi)
  obtain ⟨op, hop, hsaved⟩ := List.mem_filterMap.mp hmem
  rw [Op.saved?_eq_some.mp hsaved] at hop
  exact List.mem_iff_getElem?.mp hop

theorem Keeps.lt_of_save {pc : Nat} {s : Slot} (hpc : ops[pc]? = some (.save s)) : s.index < k := by
  have hmem : s ∈ ops.filterMap Op.saved? := List.mem_filterMap.mpr ⟨_, List.mem_of_getElem? hpc, rfl⟩
  rw [h.filterMap_eq] at hmem
  obtain ⟨i, hi, rfl⟩ := List.mem_map.mp hmem
  exact List.mem_range.mp hi

theorem Keeps.save_unique {pc pc' : Nat} {s : Slot} (hpc : ops[pc]? = some (.save s))
    (hpc' : ops[pc']? = some (.save s)) : pc = pc' := by
  have hnodup : (ops.filterMap Op.saved?).Nodup := by
    rw [h.filterMap_eq]
    exact List.nodup_range.map fun i j hij => congrArg Slot.index hij
  have hne {i j : Nat} (hlt : i < j) (hi : ops[i]? = some (.save s)) (hj : ops[j]? = some (.save s)) : False := by
    obtain ⟨hi, hopi⟩ := List.getElem?_eq_some_iff.mp hi
    obtain ⟨hj, hopj⟩ := List.getElem?_eq_some_iff.mp hj
    have hdiffer := List.pairwise_iff_getElem.mp (List.pairwise_filterMap.mp hnodup) i j hi hj hlt
    rw [hopi, hopj] at hdiffer
    exact hdiffer s rfl s rfl rfl
  obtain hlt | heq | hgt := Nat.lt_trichotomy pc pc'
  · exact (hne hlt hpc hpc').elim
  · exact heq
  · exact (hne hgt hpc' hpc).elim

theorem Keeps.exists_evaluation {pc : Nat} {s : Slot} (hpc : ops[pc]? = some (.save s)) :
    ∃ pc' op, pc = pc' + 1 ∧ ops[pc']? = some op ∧ op.evaluates = true := by
  cases pc with
  | zero =>
      have hfirst := h.first (.save s) (by rw [List.head?_eq_getElem?]; exact hpc)
      cases hfirst
  | succ pc =>
      obtain ⟨hlt, hop⟩ := List.getElem?_eq_some_iff.mp hpc
      have hbefore := List.isChain_iff_getElem.mp h.adjacent pc hlt
      rw [hop] at hbefore
      exact ⟨pc, _, rfl, List.getElem?_eq_getElem _, hbefore rfl⟩

end Saves

end Emission

namespace Computes

variable {flow : Dataflow} {c c' : Contents} {code code' : AnnotatedCode}

theorem of_append (h : Computes flow c (code ++ code') c') :
    ∃ c₁, Computes flow c code c₁ ∧ Computes flow c₁ code' c' := by
  induction code generalizing c with
  | nil => exact ⟨c, .nil c, h⟩
  | cons p code ih =>
      cases h with
      | leaf hd hop h =>
          obtain ⟨c₁, h₁, h⟩ := ih h
          exact ⟨c₁, .leaf hd hop h₁, h⟩
      | apply hd hk h =>
          obtain ⟨c₁, h₁, h⟩ := ih h
          exact ⟨c₁, .apply hd hk h₁, h⟩
      | save h =>
          obtain ⟨c₁, h₁, h⟩ := ih h
          exact ⟨c₁, .save h₁, h⟩
      | restore hs h =>
          obtain ⟨c₁, h₁, h⟩ := ih h
          exact ⟨c₁, .restore hs h₁, h⟩
      | discard h =>
          obtain ⟨c₁, h₁, h⟩ := ih h
          exact ⟨c₁, .discard h₁, h⟩
      | commit h =>
          obtain ⟨c₁, h₁, h⟩ := ih h
          exact ⟨c₁, .commit h₁, h⟩

theorem isSome_of_evaluates (h : Computes flow c code c') : ∀ p ∈ code, p.1.evaluates = true → p.2.isSome = true := by
  induction h with
  | nil c => exact List.forall_mem_nil _
  | leaf _ _ _ ih | apply _ _ _ ih => exact List.forall_mem_cons.mpr ⟨fun _ => rfl, ih⟩
  | save _ ih | restore _ _ ih | discard _ ih | commit _ ih => exact List.forall_mem_cons.mpr ⟨nofun, ih⟩

theorem slots_of_not_saved (h : Computes flow c code c') {s : Slot} (hs : .save s ∉ code.map Prod.fst) :
    c'.slots s = c.slots s := by
  induction h with
  | nil c => rfl
  | leaf _ _ _ ih | apply _ _ _ ih | restore _ _ ih | discard _ ih | commit _ ih =>
      exact ih fun hmem => hs (List.mem_cons_of_mem _ hmem)
  | @save stack slots n s' code c _ ih =>
      rw [List.map_cons, List.mem_cons, not_or] at hs
      rw [ih hs.2]
      exact if_neg fun heq => hs.1 (congrArg Op.save heq)

theorem exists_save_of_restore (h : Computes flow c code c') {s : Slot} (hc : c.slots s = none) {pc : Nat}
    (hpc : (code.map Prod.fst)[pc]? = some (.restore s)) : ∃ pc' < pc, (code.map Prod.fst)[pc']? = some (.save s) := by
  rw [List.getElem?_map, Option.map_eq_some_iff] at hpc
  obtain ⟨⟨op, o⟩, hpc, rfl⟩ := hpc
  obtain ⟨hlt, hop⟩ := List.getElem?_eq_some_iff.mp hpc
  rw [← List.take_append_drop pc code, List.drop_eq_getElem_cons hlt, hop] at h
  obtain ⟨c₁, hbefore, h⟩ := h.of_append
  -- the slot holds a node by then, and it held none at first
  have hsaved : .save s ∈ (code.take pc).map Prod.fst := by
    by_contra hnone
    have hslot := hbefore.slots_of_not_saved hnone
    rw [hc] at hslot
    cases h with
    | leaf _ hleaf _ => cases Emission.evaluates_leafOp? hleaf
    | restore hs _ => cases hslot.symm.trans hs
  rw [List.map_take] at hsaved
  obtain ⟨pc', hlt', hop'⟩ := List.mem_take_iff_getElem.mp hsaved
  exact ⟨pc', by omega, List.getElem?_eq_some_iff.mpr ⟨_, hop'⟩⟩

theorem of_evaluation {op : Op} {n : Node} (h : Computes flow c ((op, some n) :: code) c') :
    ∃ stack, Computes flow ⟨n :: stack, c.slots⟩ code c' := by
  cases h with
  | leaf _ _ h | apply _ _ h => exact ⟨_, h⟩

theorem of_save {s : Slot} {o : Option Node} (h : Computes flow c ((.save s, o) :: code) c') :
    ∃ n stack, c.stack = n :: stack ∧
      Computes flow ⟨c.stack, fun s' => if s' = s then some n else c.slots s'⟩ code c' := by
  cases h with
  | leaf _ hleaf _ => cases Emission.evaluates_leafOp? hleaf
  | save h => exact ⟨_, _, rfl, h⟩

/-- What is saved right after it was computed stays in the slot. -/
theorem slot_of_evaluation {before after : AnnotatedCode} {op : Op} {n : Node} {s : Slot} {o : Option Node}
    (h : Computes flow c (before ++ (op, some n) :: (.save s, o) :: after) c') (hs : .save s ∉ after.map Prod.fst) :
    c'.slots s = some n := by
  obtain ⟨c₁, _, h⟩ := h.of_append
  obtain ⟨stack, h⟩ := h.of_evaluation
  obtain ⟨n', stack', hstack, h⟩ := h.of_save
  cases hstack
  rw [h.slots_of_not_saved hs]
  exact if_pos rfl

theorem exists_node_of_save (h : Computes flow c code c') {pc : Nat} {op : Op} {s : Slot}
    (hop : (code.map Prod.fst)[pc]? = some op) (heval : op.evaluates = true)
    (hsave : (code.map Prod.fst)[pc + 1]? = some (.save s))
    (honce : ∀ pc', (code.map Prod.fst)[pc']? = some (.save s) → pc' = pc + 1) :
    ∃ n, code[pc]? = some (op, some n) ∧ c'.slots s = some n := by
  rw [List.getElem?_map, Option.map_eq_some_iff] at hop hsave
  obtain ⟨⟨op, o⟩, hop, rfl⟩ := hop
  obtain ⟨⟨op', o'⟩, hsave, rfl⟩ := hsave
  obtain ⟨n, rfl⟩ := Option.isSome_iff_exists.mp (h.isSome_of_evaluates _ (List.mem_of_getElem? hop) heval)
  refine ⟨n, hop, ?_⟩
  obtain ⟨hlt, hop⟩ := List.getElem?_eq_some_iff.mp hop
  obtain ⟨hlt', hsave⟩ := List.getElem?_eq_some_iff.mp hsave
  rw [← List.take_append_drop pc code, List.drop_eq_getElem_cons hlt, List.drop_eq_getElem_cons hlt', hop, hsave] at h
  apply h.slot_of_evaluation
  intro hmem
  rw [List.map_drop] at hmem
  obtain ⟨j, hj⟩ := List.mem_iff_getElem?.mp hmem
  rw [List.getElem?_drop] at hj
  have := honce _ hj
  omega

end Computes

namespace Emission

variable {flow : Dataflow} {needsSlot : Table Node Bool} {status : Table Node Status} {s s' : Emission}
  {ns : List Node} {ops : List Op}

theorem Turns.code_at (h : Turns flow needsSlot s ns ops s') (hsound : s.Sound flow.size needsSlot) (hns : ns.Nodup)
    (hsize : s.applyAt.size = flow.size) {n : Node} (hn : n ∈ ns) :
    (∃ f, s'.code.toList[s'.place n]? = some (.apply f)) ∧
      ∀ slot, s'.status.get? n = some (.computed (some slot)) →
        s'.code.toList[s'.place n + 1]? = some (.save slot) := by
  induction h with
  | nil s => cases hn
  | @cons s s₁ s' x ns ops ops' d m e f _ hd _ _ hin h ih =>
      obtain ⟨hx, hns⟩ := List.nodup_cons.mp hns
      have hsize₁ : s₁.applyAt.size = flow.size := by rw [hin.applyAt, hsize]
      have hsound₁ := ((hin.sound hsound).note x).push (.apply f)
      rcases List.mem_cons.mp hn with rfl | hn
      · -- later turns leave the place of the node and its slot as they are
        have hlt := Dataflow.lt_size_of_get? hd
        have hat := h.applyAt_self hx (by rw [hsize₁]; exact hlt)
        have hplace : s'.place n = s₁.code.toList.length := by simp [place, hat]
        have hcode : s'.code.toList =
            s₁.code.toList ++ .apply f :: (saves needsSlot s₁ n ++ .discard :: ops') := by
          rw [h.code]
          simp
        refine ⟨⟨f, by rw [hplace, hcode]; simp⟩, ?_⟩
        intro slot hslot
        rw [h.computed (get?_finish_self (by rw [hsound₁.size]; exact hlt))] at hslot
        rw [hplace, hcode, saves]
        split at hslot
        next hneeds =>
          cases hslot
          rw [if_pos hneeds]
          simp [note]
        next => cases hslot
      · exact ih ((hsound₁.finish _).push _) hns
          (by rw [push_applyAt, finish_applyAt]; exact (Table.size_set _ _ _).trans hsize₁) hn

theorem Fresh.exists_of_restore (hflow : flow.WellFormed) (h : Fresh flow status ns ops) {k : Nat}
    (hns : ∀ n ∈ ns, n.index < k) {slot : Slot} (hop : .restore slot ∈ ops) :
    ∃ x, flow.isOrdered x = true ∧ x.index < k ∧ status.get? x = some (.computed (some slot)) := by
  induction h with
  | nil => cases hop
  | @restore n ns ops d slot' hd ho hs _ ih =>
      rw [List.forall_mem_cons] at hns
      rcases List.mem_cons.mp hop with heq | hop
      · cases heq
        exact ⟨n, (Dataflow.isOrdered_eq hd).trans ho, hns.1, hs⟩
      · exact ih hns.2 hop
  | leaf _ _ hleaf _ ih =>
      rw [List.forall_mem_cons] at hns
      rcases List.mem_cons.mp hop with rfl | hop
      · cases evaluates_leafOp? hleaf
      · exact ih hns.2 hop
  | op hd _ _ _ _ ihin ih =>
      rw [List.forall_mem_cons] at hns
      rcases List.mem_append.mp hop with hop | hop
      · exact ihin (fun i hi => ((hflow _ _ hd).inputs_lt i hi).trans hns.1) hop
      · rcases List.mem_cons.mp hop with heq | hop
        · cases heq
        · exact ih hns.2 hop

theorem FreshState.exists_of_restore {g : Graph} (hflow : g.dataflow.WellFormed) {eipLag : UInt32}
    {ps : List (Element × Node)} (h : FreshState g status eipLag ps ops) {k : Nat} (hps : ∀ p ∈ ps, p.2.index < k)
    {slot : Slot} (hop : .restore slot ∈ ops) :
    ∃ x, g.dataflow.isOrdered x = true ∧ x.index < k ∧ status.get? x = some (.computed (some slot)) := by
  induction h with
  | nil => cases hop
  | cons hp _ ih =>
      rw [List.forall_mem_cons] at hps
      rw [List.mem_append, List.mem_append] at hop
      rcases hop with hop | hop | hop
      · exact hp.exists_of_restore hflow (List.forall_mem_singleton.mpr hps.1) hop
      · rw [catchUp] at hop
        split at hop <;> simp at hop
      · exact ih hps.2 hop

end Emission

namespace Body

open Emission

section Layouts

variable {g : Graph} {b : Body}

theorem Layout.keeps (l : Layout g b) : Keeps 0 b.code b.slots := by
  have hrest : ∀ op ∈ commits g.sinks ++ .ret :: l.handlerOps, op.saved? = none :=
    List.forall_mem_append.mpr ⟨saved?_commits _, List.forall_mem_cons.mpr ⟨rfl, l.handlers_spec.saved?_eq_none⟩⟩
  rw [l.code_eq, l.slots_eq]
  exact l.turns_spec.keeps.append (l.pushes_spec.keeps.append (keeps_of_none hrest _))

theorem Layout.code_at (hg : g.WellFormed) (l : Layout g b) {n : Node} (hn : n ∈ g.ordered) :
    (∃ f, b.code[l.main.place n]? = some (.apply f)) ∧
      ∀ slot, l.main.status.get? n = some (.computed (some slot)) →
        b.code[l.main.place n + 1]? = some (.save slot) := by
  have hcode {pc : Nat} {op : Op} (hop : l.turned.code.toList[pc]? = some op) : b.code[pc]? = some op := by
    rw [l.turned_code] at hop
    rw [l.code_eq, List.getElem?_append_left (List.getElem?_eq_some_iff.mp hop).1, hop]
  have hplace : l.main.place n = l.turned.place n := by rw [place, place, l.pushes_spec.applyAt]
  obtain ⟨⟨f, happly⟩, hsave⟩ := l.turns_spec.code_at (sound_initial _) hg.nodup_ordered (Table.size_replicate _ _) hn
  rw [hplace]
  refine ⟨⟨f, hcode happly⟩, ?_⟩
  intro slot hslot
  rw [l.pushes_spec.get?_of_isOrdered (hg.mem_ordered_iff.mp hn)] at hslot
  exact hcode (hsave slot hslot)

theorem Layout.place_lt (hg : g.WellFormed) (l : Layout g b) {x n : Node} (hx : x ∈ g.ordered) (hn : n ∈ g.ordered)
    (hlt : x.index < n.index) : l.main.place x < l.main.place n := by
  have hindex := g.dataflow.nodesWhere_pairwise Definition.isOrdered
  rw [← hg.ordered] at hindex
  have hpair := (places_of_turns hg l.turns_spec l.pushes_spec).2.and hindex
  have hne : x ≠ n := by
    rintro rfl
    exact Nat.lt_irrefl _ hlt
  rcases rel_of_pairwise hpair hx hn hne with ⟨hplace, _⟩ | ⟨_, hback⟩
  · exact hplace
  · omega

/-- A handler restores ordered nodes that were made, so computed and saved, before any node that it protects. -/
theorem Layout.exists_save_of_handlerBody (hg : g.WellFormed) (l : Layout g b) {h : Handler} (hh : h ∈ b.handlers)
    {s : Slot} (hs : .restore s ∈ b.handlerBody h) : ∃ pc < h.start, b.code[pc]? = some (.save s) := by
  obtain ⟨bd, hbd, hhandled⟩ := exists_mem_right_of_forall₂ l.forall₂_handled hh
  obtain ⟨pushes, hstate, hbody⟩ := handlerBody_of_handled hg hhandled
  obtain ⟨n, hn, hstart⟩ := (l.protects hg hbd hhandled).first
  have hpushed : .restore s ∈ pushes := by
    rw [hbody, List.mem_append, List.mem_append] at hs
    rcases hs with (hs | hs) | hs
    · exact hs
    · obtain ⟨p, _, hp⟩ := List.mem_map.mp hs
      cases hp
    · cases List.mem_singleton.mp hs
  obtain ⟨x, hx, hlt, hslot⟩ := hstate.exists_of_restore hg.flow (fun p hp => handlerState_lt hg hbd hn hp) hpushed
  have hnordered := hg.mem_ordered_of_boundary hbd hn
  have hxordered := hg.mem_ordered_iff.mpr hx
  have hplace := l.place_lt hg hxordered hnordered hlt
  obtain ⟨f, happly⟩ := (l.code_at hg hnordered).1
  have hsave := (l.code_at hg hxordered).2 s hslot
  have hne : l.main.place x + 1 ≠ l.main.place n := by
    intro heq
    rw [heq, happly] at hsave
    cases hsave
  exact ⟨_, by omega, hsave⟩

/-- The slots of a body, with `code` as its annotated main code and `slots` as what they hold at its end. -/
structure SlotDiscipline (g : Graph) (b : Body) (code : AnnotatedCode) (slots : Slot → Option Node) : Prop where
  main : ∃ rest, b.code = code.map Prod.fst ++ .ret :: rest
  computes : Computes g.dataflow ⟨[], fun _ => none⟩ code ⟨[], slots⟩
  saved : ∀ i < b.slots, ∃ pc op n, code[pc]? = some (op, some n) ∧ slots ⟨i⟩ = some n ∧ pc + 1 < code.length ∧
    b.code[pc + 1]? = some (.save ⟨i⟩) ∧ ∀ pc', b.code[pc']? = some (.save ⟨i⟩) → pc' = pc + 1
  index_lt : ∀ (pc : Nat) (s : Slot), b.code[pc]? = some (.save s) → s.index < b.slots
  restored : ∀ pc < code.length, ∀ s, b.code[pc]? = some (.restore s) → ∃ pc' < pc, b.code[pc']? = some (.save s)
  handled : ∀ h ∈ b.handlers, ∀ s, .restore s ∈ b.handlerBody h → ∃ pc < h.start, b.code[pc]? = some (.save s)

theorem Layout.lt_of_save (l : Layout g b) {ops : List Op} (hcode : b.code = ops ++ .ret :: l.handlerOps) {pc : Nat}
    {s : Slot} (hpc : b.code[pc]? = some (.save s)) : pc < ops.length := by
  by_contra hle
  rw [hcode, List.getElem?_append_right (Nat.not_lt.mp hle)] at hpc
  rcases List.mem_cons.mp (List.mem_of_getElem? hpc) with heq | hmem
  · cases heq
  · cases l.handlers_spec.saved?_eq_none _ hmem

theorem Layout.exists_slotDiscipline (hg : g.WellFormed) (l : Layout g b) :
    ∃ code slots, SlotDiscipline g b code slots := by
  obtain ⟨code, ⟨_, slots, hcomputes⟩, hmap, _⟩ := l.exists_evaluates hg
  have hcode : b.code = code.map Prod.fst ++ .ret :: l.handlerOps := by
    rw [hmap, l.code_eq, List.append_assoc, List.append_assoc]
  have hmain {pc : Nat} (hlt : pc < code.length) : (code.map Prod.fst)[pc]? = b.code[pc]? := by
    rw [hcode, List.getElem?_append_left (by rwa [List.length_map])]
  have hlt {pc : Nat} {s : Slot} (hpc : b.code[pc]? = some (.save s)) : pc < code.length := by
    simpa using l.lt_of_save hcode hpc
  refine ⟨code, slots, ⟨_, hcode⟩, hcomputes, ?_, fun pc s hpc => l.keeps.lt_of_save hpc, ?_, ?_⟩
  · intro i hi
    obtain ⟨pc, hsave⟩ := l.keeps.exists_save hi
    obtain ⟨pc, op, rfl, hop, heval⟩ := l.keeps.exists_evaluation hsave
    have hsaved := hlt hsave
    have hunique (pc' : Nat) (hpc' : b.code[pc']? = some (.save ⟨i⟩)) := l.keeps.save_unique hpc' hsave
    have honce (pc' : Nat) (hpc' : (code.map Prod.fst)[pc']? = some (.save ⟨i⟩)) : pc' = pc + 1 := by
      have hlt' : pc' < code.length := by simpa using (List.getElem?_eq_some_iff.mp hpc').1
      exact hunique pc' ((hmain hlt').symm.trans hpc')
    obtain ⟨n, hn, hslot⟩ :=
      hcomputes.exists_node_of_save ((hmain (by omega)).trans hop) heval ((hmain hsaved).trans hsave) honce
    exact ⟨pc, op, n, hn, hslot, hsaved, hsave, hunique⟩
  · intro pc hpc s hrestore
    obtain ⟨pc', hpc', hsave⟩ := hcomputes.exists_save_of_restore rfl ((hmain hpc).trans hrestore)
    exact ⟨pc', hpc', (hmain (by omega)).symm.trans hsave⟩
  · intro h hh s hs
    exact l.exists_save_of_handlerBody hg hh hs

end Layouts

section Executions

variable {σ : Type} {b : Body}

def Config.op? (b : Body) : Config σ → Option Op
  | .main pc _ | .handler _ _ pc _ => b.code[pc]?
  | .ended _ _ => none

variable [Processor σ]

def configAt (b : Body) (mode : Mode) (x86Count : Nat) (cpu : σ) (k : Nat) : Config σ :=
  (b.next mode x86Count)^[k] (b.start cpu)

def Performs (b : Body) (mode : Mode) (x86Count : Nat) (cpu : σ) (pc : Nat) (op : Op) : Prop :=
  b.code[pc]? = some op ∧ ∃ f f', f.step op = (none, f') ∧ b.configAt mode x86Count cpu pc = .main pc f ∧
    b.configAt mode x86Count cpu (pc + 1) = .main (pc + 1) f'

/-- What came before a configuration that is reached in `k` steps. A handler starts at an op that it covers, so
after all the ops before its range. -/
def Config.Reached (b : Body) (mode : Mode) (x86Count : Nat) (cpu : σ) (k : Nat) : Config σ → Prop
  | .main pc _ => pc = k ∧ ∀ j < k, ∃ op, b.Performs mode x86Count cpu j op
  | .handler _ h pc _ =>
    h ∈ b.handlers ∧ h.start < k ∧ (∀ j < h.start, ∃ op, b.Performs mode x86Count cpu j op) ∧ h.target ≤ pc ∧
      ∀ i, h.target ≤ i → i < pc → ∀ op, b.code[i]? = some op → op.isRethrow = false
  | .ended _ _ => True

theorem advance_cases (b : Body) (here : Nat → Frame σ → Config σ) (after : Nat → Frame σ → Stop → Config σ) (pc : Nat)
    (f : Frame σ) :
    (∃ op f', b.code[pc]? = some op ∧ f.step op = (none, f') ∧ b.advance here after pc f = here (pc + 1) f') ∨
      ∃ f' stop, b.advance here after pc f = after pc f' stop := by
  cases hop : b.code[pc]? with
  | none => exact .inr ⟨f, .broken .ranOffEnd, by simp [advance, hop]⟩
  | some op =>
      rcases hstep : f.step op with ⟨_ | stop, f'⟩
      · exact .inl ⟨op, f', rfl, hstep, by simp [advance, hop, hstep]⟩
      · exact .inr ⟨f', stop, by simp [advance, hop, hstep]⟩

variable {mode : Mode} {x86Count : Nat} {cpu : σ}

theorem configAt_succ (k : Nat) :
    b.configAt mode x86Count cpu (k + 1) = b.next mode x86Count (b.configAt mode x86Count cpu k) :=
  Function.iterate_succ_apply' _ _ _

theorem reached_afterMain {k : Nat} (hall : ∀ j < k, ∃ op, b.Performs mode x86Count cpu j op) (f : Frame σ)
    (stop : Stop) : (b.afterMain mode x86Count k f stop).Reached b mode x86Count cpu (k + 1) := by
  cases stop with
  | returned | rethrown retired | broken what => trivial
  | faulted fault =>
      rw [afterMain]
      cases hh : b.handlerFor? k with
      | none => trivial
      | some h =>
          have hcovers := List.find?_some hh
          simp only [Handler.covers, Bool.and_eq_true, decide_eq_true_eq] at hcovers
          refine ⟨List.mem_of_find?_eq_some hh, by omega, fun j hj => hall j (by omega), Nat.le_refl _, ?_⟩
          omega

theorem reached_afterHandler (k : Nat) (fault : Fault) (h : Handler) (f : Frame σ) (stop : Stop) :
    (afterHandler fault h f stop).Reached b mode x86Count cpu k := by
  cases stop <;> trivial

theorem reached_succ {k : Nat} {c : Config σ} (hc : b.configAt mode x86Count cpu k = c)
    (hreached : c.Reached b mode x86Count cpu k) :
    (b.configAt mode x86Count cpu (k + 1)).Reached b mode x86Count cpu (k + 1) := by
  have hsucc : b.configAt mode x86Count cpu (k + 1) = b.next mode x86Count c := by rw [configAt_succ, hc]
  cases c with
  | main pc f =>
      obtain ⟨rfl, hall⟩ := hreached
      rw [next_main] at hsucc
      rcases b.advance_cases .main (b.afterMain mode x86Count) pc f with ⟨op, f', hop, hstep, he⟩ | ⟨f', stop, he⟩
      · rw [hsucc, he]
        refine ⟨rfl, ?_⟩
        intro j hj
        rcases Nat.lt_succ_iff_lt_or_eq.mp hj with hj | rfl
        · exact hall j hj
        · exact ⟨op, hop, f, f', hstep, hc, hsucc.trans he⟩
      · rw [hsucc, he]
        exact reached_afterMain hall f' stop
  | handler fault h pc f =>
      obtain ⟨hh, hlt, hall, hle, hnot⟩ := hreached
      rw [hsucc, next_handler]
      rcases b.advance_cases (.handler fault h) (fun _ => afterHandler fault h) pc f with
        ⟨op, f', hop, hstep, he⟩ | ⟨f', stop, he⟩
      · rw [he]
        refine ⟨hh, by omega, hall, by omega, ?_⟩
        intro i hi hi' op' hop'
        rcases Nat.lt_succ_iff_lt_or_eq.mp hi' with hi' | rfl
        · exact hnot i hi hi' op' hop'
        · cases hop.symm.trans hop'
          -- a `rethrow` would have stopped the execution
          cases op with
          | rethrow retired => cases hstep
          | _ => rfl
      · rw [he]
        exact reached_afterHandler _ fault h f' stop
  | ended e cpu' =>
      rw [hsucc]
      trivial

theorem reached_configAt (b : Body) (mode : Mode) (x86Count : Nat) (cpu : σ) (k : Nat) :
    (b.configAt mode x86Count cpu k).Reached b mode x86Count cpu k := by
  induction k with
  | zero => exact ⟨rfl, fun j hj => absurd hj (Nat.not_lt_zero j)⟩
  | succ k ih => exact reached_succ rfl ih

theorem Performs.ne_ret {pc : Nat} {op : Op} (h : b.Performs mode x86Count cpu pc op) : op ≠ .ret := by
  rintro rfl
  obtain ⟨_, f, f', hstep, _⟩ := h
  cases hstep

omit [Processor σ] in
theorem mem_handlerBody {h : Handler} {pc : Nat} {op : Op} (hop : b.code[pc]? = some op) (hle : h.target ≤ pc)
    (hnot : ∀ i, h.target ≤ i → i < pc → ∀ op, b.code[i]? = some op → op.isRethrow = false) :
    op ∈ b.handlerBody h := by
  have hrest : (b.code.drop h.target)[pc - h.target]? = some op := by
    rw [List.getElem?_drop, Nat.add_sub_cancel' hle, hop]
  have hlt := (List.getElem?_eq_some_iff.mp hrest).1
  have hfirst : pc - h.target ≤ (b.code.drop h.target).findIdx Op.isRethrow := by
    apply List.le_findIdx_of_not hlt
    intro i hi
    apply hnot (h.target + i) (by omega) (by omega)
    rw [← List.getElem?_drop, List.getElem?_eq_getElem]
  rw [handlerBody, List.mem_iff_getElem?]
  exact ⟨pc - h.target, by rw [List.getElem?_take_of_lt (by omega), hrest]⟩

theorem SlotDiscipline.performs_of_restore {g : Graph} {code : AnnotatedCode} {slots : Slot → Option Node}
    (hd : SlotDiscipline g b code slots) {k : Nat} {s : Slot}
    (hop : (b.configAt mode x86Count cpu k).op? b = some (.restore s)) :
    ∃ j < k, b.Performs mode x86Count cpu j (.save s) := by
  -- the op at the place of the save was done, so the save was
  have hperforms {j : Nat} (hsave : b.code[j]? = some (.save s)) (hdone : ∃ op, b.Performs mode x86Count cpu j op) :
      b.Performs mode x86Count cpu j (.save s) := by
    obtain ⟨op, hop⟩ := hdone
    cases hop.1.symm.trans hsave
    exact hop
  have hreached := b.reached_configAt mode x86Count cpu k
  cases hc : b.configAt mode x86Count cpu k with
  | main pc f =>
      rw [hc] at hop hreached
      obtain ⟨rfl, hall⟩ := hreached
      have hmain : pc < code.length := by
        obtain ⟨rest, hrest⟩ := hd.main
        have hret : b.code[code.length]? = some .ret := by simp [hrest]
        by_contra hle
        rcases Nat.lt_or_eq_of_le (Nat.not_lt.mp hle) with hlt | rfl
        · obtain ⟨op, hdone⟩ := hall _ hlt
          cases hdone.1.symm.trans hret
          exact hdone.ne_ret rfl
        · cases hret.symm.trans hop
      obtain ⟨j, hj, hsave⟩ := hd.restored pc hmain s hop
      exact ⟨j, hj, hperforms hsave (hall j hj)⟩
  | handler fault h pc f =>
      rw [hc] at hop hreached
      obtain ⟨hh, hlt, hall, hle, hnot⟩ := hreached
      obtain ⟨j, hj, hsave⟩ := hd.handled h hh s (mem_handlerBody hop hle hnot)
      exact ⟨j, by omega, hperforms hsave (hall j hj)⟩
  | ended e cpu' =>
      rw [hc] at hop
      cases hop

end Executions

/-- The generated code keeps its slots in order. An execution goes from configuration to configuration until it ends
as `run` says, and wherever it comes to a restore, in the main code or after a fault in a handler, it has done the
save of that slot. -/
theorem slots_saved_before_restored {limit : Nat} {instructions : List Instruction} {mode : Mode} {run : Run} {g : Graph}
    (hrun : Run.build limit instructions = .ok run) (hg : Graph.build mode run = .ok g) :
    ∃ b code slots, generate g = .ok b ∧ SlotDiscipline g b code slots ∧
      ∀ (σ : Type) [Processor σ] (mode' : Mode) (x86Count : Nat) (cpu : σ),
        (∃ k, b.configAt mode' x86Count cpu k =
          .ended (b.run mode' x86Count cpu).1 (b.run mode' x86Count cpu).2) ∧
        ∀ k s, (b.configAt mode' x86Count cpu k).op? b = some (.restore s) →
          ∃ j < k, b.Performs mode' x86Count cpu j (.save s) := by
  have hwf := Graph.wellFormed_of_build (Run.ordered_of_build hrun) hg
  obtain ⟨b, hb, ⟨l⟩⟩ := exists_layout hwf
  obtain ⟨code, slots, hd⟩ := l.exists_slotDiscipline hwf
  refine ⟨b, code, slots, hb, hd, ?_⟩
  intro σ _ mode' x86Count cpu
  obtain ⟨k, _, hend⟩ := b.iterate_run mode' x86Count cpu
  exact ⟨⟨k, hend⟩, fun k s hop => hd.performs_of_restore hop⟩

def divideTwice : List Instruction :=
  [⟨2, [Microcode.load0 .eax, .load1 .ecx, .div, .store0 .eax].map Microcode.word⟩,
   ⟨2, [Microcode.load0 .eax, .load1 .ebx, .div, .store0 .eax].map Microcode.word⟩]

theorem slots_saved_before_restored_divideTwice :
    ∃ run g b, Run.build 2 divideTwice = .ok run ∧ Graph.build .real run = .ok g ∧ generate g = .ok b ∧ b.slots = 6 ∧
      b.handlers = [⟨6, 12, 31, 0⟩, ⟨20, 26, 32, 1⟩] ∧ b.code[32]? = some (.restore ⟨2⟩) ∧
      (∃ code slots, SlotDiscipline g b code slots) ∧
      (b.configAt .real 2 (Processor.set .ecx 1 Machine.initial) 21).op? b = some (.restore ⟨2⟩) ∧
      ∃ j < 21, b.Performs .real 2 (Processor.set .ecx 1 Machine.initial) j (.save ⟨2⟩) := by
  obtain ⟨g, h⟩ : ∃ g, (Run.build 2 divideTwice >>= Graph.build .real) = .ok g := exists_eq_ok (by decide +kernel)
  have hall : ((Run.build 2 divideTwice >>= Graph.build .real).toOption.bind fun g => (generate g).toOption.map fun b =>
      (b.slots, b.handlers, b.code[32]?, (b.configAt .real 2 (Processor.set .ecx 1 Machine.initial) 21).op? b)) =
        some (6, [⟨6, 12, 31, 0⟩, ⟨20, 26, 32, 1⟩], some (.restore ⟨2⟩), some (.restore ⟨2⟩)) := by
    decide +kernel
  obtain ⟨run, hrun, hg⟩ := bind_eq_ok.mp h
  obtain ⟨b, code, slots, hb, hd, hexec⟩ := slots_saved_before_restored hrun hg
  rw [h] at hall
  simp only [Except.toOption, Option.bind_some, hb, Option.map_some, Option.some.injEq, Prod.mk.injEq] at hall
  obtain ⟨hslots, hhandlers, hcode, hop⟩ := hall
  exact ⟨run, g, b, hrun, hg, hb, hslots, hhandlers, hcode, ⟨code, slots, hd⟩, hop, (hexec _ _ _ _).2 _ _ hop⟩

end Body

end Dynarec
