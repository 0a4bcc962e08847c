import Dynarec.Proofs.EmissionSuccess

namespace Dynarec.Body

open Emission

variable {g : Graph}

theorem handlerState_lt (hg : g.WellFormed) {b : Boundary} (hb : b ∈ g.boundaries) {n : Node} (hn : n ∈ b.nodes)
    {p : Element × Node} (hp : p ∈ handlerState b) : p.2.index < n.index := by
  have hsound := (hg.boundaries b hb).2.2 n hn
  rcases mem_handlerState hp with hp | rfl
  · exact hsound.snapshot_lt p hp
  · exact hsound.eip_lt

theorem handlerState_referenced (hg : g.WellFormed) {b : Boundary} (hb : b ∈ g.boundaries) {p : Element × Node}
    (hp : p ∈ handlerState b) : p.2.index < g.dataflow.size ∧ (Demand.referenced g).getD p.2 false = true := by
  obtain ⟨n, hn⟩ := List.exists_mem_of_ne_nil _ (hg.boundaries b hb).2.1
  have hlt := (handlerState_lt hg hb hn hp).trans (hg.ordered_lt (hg.mem_ordered_of_boundary hb hn))
  refine ⟨hlt, (Demand.marked_referenced hg).roots p.2 (List.mem_flatMap.mpr ⟨b, hb, ?_⟩) hlt⟩
  rcases mem_handlerState hp with hp | rfl
  · exact List.mem_append_left _ (List.mem_map_of_mem hp)
  · exact List.mem_append_right _ List.mem_cons_self

theorem exists_handler (hg : g.WellFormed) {main : Emission} (hkept : Kept g main.status) {b : Boundary}
    (hb : b ∈ g.boundaries) (hplace : ∀ n ∈ b.nodes, (main.applyAt.get? n).join = some (main.place n))
    (code : Array Op) (handlers : Array Handler) :
    ∃ first last ops code', protectedRange? main.applyAt b.nodes = some (first, last) ∧
      FreshState g main.status b.eipLag (handlerState b) ops ∧
      code'.toList = code.toList ++ ops ++ commits (handlerState b) ++ [.rethrow (b.x86Index - 1)] ∧
      emitHandler g main (code, handlers) b =
        .ok (code', handlers.push ⟨first, last + 1, code.size, b.x86Index - 1⟩) := by
  obtain ⟨hindex, hne, _⟩ := hg.boundaries b hb
  obtain ⟨first, last, hrange, _⟩ := exists_protectedRange? hne hplace
  obtain ⟨ops, code₁, hok, hcode, hstate⟩ :=
    exists_state hg hkept b.eipLag (fun p hp => handlerState_referenced hg hb hp) code
  have hknown : b.nodes.find? (fun n => g.dataflow.size ≤ n.index) = none := by
    rw [List.find?_eq_none]
    intro n hn
    simpa using hg.ordered_lt (hg.mem_ordered_of_boundary hb hn)
  refine ⟨first, last, ops, (code₁ ++ (commits (handlerState b)).toArray).push (.rethrow (b.x86Index - 1)),
    hrange, hstate, ?_, ?_⟩
  · simp [hcode]
  · rw [emitHandler, hknown]
    simp only [hrange, bind_eq_ok]
    refine ⟨code₁, hok, ?_⟩
    rw [if_neg (by omega)]
    rfl

theorem exists_handlers (hg : g.WellFormed) {main : Emission} (hkept : Kept g main.status) {bs : List Boundary}
    (hbs : ∀ b ∈ bs, b ∈ g.boundaries)
    (hplace : ∀ n ∈ g.ordered, (main.applyAt.get? n).join = some (main.place n))
    (code : Array Op) (handlers : Array Handler) :
    ∃ ops hs code' handlers', bs.foldlM (emitHandler g main) (code, handlers) = .ok (code', handlers') ∧
      code'.toList = code.toList ++ ops ∧ handlers'.toList = handlers.toList ++ hs ∧
      Handles g main.status main.applyAt code.size bs ops hs := by
  induction bs generalizing code handlers with
  | nil => exact ⟨[], [], code, handlers, rfl, by simp, by simp, .nil _⟩
  | cons b bs ih =>
      have hb := hbs b List.mem_cons_self
      obtain ⟨first, last, ops, code₁, hrange, hstate, hcode, hok⟩ := exists_handler hg hkept hb
        (fun n hn => hplace n (hg.mem_ordered_of_boundary hb hn)) code handlers
      obtain ⟨ops', hs, code', handlers', hok', hcode', hhandlers, hhandles⟩ :=
        ih (fun x hx => hbs x (List.mem_cons_of_mem _ hx)) code₁
          (handlers.push ⟨first, last + 1, code.size, b.x86Index - 1⟩)
      have hsize : code₁.size = code.size + ops.length + (handlerState b).length + 1 := by
        simpa [commits, ← Nat.add_assoc] using congrArg List.length hcode
      rw [hsize] at hhandles
      refine ⟨_, _, code', handlers', ?_, ?_, ?_, .cons hrange hstate hhandles⟩
      · rw [List.foldlM_cons, bind_eq_ok]
        exact ⟨_, hok, hok'⟩
      · rw [hcode', hcode]
        simp
      · rw [hhandlers]
        simp

/-- How a body was made from a graph. -/
structure Layout (g : Graph) (b : Body) where
  turns : List Op
  -- The state of emission after the turns.
  turned : Emission
  pushes : List Op
  -- The state of emission before the commits.
  main : Emission
  handlerOps : List Op
  turns_spec : Turns g.dataflow (Demand.needsSlot g) (initial g.dataflow.size) g.ordered turns turned
  pushes_spec : Emits g.dataflow (Demand.needsSlot g) turned (g.sinks.map Prod.snd) pushes main
  handlers_spec : Handles g main.status main.applyAt (turns.length + pushes.length + g.sinks.length + 1)
    g.boundaries handlerOps b.handlers
  code_eq : b.code = turns ++ (pushes ++ (commits g.sinks ++ .ret :: handlerOps))
  slots_eq : b.slots = main.slots

namespace Layout

theorem sound_turned {b : Body} (l : Layout g b) : l.turned.Sound g.dataflow.size (Demand.needsSlot g) :=
  l.turns_spec.sound (sound_initial _)

theorem sound_main {b : Body} (l : Layout g b) : l.main.Sound g.dataflow.size (Demand.needsSlot g) :=
  l.pushes_spec.sound l.sound_turned

theorem turned_code {b : Body} (l : Layout g b) : l.turned.code.toList = l.turns := l.turns_spec.code

theorem main_code {b : Body} (l : Layout g b) : l.main.code.toList = l.turns ++ l.pushes := by
  rw [l.pushes_spec.code, l.turned_code]

end Layout

theorem places_of_turns (hg : g.WellFormed) {turns pushes : List Op} {s₁ s₂ : Emission}
    (hturns : Turns g.dataflow (Demand.needsSlot g) (initial g.dataflow.size) g.ordered turns s₁)
    (hemits : Emits g.dataflow (Demand.needsSlot g) s₁ (g.sinks.map Prod.snd) pushes s₂) :
    (∀ n ∈ g.ordered, (s₂.applyAt.get? n).join = some (s₂.place n) ∧ s₂.place n < turns.length) ∧
      g.ordered.Pairwise (fun a b => s₂.place a < s₂.place b) := by
  have hplace (n : Node) : s₂.place n = s₁.place n := by rw [place, place, hemits.applyAt]
  have hcode : s₁.code.size = turns.length := by simpa [initial] using congrArg List.length hturns.code
  obtain ⟨hall, hpair⟩ := hturns.places hg.nodup_ordered (Table.size_replicate _ _)
  simp only [hplace, hemits.applyAt, ← hcode]
  exact ⟨fun n hn => ⟨(hall n hn).1, (hall n hn).2.2⟩, hpair⟩

/-- Code is generated for every graph that was built. -/
theorem exists_layout (hg : g.WellFormed) : ∃ b, generate g = .ok b ∧ Nonempty (Layout g b) := by
  obtain ⟨turns, s₁, pushes, s₂, hturns, hemits, hmain⟩ := exists_main hg
  have hkept := kept_of_main hg hturns hemits
  have hplaces := (places_of_turns hg hturns hemits).1
  have hknown : (roots g).find? (fun n => g.dataflow.size ≤ n.index) = none := by
    rw [List.find?_eq_none]
    intro n hn
    simp only [roots, Demand.handlerRoots, List.mem_append, List.mem_map, List.mem_flatMap, List.mem_singleton] at hn
    simp only [decide_eq_true_eq, Nat.not_le]
    rcases hn with (hn | ⟨p, hp, rfl⟩) | ⟨bd, hbd, hn⟩
    · exact hg.ordered_lt hn
    · exact hg.sinks_lt p hp
    · obtain ⟨m, hm⟩ := List.exists_mem_of_ne_nil _ (hg.boundaries bd hbd).2.1
      have hsound := (hg.boundaries bd hbd).2.2 m hm
      have hlt := hg.ordered_lt (hg.mem_ordered_of_boundary hbd hm)
      rcases hn with ⟨p, hp, rfl⟩ | rfl
      · exact (hsound.snapshot_lt p hp).trans hlt
      · exact hsound.eip_lt.trans hlt
  let main := { s₂ with code := s₂.code ++ (commits g.sinks).toArray.push .ret }
  obtain ⟨ops, hs, code', handlers', hok, hcode, hhandlers, hhandles⟩ :=
    exists_handlers hg (show Kept g main.status from hkept) (fun _ h => h) (fun n hn => (hplaces n hn).1) main.code #[]
  have hlength : s₂.code.toList = turns ++ pushes := by rw [hemits.code, hturns.code]; rfl
  refine ⟨⟨code'.toList, handlers'.toList, s₂.slots⟩, ?_, ⟨turns, s₁, pushes, s₂, ops, hturns, hemits, ?_, ?_, rfl⟩⟩
  · rw [generate, hknown]
    exact bind_eq_ok.mpr ⟨main, hmain, bind_eq_ok.mpr ⟨(code', handlers'), hok, rfl⟩⟩
  · have hsize : main.code.size = turns.length + pushes.length + g.sinks.length + 1 := by
      have hcount := congrArg List.length hlength
      simp only [List.length_append, Array.length_toList] at hcount
      simp [main, commits, hcount, ← Nat.add_assoc]
    rw [hsize] at hhandles
    rw [hhandlers]
    exact hhandles
  · simp [hcode, hlength, main]

end Dynarec.Body
