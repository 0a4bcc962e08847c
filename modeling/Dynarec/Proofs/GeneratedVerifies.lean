import Dynarec.Proofs.RunShape
import Dynarec.Proofs.StackEffects

namespace Dynarec.Body

open Emission

variable {g : Graph} {status : Table Node Status} {applyAt : Table Node (Option Nat)}

theorem isCommitted_of_mem {state : List (Element × Node)}
    (h : (state.map Prod.fst).Sublist (Element.all.filter Element.isCommitted)) {p : Element × Node} (hp : p ∈ state) :
    p.1.isCommitted = true :=
  (List.mem_filter.mp (h.subset (List.mem_map_of_mem hp))).2

theorem isCommitted_of_mem_handlerState (hg : g.WellFormed) {b : Boundary} (hb : b ∈ g.boundaries)
    {p : Element × Node} (hp : p ∈ handlerState b) : p.1.isCommitted = true := by
  obtain ⟨_, hne, hsound⟩ := hg.boundaries b hb
  obtain ⟨n, hn⟩ := List.exists_mem_of_ne_nil _ hne
  rcases mem_handlerState hp with hp | rfl
  · exact isCommitted_of_mem (hsound n hn).committed hp
  · rfl

theorem commits_eq_map (state : List (Element × Node)) : commits state = (state.map Prod.fst).reverse.map .commit := by
  rw [commits, ← List.map_reverse, List.map_map]
  rfl

theorem effects_commits_state {slots : Nat} {state : List (Element × Node)}
    (h : ∀ p ∈ state, p.1.isCommitted = true) : Effects slots state.length (commits state) 0 := by
  have heffects : Effects slots (state.map Prod.fst).reverse.length ((state.map Prod.fst).reverse.map .commit) 0 := by
    apply effects_commits
    intro e he
    obtain ⟨p, hp, rfl⟩ := List.mem_map.mp (List.mem_reverse.mp he)
    exact h p hp
  rw [List.length_reverse, List.length_map, ← commits_eq_map] at heffects
  exact heffects

theorem checkHandlers_of_handles (hg : g.WellFormed) {slots target : Nat} {bs : List Boundary} {ops : List Op}
    {hs : List Handler} (h : Handles g status applyAt target bs ops hs) (hbs : ∀ b ∈ bs, b ∈ g.boundaries)
    (hslots : ∀ n slot, status.get? n = some (.computed (some slot)) → slot.index < slots) (deepest : Nat) :
    ∃ deepest', checkHandlers slots ⟨ops, target, deepest⟩ (hs.map Handler.target) =
      .ok ⟨[], target + ops.length, deepest'⟩ := by
  induction h generalizing deepest with
  | nil target => exact ⟨deepest, rfl⟩
  | @cons target first last b bs ops ops' hs hrange hstate h ih =>
      have hpushes := effects_of_freshState hg.flow hstate hslots 0
      have hcommits : Effects slots (handlerState b).length (commits (handlerState b)) 0 :=
        effects_commits_state (fun p hp => isCommitted_of_mem_handlerState hg (hbs b List.mem_cons_self) hp)
      rw [Nat.zero_add] at hpushes
      obtain ⟨deepest₁, hfollow⟩ : ∃ deepest₁, follow slots false target 0 deepest
          ((ops ++ commits (handlerState b)) ++ .rethrow (b.x86Index - 1) :: ops') = .ok ⟨ops', _, deepest₁⟩ :=
        follow_of_effects (hpushes.append hcommits) rfl
      obtain ⟨deepest', hrest⟩ := ih (fun x hx => hbs x (List.mem_cons_of_mem _ hx)) deepest₁
      refine ⟨deepest', ?_⟩
      rw [List.append_assoc] at hfollow
      rw [List.map_cons, checkHandlers, if_pos rfl, bind_eq_ok]
      have hstop : target + (ops ++ commits (handlerState b)).length + 1 =
          target + ops.length + (handlerState b).length + 1 := by
        simp [commits, Nat.add_assoc]
      rw [hstop] at hfollow
      refine ⟨_, hfollow, hrest.trans ?_⟩
      simp [commits]
      omega

theorem le_target_of_handles {target : Nat} {bs : List Boundary} {ops : List Op} {hs : List Handler}
    (h : Handles g status applyAt target bs ops hs) : ∀ t ∈ hs.map Handler.target, target ≤ t := by
  induction h with
  | nil target => simp
  | cons hrange hstate h ih =>
      rintro t (_ | ⟨_, ht⟩)
      · exact Nat.le_refl _
      · have := ih t ht
        omega

theorem targets_of_handles {target : Nat} {bs : List Boundary} {ops : List Op} {hs : List Handler}
    (h : Handles g status applyAt target bs ops hs) : targets hs = hs.map Handler.target := by
  induction h with
  | nil target => rfl
  | @cons target first last b bs ops ops' hs hrange hstate h ih =>
      rw [targets] at ih ⊢
      rw [List.map_cons, List.foldr_cons, ih]
      cases hts : hs.map Handler.target with
      | nil => rfl
      | cons t ts =>
          have hle := le_target_of_handles h t (by rw [hts]; exact List.mem_cons_self)
          exact if_pos (show target < t by omega)

/-- Boundaries protect nodes in order, so that the ranges of their handlers do not overlap. -/
theorem checkRanges_of_handles (place : Node → Nat) {stop target previous : Nat} {bs : List Boundary} {ops : List Op}
    {hs : List Handler} (h : Handles g status applyAt target bs ops hs) (hne : ∀ b ∈ bs, b.nodes ≠ [])
    (hplace : ∀ b ∈ bs, ∀ n ∈ b.nodes, (applyAt.get? n).join = some (place n) ∧ previous ≤ place n ∧ place n < stop)
    (hpair : (bs.flatMap (·.nodes)).Pairwise (fun a b => place a < place b)) :
    checkRanges stop previous hs = .ok () := by
  induction h generalizing previous with
  | nil target => rfl
  | @cons target first last b bs ops ops' hs hrange hstate h ih =>
      obtain ⟨first', last', hrange', hall, ⟨n, hn, hfirst⟩, ⟨m, hm, hlast⟩⟩ :=
        exists_protectedRange? (hne b List.mem_cons_self) (fun n hn => (hplace b List.mem_cons_self n hn).1)
      rw [hrange] at hrange'
      cases hrange'
      have hn' := hplace b List.mem_cons_self n hn
      have hm' := hplace b List.mem_cons_self m hm
      have hnm := hall n hn
      rw [List.flatMap_cons, List.pairwise_append] at hpair
      rw [checkRanges, if_pos (show previous ≤ first ∧ first < last + 1 ∧ last + 1 ≤ stop by omega)]
      apply ih (fun x hx => hne x (List.mem_cons_of_mem _ hx)) _ hpair.2.1
      intro x hx i hi
      dsimp only
      have hi' := hplace x (List.mem_cons_of_mem _ hx) i hi
      have hlater := hpair.2.2 m hm i (List.mem_flatMap.mpr ⟨x, hx, hi⟩)
      exact ⟨hi'.1, by omega, hi'.2.2⟩

theorem checkHandlers_deepest_le {slots : Nat} {s last : Stretch} {ts : List Nat}
    (h : checkHandlers slots s ts = .ok last) : s.stop ≤ last.stop ∧ last.deepest ≤ max s.deepest last.stop := by
  induction ts generalizing s with
  | nil =>
      cases h
      omega
  | cons t ts ih =>
      rw [checkHandlers] at h
      split at h
      · obtain ⟨next, hfollow, hnext⟩ := bind_eq_ok.mp h
        obtain ⟨hlt, _, hdeep⟩ := follow_deepest_le hfollow
        have := ih hnext
        omega
      · cases h

theorem checkRanges_of_layout (hg : g.WellFormed) {b : Body} (l : Layout g b) :
    checkRanges (l.turns.length + l.pushes.length + g.sinks.length + 1) 0 b.handlers = .ok () := by
  obtain ⟨hplace, hpair⟩ := places_of_turns hg l.turns_spec l.pushes_spec
  refine checkRanges_of_handles l.main.place l.handlers_spec (fun x hx => (hg.boundaries x hx).2.1) ?_ ?_
  · intro x hx n hn
    obtain ⟨hget, hlt⟩ := hplace n (hg.mem_ordered_of_boundary hx hn)
    exact ⟨hget, Nat.zero_le _, by omega⟩
  · rw [hg.ordered] at hpair
    rw [hg.faulting]
    refine hpair.sublist (Dataflow.nodesWhere_sublist _ ?_)
    intro d hd
    simp [Definition.isOrdered, hd]

theorem verify_of_layout (hg : g.WellFormed) {b : Body} (l : Layout g b) (hcount : b.code.length ≤ limit) :
    ∃ depth, b.verify = .ok depth := by
  have hturns := effects_of_turns hg.flow l.turns_spec (sound_initial _) l.pushes_spec.slots_le
  have hpushes := effects_of_emits hg.flow l.pushes_spec l.sound_turned (Nat.le_refl _) 0
  have hcommits : Effects l.main.slots g.sinks.length (commits g.sinks) 0 :=
    effects_commits_state (fun p hp => isCommitted_of_mem hg.sinks hp)
  rw [Nat.zero_add, List.length_map] at hpushes
  obtain ⟨deepest, hfollow⟩ : ∃ deepest, follow b.slots true 0 0 0 b.code =
      .ok ⟨l.handlerOps, l.turns.length + l.pushes.length + g.sinks.length + 1, deepest⟩ := by
    obtain ⟨deepest, hfollow⟩ : ∃ deepest, follow l.main.slots true 0 0 0
        ((l.turns ++ (l.pushes ++ commits g.sinks)) ++ .ret :: l.handlerOps) = .ok ⟨l.handlerOps, _, deepest⟩ :=
      follow_of_effects (hturns.append (hpushes.append hcommits)) rfl
    refine ⟨deepest, ?_⟩
    rw [l.slots_eq, l.code_eq, ← List.append_assoc l.pushes, ← List.append_assoc l.turns, hfollow]
    simp [commits, Nat.add_assoc]
  have hranges := checkRanges_of_layout hg l
  have hslots : ∀ n slot, l.main.status.get? n = some (.computed (some slot)) → slot.index < b.slots := by
    rw [l.slots_eq]
    exact l.sound_main.slot_lt
  obtain ⟨deepest', hhandlers⟩ := checkHandlers_of_handles hg l.handlers_spec (fun _ h => h) hslots deepest
  have hstop : l.turns.length + l.pushes.length + g.sinks.length + 1 + l.handlerOps.length = b.code.length := by
    rw [l.code_eq]
    simp [commits]
    omega
  have hslots_le : b.slots ≤ b.code.length := by
    have hle := l.sound_main.slots_le
    have hlength := congrArg List.length l.main_code
    rw [List.length_append, Array.length_toList] at hlength
    rw [l.slots_eq]
    omega
  -- an op pushes at most one value, so that code within the limit keeps the stack within it
  have hdeep : deepest' ≤ b.code.length := by
    have hmain := (follow_deepest_le hfollow).2.2
    have hlast := (checkHandlers_deepest_le hhandlers).2
    dsimp only at hmain hlast
    omega
  rw [hstop] at hhandlers
  refine ⟨deepest', ?_⟩
  rw [verify, if_neg (by omega), if_neg (by omega), targets_of_handles l.handlers_spec]
  refine bind_eq_ok.mpr ⟨_, hfollow, bind_eq_ok.mpr ⟨(), hranges, bind_eq_ok.mpr ⟨_, hhandlers, ?_⟩⟩⟩
  rw [if_neg (by simp), if_neg (by dsimp only; omega)]
  rfl

/-- Every graph of a run has code, and the length of the code alone decides whether verification
accepts it. -/
theorem generate_total {mode : Mode} {count : Nat} {instructions : List Instruction} {run : Run}
    (hrun : Run.build count instructions = .ok run) (hg : Graph.build mode run = .ok g) :
    ∃ b, generate g = .ok b ∧ ((∃ depth, b.verify = .ok depth) ↔ b.code.length ≤ limit) := by
  have hwf := Graph.wellFormed_of_build (Run.ordered_of_build hrun) hg
  obtain ⟨b, hb, ⟨l⟩⟩ := exists_layout hwf
  refine ⟨b, hb, ?_, verify_of_layout hwf l⟩
  rintro ⟨depth, hverify⟩
  obtain ⟨_, _, _, _, _, _, _, hle⟩ := verify_ok hverify
  exact hle

def incrementThenDivide : List Instruction :=
  [⟨1, [Microcode.load0 .eax, .inc, .store0 .eax, .eipUpdate].map Microcode.word⟩,
   ⟨2, [Microcode.load0 .eax, .load1 .ecx, .div, .store0 .eax, .eipUpdate].map Microcode.word⟩]

theorem generate_total_incrementThenDivide :
    ∃ run g, Run.build 2 incrementThenDivide = .ok run ∧ Graph.build .real run = .ok g ∧
      ∃ b, generate g = .ok b ∧ ((∃ depth, b.verify = .ok depth) ↔ b.code.length ≤ limit) := by
  obtain ⟨g, h⟩ : ∃ g, (Run.build 2 incrementThenDivide >>= Graph.build .real) = .ok g :=
    exists_eq_ok (by decide +kernel)
  obtain ⟨run, hrun, hg⟩ := bind_eq_ok.mp h
  exact ⟨run, g, hrun, hg, generate_total hrun hg⟩

end Dynarec.Body
