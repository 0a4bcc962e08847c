import Dynarec.Procedure
import Dynarec.Proofs.DataflowShape
import Dynarec.Proofs.RunShape
import Mathlib.Data.List.TakeWhile

namespace Dynarec

namespace Procedure

theorem reject_eq_ok {α : Type} {r : Except Rejection α} {a : α} : reject r = .ok a ↔ r = .ok a := by
  cases r <;> simp [reject, Except.mapError]

theorem build_ok {name : String} {mode : Mode} {stamp : Nat} {run : Run} {p : Procedure}
    (h : build name mode stamp run = .ok p) :
    ∃ g depth, Graph.build mode run = .ok g ∧ Body.generate g = .ok p.body ∧ p.body.verify = .ok depth ∧
      p = ⟨name, mode, run.entries, run.x86Count, run.x86Length, p.body, depth, stamp⟩ := by
  obtain ⟨g, hg, h⟩ := bind_eq_ok.mp h
  obtain ⟨b, hb, h⟩ := bind_eq_ok.mp h
  obtain ⟨depth, hdepth, h⟩ := bind_eq_ok.mp (reject_eq_ok.mp h)
  cases pure_eq_ok.mp h
  exact ⟨g, depth, hg, reject_eq_ok.mp hb, hdepth, rfl⟩

theorem entries_of_build {name : String} {mode : Mode} {stamp : Nat} {run : Run} {p : Procedure}
    (h : build name mode stamp run = .ok p) : p.entries = run.entries := by
  obtain ⟨_, _, _, _, _, hparts⟩ := build_ok h
  rw [hparts]

theorem x86Count_of_build {name : String} {mode : Mode} {stamp : Nat} {run : Run} {p : Procedure}
    (h : build name mode stamp run = .ok p) : p.x86Count = run.x86Count := by
  obtain ⟨_, _, _, _, _, hparts⟩ := build_ok h
  rw [hparts]

def content (p : Procedure) : Procedure := { p with name := "", stamp := 0 }

theorem build_rename (name name' : String) (mode : Mode) (stamp stamp' : Nat) (run : Run) :
    build name' mode stamp' run =
      (build name mode stamp run).map fun p => { p with name := name', stamp := stamp' } := by
  unfold build
  cases Graph.build mode run with
  | error e => rfl
  | ok g =>
      change reject (Body.generate g) >>= _ = Except.map _ (reject (Body.generate g) >>= _)
      cases Body.generate g with
      | error e => rfl
      | ok b =>
          change reject (b.verify >>= _) = Except.map _ (reject (b.verify >>= _))
          cases b.verify <;> rfl

end Procedure

namespace Tape

/-- The first `n` instructions of entries that follow an instruction which ends at `position`. -/
def decode : Nat → UInt32 → List Entry → List Instruction
  | 0, _, _ => []
  | _, _, [] => []
  | n + 1, position, e :: rest =>
    ⟨e.position - position, e.word :: (rest.takeWhile (·.position == e.position)).map (·.word)⟩ ::
      decode n e.position (rest.dropWhile (·.position == e.position))

@[simp] theorem decode_nil (n : Nat) (position : UInt32) : decode n position [] = [] := by
  cases n <;> rfl

def Reader.ends (r : Reader) : UInt32 :=
  match r.current with
  | [] => r.previous
  | e :: _ => e.position

theorem following_eq_decode (n : Nat) (r : Reader) : r.following n = decode n r.ends r.rest := by
  induction n generalizing r with
  | zero => rfl
  | succ n ih =>
      rw [Reader.following]
      cases hrest : r.rest with
      | nil => simp [Reader.advance?, hrest]
      | cons e rest =>
          rw [Reader.advance?, hrest, decode]
          exact congrArg₂ List.cons rfl (ih _)

theorem instructions_eq_decode (t : Tape) : t.instructions = decode t.entries.length 0 t.entries :=
  following_eq_decode _ _

theorem take_decode (k n : Nat) (position : UInt32) (entries : List Entry) :
    (decode n position entries).take k = decode (min k n) position entries := by
  induction n generalizing k position entries with
  | zero => simp [decode]
  | succ n ih =>
      cases k with
      | zero => simp [decode]
      | succ k =>
          cases entries with
          | nil => simp
          | cons e rest =>
              rw [Nat.succ_min_succ, decode, decode, List.take_succ_cons, ih]

theorem record_decode_cons (n : Nat) (position : UInt32) (e : Entry) (rest : List Entry) :
    record position (decode (n + 1) position (e :: rest)) =
      e :: rest.takeWhile (·.position == e.position) ++
        record e.position (decode n e.position (rest.dropWhile (·.position == e.position))) := by
  have hposition : position + (e.position - position) = e.position := by
    rw [UInt32.add_comm, UInt32.sub_add_cancel]
  have hgroup : (rest.takeWhile (·.position == e.position)).map (fun x => (⟨x.word, e.position⟩ : Entry)) =
      rest.takeWhile (·.position == e.position) := by
    refine (List.map_congr_left ?_).trans (List.map_id _)
    intro x hx
    have hsame : x.position = e.position := by simpa using List.mem_takeWhile_imp hx
    rw [← hsame]
    rfl
  rw [decode, record, hposition, List.map_cons, List.map_map]
  exact congrArg (fun group => e :: group ++ _) hgroup

theorem record_decode_isPrefix (n : Nat) (position : UInt32) (entries : List Entry) :
    record position (decode n position entries) <+: entries := by
  induction n generalizing position entries with
  | zero => exact List.nil_prefix
  | succ n ih =>
      cases entries with
      | nil => exact List.nil_prefix
      | cons e rest =>
          rw [record_decode_cons, List.cons_append, List.cons_prefix_cons]
          refine ⟨rfl, ?_⟩
          have happend := (List.prefix_append_right_inj (rest.takeWhile (·.position == e.position))).mpr
            (ih e.position (rest.dropWhile (·.position == e.position)))
          rwa [List.takeWhile_append_dropWhile] at happend

theorem length_decode_le (n : Nat) (position : UInt32) (entries : List Entry) :
    (decode n position entries).length ≤ (record position (decode n position entries)).length := by
  induction n generalizing position entries with
  | zero => exact Nat.zero_le _
  | succ n ih =>
      cases entries with
      | nil => simp
      | cons e rest =>
          have hrest := ih e.position (rest.dropWhile (·.position == e.position))
          rw [record_decode_cons, decode]
          simp only [List.length_append, List.length_cons]
          omega

theorem span_isPrefix {q : Entry → Bool} {entries kept : List Entry} (h : kept <+: entries.dropWhile q) :
    (entries.takeWhile q ++ kept).takeWhile q = entries.takeWhile q ∧
      (entries.takeWhile q ++ kept).dropWhile q = kept := by
  have hgroup : ∀ x ∈ entries.takeWhile q, q x = true := fun x hx => List.mem_takeWhile_imp hx
  rw [List.takeWhile_append_of_pos hgroup, List.dropWhile_append_of_pos hgroup]
  cases kept with
  | nil => simp
  | cons x kept =>
      obtain ⟨dropped, hdropped⟩ := h
      have hfirst : entries.find? (fun x => !q x) = some x := by
        rw [List.find?_not_eq_head?_dropWhile, ← hdropped]
        rfl
      have hx : ¬q x = true := by simpa using List.find?_some hfirst
      rw [List.takeWhile_cons_of_neg hx, List.dropWhile_cons_of_neg hx, List.append_nil]
      exact ⟨rfl, rfl⟩

/-- What was read reads the same again. -/
theorem decode_record_decode {n m : Nat} {position : UInt32} {entries : List Entry}
    (hm : (decode n position entries).length ≤ m) :
    decode m position (record position (decode n position entries)) = decode n position entries := by
  induction n generalizing m position entries with
  | zero => exact decode_nil m position
  | succ n ih =>
      cases entries with
      | nil => exact decode_nil m position
      | cons e rest =>
          rw [decode, List.length_cons] at hm
          obtain ⟨m, rfl⟩ : ∃ m', m = m' + 1 := ⟨m - 1, by omega⟩
          obtain ⟨htake, hdrop⟩ := span_isPrefix
            (record_decode_isPrefix n e.position (rest.dropWhile (·.position == e.position)))
          rw [record_decode_cons, List.cons_append, decode, decode, htake, hdrop, ih (Nat.le_of_succ_le_succ hm)]

end Tape

namespace Run

open Tape

/-- A run from a tape is the run of its own entries. -/
theorem ops_of_tape {limit : Nat} {source : Tape} {run : Run} (h : build limit source.instructions = .ok run) :
    run.ops = MicroOp.splitAll 0 0 (⟨run.entries⟩ : Tape).instructions := by
  have htaken := take_decode (max limit 1) source.entries.length 0 source.entries
  rw [build_ok h, instructions_eq_decode, instructions_eq_decode, htaken, decode_record_decode (length_decode_le _ _ _)]

theorem eq_of_entries_eq {limit limit' : Nat} {source source' : Tape} {run run' : Run}
    (h : build limit source.instructions = .ok run) (h' : build limit' source'.instructions = .ok run')
    (hentries : run.entries = run'.entries) : run = run' := by
  have hops : run.ops = run'.ops := by rw [ops_of_tape h, ops_of_tape h', hentries]
  cases run
  cases run'
  exact congrArg₂ Run.mk hops hentries

end Run

end Dynarec
