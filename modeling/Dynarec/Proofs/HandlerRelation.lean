import Dynarec.Proofs.EmissionRelation

namespace Dynarec.Emission

variable {flow : Dataflow} {status : Table Node Status}

/-- `Fresh ns ops` says that a handler pushes the values of `ns` by `ops`. It restores ordered nodes,
and computes every other one after its inputs, each time that it is needed. -/
inductive Fresh (flow : Dataflow) (status : Table Node Status) : List Node → List Op → Prop
  | nil : Fresh flow status [] []
  | restore {n : Node} {ns : List Node} {ops : List Op} {d : Definition} {slot : Slot}
      (hd : flow.get? n = some d) (ho : d.isOrdered = true)
      (hs : status.get? n = some (.computed (some slot))) (h : Fresh flow status ns ops) :
      Fresh flow status (n :: ns) (.restore slot :: ops)
  | leaf {n : Node} {ns : List Node} {ops : List Op} {d : Definition} {op : Op}
      (hd : flow.get? n = some d) (ho : d.isOrdered = false) (hop : leafOp? d.kind = some op)
      (h : Fresh flow status ns ops) : Fresh flow status (n :: ns) (op :: ops)
  | op {n : Node} {ns : List Node} {ops ops' : List Op} {d : Definition} {m : Microcode} {e : Element}
      {f : Fragment} (hd : flow.get? n = some d) (ho : d.isOrdered = false) (hk : d.kind = .op m e f)
      (hin : Fresh flow status d.inputs ops) (h : Fresh flow status ns ops') :
      Fresh flow status (n :: ns) (ops ++ .apply f :: ops')

theorem Fresh.append {ns ms : List Node} {ops ops' : List Op} (h : Fresh flow status ns ops)
    (h' : Fresh flow status ms ops') : Fresh flow status (ns ++ ms) (ops ++ ops') := by
  induction h with
  | nil => exact h'
  | restore hd ho hs _ ih => exact .restore hd ho hs ih
  | leaf hd ho hop _ ih => exact .leaf hd ho hop ih
  | op hd ho hk hin _ _ ih =>
      simpa only [List.cons_append, List.append_assoc] using Fresh.op hd ho hk hin ih

def catchUp (mode : Mode) (eipLag : UInt32) (e : Element) : List Op :=
  if e = .eip ∧ eipLag ≠ 0 then [.constant eipLag, .apply (Rule.advance mode)] else []

inductive FreshState (g : Graph) (status : Table Node Status) (eipLag : UInt32) :
    List (Element × Node) → List Op → Prop
  | nil : FreshState g status eipLag [] []
  | cons {p : Element × Node} {ps : List (Element × Node)} {ops ops' : List Op}
      (hp : Fresh g.dataflow status [p.2] ops) (h : FreshState g status eipLag ps ops') :
      FreshState g status eipLag (p :: ps) (ops ++ (catchUp g.mode eipLag p.1 ++ ops'))

/-- The handler bodies stand one after another from a place on, one for each boundary. -/
inductive Handles (g : Graph) (status : Table Node Status) (applyAt : Table Node (Option Nat)) :
    Nat → List Boundary → List Op → List Handler → Prop
  | nil (target : Nat) : Handles g status applyAt target [] [] []
  | cons {target first last : Nat} {b : Boundary} {bs : List Boundary} {ops ops' : List Op} {hs : List Handler}
      (hrange : Body.protectedRange? applyAt b.nodes = some (first, last))
      (hstate : FreshState g status b.eipLag (Body.handlerState b) ops)
      (h : Handles g status applyAt (target + ops.length + (Body.handlerState b).length + 1) bs ops' hs) :
      Handles g status applyAt target (b :: bs)
        (ops ++ (Body.commits (Body.handlerState b) ++ .rethrow (b.x86Index - 1) :: ops'))
        (⟨first, last + 1, target, b.x86Index - 1⟩ :: hs)

theorem Handles.split {g : Graph} {applyAt : Table Node (Option Nat)} {target : Nat} {bs : List Boundary}
    {ops : List Op} {hs : List Handler} (h : Handles g status applyAt target bs ops hs) {b : Boundary} (hb : b ∈ bs) :
    ∃ before body after first last, ops = before ++
        (body ++ (Body.commits (Body.handlerState b) ++ .rethrow (b.x86Index - 1) :: after)) ∧
      FreshState g status b.eipLag (Body.handlerState b) body ∧
      Body.protectedRange? applyAt b.nodes = some (first, last) ∧
      ⟨first, last + 1, target + before.length, b.x86Index - 1⟩ ∈ hs := by
  induction h with
  | nil target => cases hb
  | @cons target first last b' bs ops ops' hs hrange hstate h ih =>
      rcases List.mem_cons.mp hb with rfl | hb
      · exact ⟨[], ops, ops', first, last, rfl, hstate, hrange, List.mem_cons_self⟩
      · obtain ⟨before, body, after, first', last', rfl, hstate', hrange', hmem⟩ := ih hb
        refine ⟨ops ++ (Body.commits (Body.handlerState b') ++ .rethrow (b'.x86Index - 1) :: before), body, after,
          first', last', by simp, hstate', hrange', List.mem_cons_of_mem _ ?_⟩
        convert hmem using 2
        simp [Body.commits]
        omega

end Dynarec.Emission
