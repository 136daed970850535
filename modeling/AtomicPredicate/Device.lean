import AtomicPredicate.Acl
import AtomicPredicate.Forward

/-!
# Sequences of calls

A device computes the predicates of its tables one after the other, in any order and as often as
wanted, and keeps every handle it was given. `runCalls` holds the handles kept so far as roots, on top
of the roots each call holds itself. So a store operation of the whole run stops with `released` as
soon as it is given a handle without a positive count, or finds one among the live variables.

It never does (`runCalls_never_released`), whatever the tables and whenever the collector runs.
-/

namespace AtomicPredicate

open Lib

inductive Call where
  | computeFWBDDs (tableID : Nat)
  | computeACLBDD (tableID : Nat)

def runCall (qsort : Qsort) (d : Device) : Call → BddM (Device × List Handle)
  | .computeFWBDDs tableID => do
    let (fwdbdds, d') ← computeFWBDDs qsort d tableID
    return (d', fwdbdds)
  | .computeACLBDD tableID => do
    let res ← computeACLBDD d tableID
    return (d, [res])

/-- Make the calls in turn, `kept` being the handles returned so far. -/
def runCalls (qsort : Qsort) (d : Device) (kept : List Handle) :
    List Call → BddM (Device × List Handle)
  | [] => pure (d, kept)
  | call :: calls => do
    let (d', returned) ← holding kept (runCall qsort d call)
    runCalls qsort d' (kept ++ returned) calls

/-- The call finds its table, and every entry or rule of it can be converted. -/
def Call.Fine (d : Device) : Call → Prop
  | .computeFWBDDs tableID => d.FwFine tableID
  | .computeACLBDD tableID => ∃ r, d.routers[tableID]? = some r ∧
      ∀ rule ∈ allRules r.aclTable, rule.Converts

theorem Call.Fine.sorted {d : Device} {call : Call} (h : call.Fine d) (qsort : Qsort)
    {tableID : Nat} {r : Router} (hr : d.routers[tableID]? = some r) (size : Nat) :
    call.Fine (d.sorted qsort tableID r size) := by
  have hget : ∀ (t : Nat) (r' : Router), d.routers[t]? = some r' → ∃ r'' : Router,
      (d.sorted qsort tableID r size).routers[t]? = some r'' ∧
        r'.prefixTable.Perm r''.prefixTable ∧ r''.uniPort = r'.uniPort ∧
        r''.aclTable = r'.aclTable := by
    intro t r' hr'
    show ∃ r'' : Router, (d.routers.set tableID _)[t]? = some r'' ∧ _
    rw [List.getElem?_set]
    by_cases ht : tableID = t
    · subst ht
      obtain rfl := Option.some.inj (hr.symm.trans hr')
      rw [if_pos rfl, if_pos (List.getElem?_eq_some_iff.mp hr).1]
      exact ⟨_, rfl, (qsort.perm _).symm, rfl, rfl⟩
    · rw [if_neg ht]
      exact ⟨r', hr', List.Perm.refl _, rfl, rfl⟩
  cases call with
  | computeFWBDDs t =>
    obtain ⟨hinit, r', hr', hall⟩ := h
    obtain ⟨r'', hr'', hp, huni, -⟩ := hget t r' hr'
    exact ⟨hinit, r'', hr'', fun e he => huni ▸ hall e (hp.mem_iff.mpr he)⟩
  | computeACLBDD t =>
    obtain ⟨r', hr', hall⟩ := h
    obtain ⟨r'', hr'', -, -, hacl⟩ := hget t r' hr'
    exact ⟨r'', hr'', hacl ▸ hall⟩

/-- **One call** returns handles it owns. -/
theorem runCall_triple (qsort : Qsort) (d : Device) (call : Call) :
    Triple discipline 0 (runCall qsort d call)
      (fun res B => (∀ c : Call, c.Fine d → c.Fine res.1) ∧
        ∃ (returned : List (Handle × Bdd)) (left : Multiset (Handle × Bdd)),
          res.2 = returned.map Prod.fst ∧ B = (returned : Multiset (Handle × Bdd)) + left)
      (fun _ => ¬ call.Fine d) := by
  cases call with
  | computeFWBDDs tableID =>
    apply Triple.bind (computeFWBDDs_triple qsort d tableID)
    intro res B hB
    obtain ⟨r, fw, vf, slots, hr, rfl, rfl, hinv⟩ := hB
    exact Triple.pure ⟨fun c hc => hc.sorted qsort hr fw.fwdPredicateSize, slots, {(fw.fwded, vf)},
      hinv.fwdbdds, add_comm _ _⟩
  | computeACLBDD tableID =>
    refine Triple.bind (Triple.conseq rfl (computeACLBDD_triple d tableID) (fun _ _ h => h) ?_) ?_
    · intro _ hex hfine
      obtain ⟨r, hr, hall⟩ := hfine
      obtain ⟨rule, hmem, hconv⟩ := hex r hr
      exact hconv (hall rule hmem)
    · intro h B hB
      obtain ⟨r, a, vr, vd, left, hr, rfl, rfl, hinv, -⟩ := hB
      refine Triple.pure ⟨fun c hc => hc, [(a.res, vr)],
        {(a.denyBuffer, vd)} + {(a.denyBuffernot, vd.neg)} + left, rfl, ?_⟩
      rw [Accumulators.owned, Multiset.coe_singleton]
      abel

/-- **A run** keeps every handle it was given owned. -/
theorem runCalls_triple (qsort : Qsort) (calls : List Call) :
    ∀ (d : Device) (kept : List (Handle × Bdd)) (left : Multiset (Handle × Bdd)),
      Triple discipline (kept + left) (runCalls qsort d (kept.map Prod.fst) calls)
        (fun res B => ∃ (kept' : List (Handle × Bdd)) (left' : Multiset (Handle × Bdd)),
          res.2 = kept'.map Prod.fst ∧ B = (kept' : Multiset (Handle × Bdd)) + left')
        (fun _ => ∃ call ∈ calls, ¬ call.Fine d) := by
  induction calls with
  | nil => exact fun d kept left => Triple.pure ⟨kept, left, rfl, rfl⟩
  | cons call calls ih =>
    intro d kept left
    refine Triple.seqHolding _ (kept + left) (mem_handles kept left rfl) (zero_add _).symm
      (Triple.conseq rfl (runCall_triple qsort d call) (fun _ _ h => h)
        fun _ hc => ⟨call, by simp, hc⟩) ?_
    intro res B hB
    obtain ⟨hfine, returned, left', hres, rfl⟩ := hB
    have hsplit : (returned : Multiset (Handle × Bdd)) + left' + (kept + left) =
        ((kept ++ returned : List (Handle × Bdd)) : Multiset (Handle × Bdd)) + (left' + left) := by
      rw [← Multiset.coe_add]
      abel
    dsimp only
    rw [hsplit, hres, ← List.map_append]
    refine Triple.conseq rfl (ih res.1 (kept ++ returned) (left' + left)) (fun _ _ h => h) ?_
    intro _ hex
    obtain ⟨c, hc, hnot⟩ := hex
    exact ⟨c, List.mem_cons_of_mem _ hc, fun h => hnot (hfine c h)⟩

theorem runCalls_return (qsort : Qsort) (d : Device) (calls : List Call)
    (hfine : ∀ call ∈ calls, call.Fine d) (σ : Session) :
    ∃ d' kept s', runCalls qsort d [] calls σ.store = .ok ((d', kept), s') := by
  rcases run_session (runCalls_triple qsort calls d [] 0) σ with
    ⟨⟨d', kept⟩, s', _, hrun, -⟩ | ⟨e, -, call, hmem, hnot⟩
  · exact ⟨d', kept, s', hrun⟩
  · exact absurd (hfine call hmem) hnot

/-- **No handle is used after its release.** In no run is a store operation given a handle without a
positive count, or carried out while a live variable or an earlier result holds one; and at the end
all results are held. A variable is live until its handle is released, also where it is overwritten
only later. Calls on tables that convert do return. -/
theorem runCalls_never_released (qsort : Qsort) (d : Device) (calls : List Call) (σ : Session) :
    (∀ h, runCalls qsort d [] calls σ.store ≠ .error (.released h)) ∧
      (∀ d' kept s', runCalls qsort d [] calls σ.store = .ok ((d', kept), s') →
        ∀ h ∈ kept, 0 < s'.count h) ∧
      ((∀ call ∈ calls, call.Fine d) →
        ∃ d' kept s', runCalls qsort d [] calls σ.store = .ok ((d', kept), s')) := by
  refine ⟨?_, ?_, fun hfine => runCalls_return qsort d calls hfine σ⟩ <;>
    rcases run_session (runCalls_triple qsort calls d [] 0) σ with
      ⟨⟨d', kept⟩, s', _, hrun, ⟨keptOwned, left, hkept, rfl⟩, -, hpos, -⟩ | ⟨e, hrun, -⟩
  · intro h heq
    cases hrun.symm.trans heq
  · intro h heq
    cases hrun.symm.trans heq
  · intro d'' kept' s'' heq h hmem
    cases hrun.symm.trans heq
    obtain ⟨p, hp, rfl⟩ := List.mem_map.mp (hkept ▸ hmem : h ∈ keptOwned.map Prod.fst)
    exact hpos p (by simp [hp])
  · intro d' kept s' heq
    cases hrun.symm.trans heq

end AtomicPredicate
