import AtomicPredicate.Lib.FirstMatch
import AtomicPredicate.Rule

/-!
# The predicate of a router's ACLs

`computeACLBDD` from `bddwrapper.c`. It never forms the first-match chain: it accumulates what has
been permitted, what the deny rules cover and the negation of that, with a branch for each way in
which the accumulators can still be the constant false.

The accumulators are those of a scan for the first match (`AclInv`), over the concatenation of the
ACLs in table order. So the predicate is first match over the concatenation, and it is independent
of the order of the ACLs exactly when no packet is permitted by the first match in one of them and
denied by the first match in another.

The three accumulators are held as roots at each operation. A variable whose handle has just been
released, and is about to be overwritten, is not.
-/

namespace AtomicPredicate

open Lib

/-! ### The code -/

/-- The variables of `computeACLBDD` that its loops update. -/
structure Accumulators where
  res : Handle
  denyBuffer : Handle
  denyBuffernot : Handle

def Accumulators.held (a : Accumulators) : List Handle := [a.res, a.denyBuffer, a.denyBuffernot]

/-- The branches for a permit rule. The handles that `holding` lists are those of the variables that
are not yet released: from its release to its next value a variable is not one of them. -/
def permitRule (a : Accumulators) (ruleBdd : Handle) : BddM Accumulators :=
  if a.res = bddfalse then
    if a.denyBuffer = bddfalse then return { a with res := ruleBdd }
    else do
      let tmpnode ← holding a.held (bddApply ruleBdd a.denyBuffernot .and >>= bddAddref)
      holding [tmpnode, a.denyBuffer, a.denyBuffernot] (bddDelref ruleBdd)
      return { a with res := tmpnode }
  else
    if a.denyBuffer = bddfalse then do
      let tmpnode ← holding a.held (bddApply a.res ruleBdd .or >>= bddAddref)
      holding a.held (bddDelref a.res)
      holding [a.denyBuffer, a.denyBuffernot] (bddDelref ruleBdd)
      return { a with res := tmpnode }
    else do
      let tmpnode ← holding a.held (bddApply ruleBdd a.denyBuffernot .and >>= bddAddref)
      holding a.held (bddDelref ruleBdd)
      let tmpnode2 ← holding a.held (bddApply a.res tmpnode .or >>= bddAddref)
      holding a.held (bddDelref a.res)
      holding [a.denyBuffer, a.denyBuffernot] (bddDelref tmpnode)
      return { a with res := tmpnode2 }

def denyRule (a : Accumulators) (ruleBdd : Handle) : BddM Accumulators :=
  if a.denyBuffer = bddfalse then do
    let denyBuffernot ← holding [a.res, ruleBdd, a.denyBuffernot] (bddNot ruleBdd >>= bddAddref)
    return { a with denyBuffer := ruleBdd, denyBuffernot := denyBuffernot }
  else do
    let tmpnode ← holding a.held (bddApply a.denyBuffer ruleBdd .or >>= bddAddref)
    holding a.held (bddDelref ruleBdd)
    holding a.held (bddDelref a.denyBuffer)
    holding [a.res, tmpnode, a.denyBuffernot] (bddDelref a.denyBuffernot)
    let denyBuffernot ← holding [a.res, tmpnode] (bddNot tmpnode >>= bddAddref)
    return { a with denyBuffer := tmpnode, denyBuffernot := denyBuffernot }

/-- One round of the inner loop. -/
def ruleStep (a : Accumulators) (rule : Rule) : BddM Accumulators := do
  let ruleBdd ← holding a.held (converACLRule rule)
  if rule.action = 1 then permitRule a ruleBdd else denyRule a ruleBdd

def computeACLBDD (d : Device) (tableID : Nat) : BddM Handle := do
  match d.routers[tableID]? with
  | none => throw (.client .index)
  | some r =>
    let a ← r.aclTable.foldlM (fun a entry => entry.list.foldlM ruleStep a)
      ⟨bddfalse, bddfalse, bddtrue⟩
    return a.res

/-- The rules of a table in the order they are read. -/
def allRules (table : List (Entry (List Rule))) : List Rule := table.flatMap (·.list)

/-! ### One rule -/

section

variable {E : CFault → Prop} {a : Accumulators} {vr vd v : Bdd} {ruleBdd : Handle}

theorem held₂ {h₁ h₂ : Handle} {v₁ v₂ : Bdd} {A : Multiset (Handle × Bdd)}
    (X : Multiset (Handle × Bdd)) (hA : A = {(h₁, v₁)} + {(h₂, v₂)} + X) :
    ∀ h ∈ [h₁, h₂], ∃ v, (h, v) ∈ A := by
  subst hA
  simp only [List.forall_mem_cons, List.not_mem_nil, false_implies, implies_true, and_true]
  exact ⟨⟨v₁, by simp⟩, ⟨v₂, by simp⟩⟩

theorem held₃ {h₁ h₂ h₃ : Handle} {v₁ v₂ v₃ : Bdd} {A : Multiset (Handle × Bdd)}
    (X : Multiset (Handle × Bdd)) (hA : A = {(h₁, v₁)} + {(h₂, v₂)} + {(h₃, v₃)} + X) :
    ∀ h ∈ [h₁, h₂, h₃], ∃ v, (h, v) ∈ A := by
  subst hA
  simp only [List.forall_mem_cons, List.not_mem_nil, false_implies, implies_true, and_true]
  exact ⟨⟨v₁, by simp⟩, ⟨v₂, by simp⟩, ⟨v₃, by simp⟩⟩

def Accumulators.owned (a : Accumulators) (vr vd : Bdd) : Multiset (Handle × Bdd) :=
  {(a.res, vr)} + {(a.denyBuffer, vd)} + {(a.denyBuffernot, vd.neg)}

theorem permitRule_triple :
    Triple discipline (a.owned vr vd + {(ruleBdd, v)}) (permitRule a ruleBdd)
      (fun a' B => ∃ vr', B = a'.owned vr' vd ∧
        ∀ env, vr'.eval env = true ↔
          vr.eval env = true ∨ (v.eval env = true ∧ ¬ vd.eval env = true)) E := by
  obtain ⟨res, deny, denynot⟩ := a
  unfold permitRule Accumulators.owned Accumulators.held
  dsimp only
  by_cases hres : res = bddfalse
  · subst hres
    rw [if_pos rfl]
    refine Triple.permanent_value (v := vr) mem_permanent_false (by simp) fun hvr => ?_
    subst hvr
    by_cases hdeny : deny = bddfalse
    · subst hdeny
      rw [if_pos rfl]
      refine Triple.permanent_value (v := vd) mem_permanent_false (by simp) fun hvd => ?_
      subst hvd
      rw [show {(bddfalse, Robdd.const false)} + {(bddfalse, Robdd.const false)} +
          {(denynot, (Robdd.const false).neg)} + {(ruleBdd, v)} =
          {(bddfalse, Robdd.const false)} + ({(ruleBdd, v)} + {(bddfalse, Robdd.const false)} +
            {(denynot, (Robdd.const false).neg)}) by abel]
      exact Triple.discard mem_permanent_false (Triple.pure ⟨v, rfl, by simp⟩)
    · rw [if_neg hdeny]
      refine Triple.seqOperate₂ (a := v) (b := vd.neg) ({(bddfalse, Robdd.const false)} +
        {(deny, vd)}) (by abel) (held₃ {(ruleBdd, v)} rfl) ?_
      intro tmpnode vt ht
      refine Triple.seqDelref v ({(bddfalse, Robdd.const false)} + ({(tmpnode, vt)} + {(deny, vd)} +
        {(denynot, vd.neg)})) (by abel)
        (held₃ ({(bddfalse, Robdd.const false)} + {(ruleBdd, v)}) (by abel)) ?_
      refine Triple.discard mem_permanent_false (Triple.pure ⟨vt, rfl, fun env => ?_⟩)
      simp [ht]
  · rw [if_neg hres]
    by_cases hdeny : deny = bddfalse
    · subst hdeny
      rw [if_pos rfl]
      refine Triple.permanent_value (v := vd) mem_permanent_false (by simp) fun hvd => ?_
      subst hvd
      refine Triple.seqOperate₂ (a := vr) (b := v) ({(bddfalse, Robdd.const false)} +
        {(denynot, (Robdd.const false).neg)}) (by abel) (held₃ {(ruleBdd, v)} rfl) ?_
      intro tmpnode vt ht
      refine Triple.seqDelref vr ({(ruleBdd, v)} + ({(tmpnode, vt)} +
        {(bddfalse, Robdd.const false)} + {(denynot, (Robdd.const false).neg)})) (by abel)
        (held₃ ({(ruleBdd, v)} + {(tmpnode, vt)}) (by abel)) ?_
      refine Triple.seqDelref v ({(tmpnode, vt)} + {(bddfalse, Robdd.const false)} +
        {(denynot, (Robdd.const false).neg)}) (by abel)
        (held₂ ({(ruleBdd, v)} + {(tmpnode, vt)}) (by abel)) ?_
      refine Triple.pure ⟨vt, rfl, fun env => ?_⟩
      simp [ht]
    · rw [if_neg hdeny]
      refine Triple.seqOperate₂ (a := v) (b := vd.neg) ({(res, vr)} + {(deny, vd)}) (by abel)
        (held₃ {(ruleBdd, v)} rfl) ?_
      intro tmpnode vt ht
      refine Triple.seqDelref v ({(res, vr)} + {(deny, vd)} + {(denynot, vd.neg)} + {(tmpnode, vt)})
        (by abel) (held₃ ({(ruleBdd, v)} + {(tmpnode, vt)}) (by abel)) ?_
      refine Triple.seqOperate₂ (a := vr) (b := vt) ({(deny, vd)} + {(denynot, vd.neg)}) (by abel)
        (held₃ {(tmpnode, vt)} (by abel)) ?_
      intro tmpnode2 vt2 ht2
      refine Triple.seqDelref vr ({(tmpnode, vt)} + ({(tmpnode2, vt2)} + {(deny, vd)} +
        {(denynot, vd.neg)})) (by abel) (held₃ ({(tmpnode, vt)} + {(tmpnode2, vt2)}) (by abel)) ?_
      refine Triple.seqDelref vt ({(tmpnode2, vt2)} + {(deny, vd)} + {(denynot, vd.neg)}) (by abel)
        (held₂ ({(tmpnode, vt)} + {(tmpnode2, vt2)}) (by abel)) ?_
      refine Triple.pure ⟨vt2, rfl, fun env => ?_⟩
      simp [ht2, ht]

theorem denyRule_triple :
    Triple discipline (a.owned vr vd + {(ruleBdd, v)}) (denyRule a ruleBdd)
      (fun a' B => ∃ vd', B = a'.owned vr vd' ∧
        ∀ env, vd'.eval env = true ↔ vd.eval env = true ∨ v.eval env = true) E := by
  obtain ⟨res, deny, denynot⟩ := a
  unfold denyRule Accumulators.owned Accumulators.held
  dsimp only
  by_cases hdeny : deny = bddfalse
  · subst hdeny
    rw [if_pos rfl]
    refine Triple.permanent_value (v := vd) mem_permanent_false (by simp) fun hvd => ?_
    subst hvd
    -- the negation of the constant false is the constant true, so nothing is lost with it
    have hneg : (Robdd.const false : Bdd).neg = Robdd.const true := Robdd.ext_eval (by simp)
    rw [hneg]
    refine Triple.permanent_handle (h := denynot) mem_permanent_true (by simp) fun hnot => ?_
    subst hnot
    refine Triple.seqOperate₁ (v := v) ({(res, vr)} + {(bddfalse, Robdd.const false)} +
      {(bddtrue, Robdd.const true)}) (by abel)
      (held₃ {(bddfalse, Robdd.const false)} (by abel)) ?_
    rintro denyBuffernot _ rfl
    rw [show {(res, vr)} + {(bddfalse, Robdd.const false)} + {(bddtrue, Robdd.const true)} +
        {(ruleBdd, v)} + {(denyBuffernot, v.neg)} =
        {(bddfalse, Robdd.const false)} + ({(bddtrue, Robdd.const true)} + ({(res, vr)} +
          {(ruleBdd, v)} + {(denyBuffernot, v.neg)})) by abel]
    exact Triple.discard mem_permanent_false (Triple.discard mem_permanent_true
      (Triple.pure ⟨v, rfl, by simp⟩))
  · rw [if_neg hdeny]
    refine Triple.seqOperate₂ (a := vd) (b := v) ({(res, vr)} + {(denynot, vd.neg)}) (by abel)
      (held₃ {(ruleBdd, v)} rfl) ?_
    intro tmpnode vt ht
    refine Triple.seqDelref v ({(res, vr)} + {(deny, vd)} + {(denynot, vd.neg)} + {(tmpnode, vt)})
      (by abel) (held₃ ({(ruleBdd, v)} + {(tmpnode, vt)}) (by abel)) ?_
    refine Triple.seqDelref vd ({(res, vr)} + {(tmpnode, vt)} + {(denynot, vd.neg)}) (by abel)
      (held₃ {(tmpnode, vt)} (by abel)) ?_
    refine Triple.seqDelref vd.neg ({(res, vr)} + {(tmpnode, vt)}) (by abel) (held₃ 0 (by abel)) ?_
    refine Triple.seqOperate₁ (v := vt) {(res, vr)} (by abel) (held₂ 0 (by abel)) ?_
    rintro denyBuffernot _ rfl
    refine Triple.pure ⟨vt, rfl, fun env => ?_⟩
    simp [ht]

end

/-! ### All rules -/

/-- The accumulators after the rules `done`: what the first match permits, and what any deny rule
covers. -/
structure AclInv (done : List Rule) (vr vd : Bdd) : Prop where
  converts : ∀ rule ∈ done, rule.Converts
  permit : ∀ env, vr.eval env = true ↔ Selects Rule.hit (fun rule => rule.action = 1) done env
  deny : ∀ env, vd.eval env = true ↔ ∃ rule ∈ done, ¬ rule.action = 1 ∧ rule.hit env

namespace AclInv

variable {done : List Rule} {vr vr' vd vd' v : Bdd} {rule : Rule}

theorem init : AclInv [] (.const false) (.const false) where
  converts := by simp
  permit env := by simp [not_selects_nil]
  deny env := by simp

theorem converts_append (hinv : AclInv done vr vd) (hconv : rule.Converts) :
    ∀ r ∈ done ++ [rule], r.Converts := by
  intro r hr
  rcases List.mem_append.mp hr with hr | hr
  · exact hinv.converts r hr
  · exact List.mem_singleton.mp hr ▸ hconv

theorem permit_step (hinv : AclInv done vr vd) (hconv : rule.Converts) (haction : rule.action = 1)
    (hv : ∀ env, v.eval env = true ↔ rule.hit env)
    (hvr : ∀ env, vr'.eval env = true ↔
      vr.eval env = true ∨ (v.eval env = true ∧ ¬ vd.eval env = true)) :
    AclInv (done ++ [rule]) vr' vd where
  converts := hinv.converts_append hconv
  permit env := by
    rw [hvr, selects_append_of_pos (P := fun rule : Rule => rule.action = 1) haction, hinv.permit,
      hv, hinv.deny]
  deny env := by
    rw [hinv.deny]
    simp only [List.mem_append, List.mem_singleton, or_and_right, exists_or, exists_eq_left]
    exact (or_iff_left fun h => h.1 haction).symm

theorem deny_step (hinv : AclInv done vr vd) (hconv : rule.Converts) (haction : ¬ rule.action = 1)
    (hv : ∀ env, v.eval env = true ↔ rule.hit env)
    (hvd : ∀ env, vd'.eval env = true ↔ vd.eval env = true ∨ v.eval env = true) :
    AclInv (done ++ [rule]) vr vd' where
  converts := hinv.converts_append hconv
  permit env := by
    rw [selects_append_of_neg (P := fun rule : Rule => rule.action = 1) haction, hinv.permit]
  deny env := by
    rw [hvd, hinv.deny, hv]
    simp only [List.mem_append, List.mem_singleton, or_and_right, exists_or, exists_eq_left]
    exact or_congr_right (and_iff_right haction).symm

end AclInv

/-- **One round of the inner loop** keeps the accumulators those of the rules read. -/
theorem ruleStep_triple {done : List Rule} {a : Accumulators} {vr vd : Bdd}
    (hinv : AclInv done vr vd) (rule : Rule) :
    Triple discipline (a.owned vr vd) (ruleStep a rule)
      (fun a' B => ∃ (vr' vd' : Bdd) (fields : List (Handle × Bdd)),
        B = a'.owned vr' vd' + (fields : Multiset (Handle × Bdd)) ∧
          AclInv (done ++ [rule]) vr' vd' ∧ Denote fields rule.fieldHits)
      (fun _ => ¬ rule.Converts) := by
  unfold ruleStep
  refine Triple.seqHolding a.held (a.owned vr vd) (held₃ 0 (add_zero _).symm) (zero_add _).symm
    (Triple.conseq rfl (converACLRule_triple rule) (fun _ _ h => h) fun _ h => h.1) ?_
  intro ruleBdd B hB
  obtain ⟨hconv, v, fields, rfl, hv, hfields⟩ := hB
  rw [show {(ruleBdd, v)} + (fields : Multiset (Handle × Bdd)) + a.owned vr vd =
    a.owned vr vd + {(ruleBdd, v)} + fields by abel]
  by_cases haction : rule.action = 1
  · rw [if_pos haction]
    apply Triple.post (Triple.frame fields permitRule_triple)
    intro a' B hB
    obtain ⟨_, rfl, vr', rfl, hvr⟩ := hB
    exact ⟨vr', vd, fields, rfl, hinv.permit_step hconv haction hv hvr, hfields⟩
  · rw [if_neg haction]
    apply Triple.post (Triple.frame fields denyRule_triple)
    intro a' B hB
    obtain ⟨_, rfl, vd', rfl, hvd⟩ := hB
    exact ⟨vr, vd', fields, rfl, hinv.deny_step hconv haction hv hvd, hfields⟩

/-- The loop invariant: the accumulators of the rules read, and the fields of these rules, which
are left owned. -/
def AclLoop (done : List Rule) (a : Accumulators) (B : Multiset (Handle × Bdd)) : Prop :=
  ∃ (vr vd : Bdd) (left : List (Handle × Bdd)), B = a.owned vr vd + left ∧ AclInv done vr vd ∧
    Denote left (done.flatMap Rule.fieldHits)

theorem entry_triple {done : List Rule} {a : Accumulators} {A : Multiset (Handle × Bdd)}
    (h : AclLoop done a A) (rules : List Rule) :
    Triple discipline A (rules.foldlM ruleStep a) (AclLoop (done ++ rules))
      (fun _ => ∃ rule ∈ rules, ¬ rule.Converts) := by
  refine Triple.foldlM rules (fun read => AclLoop (done ++ read)) ?_ (by rwa [List.append_nil])
  intro read rule rest a B hsplit hB
  obtain ⟨vr, vd, left, rfl, hinv, hleft⟩ := hB
  refine Triple.conseq rfl (Triple.frame left (ruleStep_triple hinv rule)) ?_ ?_
  · intro a' B hB
    obtain ⟨_, rfl, vr', vd', fields, rfl, hinv', hfields⟩ := hB
    refine ⟨vr', vd', left ++ fields, ?_, by rwa [← List.append_assoc], ?_⟩
    · rw [← Multiset.coe_add, add_comm (left : Multiset (Handle × Bdd)), add_assoc]
    · rw [← List.append_assoc, List.flatMap_append, List.flatMap_singleton]
      exact hleft.append hfields
  · exact fun _ hconv => ⟨rule, by simp [hsplit], hconv⟩

theorem allRules_append (done : List (Entry (List Rule))) (entry : Entry (List Rule)) :
    allRules (done ++ [entry]) = allRules done ++ entry.list := by
  simp [allRules]

theorem mem_allRules {table : List (Entry (List Rule))} {entry : Entry (List Rule)} {rule : Rule}
    (he : entry ∈ table) (hr : rule ∈ entry.list) : rule ∈ allRules table :=
  List.mem_flatMap.mpr ⟨entry, he, hr⟩

/-- **The loops of `computeACLBDD`** scan the concatenation of the ACLs. -/
theorem computeACLBDD_triple (d : Device) (tableID : Nat) :
    Triple discipline 0 (computeACLBDD d tableID)
      (fun h B => ∃ (r : Router) (a : Accumulators) (vr vd : Bdd) (left : List (Handle × Bdd)),
        d.routers[tableID]? = some r ∧ h = a.res ∧ B = a.owned vr vd + left ∧
          AclInv (allRules r.aclTable) vr vd ∧
          Denote left ((allRules r.aclTable).flatMap Rule.fieldHits))
      (fun _ => ∀ r, d.routers[tableID]? = some r → ∃ rule ∈ allRules r.aclTable, ¬ rule.Converts) := by
  unfold computeACLBDD
  cases hr : d.routers[tableID]? with
  | none => exact Triple.throw fun r hr' => by cases hr'
  | some r =>
    refine Triple.permanent mem_permanent_true (Triple.permanent mem_permanent_false
      (Triple.permanent mem_permanent_false ?_))
    refine Triple.bind (Triple.foldlM r.aclTable (fun read => AclLoop (allRules read)) ?_ ?_) ?_
    · intro read entry rest a B hsplit hB
      refine Triple.conseq rfl (entry_triple hB entry.list) ?_ ?_
      · intro a' B hB
        rwa [allRules_append]
      · intro _ hex r' hr'
        obtain rfl : r = r' := Option.some.inj hr'
        obtain ⟨rule, hmem, hconv⟩ := hex
        exact ⟨rule, mem_allRules (by simp [hsplit]) hmem, hconv⟩
    · refine ⟨.const false, .const false, [], ?_, AclInv.init, .nil⟩
      have hneg : (Robdd.const false : Bdd).neg = Robdd.const true := Robdd.ext_eval (by simp)
      rw [Accumulators.owned, hneg, Multiset.coe_nil]
      abel
    · intro a B hB
      obtain ⟨vr, vd, left, rfl, hinv, hleft⟩ := hB
      exact Triple.pure ⟨r, a, vr, vd, left, rfl, rfl, rfl, hinv, hleft⟩

/-! ### First match -/

section

variable {d : Device} {tableID : Nat} {r : Router}

theorem selects_ruleMatches {rules : List Rule} (hconv : ∀ rule ∈ rules, rule.Converts)
    (P : Rule → Prop) (σ : Session) (p : Packet) :
    Selects (ruleMatches σ) P rules p ↔ Selects Rule.hit P rules p.assignment :=
  selects_congr fun rule hr => (ruleMatches_iff σ rule p).trans (and_iff_right (hconv rule hr))

theorem computeACLBDD_run (hr : d.routers[tableID]? = some r) (σ : Session) :
    ((∀ rule ∈ allRules r.aclTable, rule.Converts) ∧
      ∃ h s', computeACLBDD d tableID σ.store = .ok (h, s') ∧ ∀ p : Packet, Satisfies s' h p ↔
        Selects Rule.hit (fun rule => rule.action = 1) (allRules r.aclTable) p.assignment) ∨
    ((∃ rule ∈ allRules r.aclTable, ¬ rule.Converts) ∧
      ∃ e, computeACLBDD d tableID σ.store = .error e) := by
  rcases run_session (computeACLBDD_triple d tableID) σ with
    ⟨h, s', B, hrun, ⟨r', a, vr, vd, left, hr', rfl, rfl, hinv, -⟩, hval, -⟩ | ⟨e, hrun, hex⟩
  · obtain rfl : r = r' := Option.some.inj (hr.symm.trans hr')
    refine Or.inl ⟨hinv.converts, _, s', hrun, fun p => ?_⟩
    rw [Satisfies, evalHandle_eq (hval (a.res, vr) (by simp [Accumulators.owned])), hinv.permit]
  · exact Or.inr ⟨hex r hr, _, hrun⟩

/-- **`computeACLBDD` is first match** over the concatenation of the ACLs in table order, whatever
the table: the result accepts a packet exactly when the first rule whose predicate it satisfies is a
permit rule. It fails only where `converACLRule` fails on a rule. -/
theorem computeACLBDD_firstMatch (d : Device) (tableID : Nat) {r : Router}
    (hr : d.routers[tableID]? = some r) (σ : Session) :
    (∃ h s', computeACLBDD d tableID σ.store = .ok (h, s') ∧ ∀ p : Packet,
      (Satisfies s' h p ↔ ∃ rule, FirstHit (ruleMatches σ) (allRules r.aclTable) p rule ∧
        rule.action = 1) ∧
      ((∀ rule ∈ allRules r.aclTable, ¬ ruleMatches σ rule p) → ¬ Satisfies s' h p)) ∨
    ((∃ e, computeACLBDD d tableID σ.store = .error e) ∧
      ∃ rule ∈ allRules r.aclTable, ∃ e, converACLRule rule σ.store = .error e) := by
  rcases computeACLBDD_run hr σ with ⟨hconv, h, s', hrun, hsat⟩ | ⟨⟨rule, hmem, hconv⟩, hrun⟩
  · refine Or.inl ⟨h, s', hrun, fun p => ?_⟩
    have hiff := (hsat p).trans (selects_ruleMatches hconv (fun rule => rule.action = 1) σ p).symm
    refine ⟨hiff, fun hnone hp => ?_⟩
    obtain ⟨rule, hrule, -, hhit⟩ := (hiff.mp hp).exists_mem
    exact hnone rule hrule hhit
  · rcases converACLRule_run rule σ with ⟨hconv', -⟩ | ⟨-, e, he⟩
    · exact absurd hconv' hconv
    · exact Or.inr ⟨hrun, rule, hmem, e, he⟩

end

/-- A device of one router with the given ACLs. -/
def aclDevice (table : List (Entry (List Rule))) : Device := ⟨[⟨[], 1, table⟩], true, 0⟩

def denyNetwork : Rule where
  srcIP := 0x0A000000
  dstIP := 0
  srcmask := 0x00FFFFFF
  dstmask := 0xFFFFFFFF
  srclen := 8
  dstlen := 0
  srcPort := (0, 65535)
  dstPort := (0, 65535)
  proto := 0
  action := 0

def permitAll : Rule := { denyNetwork with srcIP := 0, srcmask := 0xFFFFFFFF, srclen := 0, action := 1 }

theorem denyNetwork_converts : denyNetwork.Converts :=
  ⟨Or.inl (by decide), Or.inl (by decide), by decide, by decide⟩

theorem permitAll_converts : permitAll.Converts :=
  ⟨Or.inl (by decide), Or.inl (by decide), by decide, by decide⟩

/-- One network denied, and then everything permitted. -/
theorem computeACLBDD_firstMatch_network :
    ∃ h s', computeACLBDD (aclDevice [⟨10, [denyNetwork, permitAll]⟩]) 0
        (Session.init Collector.eager).store = .ok (h, s') ∧ ∀ p : Packet,
      (Satisfies s' h p ↔ ∃ rule, FirstHit (ruleMatches (Session.init Collector.eager))
        [denyNetwork, permitAll] p rule ∧ rule.action = 1) := by
  rcases computeACLBDD_firstMatch (aclDevice [⟨10, [denyNetwork, permitAll]⟩]) 0 rfl
    (Session.init Collector.eager) with ⟨h, s', hrun, hsat⟩ | ⟨-, rule, hmem, e, he⟩
  · exact ⟨h, s', hrun, fun p => (hsat p).1⟩
  · have hconv : rule.Converts := by
      simp only [allRules, List.flatMap_cons, List.flatMap_nil, List.append_nil, List.mem_cons,
        List.not_mem_nil, or_false] at hmem
      rcases hmem with rfl | rfl
      · exact denyNetwork_converts
      · exact permitAll_converts
    obtain ⟨h, s', hok⟩ := (converts_iff rule (Session.init Collector.eager)).mp hconv
    cases he.symm.trans hok

/-! ### The order of the ACLs -/

/-- Two tables have predicates, and the same. -/
def SamePredicate (σ : Session) (d : Device) (tableID : Nat) (d' : Device) (tableID' : Nat) : Prop :=
  ∃ h s h' s', computeACLBDD d tableID σ.store = .ok (h, s) ∧
    computeACLBDD d' tableID' σ.store = .ok (h', s') ∧
    ∀ p : Packet, Satisfies s h p ↔ Satisfies s' h' p

section

variable {d d' : Device} {tableID tableID' : Nat} {r r' : Router}

theorem converts_perm (hp : r.aclTable.Perm r'.aclTable)
    (hconv : ∀ rule ∈ allRules r.aclTable, rule.Converts) :
    ∀ rule ∈ allRules r'.aclTable, rule.Converts := fun rule hr =>
  hconv rule ((hp.flatMap_right _).mem_iff.mpr hr)

theorem computeACLBDD_ok (hr : d.routers[tableID]? = some r)
    (hconv : ∀ rule ∈ allRules r.aclTable, rule.Converts) (σ : Session) :
    ∃ h s', computeACLBDD d tableID σ.store = .ok (h, s') ∧ ∀ p : Packet, Satisfies s' h p ↔
      Selects (ruleMatches σ) (fun rule => rule.action = 1) (allRules r.aclTable) p := by
  rcases computeACLBDD_run hr σ with ⟨-, h, s', hrun, hsat⟩ | ⟨⟨rule, hmem, hnot⟩, -⟩
  · exact ⟨h, s', hrun, fun p => (hsat p).trans (selects_ruleMatches hconv _ σ p).symm⟩
  · exact absurd (hconv rule hmem) hnot

theorem samePredicate_iff (hr : d.routers[tableID]? = some r)
    (hr' : d'.routers[tableID']? = some r') (hp : r.aclTable.Perm r'.aclTable)
    (hconv : ∀ rule ∈ allRules r.aclTable, rule.Converts) (σ : Session) :
    SamePredicate σ d tableID d' tableID' ↔ ∀ p,
      (Selects (ruleMatches σ) (fun rule => rule.action = 1) (allRules r'.aclTable) p ↔
        Selects (ruleMatches σ) (fun rule => rule.action = 1) (allRules r.aclTable) p) := by
  obtain ⟨h, s, hrun, hsat⟩ := computeACLBDD_ok hr hconv σ
  obtain ⟨h', s', hrun', hsat'⟩ := computeACLBDD_ok hr' (converts_perm hp hconv) σ
  unfold SamePredicate
  rw [hrun, hrun']
  constructor
  · intro hsame p
    obtain ⟨_, _, _, _, heq, heq', hall⟩ := hsame
    cases heq
    cases heq'
    rw [← hsat, ← hsat', hall]
  · intro hall
    refine ⟨h, s, h', s', rfl, rfl, fun p => ?_⟩
    rw [hsat, hsat', hall]

end

/-- **The order of the ACLs**, for a table whose rules `converACLRule` converts: all orders give one
predicate exactly when no packet is permitted by the first match of one ACL and denied by the first
match of another. -/
theorem computeACLBDD_perm_iff (d : Device) (tableID : Nat) {r : Router}
    (hr : d.routers[tableID]? = some r) (σ : Session)
    (hconv : ∀ rule ∈ allRules r.aclTable, ∃ h s', converACLRule rule σ.store = .ok (h, s')) :
    (∀ (d' : Device) (tableID' : Nat) (r' : Router), d'.routers[tableID']? = some r' →
      r.aclTable.Perm r'.aclTable → SamePredicate σ d tableID d' tableID') ↔
    ∀ p : Packet, ¬ ∃ acl ∈ r.aclTable, ∃ acl' ∈ r.aclTable,
      (∃ rule, FirstHit (ruleMatches σ) acl.list p rule ∧ rule.action = 1) ∧
      ∃ rule, FirstHit (ruleMatches σ) acl'.list p rule ∧ ¬ rule.action = 1 := by
  have hconv' : ∀ rule ∈ allRules r.aclTable, rule.Converts :=
    fun rule hrule => (converts_iff rule σ).mpr (hconv rule hrule)
  refine Iff.trans ?_ (selects_perm_iff (ruleMatches σ) (fun rule => rule.action = 1)
    (fun acl : Entry (List Rule) => acl.list) r.aclTable)
  constructor
  · intro hall table' hp
    have hr' : (aclDevice table').routers[0]? = some ⟨[], 1, table'⟩ := rfl
    exact (samePredicate_iff hr hr' hp hconv' σ).mp (hall (aclDevice table') 0 _ hr' hp)
  · intro hall d' tableID' r' hr' hp
    exact (samePredicate_iff hr hr' hp hconv' σ).mpr (hall r'.aclTable hp)

theorem ruleMatches_of_matches {acl : Rule} (hwf : acl.WellFormed) (hdst : acl.dstPort = (0, 65535))
    (hsrc : acl.srcPort ≠ (0, 65534)) (hconv : acl.Converts) (σ : Session) {p : Packet}
    (hp : acl.Matches p) : ruleMatches σ acl p :=
  (ruleMatches_iff σ acl p).mpr ⟨hconv, (hit_iff_matches hwf hdst hsrc p).mpr hp⟩

/-- The network next to the denied one. -/
def permitNetwork : Rule := { denyNetwork with srcIP := 0x0B000000, action := 1 }

/-- A deny rule does not matter to an ACL that permits another network. -/
theorem computeACLBDD_perm_networks :
    SamePredicate (Session.init Collector.eager)
      (aclDevice [⟨10, [permitNetwork]⟩, ⟨20, [denyNetwork, permitNetwork]⟩]) 0
      (aclDevice [⟨20, [denyNetwork, permitNetwork]⟩, ⟨10, [permitNetwork]⟩]) 0 := by
  have hrules : ∀ rule ∈ allRules [Entry.mk 10 [permitNetwork], ⟨20, [denyNetwork, permitNetwork]⟩],
      rule = permitNetwork ∨ rule = denyNetwork := by decide
  have hpermit : permitNetwork.Converts := ⟨Or.inl (by decide), Or.inl (by decide), by decide, by decide⟩
  refine (computeACLBDD_perm_iff
    (aclDevice [⟨10, [permitNetwork]⟩, ⟨20, [denyNetwork, permitNetwork]⟩]) 0 rfl
    (Session.init Collector.eager) ?_).mpr ?_ _ 0 _ rfl (List.Perm.swap _ _ _)
  · intro rule hrule
    rcases hrules rule hrule with rfl | rfl
    · exact (converts_iff permitNetwork _).mp hpermit
    · exact (converts_iff denyNetwork _).mp denyNetwork_converts
  · rintro p ⟨acl, hacl, acl', hacl', ⟨rule, hfirst, haction⟩, rule', hfirst', haction'⟩
    have hsrc : ∀ {acl rule}, acl ∈ [Entry.mk 10 [permitNetwork], ⟨20, [denyNetwork, permitNetwork]⟩] →
        FirstHit (ruleMatches (Session.init Collector.eager)) acl.list p rule →
        (rule = permitNetwork ∨ rule = denyNetwork) ∧
          TopBits 0 32 rule.srcIP (rule.srclen.setWidth 8).toNat p.assignment := by
      intro acl rule hacl hfirst
      exact ⟨hrules rule (List.mem_flatMap.mpr ⟨acl, hacl, hfirst.mem⟩),
        ((ruleMatches_iff _ rule p).mp hfirst.hits).2.srcIP⟩
    obtain ⟨hrule, hbits⟩ := hsrc hacl hfirst
    obtain ⟨hrule', hbits'⟩ := hsrc hacl' hfirst'
    rcases hrule with rfl | rfl
    · rcases hrule' with rfl | rfl
      · exact haction' rfl
      · -- the networks differ in their eighth bit
        have h := (hbits 24 (by decide) (by decide)).symm.trans (hbits' 24 (by decide) (by decide))
        exact absurd h (by decide)
    · exact absurd haction (by decide)

/-- A deny rule in one ACL blocks what another permits, if it is listed first. -/
theorem computeACLBDD_order_matters :
    List.Perm [Entry.mk 140 [denyNetwork], ⟨199, [permitAll]⟩]
      [⟨199, [permitAll]⟩, ⟨140, [denyNetwork]⟩] ∧
    ¬ SamePredicate (Session.init Collector.eager)
      (aclDevice [⟨140, [denyNetwork]⟩, ⟨199, [permitAll]⟩]) 0
      (aclDevice [⟨199, [permitAll]⟩, ⟨140, [denyNetwork]⟩]) 0 := by
  refine ⟨List.Perm.swap _ _ _, fun hsame => ?_⟩
  have hconv : ∀ rule ∈ allRules [Entry.mk 140 [denyNetwork], ⟨199, [permitAll]⟩],
      rule.Converts := by
    simp only [allRules, List.flatMap_cons, List.flatMap_nil, List.append_nil, List.cons_append,
      List.nil_append, List.forall_mem_cons, List.not_mem_nil, false_implies, implies_true, and_true]
    exact ⟨denyNetwork_converts, permitAll_converts⟩
  rw [samePredicate_iff rfl rfl (List.Perm.swap _ _ _) hconv] at hsame
  have hwf : denyNetwork.WellFormed := by constructor <;> decide
  have hdeny : ruleMatches (Session.init Collector.eager) denyNetwork denyNetwork.sample :=
    ruleMatches_of_matches hwf rfl (by decide) denyNetwork_converts _ (matches_sample hwf)
  have hpermit : ruleMatches (Session.init Collector.eager) permitAll denyNetwork.sample := by
    apply ruleMatches_of_matches (by constructor <;> decide) rfl (by decide) permitAll_converts _
    refine ⟨Or.inl rfl, by decide, by decide, fun i h hi => ?_, fun i h hi => ?_⟩
    · exact absurd hi (not_lt.mpr h)
    · exact absurd hi (not_lt.mpr h)
  obtain ⟨rule, hfirst, haction⟩ := (hsame denyNetwork.sample).mp
    ⟨permitAll, FirstHit.cons_iff.mpr (Or.inl ⟨hpermit, rfl⟩), rfl⟩
  rcases FirstHit.cons_iff.mp hfirst with ⟨-, rfl⟩ | ⟨hno, -⟩
  · exact absurd haction (by decide)
  · exact hno hdeny

end AtomicPredicate
