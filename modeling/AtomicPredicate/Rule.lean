import AtomicPredicate.Range

/-!
# The predicate of a rule

`converACLRule` from `bddwrapper.c`, in three parts: the predicate of a port range, the five field
predicates, and the loop that conjoins them. The entries of `field_bdd` are held as roots from the
moment they are assigned, and never released.

`Rule.hit` says which assignments the code accepts, for any rule it does not fail on
(`Rule.Converts`). For rules with 8-bit protocols, prefix lengths within the field and ordered 16-bit
ports this is the match set of the rule exactly when the destination ports are unconstrained and the
source ports are not `0..65534` (`converACLRule_exact_iff`): a range of destination ports is encoded
over the variables of the destination address, and `0..65534` needs one prefix more than `range` has
slots.
-/

namespace AtomicPredicate

open Lib

/-! ### The code -/

/-- One port field: unconstrained if the range is that of all ports. -/
def encodePorts (encode : BitVec 32 → BitVec 8 → BddM Handle) (port : BitVec 32 × BitVec 32) :
    BddM Handle :=
  if port.2 - port.1 = 65535 then pure bddtrue
  else
    match drpcLoop port.2 (BitVec.ofNat 32 portBits) rangeSlots port.1 [] with
    | .ok r => encodeRange encode r
    | .error e => throw (.client e)

def encodeProto (proto : BitVec 32) : BddM Handle :=
  if proto ≠ 0 then encodeProtocolPrefix proto else pure bddtrue

/-- `field_bdd`: protocol, source port, destination port, source address, destination address. -/
def fieldBdds (acl : Rule) : BddM (List Handle) := do
  let f0 ← encodeProto acl.proto
  let f1 ← holding [f0] (encodePorts encodeSrcPortPrefix acl.srcPort)
  let f2 ← holding [f0, f1] (encodePorts encodeDstPortPrefix acl.dstPort)
  let f3 ← holding [f0, f1, f2] (encodeSrcIPPrefix acl.srcIP (acl.srclen.setWidth 8))
  let f4 ← holding [f0, f1, f2, f3] (encodeDstIPPrefix acl.dstIP (acl.dstlen.setWidth 8))
  return [f0, f1, f2, f3, f4]

/-- The rounds `1, 2, ..` of the loop over `field_bdd`, with `fieldBdd` the array and `fields` what
is left of it. -/
def conjoin (fieldBdd : List Handle) : Handle → List Handle → BddM Handle
  | res, [] => pure res
  | res, f :: fields =>
    if f = bddtrue then conjoin fieldBdd res fields
    else if f = bddfalse then do
      holding fieldBdd (bddDelref res)
      return bddfalse
    else do
      let tmpnode2 ← holding fieldBdd (bddApply res f .and >>= bddAddref)
      holding fieldBdd (bddDelref res)
      conjoin fieldBdd tmpnode2 fields

def converACLRule (acl : Rule) : BddM Handle := do
  let fieldBdd ← fieldBdds acl
  match fieldBdd with
  | [] => throw (.client .index)
  | f :: fields => do
    let res ← holding fieldBdd (bddAddref f)
    conjoin fieldBdd res fields

/-! ### What the code accepts -/

/-- The port field at variable `off` is in the range, as the code encodes it. -/
def PortHit (off : Nat) (port : BitVec 32 × BitVec 32) (env : Nat → Bool) : Prop :=
  port.2 - port.1 = 65535 ∨
    ∃ r, drpcLoop port.2 (BitVec.ofNat 32 portBits) rangeSlots port.1 [] = .ok r ∧
      ∃ p ∈ rangePrefixes r, TopBits off 16 p.1 p.2.toNat env

/-- The range fits the buffer, and no prefix is longer than the field. -/
def PortConverts (port : BitVec 32 × BitVec 32) : Prop :=
  port.2 - port.1 = 65535 ∨
    ∃ r, drpcLoop port.2 (BitVec.ofNat 32 portBits) rangeSlots port.1 [] = .ok r ∧
      ∀ p ∈ rangePrefixes r, p.2.toNat ≤ 16

/-- The loop over the range writes past the buffer. -/
def PortOverruns (port : BitVec 32 × BitVec 32) : Prop :=
  port.2 - port.1 ≠ 65535 ∧
    drpcLoop port.2 (BitVec.ofNat 32 portBits) rangeSlots port.1 [] = .error .index

theorem PortConverts.not_overruns {port : BitVec 32 × BitVec 32} (h : PortConverts port) :
    ¬ PortOverruns port := by
  rintro ⟨hany, hover⟩
  obtain ⟨r, hr, -⟩ := h.resolve_left hany
  cases hover.symm.trans hr

namespace Rule

/-- The rule over assignments. The destination ports constrain the variables from `32` on. -/
structure hit (acl : Rule) (env : Nat → Bool) : Prop where
  proto : acl.proto = 0 ∨ TopBits 96 8 acl.proto 8 env
  srcPort : PortHit 64 acl.srcPort env
  dstPort : PortHit 32 acl.dstPort env
  srcIP : TopBits 0 32 acl.srcIP (acl.srclen.setWidth 8).toNat env
  dstIP : TopBits 32 32 acl.dstIP (acl.dstlen.setWidth 8).toNat env

/-- What each entry of `field_bdd` says. -/
def fieldHits (acl : Rule) : List ((Nat → Bool) → Prop) :=
  [fun env => acl.proto = 0 ∨ TopBits 96 8 acl.proto 8 env, PortHit 64 acl.srcPort,
    PortHit 32 acl.dstPort, TopBits 0 32 acl.srcIP (acl.srclen.setWidth 8).toNat,
    TopBits 32 32 acl.dstIP (acl.dstlen.setWidth 8).toNat]

theorem fieldHits_iff {acl : Rule} {env : Nat → Bool} :
    (∀ P ∈ acl.fieldHits, P env) ↔ acl.hit env := by
  simp only [fieldHits, List.forall_mem_cons, List.not_mem_nil, false_implies, implies_true,
    and_true]
  constructor
  · intro h
    obtain ⟨hp, hsp, hdp, hs, hd⟩ := h
    exact ⟨hp, hsp, hdp, hs, hd⟩
  · exact fun h => ⟨h.proto, h.srcPort, h.dstPort, h.srcIP, h.dstIP⟩

structure Converts (acl : Rule) : Prop where
  srcPort : PortConverts acl.srcPort
  dstPort : PortConverts acl.dstPort
  srclen : (acl.srclen.setWidth 8).toNat ≤ 32
  dstlen : (acl.dstlen.setWidth 8).toNat ≤ 32

end Rule

/-! ### The fields -/

section

variable {E : CFault → Prop}

/-- The predicate `P` of a field, which converts under `G`. -/
def FieldPost (G : Prop) (P : (Nat → Bool) → Prop) (h : Handle) (B : Multiset (Handle × Bdd)) :
    Prop :=
  G ∧ ∃ v : Bdd, B = {(h, v)} ∧ ∀ env, v.eval env = true ↔ P env

theorem encodePorts_triple {var : List Handle} {off : Nat} (hvar : VarsAt var off 16)
    (port : BitVec 32 × BitVec 32) :
    Triple discipline 0 (encodePorts (encodeField var 16) port)
      (FieldPost (PortConverts port) (PortHit off port))
      (fun e => ¬ PortConverts port ∧ (e = .index ↔ PortOverruns port)) := by
  unfold encodePorts FieldPost PortConverts PortHit
  by_cases hany : port.2 - port.1 = 65535
  · rw [if_pos hany]
    refine Triple.permanent mem_permanent_true (Triple.pure ⟨Or.inl hany, _, by rw [add_zero], ?_⟩)
    exact fun env => ⟨fun _ => Or.inl hany, fun _ => Robdd.eval_const true env⟩
  · rw [if_neg hany]
    cases hrun : drpcLoop port.2 (BitVec.ofNat 32 portBits) rangeSlots port.1 [] with
    | error e =>
      refine Triple.throw ⟨fun hconv => ?_, fun he => ⟨hany, by rw [hrun, he]⟩, fun hover => ?_⟩
      · obtain ⟨r, hr, -⟩ := hconv.resolve_left hany
        cases hr
      · exact Except.error.inj (hrun.symm.trans hover.2)
    | ok r =>
      refine Triple.conseq rfl (encodeRange_triple hvar (by norm_num) r) ?_ ?_
      · intro h B hB
        obtain ⟨hlen, v, hB, hv⟩ := hB
        refine ⟨Or.inr ⟨r, rfl, hlen⟩, v, hB, fun env => (hv env).trans ?_⟩
        rw [or_iff_right hany]
        constructor
        · exact fun hp => ⟨r, rfl, hp⟩
        · intro hp
          obtain ⟨r', hr', hp⟩ := hp
          exact Except.ok.inj hr' ▸ hp
      · intro e he
        obtain ⟨rfl, p, hp, hlen⟩ := he
        refine ⟨fun hconv => ?_, iff_of_false (by simp) fun hover => ?_⟩
        · obtain ⟨r', hr', hall⟩ := hconv.resolve_left hany
          obtain rfl : r = r' := Except.ok.inj hr'
          exact absurd (hall p hp) (not_le.mpr hlen)
        · cases hrun.symm.trans hover.2

theorem encodeProto_triple (proto : BitVec 32) :
    Triple discipline 0 (encodeProto proto)
      (FieldPost True fun env => proto = 0 ∨ TopBits 96 8 proto 8 env) E := by
  unfold encodeProto FieldPost
  by_cases h0 : proto = 0
  · rw [if_neg (not_not.mpr h0)]
    refine Triple.permanent mem_permanent_true (Triple.pure ⟨trivial, _, by rw [add_zero], ?_⟩)
    exact fun env => ⟨fun _ => Or.inl h0, fun _ => Robdd.eval_const true env⟩
  · rw [if_pos h0]
    apply Triple.post (encodePrefix_triple varsAt_protocol (by norm_num) (by decide) (by decide))
    intro h B hB
    obtain ⟨v, hB, hv⟩ := hB
    exact ⟨trivial, v, hB, fun env => (hv env).trans (or_iff_right h0).symm⟩

theorem Triple.seqField (fields : List (Handle × Bdd)) {m : BddM Handle} {β : Type}
    {k : Handle → BddM β} {R : β → Multiset (Handle × Bdd) → Prop} {G : Prop}
    {P : (Nat → Bool) → Prop} (hm : Triple discipline 0 m (FieldPost G P) E)
    (hk : ∀ h v, G → (∀ env, v.eval env = true ↔ P env) →
      Triple discipline ((fields ++ [(h, v)] : List (Handle × Bdd)) : Multiset _) (k h) R E) :
    Triple discipline (fields : Multiset (Handle × Bdd))
      (holding (fields.map Prod.fst) m >>= k) R E := by
  apply Triple.seqHolding _ fields (mem_handles fields 0 (add_zero _).symm) (zero_add _).symm hm
  intro h B hB
  obtain ⟨hG, v, rfl, hv⟩ := hB
  rw [add_comm, ← Multiset.coe_singleton, Multiset.coe_add]
  exact hk h v hG hv

/-- The values of the owned handles are the predicates. -/
def Denote (fields : List (Handle × Bdd)) (Ps : List ((Nat → Bool) → Prop)) : Prop :=
  List.Forall₂ (fun p P => ∀ env, p.2.eval env = true ↔ P env) fields Ps

theorem Denote.forall_iff {fields : List (Handle × Bdd)} {Ps : List ((Nat → Bool) → Prop)}
    (h : Denote fields Ps) (env : Nat → Bool) :
    (∀ p ∈ fields, p.2.eval env = true) ↔ ∀ P ∈ Ps, P env := by
  induction h with
  | nil => simp
  | cons hp _ ih => rw [List.forall_mem_cons, List.forall_mem_cons, hp, ih]

theorem Denote.append {fields fields' : List (Handle × Bdd)} {Ps Ps' : List ((Nat → Bool) → Prop)}
    (h : Denote fields Ps) (h' : Denote fields' Ps') : Denote (fields ++ fields') (Ps ++ Ps') :=
  List.rel_append h h'

/-- How the conversion of a rule fails: at a range that overruns, or at a prefix that is too long. -/
def Rule.Fails (acl : Rule) (e : CFault) : Prop :=
  ¬ acl.Converts ∧ (e = .index ↔
    PortOverruns acl.srcPort ∨ (PortConverts acl.srcPort ∧ PortOverruns acl.dstPort))

/-- **The five fields**, all owned by `field_bdd`. -/
theorem fieldBdds_triple (acl : Rule) :
    Triple discipline 0 (fieldBdds acl)
      (fun hs B => acl.Converts ∧ ∃ (f : Handle × Bdd) (fields : List (Handle × Bdd)),
        hs = f.1 :: fields.map Prod.fst ∧ B = (f :: fields : List (Handle × Bdd)) ∧
        Denote (f :: fields) acl.fieldHits)
      acl.Fails := by
  unfold fieldBdds
  apply Triple.bind (encodeProto_triple acl.proto)
  intro f0 B hB
  obtain ⟨-, v0, rfl, h0⟩ := hB
  refine Triple.seqField [(f0, v0)] (Triple.conseq rfl (encodePorts_triple varsAt_srcPort acl.srcPort)
    (fun _ _ h => h) fun _ hc => ⟨fun hconv => hc.1 hconv.srcPort,
      hc.2.trans (or_iff_left fun h => hc.1 h.1).symm⟩) fun f1 v1 hc1 h1 => ?_
  refine Triple.seqField [(f0, v0), (f1, v1)] (Triple.conseq rfl
    (encodePorts_triple (varsAt_dstIP.mono (by norm_num)) acl.dstPort)
    (fun _ _ h => h) fun _ hc => ⟨fun hconv => hc.1 hconv.dstPort,
      hc.2.trans ((or_iff_right hc1.not_overruns).trans (and_iff_right hc1)).symm⟩)
    fun f2 v2 hc2 h2 => ?_
  -- past the ports only the lengths fail, and not with an index
  have hports : ∀ {e : CFault}, e = .shift → (e = .index ↔
      PortOverruns acl.srcPort ∨ (PortConverts acl.srcPort ∧ PortOverruns acl.dstPort)) := by
    rintro e rfl
    simp [hc1.not_overruns, hc2.not_overruns]
  refine Triple.seqField [(f0, v0), (f1, v1), (f2, v2)] (Triple.conseq rfl
    (encodeField_triple varsAt_srcIP (by norm_num) acl.srcIP (acl.srclen.setWidth 8))
    (fun _ _ h => h) fun _ hc => ⟨fun hconv => absurd hconv.srclen (not_le.mpr hc.2), hports hc.1⟩)
    fun f3 v3 hc3 h3 => ?_
  refine Triple.seqField [(f0, v0), (f1, v1), (f2, v2), (f3, v3)] (Triple.conseq rfl
    (encodeField_triple varsAt_dstIP (by norm_num) acl.dstIP (acl.dstlen.setWidth 8))
    (fun _ _ h => h) fun _ hc => ⟨fun hconv => absurd hconv.dstlen (not_le.mpr hc.2), hports hc.1⟩)
    fun f4 v4 hc4 h4 => ?_
  exact Triple.pure ⟨⟨hc1, hc2, hc3, hc4⟩, (f0, v0), [(f1, v1), (f2, v2), (f3, v3), (f4, v4)],
    rfl, rfl, .cons h0 (.cons h1 (.cons h2 (.cons h3 (.cons h4 .nil))))⟩

/-! ### The conjunction -/

/-- **The loop over `field_bdd`** conjoins what is left of it to `res`. The constants are skipped, or
end the loop; the fields stay owned. -/
theorem conjoin_triple (all : List (Handle × Bdd)) :
    ∀ (fields : List (Handle × Bdd)) (res : Handle) (v : Bdd), (∀ p ∈ fields, p ∈ all) →
      Triple discipline ({(res, v)} + all) (conjoin (all.map Prod.fst) res (fields.map Prod.fst))
        (fun h B => ∃ w, B = {(h, w)} + (all : Multiset (Handle × Bdd)) ∧
          ∀ env, w.eval env = true ↔ v.eval env = true ∧ ∀ p ∈ fields, p.2.eval env = true) E := by
  intro fields
  induction fields with
  | nil => exact fun res v _ => Triple.pure ⟨v, rfl, by simp⟩
  | cons f fields ih =>
    intro res v hall
    obtain ⟨f, vf⟩ := f
    have hmem : (f, vf) ∈ {(res, v)} + (all : Multiset (Handle × Bdd)) := by
      simp [hall _ (List.mem_cons_self ..)]
    have hrest : ∀ p ∈ fields, p ∈ all := fun p hp => hall p (List.mem_cons_of_mem _ hp)
    rw [List.map_cons, conjoin]
    by_cases htrue : f = bddtrue
    · subst htrue
      rw [if_pos rfl]
      refine Triple.permanent_value mem_permanent_true hmem fun hv => ?_
      subst hv
      apply Triple.post (ih res v hrest)
      intro h B hB
      obtain ⟨w, hB, hw⟩ := hB
      refine ⟨w, hB, fun env => (hw env).trans ?_⟩
      simp
    · rw [if_neg htrue]
      by_cases hfalse : f = bddfalse
      · subst hfalse
        rw [if_pos rfl]
        refine Triple.permanent_value mem_permanent_false hmem fun hv => ?_
        subst hv
        refine Triple.seqDelref v all rfl (mem_handles all {(res, v)} (add_comm _ _)) ?_
        refine Triple.permanent mem_permanent_false (Triple.pure ⟨_, rfl, fun env => ?_⟩)
        simp
      · rw [if_neg hfalse]
        obtain ⟨rest, hrest'⟩ := Multiset.exists_cons_of_mem
          (show (f, vf) ∈ (all : Multiset (Handle × Bdd)) from hall _ (List.mem_cons_self ..))
        rw [← Multiset.singleton_add] at hrest'
        refine Triple.seqOperate₂ (a := v) (b := vf) rest (by rw [hrest']; abel)
          (mem_handles all {(res, v)} (add_comm _ _)) ?_
        rintro tmpnode2 _ rfl
        refine Triple.seqDelref v ({(tmpnode2, BddOp.and.apply v vf)} + all) (by abel)
          (mem_handles all ({(res, v)} + {(tmpnode2, BddOp.and.apply v vf)}) (by abel)) ?_
        apply Triple.post (ih tmpnode2 _ hrest)
        intro h B hB
        obtain ⟨w, hB, hw⟩ := hB
        refine ⟨w, hB, fun env => (hw env).trans ?_⟩
        simp [and_assoc]

/-- **`converACLRule`**, for any rule it does not fail on. The five fields are never released. -/
theorem converACLRule_triple (acl : Rule) :
    Triple discipline 0 (converACLRule acl)
      (fun h B => acl.Converts ∧ ∃ (v : Bdd) (fields : List (Handle × Bdd)), B = {(h, v)} + fields ∧
        (∀ env, v.eval env = true ↔ acl.hit env) ∧ Denote fields acl.fieldHits)
      acl.Fails := by
  unfold converACLRule
  apply Triple.bind (fieldBdds_triple acl)
  intro fieldBdd B hB
  obtain ⟨hconv, ⟨f, vf⟩, fields, rfl, rfl, hfields⟩ := hB
  refine Triple.seqAtomic fields (by rw [← Multiset.cons_coe, ← Multiset.singleton_add])
    (mem_handles ((f, vf) :: fields) 0 (add_zero _).symm) (Atomic.addref (v := vf)) ?_
  intro res B hB
  obtain ⟨rfl, rfl⟩ := hB
  have hsplit : {(res, vf)} + {(res, vf)} + (fields : Multiset (Handle × Bdd)) =
      {(res, vf)} + ((res, vf) :: fields : List (Handle × Bdd)) := by
    rw [← Multiset.cons_coe, ← Multiset.singleton_add, add_assoc]
  rw [hsplit]
  refine Triple.post (conjoin_triple ((res, vf) :: fields) fields res vf
    fun p hp => List.mem_cons_of_mem _ hp) ?_
  intro h B hB
  obtain ⟨w, hB, hw⟩ := hB
  refine ⟨hconv, w, _, hB, fun env => (hw env).trans ?_, hfields⟩
  rw [← Rule.fieldHits_iff, ← hfields.forall_iff, List.forall_mem_cons]

end

/-- The rule's predicate in a session: the packet satisfies what `converACLRule` returns. -/
def ruleMatches (σ : Session) (acl : Rule) (p : Packet) : Prop :=
  ∃ h s', converACLRule acl σ.store = .ok (h, s') ∧ Satisfies s' h p

theorem converACLRule_run (acl : Rule) (σ : Session) :
    (acl.Converts ∧ ∃ h s', converACLRule acl σ.store = .ok (h, s') ∧
      ∀ p : Packet, Satisfies s' h p ↔ acl.hit p.assignment) ∨
    (¬ acl.Converts ∧ ∃ e, converACLRule acl σ.store = .error e) := by
  rcases run_session (converACLRule_triple acl) σ with
    ⟨h, s', B, hrun, ⟨hconv, v, fields, rfl, hv, -⟩, hval, -⟩ | ⟨e, hrun, hfail⟩
  · refine Or.inl ⟨hconv, h, s', hrun, fun p => ?_⟩
    rw [Satisfies, evalHandle_eq (hval (h, v) (by simp)), hv]
  · exact Or.inr ⟨hfail.1, _, hrun⟩

theorem converts_iff (acl : Rule) (σ : Session) :
    acl.Converts ↔ ∃ h s', converACLRule acl σ.store = .ok (h, s') := by
  rcases converACLRule_run acl σ with ⟨hconv, h, s', hrun, -⟩ | ⟨hconv, e, hrun⟩
  · exact ⟨fun _ => ⟨h, s', hrun⟩, fun _ => hconv⟩
  · refine ⟨fun h => absurd h hconv, fun h => ?_⟩
    obtain ⟨h, s', hrun'⟩ := h
    rw [hrun] at hrun'
    cases hrun'

theorem ruleMatches_iff (σ : Session) (acl : Rule) (p : Packet) :
    ruleMatches σ acl p ↔ acl.Converts ∧ acl.hit p.assignment := by
  unfold ruleMatches
  rcases converACLRule_run acl σ with ⟨hconv, h, s', hrun, hsat⟩ | ⟨hconv, e, hrun⟩
  · rw [hrun]
    constructor
    · intro hex
      obtain ⟨h', s'', heq, hp⟩ := hex
      cases heq
      exact ⟨hconv, (hsat p).mp hp⟩
    · exact fun hp => ⟨h, s', rfl, (hsat p).mpr hp.2⟩
  · rw [hrun]
    constructor
    · intro hex
      obtain ⟨h, s', heq, -⟩ := hex
      cases heq
    · exact fun hp => absurd hp.1 hconv

/-! ### Port ranges -/

/-- A range of 16-bit ports. -/
def PortRange (port : BitVec 32 × BitVec 32) : Prop :=
  port.1 ≤ port.2 ∧ port.2.toNat < 65536

instance (port : BitVec 32 × BitVec 32) : Decidable (PortRange port) :=
  inferInstanceAs (Decidable (_ ∧ _))

theorem port_any_iff {port : BitVec 32 × BitVec 32} (hport : PortRange port) :
    port.2 - port.1 = 65535 ↔ port = (0, 65535) := by
  obtain ⟨l, u⟩ := port
  obtain ⟨hle, hu⟩ := hport
  change l.toNat ≤ u.toNat at hle
  change u.toNat < 65536 at hu
  rw [Prod.mk.injEq, ← BitVec.toNat_inj, ← BitVec.toNat_inj, ← BitVec.toNat_inj, BitVec.toNat_sub,
    show (65535 : BitVec 32).toNat = 65535 from rfl, show (0 : BitVec 32).toNat = 0 from rfl]
  dsimp only
  omega

theorem portHit_iff {port : BitVec 32 × BitVec 32} (hport : PortRange port)
    (hover : port ≠ (0, 65534)) :
    PortConverts port ∧ ∀ {off : Nat} {v : BitVec 16} {env : Nat → Bool}, FieldAt off v env →
      (PortHit off port env ↔ port.1.toNat ≤ v.toNat ∧ v.toNat ≤ port.2.toNat) := by
  by_cases hany : port.2 - port.1 = 65535
  · refine ⟨Or.inl hany, fun {off v env} _ => ⟨fun _ => ?_, fun _ => Or.inl hany⟩⟩
    obtain rfl := (port_any_iff hport).mp hany
    exact ⟨Nat.zero_le _, Nat.le_of_lt_succ v.isLt⟩
  · obtain ⟨l, u⟩ := port
    have hfull := fun h => hany ((port_any_iff hport).mpr h)
    obtain ⟨hle, hu⟩ := hport
    change l ≤ u at hle
    change u.toNat < 65536 at hu
    obtain ⟨bs, hg, hrun⟩ := drpcLoop_eq (u := u) (BitVec.ofNat 32 portBits) (by omega) l
    have hlength : bs.length ≤ rangeSlots := by
      apply hg.length_le (w := 16) (by norm_num) (by omega)
      by_contra hedge
      have hl : l.toNat = 0 := by omega
      have hl' : l = 0 := BitVec.eq_of_toNat_eq (by simpa using hl)
      have hu' : u = 65534 ∨ u = 65535 := by
        rcases (by omega : u.toNat = 65534 ∨ u.toNat = 65535) with h | h
        · exact Or.inl (BitVec.eq_of_toNat_eq (by simpa using h))
        · exact Or.inr (BitVec.eq_of_toNat_eq (by simpa using h))
      rcases hu' with hu' | hu'
      · exact hover (by rw [hl', hu'])
      · exact hfull (by rw [hl', hu'])
    have hcov : Covers 16 l.toNat u.toNat (bs.map (blockPrefix (BitVec.ofNat 32 portBits))) :=
      covers_of_tiles (BitVec.ofNat 32 portBits) (by decide) hu
        (hg.tiles (Nat.le_succ_of_le hle))
    have hok := hrun rangeSlots []
    rw [if_pos hlength, List.nil_append] at hok
    have hprefixes := rangePrefixes_of_ne_nil (hcov.ne_nil hle)
    refine ⟨Or.inr ⟨_, hok, ?_⟩, fun {off v env} hv => ?_⟩
    · rw [hprefixes]
      exact hcov.len_le
    · rw [← hcov.topBits_iff hu hv, PortHit, or_iff_right hany]
      constructor
      · intro hex
        obtain ⟨r, hr, hp⟩ := hex
        obtain rfl := Except.ok.inj (hok.symm.trans hr)
        rwa [hprefixes] at hp
      · exact fun hp => ⟨_, hok, by rwa [hprefixes]⟩

theorem portOverruns_edge : PortOverruns (0, 65534) := ⟨by decide, by decide +kernel⟩

theorem not_portConverts_overrun : ¬ PortConverts (0, 65534) :=
  fun hconv => hconv.not_overruns portOverruns_edge

/-! ### The match set -/

/-- The rule's predicate as the rule reads: each field constrains the packet's own. -/
structure Rule.Matches (acl : Rule) (p : Packet) : Prop where
  proto : acl.proto = 0 ∨ acl.proto.toNat = p.proto.toNat
  srcPort : acl.srcPort.1.toNat ≤ p.sport.toNat ∧ p.sport.toNat ≤ acl.srcPort.2.toNat
  dstPort : acl.dstPort.1.toNat ≤ p.dport.toNat ∧ p.dport.toNat ≤ acl.dstPort.2.toNat
  srcIP : ∀ i, 32 - acl.srclen.toNat ≤ i → i < 32 → p.srcIP.getLsbD i = acl.srcIP.getLsbD i
  dstIP : ∀ i, 32 - acl.dstlen.toNat ≤ i → i < 32 → p.dstIP.getLsbD i = acl.dstIP.getLsbD i

/-- An 8-bit protocol, prefix lengths within the address, and ordered 16-bit ports. -/
structure Rule.WellFormed (acl : Rule) : Prop where
  proto : acl.proto.toNat < 256
  srclen : acl.srclen.toNat ≤ 32
  dstlen : acl.dstlen.toNat ≤ 32
  srcPort : PortRange acl.srcPort
  dstPort : PortRange acl.dstPort

section

variable {acl : Rule}

theorem toNat_len {len : BitVec 32} (hlen : len.toNat ≤ 32) :
    (len.setWidth 8).toNat = len.toNat := by
  rw [BitVec.toNat_setWidth, Nat.mod_eq_of_lt (by omega)]

theorem proto_iff (hproto : acl.proto.toNat < 256) (p : Packet) :
    TopBits 96 8 acl.proto 8 p.assignment ↔ acl.proto.toNat = p.proto.toNat := by
  rw [topBits_iff (fieldAt_proto p), Nat.sub_self, Nat.pow_zero, Nat.div_one, Nat.div_one,
    Nat.mod_eq_of_lt (by omega)]
  exact eq_comm

theorem hit_iff_matches (hwf : acl.WellFormed) (hdst : acl.dstPort = (0, 65535))
    (hsrc : acl.srcPort ≠ (0, 65534)) (p : Packet) : acl.hit p.assignment ↔ acl.Matches p := by
  have hsport := (portHit_iff hwf.srcPort hsrc).2 (fieldAt_sport p)
  have hsrcIP : TopBits 0 32 acl.srcIP acl.srclen.toNat p.assignment ↔ _ :=
    topBits_iff_bits (fieldAt_srcIP p) acl.srcIP
  have hdstIP : TopBits 32 32 acl.dstIP acl.dstlen.toNat p.assignment ↔ _ :=
    topBits_iff_bits (fieldAt_dstIP p) acl.dstIP
  constructor
  · intro h
    refine ⟨h.proto.imp_right (proto_iff hwf.proto p).mp, hsport.mp h.srcPort, ?_, ?_, ?_⟩
    · rw [hdst]
      exact ⟨Nat.zero_le _, Nat.le_of_lt_succ p.dport.isLt⟩
    · exact hsrcIP.mp (toNat_len hwf.srclen ▸ h.srcIP)
    · exact hdstIP.mp (toNat_len hwf.dstlen ▸ h.dstIP)
  · intro h
    refine ⟨h.proto.imp_right (proto_iff hwf.proto p).mpr, hsport.mpr h.srcPort, ?_, ?_, ?_⟩
    · exact Or.inl (by rw [hdst]; decide)
    · rw [toNat_len hwf.srclen]
      exact hsrcIP.mpr h.srcIP
    · rw [toNat_len hwf.dstlen]
      exact hdstIP.mpr h.dstIP

theorem hit_dport (p : Packet) (port : BitVec 16) :
    acl.hit { p with dport := port }.assignment ↔ acl.hit p.assignment := by
  have hsame : ∀ v, v < 80 ∨ 96 ≤ v →
      ({ p with dport := port } : Packet).assignment v = p.assignment v := by
    intro v hv
    simp only [Packet.assignment]
    split_ifs <;> first | rfl | omega
  have htop : ∀ off n ip len, off + n ≤ 80 ∨ 96 ≤ off →
      (TopBits off n ip len ({ p with dport := port } : Packet).assignment ↔
        TopBits off n ip len p.assignment) := by
    intro off n ip len hoff
    refine forall_congr' fun i => imp_congr_right fun _ => forall_congr' fun hi => ?_
    rw [hsame _ (by omega)]
  have hports : ∀ off pt, off + 16 ≤ 80 →
      (PortHit off pt ({ p with dport := port } : Packet).assignment ↔
        PortHit off pt p.assignment) := by
    intro off pt hoff
    refine or_congr_right (exists_congr fun r => and_congr_right fun _ => exists_congr fun q =>
      and_congr_right fun _ => htop _ _ _ _ (Or.inl hoff))
  constructor
  · intro h
    exact ⟨h.proto.imp_right (htop _ _ _ _ (by norm_num)).mp, (hports _ _ (by norm_num)).mp h.srcPort,
      (hports _ _ (by norm_num)).mp h.dstPort, (htop _ _ _ _ (by norm_num)).mp h.srcIP,
      (htop _ _ _ _ (by norm_num)).mp h.dstIP⟩
  · intro h
    exact ⟨h.proto.imp_right (htop _ _ _ _ (by norm_num)).mpr,
      (hports _ _ (by norm_num)).mpr h.srcPort, (hports _ _ (by norm_num)).mpr h.dstPort,
      (htop _ _ _ _ (by norm_num)).mpr h.srcIP, (htop _ _ _ _ (by norm_num)).mpr h.dstIP⟩

/-- A packet of the match set, with its destination port at the upper bound. -/
def Rule.sample (acl : Rule) : Packet where
  srcIP := acl.srcIP
  dstIP := acl.dstIP
  sport := acl.srcPort.2.setWidth 16
  dport := acl.dstPort.2.setWidth 16
  proto := acl.proto.setWidth 8

theorem matches_sample (hwf : acl.WellFormed) : acl.Matches acl.sample := by
  obtain ⟨hle, hu⟩ := hwf.srcPort
  obtain ⟨hle', hu'⟩ := hwf.dstPort
  refine ⟨Or.inr ?_, ?_, ?_, fun i _ _ => rfl, fun i _ _ => rfl⟩
  · show _ = (acl.proto.setWidth 8).toNat
    rw [BitVec.toNat_setWidth, Nat.mod_eq_of_lt (by have := hwf.proto; omega)]
  · show _ ≤ (acl.srcPort.2.setWidth 16).toNat ∧ (acl.srcPort.2.setWidth 16).toNat ≤ _
    rw [BitVec.toNat_setWidth, Nat.mod_eq_of_lt (by omega)]
    exact ⟨hle, le_refl _⟩
  · show _ ≤ (acl.dstPort.2.setWidth 16).toNat ∧ (acl.dstPort.2.setWidth 16).toNat ≤ _
    rw [BitVec.toNat_setWidth, Nat.mod_eq_of_lt (by omega)]
    exact ⟨hle', le_refl _⟩

theorem exists_port_outside {port : BitVec 32 × BitVec 32} (hport : PortRange port)
    (hfull : port ≠ (0, 65535)) :
    ∃ v : BitVec 16, ¬ (port.1.toNat ≤ v.toNat ∧ v.toNat ≤ port.2.toNat) := by
  obtain ⟨l, u⟩ := port
  obtain ⟨-, hu⟩ := hport
  change u.toNat < 65536 at hu
  by_cases hl : l.toNat = 0
  · refine ⟨65535, fun h => hfull ?_⟩
    have hu' : u.toNat = 65535 := by
      have : (65535 : BitVec 16).toNat ≤ u.toNat := h.2
      simp at this
      omega
    rw [Prod.mk.injEq]
    exact ⟨BitVec.eq_of_toNat_eq (by simpa using hl), BitVec.eq_of_toNat_eq (by simpa using hu')⟩
  · refine ⟨0, fun h => hl ?_⟩
    have : l.toNat ≤ (0 : BitVec 16).toNat := h.1
    simpa using this

/-- The property of `converACLRule` at one rule, in one session. -/
def ExactAt (acl : Rule) (σ : Session) : Prop :=
  ∃ h s', converACLRule acl σ.store = .ok (h, s') ∧
    ∀ p : Packet, Satisfies s' h p ↔ acl.Matches p

theorem ExactAt.unconstrained (hwf : acl.WellFormed) {σ : Session} (hexact : ExactAt acl σ) :
    acl.dstPort = (0, 65535) ∧ acl.srcPort ≠ (0, 65534) := by
  obtain ⟨h, s', hrun, hsat⟩ := hexact
  rcases converACLRule_run acl σ with ⟨hconv, h', s'', hrun', hsat'⟩ | ⟨-, e, hrun'⟩
  · rw [hrun] at hrun'
    cases hrun'
    refine ⟨?_, fun hover => not_portConverts_overrun (hover ▸ hconv.srcPort)⟩
    by_contra hfull
    obtain ⟨v, hv⟩ := exists_port_outside hwf.dstPort hfull
    have hhit := (hsat' _).mp ((hsat _).mpr (matches_sample hwf))
    have hmatch := (hsat _).mp ((hsat' _).mpr ((hit_dport acl.sample v).mpr hhit))
    exact hv hmatch.dstPort
  · cases hrun.symm.trans hrun'

theorem exactAt_of_unconstrained (hwf : acl.WellFormed) (hdst : acl.dstPort = (0, 65535))
    (hsrc : acl.srcPort ≠ (0, 65534)) (σ : Session) : ExactAt acl σ := by
  have hconv : acl.Converts := by
    refine ⟨(portHit_iff hwf.srcPort hsrc).1, Or.inl (by rw [hdst]; decide), ?_, ?_⟩
    · rw [toNat_len hwf.srclen]
      exact hwf.srclen
    · rw [toNat_len hwf.dstlen]
      exact hwf.dstlen
  rcases converACLRule_run acl σ with ⟨-, h, s', hrun, hsat⟩ | ⟨hnot, -⟩
  · exact ⟨h, s', hrun, fun p => (hsat p).trans (hit_iff_matches hwf hdst hsrc p)⟩
  · exact absurd hconv hnot

end

/-- **`converACLRule` is exact** on a well-formed rule if and only if the rule leaves the destination
ports unconstrained and its source ports are not `0..65534`. -/
theorem converACLRule_exact_iff (acl : Rule) (hwf : acl.WellFormed) (σ : Session) :
    (∃ h s', converACLRule acl σ.store = .ok (h, s') ∧
      ∀ p : Packet, Satisfies s' h p ↔ acl.Matches p) ↔
    acl.dstPort = (0, 65535) ∧ acl.srcPort ≠ (0, 65534) :=
  ⟨fun hexact => ExactAt.unconstrained hwf hexact,
    fun hcond => exactAt_of_unconstrained hwf hcond.1 hcond.2 σ⟩

/-- TCP from unprivileged source ports to any port of one network. -/
def clientRule : Rule where
  srcIP := 0
  dstIP := 0x0A010000
  srcmask := 0xFFFFFFFF
  dstmask := 0x0000FFFF
  srclen := 0
  dstlen := 16
  srcPort := (1024, 65535)
  dstPort := (0, 65535)
  proto := 6
  action := 1

theorem converACLRule_exact_client :
    ∃ h s', converACLRule clientRule (Session.init Collector.eager).store = .ok (h, s') ∧
      ∀ p : Packet, Satisfies s' h p ↔ clientRule.Matches p :=
  (converACLRule_exact_iff clientRule (by constructor <;> decide) (Session.init Collector.eager)).mpr
    (by decide)

/-- TCP to the web port of one network. -/
def webRule : Rule := { clientRule with srcPort := (0, 65535), dstPort := (80, 80) }

/-- The web port ends up in the top bits of the destination address. -/
theorem converACLRule_not_exact_web : webRule.WellFormed ∧
    ¬ ∃ h s', converACLRule webRule (Session.init Collector.eager).store = .ok (h, s') ∧
      ∀ p : Packet, Satisfies s' h p ↔ webRule.Matches p := by
  have hwf : webRule.WellFormed := by constructor <;> decide
  exact ⟨hwf, fun hexact => absurd (ExactAt.unconstrained hwf hexact).1 (by decide)⟩

end AtomicPredicate
