import AtomicPredicate.Acl
import AtomicPredicate.Forward

/-!
# Reference balance

What a call leaves referenced besides its result. `converACLRule` never releases the entries of
`field_bdd`, `computeACLBDD` its last `denyBuffer` and `denyBuffernot`, and `getfwbdds` its last
`fwded`. BuDDy holds the constants and the literals for good, and they are not counted. So a call is
balanced exactly if all that it leaves are constants and literals (`Pinned`), which is a condition
on the rule or on the table (`balanced_iff`): of a rule, that it has no protocol, addresses of at
most one bit, and ports that are all, or one half of them.

Counts saturate at `MAXREF`, and a saturated count is no longer a number of owners; the calls
compared are those that saturate none.
-/

namespace AtomicPredicate

open Lib

/-- No count is saturated but those of the constants and literals. -/
def Unsaturated (s : Store Bdd) : Prop := ∀ h, initialBdd h = none → s.count h < MAXREF

/-- Every count is unchanged, except for one more for each returned handle; the constants and
literals are held permanently. -/
def Balanced (s s' : Store Bdd) (returned : List Handle) : Prop :=
  ∀ h, s'.count h = s.count h + if initialBdd h = none then returned.count h else 0

/-- `P` is constant, or one variable, or the complement of one. -/
def Pinned (P : (Nat → Bool) → Prop) : Prop :=
  (∀ env, P env) ∨ (∀ env, ¬ P env) ∨ ∃ i < totalBits, ∃ b : Bool, ∀ env, P env ↔ env i = b

/-! ### Pinned predicates -/

theorem Pinned.congr {P Q : (Nat → Bool) → Prop} (h : ∀ env, P env ↔ Q env) :
    Pinned P ↔ Pinned Q := by
  rw [show P = Q from funext fun env => propext (h env)]

theorem Pinned.not {P : (Nat → Bool) → Prop} (h : Pinned P) : Pinned fun env => ¬ P env := by
  rcases h with h | h | ⟨i, hi, b, h⟩
  · exact Or.inr (Or.inl fun env => not_not.mpr (h env))
  · exact Or.inl h
  · refine Or.inr (Or.inr ⟨i, hi, !b, fun env => (not_congr (h env)).trans ?_⟩)
    rw [Bool.eq_not]

theorem pinned_not {P : (Nat → Bool) → Prop} : Pinned (fun env => ¬ P env) ↔ Pinned P :=
  ⟨fun h => (Pinned.congr fun _ => not_not).mp h.not, Pinned.not⟩

theorem pinned_iff {v : Bdd} :
    Pinned (fun env => v.eval env = true) ↔ ∃ q ∈ discipline.permanent, v = q.2 := by
  constructor
  · intro h
    rcases h with h | h | ⟨i, hi, b, h⟩
    · exact ⟨_, mem_permanent_true, Robdd.ext_eval fun env => by simp [h env]⟩
    · exact ⟨_, mem_permanent_false, Robdd.ext_eval fun env => by simpa using h env⟩
    · have hv : v = Robdd.literal i b := Robdd.ext_eval fun env => by
        rw [Robdd.eval_literal, Bool.eq_iff_iff, beq_iff_eq]
        exact h env
      cases b with
      | true => exact ⟨_, mem_permanent_ithvar hi, hv⟩
      | false => exact ⟨_, mem_permanent_nithvar hi, hv⟩
  · intro h
    obtain ⟨⟨root, w⟩, hq, hv⟩ := h
    change initialBdd root = some w at hq
    change v = w at hv
    unfold initialBdd at hq
    rw [hv]
    split_ifs at hq with h0 h1 h2
    · rw [← Option.some.inj hq]
      exact Or.inr (Or.inl fun env => by simp)
    · rw [← Option.some.inj hq]
      exact Or.inl fun env => by simp
    · rw [← Option.some.inj hq]
      exact Or.inr (Or.inr ⟨(root - 2) / 2, by omega, root % 2 == 0, fun env => by simp⟩)

theorem not_pinned {P : (Nat → Bool) → Prop} {env : Nat → Bool} (hP : P env) {i j : Nat}
    (hij : i ≠ j) (hi : ¬ P (Function.update env i (!env i)))
    (hj : ¬ P (Function.update env j (!env j))) : ¬ Pinned P := by
  intro h
  rcases h with h | h | ⟨k, -, b, h⟩
  · exact hi (h _)
  · exact h env hP
  · have hk := (h env).mp hP
    rcases ne_or_eq k i with hki | rfl
    · exact hi ((h _).mpr (by rwa [Function.update_of_ne hki]))
    · exact hj ((h _).mpr (by rwa [Function.update_of_ne hij]))

theorem pinned_topBits {off n len : Nat} (hoff : off + n ≤ totalBits) (hn : n ≤ 32)
    (hlen : len ≤ n) (ip : BitVec 32) : Pinned (TopBits off n ip len) ↔ len ≤ 1 := by
  constructor
  · intro h
    by_contra hlong
    let env : Nat → Bool := fun v => ip.getLsbD (n - 1 - (v - off))
    have henv : TopBits off n ip len env := fun i _ hi => by
      simp only [env]
      congr 1
      omega
    have hflip : ∀ v, v < 2 → ¬ TopBits off n ip len
        (Function.update env (off + v) (!env (off + v))) := by
      intro v hv hall
      have hbit := hall (n - 1 - v) (by omega) (by omega)
      rw [show off + (n - 1 - (n - 1 - v)) = off + v by omega, Function.update_self] at hbit
      have htrue := henv (n - 1 - v) (by omega) (by omega)
      rw [show off + (n - 1 - (n - 1 - v)) = off + v by omega] at htrue
      simp [htrue] at hbit
    exact not_pinned henv (by omega : off + 0 ≠ off + 1) (hflip 0 (by omega)) (hflip 1 (by omega)) h
  · intro h
    rcases (by omega : len = 0 ∨ len = 1) with rfl | rfl
    · exact Or.inl fun env i h1 h2 => by omega
    · refine Or.inr (Or.inr ⟨off, by omega, ip.getLsbD (n - 1), fun env => ⟨fun h => ?_, ?_⟩⟩)
      · have := h (n - 1) (le_refl _) (by omega)
        rwa [Nat.sub_self, Nat.add_zero] at this
      · intro h i h1 h2
        obtain rfl : i = n - 1 := by omega
        rwa [Nat.sub_self, Nat.add_zero]

/-! ### What a run leaves -/

theorem pinned_handle {p : Handle × Bdd}
    (hiff : ∀ q ∈ discipline.permanent, p.1 = q.1 ↔ p.2 = q.2) :
    initialBdd p.1 ≠ none ↔ Pinned fun env => p.2.eval env = true := by
  rw [pinned_iff, Option.ne_none_iff_exists']
  constructor
  · intro h
    obtain ⟨w, hw⟩ := h
    exact ⟨(p.1, w), hw, (hiff (p.1, w) hw).mp rfl⟩
  · intro h
    obtain ⟨q, hq, hv⟩ := h
    rw [(hiff q hq).mpr hv]
    exact ⟨q.2, hq⟩

/-- **A run is balanced** exactly if what it leaves besides its result is pinned. -/
theorem run_balanced {β : Type} {m : BddM β} {Q : β → Multiset (Handle × Bdd) → Prop}
    {E : CFault → Prop} (hm : Triple discipline 0 m Q E) {σ : Session} {b : β} {s' : Store Bdd}
    (hσ : Unsaturated σ.store) (hrun : m σ.store = .ok (b, s')) (hs' : Unsaturated s') :
    ∃ B, Q b B ∧ ∀ (returned : List (Handle × Bdd)) (left : Multiset (Handle × Bdd)),
      B = returned + left → (Balanced σ.store s' (returned.map Prod.fst) ↔
        ∀ p ∈ left, Pinned fun env => p.2.eval env = true) := by
  obtain ⟨base, A, hroots, ho⟩ := σ.ready
  obtain ⟨B, hQ, hiff, hperm, hcount⟩ := hm.counts hroots ho hrun
  refine ⟨B, hQ, fun returned left hB => ?_⟩
  subst hB
  have hpinned : ∀ p ∈ left, initialBdd p.1 ≠ none ↔ Pinned fun env => p.2.eval env = true :=
    fun p hp => pinned_handle (hiff p (Multiset.mem_add.mpr (Or.inr hp)))
  constructor
  · intro hbal p hp
    rw [← hpinned p hp]
    intro hnone
    have h := hbal p.1
    rw [if_pos hnone, hcount p.1 (hσ _ hnone) (hs' _ hnone), owners_add, owners_coe] at h
    have := owners_pos hp
    omega
  · intro hall h
    by_cases hnone : initialBdd h = none
    · have hleft : owners left h = 0 := owners_eq_zero.mpr fun p hp heq =>
        (hpinned p hp).mpr (hall p hp) (heq ▸ hnone)
      rw [if_pos hnone, hcount h (hσ _ hnone) (hs' _ hnone), owners_add, owners_coe, hleft,
        Nat.add_zero]
    · obtain ⟨w, hw⟩ := Option.ne_none_iff_exists'.mp hnone
      rw [if_neg hnone, Nat.add_zero]
      exact hperm (h, w) hw

theorem Denote.pinned_iff {cells : List (Handle × Bdd)} {Ps : List ((Nat → Bool) → Prop)}
    (h : Denote cells Ps) :
    (∀ p ∈ cells, Pinned fun env => p.2.eval env = true) ↔ ∀ P ∈ Ps, Pinned P := by
  induction h with
  | nil => simp
  | cons hp _ ih => rw [List.forall_mem_cons, List.forall_mem_cons, Pinned.congr hp, ih]

/-! ### Rules and tables -/

/-- No field of the rule needs a node of its own: the protocol is any, the addresses have at most one
bit, and the ports are pinned. -/
structure Rule.FieldsPinned (acl : Rule) : Prop where
  proto : acl.proto = 0
  srcPort : Pinned (PortHit 64 acl.srcPort)
  dstPort : Pinned (PortHit 32 acl.dstPort)
  srclen : (acl.srclen.setWidth 8).toNat ≤ 1
  dstlen : (acl.dstlen.setWidth 8).toNat ≤ 1

theorem pinned_proto (proto : BitVec 32) :
    Pinned (fun env => proto = 0 ∨ TopBits 96 8 proto 8 env) ↔ proto = 0 := by
  constructor
  · intro h
    by_contra h0
    rw [Pinned.congr fun env => or_iff_right h0,
      pinned_topBits (by decide) (by decide) (le_refl _)] at h
    omega
  · exact fun h0 => Or.inl fun _ => Or.inl h0

theorem half_of_bit {l u j : Nat} {b : Bool} (hj : j < 16) (hu : u < 65536)
    (hbit : ∀ v : BitVec 16, (l ≤ v.toNat ∧ v.toNat ≤ u) ↔ v.getMsbD j = b) :
    l = 0 ∧ u = 32767 ∨ l = 32768 ∧ u = 65535 := by
  rcases Nat.eq_zero_or_pos j with rfl | hpos
  · have h0 := hbit 0
    have h1 := hbit 32767
    have h2 := hbit 32768
    have h3 := hbit 65535
    cases b <;> simp at h0 h1 h2 h3 <;> omega
  · -- below the top bit, three numbers on a line alternate
    have halt : ∀ j < 16, 1 ≤ j → ∀ b, ∃ k : Fin 2,
        ((BitVec.ofNat 16 k <<< (15 - j)).toNat < (BitVec.ofNat 16 (k + 1) <<< (15 - j)).toNat ∧
          (BitVec.ofNat 16 (k + 1) <<< (15 - j)).toNat <
            (BitVec.ofNat 16 (k + 2) <<< (15 - j)).toNat) ∧
        (BitVec.ofNat 16 k <<< (15 - j)).getMsbD j = b ∧
        (BitVec.ofNat 16 (k + 1) <<< (15 - j)).getMsbD j ≠ b ∧
        (BitVec.ofNat 16 (k + 2) <<< (15 - j)).getMsbD j = b := by decide
    obtain ⟨k, ⟨h01, h12⟩, h0, h1, h2⟩ := halt j hj hpos b
    have hin := (hbit _).mpr h0
    have hin' := (hbit _).mpr h2
    exact absurd ((hbit _).mp ⟨by omega, by omega⟩) h1

/-- The value `v` in the field at `off`, and `b` in all other variables. -/
def fieldEnv (off : Nat) {n : Nat} (v : BitVec n) (b : Bool) (k : Nat) : Bool :=
  if off ≤ k ∧ k < off + n then v.getMsbD (k - off) else b

theorem fieldAt_fieldEnv (off : Nat) {n : Nat} (v : BitVec n) (b : Bool) :
    FieldAt off v (fieldEnv off v b) := by
  intro i hi
  rw [fieldEnv, if_pos (by omega), Nat.add_sub_cancel_left]

theorem interval_full {l u : Nat} (hu : u < 65536)
    (hall : ∀ v : BitVec 16, l ≤ v.toNat ∧ v.toNat ≤ u) : l = 0 ∧ u = 65535 := by
  have h0 := (hall 0).1
  have h1 := (hall 65535).2
  simp at h0 h1
  omega

theorem interval_of_pinned {P : (Nat → Bool) → Prop} {off l u : Nat} (hle : l ≤ u) (hu : u < 65536)
    (hP : ∀ (v : BitVec 16) (env : Nat → Bool), FieldAt off v env →
      (P env ↔ l ≤ v.toNat ∧ v.toNat ≤ u)) (h : Pinned P) :
    l = 0 ∧ u = 65535 ∨ l = 0 ∧ u = 32767 ∨ l = 32768 ∧ u = 65535 := by
  have hmem : ∀ (v : BitVec 16) b, P (fieldEnv off v b) ↔ l ≤ v.toNat ∧ v.toNat ≤ u :=
    fun v b => hP v _ (fieldAt_fieldEnv off v b)
  rcases h with h | h | ⟨i, -, b, h⟩
  · exact Or.inl (interval_full hu fun v => (hmem v true).mp (h _))
  · have hl := (hmem (BitVec.ofNat 16 l) true).not.mp (h _)
    rw [BitVec.toNat_ofNat, Nat.mod_eq_of_lt (by omega)] at hl
    omega
  · by_cases hfield : off ≤ i ∧ i < off + 16
    · have hbit : ∀ v : BitVec 16, (l ≤ v.toNat ∧ v.toNat ≤ u) ↔ v.getMsbD (i - off) = b := by
        intro v
        rw [← hmem v b, h, fieldEnv, if_pos hfield]
      exact Or.inr (half_of_bit (by omega) hu hbit)
    · refine Or.inl (interval_full hu fun v => (hmem v b).mp ((h _).mpr ?_))
      rw [fieldEnv, if_neg hfield]

/-- All ports, or those with the top bit clear, or those with the top bit set. -/
def HalfRange (port : BitVec 32 × BitVec 32) : Prop :=
  port = (0, 65535) ∨ port = (0, 32767) ∨ port = (32768, 65535)

theorem pinned_portHit_iff {port : BitVec 32 × BitVec 32} (hport : PortRange port)
    (hover : port ≠ (0, 65534)) {off : Nat} (hoff : off + 16 ≤ totalBits) :
    Pinned (PortHit off port) ↔ HalfRange port := by
  have hhit : ∀ (v : BitVec 16) (env : Nat → Bool), FieldAt off v env →
      (PortHit off port env ↔ port.1.toNat ≤ v.toNat ∧ v.toNat ≤ port.2.toNat) :=
    fun v env => (portHit_iff hport hover).2
  obtain ⟨l, u⟩ := port
  simp only [HalfRange, Prod.mk.injEq, ← BitVec.toNat_inj]
  constructor
  · exact interval_of_pinned hport.1 hport.2 hhit
  · intro h
    rcases h with ⟨hl, hu⟩ | h | h
    · refine Or.inl fun env => Or.inl ?_
      rw [← BitVec.toNat_inj, BitVec.toNat_sub]
      simp [hl, hu]
    all_goals
      refine Or.inr (Or.inr ⟨off, by omega, decide (l.toNat ≠ 0), fun env => ?_⟩)
      obtain ⟨v, hv⟩ := exists_fieldAt off 16 env
      have hmsb : env off = decide (2 ^ 15 ≤ v.toNat) :=
        (hv 0 (by decide)).trans (BitVec.msb_eq_decide v)
      rw [hhit v env hv, hmsb, decide_eq_decide]
      simp at h ⊢
      omega

theorem fieldsPinned_iff {acl : Rule} (hconv : acl.Converts) :
    (∀ P ∈ acl.fieldHits, Pinned P) ↔ acl.FieldsPinned := by
  simp only [Rule.fieldHits, List.forall_mem_cons, List.not_mem_nil, false_implies, implies_true,
    and_true]
  rw [pinned_proto, pinned_topBits (by decide) (le_refl _) hconv.srclen,
    pinned_topBits (by decide) (le_refl _) hconv.dstlen]
  constructor
  · intro h
    obtain ⟨hp, hsp, hdp, hs, hd⟩ := h
    exact ⟨hp, hsp, hdp, hs, hd⟩
  · exact fun h => ⟨h.proto, h.srcPort, h.dstPort, h.srclen, h.dstlen⟩

/-- The same in closed form, for a rule with ordered 16-bit ports: each range is all or a half of them. -/
structure Rule.FieldsHalf (acl : Rule) : Prop where
  proto : acl.proto = 0
  srcPort : HalfRange acl.srcPort
  dstPort : HalfRange acl.dstPort
  srclen : (acl.srclen.setWidth 8).toNat ≤ 1
  dstlen : (acl.dstlen.setWidth 8).toNat ≤ 1

def Rule.PortRanges (acl : Rule) : Prop := PortRange acl.srcPort ∧ PortRange acl.dstPort

theorem fieldsPinned_iff_half {acl : Rule} (hconv : acl.Converts) (hports : acl.PortRanges) :
    acl.FieldsPinned ↔ acl.FieldsHalf := by
  have hhalf : ∀ off, off + 16 ≤ totalBits → ∀ {port}, PortRange port → PortConverts port →
      (Pinned (PortHit off port) ↔ HalfRange port) := by
    intro off hoff port hport hconv
    refine pinned_portHit_iff hport ?_ hoff
    rintro rfl
    exact not_portConverts_overrun hconv
  have hsrc := hhalf 64 (by decide) hports.1 hconv.srcPort
  have hdst := hhalf 32 (by decide) hports.2 hconv.dstPort
  constructor
  · exact fun h => ⟨h.proto, hsrc.mp h.srcPort, hdst.mp h.dstPort, h.srclen, h.dstlen⟩
  · exact fun h => ⟨h.proto, hsrc.mpr h.srcPort, hdst.mpr h.dstPort, h.srclen, h.dstlen⟩

/-- The rules of the table leave nothing, and neither does what the deny rules cover together. -/
structure AclPinned (rules : List Rule) : Prop where
  fields : ∀ rule ∈ rules, rule.FieldsPinned
  denied : Pinned fun env => ∃ rule ∈ rules, ¬ rule.action = 1 ∧ rule.hit env

section

variable {σ : Session} {s' : Store Bdd} {h : Handle}

theorem converACLRule_balanced (hσ : Unsaturated σ.store) {acl : Rule}
    (hrun : converACLRule acl σ.store = .ok (h, s')) (hs' : Unsaturated s') :
    acl.Converts ∧ (Balanced σ.store s' [h] ↔ acl.FieldsPinned) := by
  obtain ⟨B, ⟨hconv, v, fields, rfl, -, hfields⟩, hbal⟩ :=
    run_balanced (converACLRule_triple acl) hσ hrun hs'
  have hiff : Balanced σ.store s' [h] ↔ _ := hbal [(h, v)] fields (by rw [Multiset.coe_singleton])
  rw [hiff, ← fieldsPinned_iff hconv, ← hfields.pinned_iff]
  exact ⟨hconv, Iff.rfl⟩

theorem computeACLBDD_balanced (hσ : Unsaturated σ.store) {d : Device} {tableID : Nat} {r : Router}
    (hr : d.routers[tableID]? = some r)
    (hrun : computeACLBDD d tableID σ.store = .ok (h, s')) (hs' : Unsaturated s') :
    (∀ rule ∈ allRules r.aclTable, rule.Converts) ∧
      (Balanced σ.store s' [h] ↔ AclPinned (allRules r.aclTable)) := by
  obtain ⟨B, ⟨r', a, vr, vd, left, hr', rfl, rfl, hinv, hleft⟩, hbal⟩ :=
    run_balanced (computeACLBDD_triple d tableID) hσ hrun hs'
  obtain rfl : r = r' := Option.some.inj (hr.symm.trans hr')
  have hiff : Balanced σ.store s' [a.res] ↔ _ := hbal [(a.res, vr)]
    ({(a.denyBuffer, vd)} + {(a.denyBuffernot, vd.neg)} + left)
    (by rw [Accumulators.owned, Multiset.coe_singleton]; abel)
  refine ⟨hinv.converts, ?_⟩
  rw [hiff]
  have hdeny : (Pinned fun env => vd.eval env = true) ↔ _ := Pinned.congr hinv.deny
  have hdenynot : (Pinned fun env => vd.neg.eval env = true) ↔
      Pinned fun env => vd.eval env = true := by
    rw [← pinned_not]
    exact Pinned.congr fun env => by simp
  have hfields : (∀ p ∈ left, Pinned fun env => p.2.eval env = true) ↔
      ∀ rule ∈ allRules r.aclTable, rule.FieldsPinned := by
    rw [hleft.pinned_iff, List.forall_mem_flatMap]
    exact forall₂_congr fun rule hmem => fieldsPinned_iff (hinv.converts rule hmem)
  simp only [Multiset.mem_add, Multiset.mem_singleton, Multiset.mem_coe, or_imp, forall_and,
    forall_eq, hdenynot, hdeny, hfields, and_self]
  exact ⟨fun h => ⟨h.2, h.1⟩, fun h => ⟨h.denied, h.fields⟩⟩

theorem getfwbdds_balanced (hσ : Unsaturated σ.store) {varInit : Bool} {size size' : Nat}
    {table : List Prefix} {uniPort : Nat} {fwdbdds : List Handle}
    (hrun : getfwbdds varInit size table uniPort σ.store = .ok ((fwdbdds, size'), s'))
    (hs' : Unsaturated s') :
    Balanced σ.store s' fwdbdds ↔ Pinned fun env => ∃ e ∈ table, e.hit env := by
  obtain ⟨B, ⟨fw, vf, slots, hres, rfl, hinv, -⟩, hbal⟩ :=
    run_balanced (getfwbdds_triple varInit size table uniPort) hσ hrun hs'
  obtain ⟨rfl, -⟩ := Prod.mk.inj hres
  have hiff := hbal slots {(fw.fwded, vf)} (add_comm _ _)
  rw [hinv.fwdbdds, hiff, ← Pinned.congr hinv.fwded]
  simp

end

/-- **Reference balance**: which rules and tables leave every count as it was but for the result. -/
theorem balanced_iff {σ : Session} (hσ : Unsaturated σ.store) :
    (∀ acl h s', converACLRule acl σ.store = .ok (h, s') → Unsaturated s' →
      (Balanced σ.store s' [h] ↔ acl.FieldsPinned) ∧
      (acl.PortRanges → (Balanced σ.store s' [h] ↔ acl.FieldsHalf))) ∧
    (∀ d tableID r h s', d.routers[tableID]? = some r →
      computeACLBDD d tableID σ.store = .ok (h, s') → Unsaturated s' →
      (Balanced σ.store s' [h] ↔ AclPinned (allRules r.aclTable)) ∧
      ((∀ rule ∈ allRules r.aclTable, rule.PortRanges) → (Balanced σ.store s' [h] ↔
        (∀ rule ∈ allRules r.aclTable, rule.FieldsHalf) ∧
          Pinned fun env => ∃ rule ∈ allRules r.aclTable, ¬ rule.action = 1 ∧ rule.hit env))) ∧
    ∀ varInit size table uniPort fwdbdds size' s',
      getfwbdds varInit size table uniPort σ.store = .ok ((fwdbdds, size'), s') →
      Unsaturated s' →
      (Balanced σ.store s' fwdbdds ↔ Pinned fun env => ∃ e ∈ table, e.hit env) := by
  refine ⟨?_, ?_, ?_⟩
  · intro acl h s' hrun hs'
    obtain ⟨hconv, hiff⟩ := converACLRule_balanced hσ hrun hs'
    exact ⟨hiff, fun hports => hiff.trans (fieldsPinned_iff_half hconv hports)⟩
  · intro d tableID r h s' hr hrun hs'
    obtain ⟨hconv, hiff⟩ := computeACLBDD_balanced hσ hr hrun hs'
    refine ⟨hiff, fun hports => hiff.trans ?_⟩
    have hfields := forall₂_congr fun rule hmem =>
      fieldsPinned_iff_half (hconv rule hmem) (hports rule hmem)
    exact ⟨fun h => ⟨hfields.mp h.fields, h.denied⟩, fun h => ⟨hfields.mpr h.1, h.2⟩⟩
  · exact fun varInit size table uniPort fwdbdds size' s' hrun hs' =>
      getfwbdds_balanced hσ hrun hs'

/-! ### Runs from the initial store -/

theorem unsaturated_init (collector : Collector) : Unsaturated (bddInit collector) := by
  intro h hnone
  simp [Store.count, bddInit, hnone, MAXREF]

/-- The counts in use, but those of the constants and literals, are below saturation. -/
def belowMaxref (s : Store Bdd) : Bool :=
  s.used.all fun h => (initialBdd h).isSome || decide (s.count h < MAXREF)

theorem unsaturated_of_used {s : Store Bdd} (hs : Ready s) (hall : belowMaxref s = true) :
    Unsaturated s := by
  obtain ⟨base, A, -, ho⟩ := hs
  intro h hnone
  by_cases hused : h ∈ s.used
  · simpa [hnone] using List.all_eq_true.mp hall h hused
  · have hcell : s.cell h = none := by simpa [ho.mem_used] using hused
    simp [Store.count, hcell, MAXREF]

/-- The call returns from the initial store, with its counts below saturation. -/
def returnsBelow {β : Type} (m : BddM β) : Bool :=
  match m (Session.init Collector.eager).store with
  | .ok (_, s') => belowMaxref s'
  | .error _ => false

theorem run_init {β : Type} {m : BddM β} {Q : β → Multiset (Handle × Bdd) → Prop}
    {E : CFault → Prop} (hm : Triple discipline 0 m Q E) (hbelow : returnsBelow m = true) :
    ∃ b s', m (Session.init Collector.eager).store = .ok (b, s') ∧ Unsaturated s' := by
  unfold returnsBelow at hbelow
  rcases run_session hm (Session.init Collector.eager) with
    ⟨b, s', -, hrun, -, -, -, hready⟩ | ⟨e, hrun, -⟩
  · rw [hrun] at hbelow
    exact ⟨b, s', hrun, unsaturated_of_used hready hbelow⟩
  · rw [hrun] at hbelow
    cases hbelow

def denyHalf : Rule := { permitAll with srcIP := 0x80000000, srcmask := 0x7FFFFFFF, srclen := 1, action := 0 }

/-- The upper half of the addresses and ports. -/
def permitHalf : Rule := { denyHalf with srcPort := (32768, 65535), action := 1 }

def routeHalf : Prefix := ⟨0x80000000, 1, 1, []⟩

theorem pinned_firstBit {off : Nat} (hoff : off + 32 ≤ totalBits) (ip : BitVec 32) :
    Pinned (TopBits off 32 ip 1) :=
  (pinned_topBits hoff (le_refl 32) (by decide) ip).mpr (le_refl 1)

/-- Literals are all that these calls leave behind. -/
theorem balanced_iff_half :
    (∃ h s', converACLRule permitHalf (Session.init Collector.eager).store = .ok (h, s') ∧
      Balanced (Session.init Collector.eager).store s' [h]) ∧
    (∃ h s', computeACLBDD (aclDevice [⟨10, [denyHalf, permitHalf]⟩]) 0
        (Session.init Collector.eager).store = .ok (h, s') ∧
      Balanced (Session.init Collector.eager).store s' [h]) ∧
    ∃ fwdbdds size s', getfwbdds true 0 [routeHalf] 2 (Session.init Collector.eager).store =
        .ok ((fwdbdds, size), s') ∧
      Balanced (Session.init Collector.eager).store s' fwdbdds := by
  have hσ : Unsaturated (Session.init Collector.eager).store := unsaturated_init Collector.eager
  obtain ⟨hrule, htable, hforward⟩ := balanced_iff hσ
  have hpermit : permitHalf.FieldsHalf := ⟨rfl, Or.inr (Or.inr rfl), Or.inl rfl, by decide, by decide⟩
  have hdeny : denyHalf.FieldsHalf := ⟨rfl, Or.inl rfl, Or.inl rfl, by decide, by decide⟩
  have hports : permitHalf.PortRanges ∧ denyHalf.PortRanges := by
    simp only [Rule.PortRanges]
    decide
  refine ⟨?_, ?_, ?_⟩
  · obtain ⟨h, s', hrun, hs'⟩ := run_init (converACLRule_triple permitHalf) (by decide +kernel)
    exact ⟨h, s', hrun, ((hrule permitHalf h s' hrun hs').2 hports.1).mpr hpermit⟩
  · obtain ⟨h, s', hrun, hs'⟩ := run_init
      (computeACLBDD_triple (aclDevice [⟨10, [denyHalf, permitHalf]⟩]) 0) (by decide +kernel)
    refine ⟨h, s', hrun, ((htable _ 0 _ h s' rfl hrun hs').2 ?_).mpr ⟨?_, ?_⟩⟩
    · simp [allRules, hports]
    · simp [allRules, hpermit, hdeny]
    · have hdenied : ∀ env, (∃ rule ∈ allRules [⟨10, [denyHalf, permitHalf]⟩],
          ¬ rule.action = 1 ∧ rule.hit env) ↔ TopBits 0 32 0x80000000 1 env := by
        intro env
        constructor
        · rintro ⟨rule, hmem, haction, hhit⟩
          rcases List.mem_pair.mp hmem with rfl | rfl
          · exact hhit.srcIP
          · exact absurd rfl haction
        · intro hsrc
          refine ⟨denyHalf, List.mem_cons_self, by decide, Or.inl rfl, Or.inl (by decide),
            Or.inl (by decide), hsrc, fun i hlow hhigh => ?_⟩
          have hzero : (denyHalf.dstlen.setWidth 8).toNat = 0 := rfl
          omega
      exact (Pinned.congr hdenied).mpr (pinned_firstBit (by decide) _)
  · obtain ⟨⟨fwdbdds, size⟩, s', hrun, hs'⟩ := run_init
      (getfwbdds_triple true 0 [routeHalf] 2) (by decide +kernel)
    refine ⟨fwdbdds, size, s', hrun, (hforward _ _ _ _ _ _ s' hrun hs').mpr ?_⟩
    have hcovered : ∀ env, (∃ e ∈ [routeHalf], e.hit env) ↔ TopBits 32 32 0x80000000 1 env := by
      intro env
      simp [Prefix.hit, routeHalf]
    exact (Pinned.congr hcovered).mpr (pinned_firstBit (by decide) _)

/-- The addresses that start with the bits `11`. -/
def permitTop : Rule := { permitAll with srcIP := 0xC0000000, srcmask := 0x3FFFFFFF, srclen := 2 }

/-- The predicate of two bits has a node of its own, which `field_bdd` keeps referenced. -/
theorem converACLRule_leaks :
    Unsaturated (Session.init Collector.eager).store ∧
      ∃ h s', converACLRule permitTop (Session.init Collector.eager).store = .ok (h, s') ∧
        Unsaturated s' ∧ ¬ Balanced (Session.init Collector.eager).store s' [h] := by
  have hσ : Unsaturated (Session.init Collector.eager).store := unsaturated_init Collector.eager
  obtain ⟨h, s', hrun, hs'⟩ := run_init (converACLRule_triple permitTop) (by decide +kernel)
  refine ⟨hσ, h, s', hrun, hs', fun hbal => ?_⟩
  have hlen := ((converACLRule_balanced hσ hrun hs').2.mp hbal).srclen
  exact absurd hlen (by decide)

end AtomicPredicate
