import AtomicPredicate.Encode
import AtomicPredicate.RuleLine

/-!
# Wildcard masks

A rule file gives the addresses of a rule by a wildcard mask: a set bit is not compared. `set_rule`
turns the mask into a prefix length, 32 less the number of shifts that clear it, and `converACLRule`
passes that length to `encodeSrcIPPrefix` and `encodeDstIPPrefix`. The predicate then compares the
bits above the highest bit of the mask, so it is the predicate of the mask exactly when the mask is
`2 ^ k - 1` (`setRule_wildcard_iff`).
-/

namespace AtomicPredicate

open Lib

/-! ### Masks and lengths -/

/-- Only low bits are not compared. -/
def IsWildcard (mask : BitVec 32) : Prop := ∃ k ≤ 32, mask.toNat + 1 = 2 ^ k

instance (mask : BitVec 32) : Decidable (IsWildcard mask) :=
  inferInstanceAs (Decidable (∃ k ≤ 32, mask.toNat + 1 = 2 ^ k))

/-- The addresses that agree on the bits a wildcard mask compares. -/
def AgreeOutside (mask ip a : BitVec 32) : Prop := (a ^^^ ip) &&& ~~~mask = 0

theorem agreeOutside_iff (mask ip a : BitVec 32) :
    AgreeOutside mask ip a ↔
      ∀ i < 32, mask.getLsbD i = false → a.getLsbD i = ip.getLsbD i := by
  unfold AgreeOutside
  constructor
  · intro h i hi hmask
    have hbit := congrArg (BitVec.getLsbD · i) h
    simp only [BitVec.getLsbD_and, BitVec.getLsbD_xor, BitVec.getLsbD_not, hi, decide_true, hmask,
      Bool.not_false, Bool.and_true, BitVec.ofNat_eq_ofNat, BitVec.getLsbD_zero] at hbit
    simpa using hbit
  · intro h
    apply BitVec.eq_of_getLsbD_eq
    intro i hi
    rw [BitVec.getLsbD_and, BitVec.getLsbD_xor, BitVec.getLsbD_not]
    cases hmask : mask.getLsbD i with
    | true => simp
    | false => simp [h i hi hmask]

theorem maskLoop_spec (len tmp : BitVec 32) :
    ∃ k, maskLoop len tmp = len - BitVec.ofNat 32 k ∧ tmp.toNat < 2 ^ k ∧
      ∀ j, j < k → 2 ^ j ≤ tmp.toNat := by
  fun_induction maskLoop len tmp with
  | case1 len => exact ⟨0, by simp, by simp, fun j hj => absurd hj (by omega)⟩
  | case2 len tmp htmp ih =>
    obtain ⟨k, hloop, hlt, hge⟩ := ih
    rw [BitVec.toNat_ushiftRight, Nat.shiftRight_eq_div_pow] at hlt hge
    refine ⟨k + 1, ?_, ?_, ?_⟩
    · rw [hloop, Nat.add_comm, BitVec.ofNat_add, BitVec.sub_sub]
      rfl
    · rw [pow_succ]
      omega
    · intro j hj
      cases j with
      | zero =>
        have hpos : tmp.toNat ≠ 0 := fun h0 => htmp (BitVec.eq_of_toNat_eq h0)
        omega
      | succ j =>
        have h := hge j (by omega)
        rw [pow_succ]
        omega

theorem maskLoop_len (mask : BitVec 32) :
    ∃ k ≤ 32, ((maskLoop 32 mask).setWidth 8).toNat = 32 - k ∧ mask.toNat < 2 ^ k ∧
      ∀ j, j < k → 2 ^ j ≤ mask.toNat := by
  obtain ⟨k, hloop, hlt, hge⟩ := maskLoop_spec 32 mask
  have hk : k ≤ 32 := by
    by_contra hk
    exact absurd (hge 32 (by omega)) (not_le.mpr mask.isLt)
  refine ⟨k, hk, ?_, hlt, hge⟩
  rw [hloop, BitVec.toNat_setWidth, BitVec.toNat_sub, BitVec.toNat_ofNat]
  show (2 ^ 32 - k % 2 ^ 32 + 32) % 2 ^ 32 % 2 ^ 8 = 32 - k
  omega

theorem wildcard_bits {mask : BitVec 32} {k : Nat} :
    mask.toNat + 1 = 2 ^ k ↔ ∀ i, mask.getLsbD i = decide (i < k) := by
  have hpos : 0 < 2 ^ k := Nat.two_pow_pos k
  constructor
  · intro h i
    have hmask : mask.toNat = 2 ^ k - 1 := by omega
    show mask.toNat.testBit i = decide (i < k)
    rw [hmask, Nat.testBit_two_pow_sub_one]
  · intro h
    have hmask : mask.toNat = 2 ^ k - 1 := by
      apply Nat.eq_of_testBit_eq
      intro i
      rw [Nat.testBit_two_pow_sub_one]
      exact h i
    omega

theorem getLsbD_flip (ip : BitVec 32) {i : Nat} (hi : i < 32) (j : Nat) :
    (ip ^^^ BitVec.twoPow 32 i).getLsbD j = (ip.getLsbD j ^^ decide (i = j)) := by
  rw [BitVec.getLsbD_xor, BitVec.getLsbD_twoPow, decide_eq_true hi, Bool.true_and]

theorem agreeOutside_flip {mask ip : BitVec 32} {i : Nat} (hi : i < 32)
    (h : AgreeOutside mask ip (ip ^^^ BitVec.twoPow 32 i)) : mask.getLsbD i = true := by
  by_contra hmask
  rw [Bool.not_eq_true] at hmask
  have hbit := (agreeOutside_iff _ _ _).mp h i hi hmask
  rw [getLsbD_flip ip hi, decide_eq_true rfl] at hbit
  simp at hbit

theorem agree_above_iff {mask : BitVec 32} {k : Nat} (hk : k ≤ 32) (hlt : mask.toNat < 2 ^ k)
    (hge : ∀ j, j < k → 2 ^ j ≤ mask.toNat) (ip : BitVec 32) :
    (∀ a : BitVec 32, (∀ i, k ≤ i → i < 32 → a.getLsbD i = ip.getLsbD i) ↔
      AgreeOutside mask ip a) ↔ IsWildcard mask := by
  constructor
  · intro h
    refine ⟨k, hk, wildcard_bits.mpr fun i => ?_⟩
    by_cases hi : i < k
    · rw [decide_eq_true hi]
      have hagree : AgreeOutside mask ip (ip ^^^ BitVec.twoPow 32 i) := by
        apply (h _).mp
        intro j hj _
        rw [getLsbD_flip ip (by omega), decide_eq_false (by omega), Bool.xor_false]
      exact agreeOutside_flip (by omega) hagree
    · rw [decide_eq_false hi]
      exact Nat.testBit_lt_two_pow
        (lt_of_lt_of_le hlt (Nat.pow_le_pow_right (by decide) (not_lt.mp hi)))
  · intro h a
    obtain ⟨n, hn, hmask⟩ := h
    have hkn : k = n := by
      apply Nat.le_antisymm
      · by_contra hlt'
        have := hge n (by omega)
        omega
      · exact (Nat.pow_le_pow_iff_right (by decide : 1 < 2)).mp (by omega)
    subst hkn
    rw [agreeOutside_iff]
    refine forall_congr' fun i => ?_
    rw [wildcard_bits.mp hmask, decide_eq_false_iff_not, Nat.not_lt]
    exact ⟨fun hall hi hki => hall hki hi, fun hall hki hi => hall hi hki⟩

/-! ### The predicates -/

/-- The predicate accepts the addresses of the mask: the property a rule file asks for. -/
def Accepts (encode : BddM Handle) (field : Packet → BitVec 32) (ip mask : BitVec 32)
    (σ : Session) : Prop :=
  ∃ h s', encode σ.store = .ok (h, s') ∧ ∀ p : Packet, Satisfies s' h p ↔ AgreeOutside mask ip (field p)

theorem encodeField_accepts {var : List Handle} {off : Nat} {field : Packet → BitVec 32}
    (hvar : VarsAt var off 32) (hfield : ∀ p : Packet, FieldAt off (field p) p.assignment)
    (honto : ∀ a, ∃ p, field p = a) (ip mask : BitVec 32) (σ : Session) :
    Accepts (encodeField var 32 ip ((maskLoop 32 mask).setWidth 8)) field ip mask σ ↔
      IsWildcard mask := by
  obtain ⟨k, hk, hlen, hlt, hge⟩ := maskLoop_len mask
  rw [← agree_above_iff hk hlt hge ip]
  rcases run_session (encodeField_triple hvar (le_refl 32) ip ((maskLoop 32 mask).setWidth 8)) σ
    with ⟨h, s', _, hrun, ⟨-, v, rfl, hv⟩, hval, -⟩ | ⟨e, -, -, hlong⟩
  · have hsat : ∀ p : Packet, Satisfies s' h p ↔
        ∀ i, k ≤ i → i < 32 → (field p).getLsbD i = ip.getLsbD i := by
      intro p
      rw [Satisfies, evalHandle_eq (hval (h, v) (by simp)), hv, topBits_iff_bits (hfield p), hlen,
        Nat.sub_sub_self hk]
    constructor
    · intro haccepts a
      obtain ⟨h', s'', hrun', hsat'⟩ := haccepts
      obtain ⟨p, rfl⟩ := honto a
      cases hrun.symm.trans hrun'
      exact (hsat p).symm.trans (hsat' p)
    · exact fun hall => ⟨h, s', hrun, fun p => (hsat p).trans (hall (field p))⟩
  · omega

theorem encodeSrcIPPrefix_accepts (ip mask : BitVec 32) (σ : Session) :
    Accepts (encodeSrcIPPrefix ip ((maskLoop 32 mask).setWidth 8)) Packet.srcIP ip mask σ ↔
      IsWildcard mask :=
  encodeField_accepts varsAt_srcIP fieldAt_srcIP (fun a => ⟨⟨a, 0, 0, 0, 0⟩, rfl⟩) ip mask σ

theorem encodeDstIPPrefix_accepts (ip mask : BitVec 32) (σ : Session) :
    Accepts (encodeDstIPPrefix ip ((maskLoop 32 mask).setWidth 8)) Packet.dstIP ip mask σ ↔
      IsWildcard mask :=
  encodeField_accepts varsAt_dstIP fieldAt_dstIP (fun a => ⟨⟨0, a, 0, 0, 0⟩, rfl⟩) ip mask σ

/-- The masks of an object keep their meaning in the predicates of the rule. -/
def WildcardsKept (o : RuleObject) (r : Rule) (σ : Session) : Prop :=
  Accepts (encodeSrcIPPrefix r.srcIP (r.srclen.setWidth 8)) Packet.srcIP o.srcIP o.srcIPMask σ ∧
    Accepts (encodeDstIPPrefix r.dstIP (r.dstlen.setWidth 8)) Packet.dstIP o.dstIP o.dstIPMask σ

theorem wildcardsKept_iff (o : RuleObject) (σ : Session) :
    WildcardsKept o o.rule σ ↔ IsWildcard o.srcIPMask ∧ IsWildcard o.dstIPMask :=
  and_congr (encodeSrcIPPrefix_accepts o.srcIP o.srcIPMask σ)
    (encodeDstIPPrefix_accepts o.dstIP o.dstIPMask σ)

/-- **From file to predicate**, the masks of an object keep their meaning if and only if they have no
holes. -/
theorem setRule_wildcard_iff (mem : Memory) {objs : List RuleObject} (hobjs : objs ≠ [])
    (after : List Char) (id : Int) {t : AclTable} (hslot : t.numAcl < t.slots.length) (σ : Session) :
    ∃ t' buf list rules, setRule mem (printLine objs ++ nul :: after) id t = .ok (t', buf) ∧
      t'.slots[t.numAcl]? = some ⟨BitVec.ofInt 16 id, list⟩ ∧ IsList t'.heap list rules ∧
      List.Forall₂ (fun o r => WildcardsKept o r σ ↔
        IsWildcard o.srcIPMask ∧ IsWildcard o.dstIPMask) objs rules := by
  obtain ⟨t', buf, hcall, happended⟩ := setRule_printed mem hobjs after id hslot
  obtain ⟨list, hentry, hlist⟩ := happended.entry
  refine ⟨t', buf, list, objs.map RuleObject.rule, hcall, hentry, hlist, ?_⟩
  rw [List.forall₂_map_right_iff, List.forall₂_same]
  exact fun o _ => wildcardsKept_iff o σ

/-- From the network `10.1.2.x` to the network `10.3.x.y`. -/
def networkObject : RuleObject :=
  { anyObject with srcIP := 0x0A010200, srcIPMask := 255, dstIP := 0x0A030000, dstIPMask := 65535 }

/-- Masks without holes are kept. -/
theorem setRule_wildcard_networks :
    ∃ t' buf list rules, setRule clearedMemory (printLine [networkObject, anyObject] ++ nul :: [])
        120 oneSlot = .ok (t', buf) ∧
      t'.slots[0]? = some ⟨BitVec.ofInt 16 120, list⟩ ∧ IsList t'.heap list rules ∧
      List.Forall₂ (fun o r => WildcardsKept o r (Session.init Collector.eager))
        [networkObject, anyObject] rules := by
  obtain ⟨t', buf, list, rules, hcall, hentry, hlist, hall⟩ := setRule_wildcard_iff clearedMemory
    (List.cons_ne_nil networkObject [anyObject]) [] 120
    (by decide : oneSlot.numAcl < oneSlot.slots.length) (Session.init Collector.eager)
  refine ⟨t', buf, list, rules, hcall, hentry, hlist, ?_⟩
  obtain ⟨r, rules, hnetwork, hrest, rfl⟩ := List.forall₂_cons_left_iff.mp hall
  obtain ⟨r', rules, hany, hnil, rfl⟩ := List.forall₂_cons_left_iff.mp hrest
  rw [List.forall₂_nil_left_iff] at hnil
  subst hnil
  exact .cons (hnetwork.mpr (by decide)) (.cons (hany.mpr (by decide)) .nil)

/-- The mask of `128.12.x.1` has a hole: the predicate accepts `128.12.x.y`. -/
theorem setRule_wildcard_hole :
    ∃ t' buf list r, setRule clearedMemory (printLine [snmpObject] ++ nul :: []) 120 oneSlot =
        .ok (t', buf) ∧
      t'.slots[0]? = some ⟨120, list⟩ ∧ IsList t'.heap list [r] ∧
      ¬ WildcardsKept snmpObject r (Session.init Collector.eager) := by
  obtain ⟨t', buf, hcall, happended⟩ := setRule_printed clearedMemory
    (List.cons_ne_nil snmpObject []) [] 120 (by decide : oneSlot.numAcl < oneSlot.slots.length)
  obtain ⟨list, hentry, hlist⟩ := happended.entry
  refine ⟨t', buf, list, snmpObject.rule, hcall, hentry, hlist, ?_⟩
  rw [wildcardsKept_iff]
  decide

end AtomicPredicate
