import AtomicPredicate.Buddy

/-!
# Prefixes as predicates

`encodePrefix` and its wrappers from `bddwrapper.c`. `TopBits` is what a prefix says of an
assignment: the top `len` bits of the field agree with the address. Each wrapper returns the
predicate of `TopBits` over the variables it is given, or stops on a shift by a negative count when
`len` exceeds the field (`encodeField_triple`).
-/

namespace AtomicPredicate

open Lib

/-! ### The code -/

/-- `ip & (1 << i)` as a condition. -/
def bitTest (ip : BitVec 32) (i : Int) : BddM Bool :=
  if 0 ≤ i ∧ i < 32 then pure (ip &&& (1#32 <<< i.toNat) != 0#32) else throw (.client .shift)

def readVar (var : List Handle) (i : Int) : BddM Handle :=
  match (if 0 ≤ i then var[i.toNat]? else none) with
  | some h => pure h
  | none => throw (.client .index)

/-- The first literal of `encodePrefix`: with a reference of its own whatever its sign. -/
def firstLiteral (ip : BitVec 32) (var : List Handle) (numBits : BitVec 8) (i : Int) :
    BddM Handle := do
  if ← bitTest ip i then bddAddref (← readVar var (numBits.toNat - 1 - i))
  else bddNot (← readVar var (numBits.toNat - 1 - i)) >>= bddAddref

/-- The literal of a loop round: a positive literal is used without acquiring it. -/
def loopLiteral (ip : BitVec 32) (var : List Handle) (numBits : BitVec 8) (i : Int) :
    BddM Handle := do
  if ← bitTest ip i then readVar var (numBits.toNat - 1 - i)
  else bddNot (← readVar var (numBits.toNat - 1 - i)) >>= bddAddref

def encodeStep (ip : BitVec 32) (var : List Handle) (numBits : BitVec 8) (tmpnode : Handle)
    (i : Nat) : BddM Handle := do
  let tmpnode2 ← loopLiteral ip var numBits i
  let tmpnode3 ← bddApply tmpnode tmpnode2 .and >>= bddAddref
  bddDelref tmpnode
  bddDelref tmpnode2
  return tmpnode3

def encodePrefix (ip : BitVec 32) (len : BitVec 8) (var : List Handle) (numBits : BitVec 8) :
    BddM Handle := do
  let index : Int := numBits.toNat - len.toNat
  let tmpnode ← firstLiteral ip var numBits index
  let start := (index + 1).toNat
  (List.range' start (numBits.toNat - start)).foldlM (encodeStep ip var numBits) tmpnode

/-- The wrapper of a field: the empty prefix is the constant true. -/
def encodeField (var : List Handle) (numBits : Nat) (ip : BitVec 32) (len : BitVec 8) :
    BddM Handle :=
  if len ≠ 0 then encodePrefix ip len var (BitVec.ofNat 8 numBits) else pure bddtrue

def encodeSrcIPPrefix : BitVec 32 → BitVec 8 → BddM Handle := encodeField initFieldVar.srcIP ipBits

def encodeDstIPPrefix : BitVec 32 → BitVec 8 → BddM Handle := encodeField initFieldVar.dstIP ipBits

def encodeSrcPortPrefix : BitVec 32 → BitVec 8 → BddM Handle :=
  encodeField initFieldVar.srcPort portBits

-- the source passes `dstIP` here, not `dstPort`
def encodeDstPortPrefix : BitVec 32 → BitVec 8 → BddM Handle :=
  encodeField initFieldVar.dstIP portBits

def encodeProtocolPrefix (ip : BitVec 32) : BddM Handle :=
  encodePrefix ip (BitVec.ofNat 8 protocolBits) initFieldVar.protocol (BitVec.ofNat 8 protocolBits)

/-! ### What a prefix says -/

/-- The `n`-bit field at variable `off` agrees with `ip` on its top `len` bits. -/
def TopBits (off n : Nat) (ip : BitVec 32) (len : Nat) (env : Nat → Bool) : Prop :=
  ∀ i, n - len ≤ i → i < n → env (off + (n - 1 - i)) = ip.getLsbD i

/-- The same of a field over the variables `x 0, .., x (n - 1)`. -/
def TopBitsOf (x : Nat → Nat) (n : Nat) (ip : BitVec 32) (len : Nat) (env : Nat → Bool) : Prop :=
  ∀ i, n - len ≤ i → i < n → env (x (n - 1 - i)) = ip.getLsbD i

/-- The `n`-bit field at variable `off` holds `v`, most significant bit first. -/
def FieldAt {n : Nat} (off : Nat) (v : BitVec n) (env : Nat → Bool) : Prop :=
  ∀ i < n, env (off + i) = v.getMsbD i

theorem fieldAt_srcIP (p : Packet) : FieldAt 0 p.srcIP p.assignment := fun _ => p.assignment_srcIP

theorem fieldAt_dstIP (p : Packet) : FieldAt 32 p.dstIP p.assignment := fun _ => p.assignment_dstIP

theorem fieldAt_sport (p : Packet) : FieldAt 64 p.sport p.assignment := fun _ => p.assignment_sport

theorem fieldAt_proto (p : Packet) : FieldAt 96 p.proto p.assignment :=
  fun i _ => p.assignment_proto i

theorem exists_fieldAt (off n : Nat) (env : Nat → Bool) : ∃ v : BitVec n, FieldAt off v env :=
  ⟨(BitVec.ofBoolListBE ((List.range n).map fun i => env (off + i))).cast (by simp),
    fun i hi => by simp [hi]⟩

theorem topBits_iff_bits {off n len : Nat} {v : BitVec n} {env : Nat → Bool}
    (hv : FieldAt off v env) (ip : BitVec 32) :
    TopBits off n ip len env ↔ ∀ i, n - len ≤ i → i < n → v.getLsbD i = ip.getLsbD i := by
  refine forall_congr' fun i => imp_congr_right fun _ => forall_congr' fun hi => ?_
  rw [hv _ (by omega), BitVec.getMsbD, decide_eq_true (by omega : n - 1 - i < n), Bool.true_and,
    show n - 1 - (n - 1 - i) = i by omega]

theorem topBits_iff {off n len : Nat} {v : BitVec n} {env : Nat → Bool} (hv : FieldAt off v env)
    (ip : BitVec 32) :
    TopBits off n ip len env ↔
      v.toNat / 2 ^ (n - len) = ip.toNat % 2 ^ n / 2 ^ (n - len) := by
  rw [topBits_iff_bits hv]
  constructor
  · intro h
    refine Nat.eq_of_testBit_eq fun i => ?_
    rw [Nat.testBit_div_two_pow, Nat.testBit_div_two_pow, Nat.testBit_mod_two_pow]
    by_cases hi : i + (n - len) < n
    · rw [decide_eq_true hi, Bool.true_and]
      exact h _ (by omega) hi
    · rw [decide_eq_false hi, Bool.false_and]
      exact BitVec.getLsbD_of_ge v _ (by omega)
  · intro h i hlen hi
    have hbit := congrArg (Nat.testBit · (i - (n - len))) h
    simp only [Nat.testBit_div_two_pow, Nat.testBit_mod_two_pow,
      show i - (n - len) + (n - len) = i by omega, decide_eq_true hi, Bool.true_and] at hbit
    exact hbit

/-- The array holds the `n` variables from `off` on. -/
def VarsAt (var : List Handle) (off n : Nat) : Prop :=
  off + n ≤ totalBits ∧ ∀ i < n, var[i]? = some (bddIthvar (off + i))

/-- The array holds the variables `x 0, .., x (n - 1)`. -/
def VarsAre (var : List Handle) (x : Nat → Nat) (n : Nat) : Prop :=
  ∀ i < n, x i < totalBits ∧ var[i]? = some (bddIthvar (x i))

theorem VarsAt.are {var : List Handle} {off n : Nat} (h : VarsAt var off n) :
    VarsAre var (off + ·) n :=
  fun i hi => ⟨lt_of_lt_of_le (Nat.add_lt_add_left hi off) h.1, h.2 i hi⟩

theorem varsAt_srcIP : VarsAt initFieldVar.srcIP 0 32 :=
  ⟨by decide, fun i hi => by simp [initFieldVar, ipBits, hi]⟩

theorem varsAt_dstIP : VarsAt initFieldVar.dstIP 32 32 :=
  ⟨by decide, fun i hi => by simp [initFieldVar, ipBits, hi, Nat.add_comm]⟩

theorem varsAt_srcPort : VarsAt initFieldVar.srcPort 64 16 :=
  ⟨by decide, fun i hi => by simp [initFieldVar, ipBits, portBits, hi, Nat.add_comm]⟩

theorem varsAt_protocol : VarsAt initFieldVar.protocol 96 8 :=
  ⟨by decide, fun i hi => by simp [initFieldVar, ipBits, portBits, protocolBits, hi, Nat.add_comm]⟩

theorem VarsAt.mono {var : List Handle} {off n k : Nat} (h : VarsAt var off n) (hk : k ≤ n) :
    VarsAt var off k :=
  ⟨le_trans (Nat.add_le_add_left hk off) h.1, fun i hi => h.2 i (by omega)⟩

/-! ### Literals -/

theorem bit_test_eq (ip : BitVec 32) (i : Nat) :
    (ip &&& (1#32 <<< i) != 0#32) = ip.getLsbD i := by
  rw [← BitVec.twoPow_eq, BitVec.and_twoPow]
  by_cases hi : i < 32
  · cases h : ip.getLsbD i with
    | false => simp
    | true =>
      have hbit : (BitVec.twoPow 32 i).getLsbD i = true := by simp [hi]
      simp only [if_true, bne_iff_ne, ne_eq]
      intro h0
      simp [h0] at hbit
  · simp [BitVec.getLsbD_of_ge ip i (by omega)]

theorem bitTest_eq {ip : BitVec 32} {i : Int} (h0 : 0 ≤ i) (h32 : i < 32) :
    bitTest ip i = pure (ip.getLsbD i.toNat) := by
  rw [bitTest, if_pos ⟨h0, h32⟩, bit_test_eq]

theorem toNat_width {n : Nat} (hn : n ≤ 32) : (BitVec.ofNat 8 n).toNat = n := by
  simp
  omega

theorem neg_literal (v : Nat) : (Robdd.literal v true).neg = Robdd.literal v false := by
  refine Robdd.ext_eval fun env => ?_
  cases h : env v <;> simp [h]

section

variable {var : List Handle} {x : Nat → Nat} {off n : Nat} {ip : BitVec 32} {E : CFault → Prop}

theorem readVar_eq (hvar : VarsAre var x n) {j : Int} {i : Nat} (hi : i < n)
    (hj : j = (n : Int) - 1 - i) : readVar var j = pure (bddIthvar (x (n - 1 - i))) := by
  have hnat : j.toNat = n - 1 - i := by omega
  rw [readVar, if_pos (by omega), hnat, (hvar _ (by omega)).2]

theorem negLiteral_triple (hvar : VarsAre var x n) {j : Int} {i : Nat} (hi : i < n)
    (hj : j = (n : Int) - 1 - i) :
    Triple discipline 0 (do bddNot (← readVar var j) >>= bddAddref)
      (fun h B => B = {(h, Robdd.literal (x (n - 1 - i)) false)}) E := by
  have hperm := mem_permanent_ithvar (hvar (n - 1 - i) (by omega)).1
  rw [readVar_eq hvar hi hj, pure_bind]
  refine Triple.forget (Triple.permanent hperm ?_)
  rw [add_zero]
  apply Triple.post Triple.operate₁
  rintro r _ rfl
  exact ⟨_, _, hperm, rfl, by rw [neg_literal]⟩

theorem loopLiteral_triple (hvar : VarsAre var x n) {i : Nat} (hi : i < n) (hn : n ≤ 32) :
    Triple discipline 0
      (loopLiteral ip var (BitVec.ofNat 8 n) i)
      (fun h B => B = {(h, Robdd.literal (x (n - 1 - i)) (ip.getLsbD i))}) E := by
  rw [loopLiteral, toNat_width hn, bitTest_eq (by omega) (by omega), pure_bind, Int.toNat_natCast]
  cases ip.getLsbD i with
  | false => exact negLiteral_triple hvar hi rfl
  | true =>
    rw [if_pos rfl, readVar_eq hvar hi rfl]
    exact Triple.permanent (mem_permanent_ithvar (hvar (n - 1 - i) (by omega)).1)
      (Triple.pure (by rw [add_zero]))

theorem firstLiteral_triple (hvar : VarsAre var x n) {j : Int} {i : Nat} (hi : i < n)
    (hn : n ≤ 32) (hj : j = i) :
    Triple discipline 0
      (firstLiteral ip var (BitVec.ofNat 8 n) j)
      (fun h B => B = {(h, Robdd.literal (x (n - 1 - i)) (ip.getLsbD i))}) E := by
  subst hj
  rw [firstLiteral, toNat_width hn, bitTest_eq (by omega) (by omega), pure_bind, Int.toNat_natCast]
  cases ip.getLsbD i with
  | false => exact negLiteral_triple hvar hi rfl
  | true =>
    have hperm := mem_permanent_ithvar (hvar (n - 1 - i) (by omega)).1
    rw [if_pos rfl, readVar_eq hvar hi rfl, pure_bind]
    refine Triple.forget (Triple.permanent hperm ?_)
    rw [add_zero]
    apply Triple.post Triple.addref
    rintro r _ ⟨rfl, rfl⟩
    exact ⟨_, _, hperm, rfl, rfl⟩

/-! ### The loop -/

theorem encodeStep_triple (hvar : VarsAre var x n) {i : Nat} (hi : i < n) (hn : n ≤ 32)
    {tmpnode : Handle} {v : Bdd} :
    Triple discipline {(tmpnode, v)} (encodeStep ip var (BitVec.ofNat 8 n) tmpnode i)
      (fun h B => ∃ w, B = {(h, w)} ∧ ∀ env, w.eval env = true ↔
        v.eval env = true ∧ env (x (n - 1 - i)) = ip.getLsbD i) E := by
  unfold encodeStep
  apply Triple.seq {(tmpnode, v)} (by rw [zero_add]) (loopLiteral_triple hvar hi hn)
  rintro tmpnode2 _ rfl
  rw [add_comm]
  apply Triple.seq 0 (by rw [add_zero]) Triple.operate₂
  rintro tmpnode3 _ rfl
  apply Triple.seq _ (by rw [add_zero, add_assoc]) Triple.delref
  rintro - _ rfl
  apply Triple.seq _ (by rw [zero_add]) Triple.delref
  rintro - _ rfl
  refine Triple.pure ⟨_, by rw [zero_add], fun env => ?_⟩
  simp

theorem range'_split {a k b : Nat} {done rest : List Nat}
    (h : List.range' a k = done ++ b :: rest) : b = a + done.length ∧ done.length < k := by
  have hlen := congrArg List.length h
  have hget := congrArg (·[done.length]?) h
  simp only [List.length_range', List.length_append, List.length_cons] at hlen
  simp only [List.getElem?_append_right (le_refl _), Nat.sub_self, List.getElem?_cons_zero] at hget
  rw [List.getElem?_range' (by omega)] at hget
  simp only [Option.some.injEq] at hget
  omega

/-- **`encodePrefix` over any variables**, for a prefix of a length between `1` and the width. -/
theorem encodePrefix_triple_of (hvar : VarsAre var x n) {len : BitVec 8} (hn : n ≤ 32)
    (hpos : 1 ≤ len.toNat) (hlen : len.toNat ≤ n) :
    Triple discipline 0 (encodePrefix ip len var (BitVec.ofNat 8 n))
      (fun h B => ∃ v, B = {(h, v)} ∧ ∀ env, v.eval env = true ↔ TopBitsOf x n ip len.toNat env)
      E := by
  unfold encodePrefix
  simp only [toNat_width hn]
  refine Triple.seq 0 (by rw [add_zero])
    (firstLiteral_triple (i := n - len.toNat) hvar (by omega) hn (by omega)) ?_
  rintro tmpnode _ rfl
  rw [add_zero]
  refine Triple.post (Triple.foldlM (List.range' _ _)
    (fun done h B => ∃ v, B = {(h, v)} ∧ ∀ env, v.eval env = true ↔
      ∀ i, n - len.toNat ≤ i → i ≤ n - len.toNat + done.length →
        env (x (n - 1 - i)) = ip.getLsbD i) ?_ ?_) ?_
  · rintro done b rest h B hsplit ⟨v, rfl, hv⟩
    obtain ⟨hb, hdone⟩ := range'_split hsplit
    apply Triple.post (encodeStep_triple hvar (by omega) hn)
    rintro h' _ ⟨w, rfl, hw⟩
    refine ⟨w, rfl, fun env => (hw env).trans ?_⟩
    rw [hv, List.length_append, List.length_singleton]
    constructor
    · rintro ⟨hall, hlast⟩ i h1 h2
      rcases Nat.lt_or_ge i b with hib | hib
      · exact hall i h1 (by omega)
      · obtain rfl : i = b := by omega
        exact hlast
    · exact fun hall => ⟨fun i h1 h2 => hall i h1 (by omega), hall b (by omega) (by omega)⟩
  · refine ⟨_, rfl, fun env => ?_⟩
    rw [Robdd.eval_literal, beq_iff_eq, List.length_nil, Nat.add_zero]
    constructor
    · intro heq i h1 h2
      obtain rfl : i = n - len.toNat := by omega
      exact heq
    · exact fun hall => hall _ (le_refl _) (le_refl _)
  · rintro h B ⟨v, rfl, hv⟩
    refine ⟨v, rfl, fun env => (hv env).trans ?_⟩
    rw [List.length_range']
    exact forall_congr' fun i => imp_congr_right fun h1 => imp_congr (by omega) Iff.rfl

/-- **`encodePrefix` is exact** on a field. -/
theorem encodePrefix_triple (hvar : VarsAt var off n) {len : BitVec 8} (hn : n ≤ 32)
    (hpos : 1 ≤ len.toNat) (hlen : len.toNat ≤ n) :
    Triple discipline 0 (encodePrefix ip len var (BitVec.ofNat 8 n))
      (fun h B => ∃ v, B = {(h, v)} ∧ ∀ env, v.eval env = true ↔ TopBits off n ip len.toNat env)
      E := encodePrefix_triple_of hvar.are hn hpos hlen

theorem encodePrefix_shift {len : BitVec 8} (hn : n ≤ 32) (hlen : n < len.toNat) :
    encodePrefix ip len var (BitVec.ofNat 8 n) = throw (.client .shift) := by
  unfold encodePrefix firstLiteral bitTest
  simp only [toNat_width hn]
  rw [if_neg (by omega)]
  rfl

/-- **The field wrapper**: the predicate of the prefix, unless it is longer than the field. -/
theorem encodeField_triple (hvar : VarsAt var off n) (hn : n ≤ 32) (ip : BitVec 32)
    (len : BitVec 8) :
    Triple discipline 0 (encodeField var n ip len)
      (fun h B => len.toNat ≤ n ∧ ∃ v, B = {(h, v)} ∧
        ∀ env, v.eval env = true ↔ TopBits off n ip len.toNat env)
      (fun e => e = .shift ∧ n < len.toNat) := by
  unfold encodeField
  by_cases h0 : len = 0
  · subst h0
    rw [if_neg (by simp)]
    refine Triple.permanent mem_permanent_true (Triple.pure ⟨by simp, _, by rw [add_zero], ?_⟩)
    intro env
    simp only [Robdd.eval_const, true_iff]
    intro i h1 h2
    simp at h1
    omega
  · rw [if_pos h0]
    have hpos : 1 ≤ len.toNat := by
      rcases Nat.eq_zero_or_pos len.toNat with h | h
      · exact absurd (BitVec.eq_of_toNat_eq (y := 0#8) (by simpa using h)) h0
      · exact h
    by_cases hlen : len.toNat ≤ n
    · exact Triple.post (encodePrefix_triple hvar hn hpos hlen) fun h B hB => ⟨hlen, hB⟩
    · rw [encodePrefix_shift hn (by omega)]
      exact Triple.throw ⟨rfl, by omega⟩

end

end AtomicPredicate
