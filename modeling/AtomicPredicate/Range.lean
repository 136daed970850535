import AtomicPredicate.Encode
import AtomicPredicate.Lib.Dyadic

/-!
# Port ranges as prefixes

`ctz`, `DRPC` and the loop of `converACLRule` that calls it. The loop writes into a buffer with
`room` free slots and faults when it would write past the last one; an unbounded buffer is one with
room enough.

Unless a block of the range can end at `2 ^ 32` (`Wraps`) nothing wraps, and `drpc` picks the largest
aligned block that fits (`drpc_eq`): the loop emits the greedy cover of the range, and it overruns
exactly when that cover has more blocks than there is room (`drpcLoop_greedy`).
-/

namespace AtomicPredicate

open Lib

/-! ### The code -/

/-- One batch of `ctz`: if the `k` low bits under `mask` are zero, count and drop them. -/
def ctzBatch (mask : BitVec 32) (k : Nat) (p : BitVec 8 × BitVec 32) : BitVec 8 × BitVec 32 :=
  if p.2 &&& mask = 0 then (p.1 + BitVec.ofNat 8 k, p.2 >>> k) else p

def ctz (n : BitVec 32) : BitVec 32 :=
  if n ≠ 0 then
    let p := ctzBatch 0x0000FFFF#32 16 (0, n)
    let p := ctzBatch 0x000000FF#32 8 p
    let p := ctzBatch 0x0000000F#32 4 p
    let p := ctzBatch 0x00000003#32 2 p
    (p.1 + ((p.2 &&& 1) ^^^ 1).setWidth 8).setWidth 32
  else 0

/-- `while (l + (1 << zeros) > u + 1) zeros--`. Going below zero makes the shift count wrap. -/
def shrink (l u : BitVec 32) : Nat → Except CFault Nat
  | 0 => if l + (1#32 <<< 0) > u + 1 then .error .shift else .ok 0
  | zeros + 1 =>
    if l + (1#32 <<< (zeros + 1)) > u + 1 then shrink l u zeros else .ok (zeros + 1)

/-- The next `l`, and the prefix and length written to the buffer. -/
def drpc (l u bits : BitVec 32) : Except CFault (BitVec 32 × (BitVec 32 × BitVec 8)) :=
  let zeros := ctz l
  if zeros = 0 then .ok (l + 1, (l, bits.setWidth 8))
  else do
    let zeros ← shrink l u zeros.toNat
    return (l + (1#32 <<< zeros), (l, (bits - BitVec.ofNat 32 zeros).setWidth 8))

/-- `while (l <= u) l = DRPC(l, u, bits, &r)`, with `room` slots of `r` left. -/
def drpcLoop (u bits : BitVec 32) :
    Nat → BitVec 32 → List (BitVec 32 × BitVec 8) → Except CFault (List (BitVec 32 × BitVec 8))
  | room, l, r =>
    if l ≤ u then do
      let (l', p) ← drpc l u bits
      match room with
      | 0 => .error .index
      | room + 1 => drpcLoop u bits room l' (r ++ [p])
    else .ok r

def rangeSlots : Nat := 30

/-- The disjunction of the prefixes of a range. The buffer starts zeroed, so the first prefix of an
empty range is `0` with length `0`. -/
def encodeRange (encode : BitVec 32 → BitVec 8 → BddM Handle) (r : List (BitVec 32 × BitVec 8)) :
    BddM Handle := do
  let p := r.headD (0, 0)
  let tmpnode ← encode p.1 p.2
  r.tail.foldlM (fun tmpnode p => do
    let tmpnode2 ← encode p.1 p.2
    let tmpnode3 ← bddApply tmpnode tmpnode2 .or >>= bddAddref
    bddDelref tmpnode
    bddDelref tmpnode2
    return tmpnode3) tmpnode

/-! ### Counting trailing zeros -/

/-- `bits` zeros have been dropped from `n`, and fewer than `k` are left. -/
structure CtzInv (n k : Nat) (p : BitVec 8 × BitVec 32) : Prop where
  bound : p.1.toNat + k ≤ 32
  eq : n = p.2.toNat * 2 ^ p.1.toNat
  odd : ¬ 2 ^ k ∣ p.2.toNat

theorem and_mask_eq_zero (x : BitVec 32) {mask : BitVec 32} {k : Nat}
    (hmask : mask.toNat = 2 ^ k - 1) : x &&& mask = 0 ↔ 2 ^ k ∣ x.toNat := by
  rw [← BitVec.toNat_inj, BitVec.toNat_and, hmask, Nat.and_two_pow_sub_one_eq_mod]
  exact (Nat.dvd_iff_mod_eq_zero).symm

theorem ctzBatch_inv {n k : Nat} (mask : BitVec 32) {p : BitVec 8 × BitVec 32}
    (hmask : mask.toNat = 2 ^ k - 1) (hp : CtzInv n (k + k) p) :
    CtzInv n k (ctzBatch mask k p) := by
  obtain ⟨hbound, heq, hodd⟩ := hp
  unfold ctzBatch
  by_cases hdvd : 2 ^ k ∣ p.2.toNat
  · rw [if_pos ((and_mask_eq_zero p.2 hmask).mpr hdvd)]
    have hbits : (p.1 + BitVec.ofNat 8 k).toNat = p.1.toNat + k := by
      rw [BitVec.toNat_add, BitVec.toNat_ofNat]
      omega
    obtain ⟨x, hx⟩ := hdvd
    have hshift : (p.2 >>> k).toNat = x := by
      rw [BitVec.toNat_ushiftRight, Nat.shiftRight_eq_div_pow, hx,
        Nat.mul_div_cancel_left _ (Nat.two_pow_pos k)]
    refine ⟨by rw [hbits]; omega, ?_, ?_⟩
    · rw [hbits, hshift, heq, hx, Nat.pow_add]
      ring
    · rw [hshift]
      rintro ⟨y, rfl⟩
      exact hodd ⟨y, by rw [hx, Nat.pow_add]; ring⟩
  · rw [if_neg fun h => hdvd ((and_mask_eq_zero p.2 hmask).mp h)]
    exact ⟨by omega, heq, hdvd⟩

theorem ctz_last {n : Nat} {p : BitVec 8 × BitVec 32} (hp : CtzInv n 2 p) :
    ∃ x, n = x * 2 ^ (p.1 + ((p.2 &&& 1) ^^^ 1).setWidth 8).toNat ∧ ¬ 2 ∣ x ∧
      (p.1 + ((p.2 &&& 1) ^^^ 1).setWidth 8).toNat < 32 := by
  obtain ⟨hbound, heq, hodd⟩ := hp
  have hand : (p.2 &&& 1).toNat = p.2.toNat % 2 := by
    rw [BitVec.toNat_and]
    exact Nat.and_two_pow_sub_one_eq_mod p.2.toNat 1
  rcases Nat.mod_two_eq_zero_or_one p.2.toNat with hmod | hmod
  · have hlow : p.2 &&& 1 = 0 := BitVec.eq_of_toNat_eq (by simpa [hand] using hmod)
    have hbits : (p.1 + ((p.2 &&& 1) ^^^ 1).setWidth 8).toNat = p.1.toNat + 1 := by
      rw [hlow, BitVec.toNat_add]
      simp
      omega
    refine ⟨p.2.toNat / 2, ?_, by omega, by omega⟩
    rw [hbits, heq, pow_succ, ← Nat.div_add_mod p.2.toNat 2, hmod]
    rw [Nat.add_zero, Nat.mul_div_cancel_left _ (by norm_num)]
    ring
  · have hlow : p.2 &&& 1 = 1 := BitVec.eq_of_toNat_eq (by simpa [hand] using hmod)
    have hbits : (p.1 + ((p.2 &&& 1) ^^^ 1).setWidth 8).toNat = p.1.toNat := by
      rw [hlow]
      simp
    exact ⟨p.2.toNat, by rw [hbits]; exact heq, by omega, by omega⟩

theorem ctz_zero : ctz 0 = 0 := rfl

theorem ctz_spec {n : BitVec 32} (hn : n ≠ 0) :
    2 ^ (ctz n).toNat ∣ n.toNat ∧ ¬ 2 ^ ((ctz n).toNat + 1) ∣ n.toNat ∧ (ctz n).toNat < 32 := by
  have hpos : 0 < n.toNat := Nat.pos_of_ne_zero fun h => hn (BitVec.eq_of_toNat_eq h)
  have h32 : CtzInv n.toNat (16 + 16) (0, n) :=
    ⟨by simp, by simp, fun h => absurd (Nat.le_of_dvd hpos h) (by have := n.isLt; omega)⟩
  have h16 := ctzBatch_inv (k := 16) 0x0000FFFF#32 rfl h32
  have h8 := ctzBatch_inv (k := 8) 0x000000FF#32 rfl h16
  have h4 := ctzBatch_inv (k := 4) 0x0000000F#32 rfl h8
  have h2 := ctzBatch_inv (k := 2) 0x00000003#32 rfl h4
  obtain ⟨x, hx, hodd, hlt⟩ := ctz_last h2
  have hctz : (ctz n).toNat = ((ctzBatch 0x00000003#32 2 (ctzBatch 0x0000000F#32 4
      (ctzBatch 0x000000FF#32 8 (ctzBatch 0x0000FFFF#32 16 (0, n))))).1 +
        (((ctzBatch 0x00000003#32 2 (ctzBatch 0x0000000F#32 4
      (ctzBatch 0x000000FF#32 8 (ctzBatch 0x0000FFFF#32 16 (0, n))))).2 &&& 1) ^^^ 1).setWidth 8).toNat := by
    rw [ctz, if_pos hn, BitVec.toNat_setWidth, Nat.mod_eq_of_lt]
    exact lt_trans hlt (by norm_num)
  rw [← hctz] at hx hlt
  refine ⟨⟨x, by rw [hx]; ring⟩, ?_, hlt⟩
  rw [hx, pow_succ, mul_comm x, Nat.mul_dvd_mul_iff_left (Nat.two_pow_pos _)]
  exact hodd

/-! ### One call -/

theorem toNat_one_shiftLeft {z : Nat} (hz : z < 32) : (1#32 <<< z).toNat = 2 ^ z := by
  rw [BitVec.toNat_shiftLeft, Nat.shiftLeft_eq, BitVec.toNat_ofNat]
  rw [Nat.mod_eq_of_lt]
  · norm_num
  · have := Nat.pow_lt_pow_right (a := 2) (by norm_num) hz
    norm_num at this ⊢
    exact this

theorem toNat_add_shiftLeft {l : BitVec 32} {z : Nat} (hz : z < 32)
    (hlz : l.toNat + 2 ^ z < 2 ^ 32) : (l + (1#32 <<< z)).toNat = l.toNat + 2 ^ z := by
  rw [BitVec.toNat_add, toNat_one_shiftLeft hz, Nat.mod_eq_of_lt hlz]

theorem shrink_spec {l u : BitVec 32} (hle : l ≤ u) (hu : u.toNat + 1 < 2 ^ 32) {zeros : Nat}
    (hz : zeros < 32) (hlz : l.toNat + 2 ^ zeros < 2 ^ 32) :
    ∃ z, shrink l u zeros = .ok z ∧ z ≤ zeros ∧ l.toNat + 2 ^ z ≤ u.toNat + 1 ∧
      (z < zeros → u.toNat + 1 < l.toNat + 2 ^ (z + 1)) := by
  have hu1 : (u + 1).toNat = u.toNat + 1 := by
    rw [BitVec.toNat_add]
    simp
    omega
  have hlu : l.toNat ≤ u.toNat := hle
  induction zeros with
  | zero =>
    refine ⟨0, ?_, le_refl _, by simpa using hlu, fun h => absurd h (lt_irrefl 0)⟩
    rw [shrink, if_neg]
    rw [gt_iff_lt, BitVec.lt_def, hu1, toNat_add_shiftLeft (by norm_num) hlz]
    simpa using hlu
  | succ zeros ih =>
    rw [shrink]
    by_cases hcut : l + (1#32 <<< (zeros + 1)) > u + 1
    · rw [if_pos hcut]
      rw [gt_iff_lt, BitVec.lt_def, hu1, toNat_add_shiftLeft hz hlz] at hcut
      have hlt : 2 ^ zeros < 2 ^ (zeros + 1) := Nat.pow_lt_pow_right (by norm_num) (by omega)
      obtain ⟨z, hrun, hzz, hfit, hmax⟩ := ih (by omega) (by omega)
      refine ⟨z, hrun, by omega, hfit, fun _ => ?_⟩
      rcases Nat.lt_or_ge z zeros with h | h
      · exact hmax h
      · obtain rfl : z = zeros := by omega
        exact hcut
    · rw [if_neg hcut]
      rw [gt_iff_lt, BitVec.lt_def, hu1, toNat_add_shiftLeft hz hlz] at hcut
      exact ⟨zeros + 1, rfl, le_refl _, by omega, fun h => absurd h (lt_irrefl _)⟩

/-- The prefix and length that a block is emitted as. -/
def blockPrefix (bits : BitVec 32) (b : Block) : BitVec 32 × BitVec 8 :=
  (BitVec.ofNat 32 b.start, (bits - BitVec.ofNat 32 b.exp).setWidth 8)

theorem drpc_eq {l u : BitVec 32} (bits : BitVec 32) (hle : l ≤ u) (hu : u.toNat + 1 < 2 ^ 32)
    (hlz : l.toNat + 2 ^ (ctz l).toNat < 2 ^ 32) :
    ∃ z l', drpc l u bits = .ok (l', blockPrefix bits ⟨l.toNat, z⟩) ∧ l'.toNat = l.toNat + 2 ^ z ∧
      (l.toNat = 0 → z = 0) ∧ (0 < l.toNat → Fits l.toNat (u.toNat + 1) z) := by
  have hlu : l.toNat ≤ u.toNat := hle
  have hstart : BitVec.ofNat 32 l.toNat = l := BitVec.eq_of_toNat_eq (by simp)
  by_cases hzero : ctz l = 0
  · refine ⟨0, l + 1, ?_, ?_, fun _ => rfl, fun hpos => ?_⟩
    · rw [drpc, if_pos hzero, blockPrefix, hstart]
      simp
    · rw [BitVec.toNat_add]
      simp
      omega
    · have hl : l ≠ 0 := by
        rintro rfl
        simp at hpos
      obtain ⟨-, hodd, -⟩ := ctz_spec hl
      rw [hzero] at hodd
      exact ⟨one_dvd _, by simpa using hlu, fun h => absurd h hodd⟩
  · have hl : l ≠ 0 := by
      rintro rfl
      exact hzero ctz_zero
    have hpos : 0 < l.toNat := Nat.pos_of_ne_zero fun h => hl (BitVec.eq_of_toNat_eq h)
    obtain ⟨hdvd, hodd, hlt⟩ := ctz_spec hl
    obtain ⟨z, hrun, hz, hfit, hmax⟩ := shrink_spec hle hu hlt hlz
    refine ⟨z, l + (1#32 <<< z), ?_, ?_, fun h => absurd h hpos.ne', fun _ => ?_⟩
    · rw [drpc, if_neg hzero, hrun, blockPrefix, hstart]
      rfl
    · exact toNat_add_shiftLeft (by omega) (by omega)
    · refine ⟨(pow_dvd_pow 2 hz).trans hdvd, hfit, fun hd => hmax ?_⟩
      rcases Nat.lt_or_eq_of_le hz with h | rfl
      · exact h
      · exact absurd hd hodd

/-! ### The loop -/

/-- The range holds the start of a block that can reach up to `2 ^ 32`. -/
def Wraps (l u : BitVec 32) : Prop :=
  ∃ k < 32, l.toNat ≤ 2 ^ 32 - 2 ^ k ∧ 2 ^ 32 - 2 ^ k ≤ u.toNat

theorem not_wraps {l u : BitVec 32} (hu : u.toNat < 2 ^ 31) : ¬ Wraps l u := by
  rintro ⟨k, hk, -, hle⟩
  have hpow : (2 : Nat) ^ k ≤ 2 ^ 31 := Nat.pow_le_pow_right (by norm_num) (by omega)
  omega

theorem add_pow_le {n z : Nat} (hz : z ≤ 32) (hn : n < 2 ^ 32) (hdvd : 2 ^ z ∣ n) :
    n + 2 ^ z ≤ 2 ^ 32 := by
  obtain ⟨j, rfl⟩ := hdvd
  obtain ⟨i, hi⟩ : 2 ^ z ∣ 2 ^ 32 := pow_dvd_pow 2 hz
  rw [hi] at hn ⊢
  rw [← Nat.mul_succ]
  exact Nat.mul_le_mul_left _ (Nat.lt_of_mul_lt_mul_left hn)

theorem ctz_dvd (l : BitVec 32) : 2 ^ (ctz l).toNat ∣ l.toNat ∧ (ctz l).toNat < 32 := by
  by_cases hl : l = 0
  · subst hl
    exact ⟨dvd_zero _, by decide⟩
  · obtain ⟨hdvd, -, hlt⟩ := ctz_spec hl
    exact ⟨hdvd, hlt⟩

theorem add_ctz_lt {l u : BitVec 32} (hle : l ≤ u) (hwrap : ¬ Wraps l u) :
    u.toNat + 1 < 2 ^ 32 ∧ l.toNat + 2 ^ (ctz l).toNat < 2 ^ 32 := by
  have hlu : l.toNat ≤ u.toNat := hle
  obtain ⟨hdvd, hlt⟩ := ctz_dvd l
  have hfit := add_pow_le hlt.le l.isLt hdvd
  constructor
  · by_contra hu
    exact hwrap ⟨0, by norm_num, by have := l.isLt; omega, by omega⟩
  · by_contra hl
    exact hwrap ⟨(ctz l).toNat, hlt, by omega, by omega⟩

theorem Wraps.mono {l l' u : BitVec 32} (hle : l ≤ l') (h : Wraps l' u) : Wraps l u := by
  obtain ⟨k, hk, hl, hu⟩ := h
  exact ⟨k, hk, le_trans hle hl, hu⟩

/-- **The loop of `converACLRule`** emits the greedy cover of `[l, u]`, if there is room for it. -/
theorem drpcLoop_greedy {u : BitVec 32} (bits : BitVec 32) (l : BitVec 32) (hwrap : ¬ Wraps l u) :
    ∃ bs, Greedy (u.toNat + 1) l.toNat bs ∧ ∀ room r, drpcLoop u bits room l r =
      if bs.length ≤ room then .ok (r ++ bs.map (blockPrefix bits)) else .error .index := by
  induction hd : u.toNat + 1 - l.toNat using Nat.strong_induction_on generalizing l with
  | _ d ih =>
    subst hd
    by_cases hle : l ≤ u
    · have hlu : l.toNat ≤ u.toNat := hle
      obtain ⟨hu, hlz⟩ := add_ctz_lt hle hwrap
      obtain ⟨z, l', hrun, hl', hz0, hfit⟩ := drpc_eq bits hle hu hlz
      have hsize := Nat.two_pow_pos z
      have hmono : l ≤ l' := (by omega : l.toNat ≤ l'.toNat)
      obtain ⟨bs, hg, hbs⟩ := ih _ (by omega) l' (fun h => hwrap (h.mono hmono)) rfl
      refine ⟨⟨l.toNat, z⟩ :: bs, ?_, fun room r => ?_⟩
      · rcases Nat.eq_zero_or_pos l.toNat with h0 | hpos
        · rw [hl', h0, hz0 h0] at hg
          rw [h0, hz0 h0]
          exact Greedy.zero (by omega) hg
        · exact Greedy.step hpos (hfit hpos) (hl' ▸ hg)
      · rw [drpcLoop, if_pos hle, hrun]
        cases room with
        | zero => rfl
        | succ room =>
          show drpcLoop u bits room l' _ = _
          rw [hbs]
          simp [List.append_assoc]
    · have hlt : u.toNat < l.toNat := not_le.mp hle
      refine ⟨[], Greedy.done hlt, fun room r => ?_⟩
      rw [drpcLoop, if_neg hle]
      simp

theorem drpcLoop_eq {u : BitVec 32} (bits : BitVec 32) (hu : u.toNat < 2 ^ 31) (l : BitVec 32) :
    ∃ bs, Greedy (u.toNat + 1) l.toNat bs ∧ ∀ room r, drpcLoop u bits room l r =
      if bs.length ≤ room then .ok (r ++ bs.map (blockPrefix bits)) else .error .index :=
  drpcLoop_greedy bits l (not_wraps hu)

/-! ### What the prefixes accept -/

/-- The number of values of a prefix of a `bits`-wide field. -/
def prefixSize (bits : Nat) (p : BitVec 32 × BitVec 8) : Nat := 2 ^ (bits - p.2.toNat)

/-- The prefixes `encodeRange` reads from the buffer. -/
def rangePrefixes (r : List (BitVec 32 × BitVec 8)) : List (BitVec 32 × BitVec 8) :=
  r.headD (0, 0) :: r.tail

theorem rangePrefixes_of_ne_nil {r : List (BitVec 32 × BitVec 8)} (hr : r ≠ []) :
    rangePrefixes r = r := by
  cases r with
  | nil => exact absurd rfl hr
  | cons p r => rfl

section

variable {var : List Handle} {off n : Nat}

/-- **The loop over the prefixes** returns their disjunction, unless one is longer than the field. -/
theorem encodeRange_triple (hvar : VarsAt var off n) (hn : n ≤ 32)
    (r : List (BitVec 32 × BitVec 8)) :
    Triple discipline 0 (encodeRange (encodeField var n) r)
      (fun h B => (∀ p ∈ rangePrefixes r, p.2.toNat ≤ n) ∧ ∃ v, B = {(h, v)} ∧
        ∀ env, v.eval env = true ↔ ∃ p ∈ rangePrefixes r, TopBits off n p.1 p.2.toNat env)
      (fun e => e = .shift ∧ ∃ p ∈ rangePrefixes r, n < p.2.toNat) := by
  unfold encodeRange rangePrefixes
  dsimp only
  generalize r.headD (0, 0) = p₀
  refine Triple.seq 0 (by rw [add_zero]) (Triple.conseq rfl (encodeField_triple hvar hn p₀.1 p₀.2)
    (fun _ _ h => h) fun e he => ⟨he.1, p₀, by simp, he.2⟩) ?_
  rintro tmpnode B ⟨hlen, v, rfl, hv⟩
  rw [add_zero]
  refine Triple.post (Triple.foldlM r.tail (fun done h B =>
    (∀ p ∈ p₀ :: done, p.2.toNat ≤ n) ∧ ∃ v, B = {(h, v)} ∧
      ∀ env, v.eval env = true ↔ ∃ p ∈ p₀ :: done, TopBits off n p.1 p.2.toNat env) ?_ ?_)
    fun _ _ h => h
  · rintro done p rest tmpnode _ hsplit ⟨hdone, w, rfl, hw⟩
    refine Triple.seq {(tmpnode, w)} (by rw [zero_add]) (Triple.conseq rfl
      (encodeField_triple hvar hn p.1 p.2) (fun _ _ h => h)
      fun e he => ⟨he.1, p, by simp [hsplit], he.2⟩) ?_
    rintro tmpnode2 _ ⟨hp, w2, rfl, hw2⟩
    rw [add_comm]
    apply Triple.seq 0 (by rw [add_zero]) Triple.operate₂
    rintro tmpnode3 _ rfl
    apply Triple.seq _ (by rw [add_zero, add_assoc]) Triple.delref
    rintro - _ rfl
    apply Triple.seq _ (by rw [zero_add]) Triple.delref
    rintro - _ rfl
    refine Triple.pure ⟨?_, _, by rw [zero_add], fun env => ?_⟩
    · intro q hq
      rw [← List.cons_append, List.mem_append, List.mem_singleton] at hq
      rcases hq with hq | rfl
      · exact hdone q hq
      · exact hp
    · rw [BddOp.eval_or, Bool.or_eq_true, hw, hw2]
      simp only [← List.cons_append, List.mem_append, List.mem_singleton, or_and_right, exists_or,
        exists_eq_left]
  · refine ⟨by simpa using hlen, v, rfl, fun env => ?_⟩
    rw [hv]
    simp

theorem topBits_block {v : BitVec n} {env : Nat → Bool} (hv : FieldAt off v env) {ip : BitVec 32}
    {len : Nat} (hdvd : 2 ^ (n - len) ∣ ip.toNat) (hfit : ip.toNat + 2 ^ (n - len) ≤ 2 ^ n) :
    TopBits off n ip len env ↔ ip.toNat ≤ v.toNat ∧ v.toNat < ip.toNat + 2 ^ (n - len) := by
  have hpos := Nat.two_pow_pos (n - len)
  rw [topBits_iff hv, Nat.mod_eq_of_lt (by omega)]
  obtain ⟨x, hx⟩ := hdvd
  rw [hx, Nat.mul_div_cancel_left _ hpos, Nat.div_eq_iff hpos, mul_comm x]
  omega

end

/-! ### Exactness -/

section

variable {bits l u : BitVec 32} {bs : List Block}

theorem blockPrefix_of_bounds (hbits : bits.toNat < 32) {b : Block} (hb : b.stop ≤ 2 ^ bits.toNat) :
    b.exp ≤ bits.toNat ∧ (blockPrefix bits b).1.toNat = b.start ∧
      (blockPrefix bits b).2.toNat = bits.toNat - b.exp ∧
      prefixSize bits.toNat (blockPrefix bits b) = 2 ^ b.exp := by
  have hsize := Nat.two_pow_pos b.exp
  have hpow : (2 : Nat) ^ bits.toNat < 2 ^ 32 := Nat.pow_lt_pow_right (by norm_num) hbits
  unfold Block.stop at hb
  have hexp : b.exp ≤ bits.toNat := by
    by_contra hlt
    have := Nat.pow_lt_pow_right (a := 2) (by norm_num) (not_le.mp hlt)
    omega
  have hlen : (blockPrefix bits b).2.toNat = bits.toNat - b.exp := by
    simp only [blockPrefix, BitVec.toNat_setWidth, BitVec.toNat_sub, BitVec.toNat_ofNat]
    omega
  refine ⟨hexp, ?_, hlen, ?_⟩
  · rw [blockPrefix, BitVec.toNat_ofNat, Nat.mod_eq_of_lt (by omega)]
  · rw [prefixSize, hlen, Nat.sub_sub_self hexp]

/-- The prefixes are aligned blocks of a `bits`-wide field that follow one another, in increasing
order and without a gap, and cover exactly `[l, u]`. -/
structure Covers (bits l u : Nat) (r : List (BitVec 32 × BitVec 8)) : Prop where
  len_le : ∀ p ∈ r, p.2.toNat ≤ bits
  aligned : ∀ p ∈ r, prefixSize bits p ∣ p.1.toNat
  pairwise : r.Pairwise fun p q => p.1.toNat + prefixSize bits p ≤ q.1.toNat
  contiguous : ∀ i p q, r[i]? = some p → r[i + 1]? = some q →
    q.1.toNat = p.1.toNat + prefixSize bits p
  mem_iff : ∀ x, (∃ p ∈ r, p.1.toNat ≤ x ∧ x ≤ p.1.toNat + prefixSize bits p - 1) ↔
    l ≤ x ∧ x ≤ u

theorem covers_of_tiles (bits : BitVec 32) (hbits : bits.toNat < 32) (hu : u.toNat < 2 ^ bits.toNat)
    (ht : Tiles l.toNat (u.toNat + 1) bs) :
    Covers bits.toNat l.toNat u.toNat (bs.map (blockPrefix bits)) := by
  have hb : ∀ b ∈ bs, b.exp ≤ bits.toNat ∧ (blockPrefix bits b).1.toNat = b.start ∧
      (blockPrefix bits b).2.toNat = bits.toNat - b.exp ∧
      prefixSize bits.toNat (blockPrefix bits b) = 2 ^ b.exp := by
    intro b hmem
    have := (ht.bounds b hmem).2
    exact blockPrefix_of_bounds hbits (by omega)
  refine ⟨?_, ?_, ?_, ?_, fun x => ?_⟩
  · simp only [List.mem_map]
    rintro _ ⟨b, hmem, rfl⟩
    rw [(hb b hmem).2.2.1]
    omega
  · simp only [List.mem_map]
    rintro _ ⟨b, hmem, rfl⟩
    obtain ⟨-, hstart, -, hsize⟩ := hb b hmem
    rw [hstart, hsize]
    exact ht.aligned b hmem
  · rw [List.pairwise_map]
    refine ht.pairwise.imp_of_mem fun {b b'} hmem hmem' hle => ?_
    obtain ⟨-, hstart, -, hsize⟩ := hb b hmem
    rw [hstart, hsize, (hb b' hmem').2.1]
    exact hle
  · intro i p q hp hq
    rw [List.getElem?_map, Option.map_eq_some_iff] at hp hq
    obtain ⟨b, hp, rfl⟩ := hp
    obtain ⟨b', hq, rfl⟩ := hq
    obtain ⟨-, hstart, -, hsize⟩ := hb b (List.mem_of_getElem? hp)
    rw [hstart, hsize, (hb b' (List.mem_of_getElem? hq)).2.1]
    exact ht.contiguous hp hq
  · rw [← Nat.lt_succ_iff (n := u.toNat), ← ht.mem_iff x]
    simp only [List.mem_map, exists_exists_and_eq_and]
    refine exists_congr fun b => and_congr_right fun hmem => ?_
    obtain ⟨-, hstart, -, hsize⟩ := hb b hmem
    have := Nat.two_pow_pos b.exp
    rw [hstart, hsize, Block.stop]
    omega

theorem Covers.len_pos {r : List (BitVec 32 × BitVec 8)} (hr : Covers bits.toNat l.toNat u.toNat r)
    (hu : u.toNat < 2 ^ bits.toNat) (hfull : ¬ (l.toNat = 0 ∧ u.toNat = 2 ^ bits.toNat - 1)) :
    ∀ p ∈ r, 1 ≤ p.2.toNat := by
  intro p hp
  by_contra h0
  have hsize : prefixSize bits.toNat p = 2 ^ bits.toNat := by
    rw [prefixSize, Nat.lt_one_iff.mp (not_le.mp h0), Nat.sub_zero]
  have hfirst := (hr.mem_iff p.1.toNat).mp ⟨p, hp, le_refl _, by omega⟩
  have hlast := (hr.mem_iff (p.1.toNat + prefixSize bits.toNat p - 1)).mp
    ⟨p, hp, by omega, le_refl _⟩
  omega

theorem Covers.ne_nil {n : Nat} {r : List (BitVec 32 × BitVec 8)}
    (hr : Covers n l.toNat u.toNat r) (hle : l ≤ u) : r ≠ [] := by
  rintro rfl
  have := (hr.mem_iff l.toNat).mpr ⟨le_refl _, hle⟩
  simp at this

theorem Covers.topBits_iff {n off : Nat} {v : BitVec n} {env : Nat → Bool}
    {r : List (BitVec 32 × BitVec 8)} (hr : Covers n l.toNat u.toNat r) (hu : u.toNat < 2 ^ n)
    (hv : FieldAt off v env) :
    (∃ p ∈ r, TopBits off n p.1 p.2.toNat env) ↔ l.toNat ≤ v.toNat ∧ v.toNat ≤ u.toNat := by
  rw [← hr.mem_iff]
  refine exists_congr fun p => and_congr_right fun hp => ?_
  have hpos : 0 < prefixSize n p := Nat.two_pow_pos _
  have hlast := (hr.mem_iff (p.1.toNat + prefixSize n p - 1)).mp ⟨p, hp, by omega, le_refl _⟩
  rw [topBits_block hv (hr.aligned p hp) (by unfold prefixSize at hlast hpos; omega)]
  unfold prefixSize at hpos ⊢
  omega

end

/-- **The loop covers a range exactly**, with room enough. At the width of a port, and unless the
range is the whole field, no prefix is empty and their disjunction is the range of source ports. -/
theorem drpcLoop_covers {bits l u : BitVec 32} (hbits : bits.toNat ≤ 31) (hle : l ≤ u)
    (hu : u.toNat < 2 ^ bits.toNat) :
    ∃ r, (∃ enough, ∀ room, enough ≤ room → drpcLoop u bits room l [] = .ok r) ∧
      Covers bits.toNat l.toNat u.toNat r ∧
      (bits.toNat = portBits → ¬ (l.toNat = 0 ∧ u.toNat = 65535) →
        (∀ p ∈ r, 1 ≤ p.2.toNat ∧ p.2.toNat ≤ 16) ∧
        ∀ σ : Session, ∃ h s', encodeRange encodeSrcPortPrefix r σ.store = .ok (h, s') ∧
          ∀ p : Packet, Satisfies s' h p ↔ l.toNat ≤ p.sport.toNat ∧ p.sport.toNat ≤ u.toNat) := by
  have hpow : (2 : Nat) ^ bits.toNat ≤ 2 ^ 31 := Nat.pow_le_pow_right (by norm_num) hbits
  obtain ⟨bs, hg, hrun⟩ := drpcLoop_eq (u := u) bits (by omega) l
  have hcov := covers_of_tiles bits (by omega) hu (hg.tiles (Nat.le_succ_of_le hle))
  refine ⟨bs.map (blockPrefix bits), ⟨bs.length, fun room hroom => ?_⟩, hcov, ?_⟩
  · rw [hrun, if_pos hroom, List.nil_append]
  · intro hport hfull
    have h16 : bits.toNat = 16 := hport
    have hpos := hcov.len_pos hu (by rw [h16]; exact hfull)
    refine ⟨fun p hp => ⟨hpos p hp, h16 ▸ hcov.len_le p hp⟩, fun σ => ?_⟩
    have hrun' := run_session (encodeRange_triple varsAt_srcPort (by norm_num)
      (bs.map (blockPrefix bits))) σ
    rw [rangePrefixes_of_ne_nil (hcov.ne_nil hle)] at hrun'
    rw [h16] at hcov hu
    rcases hrun' with ⟨h, s', _, hok, ⟨-, v, rfl, hv⟩, hval, -⟩ | ⟨e, -, -, p, hp, hlen⟩
    · refine ⟨h, s', hok, fun p => ?_⟩
      rw [Satisfies, evalHandle_eq (hval (h, v) (Multiset.mem_singleton_self _)), hv,
        hcov.topBits_iff hu (fieldAt_sport p)]
    · have := hcov.len_le p hp
      omega

/-- The range `80..443`, which the loop cuts into blocks of six sizes. -/
theorem drpcLoop_covers_web :
    ∃ r, (∃ enough, ∀ room, enough ≤ room → drpcLoop 443#32 16#32 room 80#32 [] = .ok r) ∧
      Covers 16 80 443 r ∧ ∀ σ : Session, ∃ h s',
        encodeRange encodeSrcPortPrefix r σ.store = .ok (h, s') ∧
          ∀ p : Packet, Satisfies s' h p ↔ 80 ≤ p.sport.toNat ∧ p.sport.toNat ≤ 443 := by
  obtain ⟨r, hrun, hcov, hport⟩ :=
    @drpcLoop_covers 16#32 80#32 443#32 (by decide) (by decide) (by decide)
  exact ⟨r, hrun, hcov, (hport rfl (by decide)).2⟩

end AtomicPredicate
