import Mathlib.Algebra.Order.Ring.Nat
import Mathlib.Data.LawfulXor.Basic
import Mathlib.Data.Nat.BitIndices
import Mathlib.Tactic.NormNum
import Mathlib.Tactic.Ring

/-!
# Covering an interval by aligned blocks

A block is `[start, start + 2 ^ exp)`, aligned when its size divides its start. `Tiles l e bs` says
that aligned blocks follow one another from `l` to `e`. `Greedy e l bs` is the greedy cover of
`[l, e)`: at a nonzero position the largest aligned block that fits (`Fits`), at zero a block of one
point.

A greedy cover is a tiling (`Greedy.tiles`), and below `2 ^ w` it has at most `2 * (w - 1)` blocks
(`Greedy.length_le`): while blocks are not cut short their exponents grow, and from the first block
that is cut short on they shrink. The exceptions start at zero and reach the last or the last but
one point below `2 ^ w`; the latter has one block more (`Greedy.length_le_iff`).

The two runs of exponents meet at the `summit`, and the blocks of each are the binary ones of its
length (`Greedy.length_eq`).
-/

namespace AtomicPredicate.Lib

structure Block where
  start : Nat
  exp : Nat
  deriving DecidableEq, Repr

namespace Block

def stop (b : Block) : Nat := b.start + 2 ^ b.exp

def Aligned (b : Block) : Prop := 2 ^ b.exp ∣ b.start

end Block

def Tiles : Nat → Nat → List Block → Prop
  | l, e, [] => l = e
  | l, e, b :: bs => b.start = l ∧ b.Aligned ∧ Tiles b.stop e bs

namespace Tiles

variable {l e : Nat} {bs : List Block}

theorem le (h : Tiles l e bs) : l ≤ e := by
  induction bs generalizing l with
  | nil => exact Nat.le_of_eq h
  | cons b bs ih =>
    obtain ⟨rfl, -, hrest⟩ := h
    exact le_trans (Nat.le_add_right _ _) (ih hrest)

theorem aligned (h : Tiles l e bs) : ∀ b ∈ bs, b.Aligned := by
  induction bs generalizing l with
  | nil => simp
  | cons b bs ih =>
    obtain ⟨-, hb, hrest⟩ := h
    rintro b' hmem
    rcases List.mem_cons.mp hmem with rfl | hmem
    · exact hb
    · exact ih hrest b' hmem

theorem bounds (h : Tiles l e bs) : ∀ b ∈ bs, l ≤ b.start ∧ b.stop ≤ e := by
  induction bs generalizing l with
  | nil => simp
  | cons b bs ih =>
    obtain ⟨rfl, -, hrest⟩ := h
    rintro b' hmem
    rcases List.mem_cons.mp hmem with rfl | hmem
    · exact ⟨le_refl _, hrest.le⟩
    · have := ih hrest b' hmem
      exact ⟨le_trans (Nat.le_add_right _ _) this.1, this.2⟩

theorem mem_iff (h : Tiles l e bs) (x : Nat) :
    (∃ b ∈ bs, b.start ≤ x ∧ x < b.stop) ↔ l ≤ x ∧ x < e := by
  induction bs generalizing l with
  | nil =>
    have : l = e := h
    simp only [List.not_mem_nil, false_and, exists_false, false_iff]
    omega
  | cons b bs ih =>
    obtain ⟨rfl, -, hrest⟩ := h
    have hle := hrest.le
    have hsize : b.start ≤ b.stop := Nat.le_add_right _ _
    simp only [List.mem_cons, or_and_right, exists_or, exists_eq_left, ih hrest]
    omega

theorem pairwise (h : Tiles l e bs) : bs.Pairwise fun b b' => b.stop ≤ b'.start := by
  induction bs generalizing l with
  | nil => exact List.Pairwise.nil
  | cons b bs ih =>
    obtain ⟨-, -, hrest⟩ := h
    exact List.pairwise_cons.mpr ⟨fun b' hb' => (hrest.bounds b' hb').1, ih hrest⟩

theorem contiguous (h : Tiles l e bs) {i : Nat} {b b' : Block} (hb : bs[i]? = some b)
    (hb' : bs[i + 1]? = some b') : b'.start = b.stop := by
  induction bs generalizing l i with
  | nil => simp at hb
  | cons c bs ih =>
    obtain ⟨-, -, hrest⟩ := h
    cases i with
    | succ i => exact ih hrest hb hb'
    | zero =>
      cases bs with
      | nil => simp at hb'
      | cons d bs =>
        simp only [List.getElem?_cons_zero, List.getElem?_cons_succ, Option.some.injEq] at hb hb'
        subst hb hb'
        exact hrest.1

end Tiles

/-- The largest aligned block at `l` that stays below `e` has exponent `z`. -/
structure Fits (l e z : Nat) : Prop where
  dvd : 2 ^ z ∣ l
  le : l + 2 ^ z ≤ e
  maximal : 2 ^ (z + 1) ∣ l → e < l + 2 ^ (z + 1)

inductive Greedy (e : Nat) : Nat → List Block → Prop
  | done {l : Nat} : e ≤ l → Greedy e l []
  | zero {bs : List Block} : 0 < e → Greedy e 1 bs → Greedy e 0 (⟨0, 0⟩ :: bs)
  | step {l z : Nat} {bs : List Block} :
      0 < l → Fits l e z → Greedy e (l + 2 ^ z) bs → Greedy e l (⟨l, z⟩ :: bs)

/-! ### Bits -/

section

variable {n z l e : Nat}

theorem bitIndices_add_two_pow (hn : n < 2 ^ z) :
    (n + 2 ^ z).bitIndices = n.bitIndices ++ [z] := by
  have hsorted : (n.bitIndices ++ [z]).SortedLT := by
    rw [List.sortedLT_iff_pairwise, List.pairwise_append]
    refine ⟨Nat.bitIndices_sorted.pairwise, List.pairwise_singleton _ _, fun i hi j hj => ?_⟩
    rw [List.mem_singleton.mp hj]
    exact (Nat.pow_lt_pow_iff_right (by norm_num)).mp
      (lt_of_le_of_lt (Nat.two_pow_le_of_mem_bitIndices hi) hn)
  have hsum : ((n.bitIndices ++ [z]).map fun i => 2 ^ i).sum = n + 2 ^ z := by
    rw [List.map_append, List.sum_append, Nat.sum_map_two_pow_bitIndices, List.map_singleton,
      List.sum_singleton]
  rw [← hsum, Nat.bitIndices_sum_map_two_pow hsorted]

theorem bitIndices_two_pow_add (hn : 2 ^ (z + 1) ∣ n) :
    (2 ^ z + n).bitIndices = z :: n.bitIndices := by
  obtain ⟨k, rfl⟩ := hn
  have hodd : 2 ^ z + 2 ^ (z + 1) * k = 2 ^ z * (2 * k + 1) := by ring
  have hshift : (fun i => i + z) ∘ (fun i => i + 1) = fun i => i + (z + 1) := by
    funext i
    exact Nat.add_right_comm i 1 z
  rw [hodd, Nat.bitIndices_two_pow_mul, Nat.bitIndices_two_mul_add_one, Nat.bitIndices_two_pow_mul,
    List.map_cons, List.map_map, hshift, Nat.zero_add]

/-- The point of `(l, e]` that the largest power of two divides: the bits that `l` and `e` share, and
the first one in which they differ. -/
def summit (l e : Nat) : Nat := e / 2 ^ (l ^^^ e).log2 * 2 ^ (l ^^^ e).log2

theorem div_xor_log2 (hlt : l < e) :
    e / 2 ^ (l ^^^ e).log2 = l / 2 ^ (l ^^^ e).log2 + 1 := by
  have hne : l ^^^ e ≠ 0 := fun h => hlt.ne (xor_eq_zero_iff.mp h)
  have hsame : l / 2 ^ ((l ^^^ e).log2 + 1) = e / 2 ^ ((l ^^^ e).log2 + 1) := by
    rw [← xor_eq_zero_iff, ← Nat.xor_div_two_pow]
    exact Nat.div_eq_of_lt ((Nat.log2_lt hne).mp (Nat.lt_succ_self _))
  have hdiffer : l / 2 ^ (l ^^^ e).log2 ≠ e / 2 ^ (l ^^^ e).log2 := by
    rw [ne_eq, ← xor_eq_zero_iff, ← Nat.xor_div_two_pow]
    exact (Nat.div_pos (Nat.log2_self_le hne) (Nat.two_pow_pos _)).ne'
  have hmono := Nat.div_le_div_right (c := 2 ^ (l ^^^ e).log2) hlt.le
  rw [pow_succ, ← Nat.div_div_eq_div_mul, ← Nat.div_div_eq_div_mul] at hsame
  omega

theorem summit_spec (hle : l ≤ e) :
    ∃ d, 2 ^ d ∣ summit l e ∧ l ≤ summit l e ∧ summit l e ≤ l + 2 ^ d ∧ summit l e ≤ e ∧
      e < summit l e + 2 ^ d := by
  refine ⟨(l ^^^ e).log2, Dvd.intro_left _ rfl, ?_⟩
  have hpos := Nat.two_pow_pos (l ^^^ e).log2
  have he := Nat.div_add_mod' e (2 ^ (l ^^^ e).log2)
  have hmod := Nat.mod_lt e hpos
  unfold summit
  rcases Nat.eq_or_lt_of_le hle with rfl | hlt
  · rw [Nat.xor_self, Nat.log2_zero, pow_zero, Nat.div_one, Nat.mul_one]
    omega
  · have hl := Nat.div_add_mod' l (2 ^ (l ^^^ e).log2)
    have hmod' := Nat.mod_lt l hpos
    rw [div_xor_log2 hlt, Nat.add_one_mul] at he ⊢
    omega

/-- The binary ones of the way up to the summit and of the way down. -/
def summitOnes (l e : Nat) : Nat :=
  (summit l e - l).bitIndices.length + (e - summit l e).bitIndices.length

/-- The number of blocks of a greedy cover: zero is a block of its own. -/
def coverLength (l e : Nat) : Nat :=
  if e ≤ l then 0 else if l = 0 then summitOnes 1 e + 1 else summitOnes l e

end

namespace Greedy

variable {e l c d m w : Nat} {bs : List Block}

theorem tiles (h : Greedy e l bs) (hle : l ≤ e) : Tiles l e bs := by
  induction h with
  | done hel => exact le_antisymm hle hel
  | zero hpos _ ih => exact ⟨rfl, dvd_zero _, ih hpos⟩
  | step _ hfit _ ih => exact ⟨rfl, hfit.dvd, ih hfit.le⟩

theorem eq_nil (h : Greedy e l bs) (hl : 0 < l) (hel : e ≤ l) : bs = [] := by
  cases h with
  | done => rfl
  | zero => exact absurd hl (lt_irrefl 0)
  | @step _ z _ _ hfit _ =>
    have := hfit.le
    have := Nat.two_pow_pos z
    omega

/-! ### Counting blocks -/

private theorem pow_lt {a b : Nat} (h : 2 ^ a < 2 ^ b) : a < b :=
  (Nat.pow_lt_pow_iff_right (by norm_num)).mp h

private theorem double (z : Nat) : 2 ^ (z + 1) = 2 ^ z + 2 ^ z := by
  rw [pow_succ]
  ring

theorem length_descend (h : Greedy e l bs) (hl : 0 < l) (hc : 2 ^ c ∣ l) (he : e < l + 2 ^ c) :
    bs.length ≤ c := by
  induction h generalizing c with
  | done => exact Nat.zero_le _
  | zero => exact absurd hl (lt_irrefl 0)
  | @step l z bs _ hfit _ ih =>
    have hzc : z < c := pow_lt (by have := hfit.le; omega)
    have hcut := hfit.maximal ((pow_dvd_pow 2 hzc).trans hc)
    rw [double] at hcut
    have hrest := ih (by omega) ((Nat.dvd_add_right hfit.dvd).mpr (dvd_refl _)) (by omega)
    rw [List.length_cons]
    omega

theorem length_descend_lt (h : Greedy e l bs) (hl : 0 < l) (hc : 2 ^ c ∣ l) (hpos : 0 < c)
    (he : e + 1 < l + 2 ^ c) : bs.length < c := by
  induction h generalizing c with
  | done => exact hpos
  | zero => exact absurd hl (lt_irrefl 0)
  | @step l z bs _ hfit hg ih =>
    have hzc : z < c := pow_lt (by have := hfit.le; omega)
    have hcut := hfit.maximal ((pow_dvd_pow 2 hzc).trans hc)
    rw [double] at hcut
    have hdvd : 2 ^ z ∣ l + 2 ^ z := (Nat.dvd_add_right hfit.dvd).mpr (dvd_refl _)
    rw [List.length_cons]
    rcases Nat.lt_or_ge (z + 1) c with hlt | hge
    · have := hg.length_descend (by omega) hdvd (by omega)
      omega
    · obtain rfl : c = z + 1 := by omega
      rw [double] at he
      have hz : 0 < z := by
        rcases Nat.eq_zero_or_pos z with rfl | hz
        · have := hfit.le
          omega
        · exact hz
      have := ih (by omega) hdvd hz (by omega)
      omega

private theorem dvd_of_not_dvd {l z : Nat} (h : 2 ^ z ∣ l) (hn : ¬ 2 ^ (z + 1) ∣ l) :
    2 ^ (z + 1) ∣ l + 2 ^ z := by
  obtain ⟨k, rfl⟩ := h
  rw [pow_succ, Nat.mul_dvd_mul_iff_left (Nat.two_pow_pos z)] at hn
  obtain ⟨j, hj⟩ : ∃ j, k + 1 = 2 * j := ⟨(k + 1) / 2, by omega⟩
  exact ⟨j, by rw [pow_succ, mul_assoc, ← hj]; ring⟩

theorem length_ascend (h : Greedy e l bs) (hl : 0 < l) (hw : 2 ≤ w) (he : e ≤ 2 ^ w)
    (hc : 2 ^ c ∣ l) (hcw : c < w) : bs.length + c ≤ 2 * (w - 1) := by
  induction h generalizing c with
  | done =>
    rw [List.length_nil]
    omega
  | zero => exact absurd hl (lt_irrefl 0)
  | @step l z bs _ hfit hg ih =>
    have hle := hfit.le
    have hzl := Nat.le_of_dvd hl hfit.dvd
    have hzw : z < w := pow_lt (by have := Nat.two_pow_pos z; omega)
    by_cases hcut : 2 ^ (z + 1) ∣ l
    · -- the block is cut short: the rest descends
      have hall := (Greedy.step hl hfit hg).length_descend hl hcut (hfit.maximal hcut)
      have := pow_lt (lt_of_le_of_lt (Nat.le_of_dvd hl hcut)
        (show l < 2 ^ w by have := Nat.two_pow_pos z; omega))
      omega
    · -- the block is as large as its start allows: the next start is a larger multiple
      have hcz : c ≤ z := by
        by_contra hzc
        exact hcut ((pow_dvd_pow 2 (by omega)).trans hc)
      have hnext := dvd_of_not_dvd hfit.dvd hcut
      rw [List.length_cons]
      rcases Nat.lt_or_ge (z + 1) w with hlt | hge
      · have := ih (by omega) hnext hlt
        omega
      · obtain rfl : w = z + 1 := by omega
        have hnil : bs = [] :=
          hg.eq_nil (by omega) (he.trans (Nat.le_of_dvd (by omega) hnext))
        rw [hnil, List.length_nil]
        omega

theorem length_pow (h : Greedy e l bs) (hl : l = 2 ^ c) (hw : 2 ≤ w) (he : e + 1 < 2 ^ w)
    (hcw : c < w) : bs.length + c < 2 * (w - 1) := by
  induction h generalizing c with
  | done =>
    rw [List.length_nil]
    omega
  | zero =>
    have := Nat.two_pow_pos c
    omega
  | @step l z bs hpos hfit hg ih =>
    subst hl
    have hle := hfit.le
    have hzc : z ≤ c := (Nat.pow_dvd_pow_iff_le_right (by norm_num)).mp hfit.dvd
    rcases Nat.eq_or_lt_of_le hzc with rfl | hlt
    · rw [← double] at hle
      have := ih (double z).symm (pow_lt (by omega))
      rw [List.length_cons]
      omega
    · have hdvd : 2 ^ (z + 1) ∣ 2 ^ c := pow_dvd_pow 2 hlt
      have hall := (Greedy.step hpos hfit hg).length_descend hpos hdvd (hfit.maximal hdvd)
      rcases Nat.lt_or_ge (c + 1) w with hcw' | hge
      · omega
      · obtain rfl : w = c + 1 := by omega
        rw [double] at he
        have := (Greedy.step hpos hfit hg).length_descend_lt hpos (dvd_refl _) (by omega) he
        omega

/-- **The size of a greedy cover** below `2 ^ w`. -/
theorem length_le (h : Greedy e l bs) (hw : 2 ≤ w) (he : e ≤ 2 ^ w) (hex : 0 < l ∨ e + 1 < 2 ^ w) :
    bs.length ≤ 2 * (w - 1) := by
  rcases Nat.eq_zero_or_pos l with rfl | hl
  · have he' : e + 1 < 2 ^ w := hex.resolve_left (lt_irrefl 0)
    cases h with
    | done => exact Nat.zero_le _
    | zero _ hrest =>
      have := hrest.length_pow (c := 0) rfl hw he' (by omega)
      rw [List.length_cons]
      omega
    | step hpos _ _ => exact absurd hpos (lt_irrefl 0)
  · have := h.length_ascend (c := 0) hl hw he (one_dvd l) (by omega)
    omega

theorem length_descend_eq (h : Greedy e l bs) (hl : 0 < l) (hc : 2 ^ c ∣ l)
    (he : e + 1 = l + 2 ^ c) : bs.length = c := by
  induction h generalizing c with
  | done hel =>
    have hc0 : ¬ 0 < c := by
      intro hpos
      have := Nat.pow_lt_pow_right (a := 2) (by norm_num) hpos
      omega
    rw [List.length_nil]
    omega
  | zero => exact absurd hl (lt_irrefl 0)
  | @step l z bs _ hfit _ ih =>
    have hzc : z < c := pow_lt (by have := hfit.le; omega)
    have hcut := hfit.maximal ((pow_dvd_pow 2 hzc).trans hc)
    have hcz : c ≤ z + 1 := (Nat.pow_le_pow_iff_right (by norm_num)).mp (by omega : 2 ^ c ≤ 2 ^ (z + 1))
    obtain rfl : c = z + 1 := by omega
    rw [double] at he
    have hrest := ih (by omega) ((Nat.dvd_add_right hfit.dvd).mpr (dvd_refl _)) (by omega)
    rw [List.length_cons, hrest]

theorem length_pow_eq (h : Greedy e l bs) (hl : l = 2 ^ c) (hcw : c < w) (he : e + 1 = 2 ^ w) :
    bs.length + c = 2 * (w - 1) := by
  induction h generalizing c with
  | @done l hel =>
    have hpow : 2 ^ (c + 1) ≤ 2 ^ w := Nat.pow_le_pow_right (by norm_num) hcw
    rw [double] at hpow
    have hw : ¬ 1 < w := by
      intro hpos
      have := Nat.pow_lt_pow_right (a := 2) (by norm_num) hpos
      omega
    rw [List.length_nil]
    omega
  | zero =>
    have := Nat.two_pow_pos c
    omega
  | @step l z bs hpos hfit hg ih =>
    subst hl
    rcases Nat.lt_or_ge (c + 1) w with hcw' | hge
    · have hzc : z ≤ c := (Nat.pow_dvd_pow_iff_le_right (by norm_num)).mp hfit.dvd
      have hpow : 2 ^ (c + 1 + 1) ≤ 2 ^ w := Nat.pow_le_pow_right (by norm_num) hcw'
      have hz : ¬ z < c := by
        intro hlt
        have hcut := hfit.maximal (pow_dvd_pow 2 hlt)
        have hle : 2 ^ (z + 1) ≤ 2 ^ c := Nat.pow_le_pow_right (by norm_num) hlt
        rw [double, double] at hpow
        omega
      obtain rfl : z = c := by omega
      have := ih (double z).symm hcw'
      rw [List.length_cons]
      omega
    · obtain rfl : w = c + 1 := by omega
      rw [double] at he
      have := (Greedy.step hpos hfit hg).length_descend_eq hpos (dvd_refl _) (by omega)
      omega

/-- **When a greedy cover is short.** Of the intervals below `2 ^ w` other than the whole, only the
one that misses the last point has more than `2 * (w - 1)` blocks. -/
theorem length_le_iff (h : Greedy e l bs) (hw : 2 ≤ w) (he : e ≤ 2 ^ w)
    (hwhole : ¬ (l = 0 ∧ e = 2 ^ w)) :
    bs.length ≤ 2 * (w - 1) ↔ ¬ (l = 0 ∧ e + 1 = 2 ^ w) := by
  constructor
  · rintro hlen ⟨rfl, he'⟩
    have hpow := Nat.pow_lt_pow_right (a := 2) (by norm_num) (by omega : 0 < w)
    cases h with
    | done hel => omega
    | zero _ hrest =>
      have := hrest.length_pow_eq (c := 0) rfl (by omega) he'
      rw [List.length_cons] at hlen
      omega
    | step hpos _ _ => exact lt_irrefl 0 hpos
  · intro hmiss
    apply h.length_le hw he
    omega

/-! ### The exact number of blocks -/

theorem exps_descend (h : Greedy e l bs) (hl : 0 < l) (hle : l ≤ e) (hc : 2 ^ c ∣ l)
    (he : e < l + 2 ^ c) : bs.map Block.exp = (e - l).bitIndices.reverse := by
  induction h generalizing c with
  | done hel =>
    rw [Nat.sub_eq_zero_of_le hel, Nat.bitIndices_zero]
    rfl
  | zero => exact absurd hl (lt_irrefl 0)
  | @step l z bs _ hfit _ ih =>
    have hfits := hfit.le
    have hzc : z < c := pow_lt (by omega)
    have hcut := hfit.maximal ((pow_dvd_pow 2 hzc).trans hc)
    rw [double] at hcut
    have hrest := ih (by omega) hfits ((Nat.dvd_add_right hfit.dvd).mpr (dvd_refl _)) (by omega)
    have hbits : e - l = (e - (l + 2 ^ z)) + 2 ^ z := by omega
    rw [List.map_cons, hrest, hbits, bitIndices_add_two_pow (by omega), List.reverse_append]
    rfl

theorem exps_ascend (h : Greedy e l bs) (hl : 0 < l) (hd : 2 ^ d ∣ m) (hlm : l ≤ m)
    (hm : m ≤ l + 2 ^ d) (hme : m ≤ e) (he : e < m + 2 ^ d) :
    bs.map Block.exp = (m - l).bitIndices ++ (e - m).bitIndices.reverse := by
  induction h with
  | @done l hel =>
    obtain rfl : l = m := by omega
    rw [Nat.sub_self, Nat.sub_eq_zero_of_le hel, Nat.bitIndices_zero]
    rfl
  | zero => exact absurd hl (lt_irrefl 0)
  | @step l z bs _ hfit hg ih =>
    rcases Nat.eq_or_lt_of_le hlm with rfl | hlt
    · rw [(Greedy.step hl hfit hg).exps_descend hl hme hd he, Nat.sub_self, Nat.bitIndices_zero,
        List.nil_append]
    · have hfits := hfit.le
      have hzd : z ≤ d := by
        by_contra hdz
        have := Nat.pow_le_pow_right (n := 2) (by norm_num) (not_le.mp hdz)
        rw [Nat.succ_eq_add_one, double] at this
        omega
      -- a block at `l` that is no larger than `2 ^ d` stays below `m`
      have hbelow : ∀ {k}, 2 ^ k ∣ l → k ≤ d → l + 2 ^ k ≤ m := fun {k} hk hkd => by
        have := Nat.le_of_dvd (by omega) (Nat.dvd_sub ((pow_dvd_pow 2 hkd).trans hd) hk)
        omega
      have hlz := hbelow hfit.dvd hzd
      have hrest : 2 ^ (z + 1) ∣ m - (l + 2 ^ z) := by
        rcases Nat.eq_or_lt_of_le hzd with rfl | hzd
        · rw [Nat.sub_eq_zero_of_le hm]
          exact dvd_zero _
        · have hcut : ¬ 2 ^ (z + 1) ∣ l := fun hcut => by
            have := hbelow hcut hzd
            have := hfit.maximal hcut
            omega
          exact Nat.dvd_sub ((pow_dvd_pow 2 hzd).trans hd) (dvd_of_not_dvd hfit.dvd hcut)
      have hbits : m - l = 2 ^ z + (m - (l + 2 ^ z)) := by omega
      rw [List.map_cons, ih (by omega) hlz (by omega), hbits, bitIndices_two_pow_add hrest,
        List.cons_append]

theorem length_summit (h : Greedy e l bs) (hl : 0 < l) (hle : l ≤ e) :
    bs.length = summitOnes l e := by
  obtain ⟨d, hd, hlm, hm, hme, he⟩ := summit_spec hle
  have hexps := congrArg List.length (h.exps_ascend hl hd hlm hm hme he)
  rwa [List.length_map, List.length_append, List.length_reverse] at hexps

/-- **The size of a greedy cover**, exactly: the binary ones of the two distances to the summit. -/
theorem length_eq (h : Greedy e l bs) : bs.length = coverLength l e := by
  unfold coverLength
  cases h with
  | done hel => rw [if_pos hel, List.length_nil]
  | zero hpos hrest =>
    rw [if_neg (not_le.mpr hpos), if_pos rfl, List.length_cons, hrest.length_summit (by norm_num) hpos]
  | @step _ z _ hl hfit hrest =>
    have hfits := hfit.le
    have hsize := Nat.two_pow_pos z
    rw [if_neg (by omega), if_neg hl.ne', (Greedy.step hl hfit hrest).length_summit hl (by omega)]

end Greedy

end AtomicPredicate.Lib
