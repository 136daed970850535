import AtomicPredicate.Encode
import AtomicPredicate.Kernel.Setup

/-!
# The program of `test.c`

Another client of the package: it sets up 16 variables and encodes one prefix over them, with a copy
of `encodePrefix` that takes no reference to a positive first literal and counts indices from the 16
variables, not from the field. The literals are permanent, so the missing reference does not matter,
and a field of `n` bits is that of the last `n` variables (`testProgram_encodes`).
-/

namespace AtomicPredicate.Kernel

open Function Lib

/-! ### The code -/

/-- `bits` of `test.c`. -/
def testBits : Nat := 16

/-- `IP & (1 << i)` as a condition. -/
def bitTest (ip : BitVec 32) (i : Int) : KernelM Bool :=
  if 0 ≤ i ∧ i < 32 then pure (ip &&& (1#32 <<< i.toNat) != 0#32) else throw (.client .shift)

def readVar (var : List Nat) (i : Int) : KernelM Nat :=
  match (if 0 ≤ i then var[i.toNat]? else none) with
  | some h => pure h
  | none => throw (.client .index)

variable {k k' : Kernel} {env : Env} {size tmp L i : Nat} {ip : BitVec 32} {d : Diagram Nat}

/-- Between two calls: the literals are permanent, and no other node but `tmp` has a reference. -/
structure Encoding (size tmp : Nat) (k : Kernel) : Prop where
  idle : k.Idle
  sizes : Reached size k.nodesize
  pos : ∀ j < testBits, k.Denotes (2 * j + 2) (.node j (.leaf false) (.leaf true))
  neg : ∀ j < testBits, k.Denotes (2 * j + 3) (.node j (.leaf true) (.leaf false))
  refcou : ∀ h, k.refcou h =
    if h < 2 * testBits + 2 then MAXREF else if h = tmp then 1 else 0

namespace Encoding

theorem counted (hk : Encoding size tmp k) {h : Nat} (hh : h < 2 * testBits + 2 ∨ h = tmp) :
    0 < k.refcou h := by
  rw [hk.refcou]
  split_ifs with hlt heq
  · decide
  · exact Nat.one_pos
  · exact absurd hh (not_or.mpr ⟨hlt, heq⟩)

theorem live (hk : Encoding size tmp k) {h : Nat} (hh : h < 2 * testBits + 2 ∨ h = tmp) :
    k.Live h := Root.live (Or.inr (hk.counted hh))

theorem returned (hk : Encoding size tmp k) {res : Nat} (hret : Returned k k' res d) :
    Encoding size tmp k' ∧ ∀ d, k.Denotes tmp d → k'.Denotes tmp d := by
  have stays : ∀ {h d}, h < 2 * testBits + 2 ∨ h = tmp → k.Denotes h d → k'.Denotes h d :=
    fun hh hd => hret.keeps.denotes hd (hk.live hh)
  refine ⟨⟨hret.idle, hk.sizes.trans hret.keeps.sizes, fun j hj => ?_, fun j hj => ?_, fun h => ?_⟩,
    fun d => stays (Or.inr rfl)⟩
  · exact stays (Or.inl (by omega)) (hk.pos j hj)
  · exact stays (Or.inl (by omega)) (hk.neg j hj)
  · rw [hret.keeps.refcou, hk.refcou]

theorem withRefcou (hk : Encoding size tmp k) {rc : Nat → Nat} {tmp' : Nat}
    (hi : (k.withRefcou rc).Idle)
    (hrc : ∀ h, rc h = if h < 2 * testBits + 2 then MAXREF else if h = tmp' then 1 else 0) :
    Encoding size tmp' (k.withRefcou rc) where
  idle := hi
  sizes := hk.sizes
  pos j hj := (sameTable_withRefcou rc k).denotes (hk.pos j hj)
  neg j hj := (sameTable_withRefcou rc k).denotes (hk.neg j hj)
  refcou := hrc

end Encoding

theorem bitTest_eq (hi : i < 32) : bitTest ip i = pure (ip.getLsbD i) := by
  rw [bitTest, if_pos (by omega), Int.toNat_natCast, bit_test_eq]

def testVars : List Nat := (List.range testBits).map fun i => 2 * i + 2

theorem readVar_eq (hi : i < testBits) :
    readVar testVars (testBits - 1 - i) = pure (2 * (testBits - 1 - i) + 2) := by
  have hlt : testBits - 1 - i < testBits := by omega
  have hindex : ((testBits : Int) - 1 - i).toNat = testBits - 1 - i := by omega
  rw [readVar, if_pos (by omega), hindex, testVars, List.getElem?_map, List.getElem?_range hlt]
  rfl

end AtomicPredicate.Kernel
