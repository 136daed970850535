import AtomicPredicate.Kernel.Defs
import Mathlib.FieldTheory.Finite.Basic
import Mathlib.NumberTheory.Bertrand
import Mathlib.Tactic.Linarith

/-!
# Table sizes

The search for primes of `prime.c`: a Miller-Rabin test with random witnesses, after a few trial
divisions. The generator is any sequence of numbers.

Whatever the generator gives, the test accepts every prime (`isPrime_prime`). So the searches end, and
do not go past a prime (`bddPrimeGte_spec`, `bddPrimeLte_spec`). A composite number may be accepted;
`Env.exact` is the environment in which none ever is.
-/

namespace AtomicPredicate.Kernel

open Function Lib

/-! ### The code -/

/-- The state is the sequence of numbers that the generator has yet to give. -/
abbrev RandM := StateT (Nat → Nat) (Except KFault)

def rand : RandM Nat := fun s => .ok (s 0, fun n => s (n + 1))

def Random (i : Nat) : RandM Nat := do
  let r ← rand
  if i = 0 then throw .wild else return r % i + 1

/-- `u64_mulmod`, in a signed type of 64 bits. -/
def u64Mulmod (a b c : Nat) : Except KFault Nat :=
  if a * b < 2 ^ 63 ∧ c ≠ 0 then .ok (a * b % c) else .error .wild

/-- The loop of `numberOfBits`, from bit `b` down. -/
def numberOfBitsFrom (src : Nat) : Nat → Nat
  | 0 => 1
  | b + 1 => if src.testBit (b + 1) then b + 2 else numberOfBitsFrom src b

def numberOfBits (src : Nat) : Nat := if src = 0 then 0 else numberOfBitsFrom src 31

/-- The loop of `isWitness`, with the bits of `src - 1` below `i` left. -/
def isWitnessFrom (witness src : Nat) : Nat → Nat → Except KFault Bool
  | 0, d => return d ≠ 1
  | i + 1, x => do
    let d ← u64Mulmod x x src
    if d = 1 ∧ x ≠ 1 ∧ x ≠ src - 1 then return true
    else
      let d ← if (src - 1).testBit i then u64Mulmod d witness src else pure d
      isWitnessFrom witness src i d

def isWitness (witness src : Nat) : Except KFault Bool :=
  isWitnessFrom witness src (numberOfBits (src - 1)) 1

def CHECKTIMES : Nat := 20

/-- The loop of `isMillerRabinPrime`, with `n` rounds left. -/
def millerRabin (src : Nat) : Nat → RandM Bool
  | 0 => return true
  | n + 1 => do
    let witness ← Random (src - 1)
    if ← isWitness witness src then return false else millerRabin src n

def isMillerRabinPrime (src : Nat) : RandM Bool := millerRabin src CHECKTIMES

def hasFactor (src n : Nat) : Bool := src ≠ n ∧ src % n = 0

def hasEasyFactors (src : Nat) : Bool :=
  hasFactor src 3 || hasFactor src 5 || hasFactor src 7 || hasFactor src 11 || hasFactor src 13

def isPrime (src : Nat) : RandM Bool :=
  if hasEasyFactors src then return false else isMillerRabinPrime src

/-- `while (!isPrime(src)) src = next`. -/
def searchPrime (next : Nat → Nat) : Nat → Nat → RandM Nat
  | 0, _ => throw .loop
  | fuel + 1, src => do
    if ← isPrime src then return src else searchPrime next fuel (next src)

def bddPrimeGte (src : Nat) : RandM Nat :=
  searchPrime (fun src => (src + 2) % 2 ^ 32) (src + 1)
    (if src % 2 = 0 then (src + 1) % 2 ^ 32 else src)

def bddPrimeLte (src : Nat) : RandM Nat :=
  searchPrime (fun src => (src + (2 ^ 32 - 2)) % 2 ^ 32) (src + 1)
    (if src % 2 = 0 then (src + (2 ^ 32 - 1)) % 2 ^ 32 else src)

/-! ### The test -/

section

variable {p src witness : Nat}

theorem u64Mulmod_ok {a b c : Nat} (ha : a < c) (hb : b < c) (hc : c ≤ 2 ^ 31) :
    u64Mulmod a b c = .ok (a * b % c) := by
  have hmul : a * b < 2 ^ 31 * 2 ^ 31 :=
    Nat.mul_lt_mul'' (lt_of_lt_of_le ha hc) (lt_of_lt_of_le hb hc)
  exact if_pos ⟨by omega, by omega⟩

theorem lt_two_pow_numberOfBitsFrom {b : Nat} (hsrc : src < 2 ^ (b + 1)) :
    src < 2 ^ numberOfBitsFrom src b := by
  induction b with
  | zero => exact hsrc
  | succ b ih =>
    unfold numberOfBitsFrom
    split_ifs with hbit
    · exact hsrc
    · refine ih ?_
      by_contra hge
      have hdiv : src / 2 ^ (b + 1) = 1 :=
        Nat.div_eq_of_lt_le (by omega) (by rw [pow_succ] at hsrc; omega)
      exact hbit (by rw [Nat.testBit, Nat.shiftRight_eq_div_pow, hdiv]; rfl)

theorem lt_two_pow_numberOfBits (hsrc : src < 2 ^ 32) : src < 2 ^ numberOfBits src := by
  unfold numberOfBits
  split_ifs with h0
  · omega
  · exact lt_two_pow_numberOfBitsFrom hsrc

theorem div_two_pow_bit (n i : Nat) :
    n / 2 ^ i = n / 2 ^ (i + 1) + n / 2 ^ (i + 1) + (n.testBit i).toNat := by
  have hdiv : n / 2 ^ (i + 1) = n / 2 ^ i / 2 := by rw [pow_succ, Nat.div_div_eq_div_mul]
  have hbit : (n.testBit i).toNat = n / 2 ^ i % 2 := by
    rw [Nat.testBit_eq_decide_div_mod_eq]
    rcases Nat.mod_two_eq_zero_or_one (n / 2 ^ i) with h | h <;> simp [h]
  omega

theorem sqrt_one (hp : p.Prime) {x : Nat} (hx : x < p) (h : x * x % p = 1) : x = 1 ∨ x = p - 1 := by
  have hdvd : p ∣ (x + 1) * (x - 1) := by
    have hx0 : 1 ≤ x := by
      by_contra h0
      obtain rfl : x = 0 := by omega
      simp at h
    have hle : 1 ≤ x * x := Nat.one_le_iff_ne_zero.mpr (Nat.mul_ne_zero (by omega) (by omega))
    rw [← Nat.mul_self_sub_mul_self_eq, Nat.one_mul]
    exact (Nat.modEq_iff_dvd' hle).mp (by rw [Nat.ModEq, h, Nat.mod_eq_of_lt hp.one_lt])
  rcases hp.dvd_mul.mp hdvd with hd | hd
  · right
    have := Nat.le_of_dvd (Nat.succ_pos x) hd
    omega
  · left
    have hx0 : x ≠ 0 := by
      rintro rfl
      simp at h
    have := Nat.eq_zero_of_dvd_of_lt hd (by omega)
    omega

theorem pow_sub_one_mod (hp : p.Prime) (h0 : 0 < witness) (hlt : witness < p) :
    witness ^ (p - 1) % p = 1 := by
  have hcop : witness.Coprime p := (Nat.coprime_of_lt_prime h0.ne' hlt hp).symm
  have hmod := Nat.ModEq.pow_card_sub_one_eq_one hp hcop
  rwa [Nat.ModEq, Nat.mod_eq_of_lt hp.one_lt] at hmod

theorem isWitnessFrom_ok (hw : witness < src) (hsrc : src ≤ 2 ^ 31) (i : Nat) {d : Nat}
    (hd : d < src) : ∃ b, isWitnessFrom witness src i d = .ok b := by
  induction i generalizing d with
  | zero => exact ⟨_, rfl⟩
  | succ i ih =>
    have hsq : d * d % src < src := Nat.mod_lt _ (by omega)
    rw [isWitnessFrom, u64Mulmod_ok hd hd hsrc]
    simp only [bind, Except.bind]
    split_ifs
    · exact ⟨true, rfl⟩
    · rw [u64Mulmod_ok hsq hw hsrc]
      exact ih (Nat.mod_lt _ (by omega))
    · exact ih hsq

theorem isWitnessFrom_prime (hp : p.Prime) (h0 : 0 < witness) (hw : witness < p) (hsrc : p ≤ 2 ^ 31)
    (i : Nat) :
    isWitnessFrom witness p i (witness ^ ((p - 1) / 2 ^ i) % p) = .ok false := by
  induction i with
  | zero =>
    rw [isWitnessFrom, pow_zero, Nat.div_one, pow_sub_one_mod hp h0 hw]
    rfl
  | succ i ih =>
    have hd : witness ^ ((p - 1) / 2 ^ (i + 1)) % p < p := Nat.mod_lt _ hp.pos
    have hsq := Nat.mod_lt (witness ^ ((p - 1) / 2 ^ (i + 1)) % p *
      (witness ^ ((p - 1) / 2 ^ (i + 1)) % p)) hp.pos
    rw [isWitnessFrom, u64Mulmod_ok hd hd hsrc]
    simp only [bind, Except.bind]
    rw [if_neg fun hroot => (sqrt_one hp hd hroot.1).elim hroot.2.1 hroot.2.2]
    rw [div_two_pow_bit, pow_add, pow_add] at ih
    split_ifs with hbit
    · rw [u64Mulmod_ok hsq hw hsrc]
      simpa [hbit, Nat.mul_mod] using ih
    · simpa [hbit, Nat.mul_mod, pure, Except.pure] using ih

theorem isWitness_prime (hp : p.Prime) (h0 : 0 < witness) (hw : witness < p) (hsrc : p ≤ 2 ^ 31) :
    isWitness witness p = .ok false := by
  have hlt : p - 1 < 2 ^ numberOfBits (p - 1) := lt_two_pow_numberOfBits (by omega)
  have h := isWitnessFrom_prime hp h0 hw hsrc (numberOfBits (p - 1))
  rwa [Nat.div_eq_of_lt hlt, pow_zero, Nat.mod_eq_of_lt hp.one_lt] at h

theorem Random_eq {i : Nat} (hi : 0 < i) (s : Nat → Nat) :
    ∃ w, 0 < w ∧ w ≤ i ∧ Random i s = .ok (w, fun n => s (n + 1)) := by
  refine ⟨s 0 % i + 1, Nat.succ_pos _, Nat.mod_lt _ hi, ?_⟩
  simp only [Random, bind, StateT.bind, rand, Except.bind, if_neg hi.ne']
  rfl

theorem millerRabin_ok (h2 : 2 ≤ src) (hsrc : src ≤ 2 ^ 31) (n : Nat) (s : Nat → Nat) :
    ∃ b s', millerRabin src n s = .ok (b, s') := by
  induction n generalizing s with
  | zero => exact ⟨_, _, rfl⟩
  | succ n ih =>
    obtain ⟨w, -, hw, hrand⟩ := Random_eq (i := src - 1) (by omega) s
    obtain ⟨b, hb⟩ : ∃ b, isWitness w src = .ok b :=
      isWitnessFrom_ok (by omega) hsrc _ (by omega)
    simp only [millerRabin, bind, StateT.bind, hrand, Except.bind, hb, liftM, monadLift,
      MonadLift.monadLift, StateT.lift, pure, Except.pure]
    cases b
    · exact ih _
    · exact ⟨_, _, rfl⟩

theorem millerRabin_prime (hp : p.Prime) (hsrc : p ≤ 2 ^ 31) (n : Nat) (s : Nat → Nat) :
    ∃ s', millerRabin p n s = .ok (true, s') := by
  have h2 := hp.two_le
  induction n generalizing s with
  | zero => exact ⟨_, rfl⟩
  | succ n ih =>
    obtain ⟨w, h0, hw, hrand⟩ := Random_eq (i := p - 1) (by omega) s
    simp only [millerRabin, bind, StateT.bind, hrand, Except.bind,
      isWitness_prime hp h0 (by omega) hsrc, liftM, monadLift, MonadLift.monadLift, StateT.lift,
      pure, Except.pure]
    exact ih _

theorem not_hasFactor (hp : p.Prime) {n : Nat} (hn : n.Prime) : hasFactor p n = false := by
  have h : ¬ (p ≠ n ∧ p % n = 0) := fun h =>
    h.1 ((Nat.prime_dvd_prime_iff_eq hn hp).mp (Nat.dvd_of_mod_eq_zero h.2)).symm
  simpa [hasFactor] using h

/-- **A prime passes the test**, whatever the generator gives. -/
theorem isPrime_prime (hp : p.Prime) (hsrc : p ≤ 2 ^ 31) (s : Nat → Nat) :
    ∃ s', isPrime p s = .ok (true, s') := by
  have hfactors : hasEasyFactors p = false := by
    simp only [hasEasyFactors, not_hasFactor hp Nat.prime_three, not_hasFactor hp Nat.prime_five,
      not_hasFactor hp (show Nat.Prime 7 by norm_num), not_hasFactor hp Nat.prime_eleven,
      not_hasFactor hp (show Nat.Prime 13 by norm_num), Bool.or_false]
  rw [isPrime, hfactors, if_neg (by decide)]
  exact millerRabin_prime hp hsrc CHECKTIMES s

theorem isPrime_ok (h2 : 2 ≤ src) (hsrc : src ≤ 2 ^ 31) (s : Nat → Nat) :
    ∃ b s', isPrime src s = .ok (b, s') := by
  unfold isPrime
  split_ifs
  · exact ⟨_, _, rfl⟩
  · exact millerRabin_ok h2 hsrc CHECKTIMES s

end

/-! ### The searches -/

theorem searchUp_spec (fuel : Nat) {src q : Nat} (h3 : 3 ≤ src) (hodd : src % 2 = 1)
    (hq : q.Prime) (hle : src ≤ q) (hmax : q < 2 ^ 31) (hfuel : q < src + 2 * fuel)
    (s : Nat → Nat) :
    ∃ r s', searchPrime (fun src => (src + 2) % 2 ^ 32) fuel src s = .ok (r, s') ∧ src ≤ r ∧
      ∀ q, q.Prime → src ≤ q → r ≤ q := by
  induction fuel generalizing src s with
  | zero => omega
  | succ fuel ih =>
    obtain ⟨b, s₁, hb⟩ : ∃ b s', isPrime src s = .ok (b, s') :=
      isPrime_ok (by omega) (by omega) s
    simp only [searchPrime, bind, StateT.bind, hb, Except.bind]
    cases b with
    | true => exact ⟨src, s₁, rfl, le_rfl, fun q _ h => h⟩
    | false =>
      -- the test has rejected `src`, and the next number is even
      have hnext : ∀ q, q.Prime → src ≤ q → src + 2 ≤ q := by
        intro q hq hle
        have hne : q ≠ src := by
          rintro rfl
          obtain ⟨s', hs'⟩ := isPrime_prime hq (by omega) s
          rw [hb] at hs'
          cases hs'
        rcases hq.eq_two_or_odd with rfl | hqodd <;> omega
      have hle' := hnext q hq hle
      obtain ⟨r, s', hr, hsr, hall⟩ := ih (show 3 ≤ src + 2 by omega) (by omega) hle' (by omega) s₁
      refine ⟨r, s', ?_, by omega, fun q hq hle => hall q hq (hnext q hq hle)⟩
      rw [Nat.mod_eq_of_lt (by omega)]
      exact hr

theorem searchDown_spec (fuel : Nat) {src : Nat} (h3 : 3 ≤ src) (hodd : src % 2 = 1)
    (hmax : src ≤ 2 ^ 31) (hfuel : src < 2 * fuel + 3) (s : Nat → Nat) :
    ∃ r s', searchPrime (fun src => (src + (2 ^ 32 - 2)) % 2 ^ 32) fuel src s = .ok (r, s') ∧
      3 ≤ r ∧ r ≤ src ∧ ∀ q, q.Prime → q ≤ src → q ≤ r := by
  induction fuel generalizing src s with
  | zero => omega
  | succ fuel ih =>
    obtain ⟨b, s₁, hb⟩ : ∃ b s', isPrime src s = .ok (b, s') := isPrime_ok (by omega) hmax s
    simp only [searchPrime, bind, StateT.bind, hb, Except.bind]
    cases b with
    | true => exact ⟨src, s₁, rfl, h3, le_rfl, fun q _ h => h⟩
    | false =>
      have hprime : ¬ src.Prime := fun hp => by
        obtain ⟨s', hs'⟩ := isPrime_prime hp hmax s
        rw [hb] at hs'
        cases hs'
      have h5 : 5 ≤ src := by
        have : src ≠ 3 := fun h => hprime (h ▸ Nat.prime_three)
        omega
      have hnext : ∀ q, q.Prime → q ≤ src → q ≤ src - 2 := by
        intro q hq hle
        have hne : q ≠ src := fun h => hprime (h ▸ hq)
        rcases hq.eq_two_or_odd with rfl | hqodd <;> omega
      obtain ⟨r, s', hr, h3r, hrs, hall⟩ :=
        ih (show 3 ≤ src - 2 by omega) (by omega) (by omega) (by omega) s₁
      refine ⟨r, s', ?_, h3r, by omega, fun q hq hle => hall q hq (hnext q hq hle)⟩
      rw [show (src + (2 ^ 32 - 2)) % 2 ^ 32 = src - 2 by omega]
      exact hr

/-- **`bdd_prime_gte`** ends, and does not go past a prime. -/
theorem bddPrimeGte_spec {n : Nat} (h3 : 3 ≤ n) (hmax : n < 2 ^ 30) (s : Nat → Nat) :
    ∃ r s', bddPrimeGte n s = .ok (r, s') ∧ n ≤ r ∧ ∀ q, q.Prime → n ≤ q → r ≤ q := by
  -- a prime is near
  obtain ⟨q, hq, hlt, hle⟩ := Nat.exists_prime_lt_and_le_two_mul n (by omega)
  have hqodd : q % 2 = 1 := hq.eq_two_or_odd.resolve_left (by omega)
  unfold bddPrimeGte
  split_ifs with heven
  · rw [Nat.mod_eq_of_lt (by omega)]
    obtain ⟨r, s', hr, hsr, hall⟩ :=
      searchUp_spec (n + 1) (show 3 ≤ n + 1 by omega) (by omega) hq hlt (by omega) (by omega) s
    refine ⟨r, s', hr, by omega, fun q hq hle => hall q hq ?_⟩
    rcases hq.eq_two_or_odd with rfl | hodd <;> omega
  · obtain ⟨r, s', hr, hsr, hall⟩ :=
      searchUp_spec (n + 1) h3 (by omega) hq hlt.le (by omega) (by omega) s
    exact ⟨r, s', hr, hsr, hall⟩

/-- **`bdd_prime_lte`** ends, and does not go past a prime. -/
theorem bddPrimeLte_spec {n : Nat} (h3 : 3 ≤ n) (hmax : n ≤ 2 ^ 31) (s : Nat → Nat) :
    ∃ r s', bddPrimeLte n s = .ok (r, s') ∧ 3 ≤ r ∧ r ≤ n ∧ ∀ q, q.Prime → q ≤ n → q ≤ r := by
  unfold bddPrimeLte
  split_ifs with heven
  · rw [show (n + (2 ^ 32 - 1)) % 2 ^ 32 = n - 1 by omega]
    obtain ⟨r, s', hr, h3r, hrs, hall⟩ :=
      searchDown_spec (n + 1) (show 3 ≤ n - 1 by omega) (by omega) (by omega) (by omega) s
    refine ⟨r, s', hr, h3r, by omega, fun q hq hle => ?_⟩
    rcases hq.eq_two_or_odd with rfl | hodd
    · omega
    · exact hall q hq (by omega)
  · obtain ⟨r, s', hr, h3r, hrs, hall⟩ :=
      searchDown_spec (n + 1) h3 (by omega) hmax (by omega) s
    exact ⟨r, s', hr, h3r, hrs, hall⟩

/-! ### Without false primes -/

/-- The environment in which the test accepts primes only. -/
def Env.exact (realloc : Nat → Bool) : Env where
  bddPrimeGte n := Nat.find (Nat.exists_infinite_primes n)
  bddPrimeLte n := Nat.findGreatest Nat.Prime n
  realloc := realloc
  gte_prime n _ := (Nat.find_spec (Nat.exists_infinite_primes n)).symm
  lte_prime n hn := by
    have h3 : 3 ≤ Nat.findGreatest Nat.Prime n := Nat.le_findGreatest hn Nat.prime_three
    exact ⟨Nat.findGreatest_spec hn Nat.prime_three, h3, Nat.findGreatest_le n⟩
  le_lte p n hp _ hle := Nat.le_findGreatest hle hp

/-- **The searches and the environment**: whatever the generator gives, the sizes that `prime.c` finds
lie between the number asked for and the size of the environment, and are that size if they are
prime. -/
theorem primes_exact (realloc : Nat → Bool) {n : Nat} (h3 : 3 ≤ n) (hmax : n < 2 ^ 30)
    (s : Nat → Nat) :
    (∃ r s', bddPrimeGte n s = .ok (r, s') ∧ n ≤ r ∧ r ≤ (Env.exact realloc).bddPrimeGte n ∧
      (r.Prime → r = (Env.exact realloc).bddPrimeGte n)) ∧
    ∃ r s', bddPrimeLte n s = .ok (r, s') ∧ (Env.exact realloc).bddPrimeLte n ≤ r ∧ r ≤ n ∧
      (r.Prime → r = (Env.exact realloc).bddPrimeLte n) := by
  constructor
  · obtain ⟨r, s', hr, hle, hall⟩ := bddPrimeGte_spec h3 hmax s
    obtain ⟨hprime, hge⟩ := (Env.exact realloc).gte_prime n h3
    have hup := hall _ hprime hge
    exact ⟨r, s', hr, hle, hup, fun hp => le_antisymm hup (Nat.find_min' _ ⟨hle, hp⟩)⟩
  · obtain ⟨r, s', hr, h3r, hle, hall⟩ := bddPrimeLte_spec h3 (by omega) s
    obtain ⟨hprime, -, hge⟩ := (Env.exact realloc).lte_prime n h3
    have hdown := hall _ hprime hge
    exact ⟨r, s', hr, hdown, hle, fun hp =>
      le_antisymm ((Env.exact realloc).le_lte r n hp h3r hle) hdown⟩

/-- The first table. -/
theorem primes_exact_init : (3 ≤ 10000 ∧ 10000 < 2 ^ 30) ∧
    ∃ r s', bddPrimeGte 10000 (fun n => n) = .ok (r, s') ∧ 10000 ≤ r := by
  obtain ⟨⟨r, s', hr, hle, -⟩, -⟩ :=
    primes_exact (fun _ => true) (n := 10000) (by decide) (by decide) fun n => n
  exact ⟨by decide, r, s', hr, hle⟩

end AtomicPredicate.Kernel
