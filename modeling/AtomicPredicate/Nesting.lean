import AtomicPredicate.Encode
import Mathlib.Data.List.GetD

/-!
# Prefixes over any variables

`encodePrefix` is handed the array of the variables of a field. Whatever distinct variables these are,
the predicate compares the top bits of the field with those of the address and reads nothing else, so
two prefixes of one field are nested or disjoint (`encodePrefix_exact`).
-/

namespace AtomicPredicate

open Lib

/-- An array of at most `32` distinct variables. -/
structure Variables (xs : List Nat) : Prop where
  distinct : xs.Nodup
  bound : ∀ x ∈ xs, x < totalBits
  width : xs.length ≤ 32

/-- The field over the variables `xs` holds `v`, most significant bit first. -/
def FieldIs (xs : List Nat) (v : BitVec xs.length) (env : Nat → Bool) : Prop :=
  ∀ (i : Nat) (hi : i < xs.length), env xs[i] = v.getMsbD i

/-- `v` and the address agree on the top `len` of `n` bits. -/
def AgreeOnTop {w : Nat} (n len : Nat) (v : BitVec w) (ip : BitVec 32) : Prop :=
  ∀ i, n - len ≤ i → i < n → v.getLsbD i = ip.getLsbD i

/-- The assignment satisfies what `encodePrefix` returns in a session. -/
def prefixAccepts (σ : Session) (xs : List Nat) (ip : BitVec 32) (len : BitVec 8)
    (env : Nat → Bool) : Prop :=
  ∃ h s', encodePrefix ip len (xs.map bddIthvar) (BitVec.ofNat 8 xs.length) σ.store = .ok (h, s') ∧
    evalHandle s' h env = true

def Nested (P Q : (Nat → Bool) → Prop) : Prop := (∀ env, P env → Q env) ∨ ∀ env, Q env → P env

section

variable {xs : List Nat} {ip ip' : BitVec 32} {len len' : BitVec 8} {env : Nat → Bool}

theorem varsAre_map (hxs : Variables xs) :
    VarsAre (xs.map bddIthvar) (fun i => xs.getD i 0) xs.length := by
  intro i hi
  dsimp only
  rw [List.getD_eq_getElem _ _ hi]
  exact ⟨hxs.bound _ (List.getElem_mem hi), by simp [hi]⟩

theorem encodePrefix_run (hxs : Variables xs) (hpos : 1 ≤ len.toNat)
    (hlen : len.toNat ≤ xs.length) (ip : BitVec 32) (σ : Session) :
    ∃ h s', encodePrefix ip len (xs.map bddIthvar) (BitVec.ofNat 8 xs.length) σ.store = .ok (h, s') ∧
      ∀ env, evalHandle s' h env = true ↔
        TopBitsOf (fun i => xs.getD i 0) xs.length ip len.toNat env := by
  have htriple : Triple discipline 0
      (encodePrefix ip len (xs.map bddIthvar) (BitVec.ofNat 8 xs.length)) _ fun _ => False :=
    encodePrefix_triple_of (varsAre_map hxs) hxs.width hpos hlen
  rcases run_session htriple σ with ⟨h, s', B, hrun, ⟨v, rfl, hv⟩, hval, -⟩ | ⟨e, -, hfalse⟩
  · refine ⟨h, s', hrun, fun env => ?_⟩
    rw [evalHandle_eq (hval (h, v) (Multiset.mem_singleton_self _)), hv]
  · exact hfalse.elim

theorem prefixAccepts_iff (hxs : Variables xs) (hpos : 1 ≤ len.toNat)
    (hlen : len.toNat ≤ xs.length) (ip : BitVec 32) (σ : Session) (env : Nat → Bool) :
    prefixAccepts σ xs ip len env ↔ TopBitsOf (fun i => xs.getD i 0) xs.length ip len.toNat env := by
  obtain ⟨h, s', hrun, hval⟩ := encodePrefix_run hxs hpos hlen ip σ
  unfold prefixAccepts
  rw [hrun]
  constructor
  · intro hacc
    obtain ⟨_, _, heq, hacc⟩ := hacc
    cases heq
    exact (hval env).mp hacc
  · exact fun htop => ⟨h, s', rfl, (hval env).mpr htop⟩

/-! ### What a prefix reads -/

theorem topBitsOf_iff_agree {v : BitVec xs.length} (hv : FieldIs xs v env) (ip : BitVec 32)
    (l : Nat) :
    TopBitsOf (fun i => xs.getD i 0) xs.length ip l env ↔ AgreeOnTop xs.length l v ip := by
  refine forall_congr' fun i => imp_congr_right fun _ => forall_congr' fun hi => ?_
  have hj : xs.length - 1 - i < xs.length := by omega
  dsimp only
  rw [List.getD_eq_getElem _ _ hj, hv _ hj, BitVec.getMsbD, decide_eq_true hj, Bool.true_and,
    show xs.length - 1 - (xs.length - 1 - i) = i by omega]

theorem topBitsOf_congr {env' : Nat → Bool} {l : Nat} (henv : ∀ x ∈ xs.take l, env x = env' x)
    (ip : BitVec 32) :
    TopBitsOf (fun i => xs.getD i 0) xs.length ip l env ↔
      TopBitsOf (fun i => xs.getD i 0) xs.length ip l env' := by
  refine forall_congr' fun i => forall_congr' fun hl => forall_congr' fun hi => ?_
  have hj : xs.length - 1 - i < xs.length := by omega
  have hmem : xs[xs.length - 1 - i] ∈ xs.take l :=
    List.mem_take_iff_getElem.mpr ⟨xs.length - 1 - i, by omega, rfl⟩
  dsimp only
  rw [List.getD_eq_getElem _ _ hj, henv _ hmem]

theorem topBitsOf_agree {l : Nat} (hip : AgreeOnTop xs.length l ip ip') :
    TopBitsOf (fun i => xs.getD i 0) xs.length ip l env ↔
      TopBitsOf (fun i => xs.getD i 0) xs.length ip' l env := by
  refine forall_congr' fun i => forall_congr' fun hl => forall_congr' fun hi => ?_
  rw [hip i hl hi]

/-! ### Two prefixes of a field -/

/-- The assignment that gives the field the low bits of an address. -/
def addressField (xs : List Nat) (ip : BitVec 32) (x : Nat) : Bool :=
  ip.getLsbD (xs.length - 1 - xs.idxOf x)

theorem topBitsOf_addressField (hxs : xs.Nodup) (ip : BitVec 32) (l : Nat) :
    TopBitsOf (fun i => xs.getD i 0) xs.length ip l (addressField xs ip) := by
  intro i _ hi
  have hj : xs.length - 1 - i < xs.length := by omega
  dsimp only
  rw [addressField, List.getD_eq_getElem _ _ hj, hxs.idxOf_getElem _ hj,
    show xs.length - 1 - (xs.length - 1 - i) = i by omega]

theorem agree_of_common {l l' : Nat}
    (h : TopBitsOf (fun i => xs.getD i 0) xs.length ip l env)
    (h' : TopBitsOf (fun i => xs.getD i 0) xs.length ip' l' env) :
    AgreeOnTop xs.length (min l l') ip ip' :=
  fun i hl hi => (h i (by omega) hi).symm.trans (h' i (by omega) hi)

theorem topBitsOf_of_agree {l l' : Nat} (hle : l ≤ l') (hip : AgreeOnTop xs.length l ip ip')
    (h : TopBitsOf (fun i => xs.getD i 0) xs.length ip' l' env) :
    TopBitsOf (fun i => xs.getD i 0) xs.length ip l env :=
  fun i hl hi => (h i (by omega) hi).trans (hip i hl hi).symm

theorem nested_iff_agree (hxs : xs.Nodup) (ip ip' : BitVec 32) (l l' : Nat) :
    Nested (TopBitsOf (fun i => xs.getD i 0) xs.length ip l)
        (TopBitsOf (fun i => xs.getD i 0) xs.length ip' l') ↔
      AgreeOnTop xs.length (min l l') ip ip' := by
  constructor
  · intro hnest
    rcases hnest with himp | himp
    · have hself := topBitsOf_addressField hxs ip l
      exact agree_of_common hself (himp _ hself)
    · have hself := topBitsOf_addressField hxs ip' l'
      exact agree_of_common (himp _ hself) hself
  · intro hip
    rcases Nat.le_total l l' with hle | hle
    · rw [Nat.min_eq_left hle] at hip
      exact Or.inr fun env h => topBitsOf_of_agree hle hip h
    · rw [Nat.min_eq_right hle] at hip
      exact Or.inl fun env h =>
        topBitsOf_of_agree hle (fun i hl hi => (hip i hl hi).symm) h

end

/-- **`encodePrefix` is exact**, over any distinct variables: it returns, its predicate accepts the
field values that agree with the address on the top `len` bits, and neither the other variables nor
the other bits of the address matter. Two prefixes of the field are nested or disjoint, and nested
exactly when they agree on the bits of the shorter one. -/
theorem encodePrefix_exact {xs : List Nat} (hxs : Variables xs) {len len' : BitVec 8}
    (hpos : 1 ≤ len.toNat) (hlen : len.toNat ≤ xs.length) (hpos' : 1 ≤ len'.toNat)
    (hlen' : len'.toNat ≤ xs.length) (ip ip' : BitVec 32) (σ σ' : Session) :
    (∃ h s', encodePrefix ip len (xs.map bddIthvar) (BitVec.ofNat 8 xs.length) σ.store =
      .ok (h, s')) ∧
    (∀ (v : BitVec xs.length) (env : Nat → Bool), FieldIs xs v env →
      (prefixAccepts σ xs ip len env ↔ AgreeOnTop xs.length len.toNat v ip)) ∧
    (∀ env env' : Nat → Bool, (∀ x ∈ xs.take len.toNat, env x = env' x) →
      (prefixAccepts σ xs ip len env ↔ prefixAccepts σ xs ip len env')) ∧
    (AgreeOnTop xs.length len.toNat ip ip' →
      ∀ env, prefixAccepts σ xs ip len env ↔ prefixAccepts σ' xs ip' len env) ∧
    (Nested (prefixAccepts σ xs ip len) (prefixAccepts σ' xs ip' len') ∨
      ∀ env, ¬ (prefixAccepts σ xs ip len env ∧ prefixAccepts σ' xs ip' len' env)) ∧
    (Nested (prefixAccepts σ xs ip len) (prefixAccepts σ' xs ip' len') ↔
      AgreeOnTop xs.length (min len.toNat len'.toNat) ip ip') := by
  have hacc : prefixAccepts σ xs ip len = _ :=
    funext fun env => propext (prefixAccepts_iff hxs hpos hlen ip σ env)
  have hacc' : prefixAccepts σ' xs ip' len' = _ :=
    funext fun env => propext (prefixAccepts_iff hxs hpos' hlen' ip' σ' env)
  rw [hacc, hacc', nested_iff_agree hxs.distinct]
  obtain ⟨h, s', hrun, -⟩ := encodePrefix_run hxs hpos hlen ip σ
  refine ⟨⟨h, s', hrun⟩, fun v env hv => topBitsOf_iff_agree hv ip _,
    fun env env' henv => topBitsOf_congr henv ip, fun hip env => ?_, ?_, Iff.rfl⟩
  · rw [prefixAccepts_iff hxs hpos hlen ip' σ']
    exact topBitsOf_agree hip
  · by_cases hip : AgreeOnTop xs.length (min len.toNat len'.toNat) ip ip'
    · exact Or.inl hip
    · exact Or.inr fun env h => hip (agree_of_common h.1 h.2)

/-- The prefix of the test program, and the half of its field above it. -/
theorem encodePrefix_exact_test :
    Nested (prefixAccepts (Session.init Collector.eager) (List.range 16) 445 16)
      (prefixAccepts (Session.init Collector.eager) (List.range 16) 0 1) := by
  have hxs : Variables (List.range 16) :=
    ⟨List.nodup_range, fun x hx => lt_trans (List.mem_range.mp hx) (by decide), by decide⟩
  refine (encodePrefix_exact hxs (by decide) (by decide) (by decide) (by decide) 445 0 _ _).2.2.2.2.2.mpr
    fun i hl hi => ?_
  simp only [List.length_range] at hl hi
  obtain rfl : i = 15 := by
    simp at hl
    omega
  decide

end AtomicPredicate
