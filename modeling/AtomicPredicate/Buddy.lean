import AtomicPredicate.Data
import AtomicPredicate.Lib.Diagram
import AtomicPredicate.Lib.Triple

/-!
# BuDDy as the classifier uses it

The store of `Lib.RefStore` holding reduced diagrams over variable levels, with the operations of
`bddop.c` and `kernel.c` that `bddwrapper.c` calls. Handles `0` and `1` are the constants, and
`bdd_setvarnum` takes the next handles in order for the literals of each variable; both are created
with a saturated count. `bdd_addref` and `bdd_delref` return the constants untouched.

A handle stands for the function it denotes, which `Robdd` makes unique, and memory is unbounded. The
node table and the operation caches that the package keeps are those of `Kernel`, which refines this.
-/

namespace AtomicPredicate

open Lib

abbrev Bdd := Robdd Nat

/-- Faults of the classifier itself: an array index outside its bounds, a shift count outside the
width of the shifted value, and the call of `exit` when the variables are not set up. -/
inductive CFault where
  | index
  | shift
  | exit
  deriving DecidableEq, Repr

abbrev BddM := StoreM Bdd CFault

def bddfalse : Handle := 0
def bddtrue : Handle := 1

def MAXREF : Nat := 0x3FF

inductive BddOp where
  | and
  | or
  deriving DecidableEq, Repr

/-! ### The operations -/

section

open Diagram

/-- The cases `apply_rec` answers at once for `bddop_and`. -/
def andShortcut : Shortcut Nat (· && ·) where
  answer l r :=
    if l = r then some l
    else if l = leaf false ∨ r = leaf false then some (leaf false)
    else if l = leaf true then some r
    else if r = leaf true then some l
    else none
  eval_answer := by
    intro l r d h env
    split_ifs at h with h1 h2 h3 h4
    · cases h; subst h1; simp
    · cases h; rcases h2 with rfl | rfl <;> simp
    · cases h; subst h3; simp
    · cases h; subst h4; simp
  answer_mem := by
    intro l r d h
    split_ifs at h <;> cases h <;> simp

/-- The cases `apply_rec` answers at once for `bddop_or`. -/
def orShortcut : Shortcut Nat (· || ·) where
  answer l r :=
    if l = r then some l
    else if l = leaf true ∨ r = leaf true then some (leaf true)
    else if l = leaf false then some r
    else if r = leaf false then some l
    else none
  eval_answer := by
    intro l r d h env
    split_ifs at h with h1 h2 h3 h4
    · cases h; subst h1; simp
    · cases h; rcases h2 with rfl | rfl <;> simp
    · cases h; subst h3; simp
    · cases h; subst h4; simp
  answer_mem := by
    intro l r d h
    split_ifs at h <;> cases h <;> simp

end

def BddOp.apply : BddOp → Bdd → Bdd → Bdd
  | .and => Robdd.apply andShortcut
  | .or => Robdd.apply orShortcut

@[simp] theorem BddOp.eval_and (a b : Bdd) (env : Nat → Bool) :
    (BddOp.and.apply a b).eval env = (a.eval env && b.eval env) := Robdd.eval_apply andShortcut a b env

@[simp] theorem BddOp.eval_or (a b : Bdd) (env : Nat → Bool) :
    (BddOp.or.apply a b).eval env = (a.eval env || b.eval env) := Robdd.eval_apply orShortcut a b env

def bddApply (l r : Handle) (op : BddOp) : BddM Handle := operate₂ op.apply l r

def bddNot (r : Handle) : BddM Handle := operate₁ Robdd.neg r

def counting : Counting := ⟨MAXREF, fun root => root < 2⟩

def bddAddref (root : Handle) : BddM Handle := addref counting root

def bddDelref (root : Handle) : BddM Unit := delref counting root

/-! ### Initialisation -/

def bddIthvar (var : Nat) : Handle := if var < totalBits then 2 * var + 2 else bddfalse

/-- The node behind a handle after `bdd_init` and `bdd_setvarnum(totalBits)`. -/
def initialBdd (h : Nat) : Option Bdd :=
  if h = 0 then some (.const false)
  else if h = 1 then some (.const true)
  else if h < 2 * totalBits + 2 then some (.literal ((h - 2) / 2) (h % 2 == 0))
  else none

def bddInit (collector : Collector) : Store Bdd where
  cell h := (initialBdd h).map fun v => ⟨v, MAXREF⟩
  used := List.range (2 * totalBits + 2)
  clock := 0
  collector := collector
  roots := []

structure Fields where
  srcIP : List Handle
  dstIP : List Handle
  srcPort : List Handle
  dstPort : List Handle
  protocol : List Handle

def initFieldVar : Fields where
  srcIP := (List.range ipBits).map fun i => bddIthvar i
  dstIP := (List.range ipBits).map fun i => bddIthvar (i + ipBits)
  srcPort := (List.range portBits).map fun i => bddIthvar (i + (ipBits + ipBits))
  dstPort := (List.range portBits).map fun i => bddIthvar (i + (ipBits + ipBits + portBits))
  protocol := (List.range protocolBits).map fun i =>
    bddIthvar (i + (ipBits + ipBits + portBits + portBits))

/-! ### The discipline -/

def discipline : Discipline Bdd where
  toCounting := counting
  permanent := {p | initialBdd p.1 = some p.2}
  maxref_pos := by decide
  exempt_permanent := fun (h : Nat) hex => by
    have hlt : (h : Nat) < 2 := of_decide_eq_true hex
    rcases (by omega : h = 0 ∨ h = 1) with rfl | rfl
    · exact ⟨.const false, rfl⟩
    · exact ⟨.const true, rfl⟩

theorem mem_permanent_false : (bddfalse, Robdd.const false) ∈ discipline.permanent := rfl

theorem mem_permanent_true : (bddtrue, Robdd.const true) ∈ discipline.permanent := rfl

theorem mem_permanent_ithvar {i : Nat} (hi : i < totalBits) :
    (bddIthvar i, Robdd.literal i true) ∈ discipline.permanent := by
  show initialBdd (bddIthvar i) = some (Robdd.literal i true)
  unfold initialBdd bddIthvar
  rw [if_pos hi, if_neg (by omega), if_neg (by omega), if_pos (by omega)]
  congr 2
  · omega
  · simp

theorem mem_permanent_nithvar {i : Nat} (hi : i < totalBits) :
    (bddIthvar i + 1, Robdd.literal i false) ∈ discipline.permanent := by
  show initialBdd (bddIthvar i + 1) = some (Robdd.literal i false)
  unfold initialBdd bddIthvar
  rw [if_pos hi, if_neg (by omega), if_neg (by omega), if_pos (by omega)]
  congr 2
  · omega
  · simp
    omega

theorem initialBdd_inj {h₁ h₂ : Nat} {v : Bdd} (h1 : initialBdd h₁ = some v)
    (h2 : initialBdd h₂ = some v) : h₁ = h₂ := by
  unfold initialBdd at h1 h2
  split_ifs at h1 h2 <;> simp only [Option.some.injEq] at h1 h2 <;> subst h1 <;>
    simp [Robdd.const, Robdd.literal] at h2 <;> grind

theorem owns_bddInit (collector : Collector) :
    Owns discipline (fun _ => 0) 0 (bddInit collector) where
  mem_used h := by
    simp only [bddInit, List.mem_range, Option.isSome_map]
    unfold initialBdd totalBits
    split_ifs <;> simp <;> omega
  shared h₁ h₂ v hv₁ hv₂ := by
    simp only [Store.value?, bddInit, Option.map_map, Function.comp_def, Option.map_id'] at hv₁ hv₂
    exact initialBdd_inj hv₁ hv₂
  permanent p hp := by
    show (initialBdd p.1).map _ = _
    rw [show initialBdd p.1 = some p.2 from hp]
    rfl
  value p hp := by simp at hp
  count_le h := by
    simp only [Store.count, bddInit]
    cases initialBdd h <;> simp [discipline, counting]
  count h := by
    simp only [Store.count, bddInit]
    cases initialBdd h <;> simp [discipline, counting]

/-! ### Sessions -/

/-- A state of the store between calls: the roots in force are owned, and the counts agree with
the owners. -/
def Ready (s : Store Bdd) : Prop :=
  ∃ base A, (∀ h ∈ s.roots, ∃ v, (h, v) ∈ A) ∧ Owns discipline base A s

/-- A store in which the field variables are set up. -/
structure Session where
  store : Store Bdd
  ready : Ready store

def Session.init (collector : Collector) : Session where
  store := bddInit collector
  ready := ⟨_, 0, by simp [bddInit], owns_bddInit collector⟩

/-- The value of the predicate behind a handle at an assignment. -/
def evalHandle (s : Store Bdd) (h : Handle) (env : Nat → Bool) : Bool :=
  ((s.value? h).map (·.eval env)).getD false

def Satisfies (s : Store Bdd) (h : Handle) (p : Packet) : Prop := evalHandle s h p.assignment = true

theorem evalHandle_eq {s : Store Bdd} {h : Handle} {v : Bdd} (hv : s.value? h = some v)
    (env : Nat → Bool) : evalHandle s h env = v.eval env := by
  simp [evalHandle, hv]

theorem run_session {β : Type} {m : BddM β} {Q : β → Multiset (Handle × Bdd) → Prop}
    {E : CFault → Prop} (hm : Triple discipline 0 m Q E) (σ : Session) :
    (∃ b s' B, m σ.store = .ok (b, s') ∧ Q b B ∧ (∀ p ∈ B, s'.value? p.1 = some p.2) ∧
      (∀ p ∈ B, 0 < s'.count p.1) ∧ Ready s') ∨
      ∃ e, m σ.store = .error (.client e) ∧ E e := by
  obtain ⟨s, base, A, hroots, ho⟩ := σ
  have h := hm base A s hroots (by rwa [zero_add])
  show (∃ b s' B, m s = _ ∧ _) ∨ ∃ e, m s = _ ∧ _
  cases hrun : m s with
  | error e =>
    rw [hrun] at h
    cases e with
    | client e => exact Or.inr ⟨e, rfl, h⟩
    | released _ => exact h.elim
  | ok p =>
    rw [hrun] at h
    obtain ⟨⟨B, hQ, ho'⟩, hr⟩ := h
    refine Or.inl ⟨p.1, p.2, B, rfl, hQ,
      fun q hq => ho'.value q (Multiset.mem_add.mpr (Or.inl hq)),
      fun q hq => ho'.count_pos (Multiset.mem_add.mpr (Or.inl hq)), base, B + A, ?_, ho'⟩
    intro h hh
    rw [hr] at hh
    exact (hroots h hh).imp fun _ hv => Multiset.mem_add.mpr (Or.inr hv)

end AtomicPredicate
