import Mathlib.Algebra.Order.BigOperators.Group.List
import Mathlib.Algebra.Order.Group.Multiset
import Mathlib.Algebra.Order.Ring.Nat
import Mathlib.Data.Set.Basic
import Mathlib.Logic.Function.Basic

/-!
# A reference-counted store of shared values

A store maps handles to cells, each a value with an external reference count. Values are shared:
equal values have one handle and one count. Before an operation creates its result, a collector
may reclaim any set of cells whose count is zero, and it chooses where a new cell goes; both
choices are arbitrary functions in `Collector`, so a statement about every collector is a
statement about every moment at which collection may run. Counts saturate at `maxref`, and a
saturated cell is never released again.

Handing a store operation a handle without a positive count is the fault `released`. The store
also carries `roots`, handles that the program's variables hold at the moment: `holding` adds to
them for the duration of a computation, and every operation checks them as it checks its operands.
The roots change nothing but which runs are faulty.

`Owns` is the ownership invariant: with `A` the multiset of handles the program owns and `base` the
counts due to others, every unsaturated count is exactly `base h` plus the number of owners of `h`
in `A`.
-/

namespace AtomicPredicate.Lib

abbrev Handle := Nat

structure Cell (α : Type) where
  value : α
  refcou : Nat

/-- When unreferenced cells are reclaimed, and where new cells are placed. -/
structure Collector where
  reclaims : Nat → Handle → Bool
  place : Nat → List Handle → Handle
  place_fresh : ∀ clock used, place clock used ∉ used

/-- The collector that reclaims all it can before every creation. -/
def Collector.eager : Collector where
  reclaims _ _ := true
  place _ used := used.sum + 1
  place_fresh _ _ hmem :=
    absurd (List.single_le_sum (fun n _ => Nat.zero_le n) _ hmem) (Nat.not_succ_le_self _)

structure Store (α : Type) where
  cell : Handle → Option (Cell α)
  used : List Handle
  clock : Nat
  collector : Collector
  roots : List Handle

inductive Fault (ε : Type) where
  | released (h : Handle)
  | client (e : ε)
  deriving DecidableEq

abbrev StoreM (α ε : Type) := StateT (Store α) (Except (Fault ε))

variable {α ε β : Type}

namespace Store

def count (s : Store α) (h : Handle) : Nat := ((s.cell h).map (·.refcou)).getD 0

def value? (s : Store α) (h : Handle) : Option α := (s.cell h).map (·.value)

/-- Reclaim what the collector chooses among the unreferenced cells. -/
def collect (s : Store α) : Store α :=
  let dead h := s.count h == 0 && s.collector.reclaims s.clock h
  { s with
    cell := fun h => if dead h then none else s.cell h
    used := s.used.filter (! dead ·)
    clock := s.clock + 1 }

def find [DecidableEq α] (s : Store α) (v : α) : Option Handle :=
  s.used.find? fun h => s.value? h == some v

def setCount (s : Store α) (h : Handle) (v : α) (n : Nat) : Store α :=
  { s with cell := Function.update s.cell h (some ⟨v, n⟩) }

/-- The handle of `v`, in a new unreferenced cell if there is none. -/
def intern [DecidableEq α] (v : α) (s : Store α) : Handle × Store α :=
  match s.find v with
  | some h => (h, s)
  | none =>
    let h := s.collector.place s.clock s.used
    (h, { s.setCount h v 0 with used := h :: s.used })

end Store

/-- Fault unless every handle of `hs` and every root has a positive count. -/
def guardHeld (hs : List Handle) : StoreM α ε Unit := fun s =>
  match (hs ++ s.roots).find? (fun h => s.count h == 0) with
  | some h => .error (.released h)
  | none => .ok ((), s)

def valueOf (h : Handle) : StoreM α ε α := fun s =>
  match s.value? h with
  | some v => .ok (v, s)
  | none => .error (.released h)

section Operations

variable [DecidableEq α]

/-- Create the value `v`: the collector runs first. -/
def create (v : α) : StoreM α ε Handle := fun s => .ok (s.collect.intern v)

def operate₁ (f : α → α) (h : Handle) : StoreM α ε Handle := do
  guardHeld [h]
  create (f (← valueOf h))

def operate₂ (f : α → α → α) (l r : Handle) : StoreM α ε Handle := do
  guardHeld [l, r]
  create (f (← valueOf l) (← valueOf r))

end Operations

/-- Where counts saturate, and the handles whose counts are never touched. -/
structure Counting where
  maxref : Nat
  exempt : Handle → Bool

def incref (maxref : Nat) (h : Handle) : StoreM α ε Handle := fun s =>
  match s.cell h with
  | some c => .ok (h, s.setCount h c.value (if c.refcou < maxref then c.refcou + 1 else c.refcou))
  | none => .error (.released h)

def decref (maxref : Nat) (h : Handle) : StoreM α ε Unit := fun s =>
  match s.cell h with
  | some c => .ok ((), s.setCount h c.value (if c.refcou = maxref then c.refcou else c.refcou - 1))
  | none => .error (.released h)

def addref (c : Counting) (h : Handle) : StoreM α ε Handle := do
  guardHeld []
  if c.exempt h then pure h else incref c.maxref h

def delref (c : Counting) (h : Handle) : StoreM α ε Unit := do
  guardHeld [h]
  if c.exempt h then pure () else decref c.maxref h

/-- Run `m` while the program's variables also hold the handles `hs`. -/
def holding (hs : List Handle) (m : StoreM α ε β) : StoreM α ε β := fun s =>
  match m { s with roots := hs ++ s.roots } with
  | .ok (b, s') => .ok (b, { s' with roots := s.roots })
  | .error e => .error e

/-! ### Ownership -/

/-- A counting regime with its permanently held cells, the exempt ones among them. -/
structure Discipline (α : Type) extends Counting where
  permanent : Set (Handle × α)
  maxref_pos : 0 < maxref
  exempt_permanent : ∀ h, exempt h → ∃ v, (h, v) ∈ permanent

/-- The number of owners of a handle. -/
def owners (A : Multiset (Handle × α)) (h : Handle) : Nat := (A.map Prod.fst).count h

@[simp] theorem owners_zero (h : Handle) : owners (0 : Multiset (Handle × α)) h = 0 := rfl

theorem owners_cons (p : Handle × α) (A : Multiset (Handle × α)) (h : Handle) :
    owners (p ::ₘ A) h = owners A h + if h = p.1 then 1 else 0 := by
  simp [owners, Multiset.count_cons]

theorem owners_add (A B : Multiset (Handle × α)) (h : Handle) :
    owners (A + B) h = owners A h + owners B h := by
  rw [owners, Multiset.map_add, Multiset.count_add]
  rfl

theorem owners_eq_zero {A : Multiset (Handle × α)} {h : Handle} :
    owners A h = 0 ↔ ∀ p ∈ A, p.1 ≠ h := by
  rw [owners, Multiset.count_eq_zero, Multiset.mem_map]
  exact ⟨fun hn p hp heq => hn ⟨p, hp, heq⟩, fun hall ⟨p, hp, heq⟩ => hall p hp heq⟩

theorem owners_coe (l : List (Handle × α)) (h : Handle) :
    owners (l : Multiset (Handle × α)) h = (l.map Prod.fst).count h := by
  rw [owners, Multiset.map_coe, Multiset.coe_count]

theorem owners_pos {p : Handle × α} {A : Multiset (Handle × α)} (hp : p ∈ A) :
    0 < owners A p.1 :=
  Multiset.count_pos.mpr (Multiset.mem_map.mpr ⟨p, hp, rfl⟩)

structure Owns (D : Discipline α) (base : Handle → Nat) (A : Multiset (Handle × α))
    (s : Store α) : Prop where
  mem_used : ∀ h, h ∈ s.used ↔ (s.cell h).isSome
  shared : ∀ h₁ h₂ v, s.value? h₁ = some v → s.value? h₂ = some v → h₁ = h₂
  permanent : ∀ p ∈ D.permanent, s.cell p.1 = some ⟨p.2, D.maxref⟩
  value : ∀ p ∈ A, s.value? p.1 = some p.2
  count_le : ∀ h, s.count h ≤ D.maxref
  count : ∀ h, s.count h = D.maxref ∨ s.count h = base h + owners A h

namespace Owns

variable {D : Discipline α} {base : Handle → Nat} {A : Multiset (Handle × α)} {s : Store α}

theorem count_pos (ho : Owns D base A s) {p : Handle × α} (hp : p ∈ A) : 0 < s.count p.1 := by
  have hpos := owners_pos hp
  rcases ho.count p.1 with h | h
  · rw [h]
    exact D.maxref_pos
  · omega

theorem count_eq (ho : Owns D base A s) {h : Handle} (hh : s.count h < D.maxref) :
    s.count h = base h + owners A h := (ho.count h).resolve_left hh.ne

theorem count_permanent (ho : Owns D base A s) {p : Handle × α} (hp : p ∈ D.permanent) :
    s.count p.1 = D.maxref := by
  simp [Store.count, ho.permanent p hp]

theorem cons_permanent (ho : Owns D base A s) {p : Handle × α} (hp : p ∈ D.permanent) :
    Owns D base (p ::ₘ A) s := by
  have hcell := ho.permanent p hp
  refine { ho with value := fun q hq => ?_, count := fun h => ?_ }
  · rcases Multiset.mem_cons.mp hq with rfl | hq
    · simp [Store.value?, hcell]
    · exact ho.value q hq
  · by_cases hh : h = p.1
    · subst hh
      left
      simp [Store.count, hcell]
    · rw [owners_cons, if_neg hh]
      exact ho.count h

theorem of_cons_permanent {p : Handle × α} (ho : Owns D base (p ::ₘ A) s)
    (hp : p ∈ D.permanent) : Owns D base A s := by
  refine { ho with
    value := fun q hq => ho.value q (Multiset.mem_cons_of_mem hq), count := fun h => ?_ }
  have hc := ho.count h
  rw [owners_cons] at hc
  split_ifs at hc with hh
  · left
    rw [hh]
    simp [Store.count, ho.permanent p hp]
  · exact hc

theorem mem_permanent (ho : Owns D base A s) {h : Handle} {v : α} (hv : s.value? h = some v)
    (hex : D.exempt h) : (h, v) ∈ D.permanent := by
  obtain ⟨w, hw⟩ := D.exempt_permanent h hex
  have hcell := ho.permanent _ hw
  have : w = v := by simpa [Store.value?, hcell] using hv
  exact this ▸ hw

theorem permanent_iff (ho : Owns D base A s) {p q : Handle × α} (hp : p ∈ A)
    (hq : q ∈ D.permanent) : p.1 = q.1 ↔ p.2 = q.2 := by
  have hvp := ho.value p hp
  have hvq : s.value? q.1 = some q.2 := by simp [Store.value?, ho.permanent q hq]
  constructor
  · intro h
    rw [h, hvq] at hvp
    exact (Option.some.inj hvp).symm
  · intro h
    exact ho.shared p.1 q.1 q.2 (h ▸ hvp) hvq

theorem guardHeld_eq (ho : Owns D base A s) (hs : List Handle)
    (hhs : ∀ h ∈ hs, ∃ v, (h, v) ∈ A) (hroots : ∀ h ∈ s.roots, ∃ v, (h, v) ∈ A) :
    guardHeld (ε := ε) hs s = .ok ((), s) := by
  have hnone : (hs ++ s.roots).find? (fun h => s.count h == 0) = none := by
    simp only [List.find?_eq_none, List.mem_append, beq_iff_eq]
    rintro h hmem
    obtain ⟨v, hv⟩ := hmem.elim (hhs h) (hroots h)
    exact (ho.count_pos hv).ne'
  simp [guardHeld, hnone]

theorem valueOf_eq (ho : Owns D base A s) {h : Handle} {v : α} (hv : (h, v) ∈ A) :
    valueOf (ε := ε) h s = .ok (v, s) := by
  simp [valueOf, ho.value _ hv]

/-! ### What each primitive does to ownership -/

theorem count_collect (s : Store α) (h : Handle) : s.collect.count h = s.count h := by
  have hcell : s.collect.cell h = if s.count h == 0 && s.collector.reclaims s.clock h then none
      else s.cell h := rfl
  unfold Store.count at hcell ⊢
  rw [hcell]
  split_ifs with hd
  · simp only [Bool.and_eq_true, beq_iff_eq] at hd
    exact hd.1.symm
  · rfl

theorem value?_collect_le {h : Handle} {v : α} (hv : s.collect.value? h = some v) :
    s.value? h = some v := by
  unfold Store.collect Store.value? at hv
  dsimp only at hv
  split_ifs at hv
  · simp at hv
  · exact hv

theorem cell_collect {h : Handle} (hpos : 0 < s.count h) : s.collect.cell h = s.cell h := by
  simp [Store.collect, hpos.ne']

theorem collect (ho : Owns D base A s) : Owns D base A s.collect where
  mem_used h := by
    simp only [Store.collect, List.mem_filter, ho.mem_used, Bool.not_eq_true']
    split_ifs with hd <;> simp [hd]
  shared h₁ h₂ v hv₁ hv₂ := ho.shared h₁ h₂ v (value?_collect_le hv₁) (value?_collect_le hv₂)
  permanent p hp := by
    rw [cell_collect]
    · exact ho.permanent p hp
    · simp [Store.count, ho.permanent p hp, D.maxref_pos]
  value p hp := by
    rw [Store.value?, cell_collect (ho.count_pos hp)]
    exact ho.value p hp
  count_le h := by
    rw [count_collect]
    exact ho.count_le h
  count h := by
    rw [count_collect]
    exact ho.count h

theorem cell_setCount (s : Store α) (h h' : Handle) (v : α) (n : Nat) :
    (s.setCount h v n).cell h' = if h' = h then some ⟨v, n⟩ else s.cell h' := by
  simp [Store.setCount, Function.update_apply]

theorem count_setCount (s : Store α) (h h' : Handle) (v : α) (n : Nat) :
    (s.setCount h v n).count h' = if h' = h then n else s.count h' := by
  simp only [Store.count, cell_setCount]
  split_ifs <;> rfl

theorem value?_setCount (s : Store α) (h h' : Handle) (v : α) (n : Nat) :
    (s.setCount h v n).value? h' = if h' = h then some v else s.value? h' := by
  simp only [Store.value?, cell_setCount]
  split_ifs <;> rfl

theorem setCount (ho : Owns D base A s) {h : Handle} {v : α} (hv : s.value? h = some v) {n : Nat}
    {B : Multiset (Handle × α)} (hB : ∀ p ∈ B, s.value? p.1 = some p.2)
    (hother : ∀ h' ≠ h, owners B h' = owners A h') (hle : n ≤ D.maxref)
    (hn : n = D.maxref ∨ n = base h + owners B h)
    (hperm : s.count h = D.maxref → n = D.maxref) : Owns D base B (s.setCount h v n) where
  mem_used h' := by
    rw [cell_setCount, show (s.setCount h v n).used = s.used from rfl, ho.mem_used]
    split_ifs with hh
    · subst hh
      simp only [Store.value?, Option.map_eq_some_iff] at hv
      obtain ⟨c, hc, -⟩ := hv
      simp [hc]
    · rfl
  shared h₁ h₂ w hw₁ hw₂ := by
    refine ho.shared h₁ h₂ w ?_ ?_
    · rw [value?_setCount] at hw₁
      split_ifs at hw₁ with hh
      · rw [hh, hv, hw₁]
      · exact hw₁
    · rw [value?_setCount] at hw₂
      split_ifs at hw₂ with hh
      · rw [hh, hv, hw₂]
      · exact hw₂
  permanent p hp := by
    have hcell := ho.permanent p hp
    rw [cell_setCount]
    split_ifs with hh
    · subst hh
      have hval : v = p.2 := by simpa [Store.value?, hcell] using hv.symm
      rw [hval, hperm (by simp [Store.count, hcell])]
    · exact hcell
  value p hp := by
    rw [value?_setCount]
    split_ifs with hh
    · rw [← hv, ← hh]
      exact hB p hp
    · exact hB p hp
  count_le h' := by
    rw [count_setCount]
    split_ifs
    · exact hle
    · exact ho.count_le h'
  count h' := by
    rw [count_setCount]
    split_ifs with hh
    · rw [hh]
      exact hn
    · rw [hother h' hh]
      exact ho.count h'

theorem find_eq_some [DecidableEq α] {v : α} {h : Handle} (hf : s.find v = some h) :
    s.value? h = some v := by
  simpa using List.find?_some hf

theorem find_eq_none [DecidableEq α] (ho : Owns D base A s) {v : α} (hf : s.find v = none)
    (h : Handle) : s.value? h ≠ some v := by
  intro hv
  have hused : h ∈ s.used := by
    rw [ho.mem_used]
    simp only [Store.value?, Option.map_eq_some_iff] at hv
    obtain ⟨c, hc, -⟩ := hv
    simp [hc]
  simpa [hv] using List.find?_eq_none.mp hf h hused

theorem intern [DecidableEq α] (ho : Owns D base A s) (v : α) :
    Owns D base A (s.intern v).2 ∧ (s.intern v).2.value? (s.intern v).1 = some v ∧
      (s.intern v).2.roots = s.roots := by
  cases hf : s.find v with
  | some h => simp [Store.intern, hf, ho, find_eq_some hf]
  | none =>
    have hfresh : s.collector.place s.clock s.used ∉ s.used := s.collector.place_fresh _ _
    simp only [Store.intern, hf]
    generalize s.collector.place s.clock s.used = h at hfresh
    have hnone : s.cell h = none := by simpa [ho.mem_used] using hfresh
    have hcount : s.count h = 0 := by simp [Store.count, hnone]
    refine ⟨?_, ?_, rfl⟩
    · refine ⟨fun h' => ?_, fun h₁ h₂ w hw₁ hw₂ => ?_, fun p hp => ?_, fun p hp => ?_, fun h' => ?_,
        fun h' => ?_⟩
      · show h' ∈ h :: s.used ↔ ((s.setCount h v 0).cell h').isSome
        rw [cell_setCount, List.mem_cons, ho.mem_used]
        split_ifs with hh <;> simp [hh]
      · change (s.setCount h v 0).value? h₁ = some w at hw₁
        change (s.setCount h v 0).value? h₂ = some w at hw₂
        rw [value?_setCount] at hw₁ hw₂
        split_ifs at hw₁ hw₂ with h1 h2 h2
        · rw [h1, h2]
        · exact absurd (hw₂.trans hw₁.symm) (ho.find_eq_none hf h₂)
        · exact absurd (hw₁.trans hw₂.symm) (ho.find_eq_none hf h₁)
        · exact ho.shared h₁ h₂ w hw₁ hw₂
      · show (s.setCount h v 0).cell p.1 = _
        have hcell := ho.permanent p hp
        rw [cell_setCount, if_neg, hcell]
        rintro rfl
        simp [hnone] at hcell
      · show (s.setCount h v 0).value? p.1 = _
        have hval := ho.value p hp
        rw [value?_setCount, if_neg, hval]
        rintro rfl
        simp [Store.value?, hnone] at hval
      · show (s.setCount h v 0).count h' ≤ _
        rw [count_setCount]
        split_ifs
        · exact Nat.zero_le _
        · exact ho.count_le h'
      · show (s.setCount h v 0).count h' = _ ∨ (s.setCount h v 0).count h' = _
        rw [count_setCount]
        split_ifs with hh
        · rw [hh, ← hcount]
          exact ho.count h
        · exact ho.count h'
    · show (s.setCount h v 0).value? h = some v
      rw [value?_setCount, if_pos rfl]

theorem guardHeld_bind {m : StoreM α ε β} (ho : Owns D base A s) (hs : List Handle)
    (hhs : ∀ h ∈ hs, ∃ v, (h, v) ∈ A) (hroots : ∀ h ∈ s.roots, ∃ v, (h, v) ∈ A) :
    (guardHeld hs >>= fun _ => m) s = m s := by
  simp only [bind, StateT.bind, ho.guardHeld_eq hs hhs hroots, Except.bind]

theorem addref_eq (ho : Owns D base A s) (hroots : ∀ h ∈ s.roots, ∃ v, (h, v) ∈ A) {h : Handle}
    {v : α} (hv : s.value? h = some v) :
    ∃ s', addref (ε := ε) D.toCounting h s = .ok (h, s') ∧ Owns D base ((h, v) ::ₘ A) s' ∧
      s'.roots = s.roots := by
  unfold addref
  rw [ho.guardHeld_bind [] (by simp) hroots]
  by_cases hex : D.exempt h
  · rw [if_pos hex]
    exact ⟨s, rfl, ho.cons_permanent (ho.mem_permanent hv hex), rfl⟩
  obtain ⟨⟨w, n⟩, hcell, rfl⟩ : ∃ c, s.cell h = some c ∧ c.value = v := by
    simpa [Store.value?] using hv
  have hn : s.count h = n := by simp [Store.count, hcell]
  rw [if_neg hex]
  refine ⟨s.setCount h w (if n < D.maxref then n + 1 else n), by simp [incref, hcell], ?_, rfl⟩
  have hle := ho.count_le h
  refine ho.setCount hv (fun p hp => ?_) (fun h' hh => ?_) ?_ ?_ ?_
  · rcases Multiset.mem_cons.mp hp with rfl | hp
    · exact hv
    · exact ho.value p hp
  · rw [owners_cons, if_neg hh, Nat.add_zero]
  · split_ifs <;> omega
  · rw [owners_cons, if_pos rfl]
    have := ho.count h
    split_ifs <;> omega
  · split_ifs <;> omega

theorem delref_eq {h : Handle} {v : α} (ho : Owns D base ((h, v) ::ₘ A) s)
    (hroots : ∀ h' ∈ s.roots, ∃ w, (h', w) ∈ (h, v) ::ₘ A) :
    ∃ s', delref (ε := ε) D.toCounting h s = .ok ((), s') ∧ Owns D base A s' ∧
      s'.roots = s.roots := by
  have hv : s.value? h = some v := ho.value (h, v) (Multiset.mem_cons_self _ _)
  unfold delref
  rw [ho.guardHeld_bind [h] (fun h' hh => ⟨v, by simp [List.mem_singleton.mp hh]⟩) hroots]
  by_cases hex : D.exempt h
  · rw [if_pos hex]
    exact ⟨s, rfl, ho.of_cons_permanent (ho.mem_permanent hv hex), rfl⟩
  obtain ⟨⟨w, n⟩, hcell, rfl⟩ : ∃ c, s.cell h = some c ∧ c.value = v := by
    simpa [Store.value?] using hv
  have hn : s.count h = n := by simp [Store.count, hcell]
  rw [if_neg hex]
  refine ⟨s.setCount h w (if n = D.maxref then n else n - 1), by simp [decref, hcell], ?_, rfl⟩
  have hle := ho.count_le h
  refine ho.setCount hv (fun p hp => ?_) (fun h' hh => ?_) ?_ ?_ ?_
  · exact ho.value p (Multiset.mem_cons_of_mem hp)
  · rw [owners_cons, if_neg hh, Nat.add_zero]
  · split_ifs <;> omega
  · have hc := ho.count h
    simp only [owners_cons, if_true] at hc
    split_ifs <;> omega
  · intro hmax
    rw [if_pos (hn.symm.trans hmax), ← hn, hmax]

end Owns

end AtomicPredicate.Lib
