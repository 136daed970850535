import Mathlib.Data.List.Basic
import Mathlib.Data.List.Perm.Basic
import Mathlib.Tactic.Tauto

/-!
# First match

Rules over inputs, with a relation `hit` saying which inputs a rule matches. `FirstHit hit l x r`:
the first rule of `l` that hits `x` is `r`. `Selects hit P l x`: that rule exists and has the
property `P`, such as permitting, or leading to a port.

A scan of the rules keeps `Selects` up to date from the union of the rules already seen
(`selects_append`), or from the union of those without `P` (`selects_append_of_pos`). Concatenating
lists in every order gives the same selection exactly when no input is selected by one list and
rejected by another (`selects_perm_iff`). `FirstNew` says that no class of rules starts with a rule
that the rules before it cover. When the rules are in decreasing order of a rank, the first match is
the match of greatest rank (`selects_iff_greatest`).
-/

namespace AtomicPredicate.Lib

variable {ρ X : Type}

def FirstHit (hit : ρ → X → Prop) (l : List ρ) (x : X) (r : ρ) : Prop :=
  ∃ before after, l = before ++ r :: after ∧ hit r x ∧ ∀ q ∈ before, ¬ hit q x

/-- The first rule that hits `x` exists and satisfies `P`. -/
def Selects (hit : ρ → X → Prop) (P : ρ → Prop) (l : List ρ) (x : X) : Prop :=
  ∃ r, FirstHit hit l x r ∧ P r

variable {hit : ρ → X → Prop} {P Q : ρ → Prop} {l l' : List ρ} {x : X} {r r' q : ρ}

namespace FirstHit

theorem mem (h : FirstHit hit l x r) : r ∈ l := by
  obtain ⟨before, after, rfl, -, -⟩ := h
  simp

theorem hits (h : FirstHit hit l x r) : hit r x := by
  obtain ⟨-, -, -, hr, -⟩ := h
  exact hr

theorem not_nil : ¬ FirstHit hit [] x r := fun h => by simpa using h.mem

theorem cons_iff : FirstHit hit (q :: l) x r ↔
    (hit q x ∧ r = q) ∨ (¬ hit q x ∧ FirstHit hit l x r) := by
  constructor
  · rintro ⟨before, after, heq, hr, hbefore⟩
    cases before with
    | nil =>
      obtain ⟨rfl, -⟩ := List.cons.inj heq
      exact Or.inl ⟨hr, rfl⟩
    | cons p before =>
      obtain ⟨rfl, rfl⟩ := List.cons.inj heq
      exact Or.inr ⟨hbefore _ (by simp), before, after, rfl, hr,
        fun p hp => hbefore p (List.mem_cons_of_mem _ hp)⟩
  · rintro (⟨hq, rfl⟩ | ⟨hq, before, after, rfl, hr, hbefore⟩)
    · exact ⟨[], l, rfl, hq, by simp⟩
    · refine ⟨q :: before, after, rfl, hr, fun p hp => ?_⟩
      rcases List.mem_cons.mp hp with rfl | hp
      · exact hq
      · exact hbefore p hp

theorem append_iff : FirstHit hit (l ++ l') x r ↔
    FirstHit hit l x r ∨ ((∀ q ∈ l, ¬ hit q x) ∧ FirstHit hit l' x r) := by
  induction l with
  | nil => simp [not_nil]
  | cons q l ih =>
    rw [List.cons_append, cons_iff, cons_iff, ih]
    simp only [List.forall_mem_cons]
    tauto

theorem congr {Y : Type} {hit' : ρ → Y → Prop} {y : Y} (hxy : ∀ r ∈ l, (hit r x ↔ hit' r y)) :
    FirstHit hit l x r ↔ FirstHit hit' l y r := by
  induction l with
  | nil => simp [not_nil]
  | cons q l ih =>
    rw [cons_iff, cons_iff, hxy q (by simp), ih fun r hr => hxy r (List.mem_cons_of_mem _ hr)]

theorem unique (h : FirstHit hit l x r) (h' : FirstHit hit l x r') : r = r' := by
  induction l with
  | nil => exact absurd h not_nil
  | cons q l ih =>
    rw [cons_iff] at h h'
    rcases h with ⟨hq, rfl⟩ | ⟨hq, h⟩ <;> rcases h' with ⟨hq', rfl⟩ | ⟨hq', h'⟩
    · rfl
    · exact absurd hq hq'
    · exact absurd hq' hq
    · exact ih h h'

end FirstHit

theorem exists_firstHit (h : ∃ r ∈ l, hit r x) : ∃ r, FirstHit hit l x r := by
  induction l with
  | nil => simp at h
  | cons q l ih =>
    by_cases hq : hit q x
    · exact ⟨q, FirstHit.cons_iff.mpr (Or.inl ⟨hq, rfl⟩)⟩
    · obtain ⟨r, hr, hx⟩ := h
      rcases List.mem_cons.mp hr with rfl | hr
      · exact absurd hx hq
      · obtain ⟨p, hp⟩ := ih ⟨r, hr, hx⟩
        exact ⟨p, FirstHit.cons_iff.mpr (Or.inr ⟨hq, hp⟩)⟩

/-! ### Scanning -/

theorem not_selects_nil : ¬ Selects hit P [] x := fun ⟨_, h, _⟩ => FirstHit.not_nil h

theorem selects_congr {Y : Type} {hit' : ρ → Y → Prop} {y : Y}
    (hxy : ∀ r ∈ l, (hit r x ↔ hit' r y)) : Selects hit P l x ↔ Selects hit' P l y :=
  exists_congr fun _ => and_congr_left fun _ => FirstHit.congr hxy

theorem selects_append_list : Selects hit P (l ++ l') x ↔
    Selects hit P l x ∨ ((∀ r ∈ l, ¬ hit r x) ∧ Selects hit P l' x) := by
  unfold Selects
  simp only [FirstHit.append_iff, or_and_right, exists_or, and_assoc, exists_and_left]

theorem selects_append : Selects hit P (l ++ [q]) x ↔
    Selects hit P l x ∨ (P q ∧ hit q x ∧ ¬ ∃ r ∈ l, hit r x) := by
  rw [selects_append_list]
  apply or_congr_right
  simp only [Selects, FirstHit.cons_iff, FirstHit.not_nil, and_false, or_false, not_exists, not_and]
  constructor
  · rintro ⟨hl, _, ⟨hq, rfl⟩, hP⟩
    exact ⟨hP, hq, hl⟩
  · rintro ⟨hP, hq, hl⟩
    exact ⟨hl, q, ⟨hq, rfl⟩, hP⟩

theorem selects_append_of_pos (hq : P q) : Selects hit P (l ++ [q]) x ↔
    Selects hit P l x ∨ (hit q x ∧ ¬ ∃ r ∈ l, ¬ P r ∧ hit r x) := by
  rw [selects_append]
  constructor
  · rintro (h | ⟨-, hx, hno⟩)
    · exact Or.inl h
    · exact Or.inr ⟨hx, fun ⟨r, hr, _, hrx⟩ => hno ⟨r, hr, hrx⟩⟩
  · rintro (h | ⟨hx, hno⟩)
    · exact Or.inl h
    by_cases hex : ∃ r ∈ l, hit r x
    · obtain ⟨r, hr⟩ := exists_firstHit hex
      exact Or.inl ⟨r, hr, by_contra fun hP => hno ⟨r, hr.mem, hP, hr.hits⟩⟩
    · exact Or.inr ⟨hq, hx, hex⟩

theorem selects_append_of_neg (hq : ¬ P q) :
    Selects hit P (l ++ [q]) x ↔ Selects hit P l x := by
  rw [selects_append]
  tauto

theorem Selects.disjoint (hPQ : ∀ r, P r → ¬ Q r) (hP : Selects hit P l x) :
    ¬ Selects hit Q l x := by
  rintro ⟨r, hr, hQ⟩
  obtain ⟨r', hr', hP⟩ := hP
  exact hPQ r (hr'.unique hr ▸ hP) hQ

theorem Selects.exists_mem (h : Selects hit P l x) : ∃ r ∈ l, P r ∧ hit r x := by
  obtain ⟨r, hr, hP⟩ := h
  exact ⟨r, hr.mem, hP, hr.hits⟩

theorem selects_or_not (h : ∃ r ∈ l, hit r x) :
    Selects hit P l x ∨ Selects hit (fun r => ¬ P r) l x := by
  obtain ⟨r, hr⟩ := exists_firstHit h
  by_cases hP : P r
  · exact Or.inl ⟨r, hr, hP⟩
  · exact Or.inr ⟨r, hr, hP⟩

/-! ### Concatenations in any order -/

section Concatenation

variable {ι : Type} {rules : ι → List ρ} {es es' : List ι}

/-- Some list selects `x`, and the first hit of another rejects it. -/
def Conflict (hit : ρ → X → Prop) (P : ρ → Prop) (rules : ι → List ρ) (es : List ι) (x : X) : Prop :=
  ∃ e ∈ es, ∃ e' ∈ es, Selects hit P (rules e) x ∧ Selects hit (fun r => ¬ P r) (rules e') x

theorem selects_flatMap (h : Selects hit P (es.flatMap rules) x) :
    ∃ e ∈ es, Selects hit P (rules e) x := by
  induction es with
  | nil => exact absurd h not_selects_nil
  | cons e es ih =>
    rw [List.flatMap_cons, selects_append_list] at h
    rcases h with h | ⟨-, h⟩
    · exact ⟨e, by simp, h⟩
    · obtain ⟨e', he', h'⟩ := ih h
      exact ⟨e', List.mem_cons_of_mem _ he', h'⟩

theorem selects_flatMap_iff (hno : ¬ Conflict hit P rules es x) :
    Selects hit P (es.flatMap rules) x ↔ ∃ e ∈ es, Selects hit P (rules e) x := by
  refine ⟨selects_flatMap, fun ⟨e, he, h⟩ => ?_⟩
  obtain ⟨r, hr, -, hrx⟩ := h.exists_mem
  rcases selects_or_not (P := P) ⟨r, List.mem_flatMap.mpr ⟨e, he, hr⟩, hrx⟩ with h' | h'
  · exact h'
  · obtain ⟨e', he', h''⟩ := selects_flatMap h'
    exact absurd ⟨e, he, e', he', h, h''⟩ hno

theorem Conflict.perm (hp : es.Perm es') (h : Conflict hit P rules es x) :
    Conflict hit P rules es' x := by
  obtain ⟨e, he, e', he', h⟩ := h
  exact ⟨e, hp.mem_iff.mp he, e', hp.mem_iff.mp he', h⟩

/-- **The order of the lists does not matter** exactly when no two of them conflict. -/
theorem selects_perm_iff (hit : ρ → X → Prop) (P : ρ → Prop) (rules : ι → List ρ) (es : List ι) :
    (∀ es', es.Perm es' → ∀ x,
      (Selects hit P (es'.flatMap rules) x ↔ Selects hit P (es.flatMap rules) x)) ↔
    ∀ x, ¬ Conflict hit P rules es x := by
  constructor
  · intro hperm x hconflict
    obtain ⟨e, he, e', he', h, h'⟩ := hconflict
    -- put the selecting list first, then the rejecting one
    have hfirst : Selects hit P (es.flatMap rules) x := by
      obtain ⟨front, back, hes⟩ := List.append_of_mem he
      rw [← hperm (e :: (front ++ back)) (hes ▸ List.perm_middle), List.flatMap_cons,
        selects_append_list]
      exact Or.inl h
    obtain ⟨front, back, hes⟩ := List.append_of_mem he'
    rw [← hperm (e' :: (front ++ back)) (hes ▸ List.perm_middle), List.flatMap_cons,
      selects_append_list] at hfirst
    rcases hfirst with hfirst | ⟨hnone, -⟩
    · exact hfirst.disjoint (fun r hr hnr => hnr hr) h'
    · obtain ⟨r, hr, -, hrx⟩ := h'.exists_mem
      exact hnone r hr hrx
  · intro hno es' hp x
    rw [selects_flatMap_iff (hno x), selects_flatMap_iff fun h => hno x (h.perm hp.symm)]
    exact exists_congr fun e => and_congr_left fun _ => hp.symm.mem_iff

end Concatenation

/-! ### Classes of rules -/

section Classes

variable {κ : Type} {cls : ρ → κ} {k : κ}

/-- The first rule of each class hits an input that no rule before it hits. -/
def FirstNew (hit : ρ → X → Prop) (cls : ρ → κ) (l : List ρ) : Prop :=
  ∀ done r rest, l = done ++ r :: rest → (∀ q ∈ done, cls q ≠ cls r) →
    ∃ x, hit r x ∧ ∀ q ∈ done, ¬ hit q x

theorem firstNew_nil : FirstNew hit cls [] := by
  intro done r rest h
  simp at h

theorem firstNew_append : FirstNew hit cls (l ++ [q]) ↔ FirstNew hit cls l ∧
    ((∀ r ∈ l, cls r ≠ cls q) → ∃ x, hit q x ∧ ∀ r ∈ l, ¬ hit r x) := by
  constructor
  · intro h
    refine ⟨fun done r rest hl => h done r (rest ++ [q]) (by simp [hl]), h l q [] rfl⟩
  · intro h done r rest hl
    obtain ⟨hold, hlast⟩ := h
    rcases List.eq_nil_or_concat rest with rfl | ⟨rest, p, rfl⟩
    · obtain ⟨rfl, heq⟩ := List.append_inj' hl rfl
      obtain rfl := (List.cons.inj heq).1
      exact hlast
    · rw [List.concat_eq_append, ← List.cons_append, ← List.append_assoc] at hl
      exact hold done r rest (List.append_inj' hl rfl).1

theorem FirstNew.selects (h : FirstNew hit cls l) (hk : ∃ r ∈ l, cls r = k) :
    ∃ x, Selects hit (fun r => cls r = k) l x := by
  have hk' : ∃ r ∈ l, (fun r (_ : Unit) => cls r = k) r () := hk
  obtain ⟨r, before, after, rfl, rfl, hbefore⟩ := exists_firstHit hk'
  obtain ⟨x, hx, hnone⟩ := h before r after rfl hbefore
  exact ⟨x, r, ⟨before, after, rfl, hx, hnone⟩, rfl⟩

theorem firstNew_iff_of_related {Y : Type} {hit' : ρ → Y → Prop} {R : X → Y → Prop}
    (hleft : ∀ x, ∃ y, R x y) (hright : ∀ y, ∃ x, R x y)
    (hR : ∀ r x y, R x y → (hit r x ↔ hit' r y)) :
    FirstNew hit cls l ↔ FirstNew hit' cls l := by
  refine forall_congr' fun done => forall_congr' fun r => forall_congr' fun rest =>
    imp_congr_right fun _ => imp_congr_right fun _ => ⟨fun h => ?_, fun h => ?_⟩
  · obtain ⟨x, hx, hnone⟩ := h
    obtain ⟨y, hxy⟩ := hleft x
    exact ⟨y, (hR r x y hxy).mp hx, fun q hq hqy => hnone q hq ((hR q x y hxy).mpr hqy)⟩
  · obtain ⟨y, hy, hnone⟩ := h
    obtain ⟨x, hxy⟩ := hright y
    exact ⟨x, (hR r x y hxy).mpr hy, fun q hq hqx => hnone q hq ((hR q x y hxy).mp hqx)⟩

end Classes

/-! ### Ranked rules -/

section Ranked

variable {rank : ρ → Nat}

/-- `r` hits `x`, and no rule of greater rank does. -/
def Greatest (hit : ρ → X → Prop) (rank : ρ → Nat) (l : List ρ) (x : X) (r : ρ) : Prop :=
  r ∈ l ∧ hit r x ∧ ∀ q ∈ l, hit q x → rank q ≤ rank r

theorem FirstHit.greatest (hsorted : l.Pairwise fun r q => rank q ≤ rank r)
    (h : FirstHit hit l x r) : Greatest hit rank l x r := by
  refine ⟨h.mem, h.hits, fun q hq hqx => ?_⟩
  obtain ⟨before, after, rfl, -, hbefore⟩ := h
  rw [List.pairwise_append] at hsorted
  rcases List.mem_append.mp hq with hq | hq
  · exact absurd hqx (hbefore q hq)
  rcases List.mem_cons.mp hq with rfl | hq
  · exact Nat.le_refl _
  · exact (List.pairwise_cons.mp hsorted.2.1).1 q hq

/-- **In decreasing order of rank, the first match is the best match**, provided the best matches
agree on `P`. -/
theorem selects_iff_greatest (hsorted : l.Pairwise fun r q => rank q ≤ rank r)
    (hagree : ∀ r q, Greatest hit rank l x r → Greatest hit rank l x q → (P r ↔ P q)) :
    Selects hit P l x ↔ (∃ r ∈ l, hit r x) ∧ ∀ r, Greatest hit rank l x r → P r := by
  constructor
  · rintro ⟨r, hr, hP⟩
    exact ⟨⟨r, hr.mem, hr.hits⟩, fun q hq => (hagree r q (hr.greatest hsorted) hq).mp hP⟩
  · rintro ⟨hex, hall⟩
    obtain ⟨r, hr⟩ := exists_firstHit hex
    exact ⟨r, hr, hall r (hr.greatest hsorted)⟩

theorem Greatest.perm (hp : l.Perm l') (h : Greatest hit rank l x r) :
    Greatest hit rank l' x r :=
  ⟨hp.mem_iff.mp h.1, h.2.1, fun q hq => h.2.2 q (hp.mem_iff.mpr hq)⟩

end Ranked

end AtomicPredicate.Lib
