import AtomicPredicate.Lib.RefStore
import Mathlib.Tactic.Abel

/-!
# Rules for programs over a reference-counted store

`Triple D A m Q E`: started owning `A`, the program `m` is never faulted by the store; if it returns
`b`, it owns some `B` with `Q b B`, and if it stops with a fault of its own, that fault satisfies
`E`. The counts are exact (`Owns`), and the frame is in the definition: handles owned by others keep
their value and their owners, and the roots in force are among them, so no operation of `m` finds a
root released.

The rules are the usual ones. Operands of an operation are owned, and permanent cells are owned for
free (`Triple.permanent`); `Triple.seq` splits off what a command needs from what is kept.
-/

namespace AtomicPredicate.Lib

variable {α ε β γ : Type}

/-- How a run ends: returning under `Q`, or with a fault of the program itself under `E`. -/
def Ends (Q : β → Store α → Prop) (E : ε → Prop) : Except (Fault ε) (β × Store α) → Prop
  | .ok (b, s) => Q b s
  | .error (.client e) => E e
  | .error (.released _) => False

def Triple (D : Discipline α) (A : Multiset (Handle × α)) (m : StoreM α ε β)
    (Q : β → Multiset (Handle × α) → Prop) (E : ε → Prop) : Prop :=
  ∀ base F s, (∀ h ∈ s.roots, ∃ v, (h, v) ∈ F) → Owns D base (A + F) s →
    Ends (fun b s' => (∃ B, Q b B ∧ Owns D base (B + F) s') ∧ s'.roots = s.roots) E (m s)

theorem Ends.of_error {Q : β → Store α → Prop} {R : γ → Store α → Prop} {E E' : ε → Prop}
    (hE : ∀ e, E e → E' e) {e : Fault ε} (h : Ends Q E (.error e)) : Ends R E' (.error e) := by
  cases e with
  | client e => exact hE e h
  | released _ => exact h

theorem mem_handles (cells : List (Handle × α)) {A : Multiset (Handle × α)}
    (X : Multiset (Handle × α)) (hA : A = (cells : Multiset (Handle × α)) + X) :
    ∀ h ∈ cells.map Prod.fst, ∃ v, (h, v) ∈ A := by
  intro h hh
  subst hA
  obtain ⟨⟨_, v⟩, hp, rfl⟩ := List.mem_map.mp hh
  exact ⟨v, by simp [hp]⟩

namespace Triple

variable {D : Discipline α} {A A' B C : Multiset (Handle × α)} {m : StoreM α ε β} {k : β → StoreM α ε γ}
  {Q Q' : β → Multiset (Handle × α) → Prop} {R : γ → Multiset (Handle × α) → Prop}
  {E E' : ε → Prop}

private theorem run_bind (x : StoreM α ε β) (f : β → StoreM α ε γ) (s : Store α) :
    (x >>= f) s = (x s).bind fun p => f p.1 p.2 := rfl

theorem pure {b : β} (h : Q b A) : Triple D A (Pure.pure b : StoreM α ε β) Q E :=
  fun _ _ _ _ ho => ⟨⟨A, h, ho⟩, rfl⟩

theorem throw {e : ε} (h : E e) :
    Triple D A (MonadExcept.throw (Fault.client e) : StoreM α ε β) Q E :=
  fun _ _ _ _ _ => h

theorem bind (hm : Triple D A m Q E) (hk : ∀ b B, Q b B → Triple D B (k b) R E) :
    Triple D A (m >>= k) R E := by
  intro base F s hroots ho
  have h := hm base F s hroots ho
  rw [run_bind]
  cases hrun : m s with
  | error e =>
    rw [hrun] at h
    exact h.of_error fun _ he => he
  | ok p =>
    obtain ⟨b, s'⟩ := p
    rw [hrun] at h
    obtain ⟨⟨B, hQ, ho'⟩, hr⟩ := h
    have h' := hk b B hQ base F s' (hr ▸ hroots) ho'
    rw [hr] at h'
    exact h'

theorem conseq (hA : A = A') (hm : Triple D A' m Q' E') (hQ : ∀ b B, Q' b B → Q b B)
    (hE : ∀ e, E' e → E e) : Triple D A m Q E := by
  intro base F s hroots ho
  subst hA
  have h := hm base F s hroots ho
  cases hrun : m s with
  | error e =>
    rw [hrun] at h
    exact h.of_error hE
  | ok p =>
    rw [hrun] at h
    obtain ⟨⟨B, hB, ho'⟩, hr⟩ := h
    exact ⟨⟨B, hQ _ _ hB, ho'⟩, hr⟩

theorem post (hm : Triple D A m Q' E) (hQ : ∀ b B, Q' b B → Q b B) : Triple D A m Q E :=
  conseq rfl hm hQ fun _ h => h

theorem holding (hs : List Handle) (hhs : ∀ h ∈ hs, ∃ v, (h, v) ∈ C) (hm : Triple D A m Q E) :
    Triple D (A + C) (Lib.holding hs m) (fun b B => ∃ B', B = B' + C ∧ Q b B') E := by
  intro base F s hroots ho
  have h := hm base (C + F) { s with roots := hs ++ s.roots } ?_ ?_
  · unfold Lib.holding
    cases hrun : m { s with roots := hs ++ s.roots } with
    | error e =>
      rw [hrun] at h
      exact h.of_error fun _ he => he
    | ok p =>
      rw [hrun] at h
      obtain ⟨⟨B, hB, ho'⟩, -⟩ := h
      refine ⟨⟨B + C, ⟨B, rfl, hB⟩, ?_⟩, rfl⟩
      rw [add_assoc]
      exact { ho' with }
  · intro h hmem
    rcases List.mem_append.mp hmem with hmem | hmem
    · obtain ⟨v, hv⟩ := hhs h hmem
      exact ⟨v, Multiset.mem_add.mpr (Or.inl hv)⟩
    · obtain ⟨v, hv⟩ := hroots h hmem
      exact ⟨v, Multiset.mem_add.mpr (Or.inr hv)⟩
  · rw [← add_assoc]
    exact { ho with }

theorem frame (C : Multiset (Handle × α)) (hm : Triple D A m Q E) :
    Triple D (A + C) m (fun b B => ∃ B', B = B' + C ∧ Q b B') E := by
  intro base F s hroots ho
  rw [add_assoc] at ho
  have h := hm base (C + F) s (fun h hh =>
    (hroots h hh).imp fun _ hv => Multiset.mem_add.mpr (Or.inr hv)) ho
  cases hrun : m s with
  | error e =>
    rw [hrun] at h
    exact h.of_error fun _ he => he
  | ok p =>
    rw [hrun] at h
    obtain ⟨⟨B, hB, ho'⟩, hr⟩ := h
    exact ⟨⟨B + C, ⟨B, rfl, hB⟩, by rwa [add_assoc]⟩, hr⟩

theorem seq (C : Multiset (Handle × α)) (hA : A = A' + C) (hm : Triple D A' m Q E)
    (hk : ∀ b B, Q b B → Triple D (B + C) (k b) R E) : Triple D A (m >>= k) R E := by
  subst hA
  apply bind (frame C hm)
  rintro b _ ⟨B, rfl, hB⟩
  exact hk b B hB

theorem seqHolding (hs : List Handle) (C : Multiset (Handle × α))
    (hhs : ∀ h ∈ hs, ∃ v, (h, v) ∈ C) (hA : A = A' + C) (hm : Triple D A' m Q E)
    (hk : ∀ b B, Q b B → Triple D (B + C) (k b) R E) :
    Triple D A (Lib.holding hs m >>= k) R E := by
  subst hA
  apply bind (holding hs hhs hm)
  rintro b _ ⟨B, rfl, hB⟩
  exact hk b B hB

theorem permanent {p : Handle × α} (hp : p ∈ D.permanent) (hm : Triple D ({p} + A) m Q E) :
    Triple D A m Q E := by
  intro base F s hroots ho
  apply hm base F s hroots
  rw [add_assoc, Multiset.singleton_add]
  exact ho.cons_permanent hp

theorem forget (hm : Triple D A m
    (fun b B' => ∃ p B, p ∈ D.permanent ∧ B' = {p} + B ∧ Q b B) E) : Triple D A m Q E := by
  intro base F s hroots ho
  have h := hm base F s hroots ho
  cases hrun : m s with
  | error e =>
    rw [hrun] at h
    exact h.of_error fun _ he => he
  | ok q =>
    rw [hrun] at h
    obtain ⟨⟨_, ⟨p, B, hp, rfl, hB⟩, ho'⟩, hr⟩ := h
    rw [add_assoc, Multiset.singleton_add] at ho'
    exact ⟨⟨B, hB, ho'.of_cons_permanent hp⟩, hr⟩

theorem discard {p : Handle × α} (hp : p ∈ D.permanent) (hm : Triple D A m Q E) :
    Triple D ({p} + A) m Q E := by
  intro base F s hroots ho
  rw [add_assoc, Multiset.singleton_add] at ho
  exact hm base F s hroots (ho.of_cons_permanent hp)

theorem identify (hm : (∀ p ∈ A, ∀ q ∈ D.permanent, p.1 = q.1 ↔ p.2 = q.2) →
    Triple D A m Q E) : Triple D A m Q E := by
  intro base F s hroots ho
  exact hm (fun p hp q hq => ho.permanent_iff (Multiset.mem_add.mpr (Or.inl hp)) hq) base F s
    hroots ho

theorem permanent_value {h : Handle} {v w : α} (hp : (h, w) ∈ D.permanent) (hmem : (h, v) ∈ A)
    (hm : v = w → Triple D A m Q E) : Triple D A m Q E :=
  identify fun hiff => hm ((hiff (h, v) hmem (h, w) hp).mp rfl)

theorem permanent_handle {h h' : Handle} {v : α} (hp : (h', v) ∈ D.permanent) (hmem : (h, v) ∈ A)
    (hm : h = h' → Triple D A m Q E) : Triple D A m Q E :=
  identify fun hiff => hm ((hiff (h, v) hmem (h', v) hp).mpr rfl)

theorem permanents (l : List (Handle × α)) (hl : ∀ p ∈ l, p ∈ D.permanent)
    (hm : Triple D (l + A) m Q E) : Triple D A m Q E := by
  induction l with
  | nil => rwa [Multiset.coe_nil, zero_add] at hm
  | cons p l ih =>
    refine ih (fun q hq => hl q (List.mem_cons_of_mem _ hq)) (permanent (hl p (by simp)) ?_)
    rwa [← add_assoc, Multiset.singleton_add, Multiset.cons_coe]

/-- **The net change of a run.** A count that saturates neither before nor after has moved by the
owners the run leaves. -/
theorem counts {base : Handle → Nat} {s s' : Store α} {b : β} (hm : Triple D 0 m Q E)
    (hroots : ∀ h ∈ s.roots, ∃ v, (h, v) ∈ A) (ho : Owns D base A s)
    (hrun : m s = .ok (b, s')) :
    ∃ B, Q b B ∧ (∀ p ∈ B, ∀ q ∈ D.permanent, p.1 = q.1 ↔ p.2 = q.2) ∧
      (∀ q ∈ D.permanent, s'.count q.1 = s.count q.1) ∧
      ∀ h, s.count h < D.maxref → s'.count h < D.maxref → s'.count h = s.count h + owners B h := by
  have h := hm base A s hroots (by rwa [zero_add])
  rw [hrun] at h
  obtain ⟨⟨B, hQ, ho'⟩, -⟩ := h
  refine ⟨B, hQ, fun p hp q hq => ho'.permanent_iff (Multiset.mem_add.mpr (Or.inl hp)) hq,
    fun q hq => (ho'.count_permanent hq).trans (ho.count_permanent hq).symm, fun h hs hs' => ?_⟩
  rw [ho'.count_eq hs', ho.count_eq hs, owners_add]
  omega

end Triple

/-! ### The store operations -/

/-- A `Triple` for a command that checks the roots before it gives up anything of `A`: they may be
among the handles of `A`. -/
def Atomic (D : Discipline α) (A : Multiset (Handle × α)) (m : StoreM α ε β)
    (Q : β → Multiset (Handle × α) → Prop) : Prop :=
  ∀ base F s, (∀ h ∈ s.roots, ∃ v, (h, v) ∈ A + F) → Owns D base (A + F) s →
    ∃ b s' B, m s = .ok (b, s') ∧ Q b B ∧ Owns D base (B + F) s' ∧ s'.roots = s.roots

namespace Atomic

variable {D : Discipline α} {A C : Multiset (Handle × α)} {m : StoreM α ε β}
  {Q : β → Multiset (Handle × α) → Prop} {E : ε → Prop}

theorem triple (hm : Atomic D A m Q) : Triple D A m Q E := by
  intro base F s hroots ho
  obtain ⟨b, s', B, hrun, hQ, ho', hr⟩ := hm base F s
    (fun h hh => (hroots h hh).imp fun _ hv => Multiset.mem_add.mpr (Or.inr hv)) ho
  rw [hrun]
  exact ⟨⟨B, hQ, ho'⟩, hr⟩

theorem holding {hs : List Handle} (C : Multiset (Handle × α))
    (hhs : ∀ h ∈ hs, ∃ v, (h, v) ∈ A + C) (hm : Atomic D A m Q) :
    Triple D (A + C) (Lib.holding hs m) (fun b B => ∃ B', B = B' + C ∧ Q b B') E := by
  intro base F s hroots ho
  have hroots' : ∀ h ∈ hs ++ s.roots, ∃ v, (h, v) ∈ A + (C + F) := by
    intro h hmem
    rw [← add_assoc]
    rcases List.mem_append.mp hmem with hmem | hmem
    · exact (hhs h hmem).imp fun _ hv => Multiset.mem_add.mpr (Or.inl hv)
    · exact (hroots h hmem).imp fun _ hv => Multiset.mem_add.mpr (Or.inr hv)
  have ho' : Owns D base (A + (C + F)) { s with roots := hs ++ s.roots } := by
    rw [← add_assoc]
    exact { ho with }
  obtain ⟨b, s', B, hrun, hQ, ho'', -⟩ := hm base (C + F) _ hroots' ho'
  rw [Lib.holding, hrun]
  refine ⟨⟨B + C, ⟨B, rfl, hQ⟩, ?_⟩, rfl⟩
  rw [add_assoc]
  exact { ho'' with }

theorem addref {h : Handle} {v : α} :
    Atomic D {(h, v)} (Lib.addref D.toCounting h : StoreM α ε Handle)
      (fun r B => r = h ∧ B = {(h, v)} + {(h, v)}) := by
  intro base F s hroots ho
  obtain ⟨s', hrun, ho', hr⟩ := ho.addref_eq (ε := ε) hroots (ho.value (h, v) (by simp))
  refine ⟨h, s', _, hrun, ⟨rfl, rfl⟩, ?_, hr⟩
  rwa [add_assoc, Multiset.singleton_add]

theorem delref {h : Handle} {v : α} :
    Atomic D {(h, v)} (Lib.delref D.toCounting h : StoreM α ε Unit) (fun _ B => B = 0) := by
  intro base F s hroots ho
  rw [Multiset.singleton_add] at ho hroots
  obtain ⟨s', hrun, ho', hr⟩ := ho.delref_eq (ε := ε) hroots
  exact ⟨(), s', 0, hrun, rfl, by rwa [zero_add], hr⟩

private theorem run_bind (x : StoreM α ε β) (f : β → StoreM α ε γ) (s : Store α) :
    (x >>= f) s = (x s).bind fun p => f p.1 p.2 := rfl

variable [DecidableEq α]

private theorem create_addref {base : Handle → Nat} {s : Store α} (ho : Owns D base A s)
    (hroots : ∀ h ∈ s.roots, ∃ v, (h, v) ∈ A) (v : α) :
    ∃ r s', (create v >>= Lib.addref D.toCounting : StoreM α ε Handle) s = .ok (r, s') ∧
      Owns D base ((r, v) ::ₘ A) s' ∧ s'.roots = s.roots := by
  obtain ⟨ho', hv, hr⟩ := ho.collect.intern v
  have hr' : (s.collect.intern v).2.roots = s.roots := hr
  obtain ⟨s', hrun, ho'', hr''⟩ := ho'.addref_eq (ε := ε) (hr'.symm ▸ hroots) hv
  exact ⟨_, s', by rw [run_bind]; exact hrun, ho'', hr''.trans hr'⟩

theorem operate₁ {f : α → α} {h : Handle} {v : α} :
    Atomic D {(h, v)} (Lib.operate₁ f h >>= Lib.addref D.toCounting : StoreM α ε Handle)
      (fun r B => B = {(h, v)} + {(r, f v)}) := by
  intro base F s hroots ho
  have hmem : (h, v) ∈ {(h, v)} + F := by simp
  obtain ⟨r, s', hrun, ho', hr⟩ := create_addref (ε := ε) ho hroots (f v)
  refine ⟨r, s', _, ?_, rfl, ?_, hr⟩
  · rw [← hrun, Lib.operate₁, run_bind, run_bind, run_bind]
    simp only [ho.guardHeld_eq [h] (by simp) hroots, Except.bind, run_bind, ho.valueOf_eq hmem]
  · rw [add_right_comm, add_comm, Multiset.singleton_add]
    exact ho'

theorem operate₂ {f : α → α → α} {l r : Handle} {a b : α} :
    Atomic D ({(l, a)} + {(r, b)})
      (Lib.operate₂ f l r >>= Lib.addref D.toCounting : StoreM α ε Handle)
      (fun x B => B = {(l, a)} + {(r, b)} + {(x, f a b)}) := by
  intro base F s hroots ho
  have hl : (l, a) ∈ {(l, a)} + {(r, b)} + F := by simp
  have hr : (r, b) ∈ {(l, a)} + {(r, b)} + F := by simp
  have hguard : ∀ h ∈ [l, r], ∃ v, (h, v) ∈ {(l, a)} + {(r, b)} + F := by
    intro h hh
    rcases List.mem_cons.mp hh with rfl | hh
    · exact ⟨a, hl⟩
    · exact ⟨b, List.mem_singleton.mp hh ▸ hr⟩
  obtain ⟨x, s', hrun, ho', hroot⟩ := create_addref (ε := ε) ho hroots (f a b)
  refine ⟨x, s', _, ?_, rfl, ?_, hroot⟩
  · rw [← hrun, Lib.operate₂, run_bind, run_bind, run_bind]
    simp only [ho.guardHeld_eq _ hguard hroots, Except.bind, run_bind, ho.valueOf_eq hl,
      ho.valueOf_eq hr]
  · rw [add_right_comm, add_comm, Multiset.singleton_add]
    exact ho'

end Atomic

namespace Triple

variable {D : Discipline α} {A A' B C : Multiset (Handle × α)} {m : StoreM α ε β}
  {Q Q' : β → Multiset (Handle × α) → Prop} {R : γ → Multiset (Handle × α) → Prop}
  {k : β → StoreM α ε γ} {E : ε → Prop}

theorem addref {h : Handle} {v : α} :
    Triple D {(h, v)} (Lib.addref D.toCounting h : StoreM α ε Handle)
      (fun r B => r = h ∧ B = {(h, v)} + {(h, v)}) E := Atomic.addref.triple

theorem delref {h : Handle} {v : α} :
    Triple D {(h, v)} (Lib.delref D.toCounting h : StoreM α ε Unit) (fun _ B => B = 0) E :=
  Atomic.delref.triple

theorem operate₁ [DecidableEq α] {f : α → α} {h : Handle} {v : α} :
    Triple D {(h, v)} (Lib.operate₁ f h >>= Lib.addref D.toCounting : StoreM α ε Handle)
      (fun r B => B = {(h, v)} + {(r, f v)}) E := Atomic.operate₁.triple

theorem operate₂ [DecidableEq α] {f : α → α → α} {l r : Handle} {a b : α} :
    Triple D ({(l, a)} + {(r, b)})
      (Lib.operate₂ f l r >>= Lib.addref D.toCounting : StoreM α ε Handle)
      (fun x B => B = {(l, a)} + {(r, b)} + {(x, f a b)}) E := Atomic.operate₂.triple

theorem seqAtomic {hs : List Handle} (C : Multiset (Handle × α)) (hA : A = A' + C)
    (hhs : ∀ h ∈ hs, ∃ v, (h, v) ∈ A) (hm : Atomic D A' m Q)
    (hk : ∀ b B, Q b B → Triple D (B + C) (k b) R E) :
    Triple D A (Lib.holding hs m >>= k) R E := by
  subst hA
  apply bind (hm.holding C hhs)
  rintro b _ ⟨B, rfl, hB⟩
  exact hk b B hB

theorem seqOperate₁ [DecidableEq α] {hs : List Handle} {f : α → α} {h : Handle} {v : α}
    (C : Multiset (Handle × α)) (hA : A = {(h, v)} + C) (hhs : ∀ h ∈ hs, ∃ v, (h, v) ∈ A)
    {k : Handle → StoreM α ε γ} (hk : ∀ r w, w = f v → Triple D (A + {(r, w)}) (k r) R E) :
    Triple D A (Lib.holding hs (Lib.operate₁ f h >>= Lib.addref D.toCounting) >>= k) R E := by
  apply seqAtomic C hA hhs Atomic.operate₁
  rintro r _ rfl
  rw [add_right_comm, ← hA]
  exact hk r _ rfl

theorem seqOperate₂ [DecidableEq α] {hs : List Handle} {f : α → α → α} {l r : Handle} {a b : α}
    (C : Multiset (Handle × α)) (hA : A = {(l, a)} + {(r, b)} + C)
    (hhs : ∀ h ∈ hs, ∃ v, (h, v) ∈ A)
    {k : Handle → StoreM α ε γ} (hk : ∀ x w, w = f a b → Triple D (A + {(x, w)}) (k x) R E) :
    Triple D A (Lib.holding hs (Lib.operate₂ f l r >>= Lib.addref D.toCounting) >>= k) R E := by
  apply seqAtomic C hA hhs Atomic.operate₂
  rintro x _ rfl
  rw [add_right_comm, ← hA]
  exact hk x _ rfl

theorem seqDelref {hs : List Handle} {h : Handle} (v : α) (C : Multiset (Handle × α))
    (hA : A = {(h, v)} + C) (hhs : ∀ h ∈ hs, ∃ v, (h, v) ∈ A)
    {k : Unit → StoreM α ε γ} (hk : Triple D C (k ()) R E) :
    Triple D A (Lib.holding hs (Lib.delref D.toCounting h) >>= k) R E := by
  apply seqAtomic C hA hhs Atomic.delref
  rintro _ _ rfl
  rwa [zero_add]

/-! ### Loops -/

theorem foldlM {δ : Type} {f : β → δ → StoreM α ε β} (l : List δ)
    (I : List δ → β → Multiset (Handle × α) → Prop)
    (hstep : ∀ done x rest b B, l = done ++ x :: rest → I done b B →
      Triple D B (f b x) (I (done ++ [x])) E) {b : β} (hinit : I [] b A) :
    Triple D A (l.foldlM f b) (I l) E := by
  suffices h : ∀ rest done b B, l = done ++ rest → I done b B →
      Triple D B (rest.foldlM f b) (I l) E from h l [] b A rfl hinit
  intro rest
  induction rest with
  | nil =>
    intro done b B hl hI
    rw [List.append_nil] at hl
    exact pure (hl ▸ hI)
  | cons x rest ih =>
    intro done b B hl hI
    rw [List.foldlM_cons]
    refine bind (hstep done x rest b B hl hI) fun b' B' hI' => ?_
    exact ih (done ++ [x]) b' B' (by simp [hl]) hI'

end Triple

end AtomicPredicate.Lib
