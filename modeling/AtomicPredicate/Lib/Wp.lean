import Mathlib.Logic.Basic

/-!
# Weakest preconditions for stateful programs that may stop

`Wp m s Q E`: run from `s`, the program `m` returns under `Q`, or it stops with an error that `E`
allows. The simp lemmas take a program apart along its `do` block.
-/

namespace AtomicPredicate.Lib

variable {σ ε α β : Type}

def Wp (m : StateT σ (Except ε) α) (s : σ) (Q : α → σ → Prop) (E : ε → Prop) : Prop :=
  match m s with
  | .ok (a, s') => Q a s'
  | .error e => E e

variable {m : StateT σ (Except ε) α} {f : α → StateT σ (Except ε) β} {s : σ} {E : ε → Prop}

@[simp] theorem wp_pure {Q : α → σ → Prop} (a : α) :
    Wp (pure a : StateT σ (Except ε) α) s Q E ↔ Q a s := Iff.rfl

@[simp] theorem wp_bind {Q : β → σ → Prop} :
    Wp (m >>= f) s Q E ↔ Wp m s (fun a s' => Wp (f a) s' Q E) E := by
  simp only [Wp, bind, StateT.bind]
  cases m s <;> rfl

@[simp] theorem wp_map {Q : β → σ → Prop} (g : α → β) :
    Wp (g <$> m) s Q E ↔ Wp m s (fun a s' => Q (g a) s') E := by
  simp only [Wp, Functor.map, StateT.map]
  cases m s <;> rfl

@[simp] theorem wp_get {Q : σ → σ → Prop} :
    Wp (get : StateT σ (Except ε) σ) s Q E ↔ Q s s := Iff.rfl

@[simp] theorem wp_set {Q : PUnit → σ → Prop} (s' : σ) :
    Wp (set s' : StateT σ (Except ε) PUnit) s Q E ↔ Q ⟨⟩ s' := Iff.rfl

@[simp] theorem wp_modify {Q : PUnit → σ → Prop} (g : σ → σ) :
    Wp (modify g : StateT σ (Except ε) PUnit) s Q E ↔ Q ⟨⟩ (g s) := Iff.rfl

@[simp] theorem wp_throw {Q : α → σ → Prop} (e : ε) :
    Wp (throw e : StateT σ (Except ε) α) s Q E ↔ E e := Iff.rfl

theorem Wp.imp {Q Q' : α → σ → Prop} {E' : ε → Prop} (h : Wp m s Q E)
    (hQ : ∀ a s', Q a s' → Q' a s') (hE : ∀ e, E e → E' e) : Wp m s Q' E' := by
  unfold Wp at *
  cases hm : m s with
  | error e =>
    rw [hm] at h
    exact hE e h
  | ok p =>
    rw [hm] at h
    exact hQ _ _ h

theorem Wp.mono {Q Q' : α → σ → Prop} (h : Wp m s Q E) (hQ : ∀ a s', Q a s' → Q' a s') :
    Wp m s Q' E :=
  h.imp hQ fun _ he => he

theorem Wp.of_ok {Q : α → σ → Prop} (h : Wp m s Q E) {a : α} {s' : σ} (hm : m s = .ok (a, s')) :
    Q a s' := by
  rwa [Wp, hm] at h

theorem Wp.exists_ok {Q : α → σ → Prop} (h : Wp m s Q fun _ => False) :
    ∃ a s', m s = .ok (a, s') ∧ Q a s' := by
  unfold Wp at h
  cases hm : m s with
  | error e =>
    rw [hm] at h
    exact h.elim
  | ok p =>
    rw [hm] at h
    exact ⟨p.1, p.2, rfl, h⟩

theorem wp_of_ok {Q : α → σ → Prop} {a : α} {s' : σ} (hm : m s = .ok (a, s')) (h : Q a s') :
    Wp m s Q E := by
  rwa [Wp, hm]

end AtomicPredicate.Lib
