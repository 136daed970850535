import AtomicPredicate.Lib.Triple

/-!
# Programs on a machine that stands for a store

A machine with states in `σ` carries out the programs of a reference-counted store: a relation `R`
ties its states to stores, without regard to the collector and the roots. `Follows R X c m p` says
that the machine program `p` does what the store program `m` does, under a collector of the machine's
making: unless `p` gives up with a fault that `X` allows, its run is the run of `m` in which every new
cell is placed where the machine has put it.

Such a collector is given by a script, the handle for each clock tick at which a cell may be created.
A run looks at the script only at its own ticks (`RunsAs`), so the scripts of two runs in sequence can
be put together. `Follows.triple` carries a triple of `m` over to `p`.
-/

namespace AtomicPredicate.Lib

variable {α ε κ σ β γ : Type}

/-- Reclaim all that can be reclaimed, and place cells by the script where it names a free handle. -/
def Collector.scripted (script : Nat → Handle) : Collector where
  reclaims _ _ := true
  place clock used := if script clock ∈ used then used.sum + 1 else script clock
  place_fresh clock used := by
    split_ifs with h
    · exact fun hmem =>
        absurd (List.single_le_sum (fun n _ => Nat.zero_le n) _ hmem) (Nat.not_succ_le_self _)
    · exact h

def Store.withScript (script : Nat → Handle) (s : Store α) : Store α :=
  { s with collector := .scripted script }

/-- The result of a run, with another script in the store that it leaves. -/
def rescript (script : Nat → Handle) :
    Except (Fault ε) (β × Store α) → Except (Fault ε) (β × Store α)
  | .ok (b, s) => .ok (b, s.withScript script)
  | .error e => .error e

/-- Under every script that agrees with `f` on the ticks up to `n`, the run has the outcome `out`. -/
def RunsAs (m : StoreM α ε β) (s : Store α) (f : Nat → Handle) (n : Nat)
    (out : Except (Fault ε) (β × Store α)) : Prop :=
  ∀ g : Nat → Handle, (∀ t, s.clock < t → t ≤ n → g t = f t) →
    m (s.withScript g) = rescript g out

/-- The machine does what the store does. -/
def Matches (R : σ → Store α → Prop) (c : ε → κ) (n : Nat) (run : Except κ (β × σ)) :
    Except (Fault ε) (β × Store α) → Prop
  | .ok (b, s) => s.clock = n ∧ ∃ k, run = .ok (b, k) ∧ R k s
  | .error (.client e) => run = .error (c e)
  | .error (.released _) => True

def Follows (R : σ → Store α → Prop) (X : κ → Prop) (c : ε → κ) (m : StoreM α ε β)
    (p : StateT σ (Except κ) β) : Prop :=
  ∀ k s, R k s → (∃ e, p k = .error e ∧ X e) ∨
    ∃ f n out, s.clock ≤ n ∧ RunsAs m s f n out ∧ Matches R c n (p k) out

namespace Follows

variable {R : σ → Store α → Prop} {X : κ → Prop} {c : ε → κ} {m : StoreM α ε β}
  {p : StateT σ (Except κ) β}

theorem of_step {k k' : σ} {s s' : Store α} {b : β}
    (hm : ∀ g, m (s.withScript g) = .ok (b, s'.withScript g)) (hp : p k = .ok (b, k'))
    (hR : R k' s') (hclock : s'.clock = s.clock) :
    ∃ f n out, s.clock ≤ n ∧ RunsAs m s f n out ∧ Matches R c n (p k) out :=
  ⟨fun _ => 0, s.clock, .ok (b, s'), le_rfl, fun g _ => hm g, hclock, k', hp, hR⟩

theorem of_released {k : σ} {s : Store α} {h : Handle}
    (hm : ∀ g, m (s.withScript g) = .error (.released h)) :
    ∃ f n out, s.clock ≤ n ∧ RunsAs m s f n out ∧ Matches R c n (p k) out :=
  ⟨fun _ => 0, s.clock, .error (.released h), le_rfl, fun g _ => hm g, trivial⟩

theorem pure (b : β) : Follows R X c (Pure.pure b : StoreM α ε β) (Pure.pure b) :=
  fun _ _ hR => Or.inr (of_step (fun _ => rfl) rfl hR rfl)

theorem throw (e : ε) :
    Follows R X c (MonadExcept.throw (Fault.client e) : StoreM α ε β) (MonadExcept.throw (c e)) :=
  fun _ s _ => Or.inr ⟨fun _ => 0, s.clock, .error (.client e), le_rfl, fun _ _ => rfl, rfl⟩

theorem bind {l : β → StoreM α ε γ} {q : β → StateT σ (Except κ) γ} (hm : Follows R X c m p)
    (hl : ∀ b, Follows R X c (l b) (q b)) : Follows R X c (m >>= l) (p >>= q) := by
  intro k s hR
  have run_m : ∀ g, (m >>= l) (s.withScript g) = (m (s.withScript g)).bind fun x => l x.1 x.2 :=
    fun _ => rfl
  have run_p : (p >>= q) k = (p k).bind fun x => q x.1 x.2 := rfl
  rcases hm k s hR with ⟨e, he, hX⟩ | ⟨f₁, n₁, out, hn₁, hrun, hmatch⟩
  · exact Or.inl ⟨e, by rw [run_p, he]; rfl, hX⟩
  rcases out with e | ⟨b, s₁⟩
  · -- the first program stops
    refine Or.inr ⟨f₁, n₁, .error e, hn₁, fun g hg => ?_, ?_⟩
    · rw [run_m, hrun g hg]
      rfl
    · rcases e with _ | e
      · trivial
      · rw [Matches, run_p, show p k = .error (c e) from hmatch]
        rfl
  obtain ⟨hclock, k₁, hk₁, hR₁⟩ := hmatch
  rw [run_p, hk₁]
  rcases hl b k₁ s₁ hR₁ with ⟨e, he, hX⟩ | ⟨f₂, n₂, out₂, hn₂, hrun₂, hmatch₂⟩
  · exact Or.inl ⟨e, he, hX⟩
  refine Or.inr ⟨fun t => if t ≤ n₁ then f₁ t else f₂ t, n₂, out₂, by omega, fun g hg => ?_,
    hmatch₂⟩
  have h₁ : m (s.withScript g) = .ok (b, s₁.withScript g) :=
    hrun g fun t ht htn => (hg t ht (by omega)).trans (if_pos htn)
  rw [run_m, h₁]
  exact hrun₂ g fun t ht htn => (hg t (by omega) htn).trans (if_neg (by omega))

theorem holding (hR : ∀ k s roots, R k s → R k { s with roots := roots }) (hs : List Handle)
    (hm : Follows R X c m p) : Follows R X c (Lib.holding hs m) p := by
  intro k s h
  rcases hm k { s with roots := hs ++ s.roots } (hR k s _ h) with hX | ⟨f, n, out, hn, hrun, hmatch⟩
  · exact Or.inl hX
  have hrun' : ∀ g : Nat → Handle, (∀ t, s.clock < t → t ≤ n → g t = f t) →
      Lib.holding hs m (s.withScript g) =
        match rescript g out with
        | .ok (b, s') => .ok (b, { s' with roots := s.roots })
        | .error e => .error e := fun g hg => by
    rw [← hrun g hg]
    rfl
  rcases out with e | ⟨b, s₁⟩
  · refine Or.inr ⟨f, n, .error e, hn, fun g hg => ?_, hmatch⟩
    rw [hrun' g hg]
    rfl
  · obtain ⟨hclock, k₁, hk₁, hR₁⟩ := hmatch
    refine Or.inr ⟨f, n, .ok (b, { s₁ with roots := s.roots }), hn, fun g hg => ?_,
      hclock, k₁, hk₁, hR k₁ s₁ _ hR₁⟩
    rw [hrun' g hg]
    rfl

theorem triple {D : Discipline α} {A : Multiset (Handle × α)}
    {Q : β → Multiset (Handle × α) → Prop} {E : ε → Prop} (hm : Follows R X c m p)
    (ht : Triple D A m Q E) {base : Handle → Nat} {F : Multiset (Handle × α)} {k : σ} {s : Store α}
    (hR : R k s) (hroots : ∀ h ∈ s.roots, ∃ v, (h, v) ∈ F) (ho : Owns D base (A + F) s) :
    (∃ e, p k = .error e ∧ (X e ∨ ∃ e', e = c e' ∧ E e')) ∨
      ∃ b k' s', p k = .ok (b, k') ∧ R k' s' ∧ s'.roots = s.roots ∧
        ∃ B, Q b B ∧ Owns D base (B + F) s' := by
  rcases hm k s hR with ⟨e, he, hX⟩ | ⟨f, n, out, -, hrun, hmatch⟩
  · exact Or.inl ⟨e, he, Or.inl hX⟩
  have hends := ht base F (s.withScript f) hroots { ho with }
  rw [hrun f fun _ _ _ => rfl] at hends
  rcases out with e | ⟨b, s₁⟩
  · rcases e with _ | e
    · exact hends.elim
    · exact Or.inl ⟨c e, hmatch, Or.inr ⟨e, rfl, hends⟩⟩
  · obtain ⟨-, k₁, hk₁, hR₁⟩ := hmatch
    obtain ⟨⟨B, hQ, ho'⟩, hr⟩ := hends
    exact Or.inr ⟨b, k₁, s₁, hk₁, hR₁, hr, B, hQ, { ho' with }⟩

end Follows

end AtomicPredicate.Lib
