import Mathlib.Logic.Function.Basic
import Mathlib.Logic.Relation
import Mathlib.Order.Basic
import Mathlib.Tactic.SplitIfs

/-!
# Depth-first marking of a graph whose ranks grow

Every cell of the graph has two successors or none, given by `kids`. `dfs` marks a cell and what it
reaches, and does not enter a marked cell again; its fuel bounds the depth of the recursion.

The graph is ranked: a successor that has successors itself has a larger rank than its cell, so a run
started at rank `v` is no deeper than the ranks from `v` on (`dfs_spec`). Marked cells are then closed
under successors up to those the recursion is still inside, which all have smaller ranks; this is
`ClosedFrom`. `markAll` marks from a list of roots, and marks exactly what they reach
(`markAll_spec`).
-/

namespace AtomicPredicate.Lib

open Function Relation

variable {α : Type} [DecidableEq α] (kids : α → Option (α × α))

def Kid (a b : α) : Prop := ∃ l h, kids a = some (l, h) ∧ (b = l ∨ b = h)

abbrev Reach : α → α → Prop := ReflTransGen (Kid kids)

/-- Mark what is reached from `a`; `none` if the recursion is deeper than the fuel. -/
def dfs : Nat → α → (α → Bool) → Option (α → Bool)
  | 0, _, _ => none
  | fuel + 1, a, M =>
    match kids a with
    | none => some M
    | some (l, h) =>
      if M a then some M else do
        let M₁ ← dfs fuel l (update M a true)
        dfs fuel h M₁

def markAll (fuel : Nat) (roots : List α) (M : α → Bool) : Option (α → Bool) :=
  roots.foldlM (fun M a => dfs kids fuel a M) M

/-- Every marked cell of rank `v` or more has its successors marked, if they have any themselves. -/
def ClosedFrom (rank : α → Nat) (v : Nat) (M : α → Bool) : Prop :=
  ∀ a, M a = true → v ≤ rank a → ∀ b, Kid kids a b → (kids b).isSome → M b = true

/-- Ranks grow from a cell to its successors and are at most `top`. -/
structure Ranked (rank : α → Nat) (top : Nat) : Prop where
  lt : ∀ a b, Kid kids a b → (kids b).isSome → rank a < rank b
  le : ∀ a, (kids a).isSome → rank a ≤ top

variable {kids} {rank : α → Nat} {top : Nat}

omit [DecidableEq α] in
theorem Ranked.le_of_reach (hr : Ranked kids rank top) {a b : α} (h : Reach kids a b)
    (hb : (kids b).isSome) : rank a ≤ rank b := by
  induction h with
  | refl => exact Nat.le_refl _
  | tail _ hkid ih =>
    have hlt := hr.lt _ _ hkid hb
    obtain ⟨l, r, hk, -⟩ := hkid
    have := ih (by simp [hk])
    omega

/-- What a finished run has done. -/
structure Marked (kids : α → Option (α × α)) (rank : α → Nat) (v : Nat) (a : α)
    (M M' : α → Bool) : Prop where
  mono : ∀ b, M b = true → M' b = true
  root : (kids a).isSome → M' a = true
  sound : ∀ b, M' b = true → M b = true ∨ (Reach kids a b ∧ (kids b).isSome)
  closed : ClosedFrom kids rank v M'

theorem dfs_spec (hr : Ranked kids rank top) {fuel v : Nat} {a : α} {M : α → Bool}
    (hfuel : top + 1 < fuel + v) (hpos : 0 < fuel) (hv : (kids a).isSome → v ≤ rank a)
    (hM : ClosedFrom kids rank v M) :
    ∃ M', dfs kids fuel a M = some M' ∧ Marked kids rank v a M M' := by
  induction fuel generalizing v a M with
  | zero => omega
  | succ fuel ih =>
    rw [dfs]
    cases hk : kids a with
    | none => exact ⟨M, rfl, fun b h => h, by simp [hk], fun b h => Or.inl h, hM⟩
    | some p =>
      obtain ⟨l, h⟩ := p
      dsimp only
      split_ifs with hMa
      · exact ⟨M, rfl, fun b h => h, fun _ => hMa, fun b h => Or.inl h, hM⟩
      have ha : (kids a).isSome := by simp [hk]
      have hva := hv ha
      have htop := hr.le a ha
      have hl : Kid kids a l := ⟨l, h, hk, Or.inl rfl⟩
      have hh : Kid kids a h := ⟨l, h, hk, Or.inr rfl⟩
      -- inside the two calls the cell `a` itself is marked but not closed
      have h0 : ClosedFrom kids rank (rank a + 1) (update M a true) := by
        intro c hc hrank d hd hds
        have hca : c ≠ a := by
          rintro rfl
          omega
        rw [update_of_ne hca] at hc
        rw [update_apply]
        split_ifs
        · rfl
        · exact hM c hc (by omega) d hd hds
      have call : ∀ b N, Kid kids a b → ClosedFrom kids rank (rank a + 1) N →
          ∃ N', dfs kids fuel b N = some N' ∧ Marked kids rank (rank a + 1) b N N' := by
        intro b N hb hN
        rcases Nat.eq_zero_or_pos fuel with rfl | hf
        · omega
        · exact ih (by omega) hf (fun hs => hr.lt a b hb hs) hN
      obtain ⟨M₁, h1, s1⟩ := call l _ hl h0
      obtain ⟨M₂, h2, s2⟩ := call h _ hh s1.closed
      refine ⟨M₂, by simp [h1, h2], ?_⟩
      have hMa₂ : M₂ a = true := s2.mono a (s1.mono a (by simp))
      have hmono : ∀ b, M b = true → M₂ b = true := fun b hb =>
        s2.mono b (s1.mono b (by rw [update_apply]; split_ifs <;> simp [hb]))
      have hsound : ∀ b, M₂ b = true → M b = true ∨ b = a ∨
          (∃ c, Kid kids a c ∧ Reach kids c b) ∧ (kids b).isSome := by
        intro b hb
        rcases s2.sound b hb with hb | ⟨hreach, hs⟩
        · rcases s1.sound b hb with hb | ⟨hreach, hs⟩
          · rw [update_apply] at hb
            split_ifs at hb with hba
            · exact Or.inr (Or.inl hba)
            · exact Or.inl hb
          · exact Or.inr (Or.inr ⟨⟨l, hl, hreach⟩, hs⟩)
        · exact Or.inr (Or.inr ⟨⟨h, hh, hreach⟩, hs⟩)
      refine ⟨hmono, fun _ => hMa₂, fun b hb => ?_, fun c hc hrank d hd hds => ?_⟩
      · rcases hsound b hb with hb | rfl | ⟨⟨c, hc, hreach⟩, hs⟩
        · exact Or.inl hb
        · exact Or.inr ⟨.refl, ha⟩
        · exact Or.inr ⟨.head hc hreach, hs⟩
      · rcases Nat.lt_or_ge (rank a) (rank c) with hlt | hge
        · exact s2.closed c hc hlt d hd hds
        · rcases hsound c hc with hc | rfl | ⟨⟨e, he, hreach⟩, hs⟩
          · exact hmono d (hM c hc hrank d hd hds)
          · obtain ⟨l', h', hk', hd'⟩ := hd
            obtain ⟨rfl, rfl⟩ : l' = l ∧ h' = h := by
              rw [hk] at hk'
              simpa [eq_comm] using hk'
            rcases hd' with rfl | rfl
            · exact s2.mono _ (s1.root hds)
            · exact s2.root hds
          · have hes : (kids e).isSome := by
              rcases ReflTransGen.cases_head hreach with rfl | ⟨f, ⟨_, _, hf, -⟩, -⟩
              · exact hs
              · simp [hf]
            have h1 := hr.lt a e he hes
            have h2 := hr.le_of_reach hreach hs
            omega

theorem markAll_spec (hr : Ranked kids rank top) (roots : List α) :
    ∃ M, markAll kids (top + 2) roots (fun _ => false) = some M ∧
      ∀ b, M b = true ↔ (kids b).isSome ∧ ∃ a ∈ roots, Reach kids a b := by
  have run : ∀ roots : List α, ∀ M : α → Bool, ClosedFrom kids rank 0 M →
      ∃ M', markAll kids (top + 2) roots M = some M' ∧ ClosedFrom kids rank 0 M' ∧
        (∀ b, M b = true → M' b = true) ∧ (∀ a ∈ roots, (kids a).isSome → M' a = true) ∧
        ∀ b, M' b = true → M b = true ∨ ((kids b).isSome ∧ ∃ a ∈ roots, Reach kids a b) := by
    intro roots
    induction roots with
    | nil => exact fun M hM => ⟨M, rfl, hM, fun _ h => h, by simp, fun _ h => Or.inl h⟩
    | cons a roots ih =>
      intro M hM
      obtain ⟨M₁, h1, s1⟩ := @dfs_spec _ _ _ _ _ hr (top + 2) 0 a M (by omega) (by omega)
        (fun _ => Nat.zero_le _) hM
      obtain ⟨M₂, h2, hclosed, hmono, hroots, hsound⟩ := ih M₁ s1.closed
      refine ⟨M₂, by simp [markAll, h1]; exact h2, hclosed, fun b hb => hmono b (s1.mono b hb), ?_, ?_⟩
      · intro b hb hs
        rcases List.mem_cons.mp hb with rfl | hb
        · exact hmono b (s1.root hs)
        · exact hroots b hb hs
      · intro b hb
        rcases hsound b hb with hb | ⟨hs, c, hc, hreach⟩
        · exact (s1.sound b hb).imp_right fun h => ⟨h.2, a, List.mem_cons_self, h.1⟩
        · exact Or.inr ⟨hs, c, List.mem_cons_of_mem _ hc, hreach⟩
  obtain ⟨M, hM, hclosed, -, hroots, hsound⟩ := run roots (fun _ => false) (fun a h => by simp at h)
  refine ⟨M, hM, fun b => ⟨fun hb => ?_, fun ⟨hs, a, ha, hreach⟩ => ?_⟩⟩
  · exact (hsound b hb).resolve_left (by simp)
  · have reached : ∀ c, Reach kids a c → (kids c).isSome → M c = true := by
      intro c hc
      induction hc with
      | refl => exact hroots a ha
      | @tail b c _ hkid ih =>
        have hbs : (kids b).isSome := by
          obtain ⟨_, _, hk, -⟩ := hkid
          simp [hk]
        exact hclosed b (ih hbs) (Nat.zero_le _) c hkid
    exact reached b hreach hs

end AtomicPredicate.Lib
