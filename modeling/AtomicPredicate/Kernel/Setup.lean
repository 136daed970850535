import AtomicPredicate.Kernel.Calls
import AtomicPredicate.Kernel.Prime

/-!
# Setting up the package

After `bdd_init` the free list runs through the table in order, so `bdd_setvarnum` finds the two
literals of each variable new and puts them in consecutive nodes: `Setting v` is the state after `v`
variables. With the last one the table is ready for calls, and its nodes are those of `initialBdd`.
-/

namespace AtomicPredicate.Kernel

open Function Lib

variable {k k' : Kernel} {env : Env} {h v l r n : Nat} {d : Diagram Nat}

/-! ### `bdd_init` -/

theorem not_node_bddInit (initnodesize cs : Nat) : ¬(bddInit env initnodesize cs).Node h v l r := by
  intro hn
  have hlow : (if h < 2 then some h else none) = some l := hn.low
  have h2 := hn.two_le
  rw [if_neg (by omega)] at hlow
  cases hlow

theorem wf_bddInit {initnodesize cs : Nat} (hn : 2 < initnodesize) (hcs : 2 < cs) :
    (bddInit env initnodesize cs).Wf := by
  obtain ⟨hprime, hle⟩ := env.gte_prime initnodesize hn
  obtain ⟨hcprime, -⟩ := env.gte_prime cs hcs
  have hsize : 2 < env.bddPrimeGte initnodesize := by omega
  have hlow : ∀ h, ((bddInit env initnodesize cs).low h).isSome = decide (h < 2) := fun h => by
    show (if h < 2 then some h else none).isSome = decide (h < 2)
    split_ifs with h2 <;> simp [h2]
  have hconst : ∀ h, 0 < (if h < 2 then MAXREF else 0) → h < 2 := fun h hpos => by
    by_contra h2
    rw [if_neg h2] at hpos
    exact lt_irrefl _ hpos
  refine ⟨⟨hprime, hsize, fun h hs => ?_, fun hn => absurd hn (not_node_bddInit _ _),
    fun hn => absurd hn (not_node_bddInit _ _), fun h hpos => Or.inl (hconst h hpos), fun h => ?_,
    fun h h2 => if_pos h2, fun h hh => absurd hh List.not_mem_nil, hcprime.pos, rfl⟩,
    ⟨fun b _ => ?_, ?_⟩, rfl,
    fun n _ a (ha : none = some a) => by cases ha⟩
  · rw [hlow, decide_eq_true_eq] at hs
    exact hs.trans hsize
  · show (if h < 2 then MAXREF else 0) ≤ MAXREF
    split_ifs
    · exact le_rfl
    · exact Nat.zero_le _
  · refine ⟨[], rfl, List.nodup_nil, fun n => ?_⟩
    rw [hlow]
    simp
    omega
  · refine ⟨List.range' 2 (env.bddPrimeGte initnodesize - 2), ?_, List.nodup_range', fun n => ?_, ?_⟩
    · refine Chain.range' 2 _ (by decide) (fun x _ hx => if_neg (by omega)) ?_ (by omega)
      exact if_pos (by omega)
    · show _ ↔ (2 ≤ n ∧ n < env.bddPrimeGte initnodesize) ∧ _
      rw [hlow, List.mem_range'_1]
      simp
      omega
    · simp [bddInit]

/-- The free list runs through the table in order from `p` on. -/
def InOrder (p : Nat) (k : Kernel) : Prop :=
  k.freepos = p ∧ ∀ x, p ≤ x → x + 1 < k.nodesize → k.next x = x + 1

/-- The table `k'` has one node more than `k`, the next one in order. -/
structure Placed (v p low high : Nat) (k k' : Kernel) : Prop where
  wf : k'.Wf
  inOrder : InOrder (p + 1) k'
  node_iff : ∀ h w l r, k'.Node h w l r ↔ k.Node h w l r ∨ (h = p ∧ w = v ∧ l = low ∧ r = high)
  nodesize : k'.nodesize = k.nodesize
  level : ∀ h < 2, k'.level h = k.level h
  refcou : k'.refcou = k.refcou
  refstack : k'.refstack = k.refstack
  varnum : k'.varnum = k.varnum
  varset : k'.varset = k.varset
  stacksize : k'.stacksize = k.stacksize

theorem bddMakenode_inOrder (env : Env) {p low high : Nat} (hw : k.Wf) (hin : InOrder p k) (h2 : 2 ≤ p)
    (hp : p + 1 < k.nodesize) (hv : k.varnum = v) (hlow : low < 2) (hhigh : high < 2)
    (hne : low ≠ high) (hfresh : ∀ h, ¬k.Node h v low high) :
    ∃ k', bddMakenode env v low high k = .ok (p, k') ∧ Placed v p low high k k' := by
  obtain ⟨hfree, hnext⟩ := hin
  have h0 : k.freepos ≠ 0 := by omega
  have hrun := bddMakenode_fresh env hw hne hfresh h0
  have hnode := fun h w l r => @node_buildNode_iff k h w l r v low high
    (NODEHASH k.nodesize v low high) hw h0
  rw [hfree] at hrun hnode
  refine ⟨_, hrun, ⟨wf_buildNode hw h0 rfl hne hv.ge (Or.inl hlow) (Or.inl hhigh) hfresh,
    ⟨?_, fun x hx hlt => ?_⟩, hnode, rfl, fun h hlt => ?_, rfl, rfl, rfl, rfl, rfl⟩⟩
  · show k.next k.freepos = p + 1
    rw [hfree, hnext p le_rfl hp]
  · show update k.next k.freepos _ x = x + 1
    rw [update_of_ne (by omega)]
    exact hnext x (by omega) hlt
  · show update k.level k.freepos v h = k.level h
    rw [update_of_ne (by omega)]

/-- The literals of the variables before `v` are the nodes of the table, in order. -/
structure Setting (v : Nat) (k : Kernel) : Prop where
  wf : k.Wf
  varnum : k.varnum = v
  refstack : k.refstack = []
  inOrder : InOrder (2 * v + 2) k
  node_iff : ∀ h w l r, k.Node h w l r ↔
    w < v ∧ (h = 2 * w + 2 ∧ l = 0 ∧ r = 1 ∨ h = 2 * w + 3 ∧ l = 1 ∧ r = 0)
  refcou : ∀ h, k.refcou h = if h < 2 * v + 2 then MAXREF else 0
  varset : ∀ i < v, k.varset (i * 2) = 2 * i + 2

theorem setting_bddInit (env : Env) {initnodesize cs : Nat} (hn : 2 < initnodesize) (hcs : 2 < cs) :
    Setting 0 (bddInit env initnodesize cs) where
  wf := wf_bddInit hn hcs
  varnum := rfl
  refstack := rfl
  inOrder := ⟨rfl, fun x _ hx => by
    have hx' : x + 1 < env.bddPrimeGte initnodesize := hx
    exact if_neg (by omega)⟩
  node_iff h w l r := iff_of_false (not_node_bddInit _ _) (by omega)
  refcou h := rfl
  varset i hi := absurd hi (Nat.not_lt_zero i)

/-- The state in which the loop of `bdd_setvarnum` makes the second literal of `v`. -/
def betweenLiterals (v : Nat) (k : Kernel) : Kernel :=
  { k with
    refstack := [2 * v + 2]
    varset := update k.varset (v * 2) (2 * v + 2) }

def afterLiterals (v : Nat) (k : Kernel) : Kernel :=
  { k with
    varset := update k.varset (v * 2 + 1) (2 * v + 3)
    refstack := []
    refcou := update (update k.refcou (2 * v + 2) MAXREF) (2 * v + 3) MAXREF
    varnum := v + 1 }

theorem setvar_spec (hs : Setting v k) (hroom : 2 * v + 4 < k.nodesize) (hstack : 0 < k.stacksize) :
    Wp (setvar env) k (fun _ k' => Setting (v + 1) k' ∧ k'.nodesize = k.nodesize ∧
      k'.stacksize = k.stacksize) fun _ => False := by
  obtain ⟨hw, hvarnum, hrefstack, hin, hnode, hrefcou, hvarset⟩ := hs
  obtain ⟨k₁, hrun₁, h₁⟩ := bddMakenode_inOrder env hw hin (by omega) (by omega) hvarnum
    (by decide : 0 < 2) (by decide : 1 < 2) (by decide) fun h hn => by
      have := (hnode h v 0 1).mp hn
      omega
  have hsame₂ : k₁.SameTable (k₁.betweenLiterals v) := ⟨rfl, rfl, rfl, fun _ _ => rfl, rfl, rfl, rfl, rfl⟩
  have hvalid₁ : k₁.Valid (2 * v + 2) :=
    Or.inr ((h₁.node_iff _ _ _ _).mpr (Or.inr ⟨rfl, rfl, rfl, rfl⟩)).used
  have hw₂ : (k₁.betweenLiterals v).Wf :=
    hsame₂.wf h₁.wf le_rfl h₁.wf.counted h₁.wf.refcou_le h₁.wf.refcou_const
      (fun h hh => List.mem_singleton.mp hh ▸ hvalid₁) h₁.wf.cache
  obtain ⟨k₃, hrun₃, h₃⟩ := bddMakenode_inOrder env (p := 2 * v + 3) hw₂ h₁.inOrder
    (by omega) (h₁.nodesize.symm ▸ hroom) (h₁.varnum.trans hvarnum) (by decide : 1 < 2)
    (by decide : 0 < 2) (by decide) fun h hn => by
      have hn₁ := (h₁.node_iff h v 1 0).mp (hsame₂.node_iff.mp hn)
      rw [hnode] at hn₁
      omega
  refine Wp.mono (Q := fun _ k' => k' = k₃.afterLiterals v) ?_ fun _ k' hk' => ?_
  · simp only [setvar, wp_bind, wp_get, hvarnum]
    refine wp_of_ok hrun₁ (wp_PUSHREF (by rw [h₁.refstack, hrefstack, h₁.stacksize]; exact hstack) ?_)
    rw [h₁.refstack, hrefstack]
    refine (wp_modify _).mpr (wp_of_ok hrun₃ ?_)
    have hlit : k₃.varset (v * 2) = 2 * v + 2 := by
      rw [h₃.varset]
      exact update_self ..
    have hstack₃ : k₃.refstack = [2 * v + 2] := h₃.refstack
    simp only [wp_modify, POPREF, hstack₃, List.drop_succ_cons, List.drop_zero,
      update_self, update_of_ne (show v * 2 ≠ v * 2 + 1 by omega), hlit]
    rfl
  subst hk'
  have hnode₃ : ∀ h w l r, k₃.Node h w l r ↔
      w < v + 1 ∧ (h = 2 * w + 2 ∧ l = 0 ∧ r = 1 ∨ h = 2 * w + 3 ∧ l = 1 ∧ r = 0) := by
    intro h w l r
    rw [h₃.node_iff, hsame₂.node_iff, h₁.node_iff, hnode]
    constructor
    · rintro ((⟨hlt, hcases⟩ | ⟨rfl, rfl, rfl, rfl⟩) | ⟨rfl, rfl, rfl, rfl⟩)
      · exact ⟨by omega, hcases⟩
      · exact ⟨by omega, Or.inl ⟨rfl, rfl, rfl⟩⟩
      · exact ⟨by omega, Or.inr ⟨rfl, rfl, rfl⟩⟩
    · rintro ⟨hlt, hcases⟩
      rcases Nat.lt_succ_iff_lt_or_eq.mp hlt with hlt | rfl
      · exact Or.inl (Or.inl ⟨hlt, hcases⟩)
      · rcases hcases with ⟨rfl, rfl, rfl⟩ | ⟨rfl, rfl, rfl⟩
        · exact Or.inl (Or.inr ⟨rfl, rfl, rfl, rfl⟩)
        · exact Or.inr ⟨rfl, rfl, rfl, rfl⟩
  have hrefcou₃ : ∀ h, (k₃.afterLiterals v).refcou h =
      if h < 2 * (v + 1) + 2 then MAXREF else 0 := by
    intro h
    show update (update k₃.refcou (2 * v + 2) MAXREF) (2 * v + 3) MAXREF h = _
    have hrc : k₃.refcou h = if h < 2 * v + 2 then MAXREF else 0 := by
      rw [h₃.refcou, show (k₁.betweenLiterals v).refcou = k₁.refcou from rfl, h₁.refcou, hrefcou]
    rw [update_apply, update_apply, hrc]
    split_ifs <;> first | rfl | omega
  have hsame : k₃.SameTable (k₃.afterLiterals v) := ⟨rfl, rfl, rfl, fun _ _ => rfl, rfl, rfl, rfl, rfl⟩
  have hvarnum₃ : k₃.varnum = v := h₃.varnum.trans (h₁.varnum.trans hvarnum)
  have hvalid : ∀ h, h < 2 * (v + 1) + 2 → k₃.Valid h := by
    intro h hlt
    rcases Nat.lt_or_ge h 2 with h2 | h2
    · exact Or.inl h2
    refine Or.inr ?_
    rcases Nat.even_or_odd' h with ⟨w, rfl | rfl⟩
    · exact ((hnode₃ _ (w - 1) 0 1).mpr ⟨by omega, Or.inl ⟨by omega, rfl, rfl⟩⟩).used
    · exact ((hnode₃ _ (w - 1) 1 0).mpr ⟨by omega, Or.inr ⟨by omega, rfl, rfl⟩⟩).used
  refine ⟨⟨hsame.wf h₃.wf ?_ (fun h hpos => ?_) (fun h => ?_) (fun h h2 => ?_)
    (fun h hh => absurd hh List.not_mem_nil) h₃.wf.cache, rfl, rfl, h₃.inOrder,
    fun h w l r => hsame.node_iff.trans (hnode₃ h w l r), hrefcou₃, fun i hi => ?_⟩,
    h₃.nodesize.trans h₁.nodesize, h₃.stacksize.trans h₁.stacksize⟩
  · show k₃.varnum ≤ v + 1
    omega
  · rw [hrefcou₃] at hpos
    refine hvalid h ?_
    by_contra hge
    rw [if_neg hge] at hpos
    exact lt_irrefl _ hpos
  · rw [hrefcou₃]
    split_ifs
    · exact le_rfl
    · exact Nat.zero_le _
  · rw [hrefcou₃, if_pos (by omega)]
  · show update k₃.varset (v * 2 + 1) (2 * v + 3) (i * 2) = 2 * i + 2
    rw [update_of_ne (by omega), h₃.varset]
    show update k₁.varset (v * 2) (2 * v + 2) (i * 2) = 2 * i + 2
    rcases Nat.lt_succ_iff_lt_or_eq.mp hi with hlt | rfl
    · rw [update_of_ne (by omega), h₁.varset]
      exact hvarset i hlt
    · exact update_self ..

theorem setvars_spec (hs : Setting v k) (hroom : 2 * (v + n) + 2 < k.nodesize)
    (hstack : 0 < k.stacksize) :
    Wp (setvars env n) k (fun _ k' => Setting (v + n) k' ∧ k'.nodesize = k.nodesize ∧
      k'.stacksize = k.stacksize) fun _ => False := by
  induction n generalizing v k with
  | zero => exact ⟨hs, rfl, rfl⟩
  | succ n ih =>
    rw [setvars, wp_bind]
    refine (setvar_spec hs (by omega) hstack).mono fun _ k₁ h₁ => ?_
    obtain ⟨hs₁, hsize₁, hstack₁⟩ := h₁
    refine (ih hs₁ (by omega) (by omega)).mono fun _ k₂ h₂ => ?_
    obtain ⟨hs₂, hsize₂, hstack₂⟩ := h₂
    exact ⟨by rwa [show v + (n + 1) = v + 1 + n by omega], hsize₂.trans hsize₁,
      hstack₂.trans hstack₁⟩

/-! ### The state for the first call -/

/-- The table after `bdd_setvarnum(n)`: ready for calls, with the two literals of each variable, which
are never reclaimed. -/
structure Started (n : Nat) (k : Kernel) : Prop where
  idle : k.Idle
  varnum : k.varnum = n
  node_iff : ∀ h w l r, k.Node h w l r ↔
    w < n ∧ (h = 2 * w + 2 ∧ l = 0 ∧ r = 1 ∨ h = 2 * w + 3 ∧ l = 1 ∧ r = 0)
  refcou : ∀ h, k.refcou h = if h < 2 * n + 2 then MAXREF else 0
  varset : ∀ i < n, k.varset (i * 2) = 2 * i + 2

/-- **Setting up**: `bdd_init` and then `bdd_setvarnum`, for a table with room for the literals. -/
theorem bddSetvarnum_spec {initnodesize cs : Nat} (hn : 0 < n) (hmax : n ≤ MAXVAR)
    (hsize : 2 * n + 2 < initnodesize) (hcs : 2 < cs) :
    ∃ k, bddSetvarnum env n (bddInit env initnodesize cs) = .ok ((), k) ∧ Started n k ∧
      k.nodesize = env.bddPrimeGte initnodesize := by
  have hle := (env.gte_prime initnodesize (by omega)).2
  have hinit : Setting 0 ({ bddInit env initnodesize cs with stacksize := n * 2 + 4 } : Kernel) := by
    have hs := setting_bddInit env (show 2 < initnodesize by omega) hcs
    have hsame : (bddInit env initnodesize cs).SameTable
        { bddInit env initnodesize cs with stacksize := n * 2 + 4 } :=
      ⟨rfl, rfl, rfl, fun _ _ => rfl, rfl, rfl, rfl, rfl⟩
    exact ⟨hsame.wf hs.wf le_rfl hs.wf.counted hs.wf.refcou_le hs.wf.refcou_const
      (fun h hh => absurd hh List.not_mem_nil) hs.wf.cache, rfl, rfl, hs.inOrder,
      fun h w l r => hsame.node_iff.trans (hs.node_iff h w l r), hs.refcou, hs.varset⟩
  suffices h : Wp (bddSetvarnum env n) (bddInit env initnodesize cs)
      (fun _ k => Started n k ∧ k.nodesize = env.bddPrimeGte initnodesize) fun _ => False by
    obtain ⟨_, k, hrun, hk⟩ := h.exists_ok
    exact ⟨k, hrun, hk⟩
  have hvarnum : (bddInit env initnodesize cs).varnum = 0 := rfl
  simp only [bddSetvarnum, wp_bind, wp_get, hvarnum]
  rw [if_neg (by omega), if_neg (by omega), if_neg (by omega)]
  simp only [wp_bind, wp_set, wp_modify, Nat.sub_zero]
  have hroom : 2 * (0 + n) + 2 < env.bddPrimeGte initnodesize := by omega
  refine (setvars_spec hinit hroom (Nat.succ_pos _)).mono fun _ k hk => ?_
  obtain ⟨hs, hnodesize, hstack⟩ := hk
  rw [Nat.zero_add] at hs
  generalize hk' : ({ k with level := update (update k.level 0 n) 1 n } : Kernel) = k'
  have hsame : k.SameTable k' := by
    rw [← hk']
    refine ⟨rfl, rfl, rfl, fun h h2 => ?_, rfl, rfl, rfl, rfl⟩
    show update (update k.level 0 n) 1 n h = k.level h
    rw [update_of_ne (by omega), update_of_ne (by omega)]
  have hlevel : k'.level = update (update k.level 0 n) 1 n := by rw [← hk']
  obtain ⟨hvarnum', hrefcou', hstack', hstacksize', hvarset', hcache'⟩ : k'.varnum = k.varnum ∧
      k'.refcou = k.refcou ∧ k'.refstack = k.refstack ∧ k'.stacksize = k.stacksize ∧
      k'.varset = k.varset ∧ k'.applycache = k.applycache := by
    rw [← hk']
    exact ⟨rfl, rfl, rfl, rfl, rfl, rfl⟩
  have hnode : ∀ h w l r, k'.Node h w l r ↔
      w < n ∧ (h = 2 * w + 2 ∧ l = 0 ∧ r = 1 ∨ h = 2 * w + 3 ∧ l = 1 ∧ r = 0) := fun h w l r =>
    hsame.node_iff.trans (hs.node_iff h w l r)
  have hw' : k'.Wf := by
    refine hsame.wf hs.wf hvarnum'.ge ?_ ?_ ?_ ?_ ?_
    · rw [hrefcou']
      exact hs.wf.counted
    · rw [hrefcou']
      exact hs.wf.refcou_le
    · rw [hrefcou']
      exact hs.wf.refcou_const
    · rw [hstack']
      exact hs.wf.stack
    · rw [hcache']
      exact hs.wf.cache
  refine ⟨⟨⟨⟨hw', fun h h2 => ?_, fun hn => ?_⟩, hstack'.trans hs.refstack, ?_⟩,
    hvarnum'.trans hs.varnum, hnode, ?_, ?_⟩, hnodesize⟩
  · rw [hlevel, hvarnum', hs.varnum]
    rcases (by omega : h = 0 ∨ h = 1) with rfl | rfl
    · rw [update_of_ne (by decide), update_self]
    · rw [update_self]
  · rw [hvarnum', hs.varnum]
    exact ((hnode _ _ _ _).mp hn).1
  · rw [hvarnum', hs.varnum, hstacksize', hstack]
  · rw [hrefcou']
    exact hs.refcou
  · rw [hvarset']
    exact hs.varset

/-! ### `bdd_ithvar` -/

theorem bddIthvar_eq (hs : Started n k) {i : Nat} (hi : i < n) :
    bddIthvar i k = .ok (2 * i + 2, k) := by
  simp only [bddIthvar, bind, StateT.bind, get, getThe, MonadStateOf.get, StateT.get, pure,
    Except.pure, Except.bind, hs.varnum, if_neg (not_le.mpr hi), hs.varset i hi]
  rfl

theorem mapM_bddIthvar (hs : Started n k) (off : Nat) (l : List Nat) (hl : ∀ i ∈ l, i + off < n) :
    l.mapM (fun i => bddIthvar (i + off)) k = .ok (l.map fun i => 2 * (i + off) + 2, k) := by
  induction l with
  | nil => rfl
  | cons i l ih =>
    rw [List.mapM_cons]
    have hhead := bddIthvar_eq hs (hl i (by simp))
    have htail := ih fun j hj => hl j (List.mem_cons_of_mem i hj)
    simp only [bind, StateT.bind, hhead, htail, Except.bind]
    rfl

end AtomicPredicate.Kernel
