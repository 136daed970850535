import AtomicPredicate.Kernel.Table

/-!
# Garbage collection

`bdd_gbc` frees exactly the nodes that are not live. The loop over the table both clears the freed
nodes and threads every node anew; `foldr_gbcNode` separates the two, so that the chains are those of
`rethread` and the rest is one function of the marks. `Swept` says what such a loop leaves, for any
set of kept nodes that contains the roots and is closed under children; `bdd_gbc_rehash`, which
`bdd_noderesize` calls, is the same with every node kept.
-/

namespace AtomicPredicate.Kernel

open Function Lib

variable {k k' : Kernel} {h v l r : Nat}

def kept (k : Kernel) (n : Nat) : Bool := k.mark n && (k.low n).isSome

/-- The state after the loop of `bdd_gbc` over the nodes from `m` to `m + n`. -/
def afterGbc (m n : Nat) (k : Kernel) : Kernel :=
  { k with
    toLinks := (List.range' m n).foldr (threadCell k.kept k.bucketOf) k.toLinks
    mark := fun h => if (m ≤ h ∧ h < m + n) ∧ k.kept h = true then false else k.mark h
    low := fun h => if (m ≤ h ∧ h < m + n) ∧ k.kept h = false then none else k.low h }

theorem foldr_gbcNode (m n : Nat) (k : Kernel) :
    (List.range' m n).foldr gbcNode k = afterGbc m n k := by
  induction n generalizing m with
  | zero =>
    have hout : ∀ h, ¬(m ≤ h ∧ h < m + 0) := fun h => by omega
    simp only [afterGbc, hout, false_and, if_false]
    rfl
  | succ n ih =>
    have hin : ∀ h, h ≠ m → ((m ≤ h ∧ h < m + (n + 1)) ↔ (m + 1 ≤ h ∧ h < m + 1 + n)) :=
      fun h hne => by omega
    have hlinks : (afterGbc m (n + 1) k).toLinks =
        threadCell k.kept k.bucketOf m (afterGbc (m + 1) n k).toLinks := rfl
    have hmark : (afterGbc m (n + 1) k).mark =
        if k.kept m then update (afterGbc (m + 1) n k).mark m false else (afterGbc (m + 1) n k).mark := by
      funext h
      rcases eq_or_ne h m with rfl | hne
      · cases hk : k.kept h <;> simp [afterGbc, hk]
      · cases hk : k.kept m <;>
          simp only [afterGbc, hin h hne, if_true, Bool.false_eq_true, if_false, update_of_ne hne]
    have hlow : (afterGbc m (n + 1) k).low =
        if k.kept m then (afterGbc (m + 1) n k).low else update (afterGbc (m + 1) n k).low m none := by
      funext h
      rcases eq_or_ne h m with rfl | hne
      · cases hk : k.kept h <;> simp [afterGbc, hk]
      · cases hk : k.kept m <;>
          simp only [afterGbc, hin h hne, if_true, Bool.false_eq_true, if_false, update_of_ne hne]
    have heq : afterGbc m (n + 1) k = { afterGbc (m + 1) n k with
        toLinks := (afterGbc m (n + 1) k).toLinks
        mark := (afterGbc m (n + 1) k).mark
        low := (afterGbc m (n + 1) k).low } := rfl
    have hself : ((afterGbc (m + 1) n k).mark m && ((afterGbc (m + 1) n k).low m).isSome) = k.kept m := by
      simp [afterGbc, kept]
    have hbucket : NODEHASH (afterGbc (m + 1) n k).nodesize ((afterGbc (m + 1) n k).level m)
        (((afterGbc (m + 1) n k).low m).getD 0) ((afterGbc (m + 1) n k).high m) = k.bucketOf m := by
      simp [afterGbc, bucketOf]
    rw [List.range'_succ, List.foldr_cons, ih, heq, hlinks, hmark, hlow]
    unfold gbcNode threadCell
    rw [hself, hbucket]
    cases hk : k.kept m <;> rfl

theorem foldr_rehashNode (m n : Nat) (k : Kernel) :
    (List.range' m n).foldr rehashNode k = { k with
      toLinks := (List.range' m n).foldr (threadCell (fun n => (k.low n).isSome) k.bucketOf)
        k.toLinks } := by
  induction n generalizing m with
  | zero => rfl
  | succ n ih =>
    rw [List.range'_succ, List.foldr_cons, List.foldr_cons, ih]
    unfold rehashNode threadCell bucketOf
    split_ifs <;> rfl

/-! ### Swept tables -/

/-- The table `k'` has the nodes of `k` that `keep` selects, threaded anew. -/
structure Swept (k k' : Kernel) (keep : Nat → Bool) : Prop where
  low : ∀ h, k'.low h = if (2 ≤ h ∧ h < k.nodesize) ∧ keep h = false then none else k.low h
  level : k'.level = k.level
  high : k'.high = k.high
  nodesize : k'.nodesize = k.nodesize
  refcou : k'.refcou = k.refcou
  refstack : k'.refstack = k.refstack
  varnum : k'.varnum = k.varnum
  varset : k'.varset = k.varset
  stacksize : k'.stacksize = k.stacksize
  cachesize : k'.cachesize = k.cachesize
  maxnodesize : k'.maxnodesize = k.maxnodesize
  threaded : Threaded 2 k.nodesize keep k.bucketOf k'.toLinks

/-- The kept nodes contain the roots and the children of kept nodes. -/
structure Closed (k : Kernel) (keep : Nat → Bool) : Prop where
  used : ∀ h, keep h = true → k.Used h
  root : ∀ h, k.Root h → h < 2 ∨ keep h = true
  child : ∀ h v l r, keep h = true → k.Node h v l r → (l < 2 ∨ keep l = true) ∧
    (r < 2 ∨ keep r = true)

namespace Swept

variable {keep : Nat → Bool}

theorem low_of_keep (hs : Swept k k' keep) (hk : h < 2 ∨ keep h = true) : k'.low h = k.low h := by
  rw [hs.low, if_neg]
  rintro ⟨⟨h2, -⟩, hf⟩
  rcases hk with hlt | hk
  · omega
  · rw [hk] at hf
    cases hf

theorem used_iff (hs : Swept k k' keep) (hc : Closed k keep) : k'.Used h ↔ keep h = true := by
  constructor
  · rintro ⟨h2, hlt, hsome⟩
    rw [hs.nodesize] at hlt
    rw [hs.low] at hsome
    by_contra hk
    rw [if_pos ⟨⟨h2, hlt⟩, by simpa using hk⟩] at hsome
    cases hsome
  · intro hk
    obtain ⟨h2, hlt, hsome⟩ := hc.used h hk
    exact ⟨h2, hs.nodesize ▸ hlt, by rw [hs.low_of_keep (Or.inr hk)]; exact hsome⟩

theorem valid (hs : Swept k k' keep) (hc : Closed k keep) (hk : h < 2 ∨ keep h = true) :
    k'.Valid h :=
  hk.imp_right fun hk => (hs.used_iff hc).mpr hk

theorem node_iff (hs : Swept k k' keep) (hc : Closed k keep) :
    k'.Node h v l r ↔ k.Node h v l r ∧ keep h = true := by
  constructor
  · intro hn
    have hk := (hs.used_iff hc).mp hn.used
    exact ⟨⟨hn.two_le, hs.nodesize ▸ hn.lt, hs.level ▸ hn.level,
      (hs.low_of_keep (Or.inr hk)) ▸ hn.low, hs.high ▸ hn.high⟩, hk⟩
  · rintro ⟨hn, hk⟩
    exact ⟨hn.two_le, by rw [hs.nodesize]; exact hn.lt, by rw [hs.level]; exact hn.level,
      by rw [hs.low_of_keep (Or.inr hk)]; exact hn.low, by rw [hs.high]; exact hn.high⟩

theorem below (hs : Swept k k' keep) (hc : Closed k keep) (hb : k.Below v h)
    (hk : h < 2 ∨ keep h = true) : k'.Below v h := by
  rcases hb with hlt | ⟨-, hlt⟩
  · exact Or.inl hlt
  · rcases hk with hk | hk
    · exact Or.inl hk
    · exact Or.inr ⟨(hs.used_iff hc).mpr hk, by rw [hs.level]; exact hlt⟩

theorem ordered (hs : Swept k k' keep) (hc : Closed k keep) (ho : k.Ordered) : k'.Ordered where
  prime := hs.nodesize ▸ ho.prime
  size := hs.nodesize ▸ ho.size
  bound h hsome := by
    rw [hs.nodesize]
    rw [hs.low] at hsome
    split_ifs at hsome
    · cases hsome
    · exact ho.bound h hsome
  node {h v l r} hn := by
    obtain ⟨hn, hk⟩ := (hs.node_iff hc).mp hn
    obtain ⟨hne, hbl, hbr, hle⟩ := ho.node hn
    obtain ⟨hkl, hkr⟩ := hc.child h v l r hk hn
    exact ⟨hne, hs.below hc hbl hkl, hs.below hc hbr hkr, hs.varnum ▸ hle⟩
  unique hn hn' := ho.unique ((hs.node_iff hc).mp hn).1 ((hs.node_iff hc).mp hn').1
  counted h hpos := by
    rw [hs.refcou] at hpos
    exact hs.valid hc (hc.root h (Or.inr hpos))
  refcou_le := hs.refcou ▸ ho.refcou_le
  refcou_const := hs.refcou ▸ ho.refcou_const
  stack h hh := by
    rw [hs.refstack] at hh
    exact hs.valid hc (hc.root h (Or.inl hh))
  cachesize := hs.cachesize ▸ ho.cachesize
  maxnodesize := hs.maxnodesize.trans ho.maxnodesize

theorem threaded_self (hs : Swept k k' keep) (hc : Closed k keep) :
    Threaded 2 k'.nodesize (fun n => (k'.low n).isSome) k'.bucketOf k'.toLinks := by
  rw [hs.nodesize]
  refine hs.threaded.congr (fun n h2 hlt => ?_) fun n h2 hlt hk => ?_
  · rw [Bool.eq_iff_iff, ← hs.used_iff hc]
    exact ⟨fun h => ⟨h2, hs.nodesize ▸ hlt, h⟩, fun h => h.2.2⟩
  · rw [bucketOf, bucketOf, hs.nodesize, hs.level, hs.high, hs.low_of_keep (Or.inr hk)]

theorem keeps (hs : Swept k k' keep) (hc : Closed k keep) : k.Keeps k' where
  node h hl := by
    have hk : h < 2 ∨ keep h = true := by
      rcases hl with hlt | ⟨g, hg, hreach⟩
      · exact Or.inl hlt
      induction hreach with
      | refl => exact hc.root g hg
      | @tail b c _ hkid ih =>
        obtain ⟨l, r, hk, hc'⟩ := hkid
        obtain ⟨h2, hl, hh⟩ := kids_eq_some.mp hk
        have hkb := ih.resolve_left (by omega)
        have hn : k.Node b (k.level b) l r := ⟨h2, (hc.used b hkb).2.1, rfl, hl, hh⟩
        obtain ⟨hkl, hkr⟩ := hc.child b _ l r hkb hn
        rcases hc' with rfl | rfl
        · exact hkl
        · exact hkr
    exact ⟨hs.low_of_keep hk, by rw [hs.high], by rw [hs.level]⟩
  nodesize := hs.nodesize.ge
  sizes := hs.nodesize ▸ .refl _
  refcou := hs.refcou
  refstack := hs.refstack
  varnum := hs.varnum
  varset := hs.varset
  stacksize := hs.stacksize
  cachesize := hs.cachesize

end Swept

/-! ### Collection -/

namespace Ordered

theorem mem_roots (ho : k.Ordered) :
    h ∈ k.refstack.reverse ++ (List.range k.nodesize).filter (fun n => 0 < k.refcou n) ↔
      k.Root h := by
  simp only [List.mem_append, List.mem_reverse, List.mem_filter, List.mem_range, decide_eq_true_eq,
    Root]
  refine or_congr_right (and_iff_right_of_imp fun hpos => ?_)
  rcases ho.counted h hpos with hlt | hu
  · exact hlt.trans ho.size
  · exact hu.2.1

theorem mark_spec (ho : k.Ordered) (hmark : k.mark = fun _ => false) :
    ∃ M, markAll k.kids (k.varnum + 2)
        (k.refstack.reverse ++ (List.range k.nodesize).filter fun n => 0 < k.refcou n) k.mark = some M ∧
      ∀ h, M h = true ↔ k.Used h ∧ k.Live h := by
  obtain ⟨M, hM, hmarked⟩ := markAll_spec ho.ranked
    (k.refstack.reverse ++ (List.range k.nodesize).filter fun n => 0 < k.refcou n)
  refine ⟨M, by rw [hmark]; exact hM, fun h => ?_⟩
  rw [hmarked]
  constructor
  · rintro ⟨hs, g, hg, hreach⟩
    obtain ⟨⟨l, r⟩, hk⟩ := Option.isSome_iff_exists.mp hs
    exact ⟨(ho.node_of_kids hk).used, Or.inr ⟨g, ho.mem_roots.mp hg, hreach⟩⟩
  · rintro ⟨hu, hl⟩
    obtain ⟨l, hn⟩ := hu.node
    refine ⟨by simp [hn.kids], ?_⟩
    rcases hl with hlt | ⟨g, hg, hreach⟩
    · exact absurd hu.1 (by omega)
    · exact ⟨g, ho.mem_roots.mpr hg, hreach⟩

theorem closed_live (ho : k.Ordered) {keep : Nat → Bool}
    (hkeep : ∀ h, keep h = true ↔ k.Used h ∧ k.Live h) : Closed k keep where
  used h hk := ((hkeep h).mp hk).1
  root h hr := (ho.valid_root hr).imp_right fun hu => (hkeep h).mpr ⟨hu, hr.live⟩
  child h v l r hk hn := by
    have hl := ((hkeep h).mp hk).2
    exact ⟨(ho.valid_of_live (hl.low hn)).imp_right fun hu => (hkeep l).mpr ⟨hu, hl.low hn⟩,
      (ho.valid_of_live (hl.high hn)).imp_right fun hu => (hkeep r).mpr ⟨hu, hl.high hn⟩⟩

end Ordered

/-- What a collection leaves: the live nodes, and no others. -/
structure Collected (k k' : Kernel) : Prop where
  wf : k'.Wf
  keeps : k.Keeps k'
  used_iff : ∀ h, k'.Used h ↔ k.Used h ∧ k.Live h
  nodesize : k'.nodesize = k.nodesize
  maxnodesize : k'.maxnodesize = k.maxnodesize
  cache : ∀ n < k'.cachesize, (k'.applycache n).a = none

theorem Collected.node_iff (hc : Collected k k') :
    k'.Node h v l r ↔ k.Node h v l r ∧ k.Live h := by
  constructor
  · intro hn
    obtain ⟨hu, hl⟩ := (hc.used_iff h).mp hn.used
    obtain ⟨_, hn'⟩ := hu.node
    obtain ⟨hlow, hhigh, hlevel⟩ := hc.keeps.node h hl
    exact ⟨⟨hn.two_le, hn'.lt, hlevel ▸ hn.level, hlow ▸ hn.low, hhigh ▸ hn.high⟩, hl⟩
  · rintro ⟨hn, hl⟩
    exact hc.keeps.node_of hl hn

/-- The table with marks set and chains emptied, as the second loop of `bdd_gbc` finds it. -/
def marked (k : Kernel) (M : Nat → Bool) : Kernel :=
  { k with
    mark := M
    hash := fun n => if n < k.nodesize then 0 else k.hash n
    freepos := 0
    freenum := 0 }

theorem swept_afterGbc (ho : k.Ordered) (M : Nat → Bool) :
    Swept k (bddOperatorReset (afterGbc 2 (k.nodesize - 2) (k.marked M))) (k.marked M).kept where
  low h := by
    have hsize := ho.size
    have hrange : (2 ≤ h ∧ h < 2 + (k.nodesize - 2)) ↔ 2 ≤ h ∧ h < k.nodesize := by omega
    show (if (2 ≤ h ∧ h < 2 + (k.nodesize - 2)) ∧ _ then none else k.low h) = _
    simp only [hrange]
  level := rfl
  high := rfl
  nodesize := rfl
  refcou := rfl
  refstack := rfl
  varnum := rfl
  varset := rfl
  stacksize := rfl
  cachesize := rfl
  maxnodesize := rfl
  threaded := threaded_rethread (by decide) ho.size.le
    (fun _ _ _ _ => NODEHASH_lt ho.size_pos _ _ _) (fun _ hb => if_pos hb) rfl rfl

theorem collected_of_marks (ho : k.Ordered) {M : Nat → Bool}
    (hM : ∀ h, M h = true ↔ k.Used h ∧ k.Live h) :
    Collected k (bddOperatorReset (afterGbc 2 (k.nodesize - 2) (k.marked M))) := by
  have hkept : ∀ h, (k.marked M).kept h = true ↔ k.Used h ∧ k.Live h := by
    intro h
    show (M h && (k.low h).isSome) = true ↔ _
    rw [Bool.and_eq_true, hM]
    exact and_iff_left_of_imp fun hh => hh.1.2.2
  have hs := swept_afterGbc ho M
  have hc := ho.closed_live hkept
  have hcache : ∀ n < k.cachesize,
      ((bddOperatorReset (afterGbc 2 (k.nodesize - 2) (k.marked M))).applycache n).a = none := by
    intro n hn
    show (if n < k.cachesize then _ else _ : BddCacheData).a = none
    rw [if_pos hn]
  refine ⟨⟨hs.ordered hc ho, hs.threaded_self hc, ?_, fun n hn a ha => ?_⟩, hs.keeps hc,
    fun h => (hs.used_iff hc).trans (hkept h), rfl, rfl, hcache⟩
  · -- every mark belongs to a kept node, and the loop takes it off
    funext h
    show (if (2 ≤ h ∧ h < 2 + (k.nodesize - 2)) ∧ (k.marked M).kept h = true then false else M h) = _
    split_ifs with hcond
    · rfl
    · by_contra hm
      have hM' := (hM h).mp (by simpa using hm)
      have h2 := hM'.1.1
      have hlt := hM'.1.2.1
      exact hcond ⟨by omega, (hkept h).mpr hM'⟩
  · rw [hcache n hn] at ha
    cases ha

/-- **Garbage collection** is exact: it keeps the live nodes as they are and frees all others. -/
theorem bddGbc_spec (ho : k.Ordered) (hmark : k.mark = fun _ => false) :
    ∃ k', bddGbc k = .ok ((), k') ∧ Collected k k' := by
  obtain ⟨M, hM, hiff⟩ := ho.mark_spec hmark
  refine ⟨_, ?_, collected_of_marks ho hiff⟩
  rw [← foldr_gbcNode]
  simp only [bddGbc, bind, StateT.bind, get, getThe, MonadStateOf.get, StateT.get, pure, Except.pure,
    Except.bind, hM]
  rfl

end AtomicPredicate.Kernel
