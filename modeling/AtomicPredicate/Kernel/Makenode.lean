import AtomicPredicate.Kernel.Gbc

/-!
# The unique table

`bdd_makenode` returns the node it is asked for, and leaves the table as it found it but for that
node and what a collection may reclaim; this is `bddMakenode_made`. It finds the node on its hash
chain if it is there, and otherwise takes a free one, after a collection and a resize of the table if
there is none.

The only other outcome is the end of the program (`Exhausted`): the table has come to a size from
which it does not grow, for want of memory or of a larger prime within reach.
-/

namespace AtomicPredicate.Kernel

open Function Lib

variable {k k' : Kernel} {env : Env} {n h v l r level low high hash : Nat}

/-- The faults that a kernel function may end with on a valid request, for a table that was of size
`n`: it has been resized up to a size from which it does not grow. -/
def Exhausted (env : Env) (n : Nat) (e : KFault) : Prop :=
  ∃ m, Reached n m ∧ (e = .exit .memory ∧ env.realloc (nextSize m) = false ∨
    e = .exit .nodenum ∧ nextSize m ≤ m)

/-! ### Resizing -/

theorem bddPrimeLte_eq (env : Env) (hn : 2 < n) :
    env.bddPrimeLte n = Nat.findGreatest Nat.Prime n := by
  obtain ⟨hp, h2, hle⟩ := env.lte_prime n hn
  have hthree : 3 ≤ Nat.findGreatest Nat.Prime n := Nat.le_findGreatest hn Nat.prime_three
  apply le_antisymm
  · exact Nat.le_findGreatest hle hp
  · exact env.le_lte _ n (Nat.findGreatest_spec hn Nat.prime_three) hthree (Nat.findGreatest_le n)

theorem Ordered.grownSize_eq (ho : k.Ordered) :
    k.grownSize = min (2 * k.nodesize) (k.nodesize + DEFAULTMAXNODEINC) := by
  have hdouble : k.nodesize <<< 1 = 2 * k.nodesize := by
    rw [Nat.shiftLeft_eq]
    omega
  unfold grownSize
  rw [hdouble, ho.maxnodesize]
  dsimp only
  split_ifs <;> omega

theorem Ordered.nextSize_eq (ho : k.Ordered) (env : Env) :
    env.bddPrimeLte k.grownSize = nextSize k.nodesize := by
  have hsize := ho.size
  rw [ho.grownSize_eq, nextSize, bddPrimeLte_eq]
  unfold DEFAULTMAXNODEINC
  omega

theorem Ordered.le_nextSize (ho : k.Ordered) :
    (nextSize k.nodesize).Prime ∧ k.nodesize ≤ nextSize k.nodesize := by
  have hle : k.nodesize ≤ min (2 * k.nodesize) (k.nodesize + DEFAULTMAXNODEINC) := by omega
  exact ⟨Nat.findGreatest_spec hle ho.prime, Nat.le_findGreatest hle ho.prime⟩

theorem Ordered.node_extend_iff (ho : k.Ordered) {size : Nat} (hle : k.nodesize ≤ size) :
    (k.extend size).Node h v l r ↔ k.Node h v l r := by
  constructor
  · intro hn
    have hlow : (if k.nodesize ≤ h ∧ h < size then none else k.low h) = some l := hn.low
    have hlevel : (if k.nodesize ≤ h ∧ h < size then 0 else k.level h) = v := hn.level
    split_ifs at hlow hlevel with hnew
    exact ⟨hn.two_le, ho.bound h (by simp [hlow]), hlevel, hlow, hn.high⟩
  · intro hn
    have hold : ¬(k.nodesize ≤ h ∧ h < size) := fun hnew => absurd hn.lt (not_lt.mpr hnew.1)
    exact ⟨hn.two_le, hn.lt.trans_le hle, (if_neg hold).trans hn.level, (if_neg hold).trans hn.low,
      hn.high⟩

theorem Ordered.refcou_extend (ho : k.Ordered) (size : Nat) : (k.extend size).refcou = k.refcou := by
  funext h
  show (if k.nodesize ≤ h ∧ h < size then 0 else k.refcou h) = k.refcou h
  split_ifs with hnew
  · by_contra hne
    have hsize := ho.size
    rcases ho.counted h (by omega) with hlt | hu
    · omega
    · exact absurd hu.2.1 (by omega)
  · rfl

theorem used_of_node_iff (hiff : ∀ h v l r, k'.Node h v l r ↔ k.Node h v l r) :
    k'.Used h ↔ k.Used h := by
  constructor
  · intro hu
    obtain ⟨l, hn⟩ := hu.node
    exact ((hiff _ _ _ _).mp hn).used
  · intro hu
    obtain ⟨l, hn⟩ := hu.node
    exact ((hiff _ _ _ _).mpr hn).used

theorem below_of_node_iff (hiff : ∀ h v l r, k'.Node h v l r ↔ k.Node h v l r) (hb : k.Below v h) :
    k'.Below v h := by
  refine hb.imp_right fun ⟨hu, hlt⟩ => ?_
  obtain ⟨l, hn⟩ := hu.node
  have hn' := (hiff _ _ _ _).mpr hn
  exact ⟨hn'.used, hn'.level ▸ hlt⟩

theorem Ordered.extend (ho : k.Ordered) {size : Nat} (hle : k.nodesize ≤ size) (hp : size.Prime) :
    (k.extend size).Ordered := by
  have hiff : ∀ h v l r, (k.extend size).Node h v l r ↔ k.Node h v l r := fun _ _ _ _ =>
    ho.node_extend_iff hle
  have hvalid : ∀ h, k.Valid h → (k.extend size).Valid h := fun h hv =>
    hv.imp_right (used_of_node_iff hiff).mpr
  have hrefcou := ho.refcou_extend size
  constructor
  · exact hp
  · exact ho.size.trans_le hle
  · intro h hs
    have hs' : (if k.nodesize ≤ h ∧ h < size then none else k.low h).isSome := hs
    split_ifs at hs' with hnew
    · cases hs'
    · exact (ho.bound h hs').trans_le hle
  · intro h v l r hn
    obtain ⟨hne, hbl, hbr, hv⟩ := ho.node ((hiff _ _ _ _).mp hn)
    exact ⟨hne, below_of_node_iff hiff hbl, below_of_node_iff hiff hbr, hv⟩
  · intro h h' v l r hn hn'
    exact ho.unique ((hiff _ _ _ _).mp hn) ((hiff _ _ _ _).mp hn')
  · intro h hpos
    rw [hrefcou] at hpos
    exact hvalid h (ho.counted h hpos)
  · rw [hrefcou]
    exact ho.refcou_le
  · rw [hrefcou]
    exact ho.refcou_const
  · exact fun h hh => hvalid h (ho.stack h hh)
  · exact ho.cachesize
  · exact ho.maxnodesize

theorem Ordered.keeps_extend (ho : k.Ordered) :
    k.Keeps (k.extend (nextSize k.nodesize)) where
  node h hl := by
    have hlt : h < k.nodesize := by
      rcases ho.valid_of_live hl with hlt | hu
      · exact hlt.trans ho.size
      · exact hu.2.1
    have hold : ¬(k.nodesize ≤ h ∧ h < nextSize k.nodesize) := fun hnew =>
      absurd hlt (not_lt.mpr hnew.1)
    exact ⟨if_neg hold, rfl, if_neg hold⟩
  nodesize := ho.le_nextSize.2
  sizes := .next _
  refcou := ho.refcou_extend _
  refstack := rfl
  varnum := rfl
  varset := rfl
  stacksize := rfl
  cachesize := rfl

def allNodes (k : Kernel) (n : Nat) : Bool := decide (2 ≤ n) && (k.low n).isSome

theorem Ordered.allNodes_iff (ho : k.Ordered) : k.allNodes h = true ↔ k.Used h := by
  unfold allNodes Used
  rw [Bool.and_eq_true, decide_eq_true_eq]
  exact ⟨fun ⟨h2, hs⟩ => ⟨h2, ho.bound h hs, hs⟩, fun ⟨h2, _, hs⟩ => ⟨h2, hs⟩⟩

theorem Ordered.closed_allNodes (ho : k.Ordered) : Closed k k.allNodes where
  used _ := ho.allNodes_iff.mp
  root _ hr := (ho.valid_root hr).imp_right ho.allNodes_iff.mpr
  child _ _ _ _ _ hn := by
    obtain ⟨-, hbl, hbr, -⟩ := ho.node hn
    exact ⟨hbl.valid.imp_right ho.allNodes_iff.mpr, hbr.valid.imp_right ho.allNodes_iff.mpr⟩

theorem bddGbcRehash_eq (k : Kernel) : bddGbcRehash k = { k with
    toLinks := rethread (fun n => (k.low n).isSome) k.bucketOf 2 k.nodesize
      { k.toLinks with freepos := 0, freenum := 0 } } :=
  foldr_rehashNode _ _ _

theorem Ordered.swept_rehash (ho : k.Ordered) (hhash : ∀ b < k.nodesize, k.hash b = 0) :
    Swept k (bddGbcRehash k) k.allNodes := by
  have hsize := ho.size
  rw [bddGbcRehash_eq]
  refine ⟨fun h => ?_, rfl, rfl, rfl, rfl, rfl, rfl, rfl, rfl, rfl, rfl, ?_⟩
  · show k.low h = _
    split_ifs with hcond
    · have : (k.low h).isSome = false := by
        simpa [allNodes, hcond.1.1] using hcond.2
      simpa using this
    · rfl
  · have hthread : Threaded 2 k.nodesize (fun n => (k.low n).isSome) k.bucketOf
        (rethread (fun n => (k.low n).isSome) k.bucketOf 2 k.nodesize
          { k.toLinks with freepos := 0, freenum := 0 }) :=
      threaded_rethread (by decide) ho.size.le (fun _ _ _ _ => NODEHASH_lt ho.size_pos _ _ _)
        hhash rfl rfl
    exact hthread.congr (fun n h2 _ => by simp [allNodes, h2]) fun _ _ _ _ => rfl

/-- What a resize leaves: every node, and no others. -/
structure Resized (k k' : Kernel) : Prop where
  wf : k'.Wf
  keeps : k.Keeps k'
  node_iff : ∀ h v l r, k'.Node h v l r ↔ k.Node h v l r
  nodesize : k'.nodesize = nextSize k.nodesize

theorem resized_rehash (hw : k.Wf) :
    Resized k (bddGbcRehash (k.extend (nextSize k.nodesize))) := by
  obtain ⟨hp, hle⟩ := hw.le_nextSize
  generalize hsize : nextSize k.nodesize = size at hp hle ⊢
  have hkeeps : k.Keeps (k.extend size) := hsize ▸ hw.keeps_extend
  have ho := hw.extend hle hp
  have hs := ho.swept_rehash (fun b hb => if_pos hb)
  have hc := ho.closed_allNodes
  have hiff : ∀ h v l r, (bddGbcRehash (k.extend size)).Node h v l r ↔ k.Node h v l r := by
    intro h v l r
    rw [hs.node_iff hc, hw.node_extend_iff hle]
    exact and_iff_left_of_imp fun hn =>
      ho.allNodes_iff.mpr ((hw.node_extend_iff hle).mpr hn).used
  refine ⟨⟨hs.ordered hc ho, hs.threaded_self hc, ?_, ?_⟩,
    hkeeps.trans (hs.keeps hc), hiff, hs.nodesize.trans hsize.symm⟩
  · funext h
    show (bddGbcRehash (k.extend size)).mark h = false
    rw [bddGbcRehash_eq]
    show (if k.nodesize ≤ h ∧ h < size then false else k.mark h) = false
    rw [hw.mark]
    split_ifs <;> rfl
  · have hcache : (bddGbcRehash (k.extend size)).applycache = k.applycache := by
      rw [bddGbcRehash_eq]
      rfl
    intro n hn
    rw [hcache]
    exact (hw.cache n (hs.cachesize ▸ hn)).mono fun h v l r => (hiff h v l r).mpr

theorem bddNoderesize_spec (hw : k.Wf) (hn : Reached n k.nodesize) :
    Wp (bddNoderesize env) k (fun _ k' => Resized k k') (Exhausted env n) := by
  simp only [bddNoderesize, wp_bind, wp_get, hw.maxnodesize, hw.nextSize_eq env]
  rw [if_neg (by omega)]
  split_ifs with halloc
  · exact resized_rehash hw
  · exact ⟨_, hn, Or.inl ⟨rfl, by simpa using halloc⟩⟩

theorem Wf.freepos_iff (hw : k.Wf) :
    k.freepos = 0 ↔ ∀ h, 2 ≤ h → h < k.nodesize → k.Used h := by
  rw [hw.threaded.freepos_eq_zero_iff (by decide)]
  exact ⟨fun hall h h2 hlt => ⟨h2, hlt, hall h h2 hlt⟩, fun hall h h2 hlt => (hall h h2 hlt).2.2⟩

theorem Wf.freenum_iff (hw : k.Wf) : k.freenum = 0 ↔ k.freepos = 0 := by
  rw [hw.threaded.freepos_eq_zero_iff (by decide), hw.threaded.freenum_eq,
    List.length_eq_zero_iff, List.filter_eq_nil_iff]
  refine forall_congr' fun h => ?_
  have hsize := hw.size
  rw [List.mem_range'_1, Bool.not_eq_true', Bool.not_eq_false]
  constructor
  · exact fun hall h2 hlt => hall ⟨h2, by omega⟩
  · exact fun hall hh => hall hh.1 (by omega)

theorem Wf.freepos_of_percent (hw : k.Wf) (h : ¬k.freenum * 100 / k.nodesize ≤ minfreenodes) :
    k.freepos ≠ 0 := by
  intro h0
  rw [hw.freenum_iff.mpr h0] at h
  simp at h

theorem Resized.freepos_iff (hres : Resized k k') (hw : k.Wf) :
    k'.freepos = 0 ↔ nextSize k.nodesize ≤ k.nodesize ∧ k.freepos = 0 := by
  rw [hres.wf.freepos_iff, hw.freepos_iff, hres.nodesize]
  simp only [used_of_node_iff hres.node_iff]
  constructor
  · intro hall
    refine ⟨?_, fun h h2 hlt => hall h h2 (hlt.trans_le hw.le_nextSize.2)⟩
    by_contra hlt
    exact lt_irrefl _ (hall _ hw.size.le (not_le.mp hlt)).2.1
  · rintro ⟨hle, hall⟩ h h2 hlt
    exact hall h h2 (hlt.trans_le hle)

/-! ### Room for a node -/

/-- The table has a free node, and no node that was not there before. -/
structure Room (k k' : Kernel) : Prop where
  wf : k'.Wf
  keeps : k.Keeps k'
  old : ∀ h v l r, k'.Node h v l r → k.Node h v l r
  free : k'.freepos ≠ 0

theorem makeRoom_spec (hw : k.Wf) (hn : Reached n k.nodesize) :
    Wp (makeRoom env level low high (NODEHASH k.nodesize level low high)) k
      (fun hash k' => Room k k' ∧ hash = NODEHASH k'.nodesize level low high)
      (Exhausted env n) := by
  simp only [makeRoom, wp_bind, wp_get]
  split_ifs with hfree
  · exact ⟨⟨hw, .refl k, fun _ _ _ _ hn => hn, hfree⟩, rfl⟩
  obtain ⟨k₁, hgbc, hcol⟩ := bddGbc_spec hw.toOrdered hw.mark
  have hold : ∀ h v l r, k₁.Node h v l r → k.Node h v l r := fun _ _ _ _ hn =>
    (hcol.node_iff.mp hn).1
  have hn₁ : Reached n k₁.nodesize := hcol.nodesize ▸ hn
  refine wp_bind.mpr (wp_of_ok hgbc ?_)
  simp only [wp_bind, wp_get]
  have finish : ∀ k₂ : Kernel, k₂.Wf → k.Keeps k₂ → (∀ h v l r, k₂.Node h v l r → k.Node h v l r) →
      ∀ hash, hash = NODEHASH k₂.nodesize level low high →
      (k₂.freepos = 0 → nextSize k₁.nodesize ≤ k₁.nodesize) →
      Wp (if k₂.freepos = 0 then do
            let _ ← (bddError .nodenum : KernelM PUnit)
            pure hash
          else pure hash) k₂
        (fun hash k' => Room k k' ∧ hash = NODEHASH k'.nodesize level low high)
        (Exhausted env n) := by
    intro k₂ hw₂ hkeeps hold₂ hash hhash hstuck
    split_ifs with h0
    · exact ⟨_, hn₁, Or.inr ⟨rfl, hstuck h0⟩⟩
    · exact ⟨⟨hw₂, hkeeps, hold₂, h0⟩, hhash⟩
  split_ifs with hpercent
  · simp only [wp_bind, wp_get, wp_pure]
    refine (bddNoderesize_spec hcol.wf hn₁).mono fun _ k₂ hres => ?_
    refine finish k₂ hres.wf (hcol.keeps.trans hres.keeps)
      (fun h v l r hn => hold h v l r ((hres.node_iff h v l r).mp hn)) _ rfl fun h0 => ?_
    exact ((hres.freepos_iff hcol.wf).mp h0).1
  · refine finish k₁ hcol.wf hcol.keeps hold _ (by rw [hcol.nodesize]) fun h0 => ?_
    exact absurd h0 (hcol.wf.freepos_of_percent hpercent)

/-! ### Building a node -/

/-- The table `k'` has the node `(level, low, high)` under the handle `res`, and no other new node
but at that level. -/
structure Made (k k' : Kernel) (res level low high : Nat) : Prop where
  wf : k'.Wf
  keeps : k.Keeps k'
  node : k'.Node res level low high
  new : ∀ h v l r, k'.Node h v l r → k.Node h v l r ∨ v = level

theorem Wf.freepos_free (hw : k.Wf) (h0 : k.freepos ≠ 0) :
    2 ≤ k.freepos ∧ k.freepos < k.nodesize ∧ k.low k.freepos = none := by
  obtain ⟨⟨h2, hlt⟩, hs⟩ := hw.threaded.freepos_mem h0
  exact ⟨h2, hlt, by simpa using hs⟩

theorem Wf.ne_freepos (hw : k.Wf) (h0 : k.freepos ≠ 0) (hv : k.Valid h) : h ≠ k.freepos := by
  rintro rfl
  obtain ⟨h2, -, hnone⟩ := hw.freepos_free h0
  rcases hv with hlt | hu
  · omega
  · exact absurd hu.2.2 (by simp [hnone])

section Build

variable (hw : k.Wf) (h0 : k.freepos ≠ 0)
include hw h0

theorem node_buildNode_iff :
    (k.buildNode level low high hash).Node h v l r ↔
      k.Node h v l r ∨ (h = k.freepos ∧ v = level ∧ l = low ∧ r = high) := by
  obtain ⟨h2, hlt, hnone⟩ := hw.freepos_free h0
  constructor
  · intro hn
    have hlevel : update k.level k.freepos level h = v := hn.level
    have hlow : update k.low k.freepos (some low) h = some l := hn.low
    have hhigh : update k.high k.freepos high h = r := hn.high
    rcases eq_or_ne h k.freepos with rfl | hne
    · rw [update_self] at hlevel hlow hhigh
      exact Or.inr ⟨rfl, hlevel.symm, (Option.some.inj hlow).symm, hhigh.symm⟩
    · rw [update_of_ne hne] at hlevel hlow hhigh
      exact Or.inl ⟨hn.two_le, hn.lt, hlevel, hlow, hhigh⟩
  · rintro (hn | ⟨rfl, rfl, rfl, rfl⟩)
    · have hne := hw.ne_freepos h0 (Or.inr hn.used)
      exact ⟨hn.two_le, hn.lt, (update_of_ne hne _ _).trans hn.level,
        (update_of_ne hne _ _).trans hn.low, (update_of_ne hne _ _).trans hn.high⟩
    · exact ⟨h2, hlt, update_self .., update_self .., update_self ..⟩

theorem used_buildNode (hu : k.Used h) : (k.buildNode level low high hash).Used h := by
  obtain ⟨l, hn⟩ := hu.node
  exact ((node_buildNode_iff hw h0).mpr (Or.inl hn)).used

theorem below_buildNode (hb : k.Below v h) : (k.buildNode level low high hash).Below v h := by
  refine hb.imp_right fun ⟨hu, hlt⟩ => ⟨used_buildNode hw h0 hu, ?_⟩
  show v < update k.level k.freepos level h
  rwa [update_of_ne (hw.ne_freepos h0 (Or.inr hu))]

theorem keeps_buildNode : k.Keeps (k.buildNode level low high hash) where
  node h hl := by
    have hne := hw.ne_freepos h0 (hw.valid_of_live hl)
    exact ⟨update_of_ne hne _ _, update_of_ne hne _ _, update_of_ne hne _ _⟩
  nodesize := le_rfl
  sizes := .refl _
  refcou := rfl
  refstack := rfl
  varnum := rfl
  varset := rfl
  stacksize := rfl
  cachesize := rfl

theorem wf_buildNode (hhash : hash = NODEHASH k.nodesize level low high) (hne : low ≠ high)
    (hlevel : level ≤ k.varnum) (hlow : k.Below level low) (hhigh : k.Below level high)
    (hfresh : ∀ h, ¬k.Node h level low high) : (k.buildNode level low high hash).Wf := by
  have hiff := fun h v l r => @node_buildNode_iff k h v l r level low high hash hw h0
  obtain ⟨h2, hlt, hnone⟩ := hw.freepos_free h0
  have hvalid : ∀ h, k.Valid h → (k.buildNode level low high hash).Valid h := fun h hv =>
    hv.imp_right (used_buildNode hw h0)
  have hbucket : (k.buildNode level low high hash).bucketOf k.freepos = hash := by
    rw [hhash]
    simp [bucketOf, buildNode]
  constructor
  · constructor
    · exact hw.prime
    · exact hw.size
    · intro h hs
      rcases eq_or_ne h k.freepos with rfl | hh
      · exact hlt
      · refine hw.bound h ?_
        have : (update k.low k.freepos (some low) h).isSome := hs
        rwa [update_of_ne hh] at this
    · intro h v l r hn
      rcases (hiff h v l r).mp hn with hn | ⟨-, rfl, rfl, rfl⟩
      · obtain ⟨hne', hbl, hbr, hle⟩ := hw.node hn
        exact ⟨hne', below_buildNode hw h0 hbl, below_buildNode hw h0 hbr, hle⟩
      · exact ⟨hne, below_buildNode hw h0 hlow, below_buildNode hw h0 hhigh, hlevel⟩
    · intro h h' v l r hn hn'
      rcases (hiff h v l r).mp hn with hn | ⟨hh, hv, hl, hr⟩
      · rcases (hiff h' v l r).mp hn' with hn' | ⟨-, hv, hl, hr⟩
        · exact hw.unique hn hn'
        · exact absurd (hv ▸ hl ▸ hr ▸ hn) (hfresh h)
      · rcases (hiff h' v l r).mp hn' with hn' | ⟨hh', -, -, -⟩
        · exact absurd (hv ▸ hl ▸ hr ▸ hn') (hfresh h')
        · exact hh.trans hh'.symm
    · exact fun h hpos => hvalid h (hw.counted h hpos)
    · exact hw.refcou_le
    · exact hw.refcou_const
    · exact fun h hh => hvalid h (hw.stack h hh)
    · exact hw.cachesize
    · exact hw.maxnodesize
  · -- the new node leaves the free list for the head of its bucket
    have htake := @Threaded.take 2 k.nodesize _ _ k.toLinks
      (fun n => ((k.buildNode level low high hash).low n).isSome)
      (k.buildNode level low high hash).bucketOf hw.threaded (by decide) h0
      (by rw [hbucket, hhash]; exact NODEHASH_lt hw.size_pos _ _ _) (by simp [buildNode])
      (fun n hn => by simp [buildNode, bucketOf, hn])
    rw [hbucket] at htake
    exact htake
  · exact hw.mark
  · exact fun n hn => (hw.cache n hn).mono fun h v l r hn' => (hiff h v l r).mpr (Or.inl hn')

end Build

/-! ### The node constructor -/

theorem search_spec (hw : k.Wf) (level low high : Nat) :
    ∃ res, search (k.isNode level low high) k.next (k.nodesize + 1)
        (k.hash (NODEHASH k.nodesize level low high)) = some res ∧
      (res ≠ 0 → k.Node res level low high) ∧ (res = 0 → ∀ h, ¬k.Node h level low high) := by
  obtain ⟨res, hsearch, hfound, hnot⟩ := hw.threaded.search_bucket
    (NODEHASH_lt hw.size_pos level low high) (k.isNode level low high)
  refine ⟨res, hsearch, fun h0 => ?_, fun h0 h hn => ?_⟩
  · obtain ⟨⟨h2, hlt⟩, -, -, hp⟩ := hfound h0
    simp only [isNode, Bool.and_eq_true, beq_iff_eq] at hp
    exact ⟨h2, hlt, hp.1.1, hp.1.2, hp.2⟩
  · have := hnot h0 (by decide) h hn.two_le hn.lt (by simp [hn.low])
      (by simp [bucketOf, hn.level, hn.low, hn.high])
    simp [isNode, hn.level, hn.low, hn.high] at this

/-- **The node constructor**, for two different children that are live and further down. -/
theorem bddMakenode_made (hw : k.Wf) (hn : Reached n k.nodesize) (hne : low ≠ high) (hlevel : level ≤ k.varnum)
    (hlow : k.Below level low) (hhigh : k.Below level high) (hll : k.Live low) (hlh : k.Live high) :
    Wp (bddMakenode env level low high) k (fun res k' => Made k k' res level low high)
      (Exhausted env n) := by
  obtain ⟨res, hsearch, hfound, hnot⟩ := search_spec hw level low high
  simp only [bddMakenode, wp_bind, wp_get, if_neg hne, hsearch]
  split_ifs with hres
  · exact ⟨hw, .refl k, hfound hres, fun _ _ _ _ hn => Or.inl hn⟩
  simp only [wp_bind, wp_get, wp_modify, wp_pure]
  refine (makeRoom_spec hw hn).mono fun hash k₁ hroom => ?_
  obtain ⟨⟨hw₁, hkeeps, hold, h0⟩, hhash⟩ := hroom
  have hfresh : ∀ h, ¬k₁.Node h level low high := fun h hn =>
    hnot (not_not.mp hres) h (hold _ _ _ _ hn)
  refine ⟨?_, hkeeps.trans (keeps_buildNode hw₁ h0), ?_, fun h v l r hn => ?_⟩
  · exact wf_buildNode hw₁ h0 hhash hne (hkeeps.varnum ▸ hlevel) (hkeeps.below hll hlow)
      (hkeeps.below hlh hhigh) hfresh
  · exact (node_buildNode_iff hw₁ h0).mpr (Or.inr ⟨rfl, rfl, rfl, rfl⟩)
  · rcases (node_buildNode_iff hw₁ h0).mp hn with hn | ⟨-, rfl, -, -⟩
    · exact Or.inl (hold _ _ _ _ hn)
    · exact Or.inr rfl

theorem makeRoom_of_free (h0 : k.freepos ≠ 0) :
    makeRoom env level low high hash k = .ok (hash, k) := by
  show (if k.freepos ≠ 0 then _ else _ : KernelM Nat) k = _
  rw [if_pos h0]
  rfl

theorem bddMakenode_fresh (env : Env) (hw : k.Wf) (hne : low ≠ high) (hfresh : ∀ h, ¬k.Node h level low high)
    (h0 : k.freepos ≠ 0) : bddMakenode env level low high k =
      .ok (k.freepos, k.buildNode level low high (NODEHASH k.nodesize level low high)) := by
  obtain ⟨res, hsearch, hfound, -⟩ := search_spec hw level low high
  have hres : ¬res ≠ 0 := fun h => hfresh res (hfound h)
  simp only [bddMakenode, if_neg hne, bind, StateT.bind, get, getThe, MonadStateOf.get,
    StateT.get, pure, Except.pure, Except.bind, hsearch, if_neg hres, makeRoom_of_free h0]
  rfl

/-! ### A full table -/

open Classical in
/-- The number of nodes that are free after a collection. -/
noncomputable def dead (k : Kernel) : Nat :=
  ((List.range' 2 (k.nodesize - 2)).filter fun h => decide ¬(k.Used h ∧ k.Live h)).length

theorem Collected.freenum (hc : Collected k k') : k'.freenum = k.dead := by
  rw [hc.wf.threaded.freenum_eq, dead, hc.nodesize]
  congr 1
  apply List.filter_congr
  intro h hh
  have hrange := List.mem_range'_1.mp hh
  have hused : (k'.low h).isSome = true ↔ k.Used h ∧ k.Live h := by
    rw [← hc.used_iff]
    exact ⟨fun hs => ⟨hrange.1, by rw [hc.nodesize]; omega, hs⟩, fun hu => hu.2.2⟩
  by_cases hl : k.Used h ∧ k.Live h
  · simp [hl, hused.mpr hl]
  · simpa [hl] using mt hused.mp hl

end AtomicPredicate.Kernel
