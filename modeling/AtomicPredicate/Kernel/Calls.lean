import AtomicPredicate.Kernel.Apply

/-!
# The calls of the package

What the functions that the classifier calls do on a table between calls (`Idle`): `bdd_apply` and
`bdd_not` with live operands, `bdd_addref` of any node, and `bdd_delref` of a counted one. None of
them ends with a fault but `Exhausted`.
-/

namespace AtomicPredicate.Kernel

open Function Lib

variable {k k' : Kernel} {env : Env} {n h l r : Nat} {d dl dr : Diagram Nat}

/-- The state between two calls. -/
structure Idle (k : Kernel) : Prop extends k.Ready where
  refstack : k.refstack = []
  stacksize : k.varnum * 2 + 4 ≤ k.stacksize

/-- A call has returned the handle `res` of the diagram `d`. -/
structure Returned (k k' : Kernel) (res : Nat) (d : Diagram Nat) : Prop where
  idle : k'.Idle
  keeps : k.Keeps k'
  denotes : k'.Denotes res d

theorem Idle.returned (hi : k.Idle) {res : Nat} (hd : Done k k' res d) : Returned k k' res d :=
  ⟨⟨hd.ready, hd.keeps.refstack.trans hi.refstack, by
    rw [hd.keeps.varnum, hd.keeps.stacksize]
    exact hi.stacksize⟩, hd.keeps, hd.denotes⟩

theorem Idle.withStack_nil (hi : k.Idle) : ({ k with refstack := [] } : Kernel) = k := by
  rw [← hi.refstack]

theorem wp_CHECK {Q : PUnit → Kernel → Prop} {E : KFault → Prop} (hw : k.Ordered) (hv : k.Valid h)
    (hQ : Q ⟨⟩ k) : Wp (CHECK h) k Q E := by
  simp only [CHECK, wp_bind, wp_get]
  have hlt : h < k.nodesize := hv.elim (fun hlt => hlt.trans hw.size) fun hu => hu.2.1
  rw [if_neg (by omega), if_neg]
  · exact hQ
  · rintro ⟨h2, hnone⟩
    have := (hv.resolve_left (by omega)).2.2
    simp [hnone] at this

/-- **Negation** of a live node. -/
theorem bddNot_spec (hi : k.Idle) (hn : Reached n k.nodesize) (hd : k.Denotes r d) (hl : k.Live r) :
    Wp (bddNot env r) k (fun res k' => Returned k k' res d.neg) (Exhausted env n) := by
  simp only [bddNot, INITREF, wp_bind, wp_modify, wp_get]
  refine wp_CHECK hi.toOrdered hd.valid ?_
  rw [hi.withStack_nil]
  have hlen : k.refstack.length = 0 := by rw [hi.refstack]; rfl
  have hsize := hi.stacksize
  exact (notRec_spec (k.varnum + 1) hi.toReady hn hd hl (by omega) (by omega)).mono
    fun res k' => hi.returned

/-- **Every binary operator**, on live nodes. -/
theorem bddApply_spec (hi : k.Idle) (hn : Reached n k.nodesize) {op : Operator} (hop : op ≠ .not)
    (hdl : k.Denotes l dl) (hdr : k.Denotes r dr) (hll : k.Live l) (hlr : k.Live r) :
    Wp (bddApply env l r op) k (fun res k' => Returned k k' res (op.diagram dl dr))
      (Exhausted env n) := by
  simp only [bddApply, if_neg hop, INITREF, wp_bind, wp_modify, wp_get]
  refine wp_CHECK hi.toOrdered hdl.valid (wp_CHECK hi.toOrdered hdr.valid ?_)
  rw [hi.withStack_nil]
  have hlen : k.refstack.length = 0 := by rw [hi.refstack]; rfl
  have hsize := hi.stacksize
  exact (applyRec_spec hop (k.varnum + 1) hi.toReady hn hdl hdr hll hlr (Nat.zero_le _)
    (Nat.zero_le _) (by omega) (by omega)).mono fun res k' => hi.returned

/-! ### Reference counts -/

def withRefcou (rc : Nat → Nat) (k : Kernel) : Kernel := { k with refcou := rc }

theorem sameTable_withRefcou (rc : Nat → Nat) (k : Kernel) : k.SameTable (k.withRefcou rc) :=
  ⟨rfl, rfl, rfl, fun _ _ => rfl, rfl, rfl, rfl, rfl⟩

theorem Idle.withRefcou (hi : k.Idle) {rc : Nat → Nat} (hcounted : ∀ h, 0 < rc h → k.Valid h)
    (hle : ∀ h, rc h ≤ MAXREF) (hconst : ∀ h, h < 2 → rc h = MAXREF) : (k.withRefcou rc).Idle where
  toWf := (sameTable_withRefcou rc k).wf hi.toWf le_rfl hcounted hle hconst hi.stack hi.cache
  const := hi.const
  top hn := hi.top ((sameTable_withRefcou rc k).node_iff.mp hn)
  refstack := hi.refstack
  stacksize := hi.stacksize

/-- One more reference to a node, unless its count is saturated. -/
def counted (k : Kernel) (root : Nat) : Kernel :=
  k.withRefcou fun h => if h = root ∧ k.refcou h < MAXREF then k.refcou h + 1 else k.refcou h

/-- One reference less, unless the count is saturated. -/
def released (k : Kernel) (root : Nat) : Kernel :=
  k.withRefcou fun h => if h = root ∧ k.refcou h ≠ MAXREF then k.refcou h - 1 else k.refcou h

theorem Idle.addref (hi : k.Idle) (hv : k.Valid r) : (k.counted r).Idle := by
  refine hi.withRefcou (fun h hpos => ?_) (fun h => ?_) fun h h2 => ?_
  · split_ifs at hpos with hh
    · exact hh.1 ▸ hv
    · exact hi.counted h hpos
  · have := hi.refcou_le h
    split_ifs <;> omega
  · have := hi.refcou_const h h2
    split_ifs <;> omega

theorem Idle.delref (hi : k.Idle) (hpos : 0 < k.refcou r) : (k.released r).Idle := by
  refine hi.withRefcou (fun h hpos' => ?_) (fun h => ?_) fun h h2 => ?_
  · split_ifs at hpos' with hh
    · exact hh.1 ▸ hi.counted r hpos
    · exact hi.counted h hpos'
  · have := hi.refcou_le h
    split_ifs <;> omega
  · have := hi.refcou_const h h2
    split_ifs <;> omega

theorem Valid.not_free (hv : k.Valid r) (h2 : ¬r < 2) :
    ¬r ≥ k.nodesize ∧ k.low r ≠ none := by
  obtain ⟨-, hlt, hs⟩ := hv.resolve_left h2
  exact ⟨by omega, fun hnone => by simp [hnone] at hs⟩

theorem bddAddref_eq (ho : k.Ordered) (hv : k.Valid r) :
    bddAddref r k = .ok (r, k.counted r) := by
  by_cases h2 : r < 2
  · have hself : k.counted r = k := by
      unfold Kernel.counted withRefcou
      congr 1
      funext h
      rw [if_neg]
      rintro ⟨rfl, hlt⟩
      rw [ho.refcou_const h h2] at hlt
      exact lt_irrefl _ hlt
    rw [hself]
    simp only [bddAddref, if_pos h2]
    rfl
  · obtain ⟨hlt, hnone⟩ := hv.not_free h2
    have hrc : (if k.refcou r < MAXREF then update k.refcou r (k.refcou r + 1) else k.refcou) =
        fun h => if h = r ∧ k.refcou h < MAXREF then k.refcou h + 1 else k.refcou h := by
      funext h
      rcases eq_or_ne h r with rfl | hne
      · split_ifs <;> simp_all
      · split_ifs <;> simp_all
    simp only [bddAddref, if_neg h2, bind, StateT.bind, get, getThe, MonadStateOf.get, StateT.get,
      pure, Except.pure, Except.bind, if_neg hlt, if_neg hnone, hrc]
    rfl

theorem bddDelref_eq (ho : k.Ordered) (hpos : 0 < k.refcou r) :
    bddDelref r k = .ok (r, k.released r) := by
  by_cases h2 : r < 2
  · have hself : k.released r = k := by
      unfold Kernel.released withRefcou
      congr 1
      funext h
      rw [if_neg]
      rintro ⟨rfl, hne⟩
      exact hne (ho.refcou_const h h2)
    rw [hself]
    simp only [bddDelref, if_pos h2]
    rfl
  · obtain ⟨hlt, hnone⟩ := (ho.counted r hpos).not_free h2
    have hrc : (if k.refcou r ≠ MAXREF ∧ k.refcou r > 0 then
          update k.refcou r (k.refcou r - 1) else k.refcou) =
        fun h => if h = r ∧ k.refcou h ≠ MAXREF then k.refcou h - 1 else k.refcou h := by
      funext h
      rcases eq_or_ne h r with rfl | hne
      · split_ifs <;> simp_all
      · split_ifs <;> simp_all
    simp only [bddDelref, if_neg h2, bind, StateT.bind, get, getThe, MonadStateOf.get, StateT.get,
      pure, Except.pure, Except.bind, if_neg hlt, if_neg hnone, if_neg hpos.ne', hrc]
    rfl

end AtomicPredicate.Kernel
