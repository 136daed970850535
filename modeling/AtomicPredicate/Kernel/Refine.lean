import AtomicPredicate.Kernel.Setup
import AtomicPredicate.Lib.Follow

/-!
# The node table refines the store

The store of `Buddy` has a cell for each function that the classifier may still use; the node table
has these and the nodes between them. `Refines n k s` ties the two: every cell of the store is a node
that denotes its value and has its count, and every counted node has a cell. The table was of size
`n` at the start.

Each call of the package does what the operation of the store does (`Follows`). The collector that
this takes reclaims every unreferenced cell and places the result where the table has put it.
`Implements` extends this to programs: it relates a program over the store to the program with each
operation replaced by the call, and `Implements.follows` is the refinement.
-/

namespace AtomicPredicate

open Function Lib Kernel

def BddOp.operator : BddOp → Operator
  | .and => .and
  | .or => .or

theorem BddOp.diagram_apply (op : BddOp) (a b : Bdd) :
    (op.apply a b).diagram = op.operator.diagram a.diagram b.diagram := by
  refine Diagram.eq_of_eval_eq (op.apply a b).reduced
    (op.operator.diagram_wf a.reduced b.reduced).1 fun env => ?_
  rw [Operator.eval_diagram]
  cases op with
  | and => exact BddOp.eval_and a b env
  | or => exact BddOp.eval_or a b env

theorem Lib.Robdd.ext_diagram {a b : Bdd} (h : a.diagram = b.diagram) : a = b := by
  obtain ⟨a, ha⟩ := a
  obtain ⟨b, hb⟩ := b
  cases h
  rfl

structure Refines (size : Nat) (k : Kernel) (s : Store Bdd) : Prop where
  idle : k.Idle
  varnum : k.varnum = totalBits
  sizes : Reached size k.nodesize
  cell : ∀ h c, s.cell h = some c → k.Denotes h c.value.diagram ∧ k.refcou h = c.refcou
  counted : ∀ h, 0 < k.refcou h → (s.cell h).isSome
  mem_used : ∀ h, h ∈ s.used ↔ (s.cell h).isSome

variable {k k' : Kernel} {s : Store Bdd} {env : Env} {size h : Nat}

namespace Refines

theorem count_eq (hR : Refines size k s) (h : Nat) : s.count h = k.refcou h := by
  unfold Store.count
  cases hc : s.cell h with
  | some c => exact ((hR.cell h c hc).2).symm
  | none =>
    by_contra hne
    have hpos : 0 < k.refcou h := Nat.pos_of_ne_zero fun h0 => hne h0.symm
    simpa [hc] using hR.counted h hpos

theorem held (hR : Refines size k s) (hpos : 0 < s.count h) :
    ∃ v, s.value? h = some v ∧ k.Denotes h v.diagram ∧ k.Live h := by
  have hk : 0 < k.refcou h := hR.count_eq h ▸ hpos
  obtain ⟨c, hc⟩ := Option.isSome_iff_exists.mp (hR.counted h hk)
  exact ⟨c.value, by simp [Store.value?, hc], (hR.cell h c hc).1, Root.live (Or.inr hk)⟩

theorem cell_collect (hR : Refines size k s) {script : Nat → Handle} {c : Cell Bdd} :
    (s.withScript script).collect.cell h = some c ↔ s.cell h = some c ∧ 0 < k.refcou h := by
  have hcell : (s.withScript script).collect.cell h =
      if s.count h == 0 && true then none else s.cell h := rfl
  rw [hcell, hR.count_eq, Bool.and_true]
  by_cases h0 : k.refcou h = 0
  · simp [h0]
  · simp [h0, Nat.pos_of_ne_zero h0]

theorem mem_used_collect (hR : Refines size k s) {script : Nat → Handle} :
    h ∈ (s.withScript script).collect.used ↔ 0 < k.refcou h := by
  have hused : (s.withScript script).collect.used =
      s.used.filter fun h => !(s.count h == 0 && true) := rfl
  rw [hused, List.mem_filter, hR.mem_used, hR.count_eq]
  constructor
  · rintro ⟨-, hne⟩
    have : k.refcou h ≠ 0 := by simpa using hne
    omega
  · intro hpos
    exact ⟨hR.counted h hpos, by simp [hpos.ne']⟩

theorem value?_collect (hR : Refines size k s) {script : Nat → Handle} {v : Bdd} :
    (s.withScript script).collect.value? h = some v ↔
      0 < k.refcou h ∧ ∃ c, s.cell h = some c ∧ c.value = v := by
  rw [Store.value?, Option.map_eq_some_iff]
  simp only [hR.cell_collect]
  constructor
  · rintro ⟨c, ⟨hc, hpos⟩, hv⟩
    exact ⟨hpos, c, hc, hv⟩
  · rintro ⟨hpos, c, hc, hv⟩
    exact ⟨c, ⟨hc, hpos⟩, hv⟩

theorem create (hR : Refines size k s) {res : Nat} {v : Bdd} (hret : Returned k k' res v.diagram)
    (script : Nat → Handle) (hscript : script (s.clock + 1) = res) :
    ((s.withScript script).collect.intern v).1 = res ∧
      Refines size k' ((s.withScript script).collect.intern v).2 := by
  have hrefcou := hret.keeps.refcou
  have hvarnum := hret.keeps.varnum.trans hR.varnum
  have hsizes := hR.sizes.trans hret.keeps.sizes
  -- a cell that is left is a node that the call has kept
  have kept : ∀ h c, s.cell h = some c → 0 < k.refcou h → k'.Denotes h c.value.diagram :=
    fun h c hc hpos => hret.keeps.denotes (hR.cell h c hc).1 (Root.live (Or.inr hpos))
  have collected : Refines size k' (s.withScript script).collect := by
    refine ⟨hret.idle, hvarnum, hsizes, fun h c hc => ?_, fun h hpos => ?_, fun h => ?_⟩
    · obtain ⟨hc, hpos⟩ := hR.cell_collect.mp hc
      exact ⟨kept h c hc hpos, by rw [hrefcou]; exact (hR.cell h c hc).2⟩
    · rw [hrefcou] at hpos
      obtain ⟨c, hc⟩ := Option.isSome_iff_exists.mp (hR.counted h hpos)
      rw [Option.isSome_iff_exists]
      exact ⟨c, hR.cell_collect.mpr ⟨hc, hpos⟩⟩
    · rw [hR.mem_used_collect, Option.isSome_iff_exists]
      simp only [hR.cell_collect]
      constructor
      · intro hpos
        obtain ⟨c, hc⟩ := Option.isSome_iff_exists.mp (hR.counted h hpos)
        exact ⟨c, hc, hpos⟩
      · rintro ⟨c, -, hpos⟩
        exact hpos
  unfold Store.intern
  cases hf : (s.withScript script).collect.find v with
  | some h =>
    have hval : (s.withScript script).collect.value? h = some v := Owns.find_eq_some hf
    obtain ⟨hpos, c, hc, rfl⟩ := hR.value?_collect.mp hval
    exact ⟨hret.idle.denotes_inj (kept h c hc hpos) hret.denotes, collected⟩
  | none =>
    -- the table has not put a new value where another one is held
    have hfree : res ∉ (s.withScript script).collect.used := by
      intro hmem
      have hpos := hR.mem_used_collect.mp hmem
      obtain ⟨c, hc⟩ := Option.isSome_iff_exists.mp (hR.counted res hpos)
      have hv : c.value = v := Robdd.ext_diagram ((kept res c hc hpos).det hret.denotes)
      have := List.find?_eq_none.mp hf res hmem
      simp [hR.value?_collect.mpr ⟨hpos, c, hc, hv⟩] at this
    have hplace : (s.withScript script).collect.collector.place
        (s.withScript script).collect.clock (s.withScript script).collect.used = res := by
      show (if script (s.clock + 1) ∈ (s.withScript script).collect.used then _ else _) = res
      rw [if_neg (hscript ▸ hfree)]
      exact hscript
    dsimp only
    rw [hplace]
    refine ⟨rfl, hret.idle, hvarnum, hsizes, fun h c hc => ?_, fun h hpos => ?_, fun h => ?_⟩
    · have hc' : ((s.withScript script).collect.setCount res v 0).cell h = some c := hc
      rw [Owns.cell_setCount] at hc'
      split_ifs at hc' with hh
      · obtain rfl := Option.some.inj hc'
        subst hh
        refine ⟨hret.denotes, ?_⟩
        by_contra hne
        exact hfree (hR.mem_used_collect.mpr (Nat.pos_of_ne_zero (hrefcou ▸ hne)))
      · exact collected.cell h c hc'
    · show (((s.withScript script).collect.setCount res v 0).cell h).isSome
      rw [Owns.cell_setCount]
      split_ifs
      · rfl
      · exact collected.counted h hpos
    · show h ∈ res :: _ ↔ (((s.withScript script).collect.setCount res v 0).cell h).isSome
      rw [Owns.cell_setCount, List.mem_cons, collected.mem_used]
      split_ifs with hh <;> simp [hh]

end Refines

/-! ### Calls -/

theorem place_scripted {f g : Nat → Handle} {c : Nat} (h : g c = f c) (used : List Handle) :
    (Collector.scripted g).place c used = (Collector.scripted f).place c used := by
  simp only [Collector.scripted, h]

theorem intern_withScript {f g : Nat → Handle} (hg : g s.clock = f s.clock) (v : Bdd) :
    (s.withScript g).intern v =
      (((s.withScript f).intern v).1, ((s.withScript f).intern v).2.withScript g) := by
  have hfind : (s.withScript g).find v = (s.withScript f).find v := rfl
  unfold Store.intern
  rw [hfind]
  cases (s.withScript f).find v with
  | some h => rfl
  | none =>
    have hplace : (s.withScript g).collector.place (s.withScript g).clock (s.withScript g).used =
        (s.withScript f).collector.place (s.withScript f).clock (s.withScript f).used :=
      place_scripted hg s.used
    dsimp only
    rw [hplace]
    rfl

theorem clock_intern (v : Bdd) (s : Store Bdd) : (s.intern v).2.clock = s.clock := by
  unfold Store.intern
  cases s.find v <;> rfl

theorem Refines.follows_create (hR : Refines size k s) {p : KernelM Nat} {v : Bdd}
    (hp : Wp p k (fun res k' => Returned k k' res v.diagram) (Exhausted env size)) :
    (∃ e, p k = .error e ∧ Exhausted env size e) ∨ ∃ f n out, s.clock ≤ n ∧
      RunsAs (Lib.create v : BddM Handle) s f n out ∧ Matches (Refines size) .client n (p k) out := by
  unfold Wp at hp
  cases hrun : p k with
  | error e =>
    rw [hrun] at hp
    exact Or.inl ⟨e, rfl, hp⟩
  | ok q =>
    obtain ⟨res, k'⟩ := q
    rw [hrun] at hp
    obtain ⟨hres, hR'⟩ := hR.create hp (fun _ => res) rfl
    refine Or.inr ⟨fun _ => res, s.clock + 1, .ok ((s.withScript fun _ => res).collect.intern v),
      Nat.le_succ _, fun g hg => ?_, ?_⟩
    · have hcreate := intern_withScript (s := (s.withScript fun _ => res).collect)
        (f := fun _ => res) (g := g) (hg (s.clock + 1) (Nat.lt_succ_self _) le_rfl) v
      exact congrArg Except.ok hcreate
    · have hclock := clock_intern v (s.withScript fun _ => res).collect
      generalize (s.withScript fun _ => res).collect.intern v = q at hres hR' hclock
      obtain rfl := hres
      exact ⟨hclock, k', rfl, hR'⟩

theorem valueOf_withScript {v : Bdd} (hv : s.value? h = some v) {g : Nat → Handle} :
    (valueOf h : BddM Bdd) (s.withScript g) = .ok (v, s.withScript g) := by
  rw [valueOf, show (s.withScript g).value? h = some v from hv]

theorem guard_withScript (s : Store Bdd) (hs : List Handle) {β : Type} (m : BddM β) :
    (∃ h, ∀ g, (guardHeld hs >>= fun _ => m) (s.withScript g) = .error (.released h)) ∨
      ((∀ h ∈ hs, 0 < s.count h) ∧
        ∀ g, (guardHeld hs >>= fun _ => m) (s.withScript g) = m (s.withScript g)) := by
  cases hfind : (hs ++ s.roots).find? fun h => s.count h == 0 with
  | some h =>
    refine Or.inl ⟨h, fun g => ?_⟩
    have hstop : (guardHeld hs : BddM Unit) (s.withScript g) = .error (.released h) := by
      unfold guardHeld
      rw [show (hs ++ (s.withScript g).roots).find? (fun h => (s.withScript g).count h == 0) =
        some h from hfind]
    simp only [bind, StateT.bind, hstop, Except.bind]
  | none =>
    refine Or.inr ⟨fun h hh => ?_, fun g => ?_⟩
    · have := List.find?_eq_none.mp hfind h (List.mem_append_left _ hh)
      exact Nat.pos_of_ne_zero (by simpa using this)
    · have hgo : (guardHeld hs : BddM Unit) (s.withScript g) = .ok ((), s.withScript g) := by
        unfold guardHeld
        rw [show (hs ++ (s.withScript g).roots).find? (fun h => (s.withScript g).count h == 0) =
          none from hfind]
      simp only [bind, StateT.bind, hgo, Except.bind]

theorem follows_apply (l r : Handle) (op : BddOp) :
    Follows (Refines size) (Exhausted env size) .client (bddApply l r op) (Kernel.bddApply env l r op.operator) := by
  intro k s hR
  let m : BddM Handle :=
    valueOf l >>= fun a => valueOf r >>= fun b => Lib.create (op.apply a b)
  show _ ∨ ∃ f n out, _ ∧ RunsAs (guardHeld [l, r] >>= fun _ => m) s f n out ∧ _
  rcases guard_withScript s [l, r] m with ⟨h, hstop⟩ | ⟨hheld, hgo⟩
  · exact Or.inr (Follows.of_released hstop)
  obtain ⟨vl, hvl, hdl, hll⟩ := hR.held (hheld l (by simp))
  obtain ⟨vr, hvr, hdr, hlr⟩ := hR.held (hheld r (by simp))
  have hvalues : ∀ g, m (s.withScript g) = Lib.create (op.apply vl vr) (s.withScript g) := by
    intro g
    simp only [m, bind, StateT.bind, valueOf_withScript hvl, valueOf_withScript hvr, Except.bind]
  have hop : op.operator ≠ .not := by cases op <;> decide
  have hcall : Wp (Kernel.bddApply env l r op.operator) k _ (Exhausted env size) :=
    bddApply_spec hR.idle hR.sizes hop hdl hdr hll hlr
  rw [← op.diagram_apply vl vr] at hcall
  rcases hR.follows_create hcall with hX | ⟨f, n, out, hn, hruns, hmatch⟩
  · exact Or.inl hX
  · exact Or.inr ⟨f, n, out, hn, fun g hg => by rw [hgo, hvalues]; exact hruns g hg, hmatch⟩

theorem follows_not (r : Handle) :
    Follows (Refines size) (Exhausted env size) .client (bddNot r) (Kernel.bddNot env r) := by
  intro k s hR
  let m : BddM Handle := valueOf r >>= fun a => Lib.create a.neg
  show _ ∨ ∃ f n out, _ ∧ RunsAs (guardHeld [r] >>= fun _ => m) s f n out ∧ _
  rcases guard_withScript s [r] m with ⟨h, hstop⟩ | ⟨hheld, hgo⟩
  · exact Or.inr (Follows.of_released hstop)
  obtain ⟨v, hv, hd, hl⟩ := hR.held (hheld r (by simp))
  have hvalues : ∀ g, m (s.withScript g) = Lib.create v.neg (s.withScript g) := by
    intro g
    simp only [m, bind, StateT.bind, valueOf_withScript hv, Except.bind]
  have hcall : Wp (Kernel.bddNot env r) k _ (Exhausted env size) :=
    bddNot_spec hR.idle hR.sizes hd hl
  rcases hR.follows_create (v := v.neg) hcall with hX | ⟨f, n, out, hn, hruns, hmatch⟩
  · exact Or.inl hX
  · exact Or.inr ⟨f, n, out, hn, fun g hg => by rw [hgo, hvalues]; exact hruns g hg, hmatch⟩

theorem Refines.setCount (hR : Refines size k s) {c : Cell Bdd} (hc : s.cell h = some c) {n : Nat}
    {rc : Nat → Nat} (hi : (k.withRefcou rc).Idle) (hself : rc h = n)
    (hother : ∀ g, g ≠ h → rc g = k.refcou g) :
    Refines size (k.withRefcou rc) (s.setCount h c.value n) where
  idle := hi
  varnum := hR.varnum
  sizes := hR.sizes
  cell g d hd := by
    rw [Owns.cell_setCount] at hd
    split_ifs at hd with hg
    · obtain rfl := Option.some.inj hd
      subst hg
      exact ⟨(sameTable_withRefcou rc k).denotes (hR.cell g c hc).1, hself⟩
    · exact ⟨(sameTable_withRefcou rc k).denotes (hR.cell g d hd).1,
        (hother g hg).trans (hR.cell g d hd).2⟩
  counted g hpos := by
    rw [Owns.cell_setCount]
    split_ifs with hg
    · rfl
    · exact hR.counted g (hother g hg ▸ hpos)
  mem_used g := by
    rw [Owns.cell_setCount]
    show g ∈ s.used ↔ _
    rw [hR.mem_used]
    split_ifs with hg
    · simp [hg, hc]
    · rfl

theorem follows_addref (root : Handle) :
    Follows (Refines size) (Exhausted env size) .client (bddAddref root) (Kernel.bddAddref root) := by
  intro k s hR
  right
  let m : BddM Handle := if counting.exempt root then pure root else incref counting.maxref root
  show ∃ f n out, _ ∧ RunsAs (guardHeld [] >>= fun _ => m) s f n out ∧ _
  rcases guard_withScript s [] m with ⟨h, hstop⟩ | ⟨-, hgo⟩
  · exact Follows.of_released hstop
  by_cases h2 : root < 2
  · -- a constant is returned untouched
    have hm : m = pure root := if_pos (decide_eq_true h2)
    have hp : Kernel.bddAddref root k = .ok (root, k) := by
      simp only [Kernel.bddAddref, if_pos h2]
      rfl
    exact Follows.of_step (fun g => by rw [hgo, hm]; rfl) hp hR rfl
  have hm : m = incref MAXREF root := if_neg (by simpa [counting] using h2)
  cases hc : s.cell root with
  | none =>
    refine Follows.of_released (h := root) fun g => ?_
    rw [hgo, hm, incref, show (s.withScript g).cell root = none from hc]
  | some c =>
    obtain ⟨hd, hrc⟩ := hR.cell root c hc
    have hset := hR.setCount hc (hR.idle.addref hd.valid)
      (n := if c.refcou < MAXREF then c.refcou + 1 else c.refcou) (by simp [hrc])
      fun g hne => if_neg fun hh => hne hh.1
    refine Follows.of_step (fun g => ?_) (bddAddref_eq hR.idle.toOrdered hd.valid) hset rfl
    rw [hgo, hm, incref, show (s.withScript g).cell root = some c from hc]
    rfl

theorem follows_delref (root : Handle) :
    Follows (Refines size) (Exhausted env size) .client (bddDelref root) (discard (Kernel.bddDelref root)) := by
  intro k s hR
  right
  let m : BddM Unit := if counting.exempt root then pure () else decref counting.maxref root
  show ∃ f n out, _ ∧ RunsAs (guardHeld [root] >>= fun _ => m) s f n out ∧ _
  rcases guard_withScript s [root] m with ⟨h, hstop⟩ | ⟨hheld, hgo⟩
  · exact Follows.of_released hstop
  have hpos : 0 < s.count root := hheld root (by simp)
  have hrun : ∀ k', Kernel.bddDelref root k = .ok (root, k') →
      discard (Kernel.bddDelref root) k = .ok ((), k') := fun k' h => by
    simp only [discard, Functor.mapConst, Function.comp, Function.const, StateT.map, bind,
      Except.bind, h]
    rfl
  by_cases h2 : root < 2
  · have hm : m = pure () := if_pos (decide_eq_true h2)
    have hp : Kernel.bddDelref root k = .ok (root, k) := by
      simp only [Kernel.bddDelref, if_pos h2]
      rfl
    exact Follows.of_step (fun g => by rw [hgo, hm]; rfl) (hrun k hp) hR rfl
  have hm : m = decref MAXREF root := if_neg (by simpa [counting] using h2)
  have hk : 0 < k.refcou root := hR.count_eq root ▸ hpos
  obtain ⟨c, hc⟩ := Option.isSome_iff_exists.mp (hR.counted root hk)
  have hrc := (hR.cell root c hc).2
  have hset := hR.setCount hc (hR.idle.delref hk)
    (n := if c.refcou = MAXREF then c.refcou else c.refcou - 1) (by split_ifs <;> simp_all)
    fun g hne => if_neg fun hh => hne hh.1
  refine Follows.of_step (fun g => ?_) (hrun _ (bddDelref_eq hR.idle.toOrdered hk)) hset rfl
  rw [hgo, hm, decref, show (s.withScript g).cell root = some c from hc]
  rfl

/-! ### Programs -/

/-- The program over the node table that calls the package where the program over the store has the
operation. Roots are a device of the proofs, and are dropped. -/
inductive Implements (env : Env) : {β : Type} → BddM β → KernelM β → Prop
  | pure {β : Type} (b : β) : Implements env (pure b) (pure b)
  | throw {β : Type} (e : CFault) : Implements (β := β) env (throw (.client e)) (throw (.client e))
  | bind {β γ : Type} {m : BddM β} {p : KernelM β} {l : β → BddM γ} {q : β → KernelM γ}
      (hm : Implements env m p) (hl : ∀ b, Implements env (l b) (q b)) :
      Implements env (m >>= l) (p >>= q)
  | holding {β : Type} {m : BddM β} {p : KernelM β} (hs : List Handle) (hm : Implements env m p) :
      Implements env (holding hs m) p
  | apply (l r : Handle) (op : BddOp) :
      Implements env (bddApply l r op) (Kernel.bddApply env l r op.operator)
  | not (r : Handle) : Implements env (bddNot r) (Kernel.bddNot env r)
  | addref (root : Handle) : Implements env (bddAddref root) (Kernel.bddAddref root)
  | delref (root : Handle) : Implements env (bddDelref root) (discard (Kernel.bddDelref root))

/-- **The refinement**: what runs on the node table does what the program over the store does. -/
theorem Implements.follows {β : Type} {m : BddM β} {p : KernelM β} (hi : Implements env m p) :
    Follows (Refines size) (Exhausted env size) .client m p := by
  induction hi with
  | pure b => exact .pure b
  | throw e => exact .throw e
  | bind _ _ ihm ihl => exact ihm.bind ihl
  | holding hs _ ih => exact ih.holding (fun k s roots hR => { hR with }) hs
  | apply l r op => exact follows_apply l r op
  | not r => exact follows_not r
  | addref root => exact follows_addref root
  | delref root => exact follows_delref root

/-! ### The first state -/

theorem initialBdd_isSome : (initialBdd h).isSome ↔ h < 2 * totalBits + 2 := by
  unfold initialBdd totalBits
  split_ifs <;> simp <;> omega

theorem denotes_initialBdd (hs : Started totalBits k) {v : Bdd} (hv : initialBdd h = some v) :
    k.Denotes h v.diagram := by
  have hlt : h < 2 * totalBits + 2 := initialBdd_isSome.mp (by simp [hv])
  unfold initialBdd at hv
  split_ifs at hv with h0 h1
  · obtain rfl := Option.some.inj hv
    exact h0 ▸ .zero
  · obtain rfl := Option.some.inj hv
    exact h1 ▸ .one
  · obtain rfl := Option.some.inj hv
    rcases Nat.mod_two_eq_zero_or_one h with hpar | hpar
    · exact .node ((hs.node_iff h ((h - 2) / 2) 0 1).mpr ⟨by omega, Or.inl ⟨by omega, rfl, rfl⟩⟩)
        (by simpa [hpar] using .zero) (by simpa [hpar] using .one)
    · exact .node ((hs.node_iff h ((h - 2) / 2) 1 0).mpr ⟨by omega, Or.inr ⟨by omega, rfl, rfl⟩⟩)
        (by simpa [hpar] using .one) (by simpa [hpar] using .zero)

/-- The table that `init_field_var` sets up is the store that the classifier starts with. -/
theorem Refines.start (hs : Started totalBits k) (collector : Collector) :
    Refines k.nodesize k (bddInit collector) where
  idle := hs.idle
  varnum := hs.varnum
  sizes := .refl _
  cell h c hc := by
    obtain ⟨v, hv, rfl⟩ := Option.map_eq_some_iff.mp hc
    refine ⟨denotes_initialBdd hs hv, ?_⟩
    rw [hs.refcou, if_pos (initialBdd_isSome.mp (by simp [hv]))]
  counted h hpos := by
    rw [hs.refcou] at hpos
    have hlt : h < 2 * totalBits + 2 := by
      by_contra hge
      rw [if_neg hge] at hpos
      exact lt_irrefl _ hpos
    simpa [bddInit] using initialBdd_isSome.mpr hlt
  mem_used h := by
    rw [show (bddInit collector).used = List.range (2 * totalBits + 2) from rfl, List.mem_range,
      ← initialBdd_isSome]
    simp [bddInit]

/-- What a triple says of a program holds of the run on the node table: it uses up the table, stops
with a fault of the program, or returns in a state that still represents the store. -/
theorem Implements.triple {β : Type} {m : BddM β} {p : KernelM β} (hi : Implements env m p)
    {Q : β → Multiset (Handle × Bdd) → Prop} {E : CFault → Prop}
    (ht : Triple discipline 0 m Q E) (hs : Started totalBits k) :
    (∃ e, p k = .error e ∧ (Exhausted env k.nodesize e ∨ ∃ e', e = .client e' ∧ E e')) ∨
      ∃ b k' s', p k = .ok (b, k') ∧ Refines k.nodesize k' s' ∧
        ∃ B, Q b B ∧ Owns discipline (fun _ => 0) B s' := by
  have hR := Refines.start hs .eager
  have hrun := hi.follows.triple ht (F := 0) hR (fun h hh => absurd hh List.not_mem_nil)
    (by simpa using owns_bddInit .eager)
  rcases hrun with hX | ⟨b, k', s', hp, hR', -, B, hQ, ho⟩
  · exact Or.inl hX
  · exact Or.inr ⟨b, k', s', hp, hR', B, hQ, by simpa using ho⟩

theorem Refines.owned (hR : Refines size k s) {base : Nat → Nat} {B : Multiset (Handle × Bdd)}
    (ho : Owns discipline base B s) {q : Handle × Bdd} (hq : q ∈ B) :
    k.Denotes q.1 q.2.diagram ∧ 0 < k.refcou q.1 := by
  obtain ⟨v, hv, hd, -⟩ := hR.held (ho.count_pos hq)
  rw [ho.value q hq] at hv
  obtain rfl := Option.some.inj hv
  exact ⟨hd, hR.count_eq q.1 ▸ ho.count_pos hq⟩

end AtomicPredicate
