import AtomicPredicate.Kernel.Setup

/-!
# The contract of the package

Any client of the package, not only the classifier. The package asks that the operands of an operation
are live, that only nodes of the table are acquired, and only counted ones released. A `Run` is a
sequence of calls that keeps to this, in any order, with whatever garbage collections and resizings
happen on the way.

In every state of a run a call is answered correctly or uses up the table (`Run.contract`), equal
functions have equal handles, and a node keeps its function for as long as it has references left
(`Run.retains`).
-/

namespace AtomicPredicate.Kernel

open Function Lib

inductive ClientCall where
  | apply (l r : Nat) (op : Operator)
  | not (r : Nat)
  | addref (root : Nat)
  | delref (root : Nat)
  deriving DecidableEq

namespace ClientCall

def run (env : Env) : ClientCall → KernelM Nat
  | apply l r op => bddApply env l r op
  | not r => bddNot env r
  | addref root => bddAddref root
  | delref root => bddDelref root

/-- What the package asks of its client. -/
def Allowed (k : Kernel) : ClientCall → Prop
  | apply l r op => op ≠ .not ∧ k.Live l ∧ k.Live r
  | not r => k.Live r
  | addref root => k.Valid root
  | delref root => 0 < k.refcou root

/-- What the package owes its client: the result of the call, and the counts after it. -/
def Answered (k : Kernel) (res : Nat) (k' : Kernel) : ClientCall → Prop
  | apply l r op => k'.refcou = k.refcou ∧ ∀ dl dr, k.Denotes l dl → k.Denotes r dr →
      ∃ d, k'.Denotes res d ∧ ∀ v, d.eval v = op.eval (dl.eval v) (dr.eval v)
  | not r => k'.refcou = k.refcou ∧ ∀ d, k.Denotes r d →
      ∃ d', k'.Denotes res d' ∧ ∀ v, d'.eval v = !d.eval v
  | addref root => res = root ∧ k' = k.counted root
  | delref root => res = root ∧ k' = k.released root

variable {k k' : Kernel} {env : Env} {n h : Nat} {d : Diagram Nat} {c : ClientCall}

/-- **One call** keeps the invariant, and the function of every node with references. -/
theorem run_spec (hi : k.Idle) (hn : Reached n k.nodesize) (ha : c.Allowed k) :
    Wp (c.run env) k (fun res k' => k'.Idle ∧ Reached n k'.nodesize ∧ c.Answered k res k' ∧
      ∀ h d, 0 < k.refcou h → k.Denotes h d → k'.Denotes h d) (Exhausted env n) := by
  cases c with
  | apply l r op =>
    obtain ⟨hop, hll, hlr⟩ := ha
    obtain ⟨dl, hdl⟩ := hi.exists_denotes (hi.valid_of_live hll)
    obtain ⟨dr, hdr⟩ := hi.exists_denotes (hi.valid_of_live hlr)
    refine (bddApply_spec hi hn hop hdl hdr hll hlr).mono fun res k' hret => ?_
    refine ⟨hret.idle, hn.trans hret.keeps.sizes, ⟨hret.keeps.refcou, fun dl' dr' hdl' hdr' => ?_⟩,
      fun h d hpos hd => hret.keeps.denotes hd (Root.live (Or.inr hpos))⟩
    obtain rfl := hdl.det hdl'
    obtain rfl := hdr.det hdr'
    exact ⟨_, hret.denotes, op.eval_diagram dl dr⟩
  | not r =>
    obtain ⟨dr, hdr⟩ := hi.exists_denotes (hi.valid_of_live ha)
    refine (bddNot_spec hi hn hdr ha).mono fun res k' hret => ?_
    refine ⟨hret.idle, hn.trans hret.keeps.sizes, ⟨hret.keeps.refcou, fun d hd => ?_⟩,
      fun h d hpos hd => hret.keeps.denotes hd (Root.live (Or.inr hpos))⟩
    obtain rfl := hdr.det hd
    exact ⟨_, hret.denotes, dr.eval_neg⟩
  | addref root =>
    refine wp_of_ok (bddAddref_eq hi.toOrdered ha) ?_
    exact ⟨hi.addref ha, hn, ⟨rfl, rfl⟩, fun h d _ hd => (sameTable_withRefcou _ k).denotes hd⟩
  | delref root =>
    refine wp_of_ok (bddDelref_eq hi.toOrdered ha) ?_
    exact ⟨hi.delref ha, hn, ⟨rfl, rfl⟩, fun h d _ hd => (sameTable_withRefcou _ k).denotes hd⟩

theorem Answered.refcou {res : Nat} (hk : c.Answered k res k') (ha : c.Allowed k)
    (hle : k.refcou h ≤ MAXREF) :
    k.refcou h = MAXREF ∧ k'.refcou h = MAXREF ∨ k.refcou h < MAXREF ∧
      k'.refcou h + [c].count (.delref h) = k.refcou h + [c].count (.addref h) := by
  have hkept : k'.refcou h = k.refcou h → k.refcou h = MAXREF ∧ k'.refcou h = MAXREF ∨
      k.refcou h < MAXREF ∧ k'.refcou h = k.refcou h := fun heq => by omega
  cases c with
  | apply l r op => simpa using hkept (congrFun hk.1 h)
  | not r => simpa using hkept (congrFun hk.1 h)
  | addref root =>
    obtain ⟨-, rfl⟩ := hk
    rcases eq_or_ne root h with rfl | hne
    · have hself : (k.counted root).refcou root =
          if root = root ∧ k.refcou root < MAXREF then k.refcou root + 1 else k.refcou root := rfl
      rw [hself]
      split_ifs with hlt
      · exact Or.inr ⟨hlt.2, by simp⟩
      · exact Or.inl (by omega)
    · have hother : (k.counted root).refcou h = k.refcou h := if_neg fun hh => hne hh.1.symm
      simpa [hne] using hkept hother
  | delref root =>
    obtain ⟨-, rfl⟩ := hk
    rcases eq_or_ne root h with rfl | hne
    · have hself : (k.released root).refcou root =
          if root = root ∧ k.refcou root ≠ MAXREF then k.refcou root - 1 else k.refcou root := rfl
      have hpos : 0 < k.refcou root := ha
      rw [hself]
      split_ifs with hne
      · refine Or.inr ⟨by omega, ?_⟩
        simp
        omega
      · exact Or.inl (by omega)
    · have hother : (k.released root).refcou h = k.refcou h := if_neg fun hh => hne hh.1.symm
      simpa [hne] using hkept hother

end ClientCall

theorem Idle.collect {k : Kernel} (hi : k.Idle) :
    ∃ k', bddGbc k = .ok ((), k') ∧ k'.Idle ∧ k.Keeps k' ∧ ∀ h v l r,
      k'.Node h v l r ↔ k.Node h v l r ∧ ∃ g, 0 < k.refcou g ∧ Reach k.kids g h := by
  obtain ⟨k', hrun, hcol⟩ := bddGbc_spec hi.toOrdered hi.mark
  have hready : k'.Ready := hi.toReady.keeps hcol.wf hcol.keeps fun h v l r hn =>
    Or.inl (hcol.node_iff.mp hn).1
  refine ⟨k', hrun, ⟨hready, hcol.keeps.refstack.trans hi.refstack, ?_⟩, hcol.keeps,
    fun h v l r => ?_⟩
  · rw [hcol.keeps.varnum, hcol.keeps.stacksize]
    exact hi.stacksize
  · rw [hcol.node_iff]
    refine and_congr_right fun hn => ?_
    -- a node is no constant, and nothing is on the stack
    rw [Live, or_iff_right (not_lt.mpr hn.two_le)]
    simp only [Root, hi.refstack, List.not_mem_nil, false_or]

/-! ### Runs -/

theorem Started.exists_literal {n h : Nat} {k : Kernel} (hs : Started n k) (h2 : 2 ≤ h)
    (hlt : h < 2 * n + 2) : ∃ v l r, k.Node h v l r := by
  rcases Nat.even_or_odd' h with ⟨v, rfl | rfl⟩
  · exact ⟨v - 1, 0, 1, (hs.node_iff _ _ _ _).mpr ⟨by omega, Or.inl ⟨by omega, rfl, rfl⟩⟩⟩
  · exact ⟨v - 1, 1, 0, (hs.node_iff _ _ _ _).mpr ⟨by omega, Or.inr ⟨by omega, rfl, rfl⟩⟩⟩

/-- The calls made so far, each allowed where it was made, and the state they have led to. -/
inductive Run (env : Env) (k₀ : Kernel) : List ClientCall → Kernel → Prop
  | nil : Run env k₀ [] k₀
  | snoc {calls : List ClientCall} {k k' : Kernel} {c : ClientCall} {res : Nat}
      (hr : Run env k₀ calls k) (ha : c.Allowed k) (hc : c.run env k = .ok (res, k')) :
      Run env k₀ (calls ++ [c]) k'

theorem exists_run (env : Env) :
    ∃ k₀ k, Started 3 k₀ ∧ Run env k₀ [.addref 2] k := by
  obtain ⟨k₀, -, hs, -⟩ : ∃ k, bddSetvarnum env 3 (bddInit env 100 100) = .ok ((), k) ∧
      Started 3 k ∧ k.nodesize = env.bddPrimeGte 100 :=
    bddSetvarnum_spec (by decide) (by decide) (by decide) (by decide)
  have hv : k₀.Valid 2 := Or.inr ((hs.node_iff 2 0 0 1).mpr ⟨by decide, Or.inl ⟨rfl, rfl, rfl⟩⟩).used
  exact ⟨k₀, _, hs, Run.nil.snoc (c := .addref 2) hv (bddAddref_eq hs.idle.toOrdered hv)⟩

namespace Run

variable {env : Env} {k₀ k : Kernel} {calls : List ClientCall} {n h : Nat} {d : Diagram Nat}

theorem inv (hi : k₀.Idle) (hr : Run env k₀ calls k) : k.Idle ∧ Reached k₀.nodesize k.nodesize := by
  induction hr with
  | nil => exact ⟨hi, .refl _⟩
  | snoc _ ha hc ih =>
    obtain ⟨hidle, hsizes, -⟩ := (ClientCall.run_spec ih.1 ih.2 ha).of_ok hc
    exact ⟨hidle, hsizes⟩

theorem refcou (hi : k₀.Idle) (hr : Run env k₀ calls k) (h : Nat) :
    k.refcou h = MAXREF ∧ MAXREF ≤ k₀.refcou h + calls.count (.addref h) ∨
      k.refcou h + calls.count (.delref h) = k₀.refcou h + calls.count (.addref h) := by
  induction hr with
  | nil => exact Or.inr rfl
  | snoc hr ha hc ih =>
    obtain ⟨hidle, hsizes⟩ := hr.inv hi
    obtain ⟨-, -, hk, -⟩ := (ClientCall.run_spec hidle hsizes ha).of_ok hc
    rw [List.count_append, List.count_append]
    rcases hk.refcou ha (hidle.refcou_le h) with ⟨hmax, hmax'⟩ | ⟨hlt, heq⟩
    · exact Or.inl ⟨hmax', by omega⟩
    · rcases ih with ⟨hmax, -⟩ | ih
      · omega
      · exact Or.inr (by omega)

/-- **What a client holds stays**: a node with more references than are released in the run keeps
its function. -/
theorem retains (hi : k₀.Idle) (hr : Run env k₀ calls k) (hd : k₀.Denotes h d)
    (hheld : calls.count (.delref h) < k₀.refcou h) : k.Denotes h d ∧ 0 < k.refcou h := by
  have hpos : ∀ {calls k}, Run env k₀ calls k → calls.count (.delref h) < k₀.refcou h →
      0 < k.refcou h := by
    intro calls k hr hheld
    rcases hr.refcou hi h with ⟨hmax, -⟩ | heq
    · rw [hmax]
      decide
    · omega
  refine ⟨?_, hpos hr hheld⟩
  induction hr with
  | nil => exact hd
  | snoc hr ha hc ih =>
    rw [List.count_append] at hheld
    have hheld' := lt_of_le_of_lt (Nat.le_add_right _ _) hheld
    obtain ⟨hidle, hsizes⟩ := hr.inv hi
    obtain ⟨-, -, -, hkept⟩ := (ClientCall.run_spec hidle hsizes ha).of_ok hc
    exact hkept h d (hpos hr hheld') (ih hheld')

theorem retains_addref : ∃ k₀ k : Kernel, Run (Env.exact fun _ => true) k₀ [.addref 2] k ∧
    k.Denotes 2 (.node 0 (.leaf false) (.leaf true)) := by
  obtain ⟨k₀, k, hs, hr⟩ := exists_run (Env.exact fun _ => true)
  have hn := (hs.node_iff 2 0 0 1).mpr ⟨by decide, Or.inl ⟨rfl, rfl, rfl⟩⟩
  have hcount : k₀.refcou 2 = MAXREF := by rw [hs.refcou, if_pos (by decide)]
  refine ⟨k₀, k, hr, (Run.retains hs.idle hr (.node hn .zero .one) ?_).1⟩
  rw [hcount]
  decide

theorem permanent (hi : k₀.Idle) (hr : Run env k₀ calls k) (hd : k₀.Denotes h d)
    (hmax : k₀.refcou h = MAXREF) : k.Denotes h d ∧ k.refcou h = MAXREF := by
  induction hr with
  | nil => exact ⟨hd, hmax⟩
  | snoc hr ha hc ih =>
    obtain ⟨hd', hmax'⟩ := ih
    obtain ⟨hidle, hsizes⟩ := hr.inv hi
    obtain ⟨-, -, hk, hkept⟩ := (ClientCall.run_spec hidle hsizes ha).of_ok hc
    refine ⟨hkept h d (by rw [hmax']; decide) hd', ?_⟩
    rcases hk.refcou ha (hidle.refcou_le h) with ⟨-, hmax⟩ | ⟨hlt, -⟩
    · exact hmax
    · omega

/-- **Collection**: whenever it is called between two calls, what is left are the constants and the
functions that a node with references is built of. -/
theorem collected (hs : Started n k₀) (hr : Run env k₀ calls k) :
    ∃ k', bddGbc k = .ok ((), k') ∧ k'.Idle ∧ k'.refcou = k.refcou ∧ ∀ h d,
      k'.Denotes h d ↔ k.Denotes h d ∧ (h < 2 ∨ ∃ g, 0 < k.refcou g ∧ Reach k.kids g h) := by
  obtain ⟨hidle, -⟩ := hr.inv hs.idle
  obtain ⟨k', hrun, hidle', hkeeps, hnode⟩ := hidle.collect
  refine ⟨k', hrun, hidle', hkeeps.refcou, fun h d => ⟨fun hd => ⟨?_, ?_⟩, fun ⟨hd, hl⟩ => ?_⟩⟩
  · exact hd.mono fun h v l r hn => ((hnode h v l r).mp hn).1
  · refine hd.valid.imp_right fun hu => ?_
    obtain ⟨l, hn⟩ := hu.node
    exact ((hnode _ _ _ _).mp hn).2
  · exact hkeeps.denotes hd (hl.imp_right fun ⟨g, hpos, hreach⟩ => ⟨g, Or.inr hpos, hreach⟩)

theorem collected_addref : ∃ k₀ k k' : Kernel, Run (Env.exact fun _ => true) k₀ [.addref 2] k ∧
    bddGbc k = .ok ((), k') ∧ ∀ h d,
      k'.Denotes h d ↔ k.Denotes h d ∧ (h < 2 ∨ ∃ g, 0 < k.refcou g ∧ Reach k.kids g h) := by
  obtain ⟨k₀, k, hs, hr⟩ := exists_run (Env.exact fun _ => true)
  obtain ⟨k', hrun, -, -, hleft⟩ := Run.collected hs hr
  exact ⟨k₀, k, k', hr, hrun, hleft⟩

theorem literals (hs : Started n k₀) (hr : Run env k₀ calls k) {v l r : Nat}
    (hn : k₀.Node h v l r) : k.Node h v l r ∧ l < 2 ∧ r < 2 ∧ k₀.refcou h = MAXREF := by
  obtain ⟨b, hh, rfl, rfl⟩ : ∃ b : Bool, h < 2 * n + 2 ∧ l = b.toNat ∧ r = (!b).toNat := by
    obtain ⟨hv, ⟨rfl, rfl, rfl⟩ | ⟨rfl, rfl, rfl⟩⟩ := (hs.node_iff h v l r).mp hn
    · exact ⟨false, by omega, rfl, rfl⟩
    · exact ⟨true, by omega, rfl, rfl⟩
  have hmax : k₀.refcou h = MAXREF := by rw [hs.refcou, if_pos hh]
  have hd : k₀.Denotes h (.node v (.leaf b) (.leaf !b)) :=
    .node hn (Denotes.leaf_iff.mpr rfl) (Denotes.leaf_iff.mpr rfl)
  refine ⟨?_, b.toNat_lt, (!b).toNat_lt, hmax⟩
  rcases (hr.permanent hs.idle hd hmax).1 with _ | _ | ⟨hn', hl, hr'⟩
  obtain rfl := Denotes.leaf_iff.mp hl
  obtain rfl := Denotes.leaf_iff.mp hr'
  exact hn'

/-- **No leaks**: if a client has released whatever it acquired, and no count was saturated, then a
collection leaves the table with the literals it was set up with. -/
theorem releases (hs : Started n k₀) (hr : Run env k₀ calls k)
    (hreleased : ∀ h, calls.count (.delref h) = calls.count (.addref h))
    (hfew : ∀ h, calls.count (.addref h) < MAXREF) :
    ∃ k', bddGbc k = .ok ((), k') ∧ k'.Idle ∧ ∀ h v l r, k'.Node h v l r ↔ k₀.Node h v l r := by
  have hsame : ∀ h, k.refcou h = k₀.refcou h := by
    intro h
    rcases hr.refcou hs.idle h with ⟨hmax, hle⟩ | heq
    · have hcount := hs.refcou h
      have := hfew h
      split_ifs at hcount <;> omega
    · have := hreleased h
      omega
  obtain ⟨k', hrun, hidle, -, hnode⟩ := (hr.inv hs.idle).1.collect
  refine ⟨k', hrun, hidle, fun h v l r => ?_⟩
  rw [hnode]
  constructor
  · rintro ⟨hn, g, hpos, hreach⟩
    rw [hsame, hs.refcou] at hpos
    have hg : g < 2 * n + 2 := by
      by_contra hge
      rw [if_neg hge] at hpos
      exact lt_irrefl _ hpos
    -- a constant reaches only itself, and a literal itself and the constants
    have h2 := hn.two_le
    rcases Relation.ReflTransGen.cases_head hreach with rfl | ⟨c, ⟨l', r', hk, hc⟩, hreach⟩
    · obtain ⟨w, l', r', hn₀⟩ := hs.exists_literal h2 hg
      obtain ⟨hn', -⟩ := hr.literals hs hn₀
      obtain rfl := hn.level.symm.trans hn'.level
      obtain rfl := Option.some.inj (hn.low.symm.trans hn'.low)
      obtain rfl := hn.high.symm.trans hn'.high
      exact hn₀
    · have hg2 := (kids_eq_some.mp hk).1
      obtain ⟨w, l'', r'', hn₀⟩ := hs.exists_literal hg2 hg
      obtain ⟨hn', hl, hr', -⟩ := hr.literals hs hn₀
      cases hk.symm.trans hn'.kids
      have hc2 : c < 2 := by
        rcases hc with rfl | rfl
        · exact hl
        · exact hr'
      rcases Relation.ReflTransGen.cases_head hreach with rfl | ⟨_, ⟨_, _, hk', -⟩, -⟩
      · omega
      · have := (kids_eq_some.mp hk').1
        omega
  · intro hn
    obtain ⟨hn', -, -, hmax⟩ := hr.literals hs hn
    refine ⟨hn', h, ?_, .refl⟩
    rw [hsame, hmax]
    decide

/-- The variable `0` is acquired and released. -/
theorem releases_delref : ∃ k₀ k k' : Kernel,
    Run (Env.exact fun _ => true) k₀ [.addref 2, .delref 2] k ∧ bddGbc k = .ok ((), k') ∧
      ∀ h v l r, k'.Node h v l r ↔ k₀.Node h v l r := by
  obtain ⟨k₀, k, hs, hr⟩ := exists_run (Env.exact fun _ => true)
  have hn := (hs.node_iff 2 0 0 1).mpr ⟨by decide, Or.inl ⟨rfl, rfl, rfl⟩⟩
  have hcount : k₀.refcou 2 = MAXREF := by rw [hs.refcou, if_pos (by decide)]
  obtain ⟨-, hmax⟩ := hr.permanent hs.idle (.node hn .zero .one) hcount
  have hpos : 0 < k.refcou 2 := by rw [hmax]; decide
  have hr' := hr.snoc (c := .delref 2) hpos (bddDelref_eq (hr.inv hs.idle).1.toOrdered hpos)
  have hreleased : ∀ h, ([.addref 2] ++ [.delref 2] : List ClientCall).count (.delref h) =
      ([.addref 2] ++ [.delref 2] : List ClientCall).count (.addref h) := fun h => by
    rcases eq_or_ne h 2 with rfl | hne
    · decide
    · simp [hne.symm]
  obtain ⟨k', hrun, -, hnode⟩ := Run.releases hs hr' hreleased fun h =>
    List.count_le_length.trans_lt (by decide)
  exact ⟨k₀, _, k', hr', hrun, hnode⟩

end Run

end AtomicPredicate.Kernel
