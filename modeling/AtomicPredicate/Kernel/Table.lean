import AtomicPredicate.Kernel.Defs
import Mathlib.NumberTheory.Bertrand

/-!
# The invariant of the node table

`Denotes k h d`: the nodes reached from the handle `h` spell out the diagram `d`. `Wf` is what holds
of the package state between any two steps of a kernel function: nodes are ordered, reduced and
unique (`Ordered`), the hash chains and the free list are exact, and every entry of the operator
cache is true of the table as it is.

On such a table a handle has exactly one diagram, which is reduced, and a diagram has at most one
handle; so equal handles are equal functions.

A node is live when the collector may not reclaim it: it is a constant, or it is reached from a node
with a reference count or on the reference stack. `Keeps k k'` says that `k'` has the live nodes of
`k` as they were. It is what every kernel function promises, with or without a collection or a
resize on the way.
-/

namespace AtomicPredicate

open Function Lib

def Operator.eval : Operator → Bool → Bool → Bool
  | and, a, b => a && b
  | xor, a, b => a ^^ b
  | or, a, b => a || b
  | nand, a, b => !(a && b)
  | nor, a, b => !(a || b)
  | imp, a, b => !a || b
  | biimp, a, b => a == b
  | diff, a, b => a && !b
  | less, a, b => !a && b
  | invimp, a, b => a || !b
  | not, a, _ => !a

def Lib.Diagram.Shortcut.none (V : Type) (op : Bool → Bool → Bool) : Diagram.Shortcut V op where
  answer _ _ := Option.none
  eval_answer h := by cases h
  answer_mem h := by cases h

/-- The reduced diagram of an operator's result. -/
def Operator.diagram (op : Operator) (a b : Diagram Nat) : Diagram Nat :=
  Diagram.apply (.none Nat op.eval) a b

theorem Operator.eval_diagram (op : Operator) (a b : Diagram Nat) (env : Nat → Bool) :
    (op.diagram a b).eval env = op.eval (a.eval env) (b.eval env) :=
  Diagram.eval_apply env a b

theorem Operator.diagram_wf (op : Operator) {a b : Diagram Nat} (ha : a.Reduced) (hb : b.Reduced) :
    Diagram.WellFormed a b (op.diagram a b) :=
  Diagram.apply_wf ha hb

namespace Kernel

variable {k k' k'' : Kernel} {h v l r : Nat}

/-! ### Nodes and what they denote -/

/-- `h` is the handle of the node `(v, l, r)`. -/
structure Node (k : Kernel) (h v l r : Nat) : Prop where
  two_le : 2 ≤ h
  lt : h < k.nodesize
  level : k.level h = v
  low : k.low h = some l
  high : k.high h = r

def Used (k : Kernel) (h : Nat) : Prop := 2 ≤ h ∧ h < k.nodesize ∧ (k.low h).isSome

def Valid (k : Kernel) (h : Nat) : Prop := h < 2 ∨ k.Used h

/-- A constant, or a node at a level after `v`. -/
def Below (k : Kernel) (v h : Nat) : Prop := h < 2 ∨ (k.Used h ∧ v < k.level h)

theorem Node.used (hn : k.Node h v l r) : k.Used h := ⟨hn.two_le, hn.lt, by simp [hn.low]⟩

theorem Used.node (hu : k.Used h) : ∃ l, k.Node h (k.level h) l (k.high h) := by
  obtain ⟨h2, hlt, hs⟩ := hu
  obtain ⟨l, hl⟩ := Option.isSome_iff_exists.mp hs
  exact ⟨l, h2, hlt, rfl, hl, rfl⟩

theorem Below.valid (hb : k.Below v h) : k.Valid h := hb.imp_right And.left

inductive Denotes (k : Kernel) : Nat → Diagram Nat → Prop
  | zero : Denotes k 0 (.leaf false)
  | one : Denotes k 1 (.leaf true)
  | node {h v l r : Nat} {dl dr : Diagram Nat} (hn : k.Node h v l r) (hl : Denotes k l dl)
      (hr : Denotes k r dr) : Denotes k h (.node v dl dr)

theorem Denotes.valid {d : Diagram Nat} (hd : k.Denotes h d) : k.Valid h := by
  rcases hd with _ | _ | ⟨hn, -, -⟩
  · exact Or.inl (by decide)
  · exact Or.inl (by decide)
  · exact Or.inr hn.used

theorem Denotes.det {d d' : Diagram Nat} (hd : k.Denotes h d) (hd' : k.Denotes h d') : d = d' := by
  induction hd generalizing d' with
  | zero =>
    rcases hd' with _ | _ | ⟨hn, -, -⟩
    · rfl
    · exact absurd hn.two_le (by decide)
  | one =>
    rcases hd' with _ | _ | ⟨hn, -, -⟩
    · rfl
    · exact absurd hn.two_le (by decide)
  | node hn _ _ ihl ihr =>
    rcases hd' with _ | _ | ⟨hn', hl', hr'⟩
    · exact absurd hn.two_le (by decide)
    · exact absurd hn.two_le (by decide)
    · have hll := Option.some.inj (hn.low.symm.trans hn'.low)
      have hrr := hn.high.symm.trans hn'.high
      rw [ihl (hll ▸ hl'), ihr (hrr ▸ hr'), ← hn.level, ← hn'.level]

theorem Denotes.leaf_iff {b : Bool} : k.Denotes h (.leaf b) ↔ h = b.toNat := by
  constructor
  · intro hd
    rcases hd with _ | _ | _ <;> rfl
  · rintro rfl
    cases b
    · exact .zero
    · exact .one

theorem Denotes.beyond_iff {d : Diagram Nat} (hd : k.Denotes h d) : d.Beyond v ↔ k.Below v h := by
  rcases hd with _ | _ | ⟨hn, -, -⟩
  · exact iff_of_true trivial (Or.inl (by decide))
  · exact iff_of_true trivial (Or.inl (by decide))
  · show v < _ ↔ _
    have h2 := hn.two_le
    rw [Below, hn.level]
    simp [hn.used, show ¬ h < 2 by omega]

/-- A true entry of the operator cache. -/
def CacheOk (k : Kernel) (e : BddCacheData) : Prop :=
  ∀ a, e.a = some a →
    (e.c = .not → ∃ d, k.Denotes a d ∧ k.Denotes e.res d.neg) ∧
    (e.c ≠ .not → ∃ da db, k.Denotes a da ∧ k.Denotes e.b db ∧
      k.Denotes e.res (e.c.diagram da db))

def bucketOf (k : Kernel) (n : Nat) : Nat :=
  NODEHASH k.nodesize (k.level n) ((k.low n).getD 0) (k.high n)

theorem NODEHASH_lt {n : Nat} (hn : 0 < n) (lvl l h : Nat) : NODEHASH n lvl l h < n :=
  Nat.mod_lt _ hn

/-! ### The invariant -/

/-- What holds of the nodes and the counts, however the table is threaded. -/
structure Ordered (k : Kernel) : Prop where
  prime : k.nodesize.Prime
  size : 2 < k.nodesize
  bound : ∀ h, (k.low h).isSome → h < k.nodesize
  node : ∀ {h v l r}, k.Node h v l r → l ≠ r ∧ k.Below v l ∧ k.Below v r ∧ v ≤ k.varnum
  unique : ∀ {h h' v l r}, k.Node h v l r → k.Node h' v l r → h = h'
  counted : ∀ h, 0 < k.refcou h → k.Valid h
  refcou_le : ∀ h, k.refcou h ≤ MAXREF
  refcou_const : ∀ h, h < 2 → k.refcou h = MAXREF
  stack : ∀ h ∈ k.refstack, k.Valid h
  cachesize : 0 < k.cachesize
  maxnodesize : k.maxnodesize = 0

structure Wf (k : Kernel) : Prop extends k.Ordered where
  threaded : Threaded 2 k.nodesize (fun n => (k.low n).isSome) k.bucketOf k.toLinks
  mark : k.mark = fun _ => false
  cache : ∀ n < k.cachesize, k.CacheOk (k.applycache n)

namespace Ordered

theorem size_pos (hw : k.Ordered) : 0 < k.nodesize := (Nat.zero_lt_succ 1).trans hw.size

theorem exists_denotes (hw : k.Ordered) (hv : k.Valid h) : ∃ d, k.Denotes h d := by
  -- children are further down, and no level is after `varnum`
  induction hm : k.varnum + 1 - k.level h using Nat.strongRecOn generalizing h with
  | _ m ih =>
    rcases hv with hlt | hu
    · rcases (by omega : h = 0 ∨ h = 1) with rfl | rfl
      · exact ⟨_, .zero⟩
      · exact ⟨_, .one⟩
    obtain ⟨l, hn⟩ := hu.node
    obtain ⟨-, hl, hr, hle⟩ := hw.node hn
    have child : ∀ c, k.Below (k.level h) c → ∃ d, k.Denotes c d := by
      intro c hc
      rcases hc with hc | ⟨hcu, hlt⟩
      · rcases (by omega : c = 0 ∨ c = 1) with rfl | rfl
        · exact ⟨_, .zero⟩
        · exact ⟨_, .one⟩
      · exact ih _ (by omega) (Or.inr hcu) rfl
    obtain ⟨dl, hdl⟩ := child l hl
    obtain ⟨dr, hdr⟩ := child _ hr
    exact ⟨_, .node hn hdl hdr⟩

theorem denotes_inj (hw : k.Ordered) {d : Diagram Nat} {h h' : Nat} (hd : k.Denotes h d)
    (hd' : k.Denotes h' d) : h = h' := by
  induction hd generalizing h' with
  | zero =>
    have := Denotes.leaf_iff.mp hd'
    simpa using this.symm
  | one =>
    have := Denotes.leaf_iff.mp hd'
    simpa using this.symm
  | node hn _ _ ihl ihr =>
    rcases hd' with _ | _ | ⟨hn', hl', hr'⟩
    have hll := ihl hl'
    have hrr := ihr hr'
    subst hll hrr
    exact hw.unique hn hn'

theorem reduced (hw : k.Ordered) {d : Diagram Nat} (hd : k.Denotes h d) : d.Reduced := by
  induction hd with
  | zero => trivial
  | one => trivial
  | node hn hl hr ihl ihr =>
    obtain ⟨hne, hbl, hbr, -⟩ := hw.node hn
    refine ⟨?_, hl.beyond_iff.mpr hbl, hr.beyond_iff.mpr hbr, ihl, ihr⟩
    rintro rfl
    exact hne (hw.denotes_inj hl hr)

end Ordered

/-! ### Sizes -/

/-- The size of a table of size `n` after it is resized. -/
def nextSize (n : Nat) : Nat := Nat.findGreatest Nat.Prime (min (2 * n) (n + DEFAULTMAXNODEINC))

/-- A table of size `n` has size `m` after it is resized a number of times. -/
def Reached (n m : Nat) : Prop := ∃ i, nextSize^[i] n = m

theorem Reached.refl (n : Nat) : Reached n n := ⟨0, rfl⟩

theorem Reached.next (n : Nat) : Reached n (nextSize n) := ⟨1, rfl⟩

theorem Reached.trans {n m o : Nat} (h : Reached n m) (h' : Reached m o) : Reached n o := by
  obtain ⟨i, rfl⟩ := h
  obtain ⟨j, rfl⟩ := h'
  exact ⟨j + i, iterate_add_apply nextSize j i n⟩

def Root (k : Kernel) (h : Nat) : Prop := h ∈ k.refstack ∨ 0 < k.refcou h

def Live (k : Kernel) (h : Nat) : Prop := h < 2 ∨ ∃ g, k.Root g ∧ Reach k.kids g h

theorem kids_eq_some : k.kids h = some (l, r) ↔ 2 ≤ h ∧ k.low h = some l ∧ k.high h = r := by
  unfold kids
  split_ifs with h2
  · exact iff_of_false (fun h => by cases h) (by omega)
  · rw [Option.map_eq_some_iff]
    constructor
    · rintro ⟨l', hl', heq⟩
      cases heq
      exact ⟨by omega, hl', rfl⟩
    · rintro ⟨-, hl, hr⟩
      exact ⟨l, hl, by rw [hr]⟩

theorem Node.kids (hn : k.Node h v l r) : k.kids h = some (l, r) :=
  kids_eq_some.mpr ⟨hn.two_le, hn.low, hn.high⟩

theorem Root.live (hr : k.Root h) : k.Live h := Or.inr ⟨h, hr, .refl⟩

theorem Live.const (hlt : h < 2) : k.Live h := Or.inl hlt

theorem Live.of_reach {g : Nat} (hl : k.Live g) (hr : Reach k.kids g h) : k.Live h := by
  rcases hl with hlt | ⟨f, hf, hfg⟩
  · rcases Relation.ReflTransGen.cases_head hr with rfl | ⟨c, ⟨_, _, hk, -⟩, -⟩
    · exact Or.inl hlt
    · have := (kids_eq_some.mp hk).1
      omega
  · exact Or.inr ⟨f, hf, hfg.trans hr⟩

theorem Live.low (hl : k.Live h) (hn : k.Node h v l r) : k.Live l :=
  hl.of_reach (.single ⟨l, r, hn.kids, Or.inl rfl⟩)

theorem Live.high (hl : k.Live h) (hn : k.Node h v l r) : k.Live r :=
  hl.of_reach (.single ⟨l, r, hn.kids, Or.inr rfl⟩)

namespace Ordered

theorem valid_root (hw : k.Ordered) (hr : k.Root h) : k.Valid h := hr.elim (hw.stack h) (hw.counted h)

theorem valid_of_reach (hw : k.Ordered) {g : Nat} (hg : k.Valid g) (hr : Reach k.kids g h) :
    k.Valid h := by
  induction hr with
  | refl => exact hg
  | @tail b c _ hkid ih =>
    obtain ⟨l, r, hk, hc⟩ := hkid
    obtain ⟨h2, hl, hh⟩ := kids_eq_some.mp hk
    rcases ih with hlt | hu
    · omega
    have hn : k.Node b (k.level b) l r := ⟨h2, hu.2.1, rfl, hl, hh⟩
    obtain ⟨-, hbl, hbr, -⟩ := hw.node hn
    rcases hc with rfl | rfl
    · exact hbl.valid
    · exact hbr.valid

theorem valid_of_live (hw : k.Ordered) (hl : k.Live h) : k.Valid h := by
  rcases hl with hlt | ⟨g, hg, hr⟩
  · exact Or.inl hlt
  · exact hw.valid_of_reach (hw.valid_root hg) hr

theorem node_of_kids (hw : k.Ordered) (hk : k.kids h = some (l, r)) : k.Node h (k.level h) l r := by
  obtain ⟨h2, hl, hh⟩ := kids_eq_some.mp hk
  exact ⟨h2, hw.bound h (by simp [hl]), rfl, hl, hh⟩

theorem ranked (hw : k.Ordered) : Ranked k.kids k.level k.varnum where
  lt a b hkid hb := by
    obtain ⟨l, r, hk, hb'⟩ := hkid
    have hn := hw.node_of_kids hk
    obtain ⟨-, hbl, hbr, -⟩ := hw.node hn
    obtain ⟨⟨lb, rb⟩, hkb⟩ := Option.isSome_iff_exists.mp hb
    have hb2 := (kids_eq_some.mp hkb).1
    have below : ∀ c, k.Below (k.level a) c → 2 ≤ c → k.level a < k.level c :=
      fun c hc h2 => (hc.resolve_left (by omega)).2
    rcases hb' with rfl | rfl
    · exact below _ hbl hb2
    · exact below _ hbr hb2
  le a ha := by
    obtain ⟨⟨l, r⟩, hk⟩ := Option.isSome_iff_exists.mp ha
    exact (hw.node (hw.node_of_kids hk)).2.2.2

end Ordered

/-! ### What is kept -/

/-- The state `k'` has the live nodes of `k`, unchanged, and what a caller relies on. -/
structure Keeps (k k' : Kernel) : Prop where
  node : ∀ h, k.Live h → k'.low h = k.low h ∧ k'.high h = k.high h ∧ k'.level h = k.level h
  nodesize : k.nodesize ≤ k'.nodesize
  sizes : Reached k.nodesize k'.nodesize
  refcou : k'.refcou = k.refcou
  refstack : k'.refstack = k.refstack
  varnum : k'.varnum = k.varnum
  varset : k'.varset = k.varset
  stacksize : k'.stacksize = k.stacksize
  cachesize : k'.cachesize = k.cachesize

namespace Keeps

theorem refl (k : Kernel) : k.Keeps k :=
  ⟨fun _ _ => ⟨rfl, rfl, rfl⟩, le_rfl, .refl _, rfl, rfl, rfl, rfl, rfl, rfl⟩

theorem root_iff (hk : k.Keeps k') : k'.Root h ↔ k.Root h := by
  rw [Root, Root, hk.refstack, hk.refcou]

theorem kids (hk : k.Keeps k') (hl : k.Live h) : k'.kids h = k.kids h := by
  obtain ⟨h1, h2, -⟩ := hk.node h hl
  rw [Kernel.kids, Kernel.kids, h1, h2]

theorem live (hk : k.Keeps k') (hl : k.Live h) : k'.Live h := by
  rcases hl with hlt | ⟨g, hg, hreach⟩
  · exact Or.inl hlt
  refine Or.inr ⟨g, hk.root_iff.mpr hg, ?_⟩
  induction hreach with
  | refl => exact .refl
  | @tail b c hgb hkid ih =>
    obtain ⟨l, r, hkb, hc⟩ := hkid
    refine ih.tail ⟨l, r, ?_, hc⟩
    rw [hk.kids (hg.live.of_reach hgb)]
    exact hkb

theorem trans (h₁ : k.Keeps k') (h₂ : k'.Keeps k'') : k.Keeps k'' where
  node h hl := by
    obtain ⟨a1, a2, a3⟩ := h₁.node h hl
    obtain ⟨b1, b2, b3⟩ := h₂.node h (h₁.live hl)
    exact ⟨b1.trans a1, b2.trans a2, b3.trans a3⟩
  nodesize := h₁.nodesize.trans h₂.nodesize
  sizes := h₁.sizes.trans h₂.sizes
  refcou := h₂.refcou.trans h₁.refcou
  refstack := h₂.refstack.trans h₁.refstack
  varnum := h₂.varnum.trans h₁.varnum
  varset := h₂.varset.trans h₁.varset
  stacksize := h₂.stacksize.trans h₁.stacksize
  cachesize := h₂.cachesize.trans h₁.cachesize

theorem node_of (hk : k.Keeps k') (hl : k.Live h) (hn : k.Node h v l r) : k'.Node h v l r := by
  obtain ⟨h1, h2, h3⟩ := hk.node h hl
  exact ⟨hn.two_le, hn.lt.trans_le hk.nodesize, h3.trans hn.level, h1.trans hn.low,
    h2.trans hn.high⟩

theorem denotes (hk : k.Keeps k') {d : Diagram Nat} (hd : k.Denotes h d) (hl : k.Live h) :
    k'.Denotes h d := by
  induction hd with
  | zero => exact .zero
  | one => exact .one
  | node hn _ _ ihl ihr =>
    exact .node (hk.node_of hl hn) (ihl (hl.low hn)) (ihr (hl.high hn))

theorem level (hk : k.Keeps k') (hl : k.Live h) : k'.level h = k.level h := (hk.node h hl).2.2

theorem below (hk : k.Keeps k') (hl : k.Live h) (hb : k.Below v h) : k'.Below v h := by
  refine hb.imp_right fun ⟨hu, hlt⟩ => ?_
  obtain ⟨l, hn⟩ := hu.node
  exact ⟨(hk.node_of hl hn).used, by rwa [hk.level hl]⟩

end Keeps

theorem Denotes.mono {d : Diagram Nat} (hd : k.Denotes h d)
    (hk : ∀ h v l r, k.Node h v l r → k'.Node h v l r) : k'.Denotes h d := by
  induction hd with
  | zero => exact .zero
  | one => exact .one
  | node hn _ _ ihl ihr => exact .node (hk _ _ _ _ hn) ihl ihr

theorem CacheOk.mono {e : BddCacheData} (he : k.CacheOk e)
    (hk : ∀ h v l r, k.Node h v l r → k'.Node h v l r) : k'.CacheOk e := by
  intro a ha
  obtain ⟨hnot, hop⟩ := he a ha
  refine ⟨fun hc => ?_, fun hc => ?_⟩
  · obtain ⟨d, hd, hres⟩ := hnot hc
    exact ⟨d, hd.mono hk, hres.mono hk⟩
  · obtain ⟨da, db, hda, hdb, hres⟩ := hop hc
    exact ⟨da, db, hda.mono hk, hdb.mono hk, hres.mono hk⟩

/-! ### States that share a table -/

/-- The two states have the same nodes, threaded the same way. -/
structure SameTable (k k' : Kernel) : Prop where
  nodesize : k'.nodesize = k.nodesize
  low : k'.low = k.low
  high : k'.high = k.high
  level : ∀ h, 2 ≤ h → k'.level h = k.level h
  links : k'.toLinks = k.toLinks
  mark : k'.mark = k.mark
  cachesize : k'.cachesize = k.cachesize
  maxnodesize : k'.maxnodesize = k.maxnodesize

namespace SameTable

theorem node_iff (hs : k.SameTable k') : k'.Node h v l r ↔ k.Node h v l r :=
  ⟨fun hn => ⟨hn.two_le, hs.nodesize ▸ hn.lt, hs.level h hn.two_le ▸ hn.level, hs.low ▸ hn.low,
    hs.high ▸ hn.high⟩, fun hn => ⟨hn.two_le, by rw [hs.nodesize]; exact hn.lt,
      by rw [hs.level h hn.two_le]; exact hn.level, by rw [hs.low]; exact hn.low,
      by rw [hs.high]; exact hn.high⟩⟩

theorem valid_iff (hs : k.SameTable k') : k'.Valid h ↔ k.Valid h := by
  rw [Valid, Valid, Used, Used, hs.nodesize, hs.low]

theorem below_iff (hs : k.SameTable k') : k'.Below v h ↔ k.Below v h := by
  refine or_congr_right ?_
  rw [Used, Used, hs.nodesize, hs.low]
  exact and_congr_right fun hu => by rw [hs.level h hu.1]

theorem denotes (hs : k.SameTable k') {d : Diagram Nat} (hd : k.Denotes h d) : k'.Denotes h d :=
  hd.mono fun _ _ _ _ => hs.node_iff.mpr

theorem wf (hs : k.SameTable k') (hw : k.Wf) (hvarnum : k.varnum ≤ k'.varnum)
    (hcounted : ∀ h, 0 < k'.refcou h → k.Valid h) (hle : ∀ h, k'.refcou h ≤ MAXREF)
    (hconst : ∀ h, h < 2 → k'.refcou h = MAXREF) (hstack : ∀ h ∈ k'.refstack, k.Valid h)
    (hcache : ∀ n < k.cachesize, k.CacheOk (k'.applycache n)) : k'.Wf where
  prime := hs.nodesize ▸ hw.prime
  size := hs.nodesize ▸ hw.size
  bound h hsome := by
    rw [hs.nodesize]
    rw [hs.low] at hsome
    exact hw.bound h hsome
  node hn := by
    obtain ⟨hne, hbl, hbr, hv⟩ := hw.node (hs.node_iff.mp hn)
    exact ⟨hne, hs.below_iff.mpr hbl, hs.below_iff.mpr hbr, hv.trans hvarnum⟩
  unique hn hn' := hw.unique (hs.node_iff.mp hn) (hs.node_iff.mp hn')
  counted h hpos := hs.valid_iff.mpr (hcounted h hpos)
  refcou_le := hle
  refcou_const := hconst
  stack h hh := hs.valid_iff.mpr (hstack h hh)
  cachesize := hs.cachesize ▸ hw.cachesize
  maxnodesize := hs.maxnodesize.trans hw.maxnodesize
  threaded := by
    rw [hs.nodesize, hs.links, hs.low]
    exact hw.threaded.congr (fun _ _ _ => rfl) fun n h2 _ _ => by
      rw [bucketOf, bucketOf, hs.nodesize, hs.level n h2, hs.low, hs.high]
  mark := hs.mark.trans hw.mark
  cache n hn := (hcache n (hs.cachesize ▸ hn)).mono fun _ _ _ _ => hs.node_iff.mpr

end SameTable

end Kernel

end AtomicPredicate
