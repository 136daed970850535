import Mathlib.Order.Lattice
import Mathlib.Logic.Function.Basic
import Mathlib.Tactic.SplitIfs

/-!
# Reduced ordered binary decision diagrams

Decision diagrams over a linearly ordered set `V` of variables, as trees. `Reduced` says that the
levels grow along every path and that no node has two equal children. The operations `neg` and
`apply` build their results with `mk`, the node constructor that drops a redundant test, and so
stay reduced; `apply` may answer early through a table of shortcuts (`Shortcut`).

`eq_of_eval_eq` is canonicity: two reduced diagrams with the same meaning are the same tree.
`Robdd` packs a diagram with its invariant, so equality of `Robdd`s is equality of functions.
-/

namespace AtomicPredicate.Lib

inductive Diagram (V : Type) where
  | leaf (value : Bool)
  | node (level : V) (low high : Diagram V)
  deriving DecidableEq, Repr

namespace Diagram

variable {V : Type}

def eval (env : V → Bool) : Diagram V → Bool
  | leaf b => b
  | node v l h => if env v then h.eval env else l.eval env

@[simp] theorem eval_leaf (env : V → Bool) (b : Bool) : (leaf b).eval env = b := rfl

@[simp] theorem eval_node (env : V → Bool) (v : V) (l h : Diagram V) :
    (node v l h).eval env = if env v then h.eval env else l.eval env := rfl

variable [LinearOrder V]

/-- The root tests a variable after `v`, or none. -/
def Beyond (v : V) : Diagram V → Prop
  | leaf _ => True
  | node w _ _ => v < w

/-- Levels grow along every path and no test is redundant. -/
def Reduced : Diagram V → Prop
  | leaf _ => True
  | node v l h => l ≠ h ∧ l.Beyond v ∧ h.Beyond v ∧ l.Reduced ∧ h.Reduced

theorem Beyond.of_lt {u v : V} (huv : u < v) {d : Diagram V} (h : d.Beyond v) : d.Beyond u := by
  cases d with
  | leaf => trivial
  | node w l r => exact huv.trans h

theorem eval_update {v : V} {d : Diagram V} (hd : d.Reduced) (hb : d.Beyond v) (env : V → Bool)
    (b : Bool) : d.eval (Function.update env v b) = d.eval env := by
  induction d with
  | leaf => rfl
  | node w l h ihl ihh =>
    obtain ⟨-, hlb, hhb, hl, hh⟩ := hd
    have hvw : v < w := hb
    simp only [eval_node, Function.update_of_ne hvw.ne', ihl hl (hlb.of_lt hvw),
      ihh hh (hhb.of_lt hvw)]

/-! ### Canonicity -/

theorem eval_children {v : V} {l h d : Diagram V} (hn : (node v l h).Reduced) (hd : d.Reduced)
    (hb : d.Beyond v) (he : ∀ env, (node v l h).eval env = d.eval env) (env : V → Bool) :
    l.eval env = d.eval env ∧ h.eval env = d.eval env := by
  obtain ⟨-, hlb, hhb, hl, hh⟩ := hn
  have h0 := he (Function.update env v false)
  have h1 := he (Function.update env v true)
  simp only [eval_node, Function.update_self, Bool.false_eq_true, if_false, if_true,
    eval_update hl hlb, eval_update hh hhb, eval_update hd hb] at h0 h1
  exact ⟨h0, h1⟩

/-- **Canonicity.** Reduced diagrams with the same meaning are equal. -/
theorem eq_of_eval_eq {a b : Diagram V} (ha : a.Reduced) (hb : b.Reduced)
    (he : ∀ env, a.eval env = b.eval env) : a = b := by
  induction a generalizing b with
  | leaf x =>
    induction b with
    | leaf y => exact congrArg leaf (he fun _ => false)
    | node w l h ihl ihh =>
      -- a node that means a constant has two children that mean it, hence equal ones
      have hc := eval_children hb (d := leaf x) trivial trivial fun env => (he env).symm
      refine absurd ?_ hb.1
      rw [← ihl hb.2.2.2.1 fun env => (hc env).1.symm, ← ihh hb.2.2.2.2 fun env => (hc env).2.symm]
  | node v l h ihl ihh =>
    obtain ⟨hne, hlb, hhb, hl, hh⟩ := ha
    have ha : (node v l h).Reduced := ⟨hne, hlb, hhb, hl, hh⟩
    have collapse : ∀ {d : Diagram V}, d.Reduced → d.Beyond v →
        (∀ env, (node v l h).eval env = d.eval env) → False := by
      intro d hd hdb hde
      have hc := eval_children ha hd hdb hde
      exact hne ((ihl hl hd fun env => (hc env).1).trans (ihh hh hd fun env => (hc env).2).symm)
    induction b with
    | leaf y => exact (collapse hb trivial he).elim
    | node w l' h' ihl' ihh' =>
      rcases lt_trichotomy v w with hvw | rfl | hwv
      · exact (collapse hb hvw he).elim
      · obtain ⟨-, hlb', hhb', hl', hh'⟩ := hb
        have cofactor : ∀ env, l.eval env = l'.eval env ∧ h.eval env = h'.eval env := by
          intro env
          have h0 := he (Function.update env v false)
          have h1 := he (Function.update env v true)
          simp only [eval_node, Function.update_self, Bool.false_eq_true, if_false, if_true,
            eval_update hl hlb, eval_update hh hhb, eval_update hl' hlb',
            eval_update hh' hhb'] at h0 h1
          exact ⟨h0, h1⟩
        rw [ihl hl hl' fun env => (cofactor env).1, ihh hh hh' fun env => (cofactor env).2]
      · have hc := eval_children hb (d := node v l h) ha hwv fun env => (he env).symm
        refine absurd ?_ hb.1
        rw [← ihl' hb.2.2.2.1 fun env => (hc env).1.symm,
          ← ihh' hb.2.2.2.2 fun env => (hc env).2.symm]

/-! ### Node construction and negation -/

/-- A node, unless its two children are equal. -/
def mk (v : V) (l h : Diagram V) : Diagram V :=
  if l = h then l else node v l h

@[simp] theorem eval_mk (env : V → Bool) (v : V) (l h : Diagram V) :
    (mk v l h).eval env = if env v then h.eval env else l.eval env := by
  unfold mk
  split_ifs <;> simp_all

theorem reduced_mk {v : V} {l h : Diagram V} (hl : l.Reduced) (hh : h.Reduced) (hlb : l.Beyond v)
    (hhb : h.Beyond v) : (mk v l h).Reduced := by
  unfold mk
  split_ifs with heq
  · exact hl
  · exact ⟨heq, hlb, hhb, hl, hh⟩

theorem beyond_mk {u v : V} {l h : Diagram V} (huv : u < v) (hlb : l.Beyond v) :
    (mk v l h).Beyond u := by
  unfold mk
  split_ifs
  · exact hlb.of_lt huv
  · exact huv

def neg : Diagram V → Diagram V
  | leaf b => leaf !b
  | node v l h => mk v l.neg h.neg

@[simp] theorem eval_neg (env : V → Bool) (d : Diagram V) : d.neg.eval env = !d.eval env := by
  induction d with
  | leaf => rfl
  | node v l h ihl ihh =>
    simp only [neg, eval_mk, eval_node, ihl, ihh]
    split_ifs <;> rfl

theorem neg_wf {d : Diagram V} (hd : d.Reduced) :
    d.neg.Reduced ∧ ∀ u, d.Beyond u → d.neg.Beyond u := by
  induction d with
  | leaf => exact ⟨trivial, fun _ _ => trivial⟩
  | node v l h ihl ihh =>
    obtain ⟨-, hlb, hhb, hl, hh⟩ := hd
    have hln := ihl hl
    have hhn := ihh hh
    exact ⟨reduced_mk hln.1 hhn.1 (hln.2 v hlb) (hhn.2 v hhb),
      fun u hu => beyond_mk hu (hln.2 v hlb)⟩

/-! ### Binary operations -/

/-- A table of early answers for a binary operation: each answer is an operand or a constant and
has the operation's value. -/
structure Shortcut (V : Type) (op : Bool → Bool → Bool) where
  answer : Diagram V → Diagram V → Option (Diagram V)
  eval_answer : ∀ {l r d}, answer l r = some d → ∀ env, d.eval env = op (l.eval env) (r.eval env)
  answer_mem : ∀ {l r d}, answer l r = some d → d = l ∨ d = r ∨ ∃ b, d = leaf b

variable {op : Bool → Bool → Bool} (short : Shortcut V op)

/-- Apply with a constant on the left: recursion on the right operand. -/
def applyLeaf (a : Bool) : Diagram V → Diagram V
  | leaf b => (short.answer (leaf a) (leaf b)).getD (leaf (op a b))
  | node w l h => (short.answer (leaf a) (node w l h)).getD (mk w (applyLeaf a l) (applyLeaf a h))

/-- Apply with a node `self` at level `v` on the left, whose two children are already applied by
`fl` and `fh`: recursion on the right operand. -/
def applyNode (self : Diagram V) (v : V) (fl fh : Diagram V → Diagram V) : Diagram V → Diagram V
  | leaf b => (short.answer self (leaf b)).getD (mk v (fl (leaf b)) (fh (leaf b)))
  | node w l h => (short.answer self (node w l h)).getD <|
      if v = w then mk v (fl l) (fh h)
      else if v < w then mk v (fl (node w l h)) (fh (node w l h))
      else mk w (applyNode self v fl fh l) (applyNode self v fl fh h)

/-- The operation on diagrams, splitting on the smaller root level. -/
def apply : Diagram V → Diagram V → Diagram V
  | leaf a, r => applyLeaf short a r
  | node v l h, r => applyNode short (node v l h) v (apply l) (apply h) r

variable {short}

omit [LinearOrder V] in
theorem eval_getD_answer {l r d : Diagram V} {env : V → Bool}
    (hd : d.eval env = op (l.eval env) (r.eval env)) :
    ((short.answer l r).getD d).eval env = op (l.eval env) (r.eval env) := by
  cases hs : short.answer l r with
  | none => exact hd
  | some e => exact short.eval_answer hs env

theorem eval_applyLeaf (env : V → Bool) (a : Bool) (r : Diagram V) :
    (applyLeaf short a r).eval env = op a (r.eval env) := by
  induction r with
  | leaf b => exact eval_getD_answer (l := leaf a) rfl
  | node w l h ihl ihh =>
    apply eval_getD_answer (l := leaf a)
    simp only [eval_mk, ihl, ihh, eval_node, eval_leaf]
    split_ifs <;> rfl

theorem eval_applyNode (env : V → Bool) {v : V} {l h : Diagram V} {fl fh : Diagram V → Diagram V}
    (hfl : ∀ r, (fl r).eval env = op (l.eval env) (r.eval env))
    (hfh : ∀ r, (fh r).eval env = op (h.eval env) (r.eval env)) (r : Diagram V) :
    (applyNode short (node v l h) v fl fh r).eval env =
      op ((node v l h).eval env) (r.eval env) := by
  induction r with
  | leaf b =>
    apply eval_getD_answer
    simp only [eval_mk, hfl, hfh, eval_node]
    split_ifs <;> rfl
  | node w l' h' ihl ihh =>
    apply eval_getD_answer
    split_ifs with heq hlt
    · subst heq
      simp only [eval_mk, hfl, hfh, eval_node]
      split_ifs <;> rfl
    · simp only [eval_mk, hfl, hfh, eval_node]
      split_ifs <;> rfl
    · simp only [eval_mk, ihl, ihh, eval_node]
      split_ifs <;> rfl

@[simp] theorem eval_apply (env : V → Bool) (l r : Diagram V) :
    (apply short l r).eval env = op (l.eval env) (r.eval env) := by
  induction l generalizing r with
  | leaf a => exact eval_applyLeaf env a r
  | node v l h ihl ihh => exact eval_applyNode env ihl ihh r

/-- A result is well formed when it is reduced and lies beyond every variable both operands lie
beyond. -/
def WellFormed (l r d : Diagram V) : Prop :=
  d.Reduced ∧ ∀ u, l.Beyond u → r.Beyond u → d.Beyond u

theorem wellFormed_getD_answer {l r d : Diagram V} (hl : l.Reduced) (hr : r.Reduced)
    (hd : WellFormed l r d) : WellFormed l r ((short.answer l r).getD d) := by
  cases hs : short.answer l r with
  | none => exact hd
  | some e =>
    rcases short.answer_mem hs with rfl | rfl | ⟨b, rfl⟩
    · exact ⟨hl, fun _ h _ => h⟩
    · exact ⟨hr, fun _ _ h => h⟩
    · exact ⟨trivial, fun _ _ _ => trivial⟩

theorem applyLeaf_wf (a : Bool) {r : Diagram V} (hr : r.Reduced) :
    WellFormed (leaf a) r (applyLeaf short a r) := by
  induction r with
  | leaf b => exact wellFormed_getD_answer trivial trivial ⟨trivial, fun _ _ _ => trivial⟩
  | node w l h ihl ihh =>
    obtain ⟨hne, hlb, hhb, hl, hh⟩ := hr
    have hwl := ihl hl
    have hwh := ihh hh
    refine wellFormed_getD_answer trivial ⟨hne, hlb, hhb, hl, hh⟩ ⟨?_, fun u _ hu => ?_⟩
    · exact reduced_mk hwl.1 hwh.1 (hwl.2 w trivial hlb) (hwh.2 w trivial hhb)
    · exact beyond_mk hu (hwl.2 w trivial hlb)

theorem applyNode_wf {v : V} {l h : Diagram V} {fl fh : Diagram V → Diagram V}
    (hn : (node v l h).Reduced) (hfl : ∀ r, r.Reduced → WellFormed l r (fl r))
    (hfh : ∀ r, r.Reduced → WellFormed h r (fh r)) {r : Diagram V} (hr : r.Reduced) :
    WellFormed (node v l h) r (applyNode short (node v l h) v fl fh r) := by
  obtain ⟨hne, hlb, hhb, hl, hh⟩ := hn
  have hn : (node v l h).Reduced := ⟨hne, hlb, hhb, hl, hh⟩
  have below : ∀ {w : V} {a b r : Diagram V}, a.Reduced → b.Reduced →
      a.Beyond w → b.Beyond w → (∀ u, (node v l h).Beyond u → r.Beyond u → u < w) →
      WellFormed (node v l h) r (mk w a b) :=
    fun ha hb hab hbb hu => ⟨reduced_mk ha hb hab hbb, fun u h1 h2 => beyond_mk (hu u h1 h2) hab⟩
  induction r with
  | leaf b =>
    have hl' := hfl (leaf b) trivial
    have hh' := hfh (leaf b) trivial
    exact wellFormed_getD_answer hn trivial <|
      below hl'.1 hh'.1 (hl'.2 v hlb trivial) (hh'.2 v hhb trivial) fun u hu _ => hu
  | node w l' h' ihl ihh =>
    obtain ⟨hne', hlb', hhb', hl', hh'⟩ := hr
    have hr : (node w l' h').Reduced := ⟨hne', hlb', hhb', hl', hh'⟩
    apply wellFormed_getD_answer hn hr
    split_ifs with heq hlt
    · subst heq
      have h1 := hfl l' hl'
      have h2 := hfh h' hh'
      exact below h1.1 h2.1 (h1.2 v hlb hlb') (h2.2 v hhb hhb') fun u hu _ => hu
    · have h1 := hfl (node w l' h') hr
      have h2 := hfh (node w l' h') hr
      exact below h1.1 h2.1 (h1.2 v hlb hlt) (h2.2 v hhb hlt) fun u hu _ => hu
    · have hwv : w < v := lt_of_le_of_ne (not_lt.mp hlt) (Ne.symm heq)
      have h1 := ihl hl'
      have h2 := ihh hh'
      exact below h1.1 h2.1 (h1.2 w hwv hlb') (h2.2 w hwv hhb') fun u _ hu => hu

theorem apply_wf {l r : Diagram V} (hl : l.Reduced) (hr : r.Reduced) :
    WellFormed l r (apply short l r) := by
  induction l generalizing r with
  | leaf a => exact applyLeaf_wf a hr
  | node v l h ihl ihh =>
    exact applyNode_wf hl (fun _ hr' => ihl hl.2.2.2.1 hr') (fun _ hr' => ihh hl.2.2.2.2 hr') hr

end Diagram

/-- A diagram together with its invariant: one value per Boolean function. -/
structure Robdd (V : Type) [LinearOrder V] where
  diagram : Diagram V
  reduced : diagram.Reduced

namespace Robdd

variable {V : Type} [LinearOrder V]

instance : DecidableEq (Robdd V) := fun a b =>
  decidable_of_iff (a.diagram = b.diagram) ⟨fun h => by cases a; cases b; cases h; rfl, congrArg _⟩

def eval (d : Robdd V) (env : V → Bool) : Bool := d.diagram.eval env

theorem ext_eval {a b : Robdd V} (h : ∀ env, a.eval env = b.eval env) : a = b := by
  obtain ⟨a, ha⟩ := a
  obtain ⟨b, hb⟩ := b
  cases Diagram.eq_of_eval_eq ha hb h
  rfl

def const (b : Bool) : Robdd V := ⟨.leaf b, trivial⟩

/-- The diagram of a variable (`sign = true`) or of its complement. -/
def literal (v : V) (sign : Bool) : Robdd V :=
  ⟨.node v (.leaf !sign) (.leaf sign), by cases sign <;> simp [Diagram.Reduced, Diagram.Beyond]⟩

def neg (d : Robdd V) : Robdd V := ⟨d.diagram.neg, (Diagram.neg_wf d.reduced).1⟩

def apply {op : Bool → Bool → Bool} (short : Diagram.Shortcut V op) (l r : Robdd V) : Robdd V :=
  ⟨.apply short l.diagram r.diagram, (Diagram.apply_wf l.reduced r.reduced).1⟩

@[simp] theorem eval_const (b : Bool) (env : V → Bool) : (const b).eval env = b := rfl

theorem ne_false_iff {d : Robdd V} : d ≠ const false ↔ ∃ env, d.eval env = true := by
  constructor
  · intro h
    by_contra hnone
    exact h (ext_eval fun env => by simpa using fun ht => hnone ⟨env, ht⟩)
  · intro h
    obtain ⟨env, ht⟩ := h
    intro heq
    simp [heq] at ht

@[simp] theorem eval_literal (v : V) (sign : Bool) (env : V → Bool) :
    (literal v sign).eval env = (env v == sign) := by
  cases sign <;> cases h : env v <;> simp [literal, eval, h]

@[simp] theorem eval_neg (d : Robdd V) (env : V → Bool) : d.neg.eval env = !d.eval env :=
  Diagram.eval_neg env d.diagram

@[simp] theorem eval_apply {op : Bool → Bool → Bool} (short : Diagram.Shortcut V op)
    (l r : Robdd V) (env : V → Bool) :
    (apply short l r).eval env = op (l.eval env) (r.eval env) :=
  Diagram.eval_apply env l.diagram r.diagram

end Robdd

end AtomicPredicate.Lib
