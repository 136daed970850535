import AtomicPredicate.Device
import AtomicPredicate.Kernel.Refine

/-!
# The classifier on the node table

Every program of the classifier has its implementation (`Implemented`), so what the triples say of
it holds of the node table. `init_field_var` sets the table up and hands out the variables that the
programs use (`initFieldVar_eq`), and `parseDevice` then computes the predicate of every router.
-/

namespace AtomicPredicate

open Lib Kernel

/-- `init_field_var`, after `bdd_init`. -/
def Kernel.initFieldVar (env : Env) : KernelM Fields := do
  bddSetvarnum env totalBits
  let srcIP ← (List.range ipBits).mapM fun i => Kernel.bddIthvar i
  let dstIP ← (List.range ipBits).mapM fun i => Kernel.bddIthvar (i + ipBits)
  let srcPort ← (List.range portBits).mapM fun i => Kernel.bddIthvar (i + (ipBits + ipBits))
  let dstPort ← (List.range portBits).mapM fun i =>
    Kernel.bddIthvar (i + (ipBits + ipBits + portBits))
  let protocol ← (List.range protocolBits).mapM fun i =>
    Kernel.bddIthvar (i + (ipBits + ipBits + portBits + portBits))
  return ⟨srcIP, dstIP, srcPort, dstPort, protocol⟩

def Implemented (env : Env) {β : Type} (m : BddM β) : Prop := ∃ p, Implements env m p

namespace Implemented

variable {env : Env} {β γ δ : Type} {m : BddM β}

theorem pure (b : β) : Implemented env (pure b : BddM β) := ⟨_, .pure b⟩

theorem throw (e : CFault) : Implemented env (throw (.client e) : BddM β) := ⟨_, .throw e⟩

theorem bind {l : β → BddM γ} (hm : Implemented env m) (hl : ∀ b, Implemented env (l b)) :
    Implemented env (m >>= l) := by
  obtain ⟨p, hp⟩ := hm
  choose q hq using hl
  exact ⟨p >>= q, hp.bind hq⟩

theorem holding (hs : List Handle) (hm : Implemented env m) : Implemented env (holding hs m) :=
  hm.imp fun _ hp => hp.holding hs

theorem foldlM {f : γ → δ → BddM γ} (hf : ∀ c d, Implemented env (f c d)) (l : List δ) (c : γ) :
    Implemented env (l.foldlM f c) := by
  induction l generalizing c with
  | nil => exact .pure c
  | cons d l ih =>
    rw [List.foldlM_cons]
    exact (hf c d).bind fun c' => ih c'

theorem delref (r : Handle) : Implemented env (bddDelref r) := ⟨_, .delref r⟩

end Implemented

section

variable {env : Env}

end

/-! ### Setting up -/

/-- **`init_field_var`** hands out the variables that the programs use, on a table that represents
the store they start with. -/
theorem initFieldVar_eq (env : Env) :
    ∃ k, Kernel.initFieldVar env (Kernel.bddInit env 10000 10000) = .ok (initFieldVar, k) ∧
      Started totalBits k ∧ k.nodesize = env.bddPrimeGte 10000 := by
  obtain ⟨k, hrun, hs, hsize⟩ : ∃ k, bddSetvarnum env totalBits (Kernel.bddInit env 10000 10000) =
      .ok ((), k) ∧ Started totalBits k ∧ k.nodesize = env.bddPrimeGte 10000 :=
    bddSetvarnum_spec (by decide) (by decide) (by decide) (by decide)
  refine ⟨k, ?_, hs, hsize⟩
  have hvars : ∀ n off, n + off ≤ totalBits → (List.range n).mapM
      (fun i => Kernel.bddIthvar (i + off)) k =
        .ok ((List.range n).map fun i => bddIthvar (i + off), k) := fun n off hle => by
    have hlt : ∀ i ∈ List.range n, i + off < totalBits := fun i hi => by
      have := List.mem_range.mp hi
      omega
    rw [mapM_bddIthvar hs off _ hlt, List.map_congr_left fun i hi => (if_pos (hlt i hi)).symm]
    rfl
  have hsrcIP := hvars ipBits 0 (by decide)
  simp only [Nat.add_zero] at hsrcIP
  simp only [Kernel.initFieldVar, bind, StateT.bind, hrun, Except.bind, hsrcIP,
    hvars ipBits ipBits (by decide), hvars portBits (ipBits + ipBits) (by decide),
    hvars portBits (ipBits + ipBits + portBits) (by decide),
    hvars protocolBits (ipBits + ipBits + portBits + portBits) (by decide)]
  rfl

/-- **The variables**: the five fields hold the variables of the packet in order, each behind a node
that is never reclaimed and is followed by the node of its negation. -/
theorem initFieldVar_literals (env : Env) :
    ∃ f k, Kernel.initFieldVar env (Kernel.bddInit env 10000 10000) = .ok (f, k) ∧ k.Idle ∧
      (f.srcIP ++ f.dstIP ++ f.srcPort ++ f.dstPort ++ f.protocol).length = totalBits ∧
      ∀ (i : Nat) (h : Handle),
        (f.srcIP ++ f.dstIP ++ f.srcPort ++ f.dstPort ++ f.protocol)[i]? = some h →
        k.refcou h = MAXREF ∧ k.refcou (h + 1) = MAXREF ∧ ∃ d d', k.Denotes h d ∧
          k.Denotes (h + 1) d' ∧ ∀ v, d.eval v = v i ∧ d'.eval v = !v i := by
  obtain ⟨k, hrun, hs, -⟩ := initFieldVar_eq env
  have hlist : initFieldVar.srcIP ++ initFieldVar.dstIP ++ initFieldVar.srcPort ++
      initFieldVar.dstPort ++ initFieldVar.protocol =
        (List.range totalBits).map fun i => 2 * i + 2 := by decide
  refine ⟨_, k, hrun, hs.idle, by rw [hlist, List.length_map, List.length_range], ?_⟩
  intro i h hh
  rw [hlist, List.getElem?_map, Option.map_eq_some_iff] at hh
  obtain ⟨j, hj, rfl⟩ := hh
  obtain ⟨hi, rfl⟩ := List.getElem?_eq_some_iff.mp hj
  rw [List.length_range] at hi
  rw [List.getElem_range]
  have hpos := (hs.node_iff (2 * i + 2) i 0 1).mpr ⟨hi, Or.inl ⟨rfl, rfl, rfl⟩⟩
  have hneg := (hs.node_iff (2 * i + 2 + 1) i 1 0).mpr ⟨hi, Or.inr ⟨rfl, rfl, rfl⟩⟩
  refine ⟨by rw [hs.refcou, if_pos (by omega)], by rw [hs.refcou, if_pos (by omega)], _, _,
    .node hpos .zero .one, .node hneg .one .zero, fun v => ?_⟩
  cases hv : v i <;> simp [hv]

/-! ### Functions of packets -/

/-- Between two calls of the classifier. -/
structure Kernel.Settled (k : Kernel) : Prop extends k.Idle where
  varnum : k.varnum = totalBits

/-- The node is counted, and its function is true of the packets that satisfy the predicate. -/
def Kernel.Accepts (k : Kernel) (h : Handle) (P : Packet → Prop) : Prop :=
  0 < k.refcou h ∧ ∃ D, k.Denotes h D ∧ ∀ packet : Packet, D.eval packet.assignment = true ↔ P packet

/-- Set the package up, then run the program. -/
def Kernel.started {β : Type} (env : Env) (p : KernelM β) : Except KFault (β × Kernel) :=
  (Kernel.initFieldVar env >>= fun _ => p) (Kernel.bddInit env 10000 10000)

theorem started_eq {env : Env} {β : Type} {p : KernelM β} {f : Fields} {k : Kernel}
    (hinit : Kernel.initFieldVar env (Kernel.bddInit env 10000 10000) = .ok (f, k)) :
    Kernel.started env p = p k := by
  show (Kernel.initFieldVar env (Kernel.bddInit env 10000 10000)).bind (fun x => p x.2) = p k
  rw [hinit]
  rfl

theorem Implements.run {env : Env} {β : Type} {m : BddM β} {p : KernelM β}
    (hi : Implements env m p) {Q : β → Multiset (Handle × Bdd) → Prop} {E : CFault → Prop}
    (ht : Triple discipline 0 m Q E) :
    (∃ e, Kernel.started env p = .error e ∧ (Exhausted env (env.bddPrimeGte 10000) e ∨ ∃ e', e = .client e' ∧ E e')) ∨
      ∃ b k, Kernel.started env p = .ok (b, k) ∧ k.Settled ∧ ∃ B, Q b B ∧
        ∀ q ∈ B, k.Denotes q.1 q.2.diagram ∧ 0 < k.refcou q.1 := by
  obtain ⟨k₀, hinit, hs, hsize⟩ := initFieldVar_eq env
  rw [started_eq hinit, ← hsize]
  rcases hi.triple ht hs with hX | ⟨b, k, s, hp, hR, B, hQ, ho⟩
  · exact Or.inl hX
  · exact Or.inr ⟨b, k, hp, ⟨hR.idle, hR.varnum⟩, B, hQ, fun q hq => hR.owned ho hq⟩

theorem consistent_perm {table table' : List Prefix} (hp : table.Perm table')
    (hcons : Consistent table) : Consistent table' := by
  intro e he e' he'
  exact hcons e (hp.mem_iff.mpr he) e' (hp.mem_iff.mpr he')

theorem FwInv.longestMatch {table : List Prefix} {uniPort : Nat} {qsort : Qsort} {fw : Forwarding}
    {vf : Bdd} {slots : List (Handle × Bdd)} (hinv : FwInv uniPort (qsort.sort table) fw vf slots)
    (hcons : Consistent table) {i : Nat} {q : Handle × Bdd} (hq : slots[i]? = some q)
    (packet : Packet) :
    q.2.eval packet.assignment = true ↔ LongestMatch table packet.dstIP i := by
  have hp := qsort.perm table
  have hcons' : Consistent (qsort.sort table) := consistent_perm hp.symm hcons
  rw [← longestMatch_perm hp, ← selects_iff_longestMatch (qsort.sorted _) hcons', hinv.slot i q hq]
  exact selects_congr fun e _ => topBits_covers e packet

end AtomicPredicate
