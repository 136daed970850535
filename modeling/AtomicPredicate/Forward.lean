import AtomicPredicate.Encode
import AtomicPredicate.Lib.FirstMatch

/-!
# Forwarding predicates

`comPrefixLen`, `getfwbdds` and `computeFWBDDs` from `bddwrapper.c`. `qsort` is any function that
permutes its input into an order the comparator accepts, so entries of equal length may be left in
every order.

The loop keeps the union of the entries read and, for each port, what its entries were the first to
cover (`FwInv`); the counter runs ahead of the ports that have a predicate when a port starts with an
entry that is already covered (`FwCount`). From the invariant, `getfwbdds` partitions the addresses by first match, and on a table
sorted by length this is longest-prefix match.

The variables of `getfwbdds` that live across its operations, `fwded` and the slots, are held as
roots at each operation.
-/

namespace AtomicPredicate

open Lib

/-! ### The code -/

def comPrefixLen (a b : Prefix) : Int := (b.len.toNat : Int) - a.len.toNat

/-- The standard library's sort, with the comparator of this program. -/
structure Qsort where
  sort : List Prefix → List Prefix
  perm : ∀ l, (sort l).Perm l
  sorted : ∀ l, (sort l).Pairwise fun a b => comPrefixLen a b ≤ 0

/-- The variables of `getfwbdds` that its loop updates. -/
structure Forwarding where
  fwded : Handle
  fwdbdds : List Handle
  fwdPredicateSize : Nat

/-- Add `toadd` to the predicate of a port. A slot is taken to be empty when it is `0`. -/
def mergePort (fw : Forwarding) (portID : Nat) (toadd : Handle) : BddM Forwarding := do
  match fw.fwdbdds[portID]? with
  | none => throw (.client .index)
  | some oldbdd =>
    if oldbdd ≠ 0 then
      let newbdd ← holding (fw.fwded :: fw.fwdbdds) (bddApply oldbdd toadd .or >>= bddAddref)
      holding (fw.fwded :: fw.fwdbdds) (bddDelref toadd)
      holding (fw.fwded :: fw.fwdbdds) (bddDelref oldbdd)
      return { fw with fwdbdds := fw.fwdbdds.set portID newbdd }
    else
      return { fw with
        fwdbdds := fw.fwdbdds.set portID toadd
        fwdPredicateSize := fw.fwdPredicateSize + 1 }

def forwardStep (fw : Forwarding) (entry : Prefix) : BddM Forwarding := do
  let held := fw.fwded :: fw.fwdbdds
  let entrybdd ← holding held (encodeDstIPPrefix entry.ip entry.len)
  let notFwded ← holding held (bddNot fw.fwded >>= bddAddref)
  let toadd ← holding held (bddApply entrybdd notFwded .and >>= bddAddref)
  holding held (bddDelref notFwded)
  let altmp ← holding held (bddApply fw.fwded entrybdd .or >>= bddAddref)
  holding held (bddDelref fw.fwded)
  holding (altmp :: fw.fwdbdds) (bddDelref entrybdd)
  mergePort { fw with fwded := altmp } entry.portID.toNat toadd

def getfwbdds (varInit : Bool) (fwdPredicateSize : Nat) (table : List Prefix) (uniPort : Nat) :
    BddM (List Handle × Nat) := do
  if varInit then
    let fw ← table.foldlM forwardStep ⟨bddfalse, List.replicate uniPort 0, fwdPredicateSize⟩
    return (fw.fwdbdds, fw.fwdPredicateSize)
  else throw (.client .exit)

def computeFWBDDs (qsort : Qsort) (d : Device) (tableID : Nat) : BddM (List Handle × Device) := do
  match d.routers[tableID]? with
  | none => throw (.client .index)
  | some r =>
    let table := qsort.sort r.prefixTable
    let (fwdbdds, size) ← getfwbdds d.varInit d.fwdPredicateSize table r.uniPort
    return (fwdbdds, { d with
      routers := d.routers.set tableID { r with prefixTable := table }
      fwdPredicateSize := size })

/-! ### What entries cover -/

/-- The entry and the address agree on the top `len` bits. -/
def Prefix.Covers (e : Prefix) (a : BitVec 32) : Prop :=
  ∀ i, 32 - e.len.toNat ≤ i → i < 32 → a.getLsbD i = e.ip.getLsbD i

theorem topBits_covers (e : Prefix) (p : Packet) :
    TopBits 32 32 e.ip e.len.toNat p.assignment ↔ e.Covers p.dstIP :=
  topBits_iff_bits (fieldAt_dstIP p) e.ip

def Prefix.hit (e : Prefix) (env : Nat → Bool) : Prop := TopBits 32 32 e.ip e.len.toNat env

/-- The loop neither shifts nor indexes out of bounds. -/
def Prefix.Fine (uniPort : Nat) (e : Prefix) : Prop := e.len.toNat ≤ 32 ∧ e.portID.toNat < uniPort

/-! ### The loop -/

section

variable {E : CFault → Prop}

theorem set_slot {β : Type} {slots : List β} {i : Nat} {p : β} (hp : slots[i]? = some p) :
    ∃ rest : Multiset β, (slots : Multiset β) = {p} + rest ∧
      ∀ q, ((slots.set i q : List β) : Multiset β) = {q} + rest := by
  obtain ⟨hi, rfl⟩ := List.getElem?_eq_some_iff.mp hp
  refine ⟨slots.eraseIdx i, ?_, fun q => ?_⟩
  · rw [Multiset.singleton_add, Multiset.cons_coe, Multiset.coe_eq_coe]
    exact (List.getElem_cons_eraseIdx_perm hi).symm
  · rw [Multiset.singleton_add, Multiset.cons_coe, Multiset.coe_eq_coe]
    exact List.set_perm_cons_eraseIdx hi q

theorem held_of {fwded : Handle} {vf : Bdd} {slots : List (Handle × Bdd)}
    {A : Multiset (Handle × Bdd)} (X : Multiset (Handle × Bdd))
    (hA : A = {(fwded, vf)} + (slots : Multiset (Handle × Bdd)) + X) :
    ∀ h ∈ fwded :: slots.map Prod.fst, ∃ v, (h, v) ∈ A := by
  apply mem_handles ((fwded, vf) :: slots) X
  rw [hA, Multiset.singleton_add, Multiset.cons_coe]

theorem mergePort_triple (fw : Forwarding) (slots : List (Handle × Bdd)) {portID : Nat}
    {toadd : Handle} {vf vt : Bdd} (hslots : fw.fwdbdds = slots.map Prod.fst)
    (hE : slots.length ≤ portID → E .index) :
    Triple discipline ({(fw.fwded, vf)} + slots + {(toadd, vt)}) (mergePort fw portID toadd)
      (fun fw' B => ∃ (p : Handle × Bdd) (h' : Handle) (w : Bdd), slots[portID]? = some p ∧
        fw'.fwded = fw.fwded ∧ fw'.fwdbdds = (slots.set portID (h', w)).map Prod.fst ∧
        B = {(fw.fwded, vf)} + (slots.set portID (h', w) : List (Handle × Bdd)) ∧
        fw'.fwdPredicateSize = fw.fwdPredicateSize + (if p.2 = .const false then 1 else 0) ∧
        ∀ env, w.eval env = (p.2.eval env || vt.eval env)) E := by
  unfold mergePort
  rw [hslots, List.getElem?_map]
  cases hp : slots[portID]? with
  | none => exact Triple.throw (hE (List.getElem?_eq_none_iff.mp hp))
  | some p =>
    obtain ⟨oldbdd, vo⟩ := p
    obtain ⟨rest, hrest, hset⟩ := set_slot hp
    dsimp only [Option.map_some]
    refine Triple.identify fun hiff => ?_
    have hzero : oldbdd = 0 ↔ vo = .const false :=
      hiff (oldbdd, vo) (by simp [hrest]) _ mem_permanent_false
    by_cases hold : oldbdd ≠ 0
    · rw [if_pos hold]
      refine Triple.seqOperate₂ (a := vo) (b := vt) ({(fw.fwded, vf)} + rest)
        (by rw [hrest]; abel) (held_of {(toadd, vt)} rfl) ?_
      intro newbdd vn hvn
      refine Triple.seqDelref vt ({(fw.fwded, vf)} + slots + {(newbdd, vn)}) (by abel)
        (held_of ({(toadd, vt)} + {(newbdd, vn)}) (by abel)) ?_
      refine Triple.seqDelref vo ({(fw.fwded, vf)} + rest + {(newbdd, vn)}) (by rw [hrest]; abel)
        (held_of {(newbdd, vn)} rfl) ?_
      refine Triple.pure ⟨_, newbdd, vn, rfl, rfl, ?_, ?_, ?_, ?_⟩
      · rw [List.map_set]
      · rw [hset]
        abel
      · rw [if_neg (fun hvo => hold (hzero.mpr hvo)), Nat.add_zero]
      · rw [hvn]
        exact BddOp.eval_or vo vt
    · rw [if_neg hold]
      obtain rfl : oldbdd = 0 := not_not.mp hold
      obtain rfl : vo = .const false := hzero.mp rfl
      rw [hrest, show {(fw.fwded, vf)} + ({((0 : Handle), Robdd.const false)} + rest) +
          {(toadd, vt)} = {(0, Robdd.const false)} + ({(fw.fwded, vf)} + ({(toadd, vt)} + rest)) by
        abel]
      refine Triple.discard mem_permanent_false
        (Triple.pure ⟨_, toadd, vt, rfl, rfl, ?_, ?_, ?_, ?_⟩)
      · rw [List.map_set]
      · rw [hset]
      · rw [if_pos rfl]
      · simp

/-- **One round**: `fwded` gains the entry, and the port what of it was not forwarded yet. -/
theorem forwardStep_triple {fw : Forwarding} {slots : List (Handle × Bdd)} {vf : Bdd}
    (hslots : fw.fwdbdds = slots.map Prod.fst) (e : Prefix)
    (hE : ∀ c, ¬ e.Fine slots.length → E c) :
    Triple discipline ({(fw.fwded, vf)} + slots) (forwardStep fw e)
      (fun fw' B => ∃ (p : Handle × Bdd) (h' : Handle) (w vf' : Bdd), e.len.toNat ≤ 32 ∧
        slots[e.portID.toNat]? = some p ∧
        fw'.fwdbdds = (slots.set e.portID.toNat (h', w)).map Prod.fst ∧
        B = {(fw'.fwded, vf')} + (slots.set e.portID.toNat (h', w) : List (Handle × Bdd)) ∧
        fw'.fwdPredicateSize = fw.fwdPredicateSize + (if p.2 = .const false then 1 else 0) ∧
        (∀ env, vf'.eval env = true ↔ vf.eval env = true ∨ e.hit env) ∧
        ∀ env, w.eval env = true ↔ p.2.eval env = true ∨ (e.hit env ∧ ¬ vf.eval env = true)) E := by
  unfold forwardStep
  rw [hslots]
  refine Triple.seqHolding _ ({(fw.fwded, vf)} + slots) (held_of 0 (by rw [add_zero]))
    (by rw [zero_add]) (Triple.conseq rfl (encodeField_triple varsAt_dstIP (by norm_num) e.ip e.len)
      (fun _ _ h => h) fun c hc => hE c fun hfine => by have := hfine.1; omega) ?_
  intro entrybdd B hB
  obtain ⟨hlen, ve, rfl, hve⟩ := hB
  refine Triple.seqOperate₁ (v := vf) (slots + {(entrybdd, ve)}) (by abel)
    (held_of {(entrybdd, ve)} (by abel)) ?_
  intro notFwded vn hvn
  refine Triple.seqOperate₂ (a := ve) (b := vn) ({(fw.fwded, vf)} + slots) (by abel)
    (held_of ({(entrybdd, ve)} + {(notFwded, vn)}) (by abel)) ?_
  intro toadd vt hvt
  refine Triple.seqDelref vn ({(fw.fwded, vf)} + slots + {(entrybdd, ve)} + {(toadd, vt)}) (by abel)
    (held_of ({(entrybdd, ve)} + {(notFwded, vn)} + {(toadd, vt)}) (by abel)) ?_
  refine Triple.seqOperate₂ (a := vf) (b := ve) (slots + {(toadd, vt)}) (by abel)
    (held_of ({(entrybdd, ve)} + {(toadd, vt)}) (by abel)) ?_
  intro altmp va hva
  refine Triple.seqDelref vf (slots + {(altmp, va)} + {(entrybdd, ve)} + {(toadd, vt)}) (by abel)
    (held_of ({(altmp, va)} + {(entrybdd, ve)} + {(toadd, vt)}) (by abel)) ?_
  refine Triple.seqDelref ve ({(altmp, va)} + slots + {(toadd, vt)}) (by abel)
    (held_of ({(entrybdd, ve)} + {(toadd, vt)}) (by abel)) ?_
  refine Triple.post (mergePort_triple ⟨altmp, slots.map Prod.fst, fw.fwdPredicateSize⟩ slots rfl ?_) ?_
  · exact fun hle => hE _ fun hfine => absurd hfine.2 (not_lt.mpr hle)
  intro fw' B hB
  obtain ⟨p, h', w, hp, hfw, hfwd, rfl, hsize, hw⟩ := hB
  refine ⟨p, h', w, va, hlen, hp, hfwd, by rw [hfw], hsize, fun env => ?_, fun env => ?_⟩
  · rw [hva, BddOp.eval_or, Bool.or_eq_true, hve]
    rfl
  · rw [hw, hvt, hvn, BddOp.eval_and, Robdd.eval_neg, Bool.or_eq_true, Bool.and_eq_true, hve,
      Bool.not_eq_true', Bool.not_eq_true]
    rfl

/-- The state of the loop after the entries `done`: `fwded` is their union, and each slot holds
what its port was the first to cover. -/
structure FwInv (uniPort : Nat) (done : List Prefix) (fw : Forwarding) (vf : Bdd)
    (slots : List (Handle × Bdd)) : Prop where
  fine : ∀ e ∈ done, e.Fine uniPort
  length : slots.length = uniPort
  fwdbdds : fw.fwdbdds = slots.map Prod.fst
  fwded : ∀ env, vf.eval env = true ↔ ∃ e ∈ done, e.hit env
  slot : ∀ i p, slots[i]? = some p →
    ∀ env, p.2.eval env = true ↔ Selects Prefix.hit (fun e => e.portID.toNat = i) done env

theorem FwInv.init (uniPort size : Nat) : FwInv uniPort []
    ⟨bddfalse, List.replicate uniPort 0, size⟩ (.const false)
    (List.replicate uniPort (0, .const false)) where
  fine := by simp
  length := List.length_replicate
  fwdbdds := by rw [List.map_replicate]
  fwded env := by simp
  slot i p hp env := by
    obtain ⟨-, rfl⟩ := List.mem_replicate.mp (List.mem_of_getElem? hp)
    simp [not_selects_nil]

theorem FwInv.step {uniPort : Nat} {done : List Prefix} {fw fw' : Forwarding} {vf vf' w : Bdd}
    {slots : List (Handle × Bdd)} {e : Prefix} {p : Handle × Bdd} {h' : Handle}
    (hinv : FwInv uniPort done fw vf slots) (hlen : e.len.toNat ≤ 32)
    (hp : slots[e.portID.toNat]? = some p)
    (hfwd : fw'.fwdbdds = (slots.set e.portID.toNat (h', w)).map Prod.fst)
    (hvf : ∀ env, vf'.eval env = true ↔ vf.eval env = true ∨ e.hit env)
    (hw : ∀ env, w.eval env = true ↔ p.2.eval env = true ∨ (e.hit env ∧ ¬ vf.eval env = true)) :
    FwInv uniPort (done ++ [e]) fw' vf' (slots.set e.portID.toNat (h', w)) where
  fine q hq := by
    rcases List.mem_append.mp hq with hq | hq
    · exact hinv.fine q hq
    · obtain rfl := List.mem_singleton.mp hq
      have := (List.getElem?_eq_some_iff.mp hp).1
      exact ⟨hlen, hinv.length ▸ this⟩
  length := by rw [List.length_set, hinv.length]
  fwdbdds := hfwd
  fwded env := by
    rw [hvf, hinv.fwded]
    simp only [List.mem_append, List.mem_singleton, or_and_right, exists_or, exists_eq_left]
  slot i q hq env := by
    rw [selects_append, ← hinv.fwded]
    rw [List.getElem?_set] at hq
    by_cases hi : e.portID.toNat = i
    · subst hi
      rw [if_pos rfl, if_pos (List.getElem?_eq_some_iff.mp hp).1] at hq
      obtain rfl := Option.some.inj hq
      rw [hw, hinv.slot _ p hp env]
      simp
    · rw [if_neg hi] at hq
      rw [hinv.slot i q hq env]
      simp [hi]

def predicates (slots : List (Handle × Bdd)) : Nat :=
  slots.countP fun p => decide (p.2 ≠ .const false)

theorem predicates_set {slots : List (Handle × Bdd)} {i : Nat} {p : Handle × Bdd}
    (hp : slots[i]? = some p) (h' : Handle) (w : Bdd) :
    predicates (slots.set i (h', w)) + (if p.2 = .const false then 0 else 1) =
      predicates slots + (if w = .const false then 0 else 1) := by
  obtain ⟨hlt, rfl⟩ := List.getElem?_eq_some_iff.mp hp
  have hle := List.boole_getElem_le_countP (p := fun p : Handle × Bdd =>
    decide (p.2 ≠ .const false)) hlt
  unfold predicates
  rw [List.countP_set hlt]
  simp only [ne_eq, decide_not, Bool.not_eq_eq_eq_not, Bool.not_true, decide_eq_false_iff_not,
    ite_not] at hle ⊢
  omega

/-- The counter after the entries `done`: one for each port with a predicate, and `extra` ones,
which there are unless every port starts with an entry that no earlier entry covers. -/
def FwCount (size : Nat) (done : List Prefix) (fw : Forwarding)
    (slots : List (Handle × Bdd)) : Prop :=
  ∃ extra, fw.fwdPredicateSize = size + predicates slots + extra ∧
    (extra = 0 ↔ FirstNew Prefix.hit (fun e => e.portID.toNat) done)

theorem FwCount.init (uniPort size : Nat) : FwCount size []
    ⟨bddfalse, List.replicate uniPort 0, size⟩ (List.replicate uniPort (0, .const false)) :=
  ⟨0, by simp [predicates, List.countP_replicate], by simp [firstNew_nil]⟩

theorem FwInv.merged_ne_false {uniPort : Nat} {done : List Prefix} {fw : Forwarding} {vf w v : Bdd}
    {slots : List (Handle × Bdd)} {e : Prefix} (hinv : FwInv uniPort done fw vf slots)
    (hw : ∀ env, w.eval env = true ↔ v.eval env = true ∨ (e.hit env ∧ ¬ vf.eval env = true)) :
    w ≠ .const false ↔ v ≠ .const false ∨ ∃ env, e.hit env ∧ ∀ q ∈ done, ¬ q.hit env := by
  rw [Robdd.ne_false_iff, Robdd.ne_false_iff, ← exists_or]
  refine exists_congr fun env => ?_
  rw [hw, hinv.fwded]
  simp only [not_exists, not_and]

theorem FwCount.step {uniPort size : Nat} {done : List Prefix} {fw fw' : Forwarding} {vf w : Bdd}
    {slots : List (Handle × Bdd)} {e : Prefix} {p : Handle × Bdd} {h' : Handle}
    (hcount : FwCount size done fw slots) (hinv : FwInv uniPort done fw vf slots)
    (hp : slots[e.portID.toNat]? = some p)
    (hsize : fw'.fwdPredicateSize = fw.fwdPredicateSize + if p.2 = .const false then 1 else 0)
    (hw : ∀ env, w.eval env = true ↔ p.2.eval env = true ∨ (e.hit env ∧ ¬ vf.eval env = true)) :
    FwCount size (done ++ [e]) fw' (slots.set e.portID.toNat (h', w)) := by
  obtain ⟨extra, htotal, hextra⟩ := hcount
  have hmerged := hinv.merged_ne_false hw
  have hslot := hinv.slot _ p hp
  have hset := predicates_set hp h' w
  unfold FwCount
  rw [firstNew_append, ← hextra]
  by_cases hold : p.2 = .const false
  · -- nothing is selected for the port yet, so its first entry was shadowed, if it had one
    have hnone : extra = 0 → ∀ q ∈ done, q.portID.toNat ≠ e.portID.toNat := by
      intro h0 q hq hport
      obtain ⟨env, hsel⟩ := (hextra.mp h0).selects ⟨q, hq, hport⟩
      rw [← hslot, hold] at hsel
      simp at hsel
    rw [if_pos hold] at hsize hset
    by_cases hnew : ∃ env, e.hit env ∧ ∀ q ∈ done, ¬ q.hit env
    · rw [if_neg (hmerged.mpr (Or.inr hnew))] at hset
      exact ⟨extra, by omega, fun h0 => ⟨h0, fun _ => hnew⟩, fun h => h.1⟩
    · have hw' : w = .const false := by
        by_contra hne
        exact (hmerged.mp hne).elim (fun h => h hold) hnew
      rw [if_pos hw'] at hset
      refine ⟨extra + 1, by omega, fun h0 => ?_, fun h => ?_⟩
      · omega
      · exact absurd (h.2 (hnone h.1)) hnew
  · -- the port has a predicate, so an entry of it is among `done`
    obtain ⟨env, hsel⟩ := Robdd.ne_false_iff.mp hold
    obtain ⟨q, hq, hport, -⟩ := ((hslot env).mp hsel).exists_mem
    rw [if_neg hold] at hsize hset
    rw [if_neg (hmerged.mpr (Or.inl hold))] at hset
    exact ⟨extra, by omega, fun h0 => ⟨h0, fun hall => absurd hport (hall q hq)⟩, fun h => h.1⟩

/-- **The loop of `getfwbdds`** on any table: it fails only on an entry that is out of range. -/
theorem getfwbdds_triple (varInit : Bool) (size : Nat) (table : List Prefix) (uniPort : Nat) :
    Triple discipline 0 (getfwbdds varInit size table uniPort)
      (fun res B => ∃ (fw : Forwarding) (vf : Bdd) (slots : List (Handle × Bdd)),
        res = (fw.fwdbdds, fw.fwdPredicateSize) ∧ B = {(fw.fwded, vf)} + slots ∧
          FwInv uniPort table fw vf slots ∧ FwCount size table fw slots)
      (fun _ => varInit = false ∨ ∃ e ∈ table, ¬ e.Fine uniPort) := by
  unfold getfwbdds
  cases varInit with
  | false => exact Triple.throw (Or.inl rfl)
  | true =>
    rw [if_pos rfl]
    refine Triple.permanents (List.replicate uniPort (0, .const false)) (fun p hp => ?_) ?_
    · obtain ⟨-, rfl⟩ := List.mem_replicate.mp hp
      exact mem_permanent_false
    refine Triple.permanent mem_permanent_false ?_
    rw [add_zero]
    refine Triple.bind (Triple.foldlM table
      (fun done fw B => ∃ (vf : Bdd) (slots : List (Handle × Bdd)),
        B = {(fw.fwded, vf)} + (slots : Multiset (Handle × Bdd)) ∧
          FwInv uniPort done fw vf slots ∧ FwCount size done fw slots) ?_ ?_) ?_
    · intro done e rest fw B hsplit hB
      obtain ⟨vf, slots, rfl, hinv, hcount⟩ := hB
      refine Triple.post (forwardStep_triple hinv.fwdbdds e fun c hfine => ?_) ?_
      · exact Or.inr ⟨e, by simp [hsplit], hinv.length ▸ hfine⟩
      · intro fw' B hB
        obtain ⟨p, h', w, vf', hlen, hp, hfwd, rfl, hsize, hvf, hw⟩ := hB
        exact ⟨vf', _, rfl, hinv.step hlen hp hfwd hvf hw, hcount.step hinv hp hsize hw⟩
    · exact ⟨_, _, rfl, FwInv.init uniPort size, FwCount.init uniPort size⟩
    · intro fw B hB
      obtain ⟨vf, slots, rfl, hinv, hcount⟩ := hB
      exact Triple.pure ⟨fw, vf, slots, rfl, rfl, hinv, hcount⟩

def Device.sorted (d : Device) (qsort : Qsort) (tableID : Nat) (r : Router) (size : Nat) : Device :=
  { d with
    routers := d.routers.set tableID { r with prefixTable := qsort.sort r.prefixTable }
    fwdPredicateSize := size }

/-- The table can be converted: the variables are set up and every entry is in range. -/
def Device.FwFine (d : Device) (tableID : Nat) : Prop :=
  d.varInit = true ∧ ∃ r, d.routers[tableID]? = some r ∧ ∀ e ∈ r.prefixTable, e.Fine r.uniPort

theorem computeFWBDDs_triple (qsort : Qsort) (d : Device) (tableID : Nat) :
    Triple discipline 0 (computeFWBDDs qsort d tableID)
      (fun res B => ∃ (r : Router) (fw : Forwarding) (vf : Bdd) (slots : List (Handle × Bdd)),
        d.routers[tableID]? = some r ∧
          res = (fw.fwdbdds, d.sorted qsort tableID r fw.fwdPredicateSize) ∧
          B = {(fw.fwded, vf)} + slots ∧
          FwInv r.uniPort (qsort.sort r.prefixTable) fw vf slots)
      (fun _ => ¬ d.FwFine tableID) := by
  unfold computeFWBDDs
  cases hr : d.routers[tableID]? with
  | none =>
    refine Triple.throw fun hfine => ?_
    obtain ⟨-, r, hr', -⟩ := hfine
    simp [hr] at hr'
  | some r =>
    refine Triple.bind (Triple.conseq rfl (getfwbdds_triple d.varInit d.fwdPredicateSize
      (qsort.sort r.prefixTable) r.uniPort) (fun _ _ h => h) fun c hc hfine => ?_) ?_
    · obtain ⟨hinit, r', hr', hall⟩ := hfine
      obtain rfl : r = r' := Option.some.inj (hr.symm.trans hr')
      rcases hc with hc | ⟨e, he, hnot⟩
      · simp [hinit] at hc
      · exact hnot (hall e ((qsort.perm _).mem_iff.mp he))
    · intro res B hB
      obtain ⟨fw, vf, slots, rfl, hB, hinv, -⟩ := hB
      exact Triple.pure ⟨r, fw, vf, slots, rfl, rfl, hB, hinv⟩

end

/-! ### First match -/

theorem FwInv.satisfies {uniPort : Nat} {table : List Prefix} {fw : Forwarding} {vf : Bdd}
    {slots : List (Handle × Bdd)} {s : Store Bdd} (hinv : FwInv uniPort table fw vf slots)
    (hval : ∀ p ∈ (slots : Multiset (Handle × Bdd)), s.value? p.1 = some p.2) :
    fw.fwdbdds.length = uniPort ∧ ∀ (i : Nat) (h : Handle), fw.fwdbdds[i]? = some h →
      ∀ p : Packet, Satisfies s h p ↔
        Selects Prefix.Covers (fun e => e.portID.toNat = i) table p.dstIP := by
  refine ⟨by rw [hinv.fwdbdds, List.length_map, hinv.length], fun i h hh p => ?_⟩
  rw [hinv.fwdbdds, List.getElem?_map, Option.map_eq_some_iff] at hh
  obtain ⟨⟨h, v⟩, hslot, rfl⟩ := hh
  rw [Satisfies, evalHandle_eq (hval (h, v) (List.mem_of_getElem? hslot)), hinv.slot i _ hslot]
  exact selects_congr fun e _ => topBits_covers e p

theorem getfwbdds_run (size : Nat) {table : List Prefix} {uniPort : Nat}
    (hfine : ∀ e ∈ table, e.Fine uniPort) (σ : Session) :
    ∃ fwdbdds size' s', getfwbdds true size table uniPort σ.store = .ok ((fwdbdds, size'), s') ∧
      fwdbdds.length = uniPort ∧ ∀ (i : Nat) (h : Handle), fwdbdds[i]? = some h → ∀ p : Packet,
        Satisfies s' h p ↔ Selects Prefix.Covers (fun e => e.portID.toNat = i) table p.dstIP := by
  rcases run_session (getfwbdds_triple true size table uniPort) σ with
    ⟨_, s', _, hrun, ⟨fw, vf, slots, rfl, rfl, hinv, -⟩, hval, -⟩ | ⟨c, -, hc⟩
  · exact ⟨_, _, s', hrun, hinv.satisfies fun p hp => hval p (Multiset.mem_add.mpr (Or.inr hp))⟩
  · rcases hc with hc | ⟨q, hq, hnot⟩
    · exact absurd hc (by decide)
    · exact absurd (hfine q hq) hnot

/-- **`getfwbdds` partitions by first match**: a port's predicate accepts the addresses whose first
covering entry leads to it, so the predicates are disjoint and their union is the union of the
entries. -/
theorem getfwbdds_firstMatch (size : Nat) (table : List Prefix) (uniPort : Nat)
    (hlen : ∀ e ∈ table, e.len.toNat ≤ 32) (hport : ∀ e ∈ table, e.portID.toNat < uniPort)
    (σ : Session) :
    ∃ fwdbdds size' s', getfwbdds true size table uniPort σ.store = .ok ((fwdbdds, size'), s') ∧
      fwdbdds.length = uniPort ∧
      (∀ (i : Nat) (h : Handle), fwdbdds[i]? = some h → ∀ p : Packet, Satisfies s' h p ↔
        ∃ e, FirstHit Prefix.Covers table p.dstIP e ∧ e.portID.toNat = i) ∧
      (∀ (i j : Nat) (h h' : Handle), i ≠ j → fwdbdds[i]? = some h → fwdbdds[j]? = some h' →
        ∀ p : Packet, ¬ (Satisfies s' h p ∧ Satisfies s' h' p)) ∧
      ∀ p : Packet, (∃ h ∈ fwdbdds, Satisfies s' h p) ↔ ∃ e ∈ table, e.Covers p.dstIP := by
  obtain ⟨fwdbdds, size', s', hrun, hlength, hsat⟩ :=
    getfwbdds_run size (fun e he => ⟨hlen e he, hport e he⟩) σ
  refine ⟨fwdbdds, size', s', hrun, hlength, hsat, ?_, fun p => ⟨?_, ?_⟩⟩
  · intro i j h h' hij hi hj p hboth
    rw [hsat i h hi, hsat j h' hj] at hboth
    refine hboth.1.disjoint (fun e hei hej => hij (hei.symm.trans hej)) hboth.2
  · intro hex
    obtain ⟨h, hmem, hp⟩ := hex
    obtain ⟨i, hi⟩ := List.mem_iff_getElem?.mp hmem
    obtain ⟨e, he, -, hcov⟩ := ((hsat i h hi p).mp hp).exists_mem
    exact ⟨e, he, hcov⟩
  · intro hex
    obtain ⟨e, he⟩ := exists_firstHit hex
    have hi : e.portID.toNat < fwdbdds.length := hlength ▸ hport e he.mem
    exact ⟨fwdbdds[e.portID.toNat], List.getElem_mem hi,
      (hsat _ _ (List.getElem?_eq_getElem hi) p).mpr ⟨e, he, rfl⟩⟩

/-- A shadowed entry first stores the constant false at port `1`, and a later entry overwrites
it. -/
theorem getfwbdds_firstMatch_shadowed :
    ∃ fwdbdds size' s', getfwbdds true 0 [⟨0x0A000000#32, 8, 0, []⟩, ⟨0x0A010000#32, 16, 1, []⟩,
        ⟨0#32, 0, 1, []⟩] 2 (Session.init Collector.eager).store = .ok ((fwdbdds, size'), s') ∧
      ∀ (i : Nat) (h : Handle), fwdbdds[i]? = some h → ∀ p : Packet, Satisfies s' h p ↔
        ∃ e, FirstHit Prefix.Covers [⟨0x0A000000#32, 8, 0, []⟩, ⟨0x0A010000#32, 16, 1, []⟩,
          ⟨0#32, 0, 1, []⟩] p.dstIP e ∧ e.portID.toNat = i := by
  obtain ⟨fwdbdds, size', s', hrun, -, hsat, -⟩ := getfwbdds_firstMatch 0
    [⟨0x0A000000#32, 8, 0, []⟩, ⟨0x0A010000#32, 16, 1, []⟩, ⟨0#32, 0, 1, []⟩] 2
    (by decide) (by decide) (Session.init Collector.eager)
  exact ⟨fwdbdds, size', s', hrun, hsat⟩

/-! ### Longest match -/

/-- Some entry covers the address, and the longest entries that cover it lead to the port. -/
def LongestMatch (table : List Prefix) (a : BitVec 32) (port : Nat) : Prop :=
  (∃ e ∈ table, e.Covers a) ∧
    ∀ e, Greatest Prefix.Covers (fun e => e.len.toNat) table a e → e.portID.toNat = port

theorem longestMatch_perm {table table' : List Prefix} (hp : table.Perm table') (a : BitVec 32)
    (port : Nat) : LongestMatch table a port ↔ LongestMatch table' a port := by
  constructor
  · intro h
    obtain ⟨⟨e, he, hcov⟩, hall⟩ := h
    exact ⟨⟨e, hp.mem_iff.mp he, hcov⟩, fun e he => hall e (he.perm hp.symm)⟩
  · intro h
    obtain ⟨⟨e, he, hcov⟩, hall⟩ := h
    exact ⟨⟨e, hp.mem_iff.mpr he, hcov⟩, fun e he => hall e (he.perm hp)⟩

/-- No two entries of one length cover an address in common and lead to different ports. -/
def Consistent (table : List Prefix) : Prop :=
  ∀ e ∈ table, ∀ e' ∈ table, e.len = e'.len → e.Covers e'.ip → e.portID = e'.portID

theorem Prefix.Covers.agree {e e' : Prefix} {a : BitVec 32} (h : e.Covers a) (h' : e'.Covers a)
    (hlen : e.len = e'.len) : e.Covers e'.ip := by
  intro i hi hi'
  rw [← h i hi hi', h' i (hlen ▸ hi) hi']

theorem Consistent.portID_eq {table : List Prefix} (hcons : Consistent table) {a : BitVec 32}
    {e e' : Prefix} (he : Greatest Prefix.Covers (fun e => e.len.toNat) table a e)
    (he' : Greatest Prefix.Covers (fun e => e.len.toNat) table a e') : e.portID = e'.portID := by
  have hlen : e.len = e'.len := BitVec.eq_of_toNat_eq
    (le_antisymm (he'.2.2 e he.1 he.2.1) (he.2.2 e' he'.1 he'.2.1))
  exact hcons e he.1 e' he'.1 hlen (he.2.1.agree he'.2.1 hlen)

theorem selects_iff_longestMatch {table : List Prefix}
    (hsorted : table.Pairwise fun a b => comPrefixLen a b ≤ 0) (hcons : Consistent table)
    (a : BitVec 32) (port : Nat) :
    Selects Prefix.Covers (fun e => e.portID.toNat = port) table a ↔ LongestMatch table a port := by
  refine selects_iff_greatest (hsorted.imp fun hle => ?_) fun e e' he he' => ?_
  · unfold comPrefixLen at hle
    omega
  · rw [hcons.portID_eq he he']

theorem Consistent.longestMatch_iff {table : List Prefix} (hcons : Consistent table) {a : BitVec 32}
    {e : Prefix} (he : Greatest Prefix.Covers (fun e => e.len.toNat) table a e) (port : Nat) :
    LongestMatch table a port ↔ e.portID.toNat = port := by
  constructor
  · exact fun h => h.2 e he
  · intro hport
    exact ⟨⟨e, he.1, he.2.1⟩, fun e' he' => hcons.portID_eq he' he ▸ hport⟩

theorem computeFWBDDs_run (qsort : Qsort) {d : Device} {tableID : Nat} {r : Router}
    (hinit : d.varInit = true) (hr : d.routers[tableID]? = some r)
    (hfine : ∀ e ∈ r.prefixTable, e.Fine r.uniPort) (hcons : Consistent r.prefixTable)
    (σ : Session) :
    ∃ fwdbdds d' s', computeFWBDDs qsort d tableID σ.store = .ok ((fwdbdds, d'), s') ∧
      fwdbdds.length = r.uniPort ∧ ∀ (i : Nat) (h : Handle), fwdbdds[i]? = some h → ∀ p : Packet,
        Satisfies s' h p ↔ LongestMatch r.prefixTable p.dstIP i := by
  rcases run_session (computeFWBDDs_triple qsort d tableID) σ with
    ⟨_, s', _, hrun, ⟨r', fw, vf, slots, hr', rfl, rfl, hinv⟩, hval, -⟩ | ⟨c, -, hc⟩
  · obtain rfl : r = r' := Option.some.inj (hr.symm.trans hr')
    have hp := qsort.perm r.prefixTable
    have hcons' : Consistent (qsort.sort r.prefixTable) := fun e he e' he' =>
      hcons e (hp.mem_iff.mp he) e' (hp.mem_iff.mp he')
    obtain ⟨hlength, hsat⟩ :=
      hinv.satisfies fun p hp => hval p (Multiset.mem_add.mpr (Or.inr hp))
    refine ⟨_, _, s', hrun, hlength, fun i h hi p => ?_⟩
    rw [hsat i h hi, selects_iff_longestMatch (qsort.sorted _) hcons', longestMatch_perm hp]
  · exact absurd ⟨hinit, r, hr, hfine⟩ hc

/-- **`computeFWBDDs` is longest-prefix match**, whatever order `qsort` leaves equal lengths in, and
so the order of the route file does not matter. -/
theorem computeFWBDDs_longestMatch (qsort : Qsort) (d : Device) (tableID : Nat) {r : Router}
    (hinit : d.varInit = true) (hr : d.routers[tableID]? = some r)
    (hlen : ∀ e ∈ r.prefixTable, e.len.toNat ≤ 32)
    (hport : ∀ e ∈ r.prefixTable, e.portID.toNat < r.uniPort) (hcons : Consistent r.prefixTable)
    (σ : Session) :
    ∃ fwdbdds d' s', computeFWBDDs qsort d tableID σ.store = .ok ((fwdbdds, d'), s') ∧
      fwdbdds.length = r.uniPort ∧
      (∀ (i : Nat) (h : Handle), fwdbdds[i]? = some h → ∀ p : Packet, Satisfies s' h p ↔
        (∃ e ∈ r.prefixTable, e.Covers p.dstIP) ∧
          ∀ e, Greatest Prefix.Covers (fun e => e.len.toNat) r.prefixTable p.dstIP e →
            e.portID.toNat = i) ∧
      ∀ (qsort₂ : Qsort) (d₂ : Device) (tableID₂ : Nat) (r₂ : Router) (σ₂ : Session),
        d₂.varInit = true → d₂.routers[tableID₂]? = some r₂ →
        r.prefixTable.Perm r₂.prefixTable → r₂.uniPort = r.uniPort →
        ∃ fwdbdds₂ d₂' s₂', computeFWBDDs qsort₂ d₂ tableID₂ σ₂.store = .ok ((fwdbdds₂, d₂'), s₂') ∧
          ∀ (i : Nat) (h h₂ : Handle), fwdbdds[i]? = some h → fwdbdds₂[i]? = some h₂ →
            ∀ p : Packet, Satisfies s' h p ↔ Satisfies s₂' h₂ p := by
  have hfine : ∀ e ∈ r.prefixTable, e.Fine r.uniPort := fun e he => ⟨hlen e he, hport e he⟩
  obtain ⟨fwdbdds, d', s', hrun, hlength, hsat⟩ := computeFWBDDs_run qsort hinit hr hfine hcons σ
  refine ⟨fwdbdds, d', s', hrun, hlength, hsat, ?_⟩
  intro qsort₂ d₂ tableID₂ r₂ σ₂ hinit₂ hr₂ hp huni
  obtain ⟨fwdbdds₂, d₂', s₂', hrun₂, -, hsat₂⟩ := computeFWBDDs_run qsort₂ hinit₂ hr₂
    (fun e he => huni ▸ hfine e (hp.mem_iff.mpr he))
    (fun e he e' he' => hcons e (hp.mem_iff.mpr he) e' (hp.mem_iff.mpr he')) σ₂
  refine ⟨fwdbdds₂, d₂', s₂', hrun₂, fun i h h₂ hi hi₂ p => ?_⟩
  rw [hsat i h hi, hsat₂ i h₂ hi₂, longestMatch_perm hp]

def Qsort.merge : Qsort where
  sort l := l.mergeSort fun a b => decide (comPrefixLen a b ≤ 0)
  perm l := List.mergeSort_perm l _
  sorted l := by
    refine (List.pairwise_mergeSort (fun a b c hab hbc => ?_) (fun a b => ?_) l).imp fun h =>
      of_decide_eq_true h
    · rw [decide_eq_true_iff] at hab hbc ⊢
      unfold comPrefixLen at hab hbc ⊢
      omega
    · rw [Bool.or_eq_true, decide_eq_true_iff, decide_eq_true_iff]
      unfold comPrefixLen
      omega

/-- A default route, a network and a subnet of it, listed in an order that sorting changes. -/
def nestedRoutes : Device where
  routers := [⟨[⟨0#32, 0, 0, []⟩, ⟨0x0A000000#32, 8, 1, []⟩, ⟨0x0A010000#32, 16, 2, []⟩], 3, []⟩]
  varInit := true
  fwdPredicateSize := 0

theorem consistent_nestedRoutes : Consistent
    [⟨0#32, 0, 0, []⟩, ⟨0x0A000000#32, 8, 1, []⟩, ⟨0x0A010000#32, 16, 2, []⟩] := by
  intro e he e' he' hlen _
  simp only [List.mem_cons, List.not_mem_nil, or_false] at he he'
  rcases he with rfl | rfl | rfl <;> rcases he' with rfl | rfl | rfl <;> simp at hlen ⊢

instance (e : Prefix) (a : BitVec 32) : Decidable (e.Covers a) :=
  decidable_of_iff (∀ i < 32, 32 - e.len.toNat ≤ i → a.getLsbD i = e.ip.getLsbD i)
    ⟨fun h i hlow hi => h i hi hlow, fun h i hi hlow => h i hlow hi⟩

/-- An address of the subnet, one of the rest of the network, and one outside. -/
theorem computeFWBDDs_longestMatch_nested :
    ∃ fwdbdds d' s', computeFWBDDs Qsort.merge nestedRoutes 0 (Session.init Collector.eager).store =
      .ok ((fwdbdds, d'), s') ∧ fwdbdds.length = 3 ∧
      ∀ (i : Nat) (h : Handle), fwdbdds[i]? = some h → ∀ p : Packet,
        (p.dstIP = 0x0A010203 → (Satisfies s' h p ↔ i = 2)) ∧
        (p.dstIP = 0x0A020001 → (Satisfies s' h p ↔ i = 1)) ∧
        (p.dstIP = 0x0B000001 → (Satisfies s' h p ↔ i = 0)) := by
  obtain ⟨fwdbdds, d', s', hrun, hlength, hsat, -⟩ := computeFWBDDs_longestMatch Qsort.merge
    nestedRoutes 0 rfl rfl (by decide) (by decide) consistent_nestedRoutes
    (Session.init Collector.eager)
  refine ⟨fwdbdds, d', s', hrun, hlength, fun i h hi p => ?_⟩
  have hport : ∀ e, Greatest Prefix.Covers (fun e => e.len.toNat)
      [⟨0#32, 0, 0, []⟩, ⟨0x0A000000#32, 8, 1, []⟩, ⟨0x0A010000#32, 16, 2, []⟩] p.dstIP e →
      (Satisfies s' h p ↔ i = e.portID.toNat) := fun e he =>
    (hsat i h hi p).trans ((consistent_nestedRoutes.longestMatch_iff he i).trans eq_comm)
  refine ⟨fun ha => ?_, fun ha => ?_, fun ha => ?_⟩
  · exact hport ⟨0x0A010000#32, 16, 2, []⟩ (by rw [ha]; exact ⟨by decide, by decide, by decide⟩)
  · exact hport ⟨0x0A000000#32, 8, 1, []⟩ (by rw [ha]; exact ⟨by decide, by decide, by decide⟩)
  · exact hport ⟨0#32, 0, 0, []⟩ (by rw [ha]; exact ⟨by decide, by decide, by decide⟩)

end AtomicPredicate
