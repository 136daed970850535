import AtomicPredicate.Forward

/-!
# Counting forwarding predicates

`fwd_predicate_size` over a sequence of calls of `getfwbdds`. It counts the stores into slots that
hold `0`, which is also the handle of the constant false. So an entry that earlier entries cover is
counted when it is the first of its port, and the port is counted again when it gets its predicate.
Any other order of entries counts each predicate once (`getfwbddsAll_count_iff`).
-/

namespace AtomicPredicate

open Lib

/-- Convert the tables in turn, `kept` being the handles of the arrays returned so far. -/
def getfwbddsAll (varInit : Bool) (fwdPredicateSize : Nat) (kept : List Handle) :
    List (List Prefix × Nat) → BddM (List (List Handle) × Nat)
  | [] => pure ([], fwdPredicateSize)
  | (table, uniPort) :: calls => do
    let (fwdbdds, size) ← holding kept (getfwbdds varInit fwdPredicateSize table uniPort)
    let (arrays, size') ← getfwbddsAll varInit size (kept ++ fwdbdds) calls
    return (fwdbdds :: arrays, size')

/-- The number of handles other than the constant false in the arrays. -/
def predicatesIn (arrays : List (List Handle)) : Nat :=
  (arrays.map fun fwdbdds => fwdbdds.countP fun h => decide (h ≠ bddfalse)).sum

/-- No port of the table has as its first entry one that earlier entries cover. -/
def NotShadowed (table : List Prefix) : Prop :=
  FirstNew Prefix.Covers (fun e => e.portID.toNat) table

theorem notShadowed_iff (table : List Prefix) :
    FirstNew Prefix.hit (fun e => e.portID.toNat) table ↔ NotShadowed table := by
  refine firstNew_iff_of_related (R := fun env a => FieldAt (n := 32) 32 a env) ?_ ?_ ?_
  · exact exists_fieldAt 32 32
  · intro a
    exact ⟨_, fieldAt_dstIP ⟨0, a, 0, 0, 0⟩⟩
  · intro e env a hfield
    exact topBits_iff_bits hfield e.ip

theorem predicates_eq {slots : List (Handle × Bdd)}
    (hiff : ∀ p ∈ slots, p.1 = bddfalse ↔ p.2 = .const false) :
    predicates slots = (slots.map Prod.fst).countP fun h => decide (h ≠ bddfalse) := by
  rw [predicates, List.countP_map]
  refine List.countP_congr fun p hp => ?_
  simp [hiff p hp]

/-- **The counter of a sequence of calls**: one for each predicate, and `extra` ones. -/
theorem getfwbddsAll_triple (varInit : Bool) (calls : List (List Prefix × Nat)) :
    ∀ (size : Nat) (kept : List (Handle × Bdd)) (left : Multiset (Handle × Bdd)),
      Triple discipline (kept + left) (getfwbddsAll varInit size (kept.map Prod.fst) calls)
        (fun res _ => ∃ extra, res.2 = size + predicatesIn res.1 + extra ∧
          (extra = 0 ↔ ∀ call ∈ calls, NotShadowed call.1))
        (fun _ => varInit = false ∨ ∃ call ∈ calls, ∃ e ∈ call.1, ¬ e.Fine call.2) := by
  induction calls with
  | nil => exact fun size kept left => Triple.pure ⟨0, rfl, by simp⟩
  | cons call calls ih =>
    obtain ⟨table, uniPort⟩ := call
    intro size kept left
    refine Triple.seqHolding _ (kept + left) (mem_handles kept left rfl) (zero_add _).symm
      (Triple.conseq rfl (getfwbdds_triple varInit size table uniPort) (fun _ _ h => h)
        fun _ hc => hc.imp_right fun h => ⟨(table, uniPort), by simp, h⟩) ?_
    intro res B hB
    obtain ⟨fw, vf, slots, rfl, rfl, hinv, extra, hsize, hextra⟩ := hB
    refine Triple.identify fun hiff => ?_
    have hpredicates : predicates slots = _ := predicates_eq fun p hp =>
      hiff p (by simp [hp]) _ mem_permanent_false
    rw [show {(fw.fwded, vf)} + (slots : Multiset (Handle × Bdd)) + (kept + left) =
        ((kept ++ slots : List (Handle × Bdd)) : Multiset (Handle × Bdd)) +
          ({(fw.fwded, vf)} + left) by rw [← Multiset.coe_add]; abel]
    dsimp only
    rw [hinv.fwdbdds, ← List.map_append]
    refine Triple.bind (Triple.conseq rfl (ih _ (kept ++ slots) _) (fun _ _ h => h)
      fun _ hc => hc.imp_right fun ⟨c, hmem, h⟩ => ⟨c, List.mem_cons_of_mem _ hmem, h⟩) ?_
    intro res B hB
    obtain ⟨extra', hsize', hextra'⟩ := hB
    refine Triple.pure ⟨extra + extra', ?_, ?_⟩
    · dsimp only
      rw [hsize', hsize, hpredicates, predicatesIn, predicatesIn, List.map_cons, List.sum_cons]
      omega
    · rw [Nat.add_eq_zero_iff, hextra, hextra', notShadowed_iff, List.forall_mem_cons]

theorem getfwbddsAll_run (varInit : Bool) (size : Nat) (calls : List (List Prefix × Nat))
    (σ : Session) :
    (∃ arrays size' s' extra,
      getfwbddsAll varInit size [] calls σ.store = .ok ((arrays, size'), s') ∧
        size' = size + predicatesIn arrays + extra ∧
        (extra = 0 ↔ ∀ call ∈ calls, NotShadowed call.1)) ∨
      ∃ c, getfwbddsAll varInit size [] calls σ.store = .error (.client c) ∧
        (varInit = false ∨ ∃ call ∈ calls, ∃ e ∈ call.1, ¬ e.Fine call.2) := by
  rcases run_session (getfwbddsAll_triple varInit calls size [] 0) σ with
    ⟨⟨arrays, size'⟩, s', _, hrun, ⟨extra, hsize, hextra⟩, -⟩ | ⟨c, hrun, hc⟩
  · exact Or.inl ⟨arrays, size', s', extra, hrun, hsize, hextra⟩
  · exact Or.inr ⟨c, hrun, hc⟩

/-- **`fwd_predicate_size` counts the predicates** returned by a sequence of calls exactly if no port
of any of the tables starts with a shadowed entry. Calls on tables whose entries are in range do
return. -/
theorem getfwbddsAll_count_iff (varInit : Bool) (size : Nat) (calls : List (List Prefix × Nat))
    (σ : Session) :
    (∀ arrays size' s', getfwbddsAll varInit size [] calls σ.store = .ok ((arrays, size'), s') →
      (size' = size + predicatesIn arrays ↔
        ∀ call ∈ calls, FirstNew Prefix.Covers (fun e => e.portID.toNat) call.1)) ∧
      (varInit = true → (∀ call ∈ calls, ∀ e ∈ call.1,
          e.len.toNat ≤ 32 ∧ e.portID.toNat < call.2) →
        ∃ arrays size' s',
          getfwbddsAll varInit size [] calls σ.store = .ok ((arrays, size'), s')) := by
  rcases getfwbddsAll_run varInit size calls σ with
    ⟨arrays, size', s', extra, hrun, hsize, hextra⟩ | ⟨c, hrun, hc⟩
  · refine ⟨fun arrays' size'' s'' heq => ?_, fun _ _ => ⟨arrays, size', s', hrun⟩⟩
    cases hrun.symm.trans heq
    rw [hsize, Nat.add_eq_left]
    exact hextra
  · refine ⟨fun arrays' size'' s'' heq => ?_, fun hinit hfine => ?_⟩
    · cases hrun.symm.trans heq
    · rcases hc with hc | ⟨call, hcall, e, he, hnot⟩
      · simp [hinit] at hc
      · exact absurd (hfine call hcall e he) hnot

def duplicateRoute : List Prefix := [⟨0x0A000000#32, 8, 0, []⟩, ⟨0x0A000000#32, 8, 1, []⟩]

theorem not_notShadowed_duplicate : ¬ NotShadowed duplicateRoute := by
  intro h
  obtain ⟨a, hcov, hnone⟩ := h [⟨0x0A000000#32, 8, 0, []⟩] ⟨0x0A000000#32, 8, 1, []⟩ [] rfl
    (by decide)
  exact hnone _ (List.mem_singleton.mpr rfl) hcov

/-- Port `1` has no predicate, and it is counted. -/
theorem getfwbddsAll_count_duplicate :
    ∃ arrays size' s', getfwbddsAll true 0 [] [(duplicateRoute, 2)]
        (Session.init Collector.eager).store = .ok ((arrays, size'), s') ∧
      size' ≠ 0 + predicatesIn arrays := by
  rcases getfwbddsAll_run true 0 [(duplicateRoute, 2)] (Session.init Collector.eager) with
    ⟨arrays, size', s', extra, hrun, hsize, hextra⟩ | ⟨c, -, hc⟩
  · refine ⟨arrays, size', s', hrun, fun heq => ?_⟩
    have hzero : extra = 0 := by omega
    exact not_notShadowed_duplicate (hextra.mp hzero (duplicateRoute, 2) (by simp))
  · simp [duplicateRoute, Prefix.Fine] at hc

end AtomicPredicate
