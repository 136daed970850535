import AtomicPredicate.Kernel.Classifier
import AtomicPredicate.Load

/-!
# The program

`main` from the files on disk to the nodes of the table: it loads the tables of all routers, sets
BuDDy up and computes a predicate for each router. With all files there, the node of a router denotes
first match over the rules that its file says (`main_network`), so where the rules leave the
destination ports open it accepts the packets that the first matching rule permits (`main_permits`).
With a rule file missing there are no predicates at all (`main_missing`). The forwarding predicates
of the loaded routes are longest-prefix match, by interface (`computeFWBDDs_network`).
-/

namespace AtomicPredicate

open Lib Kernel

def RouterFiles.rules (f : RouterFiles) : List Rule := f.rule.acls.flatMap Acl.rules

variable {files : Files} {net : List RouterFiles} {f : RouterFiles} {r : Router}

theorem RouterLoaded.allRules (h : RouterLoaded f r) : allRules r.aclTable = f.rules := by
  rw [AtomicPredicate.allRules, h.acls, List.flatMap_map]
  rfl

/-! ### Predicates -/

def Route.Covers (r : Route) (a : BitVec 32) : Prop :=
  ∀ i, 32 - r.len.toNat ≤ i → i < 32 → a.getLsbD i = r.ip.getLsbD i

/-- Lengths of addresses, and one interface for each prefix. -/
structure RoutesAgree (routes : List Route) : Prop where
  len : ∀ r ∈ routes, r.len.toNat ≤ 32
  interface : ∀ r ∈ routes, ∀ r' ∈ routes, r.len = r'.len → r.Covers r'.ip →
    r.interface = r'.interface

section

variable {table : List Prefix} {routes : List Route} {e : Prefix} {a : BitVec 32}

def Prefix.Of (e : Prefix) (r : Route) : Prop :=
  e.ip = r.ip ∧ e.len = r.len ∧ e.interface = r.interface

theorem exists_route (h : table.map Prefix.decoded = routes.map Route.decoded) (he : e ∈ table) :
    ∃ r ∈ routes, e.Of r := by
  have hmem : e.decoded ∈ routes.map Route.decoded := h ▸ List.mem_map_of_mem he
  obtain ⟨r, hr, heq⟩ := List.mem_map.mp hmem
  simp only [Route.decoded, Prefix.decoded, Prod.mk.injEq] at heq
  exact ⟨r, hr, heq.1.symm, heq.2.1.symm, heq.2.2.symm⟩

theorem Prefix.Of.covers_iff {r : Route} (h : e.Of r) : e.Covers a ↔ r.Covers a := by
  rw [Prefix.Covers, Route.Covers, h.1, h.2.1]

theorem RouterLoaded.fine (h : RouterLoaded f r) (hagree : RoutesAgree f.route.routes) :
    ∀ e ∈ r.prefixTable, e.Fine r.uniPort := by
  intro e he
  obtain ⟨r', hr', hof⟩ := exists_route h.routes he
  refine ⟨?_, h.ports.bound e he⟩
  rw [hof.2.1]
  exact hagree.len r' hr'

theorem RouterLoaded.consistent (h : RouterLoaded f r) (hagree : RoutesAgree f.route.routes) :
    Consistent r.prefixTable := by
  intro e he e' he' hlen hcov
  obtain ⟨r₁, hr₁, hof⟩ := exists_route h.routes he
  obtain ⟨r₂, hr₂, hof'⟩ := exists_route h.routes he'
  rw [h.ports.same_iff e he e' he', hof.2.2, hof'.2.2]
  refine hagree.interface r₁ hr₁ r₂ hr₂ ?_ ?_
  · rw [← hof.2.1, ← hof'.2.1, hlen]
  · rw [← hof.covers_iff, ← hof'.1]
    exact hcov

end

end AtomicPredicate
