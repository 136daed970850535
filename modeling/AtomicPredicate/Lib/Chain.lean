import Mathlib.Data.List.Nodup
import Mathlib.Data.List.Perm.Subperm
import Mathlib.Data.List.Range
import Mathlib.Logic.Function.Basic

/-!
# Cells threaded on linked chains

Cells are numbers, and every cell has one link in an array `next`; `0` ends a chain. A table in
this form keeps each of its cells on exactly one chain: a cell in use is on the chain of its bucket,
whose first cell is in an array `hash`, and every other cell is on the free list.

`Threaded` is that invariant. `rethread` establishes it from empty buckets, and it is kept when a cell
moves from the head of the free list to the head of its bucket (`Threaded.take`). `search` walks a
chain; on a threaded table it ends, and it finds a cell of the bucket if there is one.
-/

namespace AtomicPredicate.Lib

open Function

/-- The cells `xs`, in order, from `i` along `next` to the end mark `0`. -/
def Chain (next : Nat → Nat) : Nat → List Nat → Prop
  | i, [] => i = 0
  | i, x :: xs => i = x ∧ x ≠ 0 ∧ Chain next (next x) xs

namespace Chain

variable {next next' : Nat → Nat} {i x : Nat} {xs : List Nat}

theorem congr (h : Chain next i xs) (heq : ∀ x ∈ xs, next' x = next x) : Chain next' i xs := by
  induction xs generalizing i with
  | nil => exact h
  | cons x xs ih =>
    obtain ⟨hi, hx, hxs⟩ := h
    refine ⟨hi, hx, ?_⟩
    rw [heq x List.mem_cons_self]
    exact ih hxs fun y hy => heq y (List.mem_cons_of_mem _ hy)

theorem update_of_notMem (h : Chain next i xs) (hx : x ∉ xs) (v : Nat) :
    Chain (update next x v) i xs :=
  h.congr fun _ hy => update_of_ne (ne_of_mem_of_not_mem hy hx) _ _

theorem push (h : Chain next i xs) (hx : x ∉ xs) (hx0 : x ≠ 0) :
    Chain (update next x i) x (x :: xs) := by
  refine ⟨rfl, hx0, ?_⟩
  rw [update_self]
  exact h.update_of_notMem hx i

theorem eq_nil (h : Chain next 0 xs) : xs = [] := by
  cases xs with
  | nil => rfl
  | cons x xs => exact absurd h.1.symm h.2.1

theorem ne_nil (h : Chain next i xs) (hi : i ≠ 0) : ∃ ys, xs = i :: ys := by
  cases xs with
  | nil => exact absurd h hi
  | cons x xs => exact ⟨xs, by rw [h.1]⟩

theorem range' (n m : Nat) (hn : n ≠ 0) (hnext : ∀ x, n ≤ x → x + 1 < n + m → next x = x + 1)
    (hlast : next (n + m - 1) = 0) (hm : 0 < m) : Chain next n (List.range' n m) := by
  induction m generalizing n with
  | zero => omega
  | succ m ih =>
    rw [List.range'_succ]
    refine ⟨rfl, hn, ?_⟩
    rcases Nat.eq_zero_or_pos m with rfl | hpos
    · exact hlast
    · rw [hnext n le_rfl (by omega)]
      refine ih (n + 1) (by omega) (fun x hx hlt => hnext x (by omega) (by omega)) ?_ hpos
      rw [← hlast]
      congr 1
      omega

end Chain

/-- The first cell from `i` on that passes the test, or `0`; `none` if `fuel` cells do not reach
the end. -/
def search (p : Nat → Bool) (next : Nat → Nat) : Nat → Nat → Option Nat
  | 0, _ => none
  | fuel + 1, i => if i = 0 then some 0 else if p i then some i else search p next fuel (next i)

theorem search_eq {p : Nat → Bool} {next : Nat → Nat} {xs : List Nat} {i fuel : Nat}
    (h : Chain next i xs) (hfuel : xs.length < fuel) :
    search p next fuel i = some ((xs.find? p).getD 0) := by
  induction xs generalizing i fuel with
  | nil =>
    obtain ⟨n, rfl⟩ := Nat.exists_eq_add_of_lt hfuel
    have hi : i = 0 := h
    simp [search, hi]
  | cons x xs ih =>
    obtain ⟨rfl, hx, hxs⟩ := h
    obtain ⟨n, rfl⟩ : ∃ n, fuel = n + 1 := ⟨fuel - 1, by simp at hfuel; omega⟩
    rw [search, if_neg hx, List.find?_cons]
    split_ifs with hp
    · simp [hp]
    · simp only [hp]
      exact ih hxs (by simpa using hfuel)

/-! ### Threaded tables -/

/-- The links of a table: bucket heads, the link of each cell, and the free list with its length. -/
structure Links where
  hash : Nat → Nat
  next : Nat → Nat
  freepos : Nat
  freenum : Nat

/-- The cells from `lo` to `size` are threaded: those with `keep` on the bucket `key`, the others on
the free list. -/
structure Threaded (lo size : Nat) (keep : Nat → Bool) (key : Nat → Nat) (L : Links) : Prop where
  bucket : ∀ b < size, ∃ xs, Chain L.next (L.hash b) xs ∧ xs.Nodup ∧
    ∀ n, n ∈ xs ↔ (lo ≤ n ∧ n < size) ∧ keep n = true ∧ key n = b
  free : ∃ xs, Chain L.next L.freepos xs ∧ xs.Nodup ∧
    (∀ n, n ∈ xs ↔ (lo ≤ n ∧ n < size) ∧ keep n = false) ∧ L.freenum = xs.length

variable {lo size : Nat} {keep : Nat → Bool} {key : Nat → Nat} {L : Links}

namespace Threaded

theorem length_le {xs : List Nat} (hnodup : xs.Nodup) (hlt : ∀ n ∈ xs, n < size) :
    xs.length ≤ size := by
  have hsub : xs ⊆ List.range size := fun n hn => List.mem_range.mpr (hlt n hn)
  simpa using (List.subperm_of_subset hnodup hsub).length_le

theorem search_bucket (ht : Threaded lo size keep key L) {b : Nat} (hb : b < size)
    (p : Nat → Bool) : ∃ r, search p L.next (size + 1) (L.hash b) = some r ∧
      (r ≠ 0 → (lo ≤ r ∧ r < size) ∧ keep r = true ∧ key r = b ∧ p r = true) ∧
      (r = 0 → 0 < lo → ∀ n, lo ≤ n → n < size → keep n = true → key n = b → p n = false) := by
  obtain ⟨xs, hchain, hnodup, hmem⟩ := ht.bucket b hb
  have hlen : xs.length < size + 1 :=
    Nat.lt_succ_of_le (length_le hnodup fun n hn => ((hmem n).mp hn).1.2)
  refine ⟨_, search_eq hchain hlen, ?_, ?_⟩
  · intro hr
    cases hf : xs.find? p with
    | none => simp [hf] at hr
    | some r =>
      have h := (hmem r).mp (List.mem_of_find?_eq_some hf)
      exact ⟨h.1, h.2.1, h.2.2, List.find?_some hf⟩
  · intro hr hlo n hle hlt hk hkey
    have hn : n ∈ xs := (hmem n).mpr ⟨⟨hle, hlt⟩, hk, hkey⟩
    cases hf : xs.find? p with
    | none => simpa using List.find?_eq_none.mp hf n hn
    | some r =>
      have h := (hmem r).mp (List.mem_of_find?_eq_some hf)
      simp only [hf, Option.getD_some] at hr
      omega

theorem freepos_eq_zero_iff (ht : Threaded lo size keep key L) (_ : 0 < lo) :
    L.freepos = 0 ↔ ∀ n, lo ≤ n → n < size → keep n = true := by
  obtain ⟨xs, hchain, -, hmem, -⟩ := ht.free
  constructor
  · intro h0 n hle hlt
    rw [h0] at hchain
    by_contra hk
    have := (hmem n).mpr ⟨⟨hle, hlt⟩, by simpa using hk⟩
    simp [hchain.eq_nil] at this
  · intro hall
    by_contra h0
    obtain ⟨ys, rfl⟩ := hchain.ne_nil h0
    have h := (hmem L.freepos).mp List.mem_cons_self
    rw [hall _ h.1.1 h.1.2] at h
    exact absurd h.2 (by simp)

theorem freepos_mem (ht : Threaded lo size keep key L) (h0 : L.freepos ≠ 0) :
    (lo ≤ L.freepos ∧ L.freepos < size) ∧ keep L.freepos = false := by
  obtain ⟨xs, hchain, -, hmem, -⟩ := ht.free
  obtain ⟨ys, rfl⟩ := hchain.ne_nil h0
  exact (hmem _).mp List.mem_cons_self

theorem freenum_eq (ht : Threaded lo size keep key L) :
    L.freenum = ((List.range' lo (size - lo)).filter fun n => !keep n).length := by
  obtain ⟨xs, -, hnodup, hmem, hlen⟩ := ht.free
  rw [hlen]
  refine List.Perm.length_eq ((List.perm_ext_iff_of_nodup hnodup ?_).mpr fun n => ?_)
  · exact List.Nodup.filter _ (List.nodup_range')
  · rw [hmem, List.mem_filter, List.mem_range'_1]
    simp
    omega

theorem congr {keep' : Nat → Bool} {key' : Nat → Nat} (ht : Threaded lo size keep key L)
    (hkeep : ∀ n, lo ≤ n → n < size → keep' n = keep n)
    (hkey : ∀ n, lo ≤ n → n < size → keep n = true → key' n = key n) :
    Threaded lo size keep' key' L where
  bucket b hb := by
    obtain ⟨xs, hchain, hnodup, hmem⟩ := ht.bucket b hb
    refine ⟨xs, hchain, hnodup, fun n => (hmem n).trans (and_congr_right fun hn => ?_)⟩
    rw [hkeep n hn.1 hn.2]
    exact and_congr_right fun hk => by rw [hkey n hn.1 hn.2 hk]
  free := by
    obtain ⟨xs, hchain, hnodup, hmem, hlen⟩ := ht.free
    refine ⟨xs, hchain, hnodup, fun n => (hmem n).trans (and_congr_right fun hn => ?_), hlen⟩
    rw [hkeep n hn.1 hn.2]

theorem take {keep' : Nat → Bool} {key' : Nat → Nat} (ht : Threaded lo size keep key L)
    (_ : 0 < lo) (h0 : L.freepos ≠ 0) (hkey : key' L.freepos < size)
    (hself : keep' L.freepos = true)
    (hother : ∀ n, n ≠ L.freepos → keep' n = keep n ∧ key' n = key n) :
    Threaded lo size keep' key'
      { hash := update L.hash (key' L.freepos) L.freepos
        next := update L.next L.freepos (L.hash (key' L.freepos))
        freepos := L.next L.freepos
        freenum := L.freenum - 1 } := by
  obtain ⟨⟨hle, hlt⟩, hfalse⟩ := ht.freepos_mem h0
  obtain ⟨fs, hfree, hfnodup, hfmem, hflen⟩ := ht.free
  obtain ⟨ys, rfl⟩ := hfree.ne_nil h0
  generalize hx : L.freepos = x at *
  have hxys : x ∉ ys := (List.nodup_cons.mp hfnodup).1
  constructor
  · intro b hb
    obtain ⟨xs, hchain, hnodup, hmem⟩ := ht.bucket b hb
    have hxxs : x ∉ xs := fun hmx => by
      have := ((hmem x).mp hmx).2.1
      simp [hfalse] at this
    dsimp only
    by_cases hb' : b = key' x
    · subst hb'
      rw [update_self]
      refine ⟨x :: xs, hchain.push hxxs (by omega), List.nodup_cons.mpr ⟨hxxs, hnodup⟩, ?_⟩
      intro n
      rcases eq_or_ne n x with rfl | hne
      · simp [hself, hle, hlt]
      · simp [hne, hmem, hother n hne]
    · rw [update_of_ne hb']
      refine ⟨xs, hchain.update_of_notMem hxxs _, hnodup, fun n => ?_⟩
      rcases eq_or_ne n x with rfl | hne
      · simp [hxxs, Ne.symm hb']
      · simp [hmem, hother n hne]
  · refine ⟨ys, hfree.2.2.update_of_notMem hxys _, (List.nodup_cons.mp hfnodup).2, fun n => ?_, ?_⟩
    · rcases eq_or_ne n x with rfl | hne
      · simp [hxys, hself]
      · rw [(hother n hne).1, ← hfmem n]
        simp [hne]
    · show L.freenum - 1 = ys.length
      rw [hflen]
      rfl

end Threaded

/-! ### Threading a table anew -/

/-- Thread one cell: at the head of its bucket if it is kept, of the free list otherwise. -/
def threadCell (keep : Nat → Bool) (key : Nat → Nat) (n : Nat) (L : Links) : Links :=
  if keep n then
    { L with next := update L.next n (L.hash (key n)), hash := update L.hash (key n) n }
  else
    { L with next := update L.next n L.freepos, freepos := n, freenum := L.freenum + 1 }

/-- Thread the cells from `size - 1` down to `lo`. -/
def rethread (keep : Nat → Bool) (key : Nat → Nat) (lo size : Nat) (L : Links) : Links :=
  (List.range' lo (size - lo)).foldr (threadCell keep key) L

/-- What holds when the cells from `m` on are threaded. -/
def ThreadedFrom (m size : Nat) (keep : Nat → Bool) (key : Nat → Nat) (L : Links) : Prop :=
  (∀ b < size, ∃ xs, Chain L.next (L.hash b) xs ∧ xs.Nodup ∧
    ∀ n, n ∈ xs ↔ (m ≤ n ∧ n < size) ∧ keep n = true ∧ key n = b) ∧
  ∃ xs, Chain L.next L.freepos xs ∧ xs.Nodup ∧
    (∀ n, n ∈ xs ↔ (m ≤ n ∧ n < size) ∧ keep n = false) ∧ L.freenum = xs.length

theorem threadedFrom_threadCell {m : Nat} (hm : m ≠ 0) (hlt : m < size)
    (hkey : keep m = true → key m < size) (h : ThreadedFrom (m + 1) size keep key L) :
    ThreadedFrom m size keep key (threadCell keep key m L) := by
  obtain ⟨hbucket, fs, hfree, hfnodup, hfmem, hflen⟩ := h
  have hmfs : m ∉ fs := fun hmem => by
    have := ((hfmem m).mp hmem).1.1
    omega
  have hstep : ∀ n, n ≠ m → (m + 1 ≤ n ↔ m ≤ n) := fun n hne => by omega
  unfold threadCell
  split_ifs with hk
  · refine ⟨fun b hb => ?_, fs, hfree.update_of_notMem hmfs _, hfnodup, fun n => ?_, hflen⟩
    · obtain ⟨xs, hchain, hnodup, hmem⟩ := hbucket b hb
      have hmxs : m ∉ xs := fun hmx => by
        have := ((hmem m).mp hmx).1.1
        omega
      dsimp only
      by_cases hb' : b = key m
      · subst hb'
        rw [update_self]
        refine ⟨m :: xs, hchain.push hmxs hm, List.nodup_cons.mpr ⟨hmxs, hnodup⟩, fun n => ?_⟩
        rcases eq_or_ne n m with rfl | hne
        · simp [hk, hlt]
        · rw [List.mem_cons, hmem, hstep n hne]
          simp [hne]
      · rw [update_of_ne hb']
        refine ⟨xs, hchain.update_of_notMem hmxs _, hnodup, fun n => ?_⟩
        rcases eq_or_ne n m with rfl | hne
        · simp [hmxs, Ne.symm hb']
        · rw [hmem, hstep n hne]
    · rcases eq_or_ne n m with rfl | hne
      · simp [hmfs, hk]
      · rw [hfmem, hstep n hne]
  · have hk' : keep m = false := by simpa using hk
    refine ⟨fun b hb => ?_, m :: fs, hfree.push hmfs hm, List.nodup_cons.mpr ⟨hmfs, hfnodup⟩,
      fun n => ?_, by simp [hflen]⟩
    · obtain ⟨xs, hchain, hnodup, hmem⟩ := hbucket b hb
      have hmxs : m ∉ xs := fun hmx => by
        have := ((hmem m).mp hmx).1.1
        omega
      refine ⟨xs, hchain.update_of_notMem hmxs _, hnodup, fun n => ?_⟩
      rcases eq_or_ne n m with rfl | hne
      · simp [hmxs, hk']
      · rw [hmem, hstep n hne]
    · rcases eq_or_ne n m with rfl | hne
      · simp [hk', hlt]
      · rw [List.mem_cons, hfmem, hstep n hne]
        simp [hne]

theorem threaded_rethread (hlo : 0 < lo) (hle : lo ≤ size)
    (hkey : ∀ n, lo ≤ n → n < size → keep n = true → key n < size)
    (hhash : ∀ b < size, L.hash b = 0) (hpos : L.freepos = 0) (hnum : L.freenum = 0) :
    Threaded lo size keep key (rethread keep key lo size L) := by
  have main : ∀ k m, lo ≤ m → m + k = size →
      ThreadedFrom m size keep key ((List.range' m k).foldr (threadCell keep key) L) := by
    intro k
    induction k with
    | zero =>
      intro m _ hsum
      refine ⟨fun b hb => ⟨[], hhash b hb, List.nodup_nil, fun n => ?_⟩, [], hpos, List.nodup_nil,
        fun n => ?_, hnum⟩
      · simp
        omega
      · simp
        omega
    | succ k ih =>
      intro m hm hsum
      rw [List.range'_succ, List.foldr_cons]
      exact threadedFrom_threadCell (by omega) (by omega) (hkey m hm (by omega))
        (ih (m + 1) (by omega) (by omega))
  obtain ⟨hbucket, hfree⟩ := main (size - lo) lo le_rfl (by omega)
  exact ⟨hbucket, hfree⟩

end AtomicPredicate.Lib
