import AtomicPredicate.Data
import AtomicPredicate.Lib.Lines
import AtomicPredicate.Lib.Scanf

/-!
# Reading route files

`readroute.c`: `read_prefix` counts the lines of a file, allocates the table, skips six lines and
hands the others to `set_prefix`, which cuts the line at its second quote, reads an address, a length
and the name of an interface, and numbers the interface by its place in a table of the names seen so
far. Memory that was never written is a parameter, `RouteMemory`.
-/

namespace AtomicPredicate

open Lib

/-! ### The code -/

inductive RouteFault where
  | overread
  | slot
  | port
  deriving DecidableEq, Repr

/-- What memory holds before it is written: the slot of the table and the buffer of the interface, by
the number of the entry, and the buffer of `read_prefix`. -/
structure RouteMemory where
  slot : Nat → Prefix
  malloc : Nat → List Char
  str : List Char
  malloc_length : ∀ i, (malloc i).length = 100
  str_length : str.length = 100

/-- What the tables indexed by `tableID` hold for one router, and the names that `port` points to. -/
structure RouteTable where
  slots : List Prefix
  numPrefix : Nat
  port : List (List Char)
  uniPort : Nat

def RouteTable.entries (t : RouteTable) : List Prefix := t.slots.take t.numPrefix

/-- The pointers there is room for: `char port[100][100]` is passed as an array of pointers. -/
def portSlots : Nat := 100 * 100 / 8

/-- The loop over the line: the second quote ends the string. It does not stop at a terminator. -/
def cutQuote (c : Bool) : List Char → List Char
  | [] => []
  | x :: str =>
    if x = '\'' then if c then nul :: str else x :: cutQuote true str
    else x :: cutQuote c str

/-- `"%u, %hhu, '%s"` -/
def routeFormat : List Directive :=
  [.unsigned, .lit ',', .space, .unsigned, .lit ',', .space, .lit '\'', .string]

def routeString (p : List Char) : Except RouteFault (List Char) :=
  match cstr p with
  | none => throw .overread
  | some s => pure s

/-- The new entry without its number: a conversion that fails leaves what memory held. -/
def scanPrefix (mem : RouteMemory) (str : List Char) (index : Nat) : Except RouteFault Prefix := do
  let stored := sscanf routeFormat (← routeString str)
  let interface ← routeString (storedWord (mem.malloc index) stored[2]?)
  let old := mem.slot index
  return { old with
    ip := storedNumber 32 old.ip stored[0]?
    len := storedNumber 8 old.len stored[1]?
    interface := interface }

def RouteTable.place (t : RouteTable) (e : Prefix) : RouteTable :=
  { t with slots := t.slots.set t.numPrefix e, numPrefix := t.numPrefix + 1 }

/-- The entry gets its number, a new one if its name is not in `port`. -/
def assignPort (t : RouteTable) (e : Prefix) : Except RouteFault RouteTable :=
  if e.interface = [] then pure (t.place { e with portID := 0 })
  else
    let i := (t.port.take t.uniPort).idxOf e.interface
    if i < t.uniPort then pure (t.place { e with portID := BitVec.ofNat 8 (i + 1) })
    else if t.uniPort < portSlots then
      let t := { t with port := t.port ++ [e.interface], uniPort := t.uniPort + 1 }
      pure (t.place { e with portID := BitVec.ofNat 8 t.uniPort })
    else throw .port

/-- The table and the buffer after a call. -/
def setPrefix (mem : RouteMemory) (str : List Char) (t : RouteTable) :
    Except RouteFault (RouteTable × List Char) := do
  let str := cutQuote false str
  unless t.numPrefix < t.slots.length do throw .slot
  let e ← scanPrefix mem (str.drop 1) t.numPrefix
  let t ← assignPort t e
  return (t, str)

def countRoutes (buf file : List Char) (n : Nat) : List Char × Nat :=
  match h : fgets 100 buf file with
  | none => (buf, n)
  | some (buf', file') => countRoutes buf' file' (n + 1)
termination_by file.length
decreasing_by exact fgets_length (by decide) h

/-- `fgets` with its result unused. -/
def skipLines : Nat → List Char × List Char → List Char × List Char
  | 0, p => p
  | n + 1, p => skipLines n ((fgets 100 p.1 p.2).getD p)

def routeLoop (mem : RouteMemory) (buf file : List Char) (t : RouteTable) :
    Except RouteFault RouteTable :=
  match _h : fgets 100 buf file with
  | none => pure t
  | some (buf', file') =>
    match setPrefix mem buf' t with
    | .error e => .error e
    | .ok (t', buf'') => routeLoop mem buf'' file' t'
termination_by file.length
decreasing_by exact fgets_length (by decide) _h

def readPrefix (mem : RouteMemory) (file : List Char) : Except RouteFault RouteTable := do
  let (buf, lines) := countRoutes mem.str file 0
  let (buf, file) := skipLines 6 (buf, file)
  let t ← routeLoop mem buf file ⟨(List.range lines).map mem.slot, 0, [], 0⟩
  return { t with uniPort := t.uniPort + 1 }

/-! ### The loops -/

theorem RouteTable.entries_place {t : RouteTable} (hslot : t.numPrefix < t.slots.length)
    (e : Prefix) : (t.place e).entries = t.entries ++ [e] := by
  unfold place entries
  rw [List.take_add_one, List.take_set_of_le (le_refl _), List.getElem?_set_self hslot]
  rfl

theorem RouteTable.length_entries {t : RouteTable} (h : t.numPrefix ≤ t.slots.length) :
    t.entries.length = t.numPrefix := by
  rw [entries, List.length_take, min_eq_left h]

theorem setPrefix_ok {mem : RouteMemory} {str buf : List Char} {t t' : RouteTable}
    (h : setPrefix mem str t = .ok (t', buf)) :
    t.numPrefix < t.slots.length ∧ buf = cutQuote false str ∧
      ∃ e, scanPrefix mem (buf.drop 1) t.numPrefix = .ok e ∧ assignPort t e = .ok t' := by
  unfold setPrefix at h
  by_cases hslot : t.numPrefix < t.slots.length
  · simp only [hslot, if_true] at h
    cases hscan : scanPrefix mem ((cutQuote false str).drop 1) t.numPrefix with
    | error e =>
      rw [hscan] at h
      cases h
    | ok e =>
      rw [hscan] at h
      change (assignPort t e >>= fun t' => pure (t', cutQuote false str)) = _ at h
      cases hassign : assignPort t e with
      | error e' =>
        rw [hassign] at h
        cases h
      | ok t₁ =>
        rw [hassign] at h
        cases h
        exact ⟨hslot, rfl, e, hscan, hassign⟩
  · simp only [hslot, if_false] at h
    cases h

theorem setPrefix_eq {mem : RouteMemory} {str : List Char} {t : RouteTable} {e : Prefix}
    (hslot : t.numPrefix < t.slots.length)
    (he : scanPrefix mem ((cutQuote false str).drop 1) t.numPrefix = .ok e) :
    setPrefix mem str t = (assignPort t e).map fun t' => (t', cutQuote false str) := by
  unfold setPrefix
  simp only [hslot, if_true, he]
  show (assignPort t e >>= fun t' => pure (t', _)) = _
  cases assignPort t e <;> rfl

theorem countRoutes_eq (buf file : List Char) (n : Nat) :
    (countRoutes buf file n).2 = n + (pieces 99 file).length := by
  induction hd : file.length using Nat.strong_induction_on generalizing buf file n with
  | _ d ih =>
    subst hd
    rw [countRoutes]
    rcases fgets_pieces (n := 99) (by decide) buf file with ⟨hget, hnil⟩ | ⟨piece, rest, hget, hcons, -, hlen⟩
    · split
      · rw [hnil]
        rfl
      · rename_i hsome
        rw [hget] at hsome
        cases hsome
    · split
      · rename_i hnone
        rw [hget] at hnone
        cases hnone
      · rename_i hsome
        rw [hget] at hsome
        cases hsome
        rw [ih _ hlen _ _ _ rfl, hcons, List.length_cons]
        omega

theorem skipLines_pieces (n : Nat) (buf file : List Char) :
    pieces 99 (skipLines n (buf, file)).2 = (pieces 99 file).drop n := by
  induction n generalizing buf file with
  | zero => rfl
  | succ n ih =>
    rw [skipLines]
    rcases fgets_pieces (n := 99) (by decide) buf file with ⟨hget, hnil⟩ | ⟨piece, rest, hget, hcons, -⟩
    · rw [hget, Option.getD_none, ih, hnil, List.drop_nil, List.drop_nil]
    · rw [hget, Option.getD_some, ih, hcons, List.drop_succ_cons]

theorem routeLoop_none {mem : RouteMemory} {t : RouteTable} {buf file : List Char}
    (h : fgets 100 buf file = none) : routeLoop mem buf file t = .ok t := by
  rw [routeLoop]
  split
  · rfl
  · rename_i hsome
    rw [h] at hsome
    cases hsome

theorem routeLoop_cons {mem : RouteMemory} {t : RouteTable} {buf file buf' file' : List Char}
    (h : fgets 100 buf file = some (buf', file')) :
    routeLoop mem buf file t =
      (setPrefix mem buf' t).bind fun r => routeLoop mem r.2 file' r.1 := by
  rw [routeLoop]
  split
  · rename_i hnone
    rw [h] at hnone
    cases hnone
  · rename_i hsome
    rw [h] at hsome
    cases hsome
    cases setPrefix mem buf' t <;> rfl

/-- **An invariant of the loop**, over the number of lines read. -/
theorem routeLoop_inv {mem : RouteMemory} (I : Nat → RouteTable → Prop)
    (hstep : ∀ k str t t' buf, I k t → setPrefix mem str t = .ok (t', buf) → I (k + 1) t')
    (file : List Char) :
    ∀ {k : Nat} {buf : List Char} {t t' : RouteTable}, I k t → routeLoop mem buf file t = .ok t' →
      I (k + (pieces 99 file).length) t' := by
  induction hd : file.length using Nat.strong_induction_on generalizing file with
  | _ d ih =>
    subst hd
    intro k buf t t' hI hrun
    rcases fgets_pieces (n := 99) (by decide) buf file with ⟨hget, hnil⟩ | ⟨piece, rest, hget, hcons, -, hlen⟩
    · rw [routeLoop_none hget] at hrun
      cases hrun
      rwa [hnil]
    · rw [routeLoop_cons hget] at hrun
      cases hset : setPrefix mem (piece ++ nul :: buf.drop (piece.length + 1)) t with
      | error e =>
        rw [hset] at hrun
        cases hrun
      | ok r =>
        rw [hset] at hrun
        have hI' := ih rest.length hlen rest rfl (hstep k _ _ _ _ hI hset) hrun
        rwa [hcons, List.length_cons, Nat.add_comm _ 1, ← Nat.add_assoc]

end AtomicPredicate
