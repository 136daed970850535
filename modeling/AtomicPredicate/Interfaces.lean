import AtomicPredicate.ReadRoute
import Mathlib.Data.List.Basic
import Mathlib.Data.List.Induction

/-!
# The numbers of the interfaces

While `read_prefix` reads, `port` holds the names seen so far in order of first appearance, and an
entry's number is the place of its name, cut to eight bits (`Numbering`).
-/

namespace AtomicPredicate

open Lib

/-- The non-empty names in order of first appearance. -/
def firstNames (names : List (List Char)) : List (List Char) :=
  (names.filter (· ≠ [])).eraseDups

section

variable {names names' : List (List Char)} {s : List Char}

theorem mem_firstNames : s ∈ firstNames names ↔ s ∈ names ∧ s ≠ [] := by
  rw [firstNames, List.mem_eraseDups, List.mem_filter, decide_eq_true_iff]

theorem eraseDups_snoc (l : List (List Char)) (s : List Char) :
    (l ++ [s]).eraseDups = if s ∈ l then l.eraseDups else l.eraseDups ++ [s] := by
  rw [List.eraseDups_append]
  by_cases hs : s ∈ l <;> simp [List.removeAll, List.eraseDups_cons, hs]

theorem firstNames_append_of_mem (h : s = [] ∨ s ∈ firstNames names) :
    firstNames (names ++ [s]) = firstNames names := by
  unfold firstNames at h ⊢
  rw [List.filter_append]
  by_cases hs : s = []
  · simp [hs]
  · have hmem := List.mem_eraseDups.mp (h.resolve_left hs)
    rw [List.filter_cons_of_pos (by simpa using hs), List.filter_nil, eraseDups_snoc, if_pos hmem]

theorem firstNames_append_of_not_mem (hs : s ≠ []) (h : s ∉ firstNames names) :
    firstNames (names ++ [s]) = firstNames names ++ [s] := by
  unfold firstNames at h ⊢
  rw [List.mem_eraseDups] at h
  rw [List.filter_append, List.filter_cons_of_pos (by simpa using hs), List.filter_nil,
    eraseDups_snoc, if_neg h]

theorem firstNames_nodup : (firstNames names).Nodup := by
  induction names using List.reverseRecOn with
  | nil => exact List.nodup_nil
  | append_singleton names s ih =>
    by_cases h : s = [] ∨ s ∈ firstNames names
    · rw [firstNames_append_of_mem h]
      exact ih
    · rw [not_or] at h
      rw [firstNames_append_of_not_mem h.1 h.2]
      exact List.nodup_append.mpr ⟨ih, List.nodup_singleton s, by
        rintro a ha b hb rfl
        exact h.2 (List.mem_singleton.mp hb ▸ ha)⟩

theorem firstNames_length_le (names names' : List (List Char)) :
    (firstNames names).length ≤ (firstNames (names ++ names')).length := by
  induction names' using List.reverseRecOn with
  | nil => rw [List.append_nil]
  | append_singleton names' s ih =>
    rw [← List.append_assoc]
    by_cases h : s = [] ∨ s ∈ firstNames (names ++ names')
    · rwa [firstNames_append_of_mem h]
    · rw [not_or] at h
      rw [firstNames_append_of_not_mem h.1 h.2, List.length_append]
      omega

end

/-! ### The invariant -/

def RouteTable.names (t : RouteTable) : List (List Char) := t.entries.map Prefix.interface

def portNumber (port : List (List Char)) (s : List Char) : BitVec 8 :=
  if s = [] then 0 else BitVec.ofNat 8 (port.idxOf s + 1)

structure Numbering (t : RouteTable) : Prop where
  port : t.port = firstNames t.names
  uniPort : t.uniPort = t.port.length
  room : t.uniPort ≤ portSlots
  filled : t.numPrefix ≤ t.slots.length
  portID : ∀ e ∈ t.entries, e.portID = portNumber t.port e.interface

theorem numbering_init (slots : List Prefix) : Numbering ⟨slots, 0, [], 0⟩ where
  port := rfl
  uniPort := rfl
  room := Nat.zero_le _
  filled := Nat.zero_le _
  portID e he := by
    rw [RouteTable.entries, List.take_zero] at he
    exact absurd he List.not_mem_nil

theorem portNumber_append {port : List (List Char)} {s : List Char} (hs : s = [] ∨ s ∈ port)
    (port' : List (List Char)) : portNumber (port ++ port') s = portNumber port s := by
  unfold portNumber
  by_cases hempty : s = []
  · rw [if_pos hempty, if_pos hempty]
  · rw [if_neg hempty, if_neg hempty, List.idxOf_append_of_mem (hs.resolve_left hempty)]

namespace Numbering

variable {t t' : RouteTable} {e : Prefix}

theorem name_mem (h : Numbering t) (he : e ∈ t.entries) :
    e.interface = [] ∨ e.interface ∈ t.port := by
  by_cases hempty : e.interface = []
  · exact Or.inl hempty
  · rw [h.port, mem_firstNames]
    exact Or.inr ⟨List.mem_map_of_mem he, hempty⟩

theorem place (h : Numbering t) (hslot : t.numPrefix < t.slots.length) (port' : List (List Char))
    (hport : t.port ++ port' = firstNames (t.names ++ [e.interface]))
    (hroom : (t.port ++ port').length ≤ portSlots)
    (hid : e.portID = portNumber (t.port ++ port') e.interface) :
    Numbering ({ t with port := t.port ++ port', uniPort := (t.port ++ port').length }.place e) := by
  have hentries : ({ t with
      port := t.port ++ port', uniPort := (t.port ++ port').length }.place e).entries =
      t.entries ++ [e] := RouteTable.entries_place hslot e
  refine ⟨?_, rfl, hroom, ?_, ?_⟩
  · rw [RouteTable.names, hentries, List.map_append]
    exact hport
  · show t.numPrefix + 1 ≤ (t.slots.set t.numPrefix e).length
    rw [List.length_set]
    omega
  · rw [hentries]
    intro e' he'
    rcases List.mem_append.mp he' with he' | he'
    · exact (h.portID e' he').trans (portNumber_append (h.name_mem he') port').symm
    · rw [List.mem_singleton.mp he']
      exact hid

theorem assign (h : Numbering t) (hslot : t.numPrefix < t.slots.length)
    (hassign : assignPort t e = .ok t') :
    Numbering t' ∧ t'.slots.length = t.slots.length ∧
      ∃ id, t'.entries = t.entries ++ [{ e with portID := id }] := by
  have htake : t.port.take t.uniPort = t.port := by rw [h.uniPort, List.take_length]
  unfold assignPort at hassign
  rw [htake] at hassign
  dsimp only at hassign
  by_cases hempty : e.interface = []
  · rw [if_pos hempty] at hassign
    cases hassign
    have hnum := h.place (e := { e with portID := 0 }) hslot []
      (by rw [List.append_nil, firstNames_append_of_mem (Or.inl hempty), h.port])
      (by rw [List.append_nil, ← h.uniPort]; exact h.room) (by rw [portNumber, if_pos hempty])
    rw [List.append_nil, ← h.uniPort] at hnum
    exact ⟨hnum, List.length_set .., 0, RouteTable.entries_place hslot _⟩
  · rw [if_neg hempty] at hassign
    split_ifs at hassign with hfound hroom
    · cases hassign
      rw [h.uniPort, List.idxOf_lt_length_iff] at hfound
      have hnum := h.place (e := { e with portID := BitVec.ofNat 8 (t.port.idxOf e.interface + 1) })
        hslot []
        (by rw [List.append_nil, firstNames_append_of_mem (Or.inr (h.port ▸ hfound)), ← h.port])
        (by rw [List.append_nil, ← h.uniPort]; exact h.room)
        (by rw [portNumber, if_neg hempty, List.append_nil])
      rw [List.append_nil, ← h.uniPort] at hnum
      exact ⟨hnum, List.length_set .., _, RouteTable.entries_place hslot _⟩
    · cases hassign
      rw [h.uniPort, List.idxOf_lt_length_iff] at hfound
      have hnum := h.place (e := { e with portID := BitVec.ofNat 8 (t.uniPort + 1) })
        hslot [e.interface]
        (by rw [firstNames_append_of_not_mem hempty (h.port ▸ hfound), ← h.port])
        (by rw [List.length_append, ← h.uniPort]; exact hroom)
        (by rw [portNumber, if_neg hempty, List.idxOf_append_of_notMem hfound, h.uniPort]; simp)
      rw [List.length_append, ← h.uniPort] at hnum
      exact ⟨hnum, List.length_set .., _, RouteTable.entries_place hslot _⟩

theorem assign_numPrefix (h : Numbering t) (hslot : t.numPrefix < t.slots.length)
    (hassign : assignPort t e = .ok t') : t'.numPrefix = t.numPrefix + 1 := by
  obtain ⟨h', -, id, hentries⟩ := h.assign hslot hassign
  have hlength := congrArg List.length hentries
  rwa [RouteTable.length_entries h'.filled, List.length_append,
    RouteTable.length_entries h.filled] at hlength

theorem assign_total (h : Numbering t)
    (hroom : (firstNames (t.names ++ [e.interface])).length ≤ portSlots) :
    ∃ t', assignPort t e = .ok t' := by
  have htake : t.port.take t.uniPort = t.port := by rw [h.uniPort, List.take_length]
  unfold assignPort
  rw [htake]
  dsimp only
  by_cases hempty : e.interface = []
  · rw [if_pos hempty]
    exact ⟨_, rfl⟩
  · rw [if_neg hempty]
    split_ifs with hfound hslots
    · exact ⟨_, rfl⟩
    · exact ⟨_, rfl⟩
    · rw [h.uniPort, List.idxOf_lt_length_iff, h.port] at hfound
      rw [firstNames_append_of_not_mem hempty hfound, List.length_append, ← h.port,
        ← h.uniPort] at hroom
      exact absurd hroom hslots

end Numbering

theorem readPrefix_ok {mem : RouteMemory} {file : List Char} {t : RouteTable}
    (h : readPrefix mem file = .ok t) :
    ∃ t₀, Numbering t₀ ∧ t = { t₀ with uniPort := t₀.uniPort + 1 } ∧
      t.entries.length = (pieces 99 file).length - 6 := by
  unfold readPrefix at h
  dsimp only at h
  generalize (countRoutes mem.str file 0).1 = buf at h
  cases hloop : routeLoop mem (skipLines 6 (buf, file)).1 (skipLines 6 (buf, file)).2
      ⟨(List.range (countRoutes mem.str file 0).2).map mem.slot, 0, [], 0⟩ with
  | error e =>
    rw [hloop] at h
    cases h
  | ok t₀ =>
    rw [hloop] at h
    cases h
    obtain ⟨hnum, hcount⟩ := routeLoop_inv (fun k t => Numbering t ∧ t.numPrefix = k) (by
      intro k str t t' buf hI hset
      obtain ⟨hnum, rfl⟩ := hI
      obtain ⟨hslot, -, e, -, hassign⟩ := setPrefix_ok hset
      exact ⟨(hnum.assign hslot hassign).1, hnum.assign_numPrefix hslot hassign⟩) _ ⟨numbering_init _, rfl⟩ hloop
    rw [skipLines_pieces, List.length_drop, Nat.zero_add] at hcount
    exact ⟨t₀, hnum, rfl, (RouteTable.length_entries hnum.filled).trans hcount⟩

/-! ### The loop over the lines -/

section

variable {mem : RouteMemory} {α : Type} {read : Prefix → α} {name : α → List Char}

/-- Whatever is behind the line in the buffer, and whichever entry it becomes, `a` is read off it. -/
def Scans (mem : RouteMemory) (read : Prefix → α) (line : List Char) (a : α) : Prop :=
  ∀ stale index, ∃ e,
    scanPrefix mem ((cutQuote false (line ++ nul :: stale)).drop 1) index = .ok e ∧ read e = a

/-- **The loop over route lines** appends what is read off each of them, as long as there is room for
the names. -/
theorem routeLoop_read (hid : ∀ e id, read { e with portID := id } = read e)
    (hname : ∀ e, name (read e) = e.interface) {file : List Char} {as : List α}
    (hscan : List.Forall₂ (Scans mem read) (pieces 99 file) as) :
    ∀ (buf : List Char) {t : RouteTable}, Numbering t → t.numPrefix + as.length ≤ t.slots.length →
      (∃ t', routeLoop mem buf file t = .ok t' ∧
        t'.entries.map read = t.entries.map read ++ as) ∨
      ((∃ e, routeLoop mem buf file t = .error e) ∧
        portSlots < (firstNames (t.names ++ as.map name)).length) := by
  induction as generalizing file with
  | nil =>
    intro buf t _ _
    rcases fgets_pieces (n := 99) (by decide) buf file with ⟨hget, -⟩ | ⟨piece, rest, -, hcons, -⟩
    · exact Or.inl ⟨t, routeLoop_none hget, (List.append_nil _).symm⟩
    · rw [hcons] at hscan
      cases hscan
  | cons a as ih =>
    intro buf t hnum hroom
    rcases fgets_pieces (n := 99) (by decide) buf file with ⟨-, hnil⟩ | ⟨piece, rest, hget, hcons, -⟩
    · rw [hnil] at hscan
      cases hscan
    rw [hcons] at hscan
    obtain ⟨hline, hrest⟩ := List.forall₂_cons.mp hscan
    rw [List.length_cons] at hroom
    obtain ⟨e, he, ha⟩ := hline (buf.drop (piece.length + 1)) t.numPrefix
    have hslot : t.numPrefix < t.slots.length := by omega
    have hnames : (t.names ++ [e.interface]) ++ as.map name = t.names ++ (a :: as).map name := by
      rw [List.map_cons, ← ha, hname, List.append_assoc, List.singleton_append]
    rw [routeLoop_cons hget, setPrefix_eq hslot he, ← hnames]
    cases hassign : assignPort t e with
    | error fault =>
      refine Or.inr ⟨⟨fault, rfl⟩, ?_⟩
      have hover : ¬ (firstNames (t.names ++ [e.interface])).length ≤ portSlots := by
        intro hle
        obtain ⟨t', ht'⟩ := hnum.assign_total hle
        cases hassign.symm.trans ht'
      have hmono := firstNames_length_le (t.names ++ [e.interface]) (as.map name)
      omega
    | ok t₁ =>
      obtain ⟨hnum₁, hlength, id, hentries⟩ := hnum.assign hslot hassign
      have hcount := hnum.assign_numPrefix hslot hassign
      have hread : t₁.entries.map read = t.entries.map read ++ [a] := by
        rw [hentries, List.map_append, List.map_singleton, hid, ha]
      have hnames₁ : t₁.names = t.names ++ [e.interface] := by
        rw [RouteTable.names, hentries, List.map_append]
        rfl
      have hnext := ih hrest (cutQuote false (piece ++ nul :: buf.drop (piece.length + 1))) hnum₁
        (by omega)
      rw [hread, hnames₁, List.append_assoc, List.singleton_append] at hnext
      exact hnext

/-- **Reading a file**: an entry for each piece behind the first six, unless `port` overflows. -/
theorem readPrefix_read (hid : ∀ e id, read { e with portID := id } = read e)
    (hname : ∀ e, name (read e) = e.interface) {file : List Char} {as : List α}
    (hscan : List.Forall₂ (Scans mem read) ((pieces 99 file).drop 6) as) :
    (∃ t, readPrefix mem file = .ok t ∧ t.entries.map read = as) ∨
      ((∃ e, readPrefix mem file = .error e) ∧ portSlots < (firstNames (as.map name)).length) := by
  have hlength := hscan.length_eq
  rw [List.length_drop] at hlength
  unfold readPrefix
  dsimp only
  rw [← skipLines_pieces 6 (countRoutes mem.str file 0).1 file] at hscan
  rcases routeLoop_read hid hname hscan
    (skipLines 6 ((countRoutes mem.str file 0).1, file)).1 (numbering_init
      ((List.range (countRoutes mem.str file 0).2).map mem.slot)) (by
        rw [countRoutes_eq, List.length_map, List.length_range]
        show 0 + as.length ≤ 0 + _
        omega) with ⟨t, hrun, hread⟩ | ⟨⟨e, hrun⟩, hover⟩
  · rw [hrun]
    exact Or.inl ⟨_, rfl, hread⟩
  · rw [hrun]
    exact Or.inr ⟨⟨e, rfl⟩, hover⟩

end

end AtomicPredicate
