import AtomicPredicate.Interfaces
import AtomicPredicate.RouteLine

/-!
# Route files

A route file is six header lines and a line for each route. Its routes are loaded in order if the
header lines fit the buffer, no name is empty and `port` has room for the names. Otherwise they are
not, for some contents of the memory (`readPrefix_loads_iff`): the rest of a long header line is taken
for a route, and an empty name leaves the entry with what its buffer held.
-/

namespace AtomicPredicate

open Lib

structure RouteFile where
  header : List (List Char)
  routes : List Route
  header_length : header.length = 6
  header_line : ∀ l ∈ header, '\n' ∉ l

def RouteFile.text (f : RouteFile) : List Char :=
  linesText f.header ++ linesText (f.routes.map Route.line)

section

variable {mem : RouteMemory} {garbage : List Char}

theorem names_of_decoded {t : RouteTable} {l : List (BitVec 32 × BitVec 8 × List Char)}
    (h : t.entries.map Prefix.decoded = l) : t.names = l.map fun p => p.2.2 := by
  rw [← h, List.map_map]
  rfl

theorem pieces_routes (routes : List Route) :
    (pieces 99 (linesText (routes.map Route.line))).length = routes.length := by
  rw [pieces_lines, List.length_map, List.length_map]
  intro l hl
  obtain ⟨r, -, rfl⟩ := List.mem_map.mp hl
  exact r.line_fits

theorem pieces_text (f : RouteFile) (hfit : ∀ l ∈ f.header, l.length < 99) :
    (pieces 99 f.text).drop 6 = f.routes.map fun r => r.line ++ ['\n'] := by
  have htext : f.text = linesText (f.header ++ f.routes.map Route.line) := by
    rw [RouteFile.text, linesText, linesText, linesText, List.flatMap_append]
  have hlines : ∀ l ∈ f.header ++ f.routes.map Route.line, '\n' ∉ l ∧ l.length < 99 := by
    intro l hl
    rcases List.mem_append.mp hl with hl | hl
    · exact ⟨f.header_line l hl, hfit l hl⟩
    · obtain ⟨r, -, rfl⟩ := List.mem_map.mp hl
      exact r.line_fits
  rw [htext, pieces_lines hlines, List.map_append, List.map_map,
    List.drop_left' (by rw [List.length_map, f.header_length])]
  rfl

theorem Route.scans {r : Route}
    (hgarbage : r.interface = [] → ∀ i, cstr (mem.malloc i) = some garbage) :
    Scans mem Prefix.decoded (r.line ++ ['\n']) (r.ip, r.len, r.name garbage) := by
  intro stale index
  refine ⟨r.entry mem garbage index, ?_, rfl⟩
  rw [List.append_assoc, cutQuote_line, List.drop_succ_cons, List.drop_zero]
  exact scanPrefix_route r (fun hempty => hgarbage hempty index) _

theorem readPrefix_routes (f : RouteFile) (mem : RouteMemory) (garbage : List Char)
    (hfit : ∀ l ∈ f.header, l.length < 99)
    (hgarbage : ∀ r ∈ f.routes, r.interface = [] → ∀ i, cstr (mem.malloc i) = some garbage) :
    (∃ t, readPrefix mem f.text = .ok t ∧
      t.entries.map Prefix.decoded = f.routes.map fun r => (r.ip, r.len, r.name garbage)) ∨
    ((∃ e, readPrefix mem f.text = .error e) ∧
      portSlots < (firstNames (f.routes.map fun r => r.name garbage)).length) := by
  have hscan : List.Forall₂ (Scans mem Prefix.decoded) ((pieces 99 f.text).drop 6)
      (f.routes.map fun r => (r.ip, r.len, r.name garbage)) := by
    rw [pieces_text f hfit, List.forall₂_map_left_iff, List.forall₂_map_right_iff,
      List.forall₂_same]
    exact fun r hr => Route.scans (hgarbage r hr)
  have hname : ∀ e : Prefix, (Prod.snd ∘ Prod.snd) e.decoded = e.interface := fun _ => rfl
  rcases readPrefix_read (fun _ _ => rfl) hname hscan with h | ⟨herr, hover⟩
  · exact Or.inl h
  · rw [List.map_map] at hover
    exact Or.inr ⟨herr, hover⟩

end

/-! ### What is loaded -/

/-- Memory in which every new buffer holds `a`. -/
def dirtyMemory : RouteMemory where
  slot _ := ⟨0, 0, 0, []⟩
  malloc _ := 'a' :: List.replicate 99 nul
  str := List.replicate 100 nul
  malloc_length _ := rfl
  str_length := rfl

/-- The routes are the entries of the table, in order, whatever memory holds. -/
def LoadsRoutes (f : RouteFile) : Prop :=
  ∀ mem, ∃ t, readPrefix mem f.text = .ok t ∧
    t.entries.map Prefix.decoded = f.routes.map Route.decoded

namespace LoadsRoutes

variable {f : RouteFile}

theorem header_fits (h : LoadsRoutes f) : ∀ l ∈ f.header, l.length < 99 := by
  obtain ⟨t, hrun, hdecoded⟩ := h dirtyMemory
  obtain ⟨-, -, -, hlength⟩ := readPrefix_ok hrun
  have hcount := congrArg List.length hdecoded
  rw [List.length_map, List.length_map, hlength] at hcount
  obtain ⟨hle, hfits⟩ := pieces_lines_length (n := 99) (by decide) f.header_line
    (linesText (f.routes.map Route.line))
  have hheader := f.header_length
  apply hfits.mp
  rw [pieces_routes] at hle ⊢
  rw [RouteFile.text] at hcount
  omega

theorem name_ne_nil (h : LoadsRoutes f) : ∀ r ∈ f.routes, r.interface ≠ [] := by
  intro r hr hempty
  obtain ⟨t, hrun, hdecoded⟩ := h dirtyMemory
  rcases readPrefix_routes f dirtyMemory ['a'] h.header_fits
    (fun _ _ _ _ => rfl) with ⟨t', hrun', hdecoded'⟩ | ⟨⟨e, hrun'⟩, -⟩
  · cases hrun.symm.trans hrun'
    have hsame := List.map_inj_left.mp (hdecoded'.symm.trans hdecoded) r hr
    simp only [Route.decoded, Route.name, hempty, if_true, Prod.mk.injEq] at hsame
    cases hsame.2.2
  · cases hrun.symm.trans hrun'

theorem names_fit (h : LoadsRoutes f) :
    (firstNames (f.routes.map Route.interface)).length ≤ portSlots := by
  obtain ⟨t, hrun, hdecoded⟩ := h dirtyMemory
  obtain ⟨t₀, hnum, rfl, -⟩ := readPrefix_ok hrun
  have hnames : t₀.names = f.routes.map Route.interface := by
    rw [names_of_decoded (t := t₀) hdecoded, List.map_map]
    rfl
  rw [← hnames, ← hnum.port, ← hnum.uniPort]
  exact hnum.room

end LoadsRoutes

/-- **Loading a route file** decodes every route, whatever memory holds, if and only if the header lines
fit the buffer, no name is empty, and there are at most as many names as `port` has slots. -/
theorem readPrefix_loads_iff (f : RouteFile) :
    (∀ mem, ∃ t, readPrefix mem f.text = .ok t ∧
      t.entries.map Prefix.decoded = f.routes.map Route.decoded) ↔
    (∀ l ∈ f.header, l.length < 99) ∧ (∀ r ∈ f.routes, r.interface ≠ []) ∧
      (firstNames (f.routes.map Route.interface)).length ≤ portSlots := by
  constructor
  · intro h
    exact ⟨LoadsRoutes.header_fits h, LoadsRoutes.name_ne_nil h, LoadsRoutes.names_fit h⟩
  · intro h mem
    obtain ⟨hfit, hne, hnames⟩ := h
    have hname : ∀ r ∈ f.routes, r.name [] = r.interface := fun r hr => if_neg (hne r hr)
    have hlist : (f.routes.map fun r => r.name []) = f.routes.map Route.interface :=
      List.map_congr_left hname
    rcases readPrefix_routes f mem [] hfit
      (fun r hr hempty => absurd hempty (hne r hr)) with ⟨t, hrun, hdecoded⟩ | ⟨-, hover⟩
    · refine ⟨t, hrun, hdecoded.trans (List.map_congr_left fun r hr => ?_)⟩
      rw [hname r hr]
      rfl
    · rw [hlist] at hover
      omega

/-- The default route of a table, with no interface. -/
def dropRoute : Route where
  ip := 0
  len := 0
  interface := []
  rest := ", [1]]".toList
  plain := by simp
  rest_line := by decide
  fits := by decide

def routeFile (routes : List Route) : RouteFile where
  header := List.replicate 6 "===".toList
  routes := routes
  header_length := rfl
  header_line := by simp

theorem routeFile_fits (routes : List Route) : ∀ l ∈ (routeFile routes).header, l.length < 99 := by
  simp [routeFile]

/-- A route without an interface gets what was in memory for one. -/
theorem not_loadsRoutes_drop :
    (∃ t, readPrefix dirtyMemory (routeFile [dropRoute]).text = .ok t ∧
      t.entries.map Prefix.decoded = [(0, 0, ['a'])]) ∧
    ¬ ∀ mem, ∃ t, readPrefix mem (routeFile [dropRoute]).text = .ok t ∧
      t.entries.map Prefix.decoded = [dropRoute].map Route.decoded := by
  refine ⟨?_, fun h => LoadsRoutes.name_ne_nil (f := routeFile [dropRoute]) h dropRoute
    (List.mem_singleton_self _) rfl⟩
  rcases readPrefix_routes (routeFile [dropRoute]) dirtyMemory ['a'] (routeFile_fits _)
    (fun _ _ _ _ => rfl) with h | ⟨-, hover⟩
  · exact h
  · exact absurd hover (by decide)

end AtomicPredicate
