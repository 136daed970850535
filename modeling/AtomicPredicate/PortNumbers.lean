import AtomicPredicate.RouteFile

/-!
# Port numbers

The numbers that `read_prefix` gives to the interfaces are those of a numbering by first appearance of
the names that the lines give, whatever memory held, if and only if every line gives a name and there
are at most `255` of them (`readPrefix_numbered_iff`). The number of the 256th name wraps to that of
the empty interface, and a line without a name gets the number of what its buffer held.
-/

namespace AtomicPredicate

open Lib

/-! ### The names of a file -/

/-- What `sscanf` is given of a line. -/
def lineString (line : List Char) : List Char :=
  (cstr ((cutQuote false (line ++ [nul])).drop 1)).getD []

/-- The name that a line gives, and the empty one if the conversion fails. -/
def lineName (line : List Char) : List Char :=
  match (sscanf routeFormat (lineString line))[2]? with
  | some (Conversion.word s) => s
  | _ => []

/-- The names of the lines behind the header. -/
def lineNames (file : List Char) : List (List Char) := ((pieces 99 file).drop 6).map lineName

/-- The name of the entry, if its buffer held `garbage`. -/
def storedName (garbage s : List Char) : List Char := if s = [] then garbage else s

section

variable {mem : RouteMemory} {garbage file : List Char}

theorem cstr_cutQuote (c : Bool) (s stale : List Char) :
    ∃ s', cstr (cutQuote c (s ++ nul :: stale)) = some s' ∧
      cstr (cutQuote c (s ++ [nul])) = some s' ∧ nul ∉ s' := by
  induction s generalizing c with
  | nil => exact ⟨[], rfl, rfl, List.not_mem_nil⟩
  | cons x s ih =>
    rw [List.cons_append, List.cons_append, cutQuote, cutQuote]
    by_cases hnul : x = nul
    · subst hnul
      exact ⟨[], rfl, rfl, List.not_mem_nil⟩
    · have hcons : ∀ c', ∃ s', cstr (x :: cutQuote c' (s ++ nul :: stale)) = some s' ∧
          cstr (x :: cutQuote c' (s ++ [nul])) = some s' ∧ nul ∉ s' := by
        intro c'
        obtain ⟨s', h, h', hs'⟩ := ih c'
        rw [cstr, cstr, if_neg hnul, if_neg hnul, h, h']
        refine ⟨x :: s', rfl, rfl, ?_⟩
        rw [List.mem_cons, not_or]
        exact ⟨Ne.symm hnul, hs'⟩
      split_ifs
      · exact ⟨[], rfl, rfl, List.not_mem_nil⟩
      · exact hcons true
      · exact hcons c

theorem cstr_line {line : List Char} (hne : line ≠ []) (stale : List Char) :
    cstr ((cutQuote false (line ++ nul :: stale)).drop 1) = some (lineString line) ∧
      nul ∉ lineString line := by
  obtain ⟨x, s, rfl⟩ := List.exists_cons_of_ne_nil hne
  have hdrop : ∀ tail, (cutQuote false (x :: (s ++ tail))).drop 1 =
      cutQuote (decide (x = '\'')) (s ++ tail) := by
    intro tail
    rw [cutQuote]
    by_cases hx : x = '\'' <;> simp [hx]
  obtain ⟨s', h, h', hs'⟩ := cstr_cutQuote (decide (x = '\'')) s stale
  rw [lineString, List.cons_append, List.cons_append, hdrop, hdrop, h, h']
  exact ⟨rfl, hs'⟩

/-- **The name of an entry** is the one that its line gives, or else what memory held. -/
theorem lineName_scans {line : List Char} (hne : line ≠ [])
    (hgarbage : lineName line = [] → ∀ i, cstr (mem.malloc i) = some garbage) :
    Scans mem Prefix.interface line (storedName garbage (lineName line)) := by
  intro stale index
  obtain ⟨hstring, hnul⟩ := cstr_line hne stale
  have hfail : lineName line = [] → routeString (mem.malloc index) =
      .ok (storedName garbage (lineName line)) := by
    intro hempty
    rw [routeString, hgarbage hempty, storedName, if_pos hempty]
    rfl
  have hinterface : routeString (storedWord (mem.malloc index)
      (sscanf routeFormat (lineString line))[2]?) =
      .ok (storedName garbage (lineName line)) := by
    cases hword : (sscanf routeFormat (lineString line))[2]? with
    | none => exact hfail (by rw [lineName, hword])
    | some conversion =>
      cases conversion with
      | number v => exact hfail (by rw [lineName, hword])
      | word s =>
        obtain ⟨hs, hsub⟩ := word_mem_sscanf (List.mem_of_getElem? hword)
        have hname : lineName line = s := by rw [lineName, hword]
        rw [hname, storedName, if_neg hs, routeString, storedWord, cstr_append fun h => hnul (hsub h)]
        rfl
  unfold scanPrefix
  rw [routeString, hstring]
  simp only [pure_bind, hinterface]
  exact ⟨_, rfl, rfl⟩

theorem storedName_nil : storedName [] = id := by
  funext s
  unfold storedName
  split_ifs with hempty
  · exact hempty.symm
  · rfl

/-- **The names of the entries**, for a memory that holds one string in every buffer. -/
theorem readPrefix_names (mem : RouteMemory) (garbage file : List Char)
    (hgarbage : [] ∈ lineNames file → ∀ i, cstr (mem.malloc i) = some garbage) :
    (∃ t, readPrefix mem file = .ok t ∧ t.entries.map Prefix.interface =
      (lineNames file).map (storedName garbage)) ∨
    ((∃ e, readPrefix mem file = .error e) ∧ portSlots <
      (firstNames ((lineNames file).map (storedName garbage))).length) := by
  have hscan : List.Forall₂ (Scans mem Prefix.interface) ((pieces 99 file).drop 6)
      ((lineNames file).map (storedName garbage)) := by
    rw [lineNames, List.map_map, List.forall₂_map_right_iff, List.forall₂_same]
    intro line hline
    refine lineName_scans (pieces_ne_nil (List.mem_of_mem_drop hline)) fun hempty => ?_
    exact hgarbage (List.mem_map.mpr ⟨line, hline, hempty⟩)
  have hname : ∀ e : Prefix, id e.interface = e.interface := fun _ => rfl
  have h := readPrefix_read (fun _ _ => rfl) hname hscan
  rwa [List.map_id] at h

theorem readPrefix_lineNames (hne : [] ∉ lineNames file)
    (hroom : (firstNames (lineNames file)).length ≤ portSlots) (mem : RouteMemory) :
    ∃ t, readPrefix mem file = .ok t ∧ t.entries.map Prefix.interface = lineNames file := by
  have h := readPrefix_names mem [] file fun hempty => absurd hempty hne
  rw [storedName_nil, List.map_id] at h
  rcases h with h | ⟨-, hover⟩
  · exact h
  · exact absurd hroom (not_le.mpr hover)

end

/-! ### The numbering -/

/-- The numbers of the entries are a numbering of the names by first appearance, with `0` for none. -/
structure PortsNumbered (entries : List Prefix) (uniPort : Nat) : Prop where
  same_iff : ∀ e ∈ entries, ∀ e' ∈ entries, e.portID = e'.portID ↔ e.interface = e'.interface
  drop_iff : ∀ e ∈ entries, e.portID = 0 ↔ e.interface = []
  order : ∀ e ∈ entries, e.interface ≠ [] →
    e.portID.toNat = (firstNames (entries.map Prefix.interface)).idxOf e.interface + 1
  count : uniPort = (firstNames (entries.map Prefix.interface)).length + 1
  bound : ∀ e ∈ entries, e.portID.toNat < uniPort

section

variable {t : RouteTable}

theorem toNat_portNumber {port : List (List Char)} (hlen : port.length ≤ 255) {s : List Char}
    (hs : s = [] ∨ s ∈ port) :
    (portNumber port s).toNat = if s = [] then 0 else port.idxOf s + 1 := by
  unfold portNumber
  by_cases hempty : s = []
  · rw [if_pos hempty, if_pos hempty]
    rfl
  · have hidx := List.idxOf_lt_length_iff.mpr (hs.resolve_left hempty)
    rw [if_neg hempty, if_neg hempty, BitVec.toNat_ofNat, Nat.mod_eq_of_lt (by omega)]

theorem Numbering.portsNumbered (h : Numbering t) (hlen : (firstNames t.names).length ≤ 255) :
    PortsNumbered t.entries (t.uniPort + 1) := by
  have hnat : ∀ e ∈ t.entries, e.portID.toNat =
      if e.interface = [] then 0 else t.port.idxOf e.interface + 1 := by
    intro e he
    rw [h.portID e he]
    exact toNat_portNumber (h.port ▸ hlen) (h.name_mem he)
  refine ⟨fun e he e' he' => ?_, fun e he => ?_, fun e he hne => ?_, ?_, fun e he => ?_⟩
  · rw [← BitVec.toNat_inj, hnat e he, hnat e' he']
    constructor
    · intro heq
      split_ifs at heq with h1 h2
      · rw [h1, h2]
      · exact (List.idxOf_inj ((h.name_mem he).resolve_left h1)).mp (Nat.succ.inj heq)
    · intro heq
      rw [heq]
  · rw [← BitVec.toNat_inj, hnat e he]
    by_cases hempty : e.interface = []
    · rw [if_pos hempty]
      exact iff_of_true rfl hempty
    · rw [if_neg hempty]
      exact iff_of_false (Nat.succ_ne_zero _) hempty
  · rw [hnat e he, if_neg hne, h.port]
    rfl
  · rw [h.uniPort, h.port]
    rfl
  · rw [hnat e he]
    split_ifs with hempty
    · omega
    · have hidx := List.idxOf_lt_length_iff.mpr ((h.name_mem he).resolve_left hempty)
      rw [h.uniPort]
      omega

theorem Numbering.not_portsNumbered (h : Numbering t) (hlen : 255 < (firstNames t.names).length)
    (n : Nat) : ¬ PortsNumbered t.entries n := by
  intro hnumbered
  have hmem := List.getElem_mem hlen
  obtain ⟨hname, hne⟩ := mem_firstNames.mp hmem
  obtain ⟨e, he, hinterface⟩ := List.mem_map.mp hname
  have hzero : e.portID = 0 := by
    rw [h.portID e he, portNumber, hinterface, if_neg hne, h.port,
      firstNames_nodup.idxOf_getElem]
    rfl
  exact hne (hinterface ▸ (hnumbered.drop_iff e he).mp hzero)

end

/-! ### The numbers of the lines -/

/-- The entries under the names that their lines give. -/
def underNames (names : List (List Char)) (entries : List Prefix) : List Prefix :=
  List.zipWith (fun s e => { e with interface := s }) names entries

/-- Whatever memory holds, a finished `read_prefix` numbers the names that the lines give. -/
def NumbersLines (file : List Char) : Prop :=
  ∀ mem t, readPrefix mem file = .ok t →
    PortsNumbered (underNames (lineNames file) t.entries) t.uniPort

/-- Memory in which every new buffer is empty. -/
def cleanMemory : RouteMemory where
  slot _ := ⟨0, 0, 0, []⟩
  malloc _ := List.replicate 100 nul
  str := List.replicate 100 nul
  malloc_length _ := List.length_replicate
  str_length := List.length_replicate

section

variable {file : List Char} {names : List (List Char)} {entries : List Prefix}

theorem underNames_self (h : entries.map Prefix.interface = names) :
    underNames names entries = entries := by
  subst h
  rw [underNames, List.zipWith_map_left, List.zipWith_self]
  exact List.map_id' entries

theorem interface_underNames (h : entries.length = names.length) :
    (underNames names entries).map Prefix.interface = names := by
  rw [underNames, List.map_zipWith]
  have hfst := List.map_fst_zip h.ge
  rwa [List.zip, List.map_zipWith] at hfst

theorem mem_underNames {f : List Char → List Char}
    (h : entries.map Prefix.interface = names.map f) {s : List Char} (hs : s ∈ names) :
    ∃ e ∈ entries, e.interface = f s ∧ { e with interface := s } ∈ underNames names entries := by
  induction names generalizing entries with
  | nil => exact absurd hs List.not_mem_nil
  | cons s' names ih =>
    cases entries with
    | nil => cases h
    | cons e entries =>
      obtain ⟨he, hrest⟩ := List.cons.inj h
      rcases List.mem_cons.mp hs with rfl | hs
      · exact ⟨e, List.mem_cons_self, he, List.mem_cons_self⟩
      · obtain ⟨e', he', hname, hmem⟩ := ih hrest hs
        exact ⟨e', List.mem_cons_of_mem _ he', hname, List.mem_cons_of_mem _ hmem⟩

namespace NumbersLines

theorem length_le (h : NumbersLines file)
    (hroom : (firstNames (lineNames file)).length ≤ portSlots) :
    (firstNames (lineNames file)).length ≤ 255 := by
  have hclean := readPrefix_names cleanMemory [] file fun _ _ => rfl
  rw [storedName_nil, List.map_id] at hclean
  rcases hclean with ⟨t, hrun, hnames⟩ | ⟨-, hover⟩
  · have hnumbered := h cleanMemory t hrun
    rw [underNames_self hnames] at hnumbered
    obtain ⟨t₀, hnum, rfl, -⟩ := readPrefix_ok hrun
    by_contra hlen
    rw [← hnames] at hlen
    exact hnum.not_portsNumbered (not_le.mp hlen) _ hnumbered
  · exact absurd hroom (not_le.mpr hover)

theorem name_ne_nil (h : NumbersLines file) (hlen : (firstNames (lineNames file)).length ≤ 255) :
    [] ∉ lineNames file := by
  intro hempty
  rcases readPrefix_names dirtyMemory ['a'] file (fun _ _ => rfl) with
    ⟨t, hrun, hnames⟩ | ⟨-, hover⟩
  · have hnumbered := h dirtyMemory t hrun
    obtain ⟨t₀, hnum, rfl, -⟩ := readPrefix_ok hrun
    have hlength : t₀.entries.length = (lineNames file).length := by
      have := congrArg List.length hnames
      rwa [List.length_map, List.length_map] at this
    have hcount : t₀.uniPort + 1 = (firstNames
        ((underNames (lineNames file) t₀.entries).map Prefix.interface)).length + 1 := hnumbered.count
    rw [interface_underNames hlength] at hcount
    have hport : t₀.port.length ≤ 255 := by
      rw [← hnum.uniPort]
      omega
    obtain ⟨e, he, hdirty, hmem⟩ := mem_underNames hnames hempty
    have hzero : e.portID = 0 := (hnumbered.drop_iff _ hmem).mpr rfl
    have hnumber := toNat_portNumber hport (hnum.name_mem he)
    rw [← hnum.portID e he, hzero, hdirty] at hnumber
    cases hnumber
  · have hsub : firstNames ((lineNames file).map (storedName ['a'])) ⊆
        ['a'] :: firstNames (lineNames file) := by
      intro s hs
      obtain ⟨hs, hne⟩ := mem_firstNames.mp hs
      obtain ⟨s', hs', rfl⟩ := List.mem_map.mp hs
      unfold storedName
      split_ifs with hs0
      · exact List.mem_cons_self
      · exact List.mem_cons_of_mem _ (mem_firstNames.mpr ⟨hs', hs0⟩)
    have hle := (List.subperm_of_subset firstNames_nodup hsub).length_le
    rw [List.length_cons] at hle
    have : portSlots = 1250 := rfl
    omega

end NumbersLines

end

/-- **The port numbers** of a finished `read_prefix` number the names that the lines give by first
appearance, whatever memory held, if and only if every line gives a name and there are at most `255`
names. A file whose lines all give names is read, with these names. -/
theorem readPrefix_numbered_iff (file : List Char)
    (hroom : (firstNames (lineNames file)).length ≤ portSlots) :
    ((∀ mem t, readPrefix mem file = .ok t →
      PortsNumbered (underNames (lineNames file) t.entries) t.uniPort) ↔
    (∀ s ∈ lineNames file, s ≠ []) ∧ (firstNames (lineNames file)).length ≤ 255) ∧
    ((∀ s ∈ lineNames file, s ≠ []) →
      ∀ mem, ∃ t, readPrefix mem file = .ok t ∧ t.entries.map Prefix.interface = lineNames file) := by
  have hread : (∀ s ∈ lineNames file, s ≠ []) → ∀ mem, ∃ t, readPrefix mem file = .ok t ∧
      t.entries.map Prefix.interface = lineNames file :=
    fun hne => readPrefix_lineNames (fun hempty => hne [] hempty rfl) hroom
  refine ⟨⟨fun h => ?_, fun h mem t hrun => ?_⟩, hread⟩
  · have hlen := NumbersLines.length_le h hroom
    exact ⟨fun s hs hempty => NumbersLines.name_ne_nil h hlen (hempty ▸ hs), hlen⟩
  · obtain ⟨hne, hlen⟩ := h
    obtain ⟨t', hrun', hnames⟩ := hread hne mem
    cases hrun.symm.trans hrun'
    rw [underNames_self hnames]
    obtain ⟨t₀, hnum, rfl, -⟩ := readPrefix_ok hrun
    apply hnum.portsNumbered
    rw [RouteTable.names, show t₀.entries.map Prefix.interface = lineNames file from hnames]
    exact hlen

def selfRoutes : List Route :=
  let route (len : BitVec 8) (interface : List Char)
      (plain : ∀ c ∈ interface, isSpace c = false ∧ c ≠ '\'' ∧ c ≠ nul)
      (fits : (routeLine 0 len interface [']']).length < 99) : Route :=
    ⟨0, len, interface, [']'], plain, by decide, fits⟩
  [route 0 "te1/1.2".toList (by simp; decide) (by decide),
    route 8 "self".toList (by simp; decide) (by decide),
    route 32 "self".toList (by simp; decide) (by decide)]

theorem lineName_route (r : Route) : lineName (r.line ++ ['\n']) = r.interface := by
  have hstring : lineString (r.line ++ ['\n']) = r.read := by
    rw [lineString, List.append_assoc, cutQuote_line, List.drop_succ_cons, List.drop_zero,
      cstr_append (nul_not_mem_read r)]
    rfl
  rw [lineName, hstring, sscanf_read]
  by_cases hempty : r.interface = [] <;> simp [hempty]

theorem lineNames_routes (routes : List Route) :
    lineNames (routeFile routes).text = routes.map Route.interface := by
  rw [lineNames, pieces_text _ (routeFile_fits routes), List.map_map]
  exact List.map_congr_left fun r _ => lineName_route r

/-- Three routes over two interfaces are numbered, in any memory. -/
theorem readPrefix_numbered_self :
    firstNames (lineNames (routeFile selfRoutes).text) = ["te1/1.2".toList, "self".toList] ∧
      ∀ mem, ∃ t, readPrefix mem (routeFile selfRoutes).text = .ok t ∧
        PortsNumbered (underNames (lineNames (routeFile selfRoutes).text) t.entries) t.uniPort := by
  have hnames := lineNames_routes selfRoutes
  have hne : ∀ s ∈ lineNames (routeFile selfRoutes).text, s ≠ [] := by
    rw [hnames]
    decide
  obtain ⟨hiff, hread⟩ := readPrefix_numbered_iff (routeFile selfRoutes).text (by rw [hnames]; decide)
  refine ⟨by rw [hnames]; decide, fun mem => ?_⟩
  obtain ⟨t, hrun, -⟩ := hread hne mem
  exact ⟨t, hrun, hiff.mpr ⟨hne, by rw [hnames]; decide⟩ mem t hrun⟩

theorem plain_decimal (n : Nat) : ∀ c ∈ decimal n, isSpace c = false ∧ c ≠ '\'' ∧ c ≠ nul := by
  intro c hc
  have hdigit := decimal_isDigit hc
  refine ⟨isSpace_of_isDigit hdigit, ?_, ?_⟩
  · intro h
    rw [h] at hdigit
    exact absurd hdigit (by decide)
  · intro h
    rw [h] at hdigit
    exact absurd hdigit (by decide)

theorem portRoute_fits (i : Fin 256) : (routeLine 0 32 (decimal i) [']']).length < 99 := by
  have hlen := (decimal_length (n := i) (k := 3) (by decide)).mpr (by have := i.isLt; omega)
  have hip : (decimal (0 : BitVec 32).toNat).length = 1 := by decide
  have hwidth : (decimal (32 : BitVec 8).toNat).length = 2 := by decide
  simp only [routeLine, List.length_cons, List.length_append, hip, hwidth, List.length_nil]
  omega

theorem bracket_line : '\n' ∉ [']'] := by decide

def portRoute (i : Fin 256) : Route where
  ip := 0
  len := 32
  interface := decimal i
  rest := [']']
  plain := plain_decimal i
  rest_line := bracket_line
  fits := portRoute_fits i

def portRoutes : List Route := (List.finRange 256).map portRoute

theorem decimal_injective : Function.Injective decimal := by
  intro m n h
  have hm : number (decimal m ++ []) = some (false, m) := number_decimal m (by simp)
  rw [h, number_decimal n (by simp)] at hm
  exact (Prod.mk.inj (Option.some.inj hm)).2.symm

theorem firstNames_of_nodup {names : List (List Char)} (hnodup : names.Nodup)
    (hne : [] ∉ names) : firstNames names = names := by
  induction names using List.reverseRecOn with
  | nil => rfl
  | append_singleton names s ih =>
    rw [List.nodup_append] at hnodup
    rw [List.mem_append, not_or, List.mem_singleton] at hne
    have hs : s ∉ firstNames names := fun h =>
      hnodup.2.2 s (mem_firstNames.mp h).1 s (List.mem_singleton_self s) rfl
    rw [firstNames_append_of_not_mem (Ne.symm hne.2) hs, ih hnodup.1 hne.1]

theorem firstNames_portRoutes :
    (firstNames (portRoutes.map Route.interface)).length = 256 := by
  have hnames : portRoutes.map Route.interface =
      (List.finRange 256).map fun i : Fin 256 => decimal i := by
    rw [portRoutes, List.map_map]
    exact List.map_congr_left fun i _ => rfl
  rw [hnames, firstNames_of_nodup, List.length_map, List.length_finRange]
  · exact (List.nodup_finRange 256).map (decimal_injective.comp Fin.val_injective)
  · intro hmem
    obtain ⟨i, -, hi⟩ := List.mem_map.mp hmem
    exact decimal_ne_nil _ hi

/-- With `256` interfaces the last one is numbered like none, and a route without an interface may be
numbered like one. -/
theorem readPrefix_numbered_wraps :
    (∃ t, readPrefix dirtyMemory (routeFile portRoutes).text = .ok t ∧
      ¬ PortsNumbered t.entries t.uniPort) ∧
    ¬ ∀ mem t, readPrefix mem (routeFile [dropRoute]).text = .ok t →
      PortsNumbered (underNames (lineNames (routeFile [dropRoute]).text) t.entries) t.uniPort := by
  constructor
  · have hnames := lineNames_routes portRoutes
    have hne : [] ∉ lineNames (routeFile portRoutes).text := by
      rw [hnames]
      intro hmem
      obtain ⟨r, hr, hempty⟩ := List.mem_map.mp hmem
      obtain ⟨i, -, rfl⟩ := List.mem_map.mp hr
      exact decimal_ne_nil _ hempty
    obtain ⟨t, hrun, hentries⟩ := readPrefix_lineNames hne
      (by rw [hnames, firstNames_portRoutes]; decide) dirtyMemory
    refine ⟨t, hrun, ?_⟩
    obtain ⟨t₀, hnum, rfl, -⟩ := readPrefix_ok hrun
    apply hnum.not_portsNumbered
    rw [RouteTable.names, show t₀.entries.map Prefix.interface = _ from hentries, hnames,
      firstNames_portRoutes]
    decide
  · intro h
    have hnames := lineNames_routes [dropRoute]
    refine NumbersLines.name_ne_nil h ?_ ?_ <;> rw [hnames]
    · decide
    · exact List.mem_singleton_self _

end AtomicPredicate
