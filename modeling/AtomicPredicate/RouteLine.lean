import AtomicPredicate.ReadRoute

/-!
# Route lines

A route line is an address, a length and the name of an interface in quotes, and then anything. Its
second quote is the one behind the name, so `set_prefix` reads what is printed, whatever follows and
whatever an earlier line left behind in the buffer (`scanPrefix_route`). Only a name that is empty is
not read: the entry is left with what memory held.
-/

namespace AtomicPredicate

open Lib

/-! ### The format -/

def routeLine (ip : BitVec 32) (len : BitVec 8) (interface rest : List Char) : List Char :=
  '[' :: (decimal ip.toNat ++ ',' :: ' ' :: (decimal len.toNat ++ ',' :: ' ' :: '\'' ::
    (interface ++ '\'' :: rest)))

/-- A route, and what follows it on its line. The line and its end fit the buffer. -/
structure Route where
  ip : BitVec 32
  len : BitVec 8
  interface : List Char
  rest : List Char
  plain : ∀ c ∈ interface, isSpace c = false ∧ c ≠ '\'' ∧ c ≠ nul
  rest_line : '\n' ∉ rest
  fits : (routeLine ip len interface rest).length < 99

def Route.line (r : Route) : List Char := routeLine r.ip r.len r.interface r.rest

/-- What is to be read off the line. -/
def Route.decoded (r : Route) : BitVec 32 × BitVec 8 × List Char := (r.ip, r.len, r.interface)

def Prefix.decoded (e : Prefix) : BitVec 32 × BitVec 8 × List Char := (e.ip, e.len, e.interface)

/-- The name that is read: for an empty one, what the buffer held. -/
def Route.name (r : Route) (garbage : List Char) : List Char :=
  if r.interface = [] then garbage else r.interface

def Route.entry (mem : RouteMemory) (garbage : List Char) (r : Route) (index : Nat) : Prefix :=
  { mem.slot index with ip := r.ip, len := r.len, interface := r.name garbage }

/-! ### One line -/

section

variable {mem : RouteMemory} {garbage : List Char} (r : Route)

theorem cutQuote_append {s : List Char} (hs : '\'' ∉ s) (c : Bool) (rest : List Char) :
    cutQuote c (s ++ rest) = s ++ cutQuote c rest := by
  induction s with
  | nil => rfl
  | cons x s ih =>
    rw [List.mem_cons, not_or] at hs
    rw [List.cons_append, cutQuote, if_neg (Ne.symm hs.1), ih hs.2, List.cons_append]

theorem cutQuote_first (rest : List Char) :
    cutQuote false ('\'' :: rest) = '\'' :: cutQuote true rest := by
  rw [cutQuote, if_pos rfl]
  rfl

theorem cutQuote_second (rest : List Char) : cutQuote true ('\'' :: rest) = nul :: rest := by
  rw [cutQuote, if_pos rfl, if_pos rfl]

theorem not_mem_decimal {c : Char} (hc : c.isDigit = false) (n : Nat) : c ∉ decimal n := by
  intro hmem
  have hdigit := decimal_isDigit hmem
  rw [hc] at hdigit
  exact absurd hdigit (by decide)

/-- What is read of the line, behind its first character. -/
def Route.read (r : Route) : List Char :=
  decimal r.ip.toNat ++ ',' :: ' ' :: (decimal r.len.toNat ++ ',' :: ' ' :: '\'' :: r.interface)

theorem cutQuote_line (stale : List Char) :
    cutQuote false (r.line ++ stale) = '[' :: (r.read ++ nul :: (r.rest ++ stale)) := by
  have hhead : '\'' ∉ '[' :: (decimal r.ip.toNat ++ ',' :: ' ' :: (decimal r.len.toNat ++
      [',', ' '])) := by
    simp [not_mem_decimal (show ('\'').isDigit = false from rfl)]
  have hname : '\'' ∉ r.interface := fun h => (r.plain _ h).2.1 rfl
  have hline : r.line ++ stale = ('[' :: (decimal r.ip.toNat ++ ',' :: ' ' :: (decimal r.len.toNat ++
      [',', ' ']))) ++ '\'' :: (r.interface ++ '\'' :: (r.rest ++ stale)) := by
    simp [Route.line, routeLine]
  rw [hline, cutQuote_append hhead, cutQuote_first, cutQuote_append hname, cutQuote_second]
  simp [Route.read]

theorem routeString_append {s : List Char} (hs : nul ∉ s) (p : List Char) :
    routeString (s ++ nul :: p) = pure s := by
  rw [routeString, cstr_append hs]

theorem nul_not_mem_read : nul ∉ r.read := by
  have hname : nul ∉ r.interface := fun h => (r.plain _ h).2.2 rfl
  simp [Route.read, hname, not_mem_decimal (show nul.isDigit = false from rfl),
    show nul ≠ ',' by decide, show nul ≠ ' ' by decide, show nul ≠ '\'' by decide]

theorem sscanf_read :
    sscanf routeFormat r.read =
      [.number (BitVec.ofNat 64 r.ip.toNat), .number (BitVec.ofNat 64 r.len.toNat)] ++
        if r.interface = [] then [] else [.word r.interface] := by
  have hip := r.ip.isLt
  have hlen := r.len.isLt
  obtain ⟨c, digits, hdec, hdigit⟩ := decimal_cons r.len.toNat
  have hc : isSpace c = false := isSpace_of_isDigit hdigit
  have hcomma : ∀ (s : List Char) (a : Char), (',' :: s).head? = some a → a.isDigit = false := by
    rintro s a ⟨⟩
    rfl
  have hword : sscanf [.string] r.interface =
      if r.interface = [] then [] else [.word r.interface] := by
    split_ifs with hempty
    · rw [hempty, sscanf_word_nil]
    · exact sscanf_word (fun c hc => (r.plain c hc).1) hempty
  rw [Route.read, routeFormat, sscanf_decimal (by omega) (hcomma _), sscanf_lit, hdec,
    List.cons_append, sscanf_space hc, ← List.cons_append, ← hdec,
    sscanf_decimal (by omega) (hcomma _), sscanf_lit, sscanf_space (by decide), sscanf_lit, hword]
  rfl

theorem storedNumber_ofNat {w : Nat} (hw : w ≤ 64) (v old : BitVec w) :
    storedNumber w old (some (.number (BitVec.ofNat 64 v.toNat))) = v := by
  have hpow : 2 ^ w ≤ 2 ^ 64 := Nat.pow_le_pow_right (by decide) hw
  have hv := v.isLt
  apply BitVec.eq_of_toNat_eq
  rw [storedNumber, BitVec.toNat_setWidth, BitVec.toNat_ofNat,
    Nat.mod_eq_of_lt (show v.toNat < 2 ^ 64 by omega), Nat.mod_eq_of_lt hv]

/-- **The line is decoded**, but for an empty name. -/
theorem scanPrefix_route {index : Nat}
    (hgarbage : r.interface = [] → cstr (mem.malloc index) = some garbage) (stale : List Char) :
    scanPrefix mem (r.read ++ nul :: stale) index = .ok (r.entry mem garbage index) := by
  have hname : nul ∉ r.interface := fun h => (r.plain _ h).2.2 rfl
  have hstored : routeString (storedWord (mem.malloc index)
      ([.number (BitVec.ofNat 64 r.ip.toNat), .number (BitVec.ofNat 64 r.len.toNat)] ++
        if r.interface = [] then [] else [Conversion.word r.interface])[2]?) =
      .ok (r.name garbage) := by
    unfold Route.name
    split_ifs with hempty
    · rw [List.append_nil]
      show routeString (mem.malloc index) = _
      rw [routeString, hgarbage hempty]
      rfl
    · exact routeString_append hname _
  unfold scanPrefix
  rw [routeString_append (nul_not_mem_read r), pure_bind, sscanf_read]
  dsimp only
  rw [hstored]
  show Except.ok _ = _
  rw [Route.entry]
  simp only [List.cons_append, List.nil_append, List.getElem?_cons_zero, List.getElem?_cons_succ]
  rw [storedNumber_ofNat (by decide), storedNumber_ofNat (by decide)]

theorem Route.line_fits : '\n' ∉ r.line ∧ r.line.length < 99 := by
  have hname : '\n' ∉ r.interface := by
    intro h
    have hspace := (r.plain _ h).1
    exact absurd hspace (by decide)
  refine ⟨?_, r.fits⟩
  simp [Route.line, routeLine, hname, r.rest_line,
    not_mem_decimal (show ('\n').isDigit = false from rfl)]

end

end AtomicPredicate
