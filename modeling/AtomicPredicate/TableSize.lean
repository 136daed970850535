import AtomicPredicate.LongLine

/-!
# The size of the table

The first pass of `read_rule` counts what `fgets` returns and allocates `(L - 2) / 2` entries: one for
each two pieces between a header and a trailer. The second pass takes the pieces as it finds them.
Behind the header it calls `set_rule` for every piece that starts neither with `=` nor with `[`, and
takes one more piece with it, if there is one.

So the table is too small when no piece is left for the trailer: when the second pass runs into the
end of the file, and has skipped nothing, or one piece and ended in an ID without a line
(`Overruns`). Such a file makes `set_rule` write past the table (`setRuleCalls_le_iff`).
-/

namespace AtomicPredicate

open Lib

/-! ### The calls -/

/-- The second pass behind the header, with the calls of `set_rule` only counted: a call changes the
buffer, which `fgets` overwrites before it is looked at again. -/
def callLoop (buf file : List Char) : Nat :=
  match _h : fgets 50000 buf file with
  | none => 0
  | some (buf', file') =>
    if buf'.head? = some '=' then 0
    else if buf'.head? = some '[' then callLoop buf' file'
    else callLoop (readLine buf' file').1 (readLine buf' file').2 + 1
termination_by file.length
decreasing_by
  · exact fgets_length (by decide) _h
  · exact lt_of_le_of_lt (readLine_length _ _) (fgets_length (by decide) _h)

/-- The number of times `read_rule` calls `set_rule`, if every call returns. -/
def setRuleCalls (mem : Memory) (file : List Char) : Nat :=
  let (buf, _) := countLines mem.str file 0
  let (buf, file) := readLine buf file
  callLoop buf file

def callsOf : List (List Char) → Nat
  | [] => 0
  | [piece] => if piece.head? = some '=' then 0 else if piece.head? = some '[' then 0 else 1
  | piece :: line :: ps =>
    if piece.head? = some '=' then 0
    else if piece.head? = some '[' then callsOf (line :: ps)
    else callsOf ps + 1

/-- The piece is taken for an ID line. -/
def IsId (piece : List Char) : Prop := piece.head? ≠ some '=' ∧ piece.head? ≠ some '['

theorem callsOf_break {piece : List Char} (h : piece.head? = some '=') (ps : List (List Char)) :
    callsOf (piece :: ps) = 0 := by
  cases ps <;> exact if_pos h

theorem callsOf_skip {piece : List Char} (h : piece.head? = some '[') (ps : List (List Char)) :
    callsOf (piece :: ps) = callsOf ps := by
  have hne : piece.head? ≠ some '=' := by
    rw [h]
    decide
  cases ps with
  | nil => exact (if_neg hne).trans (if_pos h)
  | cons line ps => rw [callsOf, if_neg hne, if_pos h]

theorem callsOf_id {piece : List Char} (h : IsId piece) (ps : List (List Char)) :
    callsOf (piece :: ps) = callsOf ps.tail + 1 := by
  cases ps <;> rw [callsOf, if_neg h.1, if_neg h.2] <;> rfl

/-! ### The files that need more -/

/-- Pairs of an ID line and the piece behind it, and then a rest. -/
inductive Paired (rest : List (List Char) → Prop) : List (List Char) → Prop
  | rest {ps : List (List Char)} (h : rest ps) : Paired rest ps
  | pair {id line : List Char} {ps : List (List Char)} (hid : IsId id) (h : Paired rest ps) :
    Paired rest (id :: line :: ps)

/-- Pairs up to the end of the file. -/
def Pairs : List (List Char) → Prop := Paired (· = [])

/-- Pairs, and an ID line at the end of the file. -/
def EndsInId : List (List Char) → Prop := Paired fun ps => ∃ id, IsId id ∧ ps = [id]

/-- Pairs up to an ID line at the end of the file, but for one piece that is skipped. -/
def OneSkipped : List (List Char) → Prop :=
  Paired fun ps => ∃ piece ps', piece.head? = some '[' ∧ EndsInId ps' ∧ ps = piece :: ps'

/-- No piece is left for the trailer: every piece belongs to an entry, of which the last may lack its
line, or all but one do and the last lacks its line. -/
def Overruns (ps : List (List Char)) : Prop :=
  (ps ≠ [] ∧ Pairs ps) ∨ EndsInId ps ∨ OneSkipped ps

section

variable {rest : List (List Char) → Prop} {piece line : List Char} {ps : List (List Char)}

theorem paired_nil : Paired rest [] ↔ rest [] := by
  constructor
  · intro h
    cases h with
    | rest h => exact h
  · exact .rest

theorem paired_singleton : Paired rest [piece] ↔ rest [piece] := by
  constructor
  · intro h
    cases h with
    | rest h => exact h
  · exact .rest

theorem paired_cons :
    Paired rest (piece :: line :: ps) ↔
      rest (piece :: line :: ps) ∨ (IsId piece ∧ Paired rest ps) := by
  constructor
  · intro h
    cases h with
    | rest h => exact Or.inl h
    | pair hid h => exact Or.inr ⟨hid, h⟩
  · rintro (h | ⟨hid, h⟩)
    · exact .rest h
    · exact .pair hid h

@[simp] theorem pairs_nil : Pairs [] := .rest rfl

@[simp] theorem pairs_singleton : ¬ Pairs [piece] := by
  simp [Pairs, paired_singleton]

@[simp] theorem pairs_cons : Pairs (piece :: line :: ps) ↔ IsId piece ∧ Pairs ps := by
  simp [Pairs, paired_cons]

@[simp] theorem endsInId_nil : ¬ EndsInId [] := by
  simp [EndsInId, paired_nil]

@[simp] theorem endsInId_singleton : EndsInId [piece] ↔ IsId piece := by
  simp [EndsInId, paired_singleton]

@[simp] theorem endsInId_cons : EndsInId (piece :: line :: ps) ↔ IsId piece ∧ EndsInId ps := by
  simp [EndsInId, paired_cons]

@[simp] theorem oneSkipped_nil : ¬ OneSkipped [] := by
  simp [OneSkipped, paired_nil]

@[simp] theorem oneSkipped_singleton : ¬ OneSkipped [piece] := by
  simp [OneSkipped, paired_singleton]

@[simp] theorem oneSkipped_cons : OneSkipped (piece :: line :: ps) ↔
    (piece.head? = some '[' ∧ EndsInId (line :: ps)) ∨ (IsId piece ∧ OneSkipped ps) := by
  unfold OneSkipped
  rw [paired_cons]
  constructor
  · rintro (⟨piece', ps', h, hends, heq⟩ | h)
    · cases heq
      exact Or.inl ⟨h, hends⟩
    · exact Or.inr h
  · rintro (⟨h, hends⟩ | h)
    · exact Or.inl ⟨piece, line :: ps, h, hends, rfl⟩
    · exact Or.inr h

theorem callsOf_mul_two (ps : List (List Char)) :
    callsOf ps * 2 ≤ ps.length + 1 ∧ (callsOf ps * 2 = ps.length + 1 ↔ EndsInId ps) ∧
      (callsOf ps * 2 = ps.length ↔ Pairs ps ∨ OneSkipped ps) := by
  fun_induction callsOf ps with
  | case1 => simp
  | case2 piece hbreak => simp [IsId, hbreak]
  | case3 piece hbreak hskip => simp [IsId, hskip]
  | case4 piece hbreak hskip => simp [IsId, hbreak, hskip]
  | case5 piece line ps hbreak => simp [IsId, hbreak]
  | case6 piece line ps hbreak hskip ih =>
    obtain ⟨hle, hends, -⟩ := ih
    have hid : ¬ IsId piece := fun hid => hid.2 hskip
    rw [pairs_cons, endsInId_cons, oneSkipped_cons, ← hends]
    simp only [hid, hskip, true_and, false_and, false_or, or_false, iff_false, and_true,
      List.length_cons] at hle ⊢
    omega
  | case7 piece line ps hbreak hskip ih =>
    obtain ⟨hle, hends, hpairs⟩ := ih
    have hid : IsId piece := ⟨hbreak, hskip⟩
    simp only [pairs_cons, endsInId_cons, oneSkipped_cons, hid, hskip, true_and, false_and, false_or,
      ← hends, ← hpairs, List.length_cons]
    omega

theorem callsOf_le_iff (ps : List (List Char)) :
    callsOf ps ≤ (ps.length - 1) / 2 ↔ ¬ Overruns ps := by
  obtain ⟨hle, hends, hpairs⟩ := callsOf_mul_two ps
  rw [Overruns, ← hends]
  by_cases hne : ps = []
  · subst hne
    simp [callsOf]
  · have hpos := List.length_pos_of_ne_nil hne
    have hover : (ps ≠ [] ∧ Pairs ps) ∨ callsOf ps * 2 = ps.length + 1 ∨ OneSkipped ps ↔
        callsOf ps * 2 = ps.length + 1 ∨ callsOf ps * 2 = ps.length := by
      rw [hpairs, and_iff_right hne, or_left_comm]
    rw [hover]
    omega

end

/-! ### Pieces -/

section

variable {buf file buf' file' : List Char}

theorem pieces_readLine (buf file : List Char) :
    pieces 49999 (readLine buf file).2 = (pieces 49999 file).tail := by
  unfold readLine
  cases h : fgets 50000 buf file with
  | none =>
    have hpieces := pieces_of_none h
    rw [hpieces]
    exact hpieces
  | some r =>
    obtain ⟨piece, hpieces, -⟩ := pieces_of_some h
    rw [hpieces]
    rfl

theorem calls_none (h : fgets 50000 buf file = none) : callsOf (pieces 49999 file) = 0 := by
  rw [pieces_of_none h]
  rfl

theorem calls_break (h : fgets 50000 buf file = some (buf', file'))
    (hbreak : buf'.head? = some '=') : callsOf (pieces 49999 file) = 0 := by
  obtain ⟨piece, hpieces, hhead⟩ := pieces_of_some h
  rw [hpieces, callsOf_break (hhead ▸ hbreak)]

theorem calls_skip (h : fgets 50000 buf file = some (buf', file'))
    (hskip : buf'.head? = some '[') :
    callsOf (pieces 49999 file) = callsOf (pieces 49999 file') := by
  obtain ⟨piece, hpieces, hhead⟩ := pieces_of_some h
  rw [hpieces, callsOf_skip (hhead ▸ hskip)]

theorem calls_entry (h : fgets 50000 buf file = some (buf', file'))
    (hbreak : buf'.head? ≠ some '=') (hskip : buf'.head? ≠ some '[') :
    callsOf (pieces 49999 file) = callsOf (pieces 49999 (readLine buf' file').2) + 1 := by
  obtain ⟨piece, hpieces, hhead⟩ := pieces_of_some h
  rw [hpieces, callsOf_id ⟨hhead ▸ hbreak, hhead ▸ hskip⟩, pieces_readLine]

theorem callLoop_pieces (buf file : List Char) :
    callLoop buf file = callsOf (pieces 49999 file) := by
  fun_induction callLoop buf file with
  | case1 buf file h => rw [calls_none h]
  | case2 buf file buf' file' h hbreak => rw [calls_break h hbreak]
  | case3 buf file buf' file' h hbreak hskip ih => rw [calls_skip h hskip, ih]
  | case4 buf file buf' file' h hbreak hskip ih => rw [calls_entry h hbreak hskip, ih]

theorem setRuleCalls_eq (mem : Memory) (file : List Char) :
    setRuleCalls mem file = callsOf (pieces 49999 file).tail := by
  unfold setRuleCalls
  dsimp only
  rw [callLoop_pieces, pieces_readLine]

end

/-! ### Runs with room -/

theorem bind_ne_slot {α β : Type} {x : Except Fault α} {f : α → Except Fault β}
    (hx : x ≠ .error .slot) (hf : ∀ a, x = .ok a → f a ≠ .error .slot) :
    (x >>= f) ≠ .error .slot := by
  cases x with
  | error e =>
    intro h
    cases h
    exact hx rfl
  | ok a => exact hf a rfl

section

variable {mem : Memory} {t t' : AclTable} {p : Parse} {tokens : Tokens} {s : Option (List Char)}
  {str buf file : List Char} {id : Int}

theorem deref_ne_slot : deref s ≠ .error .slot := by
  unfold deref
  split
  · exact fun h => by cases h
  · split <;> exact fun h => by cases h

theorem nextToken_ne_slot : nextToken tokens ≠ .error .slot := by
  unfold nextToken
  split <;> exact fun h => by cases h

theorem store_ne_slot {key : Option Key} : p.store key s ≠ .error .slot := by
  unfold Parse.store
  split
  · exact fun h => by cases h
  · exact bind_ne_slot deref_ne_slot fun _ _ h => by cases h

theorem setRuleRound_ne_slot : setRuleRound mem s tokens p ≠ .error .slot := by
  unfold setRuleRound
  refine bind_ne_slot deref_ne_slot fun name _ => ?_
  refine bind_ne_slot nextToken_ne_slot fun value _ => ?_
  refine bind_ne_slot store_ne_slot fun p' _ => ?_
  refine bind_ne_slot nextToken_ne_slot fun gap _ => ?_
  exact bind_ne_slot nextToken_ne_slot fun key _ h => by cases h

theorem setRuleLoop_ne_slot : setRuleLoop mem s tokens p ≠ .error .slot := by
  fun_induction setRuleLoop mem s tokens p with
  | case1 s tokens p e he =>
    intro h
    cases h
    exact setRuleRound_ne_slot he
  | case2 s tokens p p' tokens' h => exact fun h => by cases h
  | case3 s tokens p p' s' tokens' h ih => exact ih

theorem setRule_eq_slot : setRule mem str id t = .error .slot ↔ ¬ t.numAcl < t.slots.length := by
  unfold setRule
  constructor
  · intro h hroom
    rw [if_pos hroom] at h
    refine bind_ne_slot nextToken_ne_slot (fun key _ => ?_) h
    exact bind_ne_slot setRuleLoop_ne_slot fun res _ h => by cases h
  · intro hfull
    rw [if_neg hfull]
    rfl

/-! ### The second pass -/

theorem readLoop_ne_slot (hroom : t.numAcl + callsOf (pieces 49999 file) ≤ t.slots.length) :
    readLoop mem buf file t ≠ .error .slot := by
  fun_induction readLoop mem buf file t with
  | case1 buf file t h => exact fun h => by cases h
  | case2 buf file t buf' file' h hbreak => exact fun h => by cases h
  | case3 buf file t buf' file' h hbreak hskip ih =>
    rw [calls_skip h hskip] at hroom
    exact ih hroom
  | case4 buf file t buf' file' h hbreak hskip e he =>
    rw [calls_entry h hbreak hskip] at hroom
    intro heq
    cases heq
    unfold readEntry at he
    refine bind_ne_slot deref_ne_slot (fun id _ => ?_) he
    exact bind_ne_slot (fun hslot => setRule_eq_slot.mp hslot (by omega)) fun res _ h => by cases h
  | case5 buf file t buf' file' h hbreak hskip t₁ buf₁ file₁ he ih =>
    obtain ⟨-, hfile, id, rules, happended⟩ := readEntry_appended he
    rw [calls_entry h hbreak hskip, hfile] at hroom
    apply ih
    rw [happended.numAcl, happended.size]
    omega

theorem readLoop_numAcl (h : readLoop mem buf file t = .ok t') :
    t'.numAcl = t.numAcl + callsOf (pieces 49999 file) ∧
      (t.numAcl ≤ t.slots.length → t'.numAcl ≤ t.slots.length) := by
  fun_induction readLoop mem buf file t with
  | case1 buf file t hfile =>
    cases h
    rw [calls_none hfile]
    exact ⟨rfl, id⟩
  | case2 buf file t buf' file' hfile hbreak =>
    cases h
    rw [calls_break hfile hbreak]
    exact ⟨rfl, id⟩
  | case3 buf file t buf' file' hfile hbreak hskip ih =>
    rw [calls_skip hfile hskip]
    exact ih h
  | case4 buf file t buf' file' hfile hbreak hskip e he => cases h
  | case5 buf file t buf' file' hfile hbreak hskip t₁ buf₁ file₁ he ih =>
    obtain ⟨hroom, hfile₁, id, rules, happended⟩ := readEntry_appended he
    obtain ⟨hnum, hslots⟩ := ih h
    rw [happended.numAcl, happended.size] at hslots
    rw [calls_entry hfile hbreak hskip, hfile₁]
    refine ⟨?_, fun _ => hslots hroom⟩
    rw [hnum, happended.numAcl]
    omega

/-- The tables differ at most in their slots. -/
structure SameLists (t t₂ : AclTable) : Prop where
  numAcl : t.numAcl = t₂.numAcl
  numRule : t.numRule = t₂.numRule
  totalRule : t.totalRule = t₂.totalRule
  heap : t.heap = t₂.heap

theorem setRule_same {t₂ : AclTable} (hsame : SameLists t t₂) (hroom : t.numAcl < t.slots.length)
    (hroom₂ : t₂.numAcl < t₂.slots.length) :
    Agrees (fun res₂ res => SameLists res.1 res₂.1 ∧ res.2 = res₂.2) (setRule mem str id t₂)
      (setRule mem str id t) := by
  unfold setRule
  rw [if_pos hroom, if_pos hroom₂, hsame.numAcl, hsame.numRule, hsame.totalRule, hsame.heap]
  refine Agrees.bind (Agrees.refl _) ?_
  rintro key _ rfl
  refine Agrees.bind (Agrees.refl _) ?_
  rintro walk _ rfl
  exact .ok ⟨⟨rfl, rfl, rfl, rfl⟩, rfl⟩

theorem setRule_room {t₂ : AclTable} (hsame : SameLists t t₂) (hroom : t.numAcl < t.slots.length)
    {res₂ : AclTable × List Char} (h : setRule mem str id t₂ = .ok res₂) :
    ∃ t', setRule mem str id t = .ok (t', res₂.2) ∧ SameLists t' res₂.1 ∧
      t'.numAcl = t.numAcl + 1 ∧ t'.slots.length = t.slots.length := by
  have hagrees : Agrees _ (setRule mem str id t₂) (setRule mem str id t) :=
    setRule_same hsame hroom (setRule_slot h)
  rw [h] at hagrees
  obtain ⟨⟨t', buf'⟩, hcall, hsame', hbuf'⟩ := hagrees.of_ok
  obtain rfl : buf' = res₂.2 := hbuf'
  obtain ⟨_, _, _, _, -, -, -, happended, -⟩ := setRule_ok hcall
  exact ⟨t', hcall, hsame', happended.numAcl, happended.size⟩

theorem readLoop_eq_slot {t₂ t₂' : AclTable} (h : readLoop mem buf file t₂ = .ok t₂')
    (hsame : SameLists t t₂) (hle : t.numAcl ≤ t.slots.length)
    (hfull : t.slots.length < t.numAcl + callsOf (pieces 49999 file)) :
    readLoop mem buf file t = .error .slot := by
  fun_induction readLoop mem buf file t₂ generalizing t with
  | case1 buf file t₂ hfile =>
    rw [calls_none hfile] at hfull
    omega
  | case2 buf file t₂ buf' file' hfile hbreak =>
    rw [calls_break hfile hbreak] at hfull
    omega
  | case3 buf file t₂ buf' file' hfile hbreak hskip ih =>
    rw [calls_skip hfile hskip] at hfull
    rw [readLoop_skip hfile hskip]
    exact ih h hsame hle hfull
  | case4 buf file t₂ buf' file' hfile hbreak hskip e he => cases h
  | case5 buf file t₂ buf' file' hfile hbreak hskip t₁ buf₁ file₁ he ih =>
    obtain ⟨s, hderef, hcall, hfile₁⟩ := readEntry_ok.mp he
    dsimp only at hcall hfile₁
    rw [calls_entry hfile hbreak hskip, hfile₁] at hfull
    rw [readLoop_entry hfile hbreak hskip]
    by_cases hroom : t.numAcl < t.slots.length
    · -- both tables have a slot left
      obtain ⟨t', hcall', hsame', hnum, hsize⟩ := setRule_room hsame hroom hcall
      have hentry : readEntry mem buf' file' t = .ok (t', buf₁, file₁) :=
        readEntry_ok.mpr ⟨s, hderef, hcall', hfile₁⟩
      rw [hentry]
      show readLoop mem buf₁ file₁ t' = _
      exact ih h hsame' (by omega) (by omega)
    · have hentry : readEntry mem buf' file' t = .error .slot := by
        rw [readEntry, hderef]
        show (setRule mem (readLine buf' file').1 (atoi s) t >>= _) = _
        rw [setRule_eq_slot.mpr hroom]
        rfl
      rw [hentry]
      rfl

end

/-! ### The allocation -/

def tableSize (mem : Memory) (file : List Char) : Nat := ((countLines mem.str file 0).2 - 2) / 2

/-- The second pass with the table `slots`. -/
def secondPass (mem : Memory) (file : List Char) (t : AclTable)
    (slots : List (Entry (Option Nat))) : Except Fault AclTable :=
  let (buf, _) := countLines mem.str file 0
  let (buf, file) := readLine buf file
  readLoop mem buf file { t with slots := slots, numAcl := 0 }

theorem readRule_secondPass (mem : Memory) (file : List Char) {t : AclTable} (ht : t.numAcl = 0) :
    readRule mem file t =
      secondPass mem file t ((List.range (tableSize mem file)).map mem.slot) := by
  unfold readRule
  rw [ht]
  rfl

theorem setRuleCalls_le (mem : Memory) (file : List Char) :
    setRuleCalls mem file ≤ tableSize mem file ↔ ¬ Overruns (pieces 49999 file).tail := by
  rw [setRuleCalls_eq, ← callsOf_le_iff, tableSize, countLines_pieces, List.length_tail, Nat.zero_add,
    Nat.sub_sub]

section

variable {mem : Memory} {file : List Char} {t t' : AclTable} {slots : List (Entry (Option Nat))}

theorem setRuleCalls_readLine (mem : Memory) (buf file : List Char) :
    setRuleCalls mem file = callsOf (pieces 49999 (readLine buf file).2) := by
  rw [setRuleCalls_eq, pieces_readLine]

theorem secondPass_readLoop : secondPass mem file t slots =
    readLoop mem (readLine (countLines mem.str file 0).1 file).1
      (readLine (countLines mem.str file 0).1 file).2 { t with slots := slots, numAcl := 0 } := rfl

theorem secondPass_ne_slot (hroom : setRuleCalls mem file ≤ slots.length) :
    secondPass mem file t slots ≠ .error .slot := by
  rw [setRuleCalls_readLine mem (countLines mem.str file 0).1] at hroom
  rw [secondPass_readLoop]
  apply readLoop_ne_slot
  rwa [Nat.zero_add]

theorem secondPass_numAcl (h : secondPass mem file t slots = .ok t') :
    t'.numAcl = setRuleCalls mem file ∧ setRuleCalls mem file ≤ slots.length := by
  rw [secondPass_readLoop] at h
  obtain ⟨hnum, hslots⟩ := readLoop_numAcl h
  rw [Nat.zero_add, ← setRuleCalls_readLine mem] at hnum
  exact ⟨hnum, hnum ▸ hslots (Nat.zero_le _)⟩

theorem secondPass_eq_slot {slots' : List (Entry (Option Nat))}
    (h : secondPass mem file t slots' = .ok t') (hfull : slots.length < setRuleCalls mem file) :
    secondPass mem file t slots = .error .slot := by
  rw [setRuleCalls_readLine mem (countLines mem.str file 0).1] at hfull
  rw [secondPass_readLoop] at h ⊢
  refine readLoop_eq_slot h ⟨rfl, rfl, rfl, rfl⟩ (Nat.zero_le _) ?_
  rwa [Nat.zero_add]

end

/-- **The table of `read_rule`** is large enough for its calls of `set_rule` exactly if the pieces
behind the header do not overrun. A file that does not overrun is never written past the table; one
that does never returns, and is written past the table if its calls return with a larger one. -/
theorem setRuleCalls_le_iff (mem : Memory) (file : List Char) :
    (setRuleCalls mem file ≤ ((countLines mem.str file 0).2 - 2) / 2 ↔
      ¬ Overruns (pieces 49999 file).tail) ∧
    ∀ t : AclTable, t.numAcl = 0 →
      (¬ Overruns (pieces 49999 file).tail → readRule mem file t ≠ .error .slot) ∧
      (∀ t', readRule mem file t = .ok t' →
        t'.numAcl = setRuleCalls mem file ∧ ¬ Overruns (pieces 49999 file).tail) ∧
      ∀ slots t', secondPass mem file t slots = .ok t' →
        (readRule mem file t = .error .slot ↔ Overruns (pieces 49999 file).tail) := by
  have hsize := setRuleCalls_le mem file
  refine ⟨hsize, fun t ht => ?_⟩
  rw [readRule_secondPass mem file ht]
  have hlen : ((List.range (tableSize mem file)).map mem.slot).length = tableSize mem file := by simp
  refine ⟨fun hfits => ?_, fun t' hrun => ?_, fun slots t' hlarger => ⟨fun hslot => ?_, fun hover => ?_⟩⟩
  · apply secondPass_ne_slot
    rw [hlen]
    exact hsize.mpr hfits
  · obtain ⟨hnum, hle⟩ := secondPass_numAcl hrun
    rw [hlen] at hle
    exact ⟨hnum, hsize.mp hle⟩
  · by_contra hfits
    refine secondPass_ne_slot ?_ hslot
    rw [hlen]
    exact hsize.mpr hfits
  · apply secondPass_eq_slot hlarger
    rw [hlen]
    exact not_le.mp fun hle => hsize.mp hle hover

/-! ### A file without a trailer -/

theorem isId_decimal (id : Nat) (rest : List Char) : IsId (decimal id ++ rest) := by
  obtain ⟨c, hhead, hdigit⟩ := id_head id rest
  unfold IsId
  rw [hhead]
  constructor <;> rintro ⟨⟩ <;> cases hdigit

theorem pieces_acl {a : Acl} (ha : a.Fits) (rest : List Char) : pieces 49999 (a.text ++ rest) =
    (decimal a.id ++ ['\n']) :: printLine a.objects :: pieces 49999 rest := by
  have hid := id_length a.id_lt
  unfold Acl.Fits at ha
  rw [printLine_body, List.length_append, List.length_singleton] at ha
  rw [Acl.text, printLine_body, List.append_assoc, List.cons_append, List.append_assoc,
    pieces_line (decimal_line a.id) (by omega), List.singleton_append,
    pieces_line (lineBody_line a.objects) ha]

theorem pairs_acls {acls : List Acl} (hacls : ∀ a ∈ acls, a.Fits) :
    Pairs (pieces 49999 (acls.flatMap Acl.text)) := by
  induction acls with
  | nil => exact pieces_nil ▸ pairs_nil
  | cons a acls ih =>
    obtain ⟨ha, hacls⟩ := List.forall_mem_cons.mp hacls
    rw [List.flatMap_cons, pieces_acl ha]
    exact pairs_cons.mpr ⟨isId_decimal a.id _, ih hacls⟩

theorem secondPass_noTrailer (mem : Memory) {header : List Char} (hline : '\n' ∉ header)
    (hfits : header.length + 1 < 50000) {acls : List Acl} (hacls : ∀ a ∈ acls, a.Fits)
    {slots : List (Entry (Option Nat))} (hslots : acls.length ≤ slots.length) (t : AclTable) :
    ∃ t', secondPass mem (header ++ '\n' :: acls.flatMap Acl.text) t slots = .ok t' := by
  obtain ⟨buf, hbuf, hread⟩ : ∃ buf : List Char, buf.length = 50000 ∧
      readLine (countLines mem.str (header ++ '\n' :: acls.flatMap Acl.text) 0).1
        (header ++ '\n' :: acls.flatMap Acl.text) = (buf, acls.flatMap Acl.text) := by
    refine ⟨_, ?_, readLine_line hline hfits _ _⟩
    have hlen := countLines_buffer (header ++ '\n' :: acls.flatMap Acl.text) 0 mem.str_length
    simp only [List.length_append, List.length_cons, List.length_drop]
    omega
  obtain ⟨t', buf', hloop, -⟩ := readLoop_acls mem hacls hbuf
    (t := { t with slots := slots, numAcl := 0 }) (by simpa using hslots) []
  rw [List.append_nil] at hloop
  refine ⟨t', ?_⟩
  rw [secondPass_readLoop, hread, hloop, readLoop]
  rfl

/-- **Without the trailer** the last ACL is written past the table. -/
theorem readRule_noTrailer (mem : Memory) {header : List Char} (hline : '\n' ∉ header)
    (hfits : header.length + 1 < 50000) {acls : List Acl} (hacls : ∀ a ∈ acls, a.Fits)
    (hne : acls ≠ []) {t : AclTable} (ht : t.numAcl = 0) :
    tableSize mem (header ++ '\n' :: acls.flatMap Acl.text) <
        setRuleCalls mem (header ++ '\n' :: acls.flatMap Acl.text) ∧
      readRule mem (header ++ '\n' :: acls.flatMap Acl.text) t = .error .slot := by
  have htext : acls.flatMap Acl.text ≠ [] := by
    obtain ⟨a, acls, rfl⟩ := List.exists_cons_of_ne_nil hne
    simp [Acl.text]
  have hcalls : tableSize mem (header ++ '\n' :: acls.flatMap Acl.text) <
      setRuleCalls mem (header ++ '\n' :: acls.flatMap Acl.text) := by
    rw [← not_le, setRuleCalls_le, not_not, pieces_line hline (by omega), List.tail_cons]
    refine Or.inl ⟨?_, pairs_acls hacls⟩
    rw [pieces_cons (by decide) htext]
    exact List.cons_ne_nil _ _
  obtain ⟨t', hlarger⟩ := secondPass_noTrailer mem hline hfits hacls
    (le_of_eq (List.length_replicate (n := acls.length) (a := (⟨0, none⟩ : Entry (Option Nat)))).symm)
    t
  rw [readRule_secondPass mem _ ht]
  refine ⟨hcalls, secondPass_eq_slot hlarger ?_⟩
  rwa [List.length_map, List.length_range]

/-- Three lines, so no slot, for one ACL. -/
theorem setRuleCalls_gt :
    (countLines clearedMemory.str ("acl\n120\n".toList ++ printLine [anyObject]) 0).2 = 3 ∧
      setRuleCalls clearedMemory ("acl\n120\n".toList ++ printLine [anyObject]) = 1 ∧
      ¬ setRuleCalls clearedMemory ("acl\n120\n".toList ++ printLine [anyObject]) ≤
        ((countLines clearedMemory.str ("acl\n120\n".toList ++ printLine [anyObject]) 0).2 - 2) / 2 ∧
      readRule clearedMemory ("acl\n120\n".toList ++ printLine [anyObject]) noTable =
        .error .slot := by
  have hfits : ∀ a ∈ [anyAcl], a.Fits := List.forall_mem_singleton.mpr (by decide +kernel)
  have hfile : "acl\n120\n".toList ++ printLine [anyObject] =
      "acl".toList ++ '\n' :: [anyAcl].flatMap Acl.text := by decide +kernel
  have hpieces : pieces 49999 ("acl\n120\n".toList ++ printLine [anyObject]) =
      ["acl\n".toList, "120\n".toList, printLine [anyObject]] := by
    rw [hfile, pieces_line (by decide) (by decide), List.flatMap_cons,
      pieces_acl (List.forall_mem_singleton.mp hfits), List.flatMap_nil, pieces_nil]
    decide +kernel
  obtain ⟨hcalls, hslot⟩ := readRule_noTrailer clearedMemory
    (by decide : '\n' ∉ "acl".toList) (by decide) hfits
    (List.cons_ne_nil anyAcl []) (rfl : noTable.numAcl = 0)
  rw [← hfile] at hcalls hslot
  refine ⟨?_, ?_, not_le.mpr hcalls, hslot⟩
  · rw [countLines_pieces, hpieces]
    rfl
  · rw [setRuleCalls_eq, hpieces]
    decide

end AtomicPredicate
