import AtomicPredicate.Lib.CString

/-!
# Formatted input

`sscanf` for the directives that read a number or a word, skip white space, or match a character. The
conversions stop at the first one that fails, and what they have stored by then is the result; the
variables behind the others keep what they held.
-/

namespace AtomicPredicate.Lib

inductive Directive where
  | unsigned
  | string
  | space
  | lit (c : Char)
  deriving DecidableEq, Repr

/-- A converted number as the library holds it before it is cut to the size of the variable, or the
characters of a word. -/
inductive Conversion where
  | number (v : BitVec 64)
  | word (s : List Char)
  deriving DecidableEq, Repr

/-- What is left of a string behind the number it starts with. -/
def afterNumber (s : List Char) : List Char :=
  let s := s.dropWhile isSpace
  (if s.head? = some '-' ∨ s.head? = some '+' then s.tail else s).dropWhile Char.isDigit

def sscanf : List Directive → List Char → List Conversion
  | [], _ => []
  | .unsigned :: format, s =>
    match number s with
    | none => []
    | some p => .number (saturate p) :: sscanf format (afterNumber s)
  | .string :: format, s =>
    let s := s.dropWhile isSpace
    let word := s.takeWhile (! isSpace ·)
    if word = [] then [] else .word word :: sscanf format (s.dropWhile (! isSpace ·))
  | .space :: format, s => sscanf format (s.dropWhile isSpace)
  | .lit c :: format, s => if s.head? = some c then sscanf format s.tail else []

/-- The number that a conversion stores, cut to `w` bits. -/
def storedNumber (w : Nat) (old : BitVec w) : Option Conversion → BitVec w
  | some (.number v) => v.setWidth w
  | _ => old

/-- The buffer after a conversion stores a word into it. -/
def storedWord (buf : List Char) : Option Conversion → List Char
  | some (.word s) => s ++ nul :: buf.drop (s.length + 1)
  | _ => buf

section

variable {format : List Directive}

@[simp] theorem sscanf_nil (s : List Char) : sscanf [] s = [] := rfl

theorem sscanf_lit (c : Char) (s : List Char) :
    sscanf (.lit c :: format) (c :: s) = sscanf format s := by
  rw [sscanf, List.head?_cons, if_pos rfl, List.tail_cons]

theorem sscanf_space {c : Char} (hc : isSpace c = false) (s : List Char) :
    sscanf (.space :: format) (' ' :: c :: s) = sscanf format (c :: s) := by
  rw [sscanf, List.dropWhile_cons_of_pos (by decide), List.dropWhile_cons_of_neg (by simp [hc])]

theorem afterNumber_decimal (n : Nat) {rest : List Char}
    (hrest : ∀ c, rest.head? = some c → c.isDigit = false) :
    afterNumber (decimal n ++ rest) = rest := by
  obtain ⟨hskip, hminus, hplus⟩ := decimal_front n rest
  unfold afterNumber
  dsimp only
  rw [hskip, if_neg (not_or.mpr ⟨hminus, hplus⟩),
    List.dropWhile_append_of_pos fun a ha => decimal_isDigit ha]
  cases rest with
  | nil => rfl
  | cons a rest => rw [List.dropWhile_cons_of_neg (by simp [hrest a rfl])]

theorem sscanf_decimal {n : Nat} (hn : n < 2 ^ 64) {rest : List Char}
    (hrest : ∀ c, rest.head? = some c → c.isDigit = false) :
    sscanf (.unsigned :: format) (decimal n ++ rest) =
      .number (BitVec.ofNat 64 n) :: sscanf format rest := by
  rw [sscanf, number_decimal n hrest, afterNumber_decimal n hrest]
  dsimp only
  rw [saturate_of_lt hn]

theorem sscanf_word {s : List Char} (hs : ∀ c ∈ s, isSpace c = false) (hne : s ≠ []) :
    sscanf [.string] s = [.word s] := by
  obtain ⟨c, s', rfl⟩ := List.exists_cons_of_ne_nil hne
  have hskip : (c :: s').dropWhile isSpace = c :: s' :=
    List.dropWhile_cons_of_neg (by simp [hs c (by simp)])
  have htake : (c :: s').takeWhile (! isSpace ·) = c :: s' :=
    List.takeWhile_eq_self_iff.mpr fun a ha => by simp [hs a ha]
  rw [sscanf, hskip, htake, if_neg (List.cons_ne_nil _ _), sscanf_nil]

theorem afterNumber_subset (s : List Char) : afterNumber s ⊆ s := by
  unfold afterNumber
  dsimp only
  have hskip : s.dropWhile isSpace ⊆ s := (List.dropWhile_suffix _).subset
  refine List.Subset.trans (List.dropWhile_suffix _).subset ?_
  split_ifs
  · exact List.Subset.trans (List.tail_subset _) hskip
  · exact hskip

theorem word_mem_sscanf {s w : List Char} (h : .word w ∈ sscanf format s) : w ≠ [] ∧ w ⊆ s := by
  induction format generalizing s with
  | nil => exact absurd h List.not_mem_nil
  | cons d format ih =>
    cases d with
    | unsigned =>
      rw [sscanf] at h
      cases hnumber : number s with
      | none =>
        rw [hnumber] at h
        exact absurd h List.not_mem_nil
      | some p =>
        rw [hnumber] at h
        obtain ⟨hne, hsub⟩ := ih ((List.mem_cons.mp h).resolve_left (by simp))
        exact ⟨hne, List.Subset.trans hsub (afterNumber_subset s)⟩
    | string =>
      have hskip : s.dropWhile isSpace ⊆ s := (List.dropWhile_suffix _).subset
      rw [sscanf] at h
      split_ifs at h with hempty
      · exact absurd h List.not_mem_nil
      · rcases List.mem_cons.mp h with hw | h
        · cases hw
          exact ⟨hempty, List.Subset.trans (List.takeWhile_subset _) hskip⟩
        · obtain ⟨hne, hsub⟩ := ih h
          exact ⟨hne, List.Subset.trans hsub
            (List.Subset.trans (List.dropWhile_suffix _).subset hskip)⟩
    | space =>
      rw [sscanf] at h
      obtain ⟨hne, hsub⟩ := ih h
      exact ⟨hne, List.Subset.trans hsub (List.dropWhile_suffix _).subset⟩
    | lit c =>
      rw [sscanf] at h
      split_ifs at h
      · obtain ⟨hne, hsub⟩ := ih h
        exact ⟨hne, List.Subset.trans hsub (List.tail_subset _)⟩
      · exact absurd h List.not_mem_nil

theorem sscanf_word_nil : sscanf (.string :: format) [] = [] := by
  rw [sscanf]
  rfl

end

end AtomicPredicate.Lib
