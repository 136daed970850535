import AtomicPredicate.Lib.CString

/-!
# The pieces of a file

What a loop of `fgets` with a buffer of `n + 1` characters returns one after the other: a line that
fits is one piece, a longer line is several. The pieces of a file of whole lines are those of its
lines (`pieces_append`), so a loop over `fgets` is a loop over a list.
-/

namespace AtomicPredicate.Lib

/-- The pieces of at most `n` characters. -/
def pieces (n : Nat) (file : List Char) : List (List Char) :=
  if 0 < n ∧ file ≠ [] then (chunk n file).1 :: pieces n (chunk n file).2 else []
termination_by file.length
decreasing_by
  rename_i h
  obtain ⟨-, happ, hne⟩ := chunk_length n file
  have hlen := congrArg List.length happ
  rw [List.length_append] at hlen
  have hpos := List.length_pos_of_ne_nil (hne h.1 h.2)
  omega

def linesText (ls : List (List Char)) : List Char := ls.flatMap (· ++ ['\n'])

@[simp] theorem linesText_nil : linesText [] = [] := rfl

theorem linesText_cons (l : List Char) (ls : List (List Char)) :
    linesText (l :: ls) = l ++ '\n' :: linesText ls := by
  simp [linesText]

section

variable {n : Nat} {file l : List Char}

@[simp] theorem pieces_nil : pieces n [] = [] := by
  rw [pieces, if_neg (by simp)]

theorem pieces_cons (hn : 0 < n) (hfile : file ≠ []) :
    pieces n file = (chunk n file).1 :: pieces n (chunk n file).2 := by
  rw [pieces, if_pos ⟨hn, hfile⟩]

/-- **One call of `fgets`** takes the next piece, and returns nothing when there is none. -/
theorem fgets_pieces (hn : 0 < n) (buf file : List Char) :
    (fgets (n + 1) buf file = none ∧ pieces n file = []) ∨
    ∃ piece rest, fgets (n + 1) buf file =
        some (piece ++ nul :: buf.drop (piece.length + 1), rest) ∧
      pieces n file = piece :: pieces n rest ∧ piece ≠ [] ∧ rest.length < file.length := by
  by_cases hfile : file = []
  · subst hfile
    exact Or.inl ⟨rfl, pieces_nil⟩
  · obtain ⟨-, happ, hne⟩ := chunk_length n file
    have hpos := List.length_pos_of_ne_nil (hne hn hfile)
    have hlen := congrArg List.length happ
    rw [List.length_append] at hlen
    refine Or.inr ⟨(chunk n file).1, (chunk n file).2, ?_, pieces_cons hn hfile, hne hn hfile, ?_⟩
    · rw [fgets, if_neg hfile, Nat.add_sub_cancel]
    · omega

theorem pieces_ne_nil {piece : List Char} (h : piece ∈ pieces n file) : piece ≠ [] := by
  induction hd : file.length using Nat.strong_induction_on generalizing file with
  | _ d ih =>
    subst hd
    by_cases hpieces : 0 < n ∧ file ≠ []
    · obtain ⟨-, happ, hne⟩ := chunk_length n file
      have hpos := List.length_pos_of_ne_nil (hne hpieces.1 hpieces.2)
      have hlen := congrArg List.length happ
      rw [List.length_append] at hlen
      rw [pieces_cons hpieces.1 hpieces.2] at h
      rcases List.mem_cons.mp h with rfl | h
      · exact hne hpieces.1 hpieces.2
      · exact ih (chunk n file).2.length (by omega) h rfl
    · rw [pieces, if_neg hpieces] at h
      exact absurd h List.not_mem_nil

theorem pieces_line (hl : '\n' ∉ l) (hfit : l.length < n) (rest : List Char) :
    pieces n (l ++ '\n' :: rest) = (l ++ ['\n']) :: pieces n rest := by
  rw [pieces_cons (by omega) (by simp), chunk_line hl hfit]

theorem pieces_lines {ls : List (List Char)} (hls : ∀ l ∈ ls, '\n' ∉ l ∧ l.length < n) :
    pieces n (linesText ls) = ls.map (· ++ ['\n']) := by
  induction ls with
  | nil => exact pieces_nil
  | cons l ls ih =>
    obtain ⟨hl, hls⟩ := List.forall_mem_cons.mp hls
    rw [linesText_cons, pieces_line hl.1 hl.2, ih hls, List.map_cons]

theorem pieces_line_length (hn : 0 < n) (hl : '\n' ∉ l) (rest : List Char) :
    (pieces n rest).length + 1 ≤ (pieces n (l ++ '\n' :: rest)).length ∧
      (n ≤ l.length → (pieces n rest).length + 2 ≤ (pieces n (l ++ '\n' :: rest)).length) := by
  induction hd : l.length using Nat.strong_induction_on generalizing l with
  | _ d ih =>
    subst hd
    rcases Nat.lt_or_ge l.length n with hfit | hlong
    · rw [pieces_line hl hfit, List.length_cons]
      exact ⟨le_refl _, fun h => absurd h (not_le.mpr hfit)⟩
    · have hdrop : '\n' ∉ l.drop n := fun h => hl (List.mem_of_mem_drop h)
      have hrest := (ih (l.drop n).length (by rw [List.length_drop]; omega) hdrop rfl).1
      rw [pieces_cons hn (show l ++ '\n' :: rest ≠ [] by simp), chunk_cut hl hlong, List.length_cons]
      dsimp only
      exact ⟨by omega, fun _ => by omega⟩

theorem pieces_lines_length (hn : 0 < n) {ls : List (List Char)} (hls : ∀ l ∈ ls, '\n' ∉ l)
    (rest : List Char) :
    (pieces n rest).length + ls.length ≤ (pieces n (linesText ls ++ rest)).length ∧
      ((pieces n (linesText ls ++ rest)).length = (pieces n rest).length + ls.length ↔
        ∀ l ∈ ls, l.length < n) := by
  induction ls with
  | nil => simp
  | cons l ls ih =>
    obtain ⟨hl, hls⟩ := List.forall_mem_cons.mp hls
    obtain ⟨hle, hiff⟩ := ih hls
    rw [linesText_cons, List.append_assoc, List.cons_append]
    obtain ⟨hone, hmore⟩ := pieces_line_length hn hl (linesText ls ++ rest)
    rw [List.length_cons, List.forall_mem_cons]
    refine ⟨by omega, ?_⟩
    rcases Nat.lt_or_ge l.length n with hfit | hlong
    · rw [pieces_line hl hfit, List.length_cons, and_iff_right hfit, ← hiff]
      omega
    · have := hmore hlong
      exact iff_of_false (by omega) fun h => absurd h.1 (not_lt.mpr hlong)

end

end AtomicPredicate.Lib
