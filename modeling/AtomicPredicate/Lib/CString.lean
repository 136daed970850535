import Mathlib.Data.BitVec
import Mathlib.Data.List.TakeWhile

/-!
# C strings in buffers

A pointer into a buffer is what is left of the buffer from it on, so following a pointer past the
end is visible: the string functions return `none` where the real ones would read past the buffer.
What lies behind a terminator is kept, since a pointer may be moved over it.

`strtok` keeps the buffer split at its save pointer, with the terminators it has written. `fgets`
reads into the front of a buffer and leaves what is behind as it was. Numbers are read as the GNU
library does it, through a 64-bit conversion that saturates.
-/

namespace AtomicPredicate.Lib

def nul : Char := Char.ofNat 0

/-- The string a pointer points to: the characters before the terminator. -/
def cstr : List Char → Option (List Char)
  | [] => none
  | c :: p => if c = nul then some [] else (cstr p).map (c :: ·)

theorem cstr_append {s : List Char} (hs : nul ∉ s) (p : List Char) :
    cstr (s ++ nul :: p) = some s := by
  induction s with
  | nil => simp [cstr]
  | cons c s ih =>
    rw [List.mem_cons, not_or] at hs
    rw [List.cons_append, cstr, if_neg (Ne.symm hs.1), ih hs.2, Option.map_some]

/-! ### Tokens -/

/-- A buffer split at the save pointer of `strtok`. -/
structure Tokens where
  before : List Char
  rest : List Char

def Tokens.buffer (t : Tokens) : List Char := t.before ++ t.rest

/-- A later state of the same buffer: what is in front of the save pointer stays. -/
def Tokens.Later (t t' : Tokens) : Prop :=
  t.before <+: t'.before ∧ t'.buffer.length = t.buffer.length

theorem Tokens.Later.trans {t₁ t₂ t₃ : Tokens} (h : t₁.Later t₂) (h' : t₂.Later t₃) :
    t₁.Later t₃ :=
  ⟨h.1.trans h'.1, h'.2.trans h.2⟩

def tokenChar (delims : List Char) (c : Char) : Bool := decide (c ∉ delims ∧ c ≠ nul)

/-- The next token, a null pointer if there is none. -/
def strtok (delims : List Char) (t : Tokens) : Option (Option (List Char) × Tokens) :=
  let before := t.before ++ t.rest.takeWhile (· ∈ delims)
  let start := t.rest.dropWhile (· ∈ delims)
  match start with
  | [] => none
  | c :: _ =>
    if c = nul then some (none, ⟨before, start⟩)
    else
      let token := start.takeWhile (tokenChar delims)
      match start.dropWhile (tokenChar delims) with
      | [] => none
      | d :: rest =>
        if d = nul then some (some (token ++ nul :: rest), ⟨before ++ token, nul :: rest⟩)
        else some (some (token ++ nul :: rest), ⟨before ++ token ++ [nul], rest⟩)

section

variable {delims token : List Char} {c d : Char}

theorem span_skip {skip : List Char} (hskip : ∀ c ∈ skip, c ∈ delims) (hc : c ∉ delims)
    (rest : List Char) :
    (skip ++ c :: rest).takeWhile (· ∈ delims) = skip ∧
      (skip ++ c :: rest).dropWhile (· ∈ delims) = c :: rest := by
  have hall : ∀ a ∈ skip, decide (a ∈ delims) = true := fun a ha => decide_eq_true (hskip a ha)
  rw [List.takeWhile_append_of_pos hall, List.dropWhile_append_of_pos hall]
  simp [hc]

theorem span_token (htoken : ∀ c ∈ token, tokenChar delims c = true)
    (hd : tokenChar delims d = false) (rest : List Char) :
    (token ++ d :: rest).takeWhile (tokenChar delims) = token ∧
      (token ++ d :: rest).dropWhile (tokenChar delims) = d :: rest := by
  have hstop : ¬ tokenChar delims d = true := by simp [hd]
  rw [List.takeWhile_append_of_pos htoken, List.dropWhile_append_of_pos htoken,
    List.takeWhile_cons_of_neg hstop, List.dropWhile_cons_of_neg hstop]
  exact ⟨List.append_nil _, rfl⟩

theorem strtok_token (skip : List Char) (hskip : ∀ c ∈ skip, c ∈ delims)
    (htoken : ∀ c ∈ token, tokenChar delims c = true) (hne : token ≠ [])
    (hd : tokenChar delims d = false) (before rest : List Char) :
    strtok delims ⟨before, skip ++ (token ++ d :: rest)⟩ =
      some (some (token ++ nul :: rest),
        if d = nul then ⟨before ++ skip ++ token, nul :: rest⟩
        else ⟨before ++ skip ++ token ++ [nul], rest⟩) := by
  obtain ⟨c, token', rfl⟩ := List.exists_cons_of_ne_nil hne
  have hc : c ∉ delims ∧ c ≠ nul := of_decide_eq_true (htoken c (List.mem_cons_self ..))
  obtain ⟨htake, hdrop⟩ := span_skip hskip hc.1 (token' ++ d :: rest)
  obtain ⟨htake', hdrop'⟩ := span_token htoken hd rest
  unfold strtok
  dsimp only
  rw [List.cons_append] at htake' hdrop' ⊢
  rw [htake, hdrop]
  dsimp only
  rw [if_neg hc.2, htake', hdrop']
  dsimp only
  split_ifs <;> rfl

theorem strtok_end (skip : List Char) (hskip : ∀ c ∈ skip, c ∈ delims) (hnul : nul ∉ delims)
    (before rest : List Char) :
    strtok delims ⟨before, skip ++ nul :: rest⟩ = some (none, ⟨before ++ skip, nul :: rest⟩) := by
  obtain ⟨htake, hdrop⟩ := span_skip hskip hnul rest
  unfold strtok
  dsimp only
  rw [htake, hdrop]
  dsimp only
  rw [if_pos rfl]

theorem strtok_cases {t t' : Tokens} {s : Option (List Char)} (h : strtok delims t = some (s, t')) :
    ∃ skip token tail, (∀ c ∈ skip, c ∈ delims) ∧
      ((s = none ∧ t.rest = skip ++ nul :: tail ∧ t' = ⟨t.before ++ skip, nul :: tail⟩) ∨
      (token ≠ [] ∧ s = some (token ++ nul :: tail) ∧ t.rest = skip ++ (token ++ nul :: tail) ∧
        t' = ⟨t.before ++ skip ++ token, nul :: tail⟩) ∨
      (token ≠ [] ∧ s = some (token ++ nul :: tail) ∧
        (∃ d, t.rest = skip ++ (token ++ d :: tail)) ∧
        t' = ⟨t.before ++ skip ++ token ++ [nul], tail⟩)) := by
  have hsplit := (List.takeWhile_append_dropWhile (p := fun c => decide (c ∈ delims))
    (l := t.rest)).symm
  have hskip : ∀ c ∈ t.rest.takeWhile (fun c => decide (c ∈ delims)), c ∈ delims :=
    fun c hc => by simpa using List.mem_takeWhile_imp hc
  have hstart : ∀ c tail, t.rest.dropWhile (fun c => decide (c ∈ delims)) = c :: tail →
      c ∉ delims := by
    intro c tail hc
    have hhead := List.head?_dropWhile_not (fun c => decide (c ∈ delims)) t.rest
    rw [hc] at hhead
    simpa using hhead
  unfold strtok at h
  generalize t.rest.takeWhile (fun c => decide (c ∈ delims)) = skip at h hsplit hskip
  generalize t.rest.dropWhile (fun c => decide (c ∈ delims)) = start at h hsplit hstart
  dsimp only at h
  cases start with
  | nil => cases h
  | cons c start =>
    dsimp only at h
    by_cases hc : c = nul
    · rw [if_pos hc] at h
      cases h
      subst hc
      exact ⟨skip, [], start, hskip, .inl ⟨rfl, hsplit, rfl⟩⟩
    · have htok : tokenChar delims c = true := decide_eq_true ⟨hstart c start rfl, hc⟩
      rw [if_neg hc, List.dropWhile_cons_of_pos htok, List.takeWhile_cons_of_pos htok] at h
      have hrest := (List.takeWhile_append_dropWhile (p := tokenChar delims) (l := start)).symm
      generalize start.takeWhile (tokenChar delims) = token at h hrest
      generalize start.dropWhile (tokenChar delims) = tail at h hrest
      cases tail with
      | nil => cases h
      | cons d tail =>
        rw [hrest] at hsplit
        refine ⟨skip, c :: token, tail, hskip, .inr ?_⟩
        dsimp only at h
        by_cases hd : d = nul
        · rw [if_pos hd] at h
          cases h
          subst hd
          exact .inl ⟨List.cons_ne_nil _ _, rfl, hsplit, rfl⟩
        · rw [if_neg hd] at h
          cases h
          exact .inr ⟨List.cons_ne_nil _ _, rfl, ⟨d, hsplit⟩, rfl⟩

theorem strtok_length {t t' : Tokens} {s : Option (List Char)}
    (h : strtok delims t = some (s, t')) :
    t'.rest.length ≤ t.rest.length ∧ (s ≠ none → t'.rest.length < t.rest.length) := by
  obtain ⟨skip, token, tail, -, hcases⟩ := strtok_cases h
  rcases hcases with ⟨rfl, hrest, rfl⟩ | ⟨hne, -, hrest, rfl⟩ | ⟨-, -, ⟨d, hrest⟩, rfl⟩
  · refine ⟨?_, fun hs => absurd rfl hs⟩
    simp only [hrest, List.length_append]
    omega
  · have hpos := List.length_pos_of_ne_nil hne
    simp only [hrest, List.length_append, List.length_cons]
    omega
  · simp only [hrest, List.length_append, List.length_cons]
    omega

theorem strtok_later {t t' : Tokens} {s : Option (List Char)} (h : strtok delims t = some (s, t')) :
    t.Later t' := by
  obtain ⟨skip, token, tail, -, hcases⟩ := strtok_cases h
  rcases hcases with ⟨-, hrest, rfl⟩ | ⟨-, -, hrest, rfl⟩ | ⟨-, -, ⟨d, hrest⟩, rfl⟩ <;>
    refine ⟨by simp, ?_⟩ <;> simp only [Tokens.buffer, hrest, List.length_append,
      List.length_cons, List.length_nil] <;> omega

theorem strtok_done {t t' : Tokens} (hnul : nul ∉ delims) (h : strtok delims t = some (none, t')) :
    strtok delims t' = some (none, t') := by
  obtain ⟨skip, token, tail, -, hcases⟩ := strtok_cases h
  rcases hcases with ⟨-, -, rfl⟩ | ⟨-, hs, -⟩ | ⟨-, hs, -⟩
  · have hend := strtok_end [] (by simp) hnul (t.before ++ skip) tail
    rwa [List.append_nil] at hend
  · cases hs
  · cases hs

/-- The pointers that `strtok` returns one after the other. -/
inductive Feeds (delims : List Char) : Tokens → List (List Char) → Prop
  | done {t t' : Tokens} (h : strtok delims t = some (none, t')) : Feeds delims t []
  | token {t t' : Tokens} {s : List Char} {ss : List (List Char)}
      (h : strtok delims t = some (some s, t')) (hss : Feeds delims t' ss) : Feeds delims t (s :: ss)

theorem Feeds.cons {before rest : List Char} {ss : List (List Char)}
    (htoken : ∀ c ∈ token, tokenChar delims c = true)
    (hne : token ≠ []) (hd : d ∈ delims) (hnul : d ≠ nul)
    (hss : Feeds delims ⟨before ++ token ++ [nul], rest⟩ ss) :
    Feeds delims ⟨before, token ++ d :: rest⟩ ((token ++ nul :: rest) :: ss) := by
  have hstop : tokenChar delims d = false := decide_eq_false fun h => h.1 hd
  have h := strtok_token [] (by simp) htoken hne hstop before rest
  rw [if_neg hnul, List.append_nil] at h
  exact .token h hss

theorem Feeds.last (htoken : ∀ c ∈ token, tokenChar delims c = true) (hnul : nul ∉ delims)
    (before rest : List Char) :
    Feeds delims ⟨before, token ++ nul :: rest⟩
      (if token = [] then [] else [token ++ nul :: rest]) := by
  by_cases hne : token = []
  · subst hne
    exact .done (strtok_end [] (by simp) hnul before rest)
  · have hstop : tokenChar delims nul = false := decide_eq_false fun h => h.2 rfl
    have h := strtok_token [] (by simp) htoken hne hstop before rest
    rw [if_pos rfl] at h
    rw [if_neg hne]
    exact .token h (.done (strtok_end [] (by simp) hnul _ rest))

end

/-! ### Numbers -/

def isSpace (c : Char) : Bool :=
  c = ' ' ∨ c = '\t' ∨ c = '\n' ∨ c = Char.ofNat 11 ∨ c = Char.ofNat 12 ∨ c = '\r'

/-- Sign and magnitude of the number a string starts with. -/
def number (s : List Char) : Option (Bool × Nat) :=
  let s := s.dropWhile isSpace
  let unsigned := if s.head? = some '-' ∨ s.head? = some '+' then s.tail else s
  let digits := unsigned.takeWhile Char.isDigit
  if digits = [] then none else some (s.head? = some '-', Nat.ofDigitChars 10 digits 0)

/-- The value of a number: the largest one if its digits do not fit, whatever its sign. -/
def saturate (p : Bool × Nat) : BitVec 64 :=
  if p.2 < 2 ^ 64 then
    if p.1 then -BitVec.ofNat 64 p.2 else BitVec.ofNat 64 p.2
  else BitVec.allOnes 64

/-- `sscanf(s, "%u", ..)`: nothing is stored if there is no number. -/
def scanU (s : List Char) : Option (BitVec 32) :=
  (number s).map fun p => (saturate p).setWidth 32

def atoi (s : List Char) : Int :=
  match number s with
  | none => 0
  | some p =>
    let v : Int := if p.1 then max (-p.2) (-2 ^ 63) else min p.2 (2 ^ 63 - 1)
    (BitVec.ofInt 32 v).toInt

/-- A decimal number as `printf` prints it. -/
def decimal (n : Nat) : List Char := Nat.toDigits 10 n

theorem decimal_isDigit {n : Nat} {c : Char} (hc : c ∈ decimal n) : c.isDigit = true :=
  Nat.isDigit_of_mem_toDigits (by decide) (by decide) hc

theorem decimal_ne_nil (n : Nat) : decimal n ≠ [] := Nat.toDigits_ne_nil

theorem decimal_cons (n : Nat) : ∃ c digits, decimal n = c :: digits ∧ c.isDigit = true := by
  obtain ⟨c, digits, hdec⟩ := List.exists_cons_of_ne_nil (decimal_ne_nil n)
  exact ⟨c, digits, hdec, decimal_isDigit (n := n) (by simp [hdec])⟩

theorem isSpace_of_isDigit {c : Char} (hc : c.isDigit = true) : isSpace c = false := by
  by_contra h
  rw [Bool.not_eq_false] at h
  simp only [isSpace, decide_eq_true_eq] at h
  rcases h with rfl | rfl | rfl | rfl | rfl | rfl <;> simp at hc

theorem decimal_front (n : Nat) (rest : List Char) :
    (decimal n ++ rest).dropWhile isSpace = decimal n ++ rest ∧
      (decimal n ++ rest).head? ≠ some '-' ∧ (decimal n ++ rest).head? ≠ some '+' := by
  obtain ⟨c, digits, hdec, hc⟩ := decimal_cons n
  rw [hdec, List.cons_append, List.head?_cons]
  refine ⟨List.dropWhile_cons_of_neg (by simp [isSpace_of_isDigit hc]), ?_, ?_⟩ <;>
    · rintro ⟨⟩
      simp at hc

theorem number_decimal (n : Nat) {rest : List Char}
    (hrest : ∀ c, rest.head? = some c → c.isDigit = false) :
    number (decimal n ++ rest) = some (false, n) := by
  obtain ⟨hskip, hminus, hplus⟩ := decimal_front n rest
  have htake : (decimal n ++ rest).takeWhile Char.isDigit = decimal n := by
    rw [List.takeWhile_append_of_pos fun a ha => decimal_isDigit ha]
    cases rest with
    | nil => simp
    | cons a rest =>
      rw [List.takeWhile_cons_of_neg (by simp [hrest a rfl]), List.append_nil]
  unfold number
  dsimp only
  rw [hskip, if_neg (not_or.mpr ⟨hminus, hplus⟩), htake, if_neg (decimal_ne_nil n),
    decide_eq_false hminus]
  simp [decimal]

theorem saturate_of_lt {n : Nat} (hn : n < 2 ^ 64) :
    saturate (false, n) = BitVec.ofNat 64 n := by
  show (if n < 2 ^ 64 then BitVec.ofNat 64 n else _) = _
  rw [if_pos hn]

theorem scanU_decimal (v : BitVec 32) {rest : List Char}
    (hrest : ∀ c, rest.head? = some c → c.isDigit = false) :
    scanU (decimal v.toNat ++ rest) = some v := by
  have hv := v.isLt
  rw [scanU, number_decimal v.toNat hrest, Option.map_some, saturate_of_lt (by omega),
    Option.some.injEq]
  apply BitVec.eq_of_toNat_eq
  rw [BitVec.toNat_setWidth, BitVec.toNat_ofNat]
  omega

theorem atoi_decimal {n : Nat} (hn : n < 2 ^ 31) {rest : List Char}
    (hrest : ∀ c, rest.head? = some c → c.isDigit = false) : atoi (decimal n ++ rest) = n := by
  rw [atoi, number_decimal n hrest]
  simp only [Bool.false_eq_true, if_false]
  rw [min_eq_left (by omega), BitVec.toInt_ofInt, Int.bmod_def]
  omega

theorem decimal_length {n k : Nat} (hk : 0 < k) : (decimal n).length ≤ k ↔ n < 10 ^ k :=
  Nat.length_toDigits_le_iff (by decide) hk

theorem decimal_take {n i : Nat} (hi : 0 < i) (hlt : i < (decimal n).length) :
    ∃ m, m < n ∧ (decimal n).take i = decimal m := by
  induction n using Nat.strong_induction_on with
  | _ n ih =>
    have hn : 10 ≤ n := by
      by_contra hn
      have h := (decimal_length (n := n) (by decide : 0 < 1)).mpr (by omega)
      omega
    have hdec : decimal n = decimal (n / 10) ++ [(n % 10).digitChar] :=
      Nat.toDigits_of_base_le (by decide) hn
    rw [hdec, List.length_append, List.length_singleton] at hlt
    rw [hdec]
    by_cases hcut : i < (decimal (n / 10)).length
    · obtain ⟨m, hm, htake⟩ := ih (n / 10) (by omega) hcut
      rw [List.take_append_of_le_length (by omega), htake]
      exact ⟨m, by omega, rfl⟩
    · rw [List.take_append_of_le_length (by omega), List.take_of_length_le (by omega)]
      exact ⟨n / 10, by omega, rfl⟩

theorem scanU_cut (v : BitVec 32) {i : Nat} (hi : i < (decimal v.toNat).length) :
    scanU ((decimal v.toNat).take i) ≠ some v := by
  rcases Nat.eq_zero_or_pos i with rfl | hpos
  · intro h
    cases h
  · obtain ⟨m, hm, htake⟩ := decimal_take hpos hi
    have hv := v.isLt
    have hscan : scanU (decimal (BitVec.ofNat 32 m).toNat ++ []) = some (BitVec.ofNat 32 m) :=
      scanU_decimal _ (by simp)
    rw [BitVec.toNat_ofNat, Nat.mod_eq_of_lt (by omega), List.append_nil] at hscan
    rw [htake, hscan]
    intro h
    have hnat := congrArg BitVec.toNat (Option.some.inj h)
    rw [BitVec.toNat_ofNat, Nat.mod_eq_of_lt (by omega)] at hnat
    omega

/-! ### Reading lines -/

/-- What one call of `fgets` takes from a file: up to `n` characters, and no more than a line. -/
def chunk : Nat → List Char → List Char × List Char
  | 0, file => ([], file)
  | _ + 1, [] => ([], [])
  | n + 1, c :: file =>
    if c = '\n' then ([c], file) else ((chunk n file).1.cons c, (chunk n file).2)

/-- `fgets(buf, size, file)`: the new buffer and the rest of the file, nothing at the end of it. -/
def fgets (size : Nat) (buf file : List Char) : Option (List Char × List Char) :=
  if file = [] then none
  else
    let c := chunk (size - 1) file
    some (c.1 ++ nul :: buf.drop (c.1.length + 1), c.2)

theorem chunk_line {n : Nat} {line : List Char} (hline : '\n' ∉ line) (hn : line.length < n)
    (rest : List Char) : chunk n (line ++ '\n' :: rest) = (line ++ ['\n'], rest) := by
  induction line generalizing n with
  | nil =>
    obtain ⟨n, rfl⟩ : ∃ m, n = m + 1 := ⟨n - 1, by simp at hn; omega⟩
    simp [chunk]
  | cons c line ih =>
    obtain ⟨n, rfl⟩ : ∃ m, n = m + 1 := ⟨n - 1, by simp at hn; omega⟩
    rw [List.mem_cons, not_or] at hline
    rw [List.length_cons, Nat.add_lt_add_iff_right] at hn
    rw [List.cons_append, chunk, if_neg (Ne.symm hline.1), ih hline.2 hn]
    rfl

theorem chunk_cut {n : Nat} {line : List Char} (hline : '\n' ∉ line) (hn : n ≤ line.length)
    (rest : List Char) : chunk n (line ++ rest) = (line.take n, line.drop n ++ rest) := by
  induction line generalizing n with
  | nil =>
    obtain rfl : n = 0 := by simpa using hn
    rfl
  | cons c line ih =>
    cases n with
    | zero => rfl
    | succ n =>
      rw [List.mem_cons, not_or] at hline
      rw [List.length_cons, Nat.add_le_add_iff_right] at hn
      rw [List.cons_append, chunk, if_neg (Ne.symm hline.1), ih hline.2 hn]
      rfl

theorem chunk_length (n : Nat) (file : List Char) :
    (chunk n file).1.length ≤ n ∧ (chunk n file).1 ++ (chunk n file).2 = file ∧
      (0 < n → file ≠ [] → (chunk n file).1 ≠ []) := by
  induction file generalizing n with
  | nil => cases n <;> simp [chunk]
  | cons c file ih =>
    cases n with
    | zero => simp [chunk]
    | succ n =>
      rw [chunk]
      split_ifs with hc
      · simp
      · obtain ⟨h1, h2, -⟩ := ih n
        refine ⟨?_, ?_, fun _ _ => by simp⟩
        · simpa using h1
        · simp [h2]

theorem fgets_line {size : Nat} {line : List Char} (hline : '\n' ∉ line)
    (hsize : line.length + 1 < size) (buf rest : List Char) :
    fgets size buf (line ++ '\n' :: rest) =
      some (line ++ '\n' :: nul :: buf.drop (line.length + 2), rest) := by
  unfold fgets
  rw [if_neg (by simp), chunk_line hline (by omega)]
  simp

theorem fgets_cut {size : Nat} {line : List Char} (hline : '\n' ∉ line) (hpos : 2 ≤ size)
    (hsize : size ≤ line.length + 1) (buf rest : List Char) :
    fgets size buf (line ++ rest) =
      some (line.take (size - 1) ++ nul :: buf.drop size, line.drop (size - 1) ++ rest) := by
  have hne : line ++ rest ≠ [] := by
    intro hnil
    have hlen := congrArg List.length hnil
    rw [List.length_append, List.length_nil] at hlen
    omega
  unfold fgets
  rw [if_neg hne, chunk_cut hline (by omega)]
  dsimp only
  rw [List.length_take, min_eq_left (by omega), Nat.sub_add_cancel (by omega)]

theorem fgets_buffer {size : Nat} {buf file buf' rest : List Char} (hsize : buf.length = size)
    (hpos : 0 < size) (h : fgets size buf file = some (buf', rest)) : buf'.length = size := by
  unfold fgets at h
  split_ifs at h with hfile
  cases h
  have hlen := (chunk_length (size - 1) file).1
  rw [List.length_append, List.length_cons, List.length_drop]
  omega

theorem fgets_head {size : Nat} {buf file buf' rest : List Char} (hsize : 2 ≤ size)
    (h : fgets size buf file = some (buf', rest)) : buf'.head? = file.head? := by
  unfold fgets at h
  split_ifs at h with hfile
  cases h
  obtain ⟨n, hn⟩ : ∃ n, size - 1 = n + 1 := ⟨size - 2, by omega⟩
  obtain ⟨c, file, rfl⟩ := List.exists_cons_of_ne_nil hfile
  rw [hn, chunk]
  split_ifs with hc
  · rfl
  · rfl

theorem fgets_length {size : Nat} {buf file buf' rest : List Char} (hsize : 2 ≤ size)
    (h : fgets size buf file = some (buf', rest)) : rest.length < file.length := by
  unfold fgets at h
  split_ifs at h with hfile
  cases h
  obtain ⟨-, happ, hne⟩ := chunk_length (size - 1) file
  have hlen := congrArg List.length happ
  rw [List.length_append] at hlen
  have hpos := List.length_pos_of_ne_nil (hne (by omega) hfile)
  show (chunk (size - 1) file).2.length < file.length
  omega

end AtomicPredicate.Lib
