import AtomicPredicate.CutLine
import AtomicPredicate.Lib.Lines

/-!
# Rule files

A rule file is a header line, pairs of an ID line and a rule line, and a line that starts with
`===`. `read_rule` counts the pieces that `fgets` returns to allocate the table, and then tells ID
lines and rule lines apart by their first character. A file whose lines all fit into the buffer is
loaded as it is written (`loads_of_fits`). What is left of a longer header is skipped if it looks like
a rule line.
-/

namespace AtomicPredicate

open Lib

/-! ### The format -/

structure Acl where
  id : Nat
  objects : List RuleObject
  id_lt : id < 2 ^ 31
  objects_ne_nil : objects ≠ []

/-- What `set_rule` is to make of it. -/
def Acl.rules (a : Acl) : List Rule := a.objects.map RuleObject.rule

def Acl.text (a : Acl) : List Char := decimal a.id ++ '\n' :: printLine a.objects

structure RuleFile where
  header : List Char
  acls : List Acl
  trailer : List Char
  header_line : '\n' ∉ header

def RuleFile.text (f : RuleFile) : List Char :=
  f.header ++ '\n' :: (f.acls.flatMap Acl.text ++ ("===".toList ++ f.trailer))

def lineBody (objs : List RuleObject) : List Char :=
  '[' :: ((", ".toList).intercalate (objs.map fun o => printObject o.items) ++ [']'])

/-- The rule line and its end are at most 49999 characters. -/
def Acl.Fits (a : Acl) : Prop := (printLine a.objects).length ≤ 49999

instance (a : Acl) : Decidable a.Fits := inferInstanceAs (Decidable (_ ≤ _))

theorem printLine_body (objs : List RuleObject) : printLine objs = lineBody objs ++ ['\n'] := by
  simp [printLine, lineBody]

theorem not_mem_intercalate {x : Char} {sep : List Char} {ls : List (List Char)} (hsep : x ∉ sep)
    (hls : ∀ l ∈ ls, x ∉ l) : x ∉ sep.intercalate ls := by
  induction ls with
  | nil => exact List.not_mem_nil
  | cons l ls ih =>
    obtain ⟨hl, hls⟩ := List.forall_mem_cons.mp hls
    by_cases hne : ls = []
    · subst hne
      rwa [List.intercalate_singleton]
    · rw [List.intercalate_cons_of_ne_nil hne, List.mem_append, List.mem_append, not_or, not_or]
      exact ⟨⟨hl, hsep⟩, ih hls⟩

theorem newline_not_mem {s : List Char} (h : ∀ x ∈ s, plainChar x = true) : '\n' ∉ s :=
  fun hmem => plainChar_line (h _ hmem) rfl

theorem printItem_line {item : Item} (h : Plain item) : '\n' ∉ printItem item := by
  have hkey := newline_not_mem h.2.1
  have hvalue := newline_not_mem h.2.2
  simp [printItem, hkey, hvalue]

theorem lineBody_line (objs : List RuleObject) : '\n' ∉ lineBody objs := by
  have hobject : ∀ o : RuleObject, '\n' ∉ printObject o.items := by
    intro o
    have hitems : '\n' ∉ (", ".toList).intercalate (o.items.map printItem) := by
      apply not_mem_intercalate (by decide)
      intro l hl
      obtain ⟨item, hitem, rfl⟩ := List.mem_map.mp hl
      exact printItem_line (o.items_plain item hitem)
    simp [printObject] at hitems ⊢
    exact hitems
  have hobjs : '\n' ∉ (", ".toList).intercalate (objs.map fun o => printObject o.items) := by
    apply not_mem_intercalate (by decide)
    intro l hl
    obtain ⟨o, -, rfl⟩ := List.mem_map.mp hl
    exact hobject o
  simp [lineBody] at hobjs ⊢
  exact hobjs

theorem decimal_line (n : Nat) : '\n' ∉ decimal n :=
  fun h => absurd (decimal_isDigit h) (by decide)

/-! ### What is loaded -/

/-- Entry `i` is the one of the ACL. -/
def Holds (t : AclTable) (i : Nat) (a : Acl) : Prop :=
  ∃ list, t.slots[i]? = some ⟨BitVec.ofNat 16 a.id, list⟩ ∧ IsList t.heap list a.rules

/-- The entries of the table `t` are kept. -/
structure Extends (t t' : AclTable) : Prop where
  numAcl : t.numAcl ≤ t'.numAcl
  entries : ∀ i, i < t.numAcl → t'.slots[i]? = t.slots[i]?
  heap : t.heap <+: t'.heap

theorem Extends.refl (t : AclTable) : Extends t t := ⟨le_refl _, fun _ _ => rfl, List.prefix_rfl⟩

theorem Extends.trans {t₁ t₂ t₃ : AclTable} (h : Extends t₁ t₂) (h' : Extends t₂ t₃) :
    Extends t₁ t₃ where
  numAcl := h.numAcl.trans h'.numAcl
  entries i hi := (h'.entries i (lt_of_lt_of_le hi h.numAcl)).trans (h.entries i hi)
  heap := h.heap.trans h'.heap

theorem Appended.extends {t t' : AclTable} {id : Int} {rules : List Rule}
    (h : Appended t t' id rules) : Extends t t' where
  numAcl := by rw [h.numAcl]; exact Nat.le_succ _
  entries i hi := h.earlier i (by omega)
  heap := h.heap

theorem Holds.mono {t t' : AclTable} {i : Nat} {a : Acl} (h : Holds t i a) (hext : Extends t t')
    (hi : i < t.numAcl) : Holds t' i a := by
  obtain ⟨list, hentry, hlist⟩ := h
  exact ⟨list, (hext.entries i hi).trans hentry, hlist.mono hext.heap⟩

theorem Appended.holds {t t' : AclTable} {a : Acl} (h : Appended t t' a.id a.rules) :
    Holds t' t.numAcl a := by
  obtain ⟨list, hentry, hlist⟩ := h.entry
  rw [BitVec.ofInt_natCast] at hentry
  exact ⟨list, hentry, hlist⟩

theorem Appended.not_holds {t t₁ t' : AclTable} {id : Int} {rules : List Rule} {a : Acl}
    (h : Appended t t₁ id rules) (hext : Extends t₁ t') (hne : rules ≠ a.rules) :
    ¬ Holds t' t.numAcl a := by
  intro hholds
  obtain ⟨list, hentry, hlist⟩ := h.entry
  obtain ⟨list', hentry', hlist'⟩ := hholds
  rw [hext.entries t.numAcl (by rw [h.numAcl]; exact Nat.lt_succ_self _), hentry] at hentry'
  obtain rfl : list = list' := congrArg Entry.list (Option.some.inj hentry')
  exact hne ((hlist.mono hext.heap).unique hlist')

/-- The ACLs are appended in order. -/
structure Loaded (t t' : AclTable) (acls : List Acl) : Prop where
  numAcl : t'.numAcl = t.numAcl + acls.length
  numRule : t'.numRule = t.numRule + (acls.map fun a => a.objects.length).sum
  size : t'.slots.length = t.slots.length
  entry : ∀ (i : Nat) (a : Acl), acls[i]? = some a → Holds t' (t.numAcl + i) a
  later : Extends t t'

theorem Loaded.nil (t : AclTable) : Loaded t t [] :=
  ⟨rfl, rfl, rfl, fun _ _ h => absurd h (by simp), Extends.refl t⟩

theorem Loaded.cons {t t₁ t' : AclTable} {a : Acl} {acls : List Acl}
    (h : Appended t t₁ a.id a.rules) (hacls : Loaded t₁ t' acls) : Loaded t t' (a :: acls) where
  numAcl := by
    rw [hacls.numAcl, h.numAcl, List.length_cons]
    omega
  numRule := by
    rw [hacls.numRule, h.numRule, Acl.rules, List.length_map, List.map_cons, List.sum_cons]
    omega
  size := hacls.size.trans h.size
  entry i b hb := by
    cases i with
    | zero =>
      obtain rfl : a = b := by simpa using hb
      exact h.holds.mono hacls.later (by rw [h.numAcl]; exact Nat.lt_succ_self _)
    | succ i =>
      have hholds := hacls.entry i b (by simpa using hb)
      rwa [h.numAcl, Nat.add_assoc, Nat.add_comm 1] at hholds
  later := h.extends.trans hacls.later

/-! ### Steps of the second pass -/

section

variable {mem : Memory} {buf file buf' file' : List Char} {t : AclTable}

theorem readLoop_break (h : fgets 50000 buf file = some (buf', file'))
    (hhead : buf'.head? = some '=') : readLoop mem buf file t = .ok t := by
  rw [readLoop]
  split
  · rfl
  · rename_i heq
    cases heq.symm.trans h
    rw [if_pos hhead]

theorem readLoop_skip (h : fgets 50000 buf file = some (buf', file'))
    (hhead : buf'.head? = some '[') : readLoop mem buf file t = readLoop mem buf' file' t := by
  rw [readLoop]
  split
  · rename_i heq
    cases heq.symm.trans h
  · rename_i heq
    cases heq.symm.trans h
    rw [if_neg (by rw [hhead]; decide), if_pos hhead]

theorem readLoop_entry (h : fgets 50000 buf file = some (buf', file'))
    (hbreak : buf'.head? ≠ some '=') (hskip : buf'.head? ≠ some '[') :
    readLoop mem buf file t =
      readEntry mem buf' file' t >>= fun res => readLoop mem res.2.1 res.2.2 res.1 := by
  rw [readLoop]
  split
  · rename_i heq
    cases heq.symm.trans h
  · rename_i heq
    cases heq.symm.trans h
    rw [if_neg hbreak, if_neg hskip]
    split
    · rename_i he
      rw [he]
      rfl
    · rename_i he
      rw [he]
      rfl

theorem readLoop_trailer (mem : Memory) (buf trailer : List Char) (t : AclTable) :
    readLoop mem buf ("===".toList ++ trailer) t = .ok t :=
  readLoop_break (if_neg (by simp)) rfl

theorem readEntry_appended {t' : AclTable}
    (h : readEntry mem buf file t = .ok (t', buf', file')) : t.numAcl < t.slots.length ∧
      (readLine buf file).2 = file' ∧ ∃ id rules, Appended t t' id rules := by
  obtain ⟨id, -, hcall, hfile⟩ := readEntry_ok.mp h
  obtain ⟨_, _, _, _, -, -, -, happended, -⟩ := setRule_ok hcall
  exact ⟨setRule_slot hcall, hfile, _, _, happended⟩

theorem readLoop_extends {t' : AclTable} (h : readLoop mem buf file t = .ok t') : Extends t t' := by
  fun_induction readLoop mem buf file t with
  | case1 buf file t hfile =>
    cases h
    exact Extends.refl _
  | case2 buf file t buf' file' hfile hbreak =>
    cases h
    exact Extends.refl _
  | case3 buf file t buf' file' hfile hbreak hskip ih => exact ih h
  | case4 buf file t buf' file' hfile hbreak hskip e he => cases h
  | case5 buf file t buf' file' hfile hbreak hskip t₁ buf₁ file₁ he ih =>
    obtain ⟨-, -, _, _, happended⟩ := readEntry_appended he
    exact happended.extends.trans (ih h)

theorem readLoop_adds {t' : AclTable} (h : fgets 50000 buf file = some (buf', file'))
    (hbreak : buf'.head? ≠ some '=') (hskip : buf'.head? ≠ some '[')
    (hrun : readLoop mem buf file t = .ok t') : ∃ id res,
      setRule mem (readLine buf' file').1 id t = .ok res ∧ Extends res.1 t' ∧
        t.numAcl + 1 ≤ t'.numAcl := by
  rw [readLoop_entry h hbreak hskip] at hrun
  obtain ⟨res, hentry, hrest⟩ := bind_ok.mp hrun
  obtain ⟨s, -, hcall, -⟩ := readEntry_ok.mp hentry
  obtain ⟨_, _, _, _, -, -, -, happended, -⟩ := setRule_ok hcall
  have hext := readLoop_extends hrest
  refine ⟨_, _, hcall, hext, ?_⟩
  rw [← happended.numAcl]
  exact hext.numAcl

def idBuffer (id : Nat) (buf : List Char) : List Char :=
  decimal id ++ '\n' :: nul :: buf.drop ((decimal id).length + 2)

theorem id_length {id : Nat} (hid : id < 2 ^ 31) : (decimal id).length ≤ 10 :=
  (decimal_length (by decide)).mpr (by omega)

theorem idBuffer_length {id : Nat} (hid : id < 2 ^ 31) (hbuf : buf.length = 50000) :
    (idBuffer id buf).length = 50000 := by
  have hlen := id_length hid
  simp only [idBuffer, List.length_append, List.length_cons, List.length_drop]
  omega

theorem fgets_id {id : Nat} (hid : id < 2 ^ 31) (buf file : List Char) :
    fgets 50000 buf (decimal id ++ '\n' :: file) = some (idBuffer id buf, file) := by
  have hlen := id_length hid
  exact fgets_line (decimal_line id) (by omega) buf file

theorem id_head (id : Nat) (rest : List Char) :
    ∃ c, (decimal id ++ rest).head? = some c ∧ c.isDigit = true := by
  obtain ⟨c, digits, hdec, hdigit⟩ := decimal_cons id
  exact ⟨c, by rw [hdec, List.cons_append, List.head?_cons], hdigit⟩

theorem readLoop_id {id : Nat} (hid : id < 2 ^ 31) (buf file : List Char) (t : AclTable) :
    readLoop mem buf (decimal id ++ '\n' :: file) t =
      setRule mem (readLine (idBuffer id buf) file).1 id t >>= fun res =>
        readLoop mem res.2 (readLine (idBuffer id buf) file).2 res.1 := by
  obtain ⟨c, hhead, hdigit⟩ := id_head id ('\n' :: nul :: buf.drop ((decimal id).length + 2))
  have hne : ∀ d : Char, d.isDigit = false → (idBuffer id buf).head? ≠ some d := by
    intro d hd heq
    rw [idBuffer, hhead] at heq
    rw [Option.some.inj heq, hd] at hdigit
    cases hdigit
  have hderef : deref (some (idBuffer id buf)) = .ok (decimal id ++ ['\n']) := by
    have hnul : nul ∉ decimal id ++ ['\n'] := by
      rw [List.mem_append, not_or]
      exact ⟨fun h => absurd (decimal_isDigit h) (by decide), by decide⟩
    have h := deref_token hnul (buf.drop ((decimal id).length + 2))
    rwa [List.append_assoc, List.singleton_append] at h
  have hatoi : atoi (decimal id ++ ['\n']) = id := atoi_decimal hid (by simp)
  rw [readLoop_entry (fgets_id hid buf file) (hne '=' (by decide)) (hne '[' (by decide)), readEntry,
    hderef]
  show (setRule mem (readLine (idBuffer id buf) file).1 (atoi (decimal id ++ ['\n'])) t >>= _) >>= _ = _
  rw [hatoi]
  cases setRule mem (readLine (idBuffer id buf) file).1 id t with
  | error e => rfl
  | ok res => rfl

theorem readLine_line {line : List Char} (hline : '\n' ∉ line) (hfits : line.length + 1 < 50000)
    (buf file : List Char) : readLine buf (line ++ '\n' :: file) =
      (line ++ '\n' :: nul :: buf.drop (line.length + 2), file) := by
  rw [readLine, fgets_line hline hfits]
  rfl

theorem readLine_long {line : List Char} (hline : '\n' ∉ line) (hlong : 50000 ≤ line.length + 1)
    (hbuf : buf.length = 50000) (file : List Char) : readLine buf (line ++ '\n' :: file) =
      (line.take 49999 ++ [nul], line.drop 49999 ++ '\n' :: file) := by
  rw [readLine, fgets_cut hline (by decide) hlong, List.drop_of_length_le (le_of_eq hbuf)]
  rfl

theorem readLine_fits {a : Acl} (ha : a.Fits) (buf file : List Char) :
    readLine buf (printLine a.objects ++ file) =
      (printLine a.objects ++ nul :: buf.drop ((printLine a.objects).length + 1), file) := by
  have hlen : (lineBody a.objects).length + 1 < 50000 := by
    unfold Acl.Fits at ha
    rw [printLine_body, List.length_append, List.length_singleton] at ha
    omega
  rw [printLine_body, List.append_assoc, List.singleton_append,
    readLine_line (lineBody_line a.objects) hlen]
  simp

/-- **One ACL** whose line fits. -/
theorem readLoop_acl (mem : Memory) {a : Acl} (ha : a.Fits) (hbuf : buf.length = 50000)
    (hslot : t.numAcl < t.slots.length) (file : List Char) :
    ∃ t' buf', readLoop mem buf (a.text ++ file) t = readLoop mem buf' file t' ∧
      Appended t t' a.id a.rules ∧ buf'.length = 50000 := by
  have hlen := idBuffer_length a.id_lt hbuf
  rw [Acl.text, List.append_assoc, List.cons_append, readLoop_id a.id_lt, readLine_fits ha]
  obtain ⟨t', buf', hcall, happended⟩ := setRule_printed mem a.objects_ne_nil
    ((idBuffer a.id buf).drop ((printLine a.objects).length + 1)) a.id hslot
  obtain ⟨_, _, _, _, -, -, -, -, -, hlen'⟩ := setRule_ok hcall
  rw [hcall]
  refine ⟨t', buf', rfl, happended, hlen'.trans ?_⟩
  unfold Acl.Fits at ha
  rw [List.length_append, List.length_cons, List.length_drop, hlen]
  omega

/-- **A run of ACLs** whose lines fit. -/
theorem readLoop_acls (mem : Memory) {acls : List Acl} (hacls : ∀ a ∈ acls, a.Fits)
    (hbuf : buf.length = 50000) (hslots : t.numAcl + acls.length ≤ t.slots.length)
    (file : List Char) :
    ∃ t' buf', readLoop mem buf (acls.flatMap Acl.text ++ file) t = readLoop mem buf' file t' ∧
      Loaded t t' acls ∧ buf'.length = 50000 := by
  induction acls generalizing buf t with
  | nil => exact ⟨t, buf, rfl, Loaded.nil t, hbuf⟩
  | cons a acls ih =>
    obtain ⟨ha, hacls⟩ := List.forall_mem_cons.mp hacls
    rw [List.length_cons] at hslots
    rw [List.flatMap_cons, List.append_assoc]
    have hslot : t.numAcl < t.slots.length := by omega
    obtain ⟨t₁, buf₁, hread, happended, hbuf₁⟩ :=
      readLoop_acl mem ha hbuf hslot (acls.flatMap Acl.text ++ file)
    rw [hread]
    obtain ⟨t', buf', hread', hloaded, hbuf'⟩ := ih hacls hbuf₁ (by
      rw [happended.numAcl, happended.size]
      omega)
    exact ⟨t', buf', hread', hloaded.cons happended, hbuf'⟩

/-! ### The first pass -/

theorem countLines_buffer (file : List Char) (n : Nat) (hbuf : buf.length = 50000) :
    (countLines buf file n).1.length = 50000 := by
  fun_induction countLines buf file n with
  | case1 buf file n h => exact hbuf
  | case2 buf file n buf' file' h ih => exact ih (fgets_buffer hbuf (by decide) h)

theorem pieces_of_none (h : fgets 50000 buf file = none) : pieces 49999 file = [] := by
  rcases fgets_pieces (n := 49999) (by decide) buf file with ⟨-, hpieces⟩ | ⟨piece, rest, hread, -⟩
  · exact hpieces
  · cases h.symm.trans hread

theorem pieces_of_some (h : fgets 50000 buf file = some (buf', file')) :
    ∃ piece, pieces 49999 file = piece :: pieces 49999 file' ∧ buf'.head? = piece.head? := by
  rcases fgets_pieces (n := 49999) (by decide) buf file with
    ⟨hread, -⟩ | ⟨piece, rest, hread, hpieces, hne, -⟩
  · cases h.symm.trans hread
  · cases h.symm.trans hread
    obtain ⟨c, piece, rfl⟩ := List.exists_cons_of_ne_nil hne
    exact ⟨c :: piece, hpieces, rfl⟩

theorem countLines_pieces (buf file : List Char) (n : Nat) :
    (countLines buf file n).2 = n + (pieces 49999 file).length := by
  fun_induction countLines buf file n with
  | case1 buf file n h =>
    rw [pieces_of_none h]
    rfl
  | case2 buf file n buf' file' h ih =>
    obtain ⟨piece, hpieces, -⟩ := pieces_of_some h
    rw [ih, hpieces, List.length_cons]
    omega

theorem pieces_acls_length (acls : List Acl) (rest : List Char) :
    (pieces 49999 rest).length + 2 * acls.length ≤
      (pieces 49999 (acls.flatMap Acl.text ++ rest)).length := by
  induction acls with
  | nil => exact le_refl _
  | cons a acls ih =>
    have hid := (pieces_line_length (n := 49999) (by decide) (decimal_line a.id)
      (lineBody a.objects ++ '\n' :: (acls.flatMap Acl.text ++ rest))).1
    have hline := (pieces_line_length (n := 49999) (by decide) (lineBody_line a.objects)
      (acls.flatMap Acl.text ++ rest)).1
    rw [List.flatMap_cons, List.append_assoc, Acl.text, printLine_body, List.append_assoc,
      List.cons_append, List.append_assoc, List.singleton_append, List.length_cons]
    omega

theorem countLines_file (f : RuleFile) (buf : List Char) :
    f.acls.length ≤ ((countLines buf f.text 0).2 - 2) / 2 := by
  have hheader := (pieces_line_length (n := 49999) (by decide) f.header_line
    (f.acls.flatMap Acl.text ++ ("===".toList ++ f.trailer))).1
  have hacls := pieces_acls_length f.acls ("===".toList ++ f.trailer)
  rw [pieces_cons (by decide) (show "===".toList ++ f.trailer ≠ [] by simp), List.length_cons]
    at hacls
  rw [countLines_pieces, RuleFile.text]
  omega

/-! ### The header -/

/-- The pieces of the line start like a rule line. -/
def Skipped (s : List Char) : Prop := ∀ j, j * 49999 ≤ s.length → s[j * 49999]? = some '['

/-- The header is one piece, or the second pass skips the other pieces. -/
def RuleFile.HeaderFits (f : RuleFile) : Prop :=
  f.header.length < 49999 ∨ Skipped (f.header.drop 49999)

theorem skipped_iff {line : List Char} : Skipped line ↔
    line.head? = some '[' ∧ (49999 ≤ line.length → Skipped (line.drop 49999)) := by
  constructor
  · intro h
    have hhead := h 0 (by omega)
    rw [Nat.zero_mul, ← List.head?_eq_getElem?] at hhead
    refine ⟨hhead, fun hlen j hj => ?_⟩
    rw [List.length_drop] at hj
    have hle : (j + 1) * 49999 ≤ line.length := by
      rw [Nat.succ_mul]
      exact Nat.add_le_of_le_sub hlen hj
    have hpiece := h (j + 1) hle
    rwa [List.getElem?_drop, Nat.add_comm 49999, ← Nat.succ_mul]
  · intro h j hj
    cases j with
    | zero => rw [Nat.zero_mul, ← List.head?_eq_getElem?, h.1]
    | succ j =>
      rw [Nat.succ_mul] at hj
      have hpiece := h.2 ((Nat.le_add_left ..).trans hj) j (by
        rw [List.length_drop]
        exact Nat.le_sub_of_add_le hj)
      rwa [List.getElem?_drop, Nat.add_comm 49999, ← Nat.succ_mul] at hpiece

theorem line_head {c : Char} (hc : c ≠ '\n') (line file : List Char) :
    (line ++ '\n' :: file).head? = some c ↔ line.head? = some c := by
  cases line with
  | nil => simp [hc.symm]
  | cons d line => simp

theorem readLoop_skipped (mem : Memory) {line : List Char} (hline : '\n' ∉ line)
    (hskip : Skipped line) (hbuf : buf.length = 50000) (file : List Char) (t : AclTable) :
    ∃ buf', readLoop mem buf (line ++ '\n' :: file) t = readLoop mem buf' file t ∧
      buf'.length = 50000 := by
  induction hlen : line.length using Nat.strong_induction_on generalizing line buf with
  | _ k ih =>
    obtain ⟨hhead, hdrop⟩ := skipped_iff.mp hskip
    have hfile := (line_head (by decide) line file).mpr hhead
    by_cases hfits : line.length + 1 < 50000
    · have hread := fgets_line hline hfits buf file
      exact ⟨_, readLoop_skip hread ((fgets_head (by decide) hread).trans hfile),
        fgets_buffer hbuf (by decide) hread⟩
    · have hread := fgets_cut hline (by decide) (by omega : 50000 ≤ line.length + 1) buf ('\n' :: file)
      obtain ⟨buf', hrest, hbuf'⟩ := ih (line.drop 49999).length
        (by rw [List.length_drop]; omega) (fun h => hline (List.mem_of_mem_drop h))
        (hdrop (by omega)) (fgets_buffer hbuf (by decide) hread) rfl
      exact ⟨buf', (readLoop_skip hread ((fgets_head (by decide) hread).trans hfile)).trans hrest,
        hbuf'⟩

theorem readRule_eq (mem : Memory) (f : RuleFile) {t : AclTable} (ht : t.numAcl = 0) :
    ∃ buf t₁, readRule mem f.text t = readLoop mem (readLine buf f.text).1 (readLine buf f.text).2 t₁ ∧
      buf.length = 50000 ∧ t₁.numAcl = 0 ∧ t₁.numRule = t.numRule ∧
        f.acls.length ≤ t₁.slots.length := by
  refine ⟨(countLines mem.str f.text t.numAcl).1, _, rfl, countLines_buffer f.text _ mem.str_length,
    rfl, rfl, ?_⟩
  rw [List.length_map, List.length_range, ht]
  exact countLines_file f mem.str

theorem readRule_header (mem : Memory) {f : RuleFile} (hheader : f.HeaderFits) {t : AclTable}
    (ht : t.numAcl = 0) :
    ∃ buf t₁, readRule mem f.text t =
        readLoop mem buf (f.acls.flatMap Acl.text ++ ("===".toList ++ f.trailer)) t₁ ∧
      buf.length = 50000 ∧ t₁.numAcl = 0 ∧ t₁.numRule = t.numRule ∧
        f.acls.length ≤ t₁.slots.length := by
  obtain ⟨buf, t₁, hread, hbuf, htable⟩ := readRule_eq mem f ht
  by_cases hfits : f.header.length + 1 < 50000
  · have hline := readLine_line f.header_line hfits buf
      (f.acls.flatMap Acl.text ++ ("===".toList ++ f.trailer))
    rw [RuleFile.text, hline] at hread
    refine ⟨_, t₁, hread, ?_, htable⟩
    simp only [List.length_append, List.length_cons, List.length_drop]
    omega
  · have hskip : Skipped (f.header.drop 49999) := hheader.resolve_left (by omega)
    have hline := readLine_long f.header_line (by omega) hbuf
      (f.acls.flatMap Acl.text ++ ("===".toList ++ f.trailer))
    rw [RuleFile.text, hline] at hread
    have hpiece : (f.header.take 49999 ++ [nul]).length = 50000 := by
      rw [List.length_append, List.length_take, List.length_singleton]
      omega
    obtain ⟨buf', hrest, hbuf'⟩ := readLoop_skipped mem
      (fun h => f.header_line (List.mem_of_mem_drop h)) hskip hpiece
      (f.acls.flatMap Acl.text ++ ("===".toList ++ f.trailer)) t₁
    exact ⟨buf', t₁, hread.trans hrest, hbuf', htable⟩

/-! ### Files that are loaded -/

/-- Every ACL of the file is an entry of the table, in the order of the file, and every rule is
counted, whatever memory held before. -/
def Loads (f : RuleFile) : Prop :=
  ∀ (mem : Memory) (t : AclTable), t.numAcl = 0 → t.numRule = 0 →
    ∃ t', readRule mem f.text t = .ok t' ∧ t'.numAcl = f.acls.length ∧
      t'.numRule = (f.acls.map fun a => a.objects.length).sum ∧
      ∀ (i : Nat) (a : Acl), f.acls[i]? = some a → Holds t' i a

theorem loads_of_fits {f : RuleFile} (hheader : f.HeaderFits) (hacls : ∀ a ∈ f.acls, a.Fits) :
    Loads f := by
  intro mem t hnumAcl hnumRule
  obtain ⟨buf, t₁, hread, hbuf, hnumAcl₁, hnumRule₁, hslots⟩ := readRule_header mem hheader hnumAcl
  have hroom : t₁.numAcl + f.acls.length ≤ t₁.slots.length := by omega
  obtain ⟨t', buf', hread', hloaded, hbuf'⟩ := readLoop_acls mem hacls hbuf hroom
    ("===".toList ++ f.trailer)
  refine ⟨t', ?_, ?_, ?_, ?_⟩
  · rw [hread, hread', readLoop_trailer]
  · rw [hloaded.numAcl, hnumAcl₁, Nat.zero_add]
  · rw [hloaded.numRule, hnumRule₁, hnumRule, Nat.zero_add]
  · intro i a ha
    have h := hloaded.entry i a ha
    rwa [hnumAcl₁, Nat.zero_add] at h

end

end AtomicPredicate
