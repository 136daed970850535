import AtomicPredicate.RuleFile

/-!
# Rule lines that do not fit

`fgets` returns at most 49999 characters. The first piece of a longer rule line is read as if it were
the line, and what is left is read as an ID line, so that the next ID line is read as its rule line. A
file with such a line is never loaded as it is written, and neither is every file behind a header
that does not fit (`readRule_loads_iff`).
-/

namespace AtomicPredicate

open Lib

/-! ### Lines that are not rule lines -/

/-- Behind its first three characters the buffer holds a string without delimiters. -/
def Worded (buf : List Char) : Prop :=
  ∃ word rest, buf.drop 3 = word ++ nul :: rest ∧ ∀ x ∈ word, tokenChar tok x = true

section

variable {mem : Memory} {buf line file : List Char} {t t' : AclTable}

theorem Worded.append (h : Worded buf) (hline : ∀ x ∈ line, tokenChar tok x = true) :
    Worded (line ++ nul :: buf.drop (line.length + 1)) := by
  by_cases hlen : 3 ≤ line.length
  · rw [Worded, List.drop_append_of_le_length hlen]
    exact ⟨line.drop 3, _, rfl, fun x hx => hline x (List.mem_of_mem_drop hx)⟩
  · obtain ⟨word, rest, hdrop, hword⟩ := h
    refine ⟨word, rest, ?_, hword⟩
    have happ : line ++ nul :: buf.drop (line.length + 1) =
        (line ++ [nul]) ++ buf.drop (line.length + 1) := by simp
    rw [happ, List.drop_append, List.drop_of_length_le (by simp; omega), List.nil_append,
      List.length_append, List.length_singleton, List.drop_drop, ← hdrop]
    congr 1
    omega

theorem setRule_word {str : List Char} {id : Int} {res : AclTable × List Char} (hstr : Worded str)
    (h : setRule mem str id t = .ok res) : Appended t res.1 id [] := by
  obtain ⟨word, rest, hdrop, hword⟩ := hstr
  have hfeeds : Feeds tok ⟨str.take 3, str.drop 3⟩
      (if word = [] then [] else [word ++ nul :: rest]) := by
    rw [hdrop]
    exact Feeds.last hword (by decide) (str.take 3) rest
  have hagrees := setRule_agrees mem str (setRule_slot h) hfeeds id
  rw [h] at hagrees
  obtain ⟨rs, hrs, happended⟩ := hagrees.of_ok
  have hnil : rs = [] := by
    split_ifs at hrs with hempty
    · cases hrs
    · exact (round_none (nul_not_mem hword) hrs).2
  rwa [hnil] at happended

theorem setRule_worded {cs : List Cell} (hne : cs ≠ []) (hcs : ∀ c ∈ cs, c.Fine)
    {after : List Char} {id : Int} {res : AclTable × List Char}
    (h : setRule mem (['[', '{', '\''] ++ (text cs ++ nul :: after)) id t = .ok res) :
    Worded res.2 := by
  obtain ⟨s, ss, buf₁, rs, hkey, -, -, -, hprefix, -⟩ := setRule_ok h
  obtain ⟨c, cs, rfl⟩ := List.exists_cons_of_ne_nil hne
  have hc := hcs c (List.mem_cons_self ..)
  obtain ⟨rest, hrest⟩ : ∃ rest, text (c :: cs) ++ nul :: after = c.key ++ '\'' :: rest := by
    by_cases hnil : cs = []
    · subst hnil
      exact ⟨c.value ++ nul :: after, by simp [text]⟩
    · exact ⟨c.value ++ ',' :: (c.gap ++ '\'' :: text cs) ++ nul :: after, by
        rw [text_cons c hnil]; simp⟩
  have htoken := strtok_token [] (by simp) hc.key hc.key_ne_nil
    (by decide : tokenChar tok '\'' = false) ['[', '{', '\''] rest
  rw [if_neg (by decide : ¬ '\'' = nul)] at htoken
  have hstr : (['[', '{', '\''] ++ (text (c :: cs) ++ nul :: after)).drop 3 =
      [] ++ (c.key ++ '\'' :: rest) := hrest
  rw [hstr] at hkey
  cases hkey.symm.trans htoken
  obtain ⟨more, hmore⟩ := hprefix
  refine ⟨c.key, more, ?_, hc.key⟩
  rw [← hmore]
  simp

/-! ### The pieces of a long line -/

theorem lineBody_eq {objs : List RuleObject} (hobjs : objs ≠ []) :
    lineBody objs = ['[', '{', '\''] ++ (text (lineCells [] objs) ++ ['}', ']']) := by
  have h := printLine_eq hobjs
  rw [printLine_body, text_closing _ hobjs] at h
  refine List.append_cancel_right (h.trans ?_)
  simp

/-- What is left of a long line of which only the end is cut off. -/
def Remainder (line : List Char) : Prop := ∃ j, line = ['}', ']'].drop j

theorem Remainder.fine (h : Remainder line) : line.length ≤ 2 ∧ '\n' ∉ line ∧
    (∀ x ∈ line, tokenChar tok x = true) ∧
    ∀ rest, (line ++ '\n' :: rest).head? ≠ some '=' ∧ (line ++ '\n' :: rest).head? ≠ some '[' := by
  obtain ⟨j, rfl⟩ := h
  match j with
  | 0 => exact ⟨by decide, by decide, List.all_eq_true.mp (by decide), fun _ => by simp⟩
  | 1 => exact ⟨by decide, by decide, List.all_eq_true.mp (by decide), fun _ => by simp⟩
  | _ + 2 => exact ⟨by simp, by simp, by simp, fun _ => by simp⟩

theorem readLine_cut {a : Acl} (ha : ¬ a.Fits) (hbuf : buf.length = 50000) (file : List Char) :
    readLine buf (printLine a.objects ++ file) =
      ((lineBody a.objects).take 49999 ++ [nul],
        (lineBody a.objects).drop 49999 ++ '\n' :: file) := by
  have hlong : 50000 ≤ (lineBody a.objects).length + 1 := by
    unfold Acl.Fits at ha
    rw [printLine_body, List.length_append, List.length_singleton] at ha
    omega
  rw [printLine_body, List.append_assoc, List.singleton_append,
    readLine_long (lineBody_line a.objects) hlong hbuf]

/-- **The first piece of a long line**: the entry is wrong, or only the end of the line is left. -/
theorem readLoop_long {a : Acl} (ha : ¬ a.Fits)
    (hmem : ∀ i, (mem.malloc i).dstPort.1 ≠ (a.objects.getLast a.objects_ne_nil).transportDstBegin)
    (hbuf : buf.length = 50000) (h : readLoop mem buf (a.text ++ file) t = .ok t') :
    ¬ Holds t' t.numAcl a ∨ ∃ t₁ buf₁ line, t₁.numAcl = t.numAcl + 1 ∧ Worded buf₁ ∧
      Remainder line ∧ readLoop mem buf₁ (line ++ '\n' :: file) t₁ = .ok t' := by
  rw [Acl.text, List.append_assoc, List.cons_append, readLoop_id a.id_lt,
    readLine_cut ha (idBuffer_length a.id_lt hbuf), lineBody_eq a.objects_ne_nil] at h
  obtain ⟨res, hcall, hrest⟩ := bind_ok.mp h
  change setRule mem (['[', '{', '\''] ++ ((text (lineCells [] a.objects) ++ ['}', ']']).take 49996 ++
    [nul])) a.id t = .ok res at hcall
  change readLoop mem res.2 ((text (lineCells [] a.objects) ++ ['}', ']']).drop 49996 ++
    '\n' :: file) res.1 = .ok t' at hrest
  by_cases hcut : 49996 < (text (lineCells [] a.objects)).length
  · rw [List.take_append_of_le_length (le_of_lt hcut)] at hcall
    obtain ⟨rules, happended, hne⟩ := setRule_cut a.objects_ne_nil hcut hmem hcall
    exact .inl (happended.not_holds (readLoop_extends hrest) hne)
  · rw [List.take_append, List.take_of_length_le (by omega),
      ← text_closing _ a.objects_ne_nil] at hcall
    rw [List.drop_append, List.drop_of_length_le (by omega), List.nil_append] at hrest
    obtain ⟨_, _, _, _, -, -, -, happended, -⟩ := setRule_ok hcall
    have hclosing : ∀ x ∈ ['}', ']'], tokenChar tok x = true := List.all_eq_true.mp (by decide)
    exact .inr ⟨res.1, res.2, _, happended.numAcl,
      setRule_worded (lineCells_ne_nil _ a.objects_ne_nil) (lineCells_fine (take_token hclosing _) a.objects) hcall,
      ⟨_, rfl⟩, hrest⟩

/-- **The rest of a long line** takes the place of an ID line. -/
theorem readLoop_remainder (hline : Remainder line) (hbuf : Worded buf)
    (h : readLoop mem buf (line ++ '\n' :: file) t = .ok t') :
    ∃ buf₁ id res, Worded buf₁ ∧ setRule mem (readLine buf₁ file).1 id t = .ok res ∧
      Extends res.1 t' ∧ t.numAcl + 1 ≤ t'.numAcl := by
  obtain ⟨hlen, hnewline, htoken, hhead⟩ := hline.fine
  have hworded : Worded (line ++ '\n' :: nul :: buf.drop (line.length + 2)) := by
    have happ : ∀ x ∈ line ++ ['\n'], tokenChar tok x = true :=
      List.forall_mem_append.mpr ⟨htoken, List.all_eq_true.mp (by decide)⟩
    have h := hbuf.append happ
    rwa [List.append_assoc, List.singleton_append, List.length_append] at h
  obtain ⟨id, res, hcall, hext, hadds⟩ := readLoop_adds (fgets_line hnewline (by omega) buf file)
    (hhead _).1 (hhead _).2 h
  exact ⟨_, id, res, hworded, hcall, hext, hadds⟩

theorem readLoop_remainder_acl (hline : Remainder line) (hbuf : Worded buf) (a : Acl)
    (h : readLoop mem buf (line ++ '\n' :: (a.text ++ file)) t = .ok t') :
    ¬ Holds t' t.numAcl a := by
  obtain ⟨buf₁, id, res, hbuf₁, hcall, hext, -⟩ := readLoop_remainder hline hbuf h
  have hread : (readLine buf₁ (a.text ++ file)).1 = idBuffer a.id buf₁ := by
    rw [Acl.text, List.append_assoc, List.cons_append, readLine, fgets_id a.id_lt]
    rfl
  have hworded : Worded (idBuffer a.id buf₁) := by
    have happ : ∀ x ∈ decimal a.id ++ ['\n'], tokenChar tok x = true :=
      List.forall_mem_append.mpr ⟨fun x hx => plainChar_token (plainChar_of_isDigit
        (decimal_isDigit hx)), List.all_eq_true.mp (by decide)⟩
    have h := hbuf₁.append happ
    rwa [List.append_assoc, List.singleton_append, List.length_append] at h
  rw [hread] at hcall
  apply (setRule_word hworded hcall).not_holds hext
  intro hnil
  exact a.objects_ne_nil (List.map_eq_nil_iff.mp hnil.symm)

end

/-! ### Files that are not loaded -/

theorem exists_first_long {acls : List Acl} (h : ¬ ∀ a ∈ acls, a.Fits) :
    ∃ pre a post, acls = pre ++ a :: post ∧ (∀ b ∈ pre, b.Fits) ∧ ¬ a.Fits := by
  induction acls with
  | nil => exact absurd (fun _ ha => absurd ha List.not_mem_nil) h
  | cons a acls ih =>
    by_cases ha : a.Fits
    · have htail : ¬ ∀ b ∈ acls, b.Fits := fun hall => h (List.forall_mem_cons.mpr ⟨ha, hall⟩)
      obtain ⟨pre, b, post, rfl, hpre, hb⟩ := ih htail
      exact ⟨a :: pre, b, post, rfl, List.forall_mem_cons.mpr ⟨ha, hpre⟩, hb⟩
    · exact ⟨[], a, acls, rfl, fun _ hb => absurd hb List.not_mem_nil, ha⟩

def portMemory (port : BitVec 32) : Memory :=
  { clearedMemory with malloc := fun i => { clearedMemory.malloc i with dstPort := (port, 0) } }

def noTable : AclTable := ⟨[], 0, 0, 0, []⟩

/-- **A rule line that does not fit** spoils the file. -/
theorem not_loads {f : RuleFile} (hheader : f.HeaderFits) (hlong : ¬ ∀ a ∈ f.acls, a.Fits) :
    ¬ Loads f := by
  intro hloads
  obtain ⟨pre, a, post, hacls, hpre, ha⟩ := exists_first_long hlong
  have hmem : ∀ i, ((portMemory ((a.objects.getLast a.objects_ne_nil).transportDstBegin + 1)).malloc
      i).dstPort.1 ≠ (a.objects.getLast a.objects_ne_nil).transportDstBegin := by
    intro i
    simp [portMemory]
  generalize portMemory ((a.objects.getLast a.objects_ne_nil).transportDstBegin + 1) = mem at hmem
  obtain ⟨t', hread, hnumAcl, -, hholds⟩ := hloads mem noTable rfl rfl
  obtain ⟨buf, t₁, hread₁, hbuf, hnumAcl₁, -, hslots⟩ :=
    readRule_header mem hheader (rfl : noTable.numAcl = 0)
  rw [hacls, List.length_append, List.length_cons] at hslots hnumAcl
  rw [hread, hacls, List.flatMap_append, List.flatMap_cons, List.append_assoc,
    List.append_assoc] at hread₁
  have hroom : t₁.numAcl + pre.length ≤ t₁.slots.length := by omega
  obtain ⟨t₂, buf₂, hread₂, hloaded, hbuf₂⟩ := readLoop_acls mem hpre hbuf hroom
    (a.text ++ (post.flatMap Acl.text ++ ("===".toList ++ f.trailer)))
  have hrest := hread₂.symm.trans hread₁.symm
  have hnumAcl₂ : t₂.numAcl = pre.length := by
    rw [hloaded.numAcl, hnumAcl₁, Nat.zero_add]
  cases readLoop_long ha hmem hbuf₂ hrest with
  | inl hwrong =>
    apply hwrong
    rw [hnumAcl₂]
    exact hholds pre.length a (by simp [hacls])
  | inr hcut =>
    obtain ⟨t₃, buf₃, line, hnumAcl₃, hworded, hline, hrest₃⟩ := hcut
    cases post with
    | nil =>
      obtain ⟨_, _, _, -, -, -, hadds⟩ := readLoop_remainder hline hworded hrest₃
      rw [List.length_nil] at hnumAcl
      omega
    | cons b post =>
      rw [List.flatMap_cons, List.append_assoc] at hrest₃
      apply readLoop_remainder_acl hline hworded b hrest₃
      rw [hnumAcl₃, hnumAcl₂]
      exact hholds (pre.length + 1) b (by simp [hacls])

/-! ### Headers that are not skipped -/

theorem fgets_first (line buf file : List Char) : ∃ buf' file',
    fgets 50000 buf (line ++ '\n' :: file) = some (buf', file') ∧
      ∀ c, c ≠ '\n' → (buf'.head? = some c ↔ line.head? = some c) := by
  have hread : fgets 50000 buf (line ++ '\n' :: file) = some _ := if_neg (by simp)
  refine ⟨_, _, hread, fun c hc => ?_⟩
  rw [fgets_head (by decide) hread, line_head hc]

theorem readLoop_not_skipped {line : List Char} (hline : '\n' ∉ line) (hskip : ¬ Skipped line) :
    (∀ mem buf file t, readLoop mem buf (line ++ '\n' :: file) t = .ok t) ∨
      ∀ mem buf file t t', readLoop mem buf (line ++ '\n' :: file) t = .ok t' →
        t.numAcl + 1 ≤ t'.numAcl := by
  induction hlen : line.length using Nat.strong_induction_on generalizing line with
  | _ k ih =>
    by_cases hhead : line.head? = some '['
    · have hlong : 49999 ≤ line.length := by
        by_contra hshort
        exact hskip (skipped_iff.mpr ⟨hhead, fun hlong => absurd hlong hshort⟩)
      have hdrop : ¬ Skipped (line.drop 49999) :=
        fun hdrop => hskip (skipped_iff.mpr ⟨hhead, fun _ => hdrop⟩)
      have hnext : ∀ mem buf file t, ∃ buf', readLoop mem buf (line ++ '\n' :: file) t =
          readLoop mem buf' (line.drop 49999 ++ '\n' :: file) t := by
        intro mem buf file t
        have hread := fgets_cut hline (by decide) (by omega : 50000 ≤ line.length + 1) buf
          ('\n' :: file)
        exact ⟨_, readLoop_skip hread ((fgets_head (by decide) hread).trans
          ((line_head (by decide) line file).mpr hhead))⟩
      have hrest := ih (line.drop 49999).length (by rw [List.length_drop]; omega)
        (fun h => hline (List.mem_of_mem_drop h)) hdrop rfl
      refine hrest.imp (fun hstop mem buf file t => ?_) (fun hadds mem buf file t t' h => ?_)
      · obtain ⟨buf', hstep⟩ := hnext mem buf file t
        rw [hstep, hstop]
      · obtain ⟨buf', hstep⟩ := hnext mem buf file t
        rw [hstep] at h
        exact hadds mem buf' file t t' h
    · by_cases hbreak : line.head? = some '='
      · left
        intro mem buf file t
        obtain ⟨buf', file', hread, hfirst⟩ := fgets_first line buf file
        exact readLoop_break hread ((hfirst '=' (by decide)).mpr hbreak)
      · right
        intro mem buf file t t' h
        obtain ⟨buf', file', hread, hfirst⟩ := fgets_first line buf file
        obtain ⟨_, _, -, -, hadds⟩ := readLoop_adds hread (mt (hfirst '=' (by decide)).mp hbreak)
          (mt (hfirst '[' (by decide)).mp hhead) h
        exact hadds

def anyAcl : Acl := ⟨120, [anyObject], by decide, by decide⟩

/-- **A header that does not fit** spoils a file whose rule lines do. -/
theorem exists_not_loads (f : RuleFile) (hheader : ¬ f.HeaderFits) :
    ∃ acls : List Acl, (∀ a ∈ acls, a.Fits) ∧ ¬ Loads { f with acls := acls } := by
  obtain ⟨hlong, hskip⟩ := not_or.mp hheader
  have hread : ∀ acls : List Acl, Loads { f with acls := acls } → ∃ mem buf t t',
      readLoop mem buf (f.header.drop 49999 ++ '\n' :: (acls.flatMap Acl.text ++
        ("===".toList ++ f.trailer))) t = .ok t' ∧ t.numAcl = 0 ∧ t'.numAcl = acls.length := by
    intro acls hloads
    obtain ⟨t', hread, hnumAcl, -⟩ := hloads clearedMemory noTable rfl rfl
    obtain ⟨buf, t, heq, hbuf, hnumAcl₀, -⟩ := readRule_eq clearedMemory { f with acls := acls }
      (rfl : noTable.numAcl = 0)
    rw [hread, RuleFile.text, readLine_long f.header_line (by omega) hbuf] at heq
    exact ⟨_, _, t, t', heq.symm, hnumAcl₀, hnumAcl⟩
  cases readLoop_not_skipped (fun h => f.header_line (List.mem_of_mem_drop h)) hskip with
  | inl hstop =>
    refine ⟨[anyAcl], List.forall_mem_singleton.mpr (by decide +kernel), fun hloads => ?_⟩
    obtain ⟨mem, buf, t, t', hloop, hnumAcl₀, hnumAcl⟩ := hread _ hloads
    rw [hstop mem buf _ t] at hloop
    cases hloop
    rw [hnumAcl₀, List.length_singleton] at hnumAcl
    omega
  | inr hentry =>
    refine ⟨[], fun _ ha => absurd ha List.not_mem_nil, fun hloads => ?_⟩
    obtain ⟨mem, buf, t, t', hloop, hnumAcl₀, hnumAcl⟩ := hread _ hloads
    have hle := hentry mem buf _ t t' hloop
    rw [hnumAcl, hnumAcl₀, List.length_nil] at hle
    omega

/-- **Loading a rule file.** Behind a header that fits, the file is loaded if and only if its rule
lines fit. Behind any other header some file is not loaded although its rule lines fit. -/
theorem readRule_loads_iff (f : RuleFile) :
    (f.HeaderFits → (Loads f ↔ ∀ a ∈ f.acls, a.Fits)) ∧
      (¬ f.HeaderFits → ∃ acls : List Acl, (∀ a ∈ acls, a.Fits) ∧
        ¬ Loads { f with acls := acls }) := by
  refine ⟨fun hheader => ⟨fun hloads => ?_, loads_of_fits hheader⟩, exists_not_loads f⟩
  by_contra hlong
  exact not_loads hheader hlong hloads

/-! ### A file of one long line -/

theorem le_length_intercalate {n : Nat} (sep : List Char) {ls : List (List Char)}
    (hls : ∀ l ∈ ls, n ≤ l.length) : ls.length * n ≤ (sep.intercalate ls).length := by
  induction ls with
  | nil => simp
  | cons l ls ih =>
    obtain ⟨hl, hls⟩ := List.forall_mem_cons.mp hls
    have hle := ih hls
    by_cases hne : ls = []
    · subst hne
      simpa using hl
    · rw [List.intercalate_cons_of_ne_nil hne, List.length_append, List.length_append,
        List.length_cons, Nat.succ_mul]
      omega

theorem le_length_printLine {n : Nat} {objs : List RuleObject}
    (hobjs : ∀ o ∈ objs, n ≤ (printObject o.items).length) :
    objs.length * n ≤ (printLine objs).length := by
  have hle : (objs.map fun o => printObject o.items).length * n ≤ _ :=
    le_length_intercalate (", ".toList) (List.forall_mem_map.mpr hobjs)
  rw [List.length_map] at hle
  rw [printLine_body, lineBody]
  simp only [List.length_append, List.length_cons]
  omega

def longAcl : Acl := ⟨120, List.replicate 200 anyObject, by decide, by decide⟩

def longFile : RuleFile where
  header := "=== Reading Cisco Router Config File ===".toList
  acls := [longAcl]
  trailer := []
  header_line := by decide

/-- Its line has more than 49999 characters. -/
theorem not_loads_longFile : ¬ Loads longFile := by
  refine not_loads (Or.inl (by decide)) (fun hfits => ?_)
  have hlong : longAcl.objects.length * 250 ≤ (printLine longAcl.objects).length := by
    refine le_length_printLine (fun o ho => ?_)
    rw [List.eq_of_mem_replicate ho]
    decide +kernel
  have hlength : longAcl.objects.length = 200 := List.length_replicate
  have hle : (printLine longAcl.objects).length ≤ 49999 := hfits longAcl (List.mem_singleton_self _)
  omega

end AtomicPredicate
