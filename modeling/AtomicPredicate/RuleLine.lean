import AtomicPredicate.Parse

/-!
# Rule lines

A rule line is a list of objects as the rule files print them: `RuleObject.items` are the keys and
values of an object in the order of the files, and `printLine` is the line. The walk of `set_rule`
sees a line as cells (`lineCells`): a key up to its closing quote, a value up to the comma behind
it, and the gap before the next key, which reaches over the end of an object.

`setRule_line` is the round trip: the entry appended for a printed line has the rules printed.
-/

namespace AtomicPredicate

open Lib

/-! ### Printing -/

abbrev Item := List Char × List Char

structure RuleObject where
  transportSrcEnd : BitVec 32
  ipProtocol : BitVec 32
  transportSrcBegin : BitVec 32
  transportCtrlEnd : BitVec 32
  srcIP : BitVec 32
  transportDstEnd : BitVec 32
  dstIP : BitVec 32
  action : Bool
  dstIPMask : BitVec 32
  srcIPMask : BitVec 32
  transportCtrlBegin : BitVec 32
  line : Option Nat
  transportDstBegin : BitVec 32

def printWord (v : BitVec 32) : List Char := decimal v.toNat

def printBool (b : Bool) : List Char := if b then "True".toList else "False".toList

namespace RuleObject

variable (o : RuleObject)

def lineItem : List Item :=
  match o.line with
  | none => []
  | some m => [("line".toList, '[' :: (decimal m ++ [']']))]

def items : List Item :=
  [("transport_src_end".toList, printWord o.transportSrcEnd),
    ("ip_protocol".toList, printWord o.ipProtocol),
    ("transport_src_begin".toList, printWord o.transportSrcBegin),
    ("transport_ctrl_end".toList, printWord o.transportCtrlEnd),
    ("src_ip".toList, printWord o.srcIP),
    ("transport_dst_end".toList, printWord o.transportDstEnd),
    ("dst_ip".toList, printWord o.dstIP),
    ("action".toList, printBool o.action),
    ("dst_ip_mask".toList, printWord o.dstIPMask),
    ("src_ip_mask".toList, printWord o.srcIPMask),
    ("transport_ctrl_begin".toList, printWord o.transportCtrlBegin)] ++
  o.lineItem ++ [("transport_dst_begin".toList, printWord o.transportDstBegin)]

def rule : Rule where
  srcIP := o.srcIP
  dstIP := o.dstIP
  srcmask := o.srcIPMask
  dstmask := o.dstIPMask
  srclen := maskLoop 32 o.srcIPMask
  dstlen := maskLoop 32 o.dstIPMask
  srcPort := (o.transportSrcBegin, o.transportSrcEnd)
  dstPort := (o.transportDstBegin, o.transportDstEnd)
  proto := o.ipProtocol
  action := if o.action then 1 else 0

end RuleObject

def printItem (item : Item) : List Char := '\'' :: (item.1 ++ '\'' :: ':' :: ' ' :: item.2)

def printObject (items : List Item) : List Char :=
  '{' :: ((", ".toList).intercalate (items.map printItem) ++ ['}'])

def printLine (objs : List RuleObject) : List Char :=
  '[' :: ((", ".toList).intercalate (objs.map fun o => printObject o.items) ++ "]\n".toList)

/-- A line of objects given by their keys and values. -/
def printItems (line : List (List Item)) : List Char :=
  '[' :: ((", ".toList).intercalate (line.map printObject) ++ "]\n".toList)

theorem printLine_items (objs : List RuleObject) :
    printLine objs = printItems (objs.map RuleObject.items) := by
  rw [printItems, List.map_map]
  rfl

/-! ### Cells -/

structure Cell where
  key : List Char
  value : List Char
  gap : List Char

/-- The cells of an object, with what follows its last value. -/
def objectCells (closing : List Char) : List Item → List Cell
  | [] => []
  | [(key, value)] => [⟨key, ':' :: ' ' :: (value ++ closing), [' ', '{']⟩]
  | (key, value) :: items => ⟨key, ':' :: ' ' :: value, " ".toList⟩ :: objectCells closing items

def lineCells (closing : List Char) : List RuleObject → List Cell
  | [] => []
  | [o] => objectCells closing o.items
  | o :: objs => objectCells ['}'] o.items ++ lineCells closing objs

def itemsCells (closing : List Char) : List (List Item) → List Cell
  | [] => []
  | [items] => objectCells closing items
  | items :: line => objectCells ['}'] items ++ itemsCells closing line

/-- The text from the first key on. -/
def text : List Cell → List Char
  | [] => []
  | [c] => c.key ++ '\'' :: c.value
  | c :: cs => c.key ++ '\'' :: (c.value ++ ',' :: (c.gap ++ '\'' :: text cs))

theorem text_cons (c : Cell) {cs : List Cell} (hcs : cs ≠ []) :
    text (c :: cs) = c.key ++ '\'' :: (c.value ++ ',' :: (c.gap ++ '\'' :: text cs)) := by
  cases cs with
  | nil => exact absurd rfl hcs
  | cons c' cs => rfl

theorem objectCells_cons (closing : List Char) (key value : List Char) {items : List Item}
    (hitems : items ≠ []) : objectCells closing ((key, value) :: items) =
      ⟨key, ':' :: ' ' :: value, " ".toList⟩ :: objectCells closing items := by
  cases items with
  | nil => exact absurd rfl hitems
  | cons item items => rfl

theorem lineCells_cons (closing : List Char) (o : RuleObject) {objs : List RuleObject}
    (hobjs : objs ≠ []) :
    lineCells closing (o :: objs) = objectCells ['}'] o.items ++ lineCells closing objs := by
  cases objs with
  | nil => exact absurd rfl hobjs
  | cons o' objs => rfl

theorem objectCells_ne_nil (closing : List Char) {items : List Item} (hitems : items ≠ []) :
    objectCells closing items ≠ [] := by
  match items, hitems with
  | [_], _ => exact List.cons_ne_nil _ _
  | _ :: _ :: _, _ => exact List.cons_ne_nil _ _

theorem objectCells_snoc (closing : List Char) (items : List Item) (key value : List Char) :
    objectCells closing (items ++ [(key, value)]) =
      items.map (fun item => ⟨item.1, ':' :: ' ' :: item.2, " ".toList⟩) ++
        [⟨key, ':' :: ' ' :: (value ++ closing), [' ', '{']⟩] := by
  induction items with
  | nil => rfl
  | cons item items ih =>
    rw [List.cons_append, objectCells_cons _ _ _ (by simp), ih]
    rfl

theorem itemsCells_cons (closing : List Char) (items : List Item) {line : List (List Item)}
    (hline : line ≠ []) :
    itemsCells closing (items :: line) = objectCells ['}'] items ++ itemsCells closing line := by
  cases line with
  | nil => exact absurd rfl hline
  | cons items' line => rfl

theorem lineCells_items (closing : List Char) (objs : List RuleObject) :
    lineCells closing objs = itemsCells closing (objs.map RuleObject.items) := by
  induction objs with
  | nil => rfl
  | cons o objs ih =>
    by_cases hne : objs = []
    · subst hne
      rfl
    · rw [lineCells_cons closing o hne, List.map_cons, itemsCells_cons closing _ (by simpa using hne),
        ih]

theorem itemsCells_ne_nil (closing : List Char) {line : List (List Item)} (hline : line ≠ [])
    (hitems : ∀ items ∈ line, items ≠ []) : itemsCells closing line ≠ [] := by
  obtain ⟨items, line, rfl⟩ := List.exists_cons_of_ne_nil hline
  have hcells := fun closing => objectCells_ne_nil closing (hitems items (by simp))
  by_cases hne : line = []
  · subst hne
    exact hcells closing
  · rw [itemsCells_cons closing items hne]
    exact List.append_ne_nil_of_left_ne_nil (hcells _) _

theorem RuleObject.items_ne_nil (o : RuleObject) : o.items ≠ [] := List.cons_ne_nil _ _

theorem forall_items {P : List Item → Prop} (hP : ∀ o : RuleObject, P o.items)
    (objs : List RuleObject) : ∀ items ∈ objs.map RuleObject.items, P items := by
  intro items hmem
  obtain ⟨o, -, rfl⟩ := List.mem_map.mp hmem
  exact hP o

theorem lineCells_ne_nil (closing : List Char) {objs : List RuleObject} (hobjs : objs ≠ []) :
    lineCells closing objs ≠ [] := by
  rw [lineCells_items]
  exact itemsCells_ne_nil closing (by simpa using hobjs) (forall_items RuleObject.items_ne_nil objs)

theorem text_objectCells (closing : List Char) {items : List Item} (hitems : items ≠ []) :
    '\'' :: text (objectCells closing items) =
      (", ".toList).intercalate (items.map printItem) ++ closing := by
  induction items with
  | nil => exact absurd rfl hitems
  | cons item items ih =>
    obtain ⟨key, value⟩ := item
    by_cases hne : items = []
    · subst hne
      simp [objectCells, text, printItem]
    · rw [objectCells_cons closing key value hne, text_cons _ (objectCells_ne_nil closing hne),
        List.map_cons, List.intercalate_cons_of_ne_nil (by simpa using hne)]
      simp [printItem, ih hne]

theorem text_objectCells_append {items : List Item} (hitems : items ≠ []) {cs : List Cell}
    (hcs : cs ≠ []) (closing : List Char) : text (objectCells closing items ++ cs) =
      text (objectCells closing items) ++ [',', ' ', '{', '\''] ++ text cs := by
  induction items with
  | nil => exact absurd rfl hitems
  | cons item items ih =>
    obtain ⟨key, value⟩ := item
    by_cases hne : items = []
    · subst hne
      rw [objectCells, List.singleton_append, text_cons _ hcs, text]
      simp
    · rw [objectCells_cons closing key value hne, List.cons_append,
        text_cons _ (objectCells_ne_nil closing hne),
        text_cons _ (List.append_ne_nil_of_right_ne_nil _ hcs), ih hne]
      simp

theorem text_itemsCells (closing : List Char) {line : List (List Item)} (hline : line ≠ [])
    (hitems : ∀ items ∈ line, items ≠ []) :
    '{' :: '\'' :: text (itemsCells ('}' :: closing) line) =
      (", ".toList).intercalate (line.map printObject) ++ closing := by
  induction line with
  | nil => exact absurd rfl hline
  | cons items line ih =>
    obtain ⟨hhead, htail⟩ := List.forall_mem_cons.mp hitems
    by_cases hne : line = []
    · subst hne
      rw [itemsCells, text_objectCells _ hhead]
      simp [printObject]
    · rw [itemsCells_cons _ items hne,
        text_objectCells_append hhead (itemsCells_ne_nil _ hne htail),
        List.map_cons, List.intercalate_cons_of_ne_nil (by simpa using hne),
        List.append_assoc (printObject items ++ _), ← ih hne htail, List.append_assoc,
        ← List.cons_append, text_objectCells _ hhead]
      simp [printObject]

theorem printItems_eq {line : List (List Item)} (hline : line ≠ [])
    (hitems : ∀ items ∈ line, items ≠ []) :
    printItems line = ['[', '{', '\''] ++ text (itemsCells ['}', ']', '\n'] line) := by
  have h := text_itemsCells [']', '\n'] hline hitems
  rw [List.cons_append, List.cons_append, List.cons_append, List.nil_append, h]
  rfl

theorem printLine_eq {objs : List RuleObject} (hobjs : objs ≠ []) :
    printLine objs = ['[', '{', '\''] ++ text (lineCells ['}', ']', '\n'] objs) := by
  rw [printLine_items, lineCells_items]
  exact printItems_eq (by simpa using hobjs) (forall_items RuleObject.items_ne_nil objs)

theorem text_closing (closing : List Char) {objs : List RuleObject} (hobjs : objs ≠ []) :
    text (lineCells closing objs) = text (lineCells [] objs) ++ closing := by
  have hobject : ∀ items : List Item, items ≠ [] →
      text (objectCells closing items) = text (objectCells [] items) ++ closing := by
    intro items hitems
    have h := text_objectCells closing hitems
    have h' := text_objectCells [] hitems
    rw [List.append_nil] at h'
    rw [← h'] at h
    exact (List.cons.inj h).2
  induction objs with
  | nil => exact absurd rfl hobjs
  | cons o objs ih =>
    by_cases hne : objs = []
    · subst hne
      exact hobject o.items o.items_ne_nil
    · rw [lineCells_cons _ o hne, lineCells_cons _ o hne,
        text_objectCells_append o.items_ne_nil (lineCells_ne_nil _ hne),
        text_objectCells_append o.items_ne_nil (lineCells_ne_nil _ hne), ih hne, List.append_assoc,
        List.append_assoc, List.append_assoc]

/-! ### Walking over cells -/

/-- Every part is a token, and the value has its two characters to skip. -/
structure Cell.Fine (c : Cell) : Prop where
  key_ne_nil : c.key ≠ []
  key : ∀ x ∈ c.key, tokenChar tok x = true
  value_length : 2 ≤ c.value.length
  value : ∀ x ∈ c.value, tokenChar tok x = true
  gap_ne_nil : c.gap ≠ []
  gap : ∀ x ∈ c.gap, tokenChar tok x = true

theorem nul_not_mem {s : List Char} (h : ∀ x ∈ s, tokenChar tok x = true) : nul ∉ s :=
  fun hnul => (of_decide_eq_true (h nul hnul)).2 rfl

theorem Cell.Fine.value_ne_nil {c : Cell} (h : c.Fine) : c.value ≠ [] := by
  have hlen := h.value_length
  intro hnil
  rw [hnil] at hlen
  exact absurd hlen (by decide)

/-- What a key and its value do to the list of rules. -/
def assign (mem : Memory) (base : Nat) (key value : List Char) (rs : List Rule) : List Rule :=
  match keyOf key with
  | none => rs
  | some k =>
    (if k = .srcEnd then mem.malloc (base + rs.length) :: rs else rs).modifyHead (k.assign value)

def assignCells (mem : Memory) (base : Nat) (rs : List Rule) (cs : List Cell) : List Rule :=
  cs.foldl (fun rs c => assign mem base c.key (c.value.drop 2) rs) rs

theorem assignCells_append (mem : Memory) (base : Nat) (rs : List Rule) (cs ds : List Cell) :
    assignCells mem base rs (cs ++ ds) = assignCells mem base (assignCells mem base rs cs) ds :=
  List.foldl_append

section

variable {mem : Memory} {base : Nat} {rs : List Rule} {key value before rest : List Char}
  {ss : List (List Char)}

theorem deref_token (hs : nul ∉ key) (rest : List Char) :
    deref (some (key ++ nul :: rest)) = .ok key := by
  rw [deref, cstr_append hs]
  rfl

theorem step_eq (h : deref (some (value.drop 2)) = .ok key) (k : List Char) :
    step mem base (keyOf k) (some value) rs = .ok (assign mem base k key rs) := by
  unfold step assign
  cases keyOf k with
  | none => rfl
  | some key' =>
    dsimp only [Option.map_some]
    rw [h]
    rfl

theorem round_token (hkey : nul ∉ key) (hvalue : nul ∉ value) (hlen : 2 ≤ value.length)
    (rest rest' : List Char) :
    round mem base rs (key ++ nul :: rest) (some (value ++ nul :: rest')) =
      .ok (assign mem base key (value.drop 2) rs) := by
  have hskip : deref (some ((value ++ nul :: rest').drop 2)) = .ok (value.drop 2) := by
    rw [List.drop_append_of_le_length hlen]
    exact deref_token (fun h => hvalue (List.mem_of_mem_drop h)) rest'
  rw [round, deref_token hkey]
  exact step_eq hskip key

theorem parse_cell (hkey : nul ∉ key) (hvalue : nul ∉ value) (hlen : 2 ≤ value.length)
    (rest rest' gap s : List Char) :
    parse mem base rs (key ++ nul :: rest) ((value ++ nul :: rest') :: gap :: s :: ss) =
      parse mem base (assign mem base key (value.drop 2) rs) s ss := by
  rw [parse, round_token hkey hvalue hlen]
  rfl

theorem feeds_cell {c : Cell} (hc : c.Fine)
    (hss : Feeds tok ⟨before ++ c.key ++ [nul] ++ c.value ++ [nul] ++ c.gap ++ [nul], rest⟩ ss) :
    Feeds tok ⟨before, c.key ++ '\'' :: (c.value ++ ',' :: (c.gap ++ '\'' :: rest))⟩
      ((c.key ++ nul :: (c.value ++ ',' :: (c.gap ++ '\'' :: rest))) ::
        (c.value ++ nul :: (c.gap ++ '\'' :: rest)) :: (c.gap ++ nul :: rest) :: ss) := by
  apply Feeds.cons hc.key hc.key_ne_nil (by decide) (by decide)
  apply Feeds.cons hc.value hc.value_ne_nil (by decide) (by decide)
  exact Feeds.cons hc.gap hc.gap_ne_nil (by decide) (by decide) hss

/-- **The walk** over a line assigns cell by cell. -/
theorem walk_text (mem : Memory) (base : Nat) {cs : List Cell} (hne : cs ≠ [])
    (hcs : ∀ c ∈ cs, c.Fine) (before after : List Char) :
    ∃ s ss, Feeds tok ⟨before, text cs ++ nul :: after⟩ (s :: ss) ∧
      ∀ rs, parse mem base rs s ss = .ok (assignCells mem base rs cs) := by
  induction cs generalizing before with
  | nil => exact absurd rfl hne
  | cons c cs ih =>
    have hc := hcs c (List.mem_cons_self ..)
    by_cases hnil : cs = []
    · subst hnil
      refine ⟨c.key ++ nul :: (c.value ++ nul :: after), [c.value ++ nul :: after], ?_, ?_⟩
      · have hlast := Feeds.last hc.value (by decide : nul ∉ tok)
          (before ++ c.key ++ [nul]) after
        rw [if_neg hc.value_ne_nil] at hlast
        rw [text, List.append_assoc, List.cons_append]
        exact Feeds.cons hc.key hc.key_ne_nil (by decide) (by decide) hlast
      · intro rs
        rw [parse]
        · exact round_token (nul_not_mem hc.key) (nul_not_mem hc.value) hc.value_length _ _
        · intro _ _ _ _ h
          cases h
    · obtain ⟨s, ss, hss, hparse⟩ := ih hnil (fun c' hc' => hcs c' (List.mem_cons_of_mem _ hc'))
        (before ++ c.key ++ [nul] ++ c.value ++ [nul] ++ c.gap ++ [nul])
      have htext : text (c :: cs) ++ nul :: after = c.key ++ '\'' ::
          (c.value ++ ',' :: (c.gap ++ '\'' :: (text cs ++ nul :: after))) := by
        rw [text_cons c hnil]
        simp
      rw [htext]
      refine ⟨_, _, feeds_cell hc hss, fun rs => ?_⟩
      rw [parse_cell (nul_not_mem hc.key) (nul_not_mem hc.value) hc.value_length]
      exact hparse _

end

/-! ### Printed cells -/

/-- Neither a delimiter nor the end of a string or of a line. -/
def plainChar (c : Char) : Bool := tokenChar tok c && decide (c ≠ '\n')

theorem plainChar_token {c : Char} (h : plainChar c = true) : tokenChar tok c = true :=
  (Bool.and_eq_true_iff.mp h).1

theorem plainChar_line {c : Char} (h : plainChar c = true) : c ≠ '\n' :=
  of_decide_eq_true (Bool.and_eq_true_iff.mp h).2

def Plain (item : Item) : Prop :=
  item.1 ≠ [] ∧ (∀ x ∈ item.1, plainChar x = true) ∧ ∀ x ∈ item.2, plainChar x = true

theorem plainChar_of_isDigit {c : Char} (h : c.isDigit = true) : plainChar c = true := by
  have hne : ∀ d : Char, d.isDigit = false → c ≠ d := by
    intro d hd heq
    rw [heq, hd] at h
    cases h
  have htok : c ∉ tok := by
    simp only [tok, String.reduceToList, List.mem_cons, List.not_mem_nil, or_false, not_or]
    exact ⟨hne _ (by decide), hne _ (by decide)⟩
  unfold plainChar tokenChar
  rw [decide_eq_true ⟨htok, hne nul (by decide)⟩, decide_eq_true (hne '\n' (by decide))]
  rfl

theorem plain_word {key : List Char} (hkey : key ≠ [] ∧ key.all plainChar = true) (v : BitVec 32) :
    Plain (key, printWord v) :=
  ⟨hkey.1, List.all_eq_true.mp hkey.2, fun _ hx => plainChar_of_isDigit (decimal_isDigit hx)⟩

theorem plain_bool (b : Bool) : Plain ("action".toList, printBool b) := by
  cases b <;>
    exact ⟨by decide, List.all_eq_true.mp (by decide), List.all_eq_true.mp (by decide)⟩

theorem plain_line (m : Nat) : Plain ("line".toList, '[' :: (decimal m ++ [']'])) := by
  have hkey : "line".toList ≠ [] ∧ "line".toList.all plainChar = true := by decide
  refine ⟨hkey.1, List.all_eq_true.mp hkey.2, ?_⟩
  intro x hx
  rw [List.mem_cons, List.mem_append, List.mem_singleton] at hx
  rcases hx with rfl | hx | rfl
  · decide
  · exact plainChar_of_isDigit (decimal_isDigit hx)
  · decide

theorem RuleObject.items_plain (o : RuleObject) : ∀ item ∈ o.items, Plain item := by
  have hline : ∀ item ∈ o.lineItem, Plain item := by
    unfold RuleObject.lineItem
    cases o.line with
    | none => exact fun item h => absurd h (List.not_mem_nil)
    | some m => exact fun item h => List.mem_singleton.mp h ▸ plain_line m
  simp only [RuleObject.items, List.forall_mem_append, List.forall_mem_cons, List.not_mem_nil,
    false_imp_iff, implies_true, and_true]
  exact ⟨⟨⟨plain_word (by decide) _, plain_word (by decide) _, plain_word (by decide) _,
    plain_word (by decide) _, plain_word (by decide) _, plain_word (by decide) _,
    plain_word (by decide) _, plain_bool _, plain_word (by decide) _, plain_word (by decide) _,
    plain_word (by decide) _⟩, hline⟩, plain_word (by decide) _⟩

theorem fine_cell {key value closing gap : List Char} (h : Plain (key, value))
    (hclosing : ∀ x ∈ closing, tokenChar tok x = true)
    (hgap : gap ≠ [] ∧ gap.all (tokenChar tok) = true) :
    (⟨key, ':' :: ' ' :: (value ++ closing), gap⟩ : Cell).Fine where
  key_ne_nil := h.1
  key x hx := plainChar_token (h.2.1 x hx)
  value_length := by simp
  value := by
    intro x hx
    rw [List.mem_cons, List.mem_cons, List.mem_append] at hx
    rcases hx with rfl | rfl | hx | hx
    · decide
    · decide
    · exact plainChar_token (h.2.2 x hx)
    · exact hclosing x hx
  gap_ne_nil := hgap.1
  gap := List.all_eq_true.mp hgap.2

theorem objectCells_fine {closing : List Char} (hclosing : ∀ x ∈ closing, tokenChar tok x = true)
    {items : List Item} (hitems : ∀ item ∈ items, Plain item) :
    ∀ c ∈ objectCells closing items, c.Fine := by
  induction items with
  | nil => exact fun c hc => absurd hc (List.not_mem_nil)
  | cons item items ih =>
    obtain ⟨key, value⟩ := item
    obtain ⟨hitem, hitems⟩ := List.forall_mem_cons.mp hitems
    by_cases hne : items = []
    · subst hne
      intro c hc
      rw [List.mem_singleton.mp hc]
      exact fine_cell hitem hclosing (by decide)
    · rw [objectCells_cons closing key value hne]
      refine List.forall_mem_cons.mpr ⟨?_, ih hitems⟩
      have hcell : (⟨key, ':' :: ' ' :: (value ++ []), " ".toList⟩ : Cell).Fine :=
        fine_cell hitem (by simp) (by decide)
      rwa [List.append_nil] at hcell

theorem itemsCells_fine {closing : List Char} (hclosing : ∀ x ∈ closing, tokenChar tok x = true)
    {line : List (List Item)} (hitems : ∀ items ∈ line, ∀ item ∈ items, Plain item) :
    ∀ c ∈ itemsCells closing line, c.Fine := by
  induction line with
  | nil => exact fun c hc => absurd hc (List.not_mem_nil)
  | cons items line ih =>
    obtain ⟨hhead, htail⟩ := List.forall_mem_cons.mp hitems
    by_cases hne : line = []
    · subst hne
      exact objectCells_fine hclosing hhead
    · rw [itemsCells_cons closing items hne]
      exact List.forall_mem_append.mpr
        ⟨objectCells_fine (List.all_eq_true.mp (by decide)) hhead, ih htail⟩

theorem lineCells_fine {closing : List Char} (hclosing : ∀ x ∈ closing, tokenChar tok x = true)
    (objs : List RuleObject) : ∀ c ∈ lineCells closing objs, c.Fine := by
  rw [lineCells_items]
  exact itemsCells_fine hclosing (forall_items RuleObject.items_plain objs)

/-! ### The rule of an object -/

section

variable {mem : Memory} {base : Nat} {r : Rule} {rs : List Rule} {key value : List Char}

theorem keyOf_names :
    keyOf "transport_src_end".toList = some .srcEnd ∧ keyOf "ip_protocol".toList = some .proto ∧
    keyOf "transport_src_begin".toList = some .srcBegin ∧
    keyOf "transport_ctrl_end".toList = none ∧ keyOf "src_ip".toList = some .srcIP ∧
    keyOf "transport_dst_end".toList = some .dstEnd ∧ keyOf "dst_ip".toList = some .dstIP ∧
    keyOf "action".toList = some .action ∧ keyOf "dst_ip_mask".toList = some .dstMask ∧
    keyOf "src_ip_mask".toList = some .srcMask ∧ keyOf "transport_ctrl_begin".toList = none ∧
    keyOf "line".toList = none ∧ keyOf "transport_dst_begin".toList = some .dstBegin := by
  decide

theorem scanU_printWord (v : BitVec 32) : scanU (printWord v) = some v := by
  have h : scanU (decimal v.toNat ++ []) = some v := scanU_decimal v (by simp)
  rwa [List.append_nil] at h

theorem assign_object (mem : Memory) (base : Nat) (rs : List Rule) (o : RuleObject)
    {closing : List Char}
    (hclosing : ∀ c, closing.head? = some c → c.isDigit = false) :
    assignCells mem base rs (objectCells closing o.items) = o.rule :: rs := by
  have hlast : ∀ v : BitVec 32, scanU (printWord v ++ closing) = some v :=
    fun v => scanU_decimal v hclosing
  have haction : (if printBool o.action = "True".toList then 1 else 0 : BitVec 32) =
      if o.action then 1 else 0 := by
    cases o.action <;> rfl
  unfold assignCells RuleObject.items RuleObject.lineItem
  cases o.line <;>
    simp only [List.cons_append, List.nil_append, objectCells, List.foldl_cons, List.foldl_nil,
      List.drop_succ_cons, List.drop_zero, assign, keyOf_names, reduceCtorEq, if_true, if_false,
      List.modifyHead_cons, Key.assign, scanU_printWord, hlast, haction, Option.getD_some] <;> rfl

theorem assign_line (mem : Memory) (base : Nat) {closing : List Char}
    (hclosing : ∀ c, closing.head? = some c → c.isDigit = false) (objs : List RuleObject)
    (rs : List Rule) :
    assignCells mem base rs (lineCells closing objs) =
      (objs.map RuleObject.rule).reverse ++ rs := by
  induction objs generalizing rs with
  | nil => rfl
  | cons o objs ih =>
    by_cases hne : objs = []
    · subst hne
      exact assign_object mem base rs o hclosing
    · have hbrace : ∀ c, ['}'].head? = some c → c.isDigit = false := by simp
      rw [lineCells_cons closing o hne, assignCells_append, assign_object mem base rs o hbrace, ih]
      simp

end

/-! ### The round trip -/

theorem setRule_front (mem : Memory) {rest : List Char} {ss : List (List Char)} {t : AclTable}
    (hslot : t.numAcl < t.slots.length) (hbuf : Feeds tok ⟨['[', '{', '\''], rest⟩ ss) (id : Int) :
    Agrees (fun res rs => Appended t res.1 id rs.reverse)
      (setRule mem (['[', '{', '\''] ++ rest) id t) (parseLine mem t.heap.length ss) :=
  setRule_agrees mem (['[', '{', '\''] ++ rest) hslot hbuf id

/-- **A line of objects**, whatever closes it: the entry has the rules that the walk over its cells
makes. -/
theorem setRule_items (mem : Memory) {line : List (List Item)} (hline : line ≠ [])
    (hne : ∀ items ∈ line, items ≠ []) (hplain : ∀ items ∈ line, ∀ item ∈ items, Plain item)
    {closing : List Char} (hclosing : ∀ x ∈ closing, tokenChar tok x = true) (after : List Char)
    (id : Int) {t : AclTable} (hslot : t.numAcl < t.slots.length) :
    ∃ t' buf, setRule mem (['[', '{', '\''] ++ (text (itemsCells closing line) ++ nul :: after)) id t =
        .ok (t', buf) ∧
      Appended t t' id (assignCells mem t.heap.length [] (itemsCells closing line)).reverse := by
  obtain ⟨s, ss, hfeeds, hparse⟩ := walk_text mem t.heap.length (itemsCells_ne_nil closing hline hne)
    (itemsCells_fine hclosing hplain) ['[', '{', '\''] after
  have hagrees := setRule_front mem hslot hfeeds id
  rw [parseLine, hparse] at hagrees
  generalize setRule mem (['[', '{', '\''] ++ (text (itemsCells closing line) ++ nul :: after)) id t =
    x at hagrees
  cases hagrees with
  | ok h => exact ⟨_, _, rfl, h⟩

theorem setRule_cells (mem : Memory) {objs : List RuleObject} (hobjs : objs ≠ [])
    {closing : List Char} (hclosing : ∀ x ∈ closing, tokenChar tok x = true)
    (hdigit : ∀ c, closing.head? = some c → c.isDigit = false) (after : List Char) (id : Int)
    {t : AclTable} (hslot : t.numAcl < t.slots.length) :
    ∃ t' buf, setRule mem (['[', '{', '\''] ++ (text (lineCells closing objs) ++ nul :: after)) id t =
        .ok (t', buf) ∧ Appended t t' id (objs.map RuleObject.rule) := by
  obtain ⟨t', buf, hcall, happended⟩ := setRule_items mem (by simpa using hobjs)
    (forall_items RuleObject.items_ne_nil objs) (forall_items RuleObject.items_plain objs) hclosing
    after id hslot
  rw [← lineCells_items] at hcall happended
  rw [assign_line mem _ hdigit, List.append_nil, List.reverse_reverse] at happended
  exact ⟨t', buf, hcall, happended⟩

theorem setRule_printed (mem : Memory) {objs : List RuleObject} (hobjs : objs ≠ [])
    (after : List Char) (id : Int) {t : AclTable} (hslot : t.numAcl < t.slots.length) :
    ∃ t' buf, setRule mem (printLine objs ++ nul :: after) id t = .ok (t', buf) ∧
      Appended t t' id (objs.map RuleObject.rule) := by
  rw [printLine_eq hobjs, List.append_assoc]
  exact setRule_cells mem hobjs (List.all_eq_true.mp (by decide)) (by simp) after id hslot

/-- **The round trip** of a rule line: `set_rule` appends one entry with the objects' rules in their
order. Earlier entries keep their lists. -/
theorem setRule_line (mem : Memory) {objs : List RuleObject} (hobjs : objs ≠ []) (after : List Char)
    (id : Int) {t : AclTable} (hslot : t.numAcl < t.slots.length) :
    ∃ t' buf, setRule mem (printLine objs ++ nul :: after) id t = .ok (t', buf) ∧
      Appended t t' id (objs.map RuleObject.rule) ∧
      ∀ list rules, IsList t.heap list rules → IsList t'.heap list rules := by
  obtain ⟨t', buf, hcall, happended⟩ := setRule_printed mem hobjs after id hslot
  exact ⟨t', buf, hcall, happended, fun _ _ h => h.mono happended.heap⟩

def clearedMemory : Memory where
  malloc _ := ⟨0, 0, 0, 0, 0, 0, (0, 0), (0, 0), 0, 0⟩
  head _ := ⟨⟨0, 0, 0, 0, 0, 0, (0, 0), (0, 0), 0, 0⟩, none⟩
  slot _ := ⟨0, none⟩
  str := List.replicate 50000 nul
  str_length := List.length_replicate

def oneSlot : AclTable := ⟨[⟨0, none⟩], 0, 0, 0, []⟩

/-- SNMP to the hosts `128.12.x.1` is denied. -/
def snmpObject : RuleObject where
  transportSrcEnd := 65535
  ipProtocol := 17
  transportSrcBegin := 0
  transportCtrlEnd := 255
  srcIP := 0
  transportDstEnd := 161
  dstIP := 0x800C0001
  action := false
  dstIPMask := 0x0000FF00
  srcIPMask := 0xFFFFFFFF
  transportCtrlBegin := 0
  line := some 29
  transportDstBegin := 161

/-- Everything else is permitted. -/
def anyObject : RuleObject where
  transportSrcEnd := 65535
  ipProtocol := 0
  transportSrcBegin := 0
  transportCtrlEnd := 255
  srcIP := 0
  transportDstEnd := 65535
  dstIP := 0
  action := true
  dstIPMask := 0xFFFFFFFF
  srcIPMask := 0xFFFFFFFF
  transportCtrlBegin := 0
  line := none
  transportDstBegin := 0

theorem setRule_line_snmp :
    ∃ t' buf, setRule clearedMemory (printLine [snmpObject, anyObject] ++ nul :: []) 120 oneSlot =
        .ok (t', buf) ∧ Appended oneSlot t' 120 [snmpObject.rule, anyObject.rule] := by
  obtain ⟨t', buf, hcall, happended, -⟩ := setRule_line clearedMemory
    (List.cons_ne_nil snmpObject [anyObject]) [] 120 (by decide : oneSlot.numAcl < oneSlot.slots.length)
  exact ⟨t', buf, hcall, happended⟩

end AtomicPredicate
