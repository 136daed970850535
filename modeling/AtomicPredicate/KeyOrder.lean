import AtomicPredicate.RuleLine

/-!
# The order of keys

`set_rule` dispatches on the names of keys, so the fields of a rule are stored in any order
(`foldl_assignItem_perm`). Only the value of the last key is read with what closes the object behind
it. A number ends there anyway, but `True` is compared whole, and `True}` is not equal to it: a
permitting object whose last key is `action` is read as a denying one (`setRule_reordered`).
-/

namespace AtomicPredicate

open Lib

/-- The keys and values of an object in another order, `transport_src_end` still being the first. -/
structure Reordered (o : RuleObject) (items : List Item) : Prop where
  perm : items.Perm o.items
  first : items.head? = some ("transport_src_end".toList, printWord o.transportSrcEnd)

/-- What a key and its value do to the newest rule. -/
def assignItem (r : Rule) (item : Item) : Rule :=
  match keyOf item.1 with
  | none => r
  | some k => k.assign item.2 r

/-! ### Keys -/

def Key.name : Key → List Char
  | .srcEnd => "transport_src_end".toList
  | .proto => "ip_protocol".toList
  | .srcBegin => "transport_src_begin".toList
  | .srcIP => "src_ip".toList
  | .dstIP => "dst_ip".toList
  | .srcMask => "src_ip_mask".toList
  | .dstMask => "dst_ip_mask".toList
  | .dstBegin => "transport_dst_begin".toList
  | .dstEnd => "transport_dst_end".toList
  | .action => "action".toList

theorem of_ite_some {P : Key → Prop} {c : Prop} [Decidable c] {k k' : Key} {x : Option Key}
    (hk : c → P k) (hx : x = some k' → P k') : (if c then some k else x) = some k' → P k' := by
  intro h
  by_cases hc : c
  · rw [if_pos hc] at h
    exact Option.some.inj h ▸ hk hc
  · rw [if_neg hc] at h
    exact hx h

theorem name_of_keyOf {s : List Char} {k : Key} : keyOf s = some k → s = k.name := by
  unfold keyOf
  iterate 10 refine of_ite_some (P := fun k => s = k.name) (fun h => h) ?_
  intro h
  cases h

theorem Key.assign_comm {k k' : Key} (h : k ≠ k') (s s' : List Char) (r : Rule) :
    k.assign s (k'.assign s' r) = k'.assign s' (k.assign s r) := by
  cases k <;> cases k' <;> first | exact absurd rfl h | rfl

theorem Key.assign_congr {k : Key} (hk : k ≠ .action) {s s' : List Char} (h : scanU s = scanU s')
    (r : Rule) : k.assign s r = k.assign s' r := by
  cases k <;> first | exact absurd rfl hk | simp only [Key.assign, h]

theorem assignItem_comm {item item' : Item} (h : item.1 ≠ item'.1) (r : Rule) :
    assignItem (assignItem r item) item' = assignItem (assignItem r item') item := by
  unfold assignItem
  cases hk : keyOf item.1 with
  | none => rfl
  | some k =>
    cases hk' : keyOf item'.1 with
    | none => rfl
    | some k' =>
      refine Key.assign_comm (fun heq => h ?_) _ _ r
      rw [name_of_keyOf hk, name_of_keyOf hk', heq]

/-- **Items with distinct keys** are stored in any order. -/
theorem foldl_assignItem_perm {items items' : List Item} (hp : items.Perm items')
    (hkeys : (items.map Prod.fst).Nodup) (r : Rule) :
    items.foldl assignItem r = items'.foldl assignItem r := by
  apply hp.foldl_eq'
  intro x hx y hy r
  by_cases hxy : x = y
  · rw [hxy]
  · exact assignItem_comm (fun heq => hxy (List.inj_on_of_nodup_map hkeys hx hy heq)) r

theorem RuleObject.keys_nodup (o : RuleObject) : (o.items.map Prod.fst).Nodup := by
  unfold RuleObject.items RuleObject.lineItem
  cases o.line with
  | none =>
    show ["transport_src_end".toList, "ip_protocol".toList, "transport_src_begin".toList,
      "transport_ctrl_end".toList, "src_ip".toList, "transport_dst_end".toList, "dst_ip".toList,
      "action".toList, "dst_ip_mask".toList, "src_ip_mask".toList, "transport_ctrl_begin".toList,
      "transport_dst_begin".toList].Nodup
    decide
  | some m =>
    show ["transport_src_end".toList, "ip_protocol".toList, "transport_src_begin".toList,
      "transport_ctrl_end".toList, "src_ip".toList, "transport_dst_end".toList, "dst_ip".toList,
      "action".toList, "dst_ip_mask".toList, "src_ip_mask".toList, "transport_ctrl_begin".toList,
      "line".toList, "transport_dst_begin".toList].Nodup
    decide

theorem RuleObject.item_value (o : RuleObject) : ∀ item ∈ o.items,
    item.1 = "action".toList ∨ keyOf item.1 = none ∨ ∃ v, item.2 = printWord v := by
  have hword : ∀ (key : List Char) (v : BitVec 32), key = "action".toList ∨ keyOf key = none ∨
      ∃ w, printWord v = printWord w := fun key v => Or.inr (Or.inr ⟨v, rfl⟩)
  have hline : ∀ item ∈ o.lineItem, item.1 = "action".toList ∨ keyOf item.1 = none ∨
      ∃ v, item.2 = printWord v := by
    unfold RuleObject.lineItem
    cases o.line with
    | none => exact fun item h => absurd h List.not_mem_nil
    | some m =>
      exact fun item h => List.mem_singleton.mp h ▸
        Or.inr (Or.inl keyOf_names.2.2.2.2.2.2.2.2.2.2.2.1)
  simp only [RuleObject.items, List.forall_mem_append, List.forall_mem_cons, List.not_mem_nil,
    false_imp_iff, implies_true, and_true]
  exact ⟨⟨⟨hword _ _, hword _ _, hword _ _, hword _ _, hword _ _, hword _ _, hword _ _,
    Or.inl trivial, hword _ _, hword _ _, hword _ _⟩, hline⟩, hword _ _⟩

theorem RuleObject.action_mem (o : RuleObject) :
    ("action".toList, printBool o.action) ∈ o.items :=
  List.mem_of_getElem? (show o.items[7]? = some ("action".toList, printBool o.action) from rfl)

/-! ### The last key -/

theorem assignItem_closed {o : RuleObject} {item : Item} (hitem : item ∈ o.items)
    (hkey : item.1 ≠ "action".toList) {closing : List Char}
    (hclosing : ∀ c, closing.head? = some c → c.isDigit = false) (r : Rule) :
    assignItem r (item.1, item.2 ++ closing) = assignItem r item := by
  unfold assignItem
  dsimp only
  rcases o.item_value item hitem with h | h | ⟨v, hv⟩
  · exact absurd h hkey
  · rw [h]
  · cases hk : keyOf item.1 with
    | none => rfl
    | some k =>
      refine Key.assign_congr (fun heq => hkey ?_) ?_ r
      · rw [name_of_keyOf hk, heq]
        rfl
      · rw [hv, scanU_printWord]
        exact scanU_decimal v hclosing

theorem assignItem_action (b : Bool) (closing : List Char) (r : Rule) :
    assignItem r ("action".toList, printBool b ++ '}' :: closing) = { r with action := 0 } := by
  cases b <;> rfl

theorem assign_item (mem : Memory) (base : Nat) (r : Rule) (rs : List Rule) {item : Item}
    (hitem : item.1 ≠ Key.srcEnd.name) :
    assign mem base item.1 item.2 (r :: rs) = assignItem r item :: rs := by
  unfold assign assignItem
  cases hk : keyOf item.1 with
  | none => rfl
  | some k =>
    have hne : k ≠ .srcEnd := fun heq => hitem (by rw [name_of_keyOf hk, heq])
    dsimp only
    rw [if_neg hne]
    rfl

theorem assignCells_items (mem : Memory) (base : Nat) (r : Rule) (rs : List Rule)
    {items : List Item} (hitems : ∀ item ∈ items, item.1 ≠ Key.srcEnd.name) (gap : List Char) :
    assignCells mem base (r :: rs)
        (items.map fun item => ⟨item.1, ':' :: ' ' :: item.2, gap⟩) =
      items.foldl assignItem r :: rs := by
  induction items generalizing r with
  | nil => rfl
  | cons item items ih =>
    obtain ⟨hitem, hitems⟩ := List.forall_mem_cons.mp hitems
    rw [List.map_cons, List.foldl_cons, ← ih _ hitems, ← assign_item mem base r rs hitem]
    rfl

theorem assignCells_object (mem : Memory) (base : Nat) (rs : List Rule) (value : List Char)
    {init : List Item} {last : Item}
    (hitems : ∀ item ∈ init ++ [last], item.1 ≠ Key.srcEnd.name) (closing : List Char) :
    assignCells mem base rs (objectCells closing ((Key.srcEnd.name, value) :: (init ++ [last]))) =
      assignItem (init.foldl assignItem
        (assignItem (mem.malloc (base + rs.length)) (Key.srcEnd.name, value)))
        (last.1, last.2 ++ closing) :: rs := by
  obtain ⟨hinit, hlast⟩ := List.forall_mem_append.mp hitems
  rw [objectCells_cons _ _ _ (by simp), objectCells_snoc]
  show assignCells mem base (assignItem (mem.malloc (base + rs.length)) (Key.srcEnd.name, value) ::
    rs) _ = _
  rw [assignCells_append, assignCells_items mem base _ rs hinit]
  have hlast' : (last.1, last.2 ++ closing).1 ≠ Key.srcEnd.name := hlast last (by simp)
  exact assign_item mem base _ rs hlast'

/-! ### Reordered lines -/

/-- The rule read for a reordered object: that of the object, but denying if `action` is the last
key. -/
def RuleObject.ruleOf (o : RuleObject) (items : List Item) : Rule :=
  if items.getLast? = some ("action".toList, "True".toList) then { o.rule with action := 0 }
  else o.rule

theorem RuleObject.items_eq (o : RuleObject) :
    o.items = (Key.srcEnd.name, printWord o.transportSrcEnd) :: o.items.tail := rfl

theorem Reordered.cases {o : RuleObject} {items : List Item} (h : Reordered o items) :
    ∃ init last, items = (Key.srcEnd.name, printWord o.transportSrcEnd) :: (init ++ [last]) ∧
      (init ++ [last]).Perm o.items.tail := by
  obtain ⟨hp, hfirst⟩ := h
  obtain ⟨rest, rfl⟩ : ∃ rest, items = (Key.srcEnd.name, printWord o.transportSrcEnd) :: rest :=
    ⟨items.tail, (List.cons_head?_tail hfirst).symm⟩
  have hp : rest.Perm o.items.tail := List.Perm.cons_inv hp
  rcases List.eq_nil_or_concat rest with rfl | ⟨init, last, rfl⟩
  · exact absurd hp.symm.eq_nil (List.cons_ne_nil _ _)
  · rw [List.concat_eq_append] at hp ⊢
    exact ⟨init, last, rfl, hp⟩

theorem Reordered.self (o : RuleObject) : Reordered o o.items := ⟨List.Perm.refl _, rfl⟩

theorem RuleObject.tail_keys (o : RuleObject) :
    (o.items.tail.map Prod.fst).Nodup ∧ ∀ item ∈ o.items.tail, item.1 ≠ Key.srcEnd.name := by
  have hkeys := o.keys_nodup
  rw [o.items_eq, List.map_cons, List.nodup_cons] at hkeys
  refine ⟨hkeys.2, fun item hitem heq => hkeys.1 ?_⟩
  have hmem : item.1 ∈ o.items.tail.map Prod.fst := List.mem_map_of_mem hitem
  rw [heq] at hmem
  exact hmem

theorem RuleObject.foldl_items (o : RuleObject) (mem : Memory) (base : Nat) (rs : List Rule) :
    o.items.tail.foldl assignItem (assignItem (mem.malloc (base + rs.length))
      (Key.srcEnd.name, printWord o.transportSrcEnd)) = o.rule := by
  have hobject : assignCells mem base rs (objectCells [] o.items) = o.rule :: rs :=
    assign_object mem base rs o (by simp)
  obtain ⟨init, last, heq, hp⟩ := (Reordered.self o).cases
  rw [heq, assignCells_object mem base rs _ fun item hitem =>
    o.tail_keys.2 item (hp.mem_iff.mp hitem)] at hobject
  rw [heq, List.tail_cons, List.foldl_append, List.foldl_cons, List.foldl_nil,
    ← (List.cons.inj hobject).1, List.append_nil]

/-- **A reordered object** adds its rule, denying if `action` is the last key. -/
theorem assign_reordered (mem : Memory) (base : Nat) (rs : List Rule) {o : RuleObject}
    {items : List Item} (h : Reordered o items) (closing : List Char) :
    assignCells mem base rs (objectCells ('}' :: closing) items) = o.ruleOf items :: rs := by
  obtain ⟨init, last, rfl, hp⟩ := h.cases
  have hrule := o.foldl_items mem base rs
  rw [← foldl_assignItem_perm hp ((hp.map _).nodup_iff.mpr o.tail_keys.1), List.foldl_append,
    List.foldl_cons, List.foldl_nil] at hrule
  rw [assignCells_object mem base rs _ fun item hitem =>
    o.tail_keys.2 item (hp.mem_iff.mp hitem)]
  have hlast : last ∈ o.items :=
    List.mem_of_mem_tail (hp.mem_iff.mp (List.mem_append_right _ (List.mem_singleton.mpr rfl)))
  have hget : ((Key.srcEnd.name, printWord o.transportSrcEnd) :: (init ++ [last])).getLast? =
      some last := by
    rw [← List.cons_append]
    exact List.getLast?_concat
  unfold RuleObject.ruleOf
  rw [hget]
  by_cases hkey : last.1 = "action".toList
  · obtain rfl : last = ("action".toList, printBool o.action) :=
      List.inj_on_of_nodup_map o.keys_nodup hlast o.action_mem hkey
    rw [assignItem_action, ← hrule]
    cases o.action with
    | true => rfl
    | false => rfl
  · rw [if_neg fun heq => hkey (by rw [Option.some.inj heq]),
      assignItem_closed hlast hkey (by simp), hrule]

theorem assign_reorderedLine (mem : Memory) (base : Nat) (closing : List Char)
    {objs : List RuleObject} {line : List (List Item)} (h : List.Forall₂ Reordered objs line)
    (rs : List Rule) :
    assignCells mem base rs (itemsCells ('}' :: closing) line) =
      (List.zipWith RuleObject.ruleOf objs line).reverse ++ rs := by
  induction h generalizing rs with
  | nil => rfl
  | @cons o items objs line hitems hline ih =>
    by_cases hne : line = []
    · subst hne
      obtain rfl := List.forall₂_nil_right_iff.mp hline
      exact assign_reordered mem base rs hitems closing
    · rw [itemsCells_cons _ items hne, assignCells_append, assign_reordered mem base rs hitems, ih]
      simp

theorem Reordered.ne_nil {o : RuleObject} {items : List Item} (h : Reordered o items) :
    items ≠ [] := by
  obtain ⟨init, last, rfl, -⟩ := h.cases
  exact List.cons_ne_nil _ _

theorem forall_reordered {objs : List RuleObject} {line : List (List Item)}
    (h : List.Forall₂ Reordered objs line) :
    ∀ items ∈ line, items ≠ [] ∧ ∀ item ∈ items, Plain item := by
  intro items hmem
  induction h with
  | nil => exact absurd hmem List.not_mem_nil
  | @cons o items' objs line hitems _ ih =>
    rcases List.mem_cons.mp hmem with rfl | hmem
    · exact ⟨hitems.ne_nil, fun item hitem => o.items_plain item (hitems.perm.mem_iff.mp hitem)⟩
    · exact ih hmem

/-- **A reordered line** is read with the rules of its objects, some of them denying instead. -/
theorem setRule_reordered (mem : Memory) {objs : List RuleObject} {line : List (List Item)}
    (h : List.Forall₂ Reordered objs line) (hobjs : objs ≠ []) (after : List Char) (id : Int)
    {t : AclTable} (hslot : t.numAcl < t.slots.length) :
    ∃ t' buf, setRule mem (printItems line ++ nul :: after) id t = .ok (t', buf) ∧
      Appended t t' id (List.zipWith RuleObject.ruleOf objs line) := by
  have hline : line ≠ [] := by
    rintro rfl
    exact hobjs (List.forall₂_nil_right_iff.mp h)
  have hitems := forall_reordered h
  have hclosing : ∀ x ∈ ['}', ']', '\n'], tokenChar tok x = true := List.all_eq_true.mp (by decide)
  obtain ⟨t', buf, hcall, happended⟩ := setRule_items mem hline
    (fun items hmem => (hitems items hmem).1) (fun items hmem => (hitems items hmem).2) hclosing after
    id hslot
  rw [assign_reorderedLine mem _ _ h, List.append_nil, List.reverse_reverse] at happended
  rw [printItems_eq hline fun items hmem => (hitems items hmem).1, List.append_assoc]
  exact ⟨t', buf, hcall, happended⟩

theorem Reordered.ruleOf_eq_iff {o : RuleObject} {items : List Item} (h : Reordered o items) :
    o.ruleOf items = o.rule ↔ items.getLast? ≠ some ("action".toList, "True".toList) := by
  unfold RuleObject.ruleOf
  constructor
  · intro hrule hlast
    rw [if_pos hlast] at hrule
    have hmem := h.perm.mem_iff.mp (List.mem_of_getLast? hlast)
    have hitem := List.inj_on_of_nodup_map o.keys_nodup hmem o.action_mem rfl
    have haction : o.action = true := by
      cases hfalse : o.action with
      | true => rfl
      | false =>
        rw [hfalse] at hitem
        exact absurd hitem (by decide)
    have hone : (0 : BitVec 32) = if o.action then 1 else 0 := congrArg Rule.action hrule
    rw [haction] at hone
    exact absurd hone (by decide)
  · exact fun hlast => if_neg hlast

theorem rulesOf_eq_iff {objs : List RuleObject} {line : List (List Item)}
    (h : List.Forall₂ Reordered objs line) :
    List.zipWith RuleObject.ruleOf objs line = objs.map RuleObject.rule ↔
      ∀ items ∈ line, items.getLast? ≠ some ("action".toList, "True".toList) := by
  induction h with
  | nil => simp
  | cons hitems _ ih =>
    rw [List.zipWith_cons_cons, List.map_cons, List.cons.injEq, List.forall_mem_cons, ih,
      hitems.ruleOf_eq_iff]

theorem setRule_empty (mem : Memory) (after : List Char) (id : Int) {t : AclTable}
    (hslot : t.numAcl < t.slots.length) :
    setRule mem (printLine [] ++ nul :: after) id t = .error .nullPointer := by
  have hfeeds : Feeds tok ⟨['[', ']', '\n'], nul :: after⟩ [] :=
    .done (strtok_end [] (by simp) (by decide) ['[', ']', '\n'] after)
  have hagrees := setRule_agrees mem (printLine [] ++ nul :: after) hslot hfeeds id
  cases hrun : setRule mem (printLine [] ++ nul :: after) id t with
  | ok res =>
    rw [hrun] at hagrees
    obtain ⟨rs, hrs, -⟩ := hagrees.of_ok
    cases hrs
  | error e =>
    rw [hrun] at hagrees
    cases hagrees
    rfl

/-- **The order of keys** inside the objects does not matter exactly if no permitting object has
`action` as its last key. -/
theorem setRule_keyOrder_iff (mem : Memory) {objs : List RuleObject} {line : List (List Item)}
    (h : List.Forall₂ Reordered objs line) (after after' : List Char) (id : Int) {t : AclTable}
    (hslot : t.numAcl < t.slots.length) :
    (∀ t₁ buf₁ rules, setRule mem (printLine objs ++ nul :: after) id t = .ok (t₁, buf₁) →
      Appended t t₁ id rules →
      ∃ t₂ buf₂, setRule mem (printItems line ++ nul :: after') id t = .ok (t₂, buf₂) ∧
        Appended t t₂ id rules) ↔
      ∀ items ∈ line, items.getLast? ≠ some ("action".toList, "True".toList) := by
  by_cases hobjs : objs = []
  · subst hobjs
    obtain rfl := List.forall₂_nil_left_iff.mp h
    rw [setRule_empty mem after id hslot]
    simp
  · obtain ⟨t₁, buf₁, hcall₁, happended₁⟩ := setRule_printed mem hobjs after id hslot
    obtain ⟨t₂, buf₂, hcall₂, happended₂⟩ := setRule_reordered mem h hobjs after' id hslot
    rw [← rulesOf_eq_iff h]
    constructor
    · intro hsame
      obtain ⟨t', buf', hcall', happended'⟩ := hsame t₁ buf₁ _ hcall₁ happended₁
      cases hcall₂.symm.trans hcall'
      exact happended₂.unique happended'
    · intro heq t' buf' rules hcall' happended'
      cases hcall₁.symm.trans hcall'
      rw [← happended₁.unique happended', ← heq]
      exact ⟨t₂, buf₂, hcall₂, happended₂⟩

/-- The items of an object with the one at position `i` moved to the end. -/
def RuleObject.moved (o : RuleObject) (i : Nat) : List Item :=
  o.items.take i ++ o.items.drop (i + 1) ++ (o.items.drop i).take 1

theorem reordered_moved (o : RuleObject) {i : Nat} (hi : i ≠ 0) : Reordered o (o.moved i) where
  perm := by
    have hsplit : o.items = o.items.take i ++ ((o.items.drop i).take 1 ++ o.items.drop (i + 1)) := by
      rw [← List.drop_drop, List.take_append_drop, List.take_append_drop]
    have hp : (o.moved i).Perm
        (o.items.take i ++ ((o.items.drop i).take 1 ++ o.items.drop (i + 1))) := by
      rw [RuleObject.moved, List.append_assoc]
      exact List.Perm.append_left _ List.perm_append_comm
    rwa [← hsplit] at hp
  first := by
    obtain ⟨j, rfl⟩ := Nat.exists_eq_succ_of_ne_zero hi
    rfl

theorem setRule_keyOrder_moved :
    ∃ t' buf, setRule clearedMemory
        (printItems [snmpObject.moved 7, anyObject.moved 4] ++ nul :: []) 120 oneSlot =
        .ok (t', buf) ∧ Appended oneSlot t' 120 [snmpObject.rule, anyObject.rule] := by
  have hline : List.Forall₂ Reordered [snmpObject, anyObject] [snmpObject.moved 7, anyObject.moved 4] :=
    .cons (reordered_moved _ (by decide)) (.cons (reordered_moved _ (by decide)) .nil)
  have hslot : oneSlot.numAcl < oneSlot.slots.length := by decide
  obtain ⟨t₁, buf₁, hcall, happended⟩ :=
    setRule_printed clearedMemory (List.cons_ne_nil snmpObject [anyObject]) [] 120 hslot
  exact (setRule_keyOrder_iff clearedMemory hline [] [] 120 hslot).mpr (by decide) t₁ buf₁ _ hcall
    happended

/-- An object that permits everything, with `action` at its end, is read as one that denies. -/
theorem setRule_actionLast :
    Reordered anyObject (anyObject.moved 7) ∧
      (∃ t₁ buf₁, setRule clearedMemory (printLine [anyObject] ++ nul :: []) 120 oneSlot =
        .ok (t₁, buf₁) ∧ Appended oneSlot t₁ 120 [anyObject.rule]) ∧
      ∃ t₂ buf₂, setRule clearedMemory (printItems [anyObject.moved 7] ++ nul :: []) 120 oneSlot =
        .ok (t₂, buf₂) ∧ Appended oneSlot t₂ 120 [{ anyObject.rule with action := 0 }] ∧
          ¬ Appended oneSlot t₂ 120 [anyObject.rule] := by
  have hitems := reordered_moved anyObject (i := 7) (by decide)
  have hslot : oneSlot.numAcl < oneSlot.slots.length := by decide
  have hobjs : [anyObject] ≠ [] := List.cons_ne_nil _ _
  obtain ⟨t₂, buf₂, hcall, happended⟩ :=
    setRule_reordered clearedMemory (.cons hitems .nil) hobjs [] 120 hslot
  refine ⟨hitems, setRule_printed clearedMemory hobjs [] 120 hslot, t₂, buf₂, hcall, happended, ?_⟩
  intro hpermit
  have hrules := happended.unique hpermit
  exact absurd (congrArg Rule.action (List.cons.inj hrules).1) (by decide)

end AtomicPredicate
