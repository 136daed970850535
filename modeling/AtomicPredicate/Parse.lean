import AtomicPredicate.ReadRule

/-!
# The walk over a rule line

`parse` is the loop of `set_rule` as a fold over the pointers that `strtok` returns: it builds the
list of rules, the newest first, and knows nothing of buffers and nodes. `Rep` ties the two
together, and `setRule_agrees` is the result: `setRule` appends the entry with the rules of `parse`,
or stops with the same fault. Any call that returns has appended an entry (`setRule_appended`).
-/

namespace AtomicPredicate

open Lib

/-! ### Lists on the heap -/

/-- The null-terminated list at `ptr` holds these rules. -/
def IsList (heap : List Node) : Option Nat → List Rule → Prop
  | ptr, [] => ptr = none
  | ptr, r :: rs => ∃ a next, ptr = some a ∧ heap[a]? = some ⟨r, next⟩ ∧ IsList heap next rs

theorem IsList.unique {heap : List Node} {ptr : Option Nat} {rs rs' : List Rule}
    (h : IsList heap ptr rs) (h' : IsList heap ptr rs') : rs = rs' := by
  induction rs generalizing ptr rs' with
  | nil =>
    cases rs' with
    | nil => rfl
    | cons r' rs' =>
      obtain ⟨a, next, ha, -⟩ := h'
      cases h.symm.trans ha
  | cons r rs ih =>
    obtain ⟨a, next, rfl, hr, hrs⟩ := h
    cases rs' with
    | nil => cases h'
    | cons r' rs' =>
      obtain ⟨a', next', ha', hr', hrs'⟩ := h'
      cases ha'
      cases hr.symm.trans hr'
      rw [ih hrs hrs']

theorem IsList.mono {heap heap' : List Node} {ptr : Option Nat} {rs : List Rule}
    (h : IsList heap ptr rs) (hheap : heap <+: heap') : IsList heap' ptr rs := by
  induction rs generalizing ptr with
  | nil => exact h
  | cons r rs ih =>
    obtain ⟨a, next, rfl, hr, hrs⟩ := h
    obtain ⟨more, rfl⟩ := hheap
    have ha := (List.getElem?_eq_some_iff.mp hr).1
    exact ⟨a, next, rfl, by rw [List.getElem?_append_left ha, hr], ih hrs⟩

/-- The nodes of rules, the newest first, each pointing to the address behind it. -/
def linked (base : Nat) : List Rule → List Node
  | [] => []
  | r :: rs => linked base rs ++ [⟨r, some (base + rs.length + 1)⟩]

def nodes (base : Nat) : List Rule → List Node
  | [] => []
  | r :: rs => linked base rs ++ [⟨r, none⟩]

@[simp] theorem linked_length (base : Nat) (rs : List Rule) : (linked base rs).length = rs.length := by
  induction rs with
  | nil => rfl
  | cons r rs ih => rw [linked, List.length_append, ih, List.length_singleton, List.length_cons]

theorem isList_linked {heap more : List Node} {rs tail : List Rule}
    (h : IsList (heap ++ (linked heap.length rs ++ more)) (some (heap.length + rs.length)) tail) :
    IsList (heap ++ (linked heap.length rs ++ more)) (some heap.length) (rs.reverse ++ tail) := by
  induction rs generalizing more tail with
  | nil => exact h
  | cons r rs ih =>
    rw [linked, List.append_assoc, List.singleton_append] at h ⊢
    rw [List.reverse_cons, List.append_assoc, List.singleton_append]
    have hnode : (heap ++ (linked heap.length rs ++
        ⟨r, some (heap.length + rs.length + 1)⟩ :: more))[heap.length + rs.length]? =
        some ⟨r, some (heap.length + rs.length + 1)⟩ := by
      rw [List.getElem?_append_right (by omega), Nat.add_sub_cancel_left,
        List.getElem?_append_right (by simp)]
      simp
    have hcell : IsList (heap ++ (linked heap.length rs ++
        ⟨r, some (heap.length + rs.length + 1)⟩ :: more)) (some (heap.length + rs.length))
        (r :: tail) := ⟨_, _, rfl, hnode, h⟩
    exact ih hcell

theorem isList_nodes (heap : List Node) (r : Rule) (rs : List Rule) :
    IsList (heap ++ nodes heap.length (r :: rs)) (some heap.length) (r :: rs).reverse := by
  rw [List.reverse_cons]
  refine isList_linked ⟨_, none, rfl, ?_, rfl⟩
  rw [List.getElem?_append_right (by omega), Nat.add_sub_cancel_left,
    List.getElem?_append_right (by simp)]
  simp

/-! ### The list under construction -/

/-- The variables of `set_rule` hold these rules, the newest first, on top of the table. -/
structure Rep (t : AclTable) (p : Parse) (rs : List Rule) : Prop where
  heap : p.heap = t.heap ++ nodes t.heap.length rs
  listPtr : p.listPtr = if rs = [] then none else some (t.heap.length + (rs.length - 1))
  head : rs ≠ [] → p.head.next = some t.heap.length
  numRule : p.numRule = t.numRule + rs.length
  totalRule : p.totalRule = t.totalRule + rs.length

namespace Rep

variable {t : AclTable} {p : Parse} {r : Rule} {rs : List Rule}

theorem listPtr_cons (h : Rep t p (r :: rs)) : p.listPtr = some (t.heap.length + rs.length) :=
  h.listPtr

theorem modify_newest (heap : List Node) (n : Node) (rs : List Rule) (f : Node → Node) :
    (heap ++ (linked heap.length rs ++ [n])).modify (heap.length + rs.length) f =
      heap ++ (linked heap.length rs ++ [f n]) := by
  have hmod := List.modifyTailIdx_add (List.modifyHead f) 0 (heap ++ linked heap.length rs) [n]
  rw [List.length_append, linked_length, List.append_assoc, List.append_assoc] at hmod
  exact hmod

theorem modify (h : Rep t p rs) (f : Rule → Rule) :
    Rep t (p.modify fun n => { n with rule := f n.rule }) (rs.modifyHead f) := by
  obtain ⟨head, listPtr, heap, numRule, totalRule⟩ := p
  obtain ⟨hheap, hptr, hhead, hnum, htotal⟩ := h
  cases rs with
  | nil =>
    cases hptr
    exact ⟨hheap, rfl, fun hne => absurd rfl hne, hnum, htotal⟩
  | cons r rs =>
    cases hptr
    cases hheap
    exact ⟨modify_newest t.heap ⟨r, none⟩ rs _, rfl, fun _ => hhead (List.cons_ne_nil _ _), hnum,
      htotal⟩

theorem append_advance (h : Rep t p rs) (mem : Memory) :
    Rep t (p.append mem).advance (mem.malloc (t.heap.length + rs.length) :: rs) := by
  obtain ⟨head, listPtr, heap, numRule, totalRule⟩ := p
  obtain ⟨hheap, hptr, hhead, hnum, htotal⟩ := h
  cases rs with
  | nil =>
    cases hptr
    cases hheap.trans (List.append_nil _)
    exact ⟨rfl, rfl, fun _ => rfl, congrArg (· + 1) hnum, congrArg (· + 1) htotal⟩
  | cons r rs =>
    obtain rfl : listPtr = some (t.heap.length + rs.length) := hptr
    obtain rfl : heap = t.heap ++ nodes t.heap.length (r :: rs) := hheap
    have hlen : (t.heap ++ nodes t.heap.length (r :: rs)).length =
        t.heap.length + rs.length + 1 := by
      simp [nodes]
      omega
    have hmod := modify_newest t.heap ⟨r, none⟩ rs
      (fun n => { n with next := some (t.heap.length + rs.length + 1) })
    have hnext : (t.heap ++ (linked t.heap.length rs ++
        [⟨r, some (t.heap.length + rs.length + 1)⟩]) ++
        [⟨mem.malloc (t.heap.length + rs.length + 1), none⟩])[t.heap.length + rs.length]?.bind
        Node.next = some (t.heap.length + rs.length + 1) := by
      rw [List.append_assoc, List.getElem?_append_right (by omega), Nat.add_sub_cancel_left,
        List.append_assoc, List.getElem?_append_right (by simp)]
      simp
    unfold Parse.advance Parse.append Parse.next Parse.modify
    dsimp only
    rw [hlen, nodes, hmod, hnext]
    exact ⟨List.append_assoc _ _ _, rfl, fun _ => hhead (List.cons_ne_nil _ _),
      congrArg (· + 1) hnum, congrArg (· + 1) htotal⟩

end Rep

/-! ### The fold -/

/-- One round of the loop on the list of rules: a key that stands for nothing reads no value. -/
def step (mem : Memory) (base : Nat) (key : Option Key) (value : Option (List Char))
    (rs : List Rule) : Except Fault (List Rule) :=
  match key with
  | none => pure rs
  | some key => do
    let s ← deref (value.map (List.drop 2))
    let rs := if key = .srcEnd then mem.malloc (base + rs.length) :: rs else rs
    return rs.modifyHead (key.assign s)

def round (mem : Memory) (base : Nat) (rs : List Rule) (s : List Char)
    (value : Option (List Char)) : Except Fault (List Rule) := do
  step mem base (keyOf (← deref (some s))) value rs

/-- The loop, at the key `s` with these pointers to come. -/
def parse (mem : Memory) (base : Nat) : List Rule → List Char → List (List Char) →
    Except Fault (List Rule)
  | rs, s, value :: _ :: s' :: ss => do parse mem base (← round mem base rs s (some value)) s' ss
  | rs, s, ss => round mem base rs s ss.head?

def parseLine (mem : Memory) (base : Nat) : List (List Char) → Except Fault (List Rule)
  | [] => throw .nullPointer
  | s :: ss => parse mem base [] s ss

/-- Both stop with the same fault, or both return, and the results are related. -/
inductive Agrees {α β : Type} (R : α → β → Prop) : Except Fault α → Except Fault β → Prop
  | ok {a : α} {b : β} (h : R a b) : Agrees R (.ok a) (.ok b)
  | error (e : Fault) : Agrees R (.error e) (.error e)

theorem Agrees.bind {α β γ δ : Type} {R : α → β → Prop} {S : γ → δ → Prop} {x : Except Fault α}
    {y : Except Fault β} {f : α → Except Fault γ} {g : β → Except Fault δ} (h : Agrees R x y)
    (hfg : ∀ a b, R a b → Agrees S (f a) (g b)) : Agrees S (x >>= f) (y >>= g) := by
  cases h with
  | ok h => exact hfg _ _ h
  | error e => exact .error e

theorem Agrees.bind_ok {α β γ : Type} {R : α → β → Prop} {S : γ → β → Prop} {x : Except Fault α}
    {y : Except Fault β} {f : α → Except Fault γ} (h : Agrees R x y)
    (hf : ∀ a b, R a b → ∃ c, f a = .ok c ∧ S c b) : Agrees S (x >>= f) y := by
  cases h with
  | ok h =>
    obtain ⟨c, hc, hS⟩ := hf _ _ h
    show Agrees S (f _) _
    rw [hc]
    exact .ok hS
  | error e => exact .error e

theorem Agrees.of_ok {α β : Type} {R : α → β → Prop} {a : α} {y : Except Fault β}
    (h : Agrees R (.ok a) y) : ∃ b, y = .ok b ∧ R a b := by
  cases h with
  | ok h => exact ⟨_, rfl, h⟩

theorem Agrees.refl {α : Type} (x : Except Fault α) : Agrees Eq x x := by
  cases x with
  | ok a => exact .ok rfl
  | error e => exact .error e

section

variable {t : AclTable} {mem : Memory} {p : Parse} {rs : List Rule} {buf : Tokens}
  {s : List Char} {ss : List (List Char)}

theorem store_agrees (h : Rep t p rs) (key : Option Key) (value : Option (List Char)) :
    Agrees (Rep t) ((p.start mem key).store key value) (step mem t.heap.length key value rs) := by
  cases key with
  | none => exact .ok h
  | some key =>
    apply Agrees.bind (Agrees.refl (deref (value.map (List.drop 2))))
    intro s _ hs
    subst hs
    by_cases hkey : key = .srcEnd
    · subst hkey
      exact .ok ((h.append_advance mem).modify _)
    · have hstart : p.start mem (some key) = p := if_neg fun heq => hkey (Option.some.inj heq)
      dsimp only
      rw [if_neg hkey, if_neg hkey, hstart]
      exact .ok (h.modify _)

theorem feeds_next (h : Feeds tok buf ss) :
    ∃ buf', strtok tok buf = some (ss.head?, buf') ∧ Feeds tok buf' ss.tail := by
  cases h with
  | done h => exact ⟨_, h, .done (strtok_done (by decide) h)⟩
  | token h hss => exact ⟨_, h, hss⟩

theorem setRuleRound_agrees (mem : Memory) (s : List Char) (hbuf : Feeds tok buf ss)
    (h : Rep t p rs) :
    Agrees (fun res rs' => Rep t res.1 rs' ∧ res.2.1 = ss.tail.tail.head? ∧
        Feeds tok res.2.2 ss.tail.tail.tail)
      (setRuleRound mem (some s) buf p) (round mem t.heap.length rs s ss.head?) := by
  obtain ⟨buf₁, hvalue, hbuf₁⟩ := feeds_next hbuf
  obtain ⟨buf₂, hgap, hbuf₂⟩ := feeds_next hbuf₁
  obtain ⟨buf₃, hkey, hbuf₃⟩ := feeds_next hbuf₂
  unfold setRuleRound round
  apply Agrees.bind (Agrees.refl (deref (some s)))
  intro name _ hname
  subst hname
  dsimp only
  rw [nextToken_ok.mpr hvalue]
  show Agrees _ ((p.start mem (keyOf name)).store (keyOf name) ss.head? >>= _) _
  apply Agrees.bind_ok (store_agrees h (keyOf name) ss.head?)
  intro p' rs' hrep
  rw [nextToken_ok.mpr hgap]
  exact ⟨(p', ss.tail.tail.head?, buf₃),
    bind_ok.mpr ⟨_, rfl, bind_ok.mpr ⟨_, nextToken_ok.mpr hkey, rfl⟩⟩, hrep, rfl, hbuf₃⟩

theorem setRuleLoop_error {s : Option (List Char)} {e : Fault}
    (h : setRuleRound mem s buf p = .error e) : setRuleLoop mem s buf p = .error e := by
  rw [setRuleLoop]
  split <;> simp_all

theorem setRuleLoop_last {s : Option (List Char)} {p' : Parse} {buf' : Tokens}
    (h : setRuleRound mem s buf p = .ok (p', none, buf')) :
    setRuleLoop mem s buf p = .ok (p', buf') := by
  rw [setRuleLoop]
  split <;> simp_all

theorem setRuleLoop_next {s : Option (List Char)} {s' : List Char} {p' : Parse} {buf' : Tokens}
    (h : setRuleRound mem s buf p = .ok (p', some s', buf')) :
    setRuleLoop mem s buf p = setRuleLoop mem (some s') buf' p' := by
  rw [setRuleLoop]
  split <;> simp_all

theorem setRuleLoop_agrees (hbuf : Feeds tok buf ss) (h : Rep t p rs) :
    Agrees (fun res rs' => Rep t res.1 rs') (setRuleLoop mem (some s) buf p)
      (parse mem t.heap.length rs s ss) := by
  induction rs, s, ss using parse.induct generalizing buf p with
  | case1 rs s value gap s' ss ih =>
    rw [parse]
    have hround := setRuleRound_agrees mem s hbuf h
    rw [List.head?_cons] at hround
    generalize hx : setRuleRound mem (some s) buf p = x at hround
    generalize round mem t.heap.length rs s (some value) = y at hround
    cases hround with
    | error e =>
      rw [setRuleLoop_error hx]
      exact .error e
    | ok hres =>
      rename_i res rs'
      obtain ⟨p', key, buf'⟩ := res
      obtain ⟨hrep, hkey, hbuf'⟩ := hres
      obtain rfl : key = some s' := hkey
      rw [setRuleLoop_next hx]
      exact ih rs' hbuf' hrep
  | case2 rs s ss hss =>
    have hlast : ss.tail.tail.head? = none := by
      match ss, hss with
      | [], _ => rfl
      | [_], _ => rfl
      | [_, _], _ => rfl
      | value :: gap :: s' :: ss, hss => exact absurd rfl (hss value gap s' ss)
    rw [parse]
    · have hround := setRuleRound_agrees mem s hbuf h
      generalize hx : setRuleRound mem (some s) buf p = x at hround
      generalize round mem t.heap.length rs s ss.head? = y at hround
      cases hround with
      | error e =>
        rw [setRuleLoop_error hx]
        exact .error e
      | ok hres =>
        rename_i res rs'
        obtain ⟨p', key, buf'⟩ := res
        obtain ⟨hrep, hkey, -⟩ := hres
        obtain rfl : key = none := hkey.trans hlast
        rw [setRuleLoop_last hx]
        exact .ok hrep
    · exact hss

/-! ### The entry -/

/-- The table `t'` is `t` with one more entry. -/
structure Appended (t t' : AclTable) (id : Int) (rules : List Rule) : Prop where
  numAcl : t'.numAcl = t.numAcl + 1
  numRule : t'.numRule = t.numRule + rules.length
  totalRule : t'.totalRule = t.totalRule + rules.length
  size : t'.slots.length = t.slots.length
  entry : ∃ list, t'.slots[t.numAcl]? = some ⟨BitVec.ofInt 16 id, list⟩ ∧
    IsList t'.heap list rules
  earlier : ∀ i, i ≠ t.numAcl → t'.slots[i]? = t.slots[i]?
  heap : t.heap <+: t'.heap

theorem Appended.unique {t t' : AclTable} {id : Int} {rules rules' : List Rule}
    (h : Appended t t' id rules) (h' : Appended t t' id rules') : rules = rules' := by
  obtain ⟨list, hentry, hlist⟩ := h.entry
  obtain ⟨list', hentry', hlist'⟩ := h'.entry
  obtain rfl : list = list' := congrArg Entry.list (Option.some.inj (hentry.symm.trans hentry'))
  exact hlist.unique hlist'

theorem Rep.finish (h : Rep t p rs) {p' : Parse}
    (hp' : p' = if p.next ≠ none then p.modify fun n => { n with next := none } else p) :
    p'.heap = t.heap ++ nodes t.heap.length rs ∧ IsList p'.heap p'.head.next rs.reverse ∧
      p'.numRule = t.numRule + rs.length ∧ p'.totalRule = t.totalRule + rs.length := by
  cases rs with
  | nil =>
    have hptr : p.listPtr = none := h.listPtr
    have hnext : p.next = p.head.next := by rw [Parse.next, hptr]
    split_ifs at hp' with hnone
    · have hmod : p' = { p with head := { p.head with next := none } } := by
        rw [hp', Parse.modify, hptr]
      subst hmod
      exact ⟨h.heap, rfl, h.numRule, h.totalRule⟩
    · subst hp'
      exact ⟨h.heap, hnext.symm.trans (not_not.mp hnone), h.numRule, h.totalRule⟩
  | cons r rs =>
    have hnext : p.next = none := by
      rw [Parse.next, h.listPtr_cons]
      dsimp only
      rw [h.heap, nodes, List.getElem?_append_right (by omega), Nat.add_sub_cancel_left,
        List.getElem?_append_right (by simp)]
      simp
    rw [if_neg (not_not.mpr hnext)] at hp'
    subst hp'
    refine ⟨h.heap, ?_, h.numRule, h.totalRule⟩
    rw [h.heap, h.head (List.cons_ne_nil _ _)]
    exact isList_nodes t.heap r rs

/-- **`set_rule`** appends the rules of the walk. -/
theorem setRule_agrees (mem : Memory) (str : List Char) (hslot : t.numAcl < t.slots.length)
    (hbuf : Feeds tok ⟨str.take 3, str.drop 3⟩ ss) (id : Int) :
    Agrees (fun res rs => Appended t res.1 id rs.reverse) (setRule mem str id t)
      (parseLine mem t.heap.length ss) := by
  have hentry : ∀ list : Option Nat, ((t.slots.modify t.numAcl fun e =>
      { e with id := BitVec.ofInt 16 id }).modify t.numAcl fun e => { e with list := list })[t.numAcl]? =
      some ⟨BitVec.ofInt 16 id, list⟩ := by
    intro list
    rw [List.getElem?_modify_eq, List.getElem?_modify_eq, List.getElem?_eq_getElem hslot]
    rfl
  obtain ⟨buf₁, hkey, hbuf₁⟩ := feeds_next hbuf
  unfold setRule
  rw [if_pos hslot]
  simp only [nextToken_ok.mpr hkey]
  cases ss with
  | nil =>
    show Agrees _ (setRuleLoop mem none buf₁ _ >>= _) _
    rw [setRuleLoop_error rfl]
    exact .error _
  | cons s ss =>
    show Agrees _ (setRuleLoop mem (some s) buf₁ _ >>= _) _
    refine Agrees.bind_ok (setRuleLoop_agrees hbuf₁
      ⟨(List.append_nil _).symm, rfl, fun hne => absurd rfl hne, rfl, rfl⟩) ?_
    intro res rs hrep
    obtain ⟨p, buf₂⟩ := res
    obtain ⟨hheap, hlist, hnum, htotal⟩ := hrep.finish rfl
    refine ⟨_, rfl, rfl, ?_, ?_, ?_, ⟨_, hentry _, hlist⟩, ?_, _, hheap.symm⟩
    · rw [List.length_reverse]
      exact hnum
    · rw [List.length_reverse]
      exact htotal
    · simp
    · intro i hi
      rw [List.getElem?_modify_ne _ _ (Ne.symm hi), List.getElem?_modify_ne _ _ (Ne.symm hi)]

/-! ### Calls that return -/

theorem feeds_prev {buf' : Tokens} {s : Option (List Char)} (h : strtok tok buf = some (s, buf'))
    (hbuf : ∃ ss, Feeds tok buf' ss) : ∃ ss, Feeds tok buf ss := by
  obtain ⟨ss, hss⟩ := hbuf
  cases s with
  | none => exact ⟨[], .done h⟩
  | some s => exact ⟨s :: ss, .token h hss⟩

theorem setRuleLoop_ok {s : Option (List Char)} {res : Parse × Tokens}
    (h : setRuleLoop mem s buf p = .ok res) :
    s ≠ none ∧ (∃ ss, Feeds tok buf ss) ∧ buf.Later res.2 := by
  have hround : ∀ (s : Option (List Char)) (buf : Tokens) (p : Parse)
      (res : Parse × Option (List Char) × Tokens), setRuleRound mem s buf p = .ok res →
      (res.2.1 ≠ none → ∃ ss, Feeds tok res.2.2 ss) →
      s ≠ none ∧ (∃ ss, Feeds tok buf ss) ∧ buf.Later res.2.2 := by
    intro s buf p res hres hnext
    obtain ⟨name, value, gap, buf₁, buf₂, hname, hvalue, -, hgap, hkey⟩ := setRuleRound_ok.mp hres
    refine ⟨?_, ?_, (strtok_later hvalue).trans ((strtok_later hgap).trans (strtok_later hkey))⟩
    · intro hs
      subst hs
      cases hname
    · refine feeds_prev hvalue (feeds_prev hgap ?_)
      cases hs : res.2.1 with
      | none => exact ⟨[], .done (hs ▸ hkey)⟩
      | some s' => exact feeds_prev hkey (hnext (by simp [hs]))
  fun_induction setRuleLoop mem s buf p with
  | case1 s buf p e hx => cases h
  | case2 s buf p p' buf' hx =>
    cases h
    exact hround s buf p _ hx fun hne => absurd rfl hne
  | case3 s buf p p' s' buf' hx ih =>
    obtain ⟨-, hfeeds, hlater⟩ := ih h
    obtain ⟨hs, hbuf, hlater'⟩ := hround s buf p _ hx fun _ => hfeeds
    exact ⟨hs, hbuf, hlater'.trans hlater⟩

theorem setRule_slot {str : List Char} {id : Int} {res : AclTable × List Char}
    (h : setRule mem str id t = .ok res) : t.numAcl < t.slots.length := by
  by_contra hslot
  unfold setRule at h
  rw [if_neg hslot] at h
  cases h

/-- **A call that returns** has walked over a line and appended its entry. The buffer is as long as
before, and its front up to the first token is as `strtok` left it. -/
theorem setRule_ok {str : List Char} {id : Int} {res : AclTable × List Char}
    (h : setRule mem str id t = .ok res) : ∃ s ss buf₁ rs,
      strtok tok ⟨str.take 3, str.drop 3⟩ = some (some s, buf₁) ∧ Feeds tok buf₁ ss ∧
        parse mem t.heap.length [] s ss = .ok rs ∧ Appended t res.1 id rs.reverse ∧
        buf₁.before <+: res.2 ∧ res.2.length = str.length := by
  have hslot := setRule_slot h
  have hcall := h
  unfold setRule at h
  rw [if_pos hslot] at h
  obtain ⟨⟨s, buf₁⟩, hkey, hcont⟩ := bind_ok.mp h
  obtain ⟨⟨p, buf₂⟩, hloop, hres⟩ := bind_ok.mp hcont
  obtain ⟨hs, ⟨ss, hss⟩, hlater⟩ := setRuleLoop_ok hloop
  have hkey := nextToken_ok.mp hkey
  cases s with
  | none => exact absurd rfl hs
  | some s =>
    have hagrees := setRule_agrees mem str hslot (.token hkey hss) id
    rw [hcall] at hagrees
    obtain ⟨rs, hrs, happended⟩ := hagrees.of_ok
    cases hres
    refine ⟨s, ss, buf₁, rs, hkey, hss, hrs, happended, ?_, ?_⟩
    · exact hlater.1.trans (List.prefix_append _ _)
    · have hlen := ((strtok_later hkey).trans hlater).2
      dsimp only [Tokens.buffer] at hlen ⊢
      rw [hlen, List.take_append_drop]

end

end AtomicPredicate
