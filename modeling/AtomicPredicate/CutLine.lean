import AtomicPredicate.RuleLine

/-!
# Rule lines that are cut

A rule line that does not fit the buffer reaches `set_rule` in pieces, the first of which is the line
cut after some characters. If more is cut off than what closes the line, the walk over that piece
stops with a fault, or starts too few rules, or never gives the last rule its first destination port,
the last value of the line (`walk_cut`).
-/

namespace AtomicPredicate

open Lib

/-! ### What is left to assign -/

/-- The keys that start a rule. -/
def opens (cs : List Cell) : Nat := cs.countP fun c => keyOf c.key = some .srcEnd

/-- The newest rule has another first destination port. -/
def Stale (port : BitVec 32) (rs : List Rule) : Prop := ∃ r rs', rs = r :: rs' ∧ r.dstPort.1 ≠ port

/-- `n` rules are started at the end of these cells, and the newest one is not complete. -/
def Progress (n : Nat) (port : BitVec 32) (rs : List Rule) (cs : List Cell) : Prop :=
  rs.length + opens cs = n ∧ (opens cs = 0 → Stale port rs)

/-- The last rule that is started does not get its first destination port. -/
def Pending : List Cell → Prop
  | [] => True
  | c :: cs => (opens cs = 0 → keyOf c.key ≠ some .dstBegin) ∧ Pending cs

section

variable {mem : Memory} {base n : Nat} {port : BitVec 32} {rs : List Rule}
  {key value before : List Char} {c : Cell} {cs : List Cell}

theorem opens_cons (c : Cell) (cs : List Cell) :
    opens (c :: cs) = opens cs + if keyOf c.key = some .srcEnd then 1 else 0 := by
  unfold opens
  rw [List.countP_cons]
  simp

theorem assign_length : (assign mem base key value rs).length =
    rs.length + if keyOf key = some .srcEnd then 1 else 0 := by
  unfold assign
  cases keyOf key with
  | none => simp
  | some k =>
    by_cases hk : k = .srcEnd
    · simp [hk]
    · simp [hk]

theorem Key.assign_dstBegin {k : Key} (hk : k ≠ .dstBegin) (value : List Char) (r : Rule) :
    (k.assign value r).dstPort.1 = r.dstPort.1 := by
  cases k with
  | dstBegin => exact absurd rfl hk
  | _ => rfl

theorem assign_stale (hmem : ∀ a, (mem.malloc a).dstPort.1 ≠ port)
    (hkey : keyOf key ≠ some .dstBegin) (h : keyOf key ≠ some .srcEnd → Stale port rs) :
    Stale port (assign mem base key value rs) := by
  unfold assign
  cases hk : keyOf key with
  | none => exact h (by simp [hk])
  | some k =>
    have hne : k ≠ .dstBegin := fun heq => hkey (hk.trans (congrArg some heq))
    dsimp only
    by_cases hopen : k = .srcEnd
    · rw [if_pos hopen]
      exact ⟨_, _, rfl, by rw [Key.assign_dstBegin hne]; exact hmem _⟩
    · obtain ⟨r, rs', rfl, hr⟩ := h fun heq => hopen (Option.some.inj (hk.symm.trans heq))
      rw [if_neg hopen]
      exact ⟨_, _, rfl, by rw [Key.assign_dstBegin hne]; exact hr⟩

theorem Progress.wrong (h : Progress n port rs cs) : rs.length < n ∨ Stale port rs := by
  by_cases hopens : opens cs = 0
  · exact .inr (h.2 hopens)
  · exact .inl (by have := h.1; omega)

theorem Progress.assign (h : Progress n port rs (c :: cs)) (hcs : Pending (c :: cs))
    (hmem : ∀ a, (mem.malloc a).dstPort.1 ≠ port) (value : List Char) :
    Progress n port (AtomicPredicate.assign mem base c.key value rs) cs := by
  obtain ⟨hlen, hstale⟩ := h
  rw [opens_cons] at hlen hstale
  refine ⟨?_, fun hopens => assign_stale hmem (hcs.1 hopens) fun hkey => hstale ?_⟩
  · rw [assign_length]
    omega
  · rw [hopens, if_neg hkey]

/-! ### The pieces -/

/-- The loop behind a gap. -/
def resume (mem : Memory) (base : Nat) (rs : List Rule) :
    List (List Char) → Except Fault (List Rule)
  | [] => pure rs
  | s :: ss => parse mem base rs s ss

theorem parse_resume (hkey : nul ∉ key) (hvalue : nul ∉ value) (hlen : 2 ≤ value.length)
    (rest rest' gap : List Char) (ss : List (List Char)) :
    parse mem base rs (key ++ nul :: rest) ((value ++ nul :: rest') :: gap :: ss) =
      resume mem base (AtomicPredicate.assign mem base key (value.drop 2) rs) ss := by
  cases ss with
  | nil =>
    rw [parse]
    · exact round_token hkey hvalue hlen rest rest'
    · intro _ _ _ _ h
      cases h
  | cons s ss => exact parse_cell hkey hvalue hlen rest rest' gap s

theorem round_none (hkey : nul ∉ key) {rest : List Char} {rs' : List Rule}
    (h : round mem base rs (key ++ nul :: rest) none = .ok rs') :
    keyOf key = none ∧ rs' = rs := by
  rw [round, deref_token hkey] at h
  change step mem base (keyOf key) none rs = .ok rs' at h
  cases hk : keyOf key with
  | none =>
    rw [hk] at h
    cases h
    exact ⟨rfl, rfl⟩
  | some k =>
    rw [hk] at h
    cases h

theorem round_last (hkey : nul ∉ key) (hvalue : nul ∉ value) {rest : List Char} {rs' : List Rule}
    (h : round mem base rs (key ++ nul :: rest) (some (value ++ [nul])) = .ok rs') :
    (keyOf key = none ∨ 2 ≤ value.length) ∧
      rs' = AtomicPredicate.assign mem base key (value.drop 2) rs := by
  by_cases hlen : 2 ≤ value.length
  · rw [round_token hkey hvalue hlen] at h
    cases h
    exact ⟨.inr hlen, rfl⟩
  · rw [round, deref_token hkey] at h
    change step mem base (keyOf key) (some (value ++ [nul])) rs = .ok rs' at h
    cases hk : keyOf key with
    | none =>
      rw [hk] at h
      cases h
      refine ⟨.inl rfl, ?_⟩
      unfold AtomicPredicate.assign
      rw [hk]
    | some k =>
      have hskip : (value ++ [nul]).drop 2 = [] :=
        List.drop_of_length_le (by rw [List.length_append, List.length_singleton]; omega)
      unfold step at h
      rw [hk, Option.map_some, hskip] at h
      cases h

theorem piece_key (mem : Memory) (base : Nat) (rs : List Rule)
    (hkey : ∀ x ∈ key, tokenChar tok x = true) (before : List Char) :
    ∃ ss, Feeds tok ⟨before, key ++ [nul]⟩ ss ∧
      ∀ rs', resume mem base rs ss = .ok rs' → rs' = rs := by
  refine ⟨_, Feeds.last hkey (by decide) before [], fun rs' h => ?_⟩
  split_ifs at h with hnil
  · cases h
    rfl
  · exact (round_none (nul_not_mem hkey) h).2

theorem piece_value (mem : Memory) (base : Nat) (rs : List Rule) (hc : c.Fine)
    (hvalue : ∀ x ∈ value, tokenChar tok x = true) (before : List Char) :
    ∃ ss, Feeds tok ⟨before, c.key ++ '\'' :: (value ++ [nul])⟩ ss ∧
      ∀ rs', resume mem base rs ss = .ok rs' → (keyOf c.key = none ∨ 2 ≤ value.length) ∧
        rs' = AtomicPredicate.assign mem base c.key (value.drop 2) rs := by
  have hlast := Feeds.last hvalue (by decide : nul ∉ tok) (before ++ c.key ++ [nul]) []
  have hfeeds := Feeds.cons hc.key hc.key_ne_nil (by decide) (by decide : '\'' ≠ nul) hlast
  refine ⟨_, hfeeds, fun rs' h => ?_⟩
  split_ifs at h with hnil
  · obtain ⟨hk, hrs⟩ := round_none (nul_not_mem hc.key) h
    refine ⟨.inl hk, hrs.trans ?_⟩
    unfold AtomicPredicate.assign
    rw [hk]
  · exact round_last (nul_not_mem hc.key) (nul_not_mem hvalue) h

theorem piece_gap (mem : Memory) (base : Nat) (rs : List Rule) (hc : c.Fine) {gap : List Char}
    (hgap : ∀ x ∈ gap, tokenChar tok x = true) (before : List Char) :
    ∃ ss, Feeds tok ⟨before, c.key ++ '\'' :: (c.value ++ ',' :: (gap ++ [nul]))⟩ ss ∧
      ∀ rs', resume mem base rs ss = .ok rs' →
        rs' = AtomicPredicate.assign mem base c.key (c.value.drop 2) rs := by
  have hkey := nul_not_mem hc.key
  have hvalue := nul_not_mem hc.value
  have hlast := Feeds.last hgap (by decide : nul ∉ tok)
    (before ++ c.key ++ [nul] ++ c.value ++ [nul]) []
  have hfeeds := Feeds.cons hc.value hc.value_ne_nil (by decide) (by decide : ',' ≠ nul) hlast
  have hfeeds' := Feeds.cons hc.key hc.key_ne_nil (by decide) (by decide : '\'' ≠ nul) hfeeds
  refine ⟨_, hfeeds', fun rs' h => ?_⟩
  split_ifs at h with hnil
  · cases (round_token hkey hvalue hc.value_length _ _).symm.trans h
    rfl
  · cases (parse_resume hkey hvalue hc.value_length _ _ _ []).symm.trans h
    rfl

theorem assign_port_cut (hkey : keyOf key = some .dstBegin) {i : Nat}
    (hi : i < (printWord port).length) (h : Stale port rs) :
    Stale port (AtomicPredicate.assign mem base key ((printWord port).take i) rs) := by
  obtain ⟨r, rs', rfl, hr⟩ := h
  unfold AtomicPredicate.assign
  rw [hkey]
  refine ⟨_, _, rfl, ?_⟩
  show (scanU ((printWord port).take i)).getD r.dstPort.1 ≠ port
  have hcut : scanU ((printWord port).take i) ≠ some port := scanU_cut port hi
  cases hscan : scanU ((printWord port).take i) with
  | none => exact hr
  | some v => exact fun heq => hcut (hscan.trans (congrArg some heq))

theorem take_beyond {a t : List Char} {d : Char} {m : Nat} (h : a.length < m) :
    (a ++ d :: t).take m = a ++ d :: t.take (m - a.length - 1) := by
  obtain ⟨k, rfl⟩ : ∃ k, m = a.length + (k + 1) := ⟨m - a.length - 1, by omega⟩
  rw [List.take_length_add_append, List.take_succ_cons]
  congr 3
  omega

theorem text_ne_nil_tail (cs : List Cell) (f : Cell) : cs ++ [f] ≠ [] :=
  List.append_ne_nil_of_right_ne_nil _ (List.cons_ne_nil _ _)

theorem take_token {s : List Char} (h : ∀ x ∈ s, tokenChar tok x = true) (i : Nat) :
    ∀ x ∈ s.take i, tokenChar tok x = true := fun x hx => h x (List.mem_of_mem_take hx)

theorem walk_cut_last (base : Nat) {f : Cell} (hf : f.Fine) (hkey : keyOf f.key = some .dstBegin)
    (hvalue : f.value = ':' :: ' ' :: printWord port) {m : Nat} (hm : m < (text [f]).length)
    (before : List Char) (hrs : Progress n port rs []) :
    ∃ ss, Feeds tok ⟨before, (text [f]).take m ++ [nul]⟩ ss ∧
      ∀ rs', resume mem base rs ss = .ok rs' → rs'.length < n ∨ Stale port rs' := by
  rw [text] at hm ⊢
  by_cases hmkey : m ≤ f.key.length
  · rw [List.take_append_of_le_length hmkey]
    obtain ⟨ss, hss, hresume⟩ := piece_key mem base rs (take_token hf.key m) before
    refine ⟨ss, hss, fun rs' h => ?_⟩
    rw [hresume rs' h]
    exact hrs.wrong
  · rw [take_beyond (by omega), List.append_assoc, List.cons_append]
    generalize hj : m - f.key.length - 1 = j
    obtain ⟨ss, hss, hresume⟩ := piece_value mem base rs hf (take_token hf.value j) before
    refine ⟨ss, hss, fun rs' h => ?_⟩
    obtain ⟨hlen, rfl⟩ := hresume rs' h
    rcases hlen with hnone | hlen
    · rw [hkey] at hnone
      cases hnone
    · rw [hvalue] at hlen hm ⊢
      simp only [List.length_take, List.length_append, List.length_cons] at hlen hm
      obtain ⟨i, rfl⟩ : ∃ i, j = i + 2 := ⟨j - 2, by omega⟩
      rw [List.take_succ_cons, List.take_succ_cons, List.drop_succ_cons, List.drop_succ_cons,
        List.drop_zero]
      exact .inr (assign_port_cut hkey (by omega) (hrs.2 rfl))

/-- **The walk over a piece** of a line that ends before the last value does. -/
theorem walk_cut (base : Nat) (hmem : ∀ a, (mem.malloc a).dstPort.1 ≠ port) {f : Cell} (hf : f.Fine)
    (hkey : keyOf f.key = some .dstBegin) (hvalue : f.value = ':' :: ' ' :: printWord port)
    {cs : List Cell} (hcs : ∀ c ∈ cs, c.Fine) (hpending : Pending cs) {m : Nat}
    (hm : m < (text (cs ++ [f])).length) (before : List Char) {rs : List Rule}
    (hrs : Progress n port rs cs) :
    ∃ ss, Feeds tok ⟨before, (text (cs ++ [f])).take m ++ [nul]⟩ ss ∧
      ∀ rs', resume mem base rs ss = .ok rs' → rs'.length < n ∨ Stale port rs' := by
  induction cs generalizing m before rs with
  | nil => exact walk_cut_last base hf hkey hvalue hm before hrs
  | cons c cs ih =>
    have hc := hcs c (List.mem_cons_self ..)
    have hcs' : ∀ c' ∈ cs, c'.Fine := fun c' hc' => hcs c' (List.mem_cons_of_mem _ hc')
    have hassign : ∀ value, Progress n port
        (AtomicPredicate.assign mem base c.key value rs) cs := hrs.assign hpending hmem
    rw [List.cons_append, text_cons c (text_ne_nil_tail cs f)] at hm ⊢
    by_cases hmkey : m ≤ c.key.length
    · rw [List.take_append_of_le_length hmkey]
      obtain ⟨ss, hss, hresume⟩ := piece_key mem base rs (take_token hc.key m) before
      refine ⟨ss, hss, fun rs' h => ?_⟩
      rw [hresume rs' h]
      exact hrs.wrong
    · rw [take_beyond (by omega)]
      generalize hj : m - c.key.length - 1 = j
      by_cases hjvalue : j ≤ c.value.length
      · rw [List.take_append_of_le_length hjvalue, List.append_assoc, List.cons_append]
        obtain ⟨ss, hss, hresume⟩ := piece_value mem base rs hc (take_token hc.value j) before
        refine ⟨ss, hss, fun rs' h => ?_⟩
        rw [(hresume rs' h).2]
        exact (hassign _).wrong
      · rw [take_beyond (by omega)]
        generalize hi : j - c.value.length - 1 = i
        by_cases higap : i ≤ c.gap.length
        · rw [List.take_append_of_le_length higap, List.append_assoc, List.cons_append,
            List.append_assoc, List.cons_append]
          obtain ⟨ss, hss, hresume⟩ := piece_gap mem base rs hc (take_token hc.gap i) before
          refine ⟨ss, hss, fun rs' h => ?_⟩
          rw [hresume rs' h]
          exact (hassign _).wrong
        · rw [take_beyond (by omega)]
          have hlen : i - c.gap.length - 1 < (text (cs ++ [f])).length := by
            simp only [List.length_append, List.length_cons] at hm
            omega
          obtain ⟨ss, hss, hresume⟩ := ih hcs' hpending.2 hlen
            (before ++ c.key ++ [nul] ++ c.value ++ [nul] ++ c.gap ++ [nul])
            (hassign (c.value.drop 2))
          have hfeeds := feeds_cell hc hss
          refine ⟨_, by simpa using hfeeds, fun rs' h => hresume rs' ?_⟩
          rwa [resume, parse_resume (nul_not_mem hc.key) (nul_not_mem hc.value) hc.value_length] at h

end

/-! ### The cells of a line -/

theorem pending_of_not {cs : List Cell} (h : ∀ c ∈ cs, keyOf c.key ≠ some .dstBegin) :
    Pending cs := by
  induction cs with
  | nil => trivial
  | cons c cs ih =>
    obtain ⟨hc, hcs⟩ := List.forall_mem_cons.mp h
    exact ⟨fun _ => hc, ih hcs⟩

theorem opens_append (cs ds : List Cell) : opens (cs ++ ds) = opens cs + opens ds :=
  List.countP_append

theorem pending_append (cs : List Cell) {ds : List Cell} (hds : Pending ds) (hopens : 0 < opens ds) :
    Pending (cs ++ ds) := by
  induction cs with
  | nil => exact hds
  | cons c cs ih =>
    refine ⟨fun h => ?_, ih⟩
    have hsum := opens_append cs ds
    exact absurd (hsum.symm.trans h) (by omega)

theorem opens_object (closing : List Char) (o : RuleObject) :
    opens (objectCells closing o.items) = 1 := by
  unfold opens RuleObject.items RuleObject.lineItem
  rw [objectCells_snoc]
  cases o.line <;> simp only [List.cons_append, List.nil_append, List.map_cons, List.map_nil,
    List.countP_cons, List.countP_nil, keyOf_names] <;> rfl

theorem lineCells_last {objs : List RuleObject} (hobjs : objs ≠ []) :
    ∃ cs f, lineCells [] objs = cs ++ [f] ∧ keyOf f.key = some .dstBegin ∧
      f.value = ':' :: ' ' :: printWord (objs.getLast hobjs).transportDstBegin ∧
      Pending cs ∧ opens cs = objs.length := by
  induction objs with
  | nil => exact absurd rfl hobjs
  | cons o objs ih =>
    by_cases hne : objs = []
    · subst hne
      refine ⟨_, _, objectCells_snoc _ _ _ _, keyOf_names.2.2.2.2.2.2.2.2.2.2.2.2, by simp, ?_, ?_⟩
      · apply pending_of_not
        unfold RuleObject.lineItem
        cases o.line <;> simp [-String.reduceToList, keyOf_names]
      · unfold opens RuleObject.lineItem
        cases o.line <;> simp only [List.cons_append, List.nil_append, List.append_nil,
          List.map_cons, List.map_nil, List.countP_cons, List.countP_nil, keyOf_names] <;> rfl
    · obtain ⟨cs, f, hcells, hkey, hvalue, hpending, hopens⟩ := ih hne
      have hpos := List.length_pos_of_ne_nil hne
      refine ⟨objectCells ['}'] o.items ++ cs, f, ?_, hkey, ?_, ?_, ?_⟩
      · rw [lineCells_cons _ o hne, hcells, List.append_assoc]
      · rw [List.getLast_cons hne]
        exact hvalue
      · exact pending_append _ hpending (by omega)
      · rw [opens_append, opens_object, hopens, List.length_cons, Nat.add_comm]

/-! ### The first piece of a line -/

theorem setRule_cut {objs : List RuleObject} (hobjs : objs ≠ []) {m : Nat}
    (hm : m < (text (lineCells [] objs)).length) {mem : Memory}
    (hmem : ∀ a, (mem.malloc a).dstPort.1 ≠ (objs.getLast hobjs).transportDstBegin) {id : Int}
    {t : AclTable} {res : AclTable × List Char}
    (h : setRule mem (['[', '{', '\''] ++ ((text (lineCells [] objs)).take m ++ [nul])) id t = .ok res) :
    ∃ rules, Appended t res.1 id rules ∧ rules ≠ objs.map RuleObject.rule := by
  obtain ⟨cs, f, hcells, hkey, hvalue, hpending, hopens⟩ := lineCells_last hobjs
  have hfine : ∀ c ∈ lineCells [] objs, c.Fine := lineCells_fine (by simp) objs
  rw [hcells] at hm h hfine
  obtain ⟨hcs, hf⟩ := List.forall_mem_append.mp hfine
  have hprogress : Progress objs.length (objs.getLast hobjs).transportDstBegin [] cs := by
    refine ⟨by simpa using hopens, fun hzero => ?_⟩
    have hpos := List.length_pos_of_ne_nil hobjs
    omega
  obtain ⟨ss, hss, hresume⟩ := walk_cut t.heap.length hmem (hf f (List.mem_singleton_self f)) hkey
    hvalue hcs hpending hm ['[', '{', '\''] hprogress
  have hagrees := setRule_front mem (setRule_slot h) hss id
  rw [h] at hagrees
  obtain ⟨rs, hrs, happended⟩ := hagrees.of_ok
  cases ss with
  | nil => cases hrs
  | cons s ss =>
    refine ⟨rs.reverse, happended, fun heq => ?_⟩
    have hlast : rs = (objs.getLast hobjs).rule :: (objs.dropLast.map RuleObject.rule).reverse := by
      have hsplit := congrArg (List.map RuleObject.rule) (List.dropLast_append_getLast hobjs)
      rw [← heq, List.map_append] at hsplit
      have hrev := congrArg List.reverse hsplit
      rw [List.reverse_reverse] at hrev
      simpa using hrev.symm
    rcases hresume rs hrs with hlen | ⟨r, rs', hcons, hport⟩
    · have hsame := congrArg List.length heq
      rw [List.length_reverse, List.length_map] at hsame
      omega
    · rw [hlast] at hcons
      cases hcons
      exact hport rfl

end AtomicPredicate
