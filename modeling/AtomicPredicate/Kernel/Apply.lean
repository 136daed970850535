import AtomicPredicate.Kernel.Makenode

/-!
# The operators on the node table

`bdd_not` and `bdd_apply` return the handle of the reduced diagram of their result, for each operator,
whatever the cache holds and however often nodes are collected or the table grows on the way. The
operands have to be live; the recursion protects its own intermediate results on the reference
stack, which never overflows, and its depth is at most the number of variables.
-/

namespace AtomicPredicate.Kernel

open Function Lib

variable {k k' k₁ k₂ : Kernel} {env : Env} {n h v l r level low high a b : Nat}
  {d dl dr da db dh : Diagram Nat} {s : List Nat}

/-- The invariant once the variables are set up: the constants are after every variable. -/
structure Ready (k : Kernel) : Prop extends k.Wf where
  const : ∀ h < 2, k.level h = k.varnum
  top : ∀ {h v l r}, k.Node h v l r → v < k.varnum

/-- A call from `k` has returned the handle `res` of the diagram `d` in `k'`. -/
structure Done (k k' : Kernel) (res : Nat) (d : Diagram Nat) : Prop where
  ready : k'.Ready
  keeps : k.Keeps k'
  denotes : k'.Denotes res d

theorem Ready.keeps (hr : k.Ready) (hw : k'.Wf) (hk : k.Keeps k')
    (hnew : ∀ h v l r, k'.Node h v l r → k.Node h v l r ∨ v < k.varnum) : k'.Ready where
  toWf := hw
  const h hlt := by
    rw [hk.level (.const hlt), hk.varnum]
    exact hr.const h hlt
  top {h v l r} hn := by
    rw [hk.varnum]
    exact (hnew h v l r hn).elim hr.top id

theorem Ready.lt_level (hr : k.Ready) (hv : v < k.varnum) (hb : k.Below v h) : v < k.level h := by
  rcases hb with hlt | ⟨-, hlt⟩
  · rwa [hr.const h hlt]
  · exact hlt

theorem Ready.level_le (hr : k.Ready) (hv : k.Valid h) : k.level h ≤ k.varnum := by
  rcases hv with hlt | hu
  · exact (hr.const h hlt).le
  · obtain ⟨l, hn⟩ := hu.node
    exact (hr.top hn).le

theorem Ready.node_of_lt (hr : k.Ready) (hd : k.Denotes h d) (hlt : k.level h < k.varnum) :
    ∃ l r dl dr, k.Node h (k.level h) l r ∧ k.Denotes l dl ∧ k.Denotes r dr ∧
      d = .node (k.level h) dl dr := by
  rcases hd with _ | _ | ⟨hn, hl, hr'⟩
  · exact absurd (hr.const 0 (by decide)) hlt.ne
  · exact absurd (hr.const 1 (by decide)) hlt.ne
  · obtain rfl := hn.level
    exact ⟨_, _, _, _, hn, hl, hr', rfl⟩

/-! ### The node constructor on diagrams -/

theorem bddMakenode_spec (hr : k.Ready) (hn : Reached n k.nodesize) (hlow : k.Denotes low dl) (hhigh : k.Denotes high dh)
    (hll : k.Live low) (hlh : k.Live high) (hbl : dl.Beyond level) (hbh : dh.Beyond level)
    (hlevel : level < k.varnum) :
    Wp (bddMakenode env level low high) k (fun res k' => Done k k' res (.mk level dl dh))
      (Exhausted env n) := by
  unfold Diagram.mk
  by_cases hd : dl = dh
  · have heq : low = high := hr.denotes_inj hlow (hd ▸ hhigh)
    simp only [bddMakenode, if_pos heq, if_pos hd]
    exact ⟨hr, .refl k, hlow⟩
  · have hne : low ≠ high := fun heq => hd (hlow.det (heq ▸ hhigh))
    rw [if_neg hd]
    refine (bddMakenode_made hr.toWf hn hne hlevel.le (hlow.beyond_iff.mp hbl) (hhigh.beyond_iff.mp hbh)
      hll hlh).mono fun res k' hm => ?_
    refine ⟨hr.keeps hm.wf hm.keeps fun h v l r hn => (hm.new h v l r hn).imp_right ?_, hm.keeps,
      .node hm.node (hm.keeps.denotes hlow hll) (hm.keeps.denotes hhigh hlh)⟩
    rintro rfl
    exact hlevel

/-! ### The reference stack -/

def withStack (s : List Nat) (k : Kernel) : Kernel := { k with refstack := s }

@[simp] theorem refstack_withStack : (k.withStack s).refstack = s := rfl

@[simp] theorem varnum_withStack : (k.withStack s).varnum = k.varnum := rfl

@[simp] theorem stacksize_withStack : (k.withStack s).stacksize = k.stacksize := rfl

@[simp] theorem level_withStack : (k.withStack s).level = k.level := rfl

theorem sameTable_withStack (s : List Nat) (k : Kernel) : k.SameTable (k.withStack s) :=
  ⟨rfl, rfl, rfl, fun _ _ => rfl, rfl, rfl, rfl, rfl⟩

theorem node_withStack (hn : k.Node h v l r) : (k.withStack s).Node h v l r :=
  (sameTable_withStack s k).node_iff.mpr hn

theorem Denotes.withStack (hd : k.Denotes h d) : (k.withStack s).Denotes h d :=
  (sameTable_withStack s k).denotes hd

theorem Live.withStack (hl : k.Live h) (hs : ∀ g ∈ k.refstack, g ∈ s) : (k.withStack s).Live h :=
  hl.imp_right fun ⟨g, hg, hreach⟩ => ⟨g, hg.imp_left (hs g), hreach⟩

theorem live_withStack (hmem : h ∈ s) : (k.withStack s).Live h := Root.live (Or.inl hmem)

theorem Wf.withStack (hw : k.Wf) (hs : ∀ h ∈ s, k.Valid h) : (k.withStack s).Wf :=
  (sameTable_withStack s k).wf hw le_rfl hw.counted hw.refcou_le hw.refcou_const hs hw.cache

theorem Ready.withStack (hr : k.Ready) (hs : ∀ h ∈ s, k.Valid h) : (k.withStack s).Ready where
  toWf := hr.toWf.withStack hs
  const := hr.const
  top hn := hr.top ((sameTable_withStack s k).node_iff.mp hn)

theorem Keeps.restack (h₁ : k.Keeps k₁) (h₂ : (k₁.withStack s).Keeps k₂)
    (hs : ∀ g ∈ k.refstack, g ∈ s) : k.Keeps (k₂.withStack k.refstack) where
  node h hl := by
    obtain ⟨a1, a2, a3⟩ := h₁.node h hl
    obtain ⟨b1, b2, b3⟩ := h₂.node h ((h₁.live hl).withStack fun g hg => hs g (h₁.refstack ▸ hg))
    exact ⟨b1.trans a1, b2.trans a2, b3.trans a3⟩
  nodesize := h₁.nodesize.trans h₂.nodesize
  sizes := h₁.sizes.trans h₂.sizes
  refcou := h₂.refcou.trans h₁.refcou
  refstack := rfl
  varnum := h₂.varnum.trans h₁.varnum
  varset := h₂.varset.trans h₁.varset
  stacksize := h₂.stacksize.trans h₁.stacksize
  cachesize := h₂.cachesize.trans h₁.cachesize

theorem wp_PUSHREF {Q : PUnit → Kernel → Prop} {E : KFault → Prop}
    (hroom : k.refstack.length < k.stacksize) (hQ : Q ⟨⟩ (k.withStack (a :: k.refstack))) :
    Wp (PUSHREF a) k Q E := by
  simp only [PUSHREF, wp_bind, wp_get, if_pos hroom]
  exact hQ

theorem wp_READREF {Q : Nat → Kernel → Prop} {E : KFault → Prop} {i : Nat}
    (hi : k.refstack[i - 1]? = some a) (hQ : Q a k) : Wp (READREF i) k Q E := by
  simp only [READREF, wp_bind, wp_get, hi]
  exact hQ

theorem wp_LOW {Q : Nat → Kernel → Prop} {E : KFault → Prop} (hn : k.Node h v l r) (hQ : Q l k) :
    Wp (LOW h) k Q E := by
  simp only [LOW, wp_bind, wp_get, hn.low]
  exact hQ

theorem wp_HIGH {Q : Nat → Kernel → Prop} {E : KFault → Prop} (hn : k.Node h v l r) (hQ : Q r k) :
    Wp (HIGH h) k Q E := by
  simp only [HIGH, wp_bind, wp_get, wp_pure, hn.high]
  exact hQ

theorem Done.push (hd : Done k k₁ a d) : (k₁.withStack (a :: k.refstack)).Ready :=
  hd.ready.withStack fun g hg => by
    rcases List.mem_cons.mp hg with rfl | hg
    · exact hd.denotes.valid
    · exact hd.ready.stack g (hd.keeps.refstack ▸ hg)

theorem Done.live_push (hd : Done k k₁ a d) (hl : k.Live h) :
    (k₁.withStack (a :: k.refstack)).Live h :=
  (hd.keeps.live hl).withStack fun _ hg => List.mem_cons_of_mem _ (hd.keeps.refstack ▸ hg)

theorem branch_spec {lo hi : KernelM Nat} {x : Nat} (hn : Reached n k.nodesize) (hx : k.Live x)
    (hlx : k.level x = v) (hv : v < k.varnum) (hroom : k.refstack.length + 2 ≤ k.stacksize)
    (hda : da.Beyond v) (hdb : db.Beyond v)
    (hlo : Wp lo k (fun a k₁ => Done k k₁ a da) (Exhausted env n))
    (hhi : ∀ a k₁, Done k k₁ a da → Wp hi (k₁.withStack (a :: k.refstack))
      (fun b k₂ => Done (k₁.withStack (a :: k.refstack)) k₂ b db) (Exhausted env n)) :
    Wp (branch env (LEVEL x) lo hi) k (fun res k' => Done k k' res (.mk v da db))
      (Exhausted env n) := by
  simp only [branch, wp_bind]
  refine hlo.mono fun a k₁ h₁ => ?_
  have hs₁ := h₁.keeps.refstack
  have hn₁ := h₁.keeps.stacksize
  refine wp_PUSHREF (by rw [hs₁, hn₁]; omega) ?_
  rw [hs₁]
  refine (hhi a k₁ h₁).mono fun b k₂ h₂ => ?_
  have hs₂ : k₂.refstack = a :: k.refstack := h₂.keeps.refstack
  have hn₂ : k₂.stacksize = k₁.stacksize := h₂.keeps.stacksize
  refine wp_PUSHREF (by rw [hs₂, hn₂, hn₁, List.length_cons]; omega) ?_
  rw [hs₂]
  have hlevel : k₂.level x = v := by
    rw [h₂.keeps.level (h₁.live_push hx), level_withStack, h₁.keeps.level hx, hlx]
  have hvarnum : k₂.varnum = k.varnum := h₂.keeps.varnum.trans h₁.keeps.varnum
  have ha₂ : k₂.Denotes a da := h₂.keeps.denotes h₁.denotes.withStack (live_withStack (by simp))
  simp only [LEVEL, wp_bind, wp_get, wp_pure, level_withStack, hlevel]
  refine wp_READREF (a := a) rfl ?_
  refine wp_READREF (a := b) rfl ?_
  have hr₂ : (k₂.withStack (b :: a :: k.refstack)).Ready := h₂.ready.withStack fun g hg => by
    rcases List.mem_cons.mp hg with rfl | hg
    · exact h₂.denotes.valid
    · exact h₂.ready.stack g (hs₂ ▸ hg)
  have hsizes : Reached n k₂.nodesize := (hn.trans h₁.keeps.sizes).trans h₂.keeps.sizes
  refine (bddMakenode_spec hr₂ hsizes ha₂.withStack h₂.denotes.withStack (live_withStack (by simp))
    (live_withStack (by simp)) hda hdb (by rw [varnum_withStack, hvarnum]; exact hv)).mono
    fun res k₃ h₃ => ?_
  have hs₃ : k₃.refstack = b :: a :: k.refstack := h₃.keeps.refstack
  have hpop : ({ k₃ with refstack := k₃.refstack.drop 2 } : Kernel) = k₃.withStack k.refstack := by
    rw [hs₃]
    rfl
  simp only [POPREF, wp_modify, hpop]
  refine ⟨h₃.ready.withStack fun g hg => h₃.ready.stack g (by rw [hs₃]; simp [hg]), ?_,
    h₃.denotes.withStack⟩
  have hk₂ : k.Keeps (k₂.withStack k.refstack) :=
    h₁.keeps.restack h₂.keeps fun g hg => List.mem_cons_of_mem _ hg
  exact hk₂.restack (s := b :: a :: k.refstack) h₃.keeps fun g hg => by simp [hg]

/-! ### The cache -/

def withEntry (slot : Nat) (e : BddCacheData) (k : Kernel) : Kernel :=
  { k with applycache := update k.applycache slot e }

theorem sameTable_withEntry (slot : Nat) (e : BddCacheData) (k : Kernel) :
    k.SameTable (k.withEntry slot e) :=
  ⟨rfl, rfl, rfl, fun _ _ => rfl, rfl, rfl, rfl, rfl⟩

theorem Done.withEntry {slot res : Nat} {e : BddCacheData} (hd : Done k k' res d)
    (he : k'.CacheOk e) : Done k (k'.withEntry slot e) res d := by
  have hr := hd.ready
  have hs := sameTable_withEntry slot e k'
  have hw : (k'.withEntry slot e).Wf := by
    refine hs.wf hr.toWf le_rfl hr.counted hr.refcou_le hr.refcou_const hr.stack fun n hn => ?_
    show k'.CacheOk (update k'.applycache slot e n)
    rcases eq_or_ne n slot with rfl | hne
    · rw [update_self]
      exact he
    · rw [update_of_ne hne]
      exact hr.cache n hn
  exact ⟨⟨hw, hr.const, fun hn => hr.top (hs.node_iff.mp hn)⟩,
    ⟨hd.keeps.node, hd.keeps.nodesize, hd.keeps.sizes, hd.keeps.refcou, hd.keeps.refstack, hd.keeps.varnum,
      hd.keeps.varset, hd.keeps.stacksize, hd.keeps.cachesize⟩, hs.denotes hd.denotes⟩

/-! ### Negation -/

theorem notRec_spec (depth : Nat) {r : Nat} (hr : k.Ready) (hn : Reached n k.nodesize)
    (hd : k.Denotes r d) (hl : k.Live r)
    (hdepth : k.varnum + 1 ≤ depth + k.level r)
    (hroom : k.refstack.length + k.varnum + 1 ≤ k.stacksize + k.level r) :
    Wp (notRec env depth r) k (fun res k' => Done k k' res d.neg) (Exhausted env n) := by
  induction depth generalizing k r d with
  | zero =>
    have := hr.level_le hd.valid
    omega
  | succ depth ih =>
    unfold notRec
    split_ifs with h0 h1
    · subst h0
      rw [hd.det .zero]
      exact ⟨hr, .refl k, .one⟩
    · subst h1
      rw [hd.det .one]
      exact ⟨hr, .refl k, .zero⟩
    simp only [wp_bind, wp_get]
    have hslot : NOTHASH r % k.cachesize < k.cachesize := Nat.mod_lt _ hr.cachesize
    split_ifs with hhit
    · obtain ⟨d', hd', hres⟩ := ((hr.cache _ hslot) r hhit.1).1 hhit.2
      rw [hd.det hd']
      exact ⟨hr, .refl k, hres⟩
    have hsize := hn
    have hu : k.Used r := hd.valid.resolve_left (by omega)
    obtain ⟨_, hn⟩ := hu.node
    obtain ⟨lo, hi, dl, dh, hn, hdl, hdh, rfl⟩ := hr.node_of_lt hd (hr.top hn)
    obtain ⟨-, hbl, hbh, -⟩ := hr.node hn
    have htop := hr.top hn
    have hll := hr.lt_level htop hbl
    have hlh := hr.lt_level htop hbh
    have hneg : ∀ {c dc}, k.Denotes c dc → k.Below (k.level r) c → dc.neg.Beyond (k.level r) :=
      fun hc hb => (Diagram.neg_wf (hr.reduced hc)).2 _ (hc.beyond_iff.mpr hb)
    rw [wp_bind]
    refine (branch_spec hsize hl rfl htop (by omega) (hneg hdl hbl) (hneg hdh hbh) ?_
      fun a k₁ h₁ => ?_).mono fun res k₁ h₁ => ?_
    · rw [wp_bind]
      refine wp_LOW hn ?_
      exact ih hr hsize hdl (hl.low hn) (by omega) (by omega)
    · have hn₁ := node_withStack (s := a :: k.refstack) (h₁.keeps.node_of hl hn)
      rw [wp_bind]
      refine wp_HIGH hn₁ ?_
      have hh := hl.high hn
      have hlevel : k₁.level hi = k.level hi := h₁.keeps.level hh
      refine ih h₁.push (hsize.trans h₁.keeps.sizes) (h₁.keeps.denotes hdh hh).withStack (h₁.live_push hh) ?_ ?_
      · simp only [varnum_withStack, level_withStack, h₁.keeps.varnum, hlevel]
        omega
      · simp only [varnum_withStack, level_withStack, refstack_withStack, stacksize_withStack,
          h₁.keeps.varnum, h₁.keeps.stacksize, hlevel, List.length_cons]
        omega
    · simp only [wp_bind, wp_modify, wp_pure]
      refine h₁.withEntry fun a ha => ?_
      obtain rfl : r = a := Option.some.inj ha
      exact ⟨fun _ => ⟨_, h₁.keeps.denotes hd hl, h₁.denotes⟩, fun hne => absurd rfl hne⟩

/-! ### Binary operators -/

theorem oprresAt_eq (op : Operator) (a b : Bool) :
    oprresAt op a.toNat b.toNat = (op.eval a b).toNat := by
  cases op <;> cases a <;> cases b <;> rfl

theorem Ordered.denotes_diagram (ho : k.Ordered) {op : Operator} {res : Nat} (hda : k.Denotes a da)
    (hdb : k.Denotes b db) (hd : k.Denotes res d)
    (he : ∀ env, d.eval env = op.eval (da.eval env) (db.eval env)) :
    k.Denotes res (op.diagram da db) := by
  have heq : d = op.diagram da db :=
    Diagram.eq_of_eval_eq (ho.reduced hd) (op.diagram_wf (ho.reduced hda) (ho.reduced hdb)).1
      fun env => by rw [he, op.eval_diagram]
  exact heq ▸ hd

theorem applyCase_spec (ho : k.Ordered) {op : Operator} {res : Nat} (hda : k.Denotes a da)
    (hdb : k.Denotes b db) (hc : applyCase op a b = some res) :
    k.Denotes res (op.diagram da db) := by
  have const : ∀ {h d} (c : Bool), k.Denotes h d → h = c.toNat → ∀ env, d.eval env = c :=
    fun c hd heq env => by
      subst heq
      rw [hd.det (Denotes.leaf_iff.mpr rfl), Diagram.eval_leaf]
  have hself : a = b → ∀ env, da.eval env = db.eval env := fun heq env => by
    subst heq
    rw [hda.det hdb]
  -- the answer is a constant, or one of the operands
  have leaf : ∀ c : Bool, c.toNat = res →
      (∀ env, c = op.eval (da.eval env) (db.eval env)) → k.Denotes res (op.diagram da db) :=
    fun c hres he => ho.denotes_diagram hda hdb (Denotes.leaf_iff.mpr hres.symm) he
  have left : a = res → (∀ env, da.eval env = op.eval (da.eval env) (db.eval env)) →
      k.Denotes res (op.diagram da db) :=
    fun hres he => ho.denotes_diagram hda hdb (hres ▸ hda) he
  have right : b = res → (∀ env, db.eval env = op.eval (da.eval env) (db.eval env)) →
      k.Denotes res (op.diagram da db) :=
    fun hres he => ho.denotes_diagram hda hdb (hres ▸ hdb) he
  cases op with
  | and =>
    simp only [applyCase] at hc
    split_ifs at hc with h1 h2 h3 h4
    · exact left (Option.some.inj hc) fun env => by simp [Operator.eval, hself h1]
    · refine leaf false (Option.some.inj hc) fun env => ?_
      rcases h2 with h2 | h2
      · simp [Operator.eval, const false hda h2]
      · simp [Operator.eval, const false hdb h2]
    · exact right (Option.some.inj hc) fun env => by simp [Operator.eval, const true hda h3]
    · exact left (Option.some.inj hc) fun env => by simp [Operator.eval, const true hdb h4]
  | or =>
    simp only [applyCase] at hc
    split_ifs at hc with h1 h2 h3 h4
    · exact left (Option.some.inj hc) fun env => by simp [Operator.eval, hself h1]
    · refine leaf true (Option.some.inj hc) fun env => ?_
      rcases h2 with h2 | h2
      · simp [Operator.eval, const true hda h2]
      · simp [Operator.eval, const true hdb h2]
    · exact right (Option.some.inj hc) fun env => by simp [Operator.eval, const false hda h3]
    · exact left (Option.some.inj hc) fun env => by simp [Operator.eval, const false hdb h4]
  | xor =>
    simp only [applyCase] at hc
    split_ifs at hc with h1 h2 h3
    · exact leaf false (Option.some.inj hc) fun env => by simp [Operator.eval, hself h1]
    · exact right (Option.some.inj hc) fun env => by simp [Operator.eval, const false hda h2]
    · exact left (Option.some.inj hc) fun env => by simp [Operator.eval, const false hdb h3]
  | nand =>
    simp only [applyCase] at hc
    split_ifs at hc with h1
    refine leaf true (Option.some.inj hc) fun env => ?_
    rcases h1 with h1 | h1
    · simp [Operator.eval, const false hda h1]
    · simp [Operator.eval, const false hdb h1]
  | nor =>
    simp only [applyCase] at hc
    split_ifs at hc with h1
    refine leaf false (Option.some.inj hc) fun env => ?_
    rcases h1 with h1 | h1
    · simp [Operator.eval, const true hda h1]
    · simp [Operator.eval, const true hdb h1]
  | imp =>
    simp only [applyCase] at hc
    split_ifs at hc with h1 h2 h3
    · exact leaf true (Option.some.inj hc) fun env => by simp [Operator.eval, const false hda h1]
    · exact right (Option.some.inj hc) fun env => by simp [Operator.eval, const true hda h2]
    · exact leaf true (Option.some.inj hc) fun env => by simp [Operator.eval, const true hdb h3]
  | _ => exact absurd hc (by simp [applyCase])

theorem denotes_const (h2 : h < 2) : ∃ c : Bool, h = c.toNat ∧ k.Denotes h (.leaf c) := by
  rcases (by omega : h = 0 ∨ h = 1) with rfl | rfl
  · exact ⟨false, rfl, .zero⟩
  · exact ⟨true, rfl, .one⟩

theorem oprresAt_spec (ho : k.Ordered) (op : Operator) (ha : a < 2) (hb : b < 2)
    (hda : k.Denotes a da) (hdb : k.Denotes b db) :
    k.Denotes (oprresAt op a b) (op.diagram da db) := by
  obtain ⟨ca, rfl, hca⟩ := denotes_const (k := k) ha
  obtain ⟨cb, rfl, hcb⟩ := denotes_const (k := k) hb
  rw [oprresAt_eq]
  refine ho.denotes_diagram hda hdb (Denotes.leaf_iff.mpr rfl) fun env => ?_
  rw [hda.det hca, hdb.det hcb, Diagram.eval_leaf, Diagram.eval_leaf, Diagram.eval_leaf]

/-- The two cofactors of a node or of anything further down, at a level. -/
structure Splits (d : Diagram Nat) (v : Nat) (d₀ d₁ : Diagram Nat) : Prop where
  eval : ∀ env, d.eval env = if env v then d₁.eval env else d₀.eval env
  low : d₀.Reduced ∧ d₀.Beyond v
  high : d₁.Reduced ∧ d₁.Beyond v

theorem Splits.of_beyond (hd : d.Reduced) (hb : d.Beyond v) : Splits d v d d :=
  ⟨fun env => by simp, ⟨hd, hb⟩, ⟨hd, hb⟩⟩

theorem Splits.of_node (hd : (Diagram.node v dl dr).Reduced) : Splits (.node v dl dr) v dl dr :=
  ⟨fun _ => rfl, ⟨hd.2.2.2.1, hd.2.1⟩, ⟨hd.2.2.2.2, hd.2.2.1⟩⟩

theorem mk_diagram (op : Operator) (ha : da.Reduced) (hb : db.Reduced)
    {a₀ a₁ b₀ b₁ : Diagram Nat} (hsa : Splits da v a₀ a₁) (hsb : Splits db v b₀ b₁) :
    (op.diagram a₀ b₀).Beyond v ∧ (op.diagram a₁ b₁).Beyond v ∧
      .mk v (op.diagram a₀ b₀) (op.diagram a₁ b₁) = op.diagram da db := by
  have w₀ := op.diagram_wf hsa.low.1 hsb.low.1
  have w₁ := op.diagram_wf hsa.high.1 hsb.high.1
  have hb₀ := w₀.2 v hsa.low.2 hsb.low.2
  have hb₁ := w₁.2 v hsa.high.2 hsb.high.2
  refine ⟨hb₀, hb₁, Diagram.eq_of_eval_eq (Diagram.reduced_mk w₀.1 w₁.1 hb₀ hb₁)
    (op.diagram_wf ha hb).1 fun env => ?_⟩
  rw [Diagram.eval_mk, op.eval_diagram, op.eval_diagram, op.eval_diagram, hsa.eval, hsb.eval]
  split_ifs <;> rfl

/-- One operand of a recursive call at level `w`: the handles of its cofactors. -/
structure Side (k : Kernel) (w : Nat) (d : Diagram Nat) (l₀ l₁ : Nat) (d₀ d₁ : Diagram Nat) :
    Prop where
  splits : Splits d w d₀ d₁
  denotes₀ : k.Denotes l₀ d₀
  denotes₁ : k.Denotes l₁ d₁
  live₀ : k.Live l₀
  live₁ : k.Live l₁

theorem Ordered.side_node (ho : k.Ordered) (hn : k.Node h v l r) (hl : k.Denotes l dl)
    (hr : k.Denotes r dr) (hlive : k.Live h) : Side k v (.node v dl dr) l r dl dr :=
  ⟨.of_node (ho.reduced (.node hn hl hr)), hl, hr, hlive.low hn, hlive.high hn⟩

theorem Ordered.side_below (ho : k.Ordered) (hd : k.Denotes h d) (hb : k.Below v h)
    (hlive : k.Live h) : Side k v d h h d d :=
  ⟨.of_beyond (ho.reduced hd) (hd.beyond_iff.mpr hb), hd, hd, hlive, hlive⟩

/-- What the recursion of `apply_rec` promises, for operands at levels from `v` on. -/
def Applies (env : Env) (n : Nat) (op : Operator) (depth : Nat) (f : Nat → Nat → KernelM Nat) :
    Prop :=
  ∀ {k : Kernel} {l r v : Nat} {dl dr : Diagram Nat}, k.Ready → Reached n k.nodesize →
    k.Denotes l dl → k.Denotes r dr → k.Live l → k.Live r → v ≤ k.level l → v ≤ k.level r → k.varnum + 1 ≤ depth + v →
    k.refstack.length + k.varnum + 1 ≤ k.stacksize + v →
    Wp (f l r) k (fun res k' => Done k k' res (op.diagram dl dr)) (Exhausted env n)

theorem applyBranch_spec {op : Operator} {depth x w l₀ l₁ r₀ r₁ : Nat}
    {f : Nat → Nat → KernelM Nat} {lo hi : KernelM Nat} {a₀ a₁ b₀ b₁ : Diagram Nat}
    (hf : Applies env n op depth f) (hr : k.Ready) (hn : Reached n k.nodesize) (hdl : k.Denotes l dl) (hdr : k.Denotes r dr)
    (hx : k.Live x) (hlx : k.level x = w) (hvw : v ≤ w) (hw : w < k.varnum)
    (sl : Side k w dl l₀ l₁ a₀ a₁) (sr : Side k w dr r₀ r₁ b₀ b₁)
    (hdepth : k.varnum + 1 ≤ depth + 1 + v)
    (hroom : k.refstack.length + k.varnum + 1 ≤ k.stacksize + v)
    (hlo : ∀ Q E, Wp (f l₀ r₀) k Q E → Wp lo k Q E)
    (hhi : ∀ a k₁, Done k k₁ a (op.diagram a₀ b₀) → ∀ Q E,
      Wp (f l₁ r₁) (k₁.withStack (a :: k.refstack)) Q E →
      Wp hi (k₁.withStack (a :: k.refstack)) Q E) :
    Wp (branch env (LEVEL x) lo hi) k (fun res k' => Done k k' res (op.diagram dl dr))
      (Exhausted env n) := by
  obtain ⟨hb₀, hb₁, hmk⟩ := mk_diagram op (hr.reduced hdl) (hr.reduced hdr) sl.splits sr.splits
  rw [← hmk]
  have below : ∀ {c dc}, k.Denotes c dc → dc.Beyond w → w + 1 ≤ k.level c := fun hc hb =>
    hr.lt_level hw (hc.beyond_iff.mp hb)
  refine branch_spec hn hx hlx hw (by omega) hb₀ hb₁ ?_ fun a k₁ h₁ => ?_
  · exact hlo _ _ (hf hr hn sl.denotes₀ sr.denotes₀ sl.live₀ sr.live₀
      (below sl.denotes₀ sl.splits.low.2) (below sr.denotes₀ sr.splits.low.2) (by omega) (by omega))
  · refine hhi a k₁ h₁ _ _ (hf h₁.push (hn.trans h₁.keeps.sizes) (h₁.keeps.denotes sl.denotes₁ sl.live₁).withStack
      (h₁.keeps.denotes sr.denotes₁ sr.live₁).withStack (h₁.live_push sl.live₁)
      (h₁.live_push sr.live₁) (v := w + 1) ?_ ?_ ?_ ?_)
    · rw [level_withStack, h₁.keeps.level sl.live₁]
      exact below sl.denotes₁ sl.splits.high.2
    · rw [level_withStack, h₁.keeps.level sr.live₁]
      exact below sr.denotes₁ sr.splits.high.2
    · rw [varnum_withStack, h₁.keeps.varnum]
      omega
    · simp only [varnum_withStack, refstack_withStack, stacksize_withStack, h₁.keeps.varnum,
        h₁.keeps.stacksize, List.length_cons]
      omega

theorem applyRec_spec {op : Operator} (hop : op ≠ .not) (depth : Nat) :
    Applies env n op depth (applyRec env op depth) := by
  induction depth with
  | zero =>
    intro k l r v dl dr hr _ hdl _ _ _ hvl _ hdepth _
    have := hr.level_le hdl.valid
    omega
  | succ depth ih =>
    intro k l r v dl dr hr hn hdl hdr hll hlr hvl hvr hdepth hroom
    unfold applyRec
    cases hcase : applyCase op l r with
    | some res => exact ⟨hr, .refl k, applyCase_spec hr.toOrdered hdl hdr hcase⟩
    | none =>
    dsimp only
    split_ifs with hconst
    · exact ⟨hr, .refl k, oprresAt_spec hr.toOrdered op hconst.1 hconst.2 hdl hdr⟩
    simp only [wp_bind, wp_get]
    have hslot : APPLYHASH l r op % k.cachesize < k.cachesize := Nat.mod_lt _ hr.cachesize
    have enter : ∀ {res k₁ slot}, Done k k₁ res (op.diagram dl dr) →
        Done k (k₁.withEntry slot { a := some l, b := r, c := op, res := res }) res
          (op.diagram dl dr) := fun h₁ => by
      refine h₁.withEntry fun a ha => ⟨fun hc => absurd hc hop, fun _ => ?_⟩
      obtain rfl : l = a := Option.some.inj ha
      exact ⟨_, _, h₁.keeps.denotes hdl hll, h₁.keeps.denotes hdr hlr, h₁.denotes⟩
    have hlv := hr.level_le hdl.valid
    have hrv := hr.level_le hdr.valid
    split_ifs with hhit hlevel hlt
    · obtain ⟨ha, hb, hc⟩ := hhit
      obtain ⟨da, db, hda, hdb, hres⟩ := ((hr.cache _ hslot) l ha).2 (by rw [hc]; exact hop)
      rw [hb] at hdb
      rw [hc] at hres
      rw [hdl.det hda, hdr.det hdb]
      exact ⟨hr, .refl k, hres⟩
    · -- one of the operands is a node, so both are
      have htop : k.level l < k.varnum := by
        rcases hdl.valid with hl | hl
        · rcases hdr.valid with hr' | hr'
          · exact absurd ⟨hl, hr'⟩ hconst
          · obtain ⟨_, hn⟩ := hr'.node
            exact hlevel ▸ hr.top hn
        · obtain ⟨_, hn⟩ := hl.node
          exact hr.top hn
      obtain ⟨l₀, l₁, a₀, a₁, hnl, ha₀, ha₁, rfl⟩ := hr.node_of_lt hdl htop
      obtain ⟨r₀, r₁, b₀, b₁, hnr, hb₀, hb₁, rfl⟩ := hr.node_of_lt hdr (hlevel ▸ htop)
      have sr := hr.side_node hnr hb₀ hb₁ hlr
      rw [← hlevel] at sr hnr
      simp only [wp_bind, wp_modify, wp_pure]
      refine (applyBranch_spec ih hr hn hdl (hlevel ▸ hdr) hll rfl hvl htop
        (hr.side_node hnl ha₀ ha₁ hll) sr (by omega) hroom (fun Q E h => ?_)
        fun a k₁ h₁ Q E h => ?_).mono fun res k₁ h₁ => ?_
      · simp only [wp_bind]
        exact wp_LOW hnl (wp_LOW hnr h)
      · simp only [wp_bind]
        exact wp_HIGH (node_withStack (h₁.keeps.node_of hll hnl))
          (wp_HIGH (node_withStack (h₁.keeps.node_of hlr hnr)) h)
      · rw [← hlevel] at *
        exact enter h₁
    · have htop : k.level l < k.varnum := hlt.trans_le hrv
      obtain ⟨l₀, l₁, a₀, a₁, hnl, ha₀, ha₁, rfl⟩ := hr.node_of_lt hdl htop
      have hbr : k.Below (k.level l) r := hdr.valid.imp_right fun hu => ⟨hu, hlt⟩
      simp only [wp_bind, wp_modify, wp_pure]
      refine (applyBranch_spec ih hr hn hdl hdr hll rfl hvl htop
        (hr.side_node hnl ha₀ ha₁ hll) (hr.side_below hdr hbr hlr) (by omega) hroom
        (fun Q E h => ?_) fun a k₁ h₁ Q E h => ?_).mono fun res k₁ h₁ => enter h₁
      · simp only [wp_bind]
        exact wp_LOW hnl h
      · simp only [wp_bind]
        exact wp_HIGH (node_withStack (h₁.keeps.node_of hll hnl)) h
    · have hgt : k.level r < k.level l := by omega
      have htop : k.level r < k.varnum := hgt.trans_le hlv
      obtain ⟨r₀, r₁, b₀, b₁, hnr, hb₀, hb₁, rfl⟩ := hr.node_of_lt hdr htop
      have hbl : k.Below (k.level r) l := hdl.valid.imp_right fun hu => ⟨hu, hgt⟩
      simp only [wp_bind, wp_modify, wp_pure]
      refine (applyBranch_spec ih hr hn hdl hdr hlr rfl hvr htop
        (hr.side_below hdl hbl hll) (hr.side_node hnr hb₀ hb₁ hlr) (by omega) hroom
        (fun Q E h => ?_) fun a k₁ h₁ Q E h => ?_).mono fun res k₁ h₁ => enter h₁
      · simp only [wp_bind]
        exact wp_LOW hnr h
      · simp only [wp_bind]
        exact wp_HIGH (node_withStack (h₁.keeps.node_of hlr hnr)) h

end AtomicPredicate.Kernel
