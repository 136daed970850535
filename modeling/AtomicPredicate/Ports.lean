import AtomicPredicate.Rule

/-!
# The port loop on every range

How much the loop of `converACLRule` writes, and where it ends. Below `2 ^ w` a range that is not the
whole field takes at most `2 * w - 2` prefixes, the slots of `range` at the width of a port, unless it
misses just the last value (`drpcLoop_buffer_iff`). Over all bounds that the loader stores, the loop
ends exactly when no block of the range can reach `2 ^ 32`, which makes `l` wrap to `0` and the scan
restart, and the slots hold the cover, whose length is that of a way up and down in binary
(`drpcLoop_ends_iff`).
-/

namespace AtomicPredicate

open Lib

/-! ### The number of prefixes -/

theorem drpcLoop_length {w : Nat} (hw : 2 ≤ w) (hw' : w ≤ 31) (bits : BitVec 32) {l u : BitVec 32}
    (hle : l ≤ u) (hu : u.toNat < 2 ^ w) (hwhole : ¬ (l.toNat = 0 ∧ u.toNat = 2 ^ w - 1)) :
    ∃ r, (∀ room, drpcLoop u bits room l [] =
        if r.length ≤ room then .ok r else .error .index) ∧ 1 ≤ r.length ∧
      (r.length ≤ 2 * w - 2 ↔ ¬ (l.toNat = 0 ∧ u.toNat = 2 ^ w - 2)) := by
  have hlu : l.toNat ≤ u.toNat := hle
  have hpow : (2 : Nat) ^ w ≤ 2 ^ 31 := Nat.pow_le_pow_right (by norm_num) hw'
  have hpow' : (2 : Nat) ^ 2 ≤ 2 ^ w := Nat.pow_le_pow_right (by norm_num) hw
  obtain ⟨bs, hg, hrun⟩ := drpcLoop_eq (u := u) bits (by omega) l
  refine ⟨bs.map (blockPrefix bits), fun room => ?_, ?_, ?_⟩
  · rw [hrun, List.nil_append, List.length_map]
  · rw [List.length_map, Nat.succ_le_iff, List.length_pos_iff]
    rintro rfl
    have hstop : l.toNat = u.toNat + 1 := hg.tiles (by omega)
    omega
  · rw [List.length_map, ← Nat.mul_sub_one, hg.length_le_iff hw (by omega) (by omega)]
    omega

theorem portOverruns_iff {port : BitVec 32 × BitVec 32} (hport : PortRange port) :
    (PortOverruns port ↔ port = (0, 65534)) ∧ (PortConverts port ↔ port ≠ (0, 65534)) := by
  by_cases hover : port = (0, 65534)
  · subst hover
    exact ⟨iff_of_true portOverruns_edge rfl,
      iff_of_false not_portConverts_overrun (not_not.mpr rfl)⟩
  · have hconv := (portHit_iff hport hover).1
    exact ⟨iff_of_false hconv.not_overruns hover, iff_of_true hconv hover⟩

theorem converACLRule_index_iff (acl : Rule) (σ : Session) :
    converACLRule acl σ.store = .error (.client .index) ↔
      PortOverruns acl.srcPort ∨ (PortConverts acl.srcPort ∧ PortOverruns acl.dstPort) := by
  rcases run_session (converACLRule_triple acl) σ with ⟨h, s', B, hrun, ⟨hconv, -⟩, -⟩ | ⟨e, hrun, hfail⟩
  · rw [hrun]
    refine iff_of_false (by simp) ?_
    rintro (hover | ⟨-, hover⟩)
    · exact hconv.srcPort.not_overruns hover
    · exact hconv.dstPort.not_overruns hover
  · rw [hrun, ← hfail.2]
    simp

/-- A range that is not the range of all ports leaves its first prefix in the buffer. -/
def FirstPrefixSet (port : BitVec 32 × BitVec 32) : Prop :=
  port.2 - port.1 ≠ 65535 → ∀ r,
    drpcLoop port.2 (BitVec.ofNat 32 portBits) rangeSlots port.1 [] = .ok r → r ≠ []

theorem firstPrefixSet {port : BitVec 32 × BitVec 32} (hport : PortRange port) :
    FirstPrefixSet port := by
  intro _ r hr hnil
  subst hnil
  obtain ⟨bs, hg, hrun⟩ := drpcLoop_eq (u := port.2) (BitVec.ofNat 32 portBits)
    (by have := hport.2; omega) port.1
  have hle : port.1.toNat ≤ port.2.toNat := hport.1
  rw [hrun, List.nil_append] at hr
  split_ifs at hr
  have hbs : bs = [] := List.map_eq_nil_iff.mp (Except.ok.inj hr)
  subst hbs
  have hstop : port.1.toNat = port.2.toNat + 1 := hg.tiles (by omega)
  omega

/-- **The prefix buffer.** At every width the loop emits between `1` and `2 * w - 2` prefixes for a
range that is not the whole field, unless the range misses just the last value of the field. So a
rule with ordered 16-bit ports stays within the arrays of `range` exactly when neither port range is
`0..65534`. -/
theorem drpcLoop_buffer_iff {w : Nat} (hw : 2 ≤ w) (hw' : w ≤ 31) {l u : BitVec 32} (hle : l ≤ u)
    (hu : u.toNat < 2 ^ w) (hwhole : ¬ (l.toNat = 0 ∧ u.toNat = 2 ^ w - 1)) (acl : Rule)
    (hsrc : PortRange acl.srcPort) (hdst : PortRange acl.dstPort) (σ : Session) :
    (∃ r, (∀ room, drpcLoop u (BitVec.ofNat 32 w) room l [] =
        if r.length ≤ room then .ok r else .error .index) ∧
      ((1 ≤ r.length ∧ r.length ≤ 2 * w - 2) ↔ ¬ (l.toNat = 0 ∧ u.toNat = 2 ^ w - 2))) ∧
    ((converACLRule acl σ.store ≠ .error (.client .index) ∧
        FirstPrefixSet acl.srcPort ∧ FirstPrefixSet acl.dstPort) ↔
      acl.srcPort ≠ (0, 65534) ∧ acl.dstPort ≠ (0, 65534)) := by
  constructor
  · obtain ⟨r, hrun, hpos, hlen⟩ := drpcLoop_length hw hw' (BitVec.ofNat 32 w) hle hu hwhole
    exact ⟨r, hrun, (and_iff_right hpos).trans hlen⟩
  · rw [and_iff_left ⟨firstPrefixSet hsrc, firstPrefixSet hdst⟩, ne_eq, converACLRule_index_iff,
      (portOverruns_iff hsrc).1, (portOverruns_iff hsrc).2, (portOverruns_iff hdst).1]
    tauto

/-- The 16-bit range `1..65534` fills the buffer, and a rule that uses it is converted in bounds. -/
theorem drpcLoop_buffer_full :
    (∃ r, (∀ room, drpcLoop 65534#32 16#32 room 1#32 [] =
        if r.length ≤ room then .ok r else .error .index) ∧ 1 ≤ r.length ∧ r.length ≤ 30) ∧
    converACLRule { clientRule with srcPort := (1, 65534) } (Session.init Collector.eager).store ≠
      .error (.client .index) := by
  obtain ⟨⟨r, hrun, hlen⟩, hrule⟩ := drpcLoop_buffer_iff (w := 16) (l := 1#32) (u := 65534#32)
    (by norm_num) (by norm_num) (by decide) (by decide) (by decide)
    { clientRule with srcPort := (1, 65534) } (by decide) (by decide) (Session.init Collector.eager)
  exact ⟨⟨r, hrun, hlen.mpr (by decide)⟩, (hrule.mpr (by decide)).1⟩

/-- The range `0..65534` takes `31` prefixes, and a rule that uses it is converted past the arrays. -/
theorem drpcLoop_buffer_overrun :
    ¬ (∃ r, drpcLoop 65534#32 (BitVec.ofNat 32 portBits) rangeSlots 0#32 [] = .ok r) ∧
    converACLRule { clientRule with srcPort := (0, 65534) } (Session.init Collector.eager).store =
      .error (.client .index) := by
  refine ⟨?_, (converACLRule_index_iff _ _).mpr (Or.inl portOverruns_edge)⟩
  rintro ⟨r, hr⟩
  cases portOverruns_edge.2.symm.trans hr

/-! ### The end of the loop -/

theorem shrink_le {l u : BitVec 32} {zeros z : Nat} (h : shrink l u zeros = .ok z) : z ≤ zeros := by
  induction zeros with
  | zero =>
    rw [shrink] at h
    split_ifs at h
    exact Nat.le_of_eq (Except.ok.inj h).symm
  | succ zeros ih =>
    rw [shrink] at h
    split_ifs at h
    · exact Nat.le_succ_of_le (ih h)
    · exact Nat.le_of_eq (Except.ok.inj h).symm

theorem shrink_wrapped {l u : BitVec 32} {zeros : Nat} (hz : zeros < 32)
    (hl : l.toNat + 2 ^ zeros = 2 ^ 32) : shrink l u zeros = .ok zeros := by
  have hzero : l + (1#32 <<< zeros) = 0 := by
    apply BitVec.eq_of_toNat_eq
    rw [BitVec.toNat_add, toNat_one_shiftLeft hz, hl]
    rfl
  cases zeros with
  | zero => rw [shrink, hzero, if_neg (by simp)]
  | succ zeros => rw [shrink, hzero, if_neg (by simp)]

theorem drpc_ok {l u bits l' : BitVec 32} {p : BitVec 32 × BitVec 8}
    (h : drpc l u bits = .ok (l', p)) :
    ∃ z < 32, 2 ^ z ∣ l.toNat ∧ l' = l + (1#32 <<< z) ∧
      (l.toNat + 2 ^ (ctz l).toNat = 2 ^ 32 → z = (ctz l).toNat) := by
  obtain ⟨hdvd, hlt⟩ := ctz_dvd l
  by_cases hzero : ctz l = 0
  · rw [drpc, if_pos hzero] at h
    obtain ⟨rfl, -⟩ := Prod.mk.inj (Except.ok.inj h)
    exact ⟨0, by norm_num, one_dvd _, rfl, fun _ => by rw [hzero]; rfl⟩
  · rw [drpc, if_neg hzero] at h
    cases hshrink : shrink l u (ctz l).toNat with
    | error e =>
      rw [hshrink] at h
      cases h
    | ok z =>
      rw [hshrink] at h
      obtain ⟨rfl, -⟩ := Prod.mk.inj (Except.ok.inj h)
      have hz := shrink_le hshrink
      refine ⟨z, by omega, (pow_dvd_pow 2 hz).trans hdvd, rfl, fun hl => ?_⟩
      exact Except.ok.inj (hshrink.symm.trans (shrink_wrapped hlt hl))

theorem ctz_top {l : BitVec 32} {k : Nat} (hk : k < 32) (hl : l.toNat + 2 ^ k = 2 ^ 32) :
    (ctz l).toNat = k := by
  have hkpos := Nat.two_pow_pos k
  have hklt : (2 : Nat) ^ k < 2 ^ 32 := Nat.pow_lt_pow_right (by norm_num) hk
  have hne : l ≠ 0 := by
    intro h0
    rw [h0] at hl
    simp at hl
    omega
  have hdvd : 2 ^ k ∣ l.toNat :=
    (Nat.dvd_add_left (dvd_refl _)).mp (hl ▸ pow_dvd_pow 2 hk.le)
  obtain ⟨hctz, hodd, hlt⟩ := ctz_spec hne
  have hle : k ≤ (ctz l).toNat := by
    by_contra hgt
    exact hodd ((pow_dvd_pow 2 (by omega)).trans hdvd)
  have hfit := add_pow_le hlt.le l.isLt hctz
  have hge : (2 : Nat) ^ (ctz l).toNat ≤ 2 ^ k := by omega
  exact le_antisymm ((Nat.pow_le_pow_iff_right (by norm_num)).mp hge) hle

/-- **No call leaves a range that wraps**: from `2 ^ 32 - 2 ^ k` the next `l` is `0`, and a call from
below does not step over it. -/
theorem Wraps.step {l u bits l' : BitVec 32} {p : BitVec 32 × BitVec 8} (hwrap : Wraps l u)
    (h : drpc l u bits = .ok (l', p)) : Wraps l' u := by
  obtain ⟨k, hk, hlk, hku⟩ := hwrap
  obtain ⟨z, hz, hdvd, rfl, htop⟩ := drpc_ok h
  have hkpos := Nat.two_pow_pos k
  have hzpos := Nat.two_pow_pos z
  have hklt : (2 : Nat) ^ k < 2 ^ 32 := Nat.pow_lt_pow_right (by norm_num) hk
  have hfit := add_pow_le hz.le l.isLt hdvd
  have hnext : (l + (1#32 <<< z)).toNat = (l.toNat + 2 ^ z) % 2 ^ 32 := by
    rw [BitVec.toNat_add, toNat_one_shiftLeft hz]
  refine ⟨k, hk, ?_, hku⟩
  rw [hnext]
  rcases Nat.eq_or_lt_of_le hfit with hend | hlt
  · rw [hend, Nat.mod_self]
    exact Nat.zero_le _
  · rw [Nat.mod_eq_of_lt hlt]
    rcases Nat.eq_or_lt_of_le hlk with heq | hbelow
    · -- at the top block itself the call goes to `2 ^ 32`
      have hl : l.toNat + 2 ^ k = 2 ^ 32 := by omega
      have hctz := ctz_top hk hl
      have hzk := htop (by rw [hctz, hl])
      rw [hzk, hctz] at hlt
      omega
    · rcases Nat.lt_or_ge z k with hzk | hkz
      · -- both ends are multiples of `2 ^ z`
        obtain ⟨i, hi⟩ := hdvd
        obtain ⟨j, hj⟩ : 2 ^ z ∣ 2 ^ 32 - 2 ^ k :=
          Nat.dvd_sub (pow_dvd_pow 2 hz.le) (pow_dvd_pow 2 hzk.le)
        rw [hi, hj] at hbelow ⊢
        rw [← Nat.mul_succ]
        exact Nat.mul_le_mul_left _ (Nat.lt_of_mul_lt_mul_left hbelow)
      · have hpow : (2 : Nat) ^ k ≤ 2 ^ z := Nat.pow_le_pow_right (by norm_num) hkz
        have hnextdvd : 2 ^ z ∣ l.toNat + 2 ^ z := (Nat.dvd_add_right hdvd).mpr (dvd_refl _)
        have := add_pow_le hz.le hlt hnextdvd
        omega

theorem Wraps.not_ok {u : BitVec 32} (bits : BitVec 32) (room : Nat) :
    ∀ {l : BitVec 32} {r r' : List (BitVec 32 × BitVec 8)}, Wraps l u →
      drpcLoop u bits room l r ≠ .ok r' := by
  induction room with
  | zero =>
    intro l r r' hwrap hrun
    have hle : l ≤ u := by
      obtain ⟨k, -, hl, hu⟩ := hwrap
      exact le_trans hl hu
    rw [drpcLoop, if_pos hle] at hrun
    cases hcall : drpc l u bits with
    | error e =>
      rw [hcall] at hrun
      cases hrun
    | ok q =>
      rw [hcall] at hrun
      cases hrun
  | succ room ih =>
    intro l r r' hwrap hrun
    have hle : l ≤ u := by
      obtain ⟨k, -, hl, hu⟩ := hwrap
      exact le_trans hl hu
    rw [drpcLoop, if_pos hle] at hrun
    cases hcall : drpc l u bits with
    | error e =>
      rw [hcall] at hrun
      cases hrun
    | ok q =>
      rw [hcall] at hrun
      exact ih (hwrap.step hcall) hrun

/-- With `room` slots the loop ends exactly when the range does not wrap and its cover fits. -/
theorem drpcLoop_ok_iff (l u bits : BitVec 32) (room : Nat) :
    (∃ r, drpcLoop u bits room l [] = .ok r) ↔
      ¬ Wraps l u ∧ coverLength l.toNat (u.toNat + 1) ≤ room := by
  by_cases hwrap : Wraps l u
  · refine iff_of_false ?_ fun h => h.1 hwrap
    rintro ⟨r, hrun⟩
    exact hwrap.not_ok bits room hrun
  · obtain ⟨bs, hg, hrun⟩ := drpcLoop_greedy bits l hwrap
    rw [hrun, hg.length_eq]
    constructor
    · rintro ⟨r, hr⟩
      split_ifs at hr with hroom
      exact ⟨hwrap, hroom⟩
    · rintro ⟨-, hroom⟩
      exact ⟨_, if_pos hroom⟩

theorem drpc_advances {l u : BitVec 32} (bits : BitVec 32) (hle : l ≤ u) (hwrap : ¬ Wraps l u) :
    ∃ l' p, drpc l u bits = .ok (l', p) ∧ l.toNat < l'.toNat ∧ l'.toNat ≤ u.toNat + 1 := by
  obtain ⟨hu, hlz⟩ := add_ctz_lt hle hwrap
  obtain ⟨z, l', hrun, hl', hz0, hfit⟩ := drpc_eq bits hle hu hlz
  have hpos := Nat.two_pow_pos z
  refine ⟨l', _, hrun, by omega, ?_⟩
  rcases Nat.eq_zero_or_pos l.toNat with h0 | hl
  · rw [hl', h0, hz0 h0]
    omega
  · rw [hl']
    exact (hfit hl).le

/-- **The end of the port loop**, for any bounds of 32 bits: the call at `l` advances within the range
and the loop over the slots of `range` ends, exactly when the range holds no `2 ^ 32 - 2 ^ k` and its
cover has no more blocks than there are slots. -/
theorem drpcLoop_ends_iff (l u bits : BitVec 32) :
    ((l ≤ u → ∃ l' p, drpc l u bits = .ok (l', p) ∧ l.toNat < l'.toNat ∧ l'.toNat ≤ u.toNat + 1) ∧
      ∃ r, drpcLoop u bits rangeSlots l [] = .ok r) ↔
    (∀ k < 32, ¬ (l.toNat ≤ 2 ^ 32 - 2 ^ k ∧ 2 ^ 32 - 2 ^ k ≤ u.toNat)) ∧
      coverLength l.toNat (u.toNat + 1) ≤ rangeSlots := by
  have hfree : (∀ k < 32, ¬ (l.toNat ≤ 2 ^ 32 - 2 ^ k ∧ 2 ^ 32 - 2 ^ k ≤ u.toNat)) ↔
      ¬ Wraps l u := by
    simp only [Wraps, not_exists, not_and]
  rw [drpcLoop_ok_iff, hfree]
  exact and_iff_right_of_imp fun h hle => drpc_advances bits hle h.1

/-- From the largest port that the loader stores the next `l` is `0`, and the call at `2` does not
stop. The range `0..65534` does not wrap, but takes `31` prefixes. -/
theorem drpcLoop_ends_top :
    (¬ ((0xFFFFFFFF#32 ≤ 0xFFFFFFFF#32 → ∃ l' p,
          drpc 0xFFFFFFFF#32 0xFFFFFFFF#32 (BitVec.ofNat 32 portBits) = .ok (l', p) ∧
            (0xFFFFFFFF#32).toNat < l'.toNat ∧ l'.toNat ≤ (0xFFFFFFFF#32).toNat + 1) ∧
        ∃ r, drpcLoop 0xFFFFFFFF#32 (BitVec.ofNat 32 portBits) rangeSlots 0xFFFFFFFF#32 [] =
          .ok r) ∧
      drpc 2#32 0xFFFFFFFF#32 (BitVec.ofNat 32 portBits) = .error .shift) ∧
    ¬ ∃ r, drpcLoop 65534#32 (BitVec.ofNat 32 portBits) rangeSlots 0#32 [] = .ok r := by
  refine ⟨⟨fun h => ?_, by decide⟩, fun h => ?_⟩
  · obtain ⟨-, hrun⟩ := h
    exact ((drpcLoop_ok_iff _ _ _ _).mp hrun).1 ⟨0, by norm_num, by decide, by decide⟩
  · exact absurd ((drpcLoop_ok_iff _ _ _ _).mp h).2 (by decide)

end AtomicPredicate
