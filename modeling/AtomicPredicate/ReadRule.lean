import AtomicPredicate.Data
import AtomicPredicate.Lib.CString

/-!
# Reading rule files

`readrule.c`: `read_rule` counts the lines of a file, allocates the table and hands each ACL to
`set_rule`, which walks over the line with `strtok` and appends a node to a linked list for every
object. A pointer to a node is its address in `heap`, or `none` for the node `head` on the stack.
Memory that was never written is a parameter, `Memory`.
-/

namespace AtomicPredicate

open Lib

/-! ### Memory -/

inductive Fault where
  | overread
  | nullPointer
  | slot
  deriving DecidableEq, Repr

/-- `struct RULE`. -/
structure Node where
  rule : Rule
  next : Option Nat

/-- What memory holds before it is written: a new node by its address, the node on the stack and
the slot of the table by the number of the ACL, and the buffer of `read_rule`. -/
structure Memory where
  malloc : Nat → Rule
  head : Nat → Node
  slot : Nat → Entry (Option Nat)
  str : List Char
  str_length : str.length = 50000

/-- What the tables indexed by `tableID` hold for one router, `totalrule` and the heap. -/
structure AclTable where
  slots : List (Entry (Option Nat))
  numAcl : Nat
  numRule : Nat
  totalRule : Nat
  heap : List Node

def deref : Option (List Char) → Except Fault (List Char)
  | none => throw .nullPointer
  | some p =>
    match cstr p with
    | none => throw .overread
    | some s => pure s

/-! ### Keys -/

inductive Key where
  | srcEnd
  | proto
  | srcBegin
  | srcIP
  | dstIP
  | srcMask
  | dstMask
  | dstBegin
  | dstEnd
  | action
  deriving DecidableEq, Repr

def keyOf (s : List Char) : Option Key :=
  if s = "transport_src_end".toList then some .srcEnd
  else if s = "ip_protocol".toList then some .proto
  else if s = "transport_src_begin".toList then some .srcBegin
  else if s = "src_ip".toList then some .srcIP
  else if s = "dst_ip".toList then some .dstIP
  else if s = "src_ip_mask".toList then some .srcMask
  else if s = "dst_ip_mask".toList then some .dstMask
  else if s = "transport_dst_begin".toList then some .dstBegin
  else if s = "transport_dst_end".toList then some .dstEnd
  else if s = "action".toList then some .action
  else none

/-- The loop that turns a wildcard mask into a prefix length. -/
def maskLoop (len tmp : BitVec 32) : BitVec 32 :=
  if tmp = 0 then len else maskLoop (len - 1) (tmp >>> 1)
termination_by tmp.toNat
decreasing_by
  rename_i h
  have hpos : tmp.toNat ≠ 0 := fun h0 => h (BitVec.eq_of_toNat_eq h0)
  rw [BitVec.toNat_ushiftRight, Nat.shiftRight_eq_div_pow]
  omega

/-- The switch of `set_rule`. A failed `sscanf` stores nothing. -/
def Key.assign (key : Key) (s : List Char) (r : Rule) : Rule :=
  match key with
  | .srcEnd => { r with srcPort := (r.srcPort.1, (scanU s).getD r.srcPort.2) }
  | .proto => { r with proto := (scanU s).getD r.proto }
  | .srcBegin => { r with srcPort := ((scanU s).getD r.srcPort.1, r.srcPort.2) }
  | .srcIP => { r with srcIP := (scanU s).getD r.srcIP }
  | .dstIP => { r with dstIP := (scanU s).getD r.dstIP }
  | .srcMask =>
    let srcmask := (scanU s).getD r.srcmask
    { r with srcmask := srcmask, srclen := maskLoop 32 srcmask }
  | .dstMask =>
    let dstmask := (scanU s).getD r.dstmask
    { r with dstmask := dstmask, dstlen := maskLoop 32 dstmask }
  | .dstBegin => { r with dstPort := ((scanU s).getD r.dstPort.1, r.dstPort.2) }
  | .dstEnd => { r with dstPort := (r.dstPort.1, (scanU s).getD r.dstPort.2) }
  | .action => { r with action := if s = "True".toList then 1 else 0 }

/-! ### `set_rule` -/

/-- The variables of `set_rule`, `listPtr` being `none` while it points to `head`. -/
structure Parse where
  head : Node
  listPtr : Option Nat
  heap : List Node
  numRule : Nat
  totalRule : Nat

namespace Parse

/-- `listPtr->next` -/
def next (p : Parse) : Option Nat :=
  match p.listPtr with
  | none => p.head.next
  | some a => p.heap[a]?.bind Node.next

/-- Write to `*listPtr`. -/
def modify (f : Node → Node) (p : Parse) : Parse :=
  match p.listPtr with
  | none => { p with head := f p.head }
  | some a => { p with heap := p.heap.modify a f }

/-- The new node behind `*listPtr`. -/
def append (mem : Memory) (p : Parse) : Parse :=
  let a := p.heap.length
  let p := p.modify fun n => { n with next := some a }
  { p with
    heap := p.heap ++ [⟨mem.malloc a, none⟩]
    numRule := p.numRule + 1
    totalRule := p.totalRule + 1 }

def advance (p : Parse) : Parse := { p with listPtr := p.next.or p.listPtr }

def start (mem : Memory) (key : Option Key) (p : Parse) : Parse :=
  if key = some .srcEnd then p.append mem else p

def store (key : Option Key) (s : Option (List Char)) (p : Parse) : Except Fault Parse :=
  match key with
  | none => pure p
  | some key => do
    let s ← deref (s.map (List.drop 2))
    let p := if key = .srcEnd then p.advance else p
    return p.modify fun n => { n with rule := key.assign s n.rule }

end Parse

def tok : List Char := "',".toList

def nextToken (t : Tokens) : Except Fault (Option (List Char) × Tokens) :=
  match strtok tok t with
  | none => throw .overread
  | some r => pure r

/-- One round of the loop: a key, its value, and the gap before the next key. -/
def setRuleRound (mem : Memory) (s : Option (List Char)) (t : Tokens) (p : Parse) :
    Except Fault (Parse × Option (List Char) × Tokens) := do
  let key := keyOf (← deref s)
  let p := p.start mem key
  let (s, t) ← nextToken t
  let p ← p.store key s
  let (_, t) ← nextToken t
  let (s, t) ← nextToken t
  return (p, s, t)

theorem bind_ok {α β : Type} {x : Except Fault α} {f : α → Except Fault β} {b : β} :
    (x >>= f) = .ok b ↔ ∃ a, x = .ok a ∧ f a = .ok b := by
  cases x with
  | error e =>
    constructor
    · intro h
      cases h
    · intro h
      obtain ⟨a, ha, -⟩ := h
      cases ha
  | ok a =>
    constructor
    · exact fun h => ⟨a, rfl, h⟩
    · intro h
      obtain ⟨a', ha, hf⟩ := h
      cases ha
      exact hf

theorem nextToken_ok {t t' : Tokens} {s : Option (List Char)} :
    nextToken t = .ok (s, t') ↔ strtok tok t = some (s, t') := by
  unfold nextToken
  cases strtok tok t with
  | none => simp
  | some r => simp [pure, Except.pure]

theorem setRuleRound_ok {mem : Memory} {s : Option (List Char)} {t : Tokens} {p : Parse}
    {res : Parse × Option (List Char) × Tokens} :
    setRuleRound mem s t p = .ok res ↔ ∃ name value gap t₁ t₂,
      deref s = .ok name ∧ strtok tok t = some (value, t₁) ∧
        (p.start mem (keyOf name)).store (keyOf name) value = .ok res.1 ∧
        strtok tok t₁ = some (gap, t₂) ∧ strtok tok t₂ = some (res.2.1, res.2.2) := by
  unfold setRuleRound
  constructor
  · intro h
    obtain ⟨name, hname, h⟩ := bind_ok.mp h
    obtain ⟨⟨value, t₁⟩, hvalue, h⟩ := bind_ok.mp h
    obtain ⟨p', hstore, h⟩ := bind_ok.mp h
    obtain ⟨⟨gap, t₂⟩, hgap, h⟩ := bind_ok.mp h
    obtain ⟨⟨s', t₃⟩, hkey, h⟩ := bind_ok.mp h
    cases h
    exact ⟨name, value, gap, t₁, t₂, hname, nextToken_ok.mp hvalue, hstore, nextToken_ok.mp hgap,
      nextToken_ok.mp hkey⟩
  · intro h
    obtain ⟨name, value, gap, t₁, t₂, hname, hvalue, hstore, hgap, hkey⟩ := h
    rw [hname]
    refine bind_ok.mpr ⟨name, rfl, bind_ok.mpr ⟨(value, t₁), nextToken_ok.mpr hvalue, ?_⟩⟩
    refine bind_ok.mpr ⟨res.1, hstore, bind_ok.mpr ⟨(gap, t₂), nextToken_ok.mpr hgap, ?_⟩⟩
    exact bind_ok.mpr ⟨(res.2.1, res.2.2), nextToken_ok.mpr hkey, rfl⟩

def setRuleLoop (mem : Memory) (s : Option (List Char)) (t : Tokens) (p : Parse) :
    Except Fault (Parse × Tokens) :=
  match _h : setRuleRound mem s t p with
  | .error e => .error e
  | .ok (p', none, t') => .ok (p', t')
  | .ok (p', some s', t') => setRuleLoop mem (some s') t' p'
termination_by t.rest.length
decreasing_by
  obtain ⟨_, _, _, _, _, -, h₁, -, h₂, h₃⟩ := setRuleRound_ok.mp _h
  have h₁ := (strtok_length h₁).1
  have h₂ := (strtok_length h₂).1
  have h₃ := (strtok_length h₃).2 (Option.some_ne_none _)
  dsimp only at h₃
  omega

/-- The table and the buffer after a call. -/
def setRule (mem : Memory) (str : List Char) (id : Int) (t : AclTable) :
    Except Fault (AclTable × List Char) := do
  unless t.numAcl < t.slots.length do throw .slot
  let slots := t.slots.modify t.numAcl fun e => { e with id := BitVec.ofInt 16 id }
  let (s, buf) ← nextToken ⟨str.take 3, str.drop 3⟩
  let (p, buf) ← setRuleLoop mem s buf
    ⟨mem.head t.numAcl, none, t.heap, t.numRule, t.totalRule⟩
  let p := if p.next ≠ none then p.modify fun n => { n with next := none } else p
  let slots := slots.modify t.numAcl fun e => { e with list := p.head.next }
  return (⟨slots, t.numAcl + 1, p.numRule, p.totalRule, p.heap⟩, buf.buffer)

/-! ### `read_rule` -/

def countLines (buf file : List Char) (n : Nat) : List Char × Nat :=
  match h : fgets 50000 buf file with
  | none => (buf, n)
  | some (buf', file') => countLines buf' file' (n + 1)
termination_by file.length
decreasing_by exact fgets_length (by decide) h

/-- `fgets` with its result unused: at the end of the file the buffer stays. -/
def readLine (buf file : List Char) : List Char × List Char :=
  (fgets 50000 buf file).getD (buf, file)

/-- An ID line in the buffer, and the line behind it. -/
def readEntry (mem : Memory) (buf file : List Char) (t : AclTable) :
    Except Fault (AclTable × List Char × List Char) := do
  let id := atoi (← deref (some buf))
  let (buf, file) := readLine buf file
  let (t, buf) ← setRule mem buf id t
  return (t, buf, file)

theorem readLine_length (buf file : List Char) : (readLine buf file).2.length ≤ file.length := by
  unfold readLine
  cases h : fgets 50000 buf file with
  | none => exact le_refl _
  | some r => exact le_of_lt (fgets_length (by decide) h)

theorem readEntry_ok {mem : Memory} {buf file : List Char} {t : AclTable}
    {res : AclTable × List Char × List Char} :
    readEntry mem buf file t = .ok res ↔ ∃ s, deref (some buf) = .ok s ∧
      setRule mem (readLine buf file).1 (atoi s) t = .ok (res.1, res.2.1) ∧
        (readLine buf file).2 = res.2.2 := by
  unfold readEntry
  constructor
  · intro h
    obtain ⟨s, hs, h⟩ := bind_ok.mp h
    obtain ⟨⟨t', buf'⟩, hset, h⟩ := bind_ok.mp h
    cases h
    exact ⟨s, hs, hset, rfl⟩
  · intro h
    obtain ⟨s, hs, hset, hfile⟩ := h
    refine bind_ok.mpr ⟨s, hs, bind_ok.mpr ⟨(res.1, res.2.1), hset, ?_⟩⟩
    show Except.ok (res.1, res.2.1, (readLine buf file).2) = _
    rw [hfile]

def readLoop (mem : Memory) (buf file : List Char) (t : AclTable) : Except Fault AclTable :=
  match _h : fgets 50000 buf file with
  | none => .ok t
  | some (buf', file') =>
    if buf'.head? = some '=' then .ok t
    else if buf'.head? = some '[' then readLoop mem buf' file' t
    else
      match _he : readEntry mem buf' file' t with
      | .error e => .error e
      | .ok (t', buf'', file'') => readLoop mem buf'' file'' t'
termination_by file.length
decreasing_by
  · exact fgets_length (by decide) _h
  · obtain ⟨_, -, -, hfile⟩ := readEntry_ok.mp _he
    have hlen := fgets_length (by decide) _h
    have hle := readLine_length buf' file'
    rw [hfile] at hle
    exact lt_of_le_of_lt hle hlen

def readRule (mem : Memory) (file : List Char) (t : AclTable) : Except Fault AclTable :=
  let (buf, lines) := countLines mem.str file t.numAcl
  let slots := (List.range ((lines - 2) / 2)).map mem.slot
  let (buf, file) := readLine buf file
  readLoop mem buf file { t with slots := slots, numAcl := 0 }

end AtomicPredicate
