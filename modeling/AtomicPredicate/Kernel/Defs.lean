import AtomicPredicate.Buddy
import AtomicPredicate.Lib.Chain
import AtomicPredicate.Lib.Reach
import AtomicPredicate.Lib.Wp
import Mathlib.Data.Nat.Prime.Defs

/-!
# The node table of BuDDy

The package state of `kernel.c` and `bddop.c`, one level below the store of `Buddy`: the node table
with its hash chains and free list, the reference stack, and the cache of `bdd_apply` and `bdd_not`.
The state has one function for each field of `BddNode`; a `low` of `none` is the `-1` of a free node,
and the mark bit of `level` is a field of its own.

`bdd_error` ends the program with `exit`, as the default handler does. A memory access outside the
table or the reference stack is the fault `wild`, and a loop or recursion that does not end is the
fault `loop`. Whether `realloc` finds the memory for a table is up to the environment, and so is the
search for primes of `prime.c`.
-/

namespace AtomicPredicate

open Function Lib

/-- The error codes of `bdd_error` that the modelled functions use. -/
inductive BddError where
  | memory
  | var
  | range
  | brk
  | op
  | decvnum
  | nodenum
  | illbdd
  deriving DecidableEq, Repr

inductive KFault where
  | exit (e : BddError)
  | wild
  | loop
  | client (e : CFault)
  deriving DecidableEq, Repr

/-- What the package calls from outside itself. -/
structure Env where
  bddPrimeGte : Nat → Nat
  bddPrimeLte : Nat → Nat
  realloc : Nat → Bool
  gte_prime : ∀ n, 2 < n → (bddPrimeGte n).Prime ∧ n ≤ bddPrimeGte n
  lte_prime : ∀ n, 2 < n → (bddPrimeLte n).Prime ∧ 2 < bddPrimeLte n ∧ bddPrimeLte n ≤ n
  le_lte : ∀ p n, p.Prime → 2 < p → p ≤ n → p ≤ bddPrimeLte n

/-- The operators, in the order of their codes. -/
inductive Operator where
  | and
  | xor
  | or
  | nand
  | nor
  | imp
  | biimp
  | diff
  | less
  | invimp
  | not
  deriving DecidableEq, Repr

def Operator.code : Operator → Nat
  | and => 0
  | xor => 1
  | or => 2
  | nand => 3
  | nor => 4
  | imp => 5
  | biimp => 6
  | diff => 7
  | less => 8
  | invimp => 9
  | not => 10

/-- Operator results, one row for each operator; the column is `left << 1 | right`. -/
def oprres : List (List Nat) :=
  [[0, 0, 0, 1],
   [0, 1, 1, 0],
   [0, 1, 1, 1],
   [1, 1, 1, 0],
   [1, 0, 0, 0],
   [1, 1, 0, 1],
   [1, 0, 0, 1],
   [0, 0, 1, 0],
   [0, 1, 0, 0],
   [1, 0, 1, 1],
   [1, 1, 0, 0]]

structure BddCacheData where
  res : Nat
  a : Option Nat
  b : Nat
  c : Operator

structure Kernel extends Links where
  nodesize : Nat
  refcou : Nat → Nat
  level : Nat → Nat
  mark : Nat → Bool
  low : Nat → Option Nat
  high : Nat → Nat
  varnum : Nat
  varset : Nat → Nat
  /-- The entries below `bddrefstacktop`, the top one first. -/
  refstack : List Nat
  stacksize : Nat
  applycache : Nat → BddCacheData
  cachesize : Nat
  maxnodesize : Nat

abbrev KernelM := StateT Kernel (Except KFault)

namespace Kernel

def MAXVAR : Nat := 0x1FFFFF

def minfreenodes : Nat := 20

def DEFAULTMAXNODEINC : Nat := 50000

def bddError {β : Type} (e : BddError) : KernelM β := throw (.exit e)

/-! ### Hashing -/

def PAIR (a b : UInt32) : UInt32 := (a + b) * (a + b + 1) / 2 + a

def TRIPLE (a b c : UInt32) : UInt32 := PAIR c (PAIR a b)

/-- `NODEHASH`, for a table of `nodesize` nodes. -/
def NODEHASH (nodesize lvl l h : Nat) : Nat :=
  (TRIPLE (.ofNat lvl) (.ofNat l) (.ofNat h)).toNat % nodesize

def APPLYHASH (l r : Nat) (op : Operator) : Nat :=
  (TRIPLE (.ofNat l) (.ofNat r) (.ofNat op.code)).toNat

def NOTHASH (r : Nat) : Nat := r

/-! ### The reference stack -/

def INITREF : KernelM Unit := modify fun k => { k with refstack := [] }

def PUSHREF (a : Nat) : KernelM Unit := do
  let k ← get
  if k.refstack.length < k.stacksize then set { k with refstack := a :: k.refstack }
  else throw .wild

/-- The `a`th entry from the top, counted from one. -/
def READREF (a : Nat) : KernelM Nat := do
  match (← get).refstack[a - 1]? with
  | some r => pure r
  | none => throw .wild

def POPREF (a : Nat) : KernelM Unit := modify fun k => { k with refstack := k.refstack.drop a }

/-! ### Fields of a node -/

def LEVEL (n : Nat) : KernelM Nat := do
  return (← get).level n

/-- The low child. A caller would use the `-1` of a free node as an index. -/
def LOW (n : Nat) : KernelM Nat := do
  match (← get).low n with
  | some l => pure l
  | none => throw .wild

def HIGH (n : Nat) : KernelM Nat := do
  return (← get).high n

/-- `CHECK` and `CHECKa`: the argument is a node of the table. -/
def CHECK (r : Nat) : KernelM Unit := do
  let k ← get
  if r ≥ k.nodesize then bddError .illbdd
  else if r ≥ 2 ∧ k.low r = none then bddError .illbdd
  else pure ()

/-! ### Garbage collection -/

/-- The children of a node, for `bdd_mark`: none for a constant or a free node. -/
def kids (k : Kernel) (i : Nat) : Option (Nat × Nat) :=
  if i < 2 then none else (k.low i).map fun l => (l, k.high i)

/-- `bdd_operator_reset`, for the cache that is modelled. -/
def bddOperatorReset (k : Kernel) : Kernel :=
  { k with
    applycache := fun n =>
      if n < k.cachesize then { k.applycache n with a := none } else k.applycache n }

/-- The body of the second loop of `bdd_gbc`. -/
def gbcNode (n : Nat) (k : Kernel) : Kernel :=
  if k.mark n && (k.low n).isSome then
    let hash := NODEHASH k.nodesize (k.level n) ((k.low n).getD 0) (k.high n)
    { k with
      mark := update k.mark n false
      next := update k.next n (k.hash hash)
      hash := update k.hash hash n }
  else
    { k with
      low := update k.low n none
      next := update k.next n k.freepos
      freepos := n
      freenum := k.freenum + 1 }

def bddGbc : KernelM Unit := do
  let k ← get
  let counted := (List.range k.nodesize).filter fun n => 0 < k.refcou n
  match markAll k.kids (k.varnum + 2) (k.refstack.reverse ++ counted) k.mark with
  | none => throw .loop
  | some mark =>
    let k := { k with
      mark := mark
      hash := fun n => if n < k.nodesize then 0 else k.hash n
      freepos := 0
      freenum := 0 }
    set (bddOperatorReset ((List.range' 2 (k.nodesize - 2)).foldr gbcNode k))

/-- The body of the loop of `bdd_gbc_rehash`. -/
def rehashNode (n : Nat) (k : Kernel) : Kernel :=
  if (k.low n).isSome then
    let hash := NODEHASH k.nodesize (k.level n) ((k.low n).getD 0) (k.high n)
    { k with
      next := update k.next n (k.hash hash)
      hash := update k.hash hash n }
  else
    { k with
      next := update k.next n k.freepos
      freepos := n
      freenum := k.freenum + 1 }

def bddGbcRehash (k : Kernel) : Kernel :=
  (List.range' 2 (k.nodesize - 2)).foldr rehashNode { k with freepos := 0, freenum := 0 }

/-! ### The unique table -/

/-- The new size of the table, before the search for a prime. -/
def grownSize (k : Kernel) : Nat :=
  let size := k.nodesize <<< 1
  let size := if size > k.nodesize + DEFAULTMAXNODEINC then k.nodesize + DEFAULTMAXNODEINC else size
  if size > k.maxnodesize ∧ k.maxnodesize > 0 then k.maxnodesize else size

/-- The table with room for `size` nodes, its new nodes free. -/
def extend (size : Nat) (k : Kernel) : Kernel :=
  let new n := k.nodesize ≤ n ∧ n < size
  { k with
    nodesize := size
    refcou := fun n => if new n then 0 else k.refcou n
    hash := fun n => if n < size then 0 else k.hash n
    level := fun n => if new n then 0 else k.level n
    mark := fun n => if new n then false else k.mark n
    low := fun n => if new n then none else k.low n
    next := update (fun n => if new n then n + 1 else k.next n) (size - 1) k.freepos
    freepos := k.nodesize
    freenum := k.freenum + (size - k.nodesize) }

/-- `bdd_noderesize(1)`. -/
def bddNoderesize (env : Env) : KernelM Unit := do
  let k ← get
  if k.nodesize ≥ k.maxnodesize ∧ k.maxnodesize > 0 then pure ()
  else
    let size := env.bddPrimeLte k.grownSize
    if env.realloc size then set (bddGbcRehash (k.extend size))
    else bddError .memory

/-- Is this the node, in the search of `bdd_makenode`? -/
def isNode (k : Kernel) (level low high res : Nat) : Bool :=
  k.level res == level && k.low res == some low && k.high res == high

/-- The part of `bdd_makenode` that finds a free node: the bucket for the new node. -/
def makeRoom (env : Env) (level low high hash : Nat) : KernelM Nat := do
  if (← get).freepos ≠ 0 then return hash
  bddGbc
  let k ← get
  let hash ← if k.freenum * 100 / k.nodesize ≤ minfreenodes then do
      bddNoderesize env
      pure (NODEHASH (← get).nodesize level low high)
    else pure hash
  if (← get).freepos = 0 then bddError .nodenum
  return hash

/-- Take the first free node and put it in the bucket. -/
def buildNode (level low high hash : Nat) (k : Kernel) : Kernel :=
  let res := k.freepos
  { k with
    freepos := k.next res
    freenum := k.freenum - 1
    level := update k.level res level
    low := update k.low res (some low)
    high := update k.high res high
    next := update k.next res (k.hash hash)
    hash := update k.hash hash res }

def bddMakenode (env : Env) (level low high : Nat) : KernelM Nat := do
  if low = high then return low
  let k ← get
  let hash := NODEHASH k.nodesize level low high
  match search (k.isNode level low high) k.next (k.nodesize + 1) (k.hash hash) with
  | none => throw .loop
  | some res =>
    if res ≠ 0 then return res
    let hash ← makeRoom env level low high hash
    let res := (← get).freepos
    modify (buildNode level low high hash)
    return res

/-! ### Operators -/

/-- The node over two recursive calls: their results are pushed before it is made. -/
def branch (env : Env) (level lo hi : KernelM Nat) : KernelM Nat := do
  PUSHREF (← lo)
  PUSHREF (← hi)
  let res ← bddMakenode env (← level) (← READREF 2) (← READREF 1)
  POPREF 2
  return res

def notRec (env : Env) : Nat → Nat → KernelM Nat
  | 0, _ => throw .loop
  | depth + 1, r => do
    if r = 0 then return 1
    if r = 1 then return 0
    let k ← get
    let slot := NOTHASH r % k.cachesize
    let entry := k.applycache slot
    if entry.a = some r ∧ entry.c = .not then return entry.res
    let res ← branch env (LEVEL r) (do notRec env depth (← LOW r)) (do notRec env depth (← HIGH r))
    modify fun k => { k with
      applycache := update k.applycache slot
        { k.applycache slot with a := some r, c := .not, res := res } }
    return res

/-- The cases `apply_rec` answers at once. -/
def applyCase : Operator → Nat → Nat → Option Nat
  | .and, l, r =>
    if l = r then some l
    else if l = 0 ∨ r = 0 then some 0
    else if l = 1 then some r
    else if r = 1 then some l
    else none
  | .or, l, r =>
    if l = r then some l
    else if l = 1 ∨ r = 1 then some 1
    else if l = 0 then some r
    else if r = 0 then some l
    else none
  | .xor, l, r =>
    if l = r then some 0
    else if l = 0 then some r
    else if r = 0 then some l
    else none
  | .nand, l, r => if l = 0 ∨ r = 0 then some 1 else none
  | .nor, l, r => if l = 1 ∨ r = 1 then some 0 else none
  | .imp, l, r =>
    if l = 0 then some 1
    else if l = 1 then some r
    else if r = 1 then some 1
    else none
  | _, _, _ => none

def oprresAt (op : Operator) (l r : Nat) : Nat := (oprres.getD op.code []).getD (l <<< 1 ||| r) 0

def applyRec (env : Env) (applyop : Operator) : Nat → Nat → Nat → KernelM Nat
  | 0, _, _ => throw .loop
  | depth + 1, l, r => do
    if let some res := applyCase applyop l r then return res
    if l < 2 ∧ r < 2 then return oprresAt applyop l r
    let k ← get
    let slot := APPLYHASH l r applyop % k.cachesize
    let entry := k.applycache slot
    if entry.a = some l ∧ entry.b = r ∧ entry.c = applyop then return entry.res
    let res ←
      if k.level l = k.level r then
        branch env (LEVEL l) (do applyRec env applyop depth (← LOW l) (← LOW r))
          (do applyRec env applyop depth (← HIGH l) (← HIGH r))
      else if k.level l < k.level r then
        branch env (LEVEL l) (do applyRec env applyop depth (← LOW l) r)
          (do applyRec env applyop depth (← HIGH l) r)
      else
        branch env (LEVEL r) (do applyRec env applyop depth l (← LOW r))
          (do applyRec env applyop depth l (← HIGH r))
    modify fun k => { k with
      applycache := update k.applycache slot { a := some l, b := r, c := applyop, res := res } }
    return res

/-! ### The interface -/

def bddNot (env : Env) (r : Nat) : KernelM Nat := do
  CHECK r
  INITREF
  notRec env ((← get).varnum + 1) r

def bddApply (env : Env) (l r : Nat) (op : Operator) : KernelM Nat := do
  CHECK l
  CHECK r
  if op = .not then bddError .op
  else
    INITREF
    applyRec env op ((← get).varnum + 1) l r

def bddAddref (root : Nat) : KernelM Nat := do
  if root < 2 then return root
  let k ← get
  if root ≥ k.nodesize then bddError .illbdd
  else if k.low root = none then bddError .illbdd
  else
    set { k with
      refcou := if k.refcou root < MAXREF then update k.refcou root (k.refcou root + 1) else k.refcou }
    return root

def bddDelref (root : Nat) : KernelM Nat := do
  if root < 2 then return root
  let k ← get
  if root ≥ k.nodesize then bddError .illbdd
  else if k.low root = none then bddError .illbdd
  else if k.refcou root = 0 then bddError .brk
  else
    set { k with
      refcou := if k.refcou root ≠ MAXREF ∧ k.refcou root > 0 then
        update k.refcou root (k.refcou root - 1) else k.refcou }
    return root

def bddIthvar (var : Nat) : KernelM Nat := do
  let k ← get
  if var ≥ k.varnum then bddError .var else return k.varset (var * 2)

/-! ### Setting up -/

/-- The state after `bdd_init(initnodesize, cs)`. -/
def bddInit (env : Env) (initnodesize cs : Nat) : Kernel :=
  let nodesize := env.bddPrimeGte initnodesize
  { nodesize := nodesize
    refcou := fun n => if n < 2 then MAXREF else 0
    low := fun n => if n < 2 then some n else none
    high := fun n => if n < 2 then n else 0
    hash := fun _ => 0
    level := fun _ => 0
    mark := fun _ => false
    next := fun n => if n = nodesize - 1 then 0 else n + 1
    freepos := 2
    freenum := nodesize - 2
    varnum := 0
    varset := fun _ => 0
    refstack := []
    stacksize := 0
    applycache := fun _ => { a := none, b := 0, c := .and, res := 0 }
    cachesize := env.bddPrimeGte cs
    maxnodesize := 0 }

/-- The body of the loop of `bdd_setvarnum`: the two literals of the next variable. -/
def setvar (env : Env) : KernelM Unit := do
  let bddvarnum := (← get).varnum
  let pos ← bddMakenode env bddvarnum 0 1
  PUSHREF pos
  modify fun k => { k with varset := update k.varset (bddvarnum * 2) pos }
  let neg ← bddMakenode env bddvarnum 1 0
  modify fun k => { k with varset := update k.varset (bddvarnum * 2 + 1) neg }
  POPREF 1
  modify fun k => { k with
    refcou := update (update k.refcou (k.varset (bddvarnum * 2)) MAXREF)
      (k.varset (bddvarnum * 2 + 1)) MAXREF
    varnum := bddvarnum + 1 }

def setvars (env : Env) : Nat → KernelM Unit
  | 0 => pure ()
  | n + 1 => do
    setvar env
    setvars env n

def bddSetvarnum (env : Env) (num : Nat) : KernelM Unit := do
  let k ← get
  if num < 1 ∨ num > MAXVAR then bddError .range
  else if num < k.varnum then bddError .decvnum
  else if num = k.varnum then pure ()
  else
    set { k with refstack := [], stacksize := num * 2 + 4 }
    setvars env (num - k.varnum)
    modify fun k => { k with level := update (update k.level 0 num) 1 num }

end Kernel

end AtomicPredicate
