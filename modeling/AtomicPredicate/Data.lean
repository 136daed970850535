import Mathlib.Data.BitVec
import Mathlib.Tactic.SplitIfs

/-!
# Data of the classifier

The records of `readroute.h` and `readrule.h`, the bit widths of `bddwrapper.h`, and packets. A
two-element port array is a pair, a C string is its characters, and a null-terminated list of rules
is a list. An `Entry` is generic in how its rule list is held: by pointer while a file is read, as
a list once it is loaded.
-/

namespace AtomicPredicate

def protocolBits : Nat := 8
def portBits : Nat := 16
def ipBits : Nat := 32
def totalBits : Nat := 104

/-- `struct PREFIX`: one route. -/
structure Prefix where
  ip : BitVec 32
  len : BitVec 8
  portID : BitVec 8
  interface : List Char
  deriving DecidableEq, Repr

/-- `struct RULE` without its link. -/
structure Rule where
  srcIP : BitVec 32
  dstIP : BitVec 32
  srcmask : BitVec 32
  dstmask : BitVec 32
  srclen : BitVec 32
  dstlen : BitVec 32
  srcPort : BitVec 32 × BitVec 32
  dstPort : BitVec 32 × BitVec 32
  proto : BitVec 32
  action : BitVec 32
  deriving DecidableEq, Repr

/-- `struct ENTRY`: one numbered ACL. -/
structure Entry (L : Type) where
  id : BitVec 16
  list : L
  deriving DecidableEq, Repr

/-- What the arrays indexed by `tableID` hold for one router: `PREFIX_TABLE`, `num_prefix`, `uni_port`,
`ACL_TABLE` and `num_acl`. -/
structure Router where
  prefixTable : List Prefix
  uniPort : Nat
  aclTable : List (Entry (List Rule))

/-- The tables of all routers, and the static variables of `bddwrapper.c`. -/
structure Device where
  routers : List Router
  varInit : Bool
  fwdPredicateSize : Nat

structure Packet where
  srcIP : BitVec 32
  dstIP : BitVec 32
  sport : BitVec 16
  dport : BitVec 16
  proto : BitVec 8
  deriving DecidableEq, Repr

/-- The packet as an assignment of the variables `init_field_var` lays out, each field most
significant bit first. -/
def Packet.assignment (p : Packet) (v : Nat) : Bool :=
  if v < 32 then p.srcIP.getMsbD v
  else if v < 64 then p.dstIP.getMsbD (v - 32)
  else if v < 80 then p.sport.getMsbD (v - 64)
  else if v < 96 then p.dport.getMsbD (v - 80)
  else p.proto.getMsbD (v - 96)

namespace Packet

variable (p : Packet)

theorem assignment_srcIP {i : Nat} (hi : i < 32) :
    p.assignment (0 + i) = p.srcIP.getMsbD i := by
  simp only [assignment, Nat.zero_add]
  rw [if_pos hi]

theorem assignment_dstIP {i : Nat} (hi : i < 32) :
    p.assignment (32 + i) = p.dstIP.getMsbD i := by
  simp only [assignment]
  rw [if_neg (by omega), if_pos (by omega), Nat.add_sub_cancel_left]

theorem assignment_sport {i : Nat} (hi : i < 16) :
    p.assignment (64 + i) = p.sport.getMsbD i := by
  simp only [assignment]
  rw [if_neg (by omega), if_neg (by omega), if_pos (by omega), Nat.add_sub_cancel_left]

theorem assignment_proto (i : Nat) :
    p.assignment (96 + i) = p.proto.getMsbD i := by
  simp only [assignment]
  rw [if_neg (by omega), if_neg (by omega), if_neg (by omega), if_neg (by omega),
    Nat.add_sub_cancel_left]

end Packet

end AtomicPredicate
