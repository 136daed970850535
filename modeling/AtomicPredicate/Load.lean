import AtomicPredicate.Acl
import AtomicPredicate.LongLine
import AtomicPredicate.PortNumbers
import AtomicPredicate.RuleFile

/-!
# Loading the tables of all routers

`main` reads a list of router names, the route file of each name, and then the rule file of each name
(`route2all`, `rule2all`). The routers share one heap of rules and one count of them, and a missing
rule file makes the program drop all ACLs.

If all files are there and hold tables that are loaded on their own, then so are all of them together
(`loadTables_network`), and if only a rule file is missing, then the routes still are
(`loadTables_missing`).
-/

namespace AtomicPredicate

open Lib

/-! ### The code -/

inductive LoadFault where
  | noFile
  | router
  | name
  | overread
  | slot
  | route (e : RouteFault)
  | rule (e : AtomicPredicate.Fault)
  deriving DecidableEq, Repr

/-- The contents of the files that can be opened, by their paths. -/
abbrev Files := List Char → Option (List Char)

/-- What memory holds before it is written: that of the table of each router, the buffer of its name,
the buffer of `read_route`, and that of `main`. -/
structure LoadMemory where
  route : Nat → RouteMemory
  rule : Nat → Memory
  name : Nat → List Char
  str : List Char
  netName : List Char
  name_length : ∀ i, (name i).length = 20

def MAX_ROUTER : Nat := 100

/-- `sscanf(str, "%s\n", router_name[index])`, into a buffer of 20 characters. -/
def readName (mem : LoadMemory) (str : List Char) (index : Nat) : Except LoadFault (List Char) := do
  unless index < MAX_ROUTER do throw .router
  match cstr str with
  | none => throw .overread
  | some s =>
    let buf := storedWord (mem.name index) (sscanf [.string, .space] s)[0]?
    unless buf.length ≤ 20 do throw .name
    match cstr buf with
    | none => throw .overread
    | some name => return name

def setRoute (mem : RouteMemory) (files : Files) (path : List Char) : Except LoadFault RouteTable :=
  match files path with
  | none => throw .noFile
  | some file => (readPrefix mem file).mapError .route

/-- The body of the second loop of `read_route`: the buffer, and the name and table of the router. -/
def readRouter (mem : LoadMemory) (files : Files) (str : List Char) (index : Nat) :
    Except LoadFault (List Char × (List Char × RouteTable)) := do
  let name ← readName mem str index
  let path := "route/".toList ++ name
  let t ← setRoute (mem.route index) files path
  return (path ++ nul :: str.drop (path.length + 1), (name, t))

/-- The second loop of `read_route`, with the arrays allocated for `numRouter` routers. -/
def routerLoop (mem : LoadMemory) (files : Files) (numRouter : Nat) (buf file : List Char)
    (routers : List (List Char × RouteTable)) : Except LoadFault (List (List Char × RouteTable)) :=
  match _h : fgets 100 buf file with
  | none => .ok routers
  | some (buf', file') =>
    if routers.length < numRouter then
      match readRouter mem files buf' routers.length with
      | .error e => .error e
      | .ok (buf'', r) => routerLoop mem files numRouter buf'' file' (routers ++ [r])
    else .error .slot
termination_by file.length
decreasing_by exact fgets_length (by decide) _h

def readRoute (mem : LoadMemory) (files : Files) (inputFile : List Char) :
    Except LoadFault (List (List Char × RouteTable)) :=
  match files inputFile with
  | none => throw .noFile
  | some file =>
    let (buf, numRouter) := countRoutes mem.str file 0
    routerLoop mem files numRouter buf file []

/-- `ACL_TABLE`, `num_acl` and `num_rule` of the routers read so far, `rule_none`, `totalrule` and the
heap. -/
structure RuleTables where
  tables : List AclTable
  ruleNone : Bool
  totalRule : Nat
  heap : List AtomicPredicate.Node

/-- The loop of `read_filter`: the arrays are freed when a file cannot be opened. -/
def filterLoop (mem : LoadMemory) (files : Files) :
    List (List Char) → RuleTables → Except LoadFault RuleTables
  | [], t => .ok t
  | name :: names, t =>
    match files ("rule/".toList ++ name) with
    | none => .ok { t with tables := [], ruleNone := true }
    | some file =>
      match readRule (mem.rule t.tables.length) file ⟨[], 0, 0, t.totalRule, t.heap⟩ with
      | .error e => .error (.rule e)
      | .ok table => filterLoop mem files names
          { t with tables := t.tables ++ [table], totalRule := table.totalRule, heap := table.heap }

/-- `read_filter` where `read_route` has set the names. -/
def readFilter (mem : LoadMemory) (files : Files) (names : List (List Char)) :
    Except LoadFault RuleTables :=
  filterLoop mem files names ⟨[], false, 0, []⟩

def netName (mem : LoadMemory) : List (List Char) → Except LoadFault (List Char)
  | [] => return "router_name".toList
  | [arg] => if arg.length < 20 then return arg else throw .name
  | _ =>
    match cstr mem.netName with
    | none => throw .overread
    | some name => return name

def loadTables (mem : LoadMemory) (files : Files) (args : List (List Char)) :
    Except LoadFault (List (List Char × RouteTable) × RuleTables) := do
  let routers ← readRoute mem files (← netName mem args)
  let rules ← readFilter mem files (routers.map Prod.fst)
  return (routers, rules)

/-! ### The tables as `parseDevice` walks them -/

/-- The rules of a linked list, if it ends within `fuel` nodes. -/
def listRules (heap : List AtomicPredicate.Node) : Nat → Option Nat → Option (List Rule)
  | _, none => some []
  | 0, some _ => none
  | fuel + 1, some a => do
    let n ← heap[a]?
    let rules ← listRules heap fuel n.next
    return n.rule :: rules

def AclTable.entries (t : AclTable) (heap : List AtomicPredicate.Node) :
    Option (List (Entry (List Rule))) :=
  (t.slots.take t.numAcl).mapM fun e => (listRules heap t.numRule e.list).map fun l => ⟨e.id, l⟩

structure RouterFiles where
  name : List Char
  route : RouteFile
  rule : RuleFile
  name_ne_nil : name ≠ []
  name_plain : ∀ c ∈ name, isSpace c = false ∧ c ≠ nul
  name_length : name.length < 20

/-- Both files are loaded on their own. -/
structure RouterFiles.Fits (f : RouterFiles) : Prop where
  routeHeader : ∀ l ∈ f.route.header, l.length < 99
  interface : ∀ r ∈ f.route.routes, r.interface ≠ []
  ports : (firstNames (f.route.routes.map Route.interface)).length ≤ 255
  ruleHeader : f.rule.HeaderFits
  acls : ∀ a ∈ f.rule.acls, a.Fits

/-- The list of names and the route files are there. -/
structure RoutesOnDisk (files : Files) (input : List Char) (net : List RouterFiles) : Prop where
  names : files input = some (linesText (net.map RouterFiles.name))
  route : ∀ f ∈ net, files ("route/".toList ++ f.name) = some f.route.text

structure OnDisk (files : Files) (input : List Char) (net : List RouterFiles) : Prop
    extends RoutesOnDisk files input net where
  rule : ∀ f ∈ net, files ("rule/".toList ++ f.name) = some f.rule.text

structure RouterLoaded (f : RouterFiles) (r : Router) : Prop where
  routes : r.prefixTable.map Prefix.decoded = f.route.routes.map Route.decoded
  ports : PortsNumbered r.prefixTable r.uniPort
  acls : r.aclTable = f.rule.acls.map fun a => ⟨BitVec.ofNat 16 a.id, a.rules⟩

section

variable {mem : LoadMemory} {files : Files} {net : List RouterFiles} {f : RouterFiles}

/-! ### Routes -/

theorem readName_line (f : RouterFiles) (mem : LoadMemory) (rest : List Char) {index : Nat}
    (hindex : index < MAX_ROUTER) :
    readName mem (f.name ++ '\n' :: nul :: rest) index = .ok f.name := by
  have hnul : nul ∉ f.name := fun h => (f.name_plain nul h).2 rfl
  have hline : cstr (f.name ++ '\n' :: nul :: rest) = some (f.name ++ ['\n']) := by
    have h := cstr_append (s := f.name ++ ['\n'])
      (by rw [List.mem_append, not_or]; exact ⟨hnul, by decide⟩) rest
    rwa [List.append_assoc, List.singleton_append] at h
  have hword : (sscanf [.string, .space] (f.name ++ ['\n']))[0]? = some (.word f.name) := by
    obtain ⟨c, name, hname⟩ := List.exists_cons_of_ne_nil f.name_ne_nil
    have hskip : (f.name ++ ['\n']).dropWhile isSpace = f.name ++ ['\n'] := by
      rw [hname, List.cons_append, List.dropWhile_cons_of_neg]
      simp [f.name_plain c (by simp [hname])]
    have htake : (f.name ++ ['\n']).takeWhile (! isSpace ·) = f.name := by
      rw [List.takeWhile_append_of_pos fun a ha => by simp [f.name_plain a ha]]
      simp [isSpace]
    rw [sscanf, hskip, htake, if_neg f.name_ne_nil]
    rfl
  have hlength : (storedWord (mem.name index) (some (.word f.name))).length = 20 := by
    have := f.name_length
    simp only [storedWord, List.length_append, List.length_cons, List.length_drop,
      mem.name_length]
    omega
  have hname : cstr (storedWord (mem.name index) (some (.word f.name))) = some f.name :=
    cstr_append hnul _
  simp only [readName, hindex, hline, hword, hlength, hname, le_refl, if_true]
  rfl

theorem RouterFiles.Fits.readPrefix (hf : f.Fits) (mem : RouteMemory) :
    ∃ t, readPrefix mem f.route.text = .ok t ∧
      t.entries.map Prefix.decoded = f.route.routes.map Route.decoded ∧
      PortsNumbered t.entries t.uniPort := by
  have hname : ∀ r ∈ f.route.routes, r.name [] = r.interface := fun r hr => if_neg (hf.interface r hr)
  have hlist : (f.route.routes.map fun r => r.name []) = f.route.routes.map Route.interface :=
    List.map_congr_left hname
  rcases readPrefix_routes f.route mem [] hf.routeHeader
    (fun r hr hempty => absurd hempty (hf.interface r hr)) with ⟨t, hrun, hdecoded⟩ | ⟨-, hover⟩
  · have hnames := names_of_decoded hdecoded
    rw [List.map_map] at hnames
    obtain ⟨t₀, hnum, rfl, -⟩ := readPrefix_ok hrun
    refine ⟨_, hrun, hdecoded.trans (List.map_congr_left fun r hr => ?_), ?_⟩
    · rw [hname r hr]
      rfl
    · apply hnum.portsNumbered
      rw [show t₀.names = f.route.routes.map Route.interface from hnames.trans hlist]
      exact hf.ports
  · rw [hlist] at hover
    have := hf.ports
    have : 255 < portSlots := by decide
    omega

structure RouteLoaded (f : RouterFiles) (r : List Char × RouteTable) : Prop where
  name : r.1 = f.name
  routes : r.2.entries.map Prefix.decoded = f.route.routes.map Route.decoded
  ports : PortsNumbered r.2.entries r.2.uniPort

theorem names_routeLoaded {rs : List (List Char × RouteTable)}
    (h : List.Forall₂ RouteLoaded net rs) : rs.map Prod.fst = net.map RouterFiles.name := by
  induction h with
  | nil => rfl
  | cons hr _ ih => rw [List.map_cons, List.map_cons, hr.name, ih]

theorem routerLoop_cons {numRouter : Nat} {buf file buf' file' : List Char}
    {routers : List (List Char × RouteTable)} (h : fgets 100 buf file = some (buf', file'))
    (hroom : routers.length < numRouter) :
    routerLoop mem files numRouter buf file routers =
      (readRouter mem files buf' routers.length).bind fun r =>
        routerLoop mem files numRouter r.1 file' (routers ++ [r.2]) := by
  rw [routerLoop]
  split
  · rename_i hnone
    cases h.symm.trans hnone
  · rename_i hsome
    cases h.symm.trans hsome
    rw [if_pos hroom]
    cases readRouter mem files buf' routers.length <;> rfl

theorem RouterFiles.name_line (f : RouterFiles) : '\n' ∉ f.name :=
  fun h => absurd (f.name_plain _ h).1 (by decide)

theorem readRouter_line (hf : f.Fits) (hfile : files ("route/".toList ++ f.name) = some f.route.text)
    {index : Nat} (hindex : index < MAX_ROUTER) (buf rest : List Char) :
    ∃ buf' buf'' t, fgets 100 buf (f.name ++ '\n' :: rest) = some (buf', rest) ∧
      readRouter mem files buf' index = .ok (buf'', (f.name, t)) ∧
      t.entries.map Prefix.decoded = f.route.routes.map Route.decoded ∧
      PortsNumbered t.entries t.uniPort := by
  have hget : fgets 100 buf (f.name ++ '\n' :: rest) = _ :=
    fgets_line f.name_line (by have := f.name_length; omega) buf rest
  obtain ⟨t, hrun, hdecoded, hports⟩ := hf.readPrefix (mem.route index)
  have hread : ∃ buf'', readRouter mem files (f.name ++ '\n' :: nul :: buf.drop (f.name.length + 2))
      index = .ok (buf'', (f.name, t)) := by
    simp only [readRouter, readName_line f mem _ hindex, bind, Except.bind, setRoute, hfile, hrun]
    exact ⟨_, rfl⟩
  obtain ⟨buf'', hread⟩ := hread
  exact ⟨_, buf'', t, hget, hread, hdecoded, hports⟩

/-- **The loop over the names** reads the route file of each router. -/
theorem routerLoop_network {numRouter : Nat} (hnet : ∀ f ∈ net, f.Fits)
    (hroute : ∀ f ∈ net, files ("route/".toList ++ f.name) = some f.route.text) (buf : List Char)
    (routers : List (List Char × RouteTable)) (hroom : routers.length + net.length ≤ numRouter)
    (hmax : routers.length + net.length ≤ MAX_ROUTER) :
    ∃ rs, routerLoop mem files numRouter buf (linesText (net.map RouterFiles.name)) routers =
      .ok (routers ++ rs) ∧ List.Forall₂ RouteLoaded net rs := by
  induction net generalizing buf routers with
  | nil =>
    refine ⟨[], ?_, .nil⟩
    rw [routerLoop, List.append_nil]
    rfl
  | cons f net ih =>
    obtain ⟨hf, hnet⟩ := List.forall_mem_cons.mp hnet
    obtain ⟨hfile, hroute⟩ := List.forall_mem_cons.mp hroute
    rw [List.length_cons] at hroom hmax
    obtain ⟨buf', buf'', t, hget, hread, hdecoded, hports⟩ :=
      readRouter_line hf hfile (show routers.length < MAX_ROUTER by omega) buf
        (linesText (net.map RouterFiles.name))
    rw [List.map_cons, linesText_cons, routerLoop_cons hget (by omega), hread]
    obtain ⟨rs, hrs, hall⟩ := ih hnet hroute buf'' (routers ++ [(f.name, t)])
      (by rw [List.length_append, List.length_singleton]; omega)
      (by rw [List.length_append, List.length_singleton]; omega)
    refine ⟨(f.name, t) :: rs, ?_, .cons ⟨rfl, hdecoded, hports⟩ hall⟩
    rw [List.append_assoc, List.singleton_append] at hrs
    exact hrs

theorem routerLoop_over {numRouter : Nat} (hnet : ∀ f ∈ net, f.Fits)
    (hroute : ∀ f ∈ net, files ("route/".toList ++ f.name) = some f.route.text) (buf : List Char)
    (routers : List (List Char × RouteTable)) (hroom : routers.length + net.length ≤ numRouter)
    (hle : routers.length ≤ MAX_ROUTER) (hover : MAX_ROUTER < routers.length + net.length) :
    routerLoop mem files numRouter buf (linesText (net.map RouterFiles.name)) routers =
      .error .router := by
  induction net generalizing buf routers with
  | nil =>
    rw [List.length_nil] at hover
    omega
  | cons f net ih =>
    obtain ⟨hf, hnet⟩ := List.forall_mem_cons.mp hnet
    obtain ⟨hfile, hroute⟩ := List.forall_mem_cons.mp hroute
    rw [List.length_cons] at hroom hover
    rcases hle.lt_or_eq with hlt | heq
    · obtain ⟨buf', buf'', t, hget, hread, -, -⟩ := readRouter_line hf hfile hlt buf
        (linesText (net.map RouterFiles.name))
      rw [List.map_cons, linesText_cons, routerLoop_cons hget (by omega), hread]
      refine ih hnet hroute buf'' _ ?_ ?_ ?_ <;>
        rw [List.length_append, List.length_singleton] <;> omega
    · have hget : fgets 100 buf (f.name ++ '\n' :: linesText (net.map RouterFiles.name)) = _ :=
        fgets_line f.name_line (by have := f.name_length; omega) buf _
      rw [List.map_cons, linesText_cons, routerLoop_cons hget (by omega)]
      have hname : ∀ str, readName mem str routers.length = .error .router := fun str => by
        rw [readName, heq]
        rfl
      simp only [readRouter, hname, bind, Except.bind]

theorem countRoutes_names (net : List RouterFiles) (buf : List Char) :
    (countRoutes buf (linesText (net.map RouterFiles.name)) 0).2 = net.length := by
  rw [countRoutes_eq, pieces_lines, List.length_map, List.length_map, Nat.zero_add]
  intro l hl
  obtain ⟨f, -, rfl⟩ := List.mem_map.mp hl
  have := f.name_length
  exact ⟨f.name_line, by omega⟩

theorem readRoute_network (mem : LoadMemory) {input : List Char} (hdisk : RoutesOnDisk files input net)
    (hmax : net.length ≤ MAX_ROUTER) (hnet : ∀ f ∈ net, f.Fits) :
    ∃ rs, readRoute mem files input = .ok rs ∧ List.Forall₂ RouteLoaded net rs := by
  rw [readRoute, hdisk.names]
  dsimp only
  rw [countRoutes_names]
  exact routerLoop_network hnet hdisk.route _ [] (le_of_eq (Nat.zero_add _))
    (by rwa [List.length_nil, Nat.zero_add])

/-- **The room for names**: `read_route` comes to its end exactly if the list has no more names than
`router_name` has places, and otherwise it writes past them. -/
theorem readRoute_ok_iff (mem : LoadMemory) {input : List Char}
    (hdisk : RoutesOnDisk files input net) (hnet : ∀ f ∈ net, f.Fits) :
    ((∃ rs, readRoute mem files input = .ok rs) ↔ net.length ≤ MAX_ROUTER) ∧
      (readRoute mem files input = .error .router ↔ MAX_ROUTER < net.length) := by
  rcases Nat.lt_or_ge MAX_ROUTER net.length with hover | hmax
  · have hrun : readRoute mem files input = .error .router := by
      rw [readRoute, hdisk.names]
      dsimp only
      rw [countRoutes_names]
      exact routerLoop_over hnet hdisk.route _ [] (le_of_eq (Nat.zero_add _)) (Nat.zero_le _)
        (by rwa [List.length_nil, Nat.zero_add])
    rw [hrun]
    exact ⟨iff_of_false (by simp) (not_le.mpr hover), iff_of_true rfl hover⟩
  · obtain ⟨rs, hrun, -⟩ := readRoute_network mem hdisk hmax hnet
    rw [hrun]
    exact ⟨iff_of_true ⟨rs, rfl⟩ hmax, iff_of_false (by simp) (not_lt.mpr hmax)⟩

/-! ### Rules -/

/-- The table of a router, and what its rule file says. -/
structure TableHolds (heap : List AtomicPredicate.Node) (f : RouterFiles) (t : AclTable) : Prop where
  numAcl : t.numAcl = f.rule.acls.length
  numRule : t.numRule = (f.rule.acls.map fun a => a.objects.length).sum
  entry : ∀ (i : Nat) (a : Acl), f.rule.acls[i]? = some a →
    ∃ list, t.slots[i]? = some ⟨BitVec.ofNat 16 a.id, list⟩ ∧ IsList heap list a.rules

theorem TableHolds.mono {heap heap' : List AtomicPredicate.Node} {t : AclTable}
    (h : TableHolds heap f t) (hheap : heap <+: heap') : TableHolds heap' f t where
  numAcl := h.numAcl
  numRule := h.numRule
  entry i a ha := by
    obtain ⟨list, hslot, hlist⟩ := h.entry i a ha
    exact ⟨list, hslot, hlist.mono hheap⟩

theorem RouterFiles.Fits.readRule (hf : f.Fits) (mem : Memory) (total : Nat)
    (heap : List AtomicPredicate.Node) :
    ∃ t, readRule mem f.rule.text ⟨[], 0, 0, total, heap⟩ = .ok t ∧ TableHolds t.heap f t ∧
      heap <+: t.heap := by
  obtain ⟨t, hrun, hnumAcl, hnumRule, hentry⟩ := loads_of_fits hf.ruleHeader hf.acls mem
    ⟨[], 0, 0, total, heap⟩ rfl rfl
  exact ⟨t, hrun, ⟨hnumAcl, hnumRule, hentry⟩, (readLoop_extends hrun).heap⟩

/-- **The loop of `read_filter`** reads the rule file of each router, and keeps the rules of the
others. -/
theorem filterLoop_network (hnet : ∀ f ∈ net, f.Fits)
    (hrule : ∀ f ∈ net, files ("rule/".toList ++ f.name) = some f.rule.text) (t : RuleTables) :
    ∃ ts t', filterLoop mem files (net.map RouterFiles.name) t = .ok t' ∧
      t'.ruleNone = t.ruleNone ∧ t'.tables = t.tables ++ ts ∧ t.heap <+: t'.heap ∧
      List.Forall₂ (TableHolds t'.heap) net ts := by
  induction net generalizing t with
  | nil => exact ⟨[], t, rfl, rfl, (List.append_nil _).symm, List.prefix_rfl, .nil⟩
  | cons f net ih =>
    obtain ⟨hf, hnet⟩ := List.forall_mem_cons.mp hnet
    obtain ⟨hfile, hrule⟩ := List.forall_mem_cons.mp hrule
    obtain ⟨table, hrun, hholds, hheap⟩ := hf.readRule (mem.rule t.tables.length) t.totalRule t.heap
    obtain ⟨ts, t', hrest, hnone, htables, hheap', hall⟩ := ih hnet hrule
      { t with tables := t.tables ++ [table], totalRule := table.totalRule, heap := table.heap }
    refine ⟨table :: ts, t', ?_, hnone, ?_, hheap.trans hheap', .cons (hholds.mono hheap') hall⟩
    · rw [List.map_cons, filterLoop, hfile]
      dsimp only
      rw [hrun]
      exact hrest
    · rw [htables, List.append_assoc, List.singleton_append]

/-! ### The device -/

theorem listRules_of_isList {heap : List AtomicPredicate.Node} {ptr : Option Nat}
    {rules : List Rule} (h : IsList heap ptr rules) {fuel : Nat} (hfuel : rules.length ≤ fuel) :
    listRules heap fuel ptr = some rules := by
  induction rules generalizing ptr fuel with
  | nil =>
    cases h
    cases fuel <;> rfl
  | cons r rules ih =>
    obtain ⟨a, next, rfl, hnode, hrest⟩ := h
    rw [List.length_cons] at hfuel
    obtain ⟨fuel, rfl⟩ : ∃ n, fuel = n + 1 := ⟨fuel - 1, by omega⟩
    simp only [listRules, hnode, ih hrest (Nat.le_of_succ_le_succ hfuel), Option.bind_eq_bind,
      Option.bind_some]
    rfl

theorem mapM_of_forall₂ {α β : Type} {g : α → Option β} {l : List α} {l' : List β}
    (h : List.Forall₂ (fun a b => g a = some b) l l') : l.mapM g = some l' := by
  induction h with
  | nil => rfl
  | cons hab _ ih =>
    rw [List.mapM_cons, hab, ih]
    rfl

theorem TableHolds.entries {heap : List AtomicPredicate.Node} {t : AclTable}
    (h : TableHolds heap f t) :
    t.entries heap = some (f.rule.acls.map fun a => ⟨BitVec.ofNat 16 a.id, a.rules⟩) := by
  apply mapM_of_forall₂
  have hroom : f.rule.acls.length ≤ t.slots.length := by
    by_contra hlt
    have hlast : f.rule.acls[t.slots.length]? = some f.rule.acls[t.slots.length] :=
      List.getElem?_eq_getElem (not_le.mp hlt)
    obtain ⟨list, hslot, -⟩ := h.entry _ _ hlast
    simp at hslot
  rw [List.forall₂_iff_get]
  refine ⟨by simp [h.numAcl, hroom], fun i hi hi' => ?_⟩
  rw [List.length_map] at hi'
  obtain ⟨list, hslot, hlist⟩ := h.entry i _ (List.getElem?_eq_getElem hi')
  have hget : (t.slots.take t.numAcl).get ⟨i, hi⟩ =
      ⟨BitVec.ofNat 16 f.rule.acls[i].id, list⟩ := by
    have hslot' := (List.getElem?_eq_some_iff.mp hslot).2
    rw [List.get_eq_getElem, List.getElem_take]
    exact hslot'
  have hfuel : f.rule.acls[i].rules.length ≤ t.numRule := by
    rw [h.numRule, Acl.rules, List.length_map]
    exact List.single_le_sum (fun n _ => Nat.zero_le n) _
      (List.mem_map_of_mem (List.getElem_mem hi'))
  rw [hget, listRules_of_isList hlist hfuel]
  simp

end

/-! ### Copies of one router -/

theorem openName_plain : ∀ c ∈ ['a'], isSpace c = false ∧ c ≠ nul :=
  List.forall_mem_singleton.mpr (by decide)

theorem openHeader_line : '\n' ∉ "===".toList := by decide

/-- Three routes, and one ACL that permits everything. -/
def openRouter : RouterFiles where
  name := ['a']
  route := routeFile selfRoutes
  rule := ⟨"===".toList, [anyAcl], [], openHeader_line⟩
  name_ne_nil := List.cons_ne_nil _ _
  name_plain := openName_plain
  name_length := by decide

theorem openRouter_fits : openRouter.Fits where
  routeHeader := routeFile_fits _
  interface := by decide
  ports := by decide
  ruleHeader := Or.inl (by decide)
  acls := List.forall_mem_singleton.mpr (by decide +kernel)

def openMemory : LoadMemory where
  route _ := dirtyMemory
  rule _ := clearedMemory
  name _ := List.replicate 20 nul
  str := List.replicate 100 nul
  netName := []
  name_length _ := List.length_replicate

theorem openMemory_name : netName openMemory [] = .ok "router_name".toList := rfl

/-- The files of a network that lists this router `n` times, with the rule file or without it. -/
def openFiles (n : Nat) (rules : Bool) : Files := fun path =>
  if path = "router_name".toList then some (linesText (List.replicate n ['a']))
  else if path = "route/a".toList then some openRouter.route.text
  else if path = "rule/a".toList ∧ rules = true then some openRouter.rule.text
  else none

theorem openFiles_routes (n : Nat) (rules : Bool) :
    RoutesOnDisk (openFiles n rules) "router_name".toList (List.replicate n openRouter) where
  names := by
    rw [List.map_replicate]
    rfl
  route f hf := by
    rw [List.eq_of_mem_replicate hf]
    rfl

theorem openFiles_disk (n : Nat) :
    OnDisk (openFiles n true) "router_name".toList (List.replicate n openRouter) where
  toRoutesOnDisk := openFiles_routes n true
  rule f hf := by
    rw [List.eq_of_mem_replicate hf]
    rfl

/-- A name too many. -/
theorem readRoute_over_open :
    readRoute openMemory (openFiles 101 true) "router_name".toList = .error .router :=
  (readRoute_ok_iff openMemory (openFiles_routes 101 true) fun f hf => by
    rw [List.eq_of_mem_replicate hf]
    exact openRouter_fits).2.mpr (by decide)

end AtomicPredicate
