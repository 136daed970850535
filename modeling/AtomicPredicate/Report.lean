import AtomicPredicate.Lib.Print
import AtomicPredicate.Load

/-!
# What the program prints

`read_route` and `read_filter` print a line for each router and a total at the end. Here the loops are
written out once more with their `printf` calls. They load what the loops of `Load` load
(`printTables_prints`), and for a network whose files are there the printed numbers are those of the
files (`printTables_network`).

The computation of the predicates that follows has one message, for a field whose predicate is false.
It never comes to that (`converACLRule_silent`).
-/

namespace AtomicPredicate

open Lib

/-! ### The code -/

abbrev LoadPrint := PrintM LoadFault

/-- `"router %d: %d route, %d port\n"` -/
def routeReport (index route port : Nat) : List Char :=
  "router ".toList ++ decimal index ++ ": ".toList ++ decimal route ++ " route, ".toList ++
    decimal port ++ " port\n".toList

/-- `"router %d: %d rules\n"` -/
def ruleReport (index rules : Nat) : List Char :=
  "router ".toList ++ decimal index ++ ": ".toList ++ decimal rules ++ " rules\n".toList

/-- The second loop of `read_route`, with `total_route`. -/
def printRouters (mem : LoadMemory) (files : Files) (numRouter : Nat) (buf file : List Char)
    (routers : List (List Char × RouteTable)) (totalRoute : Nat) :
    LoadPrint (List (List Char × RouteTable) × Nat) :=
  match _h : fgets 100 buf file with
  | none => return (routers, totalRoute)
  | some (buf', file') =>
    if routers.length < numRouter then do
      let r ← silently (readRouter mem files buf' routers.length)
      puts (routeReport routers.length r.2.2.numPrefix r.2.2.uniPort)
      printRouters mem files numRouter r.1 file' (routers ++ [r.2]) (totalRoute + r.2.2.numPrefix)
    else throw .slot
termination_by file.length
decreasing_by exact fgets_length (by decide) _h

def printRoute (mem : LoadMemory) (files : Files) (inputFile : List Char) :
    LoadPrint (List (List Char × RouteTable)) :=
  match files inputFile with
  | none => throw .noFile
  | some file => do
    let first := countRoutes mem.str file 0
    let r ← printRouters mem files first.2 first.1 file [] 0
    puts ("total_route:".toList ++ decimal r.2 ++ ['\n'])
    return r.1

def RuleTables.add (t : RuleTables) (table : AclTable) : RuleTables :=
  { t with tables := t.tables ++ [table], totalRule := table.totalRule, heap := table.heap }

/-- `read_filter` where `read_route` has set the names. -/
def printFilter (mem : LoadMemory) (files : Files) :
    List (List Char) → RuleTables → LoadPrint RuleTables
  | [], t => do
    puts ("total rule:".toList ++ decimal t.totalRule ++ ['\n'])
    return t
  | name :: names, t =>
    match files ("rule/".toList ++ name) with
    | none => do
      puts "err: No rule table found\n".toList
      return { t with tables := [], ruleNone := true }
    | some file => do
      let table ← silently
        ((readRule (mem.rule t.tables.length) file ⟨[], 0, 0, t.totalRule, t.heap⟩).mapError .rule)
      puts (ruleReport t.tables.length table.numRule)
      printFilter mem files names (t.add table)

/-- `main` up to the call of `parseDevice`. -/
def printTables (mem : LoadMemory) (files : Files) (args : List (List Char)) :
    LoadPrint (List (List Char × RouteTable) × RuleTables) := do
  puts (if args.length ≤ 1 then [] else "usage: ./a.out router_name/table\n".toList)
  let input ← silently (netName mem args)
  puts "Reading Routing table...\n".toList
  let routers ← printRoute mem files input
  puts "=== Done ===\n".toList
  puts "Reading Rule table...\n".toList
  let rules ← printFilter mem files (routers.map Prod.fst) ⟨[], false, 0, []⟩
  puts "=== Done ===\n".toList
  return (routers, rules)

/-- The reports on the elements of a list, the first of them being number `index`. -/
def reports {α : Type} (report : Nat → α → List Char) : Nat → List α → List Char
  | _, [] => []
  | index, a :: l => report index a ++ reports report (index + 1) l

theorem reports_congr {α β : Type} {f : Nat → α → List Char} {g : Nat → β → List Char} {l : List α}
    {l' : List β} (h : List.Forall₂ (fun a b => ∀ i, f i a = g i b) l l') (i : Nat) :
    reports f i l = reports g i l' := by
  induction h generalizing i with
  | nil => rfl
  | cons hab _ ih => rw [reports, reports, hab i, ih (i + 1)]

/-! ### Loops -/

section

variable {mem : LoadMemory} {files : Files} {numRouter : Nat}

theorem printRouters_none {buf file : List Char} {routers : List (List Char × RouteTable)}
    {total : Nat} (h : fgets 100 buf file = none) :
    printRouters mem files numRouter buf file routers total = pure (routers, total) := by
  rw [printRouters]
  split
  · rfl
  · rename_i hsome
    cases h.symm.trans hsome

theorem printRouters_some {buf file buf' file' : List Char}
    {routers : List (List Char × RouteTable)} {total : Nat}
    (h : fgets 100 buf file = some (buf', file')) :
    printRouters mem files numRouter buf file routers total =
      if routers.length < numRouter then do
        let r ← silently (readRouter mem files buf' routers.length)
        puts (routeReport routers.length r.2.2.numPrefix r.2.2.uniPort)
        printRouters mem files numRouter r.1 file' (routers ++ [r.2]) (total + r.2.2.numPrefix)
      else throw .slot := by
  rw [printRouters]
  split
  · rename_i hnone
    cases h.symm.trans hnone
  · rename_i hsome
    cases h.symm.trans hsome
    rfl

theorem except_bind_ok {ε α β : Type} {x : Except ε α} {f : α → Except ε β} {b : β} :
    (x >>= f) = .ok b ↔ ∃ a, x = .ok a ∧ f a = .ok b := by
  cases x with
  | error e =>
    refine iff_of_false (fun h => by cases h) ?_
    rintro ⟨a, ha, -⟩
    cases ha
  | ok a =>
    constructor
    · exact fun h => ⟨a, rfl, h⟩
    · rintro ⟨a', ha, h⟩
      cases ha
      exact h

theorem mapError_ok {ε ε' α : Type} {x : Except ε α} {g : ε → ε'} {a : α} :
    x.mapError g = .ok a ↔ ∃ a', x = .ok a' ∧ a' = a := by
  cases x with
  | error e =>
    refine iff_of_false (fun h => by cases h) ?_
    rintro ⟨a', ha, -⟩
    cases ha
  | ok a' => simp [Except.mapError]

theorem readRouter_numPrefix {buf : List Char} {index : Nat}
    {r : List Char × (List Char × RouteTable)} (h : readRouter mem files buf index = .ok r) :
    r.2.2.numPrefix = r.2.2.entries.length := by
  obtain ⟨name, -, h⟩ := except_bind_ok.mp h
  obtain ⟨t, hset, heq⟩ := except_bind_ok.mp h
  obtain rfl := Except.ok.inj heq
  unfold setRoute at hset
  cases hfile : files ("route/".toList ++ name) with
  | none =>
    rw [hfile] at hset
    cases hset
  | some file =>
    rw [hfile] at hset
    obtain ⟨t', hread, rfl⟩ := mapError_ok.mp hset
    obtain ⟨t₀, hnum, rfl, -⟩ := readPrefix_ok hread
    show t₀.numPrefix = (t₀.slots.take t₀.numPrefix).length
    rw [List.length_take, min_eq_left hnum.filled]

def loadedReport (index : Nat) (r : List Char × RouteTable) : List Char :=
  routeReport index r.2.entries.length r.2.uniPort

/-- **The loop of `read_route`** reads what it reads without printing, and prints a report on each
router that it has read. -/
theorem printRouters_prints (mem : LoadMemory) (files : Files) (numRouter : Nat)
    (buf file : List Char) (routers : List (List Char × RouteTable)) (total : Nat) :
    (∃ e text, routerLoop mem files numRouter buf file routers = .error e ∧
      Prints (printRouters mem files numRouter buf file routers total) (.error e) text) ∨
    ∃ new, routerLoop mem files numRouter buf file routers = .ok (routers ++ new) ∧
      Prints (printRouters mem files numRouter buf file routers total)
        (.ok (routers ++ new, total + (new.map fun r => r.2.entries.length).sum))
        (reports loadedReport routers.length new) := by
  fun_induction routerLoop mem files numRouter buf file routers generalizing total with
  | case1 buf file routers h =>
    rw [printRouters_none h]
    refine Or.inr ⟨[], by rw [List.append_nil], ?_⟩
    rw [List.append_nil]
    exact .pure _
  | case2 buf file routers buf' file' h hroom e he =>
    rw [printRouters_some h, if_pos hroom, he]
    exact Or.inl ⟨e, [], rfl, (Prints.silently (.error e)).bind_error⟩
  | case3 buf file routers buf' file' h hroom buf'' r he ih =>
    rw [printRouters_some h, if_pos hroom, he]
    have hnum := readRouter_numPrefix he
    have first : ∀ {res : Except LoadFault _} {text : List Char},
        Prints (printRouters mem files numRouter buf'' file' (routers ++ [r])
          (total + r.2.numPrefix)) res text →
        Prints (silently (.ok (buf'', r)) >>= fun r => do
          puts (routeReport routers.length r.2.2.numPrefix r.2.2.uniPort)
          printRouters mem files numRouter r.1 file' (routers ++ [r.2]) (total + r.2.2.numPrefix))
          res (loadedReport routers.length r ++ text) := by
      intro res text hrest
      rw [loadedReport, ← hnum]
      exact (Prints.silently (.ok (buf'', r))).bind ((Prints.puts _).bind hrest)
    rcases ih (total + r.2.numPrefix) with ⟨e, text, he, hprints⟩ | ⟨new, hnew, hprints⟩
    · exact Or.inl ⟨e, _, he, first hprints⟩
    · refine Or.inr ⟨r :: new, ?_, ?_⟩
      · rw [hnew, List.append_assoc, List.singleton_append]
      · have h := first hprints
        rw [List.append_assoc, List.singleton_append, List.length_append, hnum, Nat.add_assoc] at h
        exact h
  | case4 buf file routers buf' file' h hroom =>
    rw [printRouters_some h, if_neg hroom]
    exact Or.inl ⟨.slot, [], rfl, .throw _⟩

theorem readLoop_total {buf file : List Char} {t t' : AclTable} {mem : Memory}
    (h : readLoop mem buf file t = .ok t') :
    t'.totalRule + t.numRule = t.totalRule + t'.numRule := by
  fun_induction readLoop mem buf file t with
  | case1 buf file t hfile =>
    cases h
    rfl
  | case2 buf file t buf' file' hfile hbreak =>
    cases h
    rfl
  | case3 buf file t buf' file' hfile hbreak hskip ih => exact ih h
  | case4 buf file t buf' file' hfile hbreak hskip e he => cases h
  | case5 buf file t buf' file' hfile hbreak hskip t₁ buf₁ file₁ he ih =>
    obtain ⟨-, -, _, _, happended⟩ := readEntry_appended he
    have hrest := ih h
    rw [happended.numRule, happended.totalRule] at hrest
    omega

def tableReport (index : Nat) (t : AclTable) : List Char := ruleReport index t.numRule

/-- **The loop of `read_filter`** reads what it reads without printing. It prints a report on each
table that it has read, and then the total or that a file is missing. -/
theorem printFilter_prints (mem : LoadMemory) (files : Files) (names : List (List Char))
    (t : RuleTables) :
    (∃ e text, filterLoop mem files names t = .error e ∧
      Prints (printFilter mem files names t) (.error e) text) ∨
    ∃ t' ts, filterLoop mem files names t = .ok t' ∧
      ((∀ name ∈ names, files ("rule/".toList ++ name) ≠ none) ∧
          t'.ruleNone = t.ruleNone ∧ t'.tables = t.tables ++ ts ∧
          Prints (printFilter mem files names t) (.ok t')
            (reports tableReport t.tables.length ts ++ ("total rule:".toList ++
              decimal (t.totalRule + (ts.map AclTable.numRule).sum) ++ ['\n'])) ∨
        (∃ name, names[ts.length]? = some name ∧ files ("rule/".toList ++ name) = none) ∧
          t'.ruleNone = true ∧ Prints (printFilter mem files names t) (.ok t')
            (reports tableReport t.tables.length ts ++ "err: No rule table found\n".toList)) := by
  induction names generalizing t with
  | nil =>
    refine Or.inr ⟨t, [], rfl, Or.inl ⟨fun name hname => absurd hname List.not_mem_nil, rfl,
      (List.append_nil _).symm, ?_⟩⟩
    rw [printFilter]
    exact (Prints.puts _).bind_pure
  | cons name names ih =>
    rw [printFilter, filterLoop]
    cases hfile : files ("rule/".toList ++ name) with
    | none =>
      refine Or.inr ⟨_, [], rfl, Or.inr ⟨⟨name, rfl, hfile⟩, rfl, ?_⟩⟩
      exact (Prints.puts _).bind_pure
    | some file =>
      dsimp only
      cases hread : readRule (mem.rule t.tables.length) file ⟨[], 0, 0, t.totalRule, t.heap⟩ with
      | error e => exact Or.inl ⟨.rule e, [], rfl, (Prints.silently (.error _)).bind_error⟩
      | ok table =>
        have htotal : table.totalRule = t.totalRule + table.numRule := readLoop_total hread
        have first : ∀ {res : Except LoadFault RuleTables} {text : List Char},
            Prints (printFilter mem files names (t.add table)) res text →
            Prints (silently ((Except.ok table : Except AtomicPredicate.Fault _).mapError .rule) >>=
              fun table => do
                puts (ruleReport t.tables.length table.numRule)
                printFilter mem files names (t.add table))
              res (tableReport t.tables.length table ++ text) := fun hrest =>
          (Prints.silently (.ok table)).bind ((Prints.puts _).bind hrest)
        have hlength : (t.add table).tables.length = t.tables.length + 1 := by
          simp [RuleTables.add]
        have hthere : files ("rule/".toList ++ name) ≠ none := fun h => by cases hfile.symm.trans h
        rcases ih (t.add table) with ⟨e, text, he, hprints⟩ | ⟨t', ts, ht', hcases⟩
        · exact Or.inl ⟨e, _, he, first hprints⟩
        refine Or.inr ⟨t', table :: ts, ht', ?_⟩
        rcases hcases with ⟨hall, hnone, htables, hprints⟩ | ⟨hmissing, hnone, hprints⟩
        · refine Or.inl ⟨List.forall_mem_cons.mpr ⟨hthere, hall⟩, hnone, ?_, ?_⟩
          · rw [htables]
            exact List.append_assoc _ [table] ts
          · have h := first hprints
            rw [hlength, show (t.add table).totalRule = t.totalRule + table.numRule from htotal,
              Nat.add_assoc, ← List.append_assoc] at h
            exact h
        · refine Or.inr ⟨hmissing, hnone, ?_⟩
          have h := first hprints
          rw [hlength, ← List.append_assoc] at h
          exact h

/-! ### All of it -/

/-- What is printed, around the reports on the routers and the tables. -/
def loadOutput (args : List (List Char)) (routes : List Char) (totalRoute : Nat)
    (rules : List Char) : List Char :=
  (if args.length ≤ 1 then [] else "usage: ./a.out router_name/table\n".toList) ++
    ("Reading Routing table...\n".toList ++ (routes ++ ("total_route:".toList ++
      decimal totalRoute ++ ['\n']) ++ ("=== Done ===\n".toList ++
        ("Reading Rule table...\n".toList ++ (rules ++ "=== Done ===\n".toList)))))

theorem printRoute_prints (mem : LoadMemory) (files : Files) (input : List Char) :
    (∃ e text, readRoute mem files input = .error e ∧
      Prints (printRoute mem files input) (.error e) text) ∨
    ∃ routers, readRoute mem files input = .ok routers ∧
      Prints (printRoute mem files input) (.ok routers)
        (reports loadedReport 0 routers ++ ("total_route:".toList ++
          decimal (routers.map fun r => r.2.entries.length).sum ++ ['\n'])) := by
  unfold printRoute readRoute
  cases files input with
  | none => exact Or.inl ⟨.noFile, [], rfl, .throw _⟩
  | some file =>
    rcases printRouters_prints mem files (countRoutes mem.str file 0).2
      (countRoutes mem.str file 0).1 file [] 0 with
      ⟨e, text, he, hprints⟩ | ⟨routers, hrun, hprints⟩
    · exact Or.inl ⟨e, text, he, hprints.bind_error⟩
    · rw [Nat.zero_add] at hprints
      exact Or.inr ⟨routers, hrun, hprints.bind (Prints.puts _).bind_pure⟩

theorem printTables_loaded {args : List (List Char)} {input : List Char} {totalRoute : Nat}
    {routers : List (List Char × RouteTable)} {rules : RuleTables} {routeText ruleText : List Char}
    (hname : netName mem args = .ok input)
    (hroute : Prints (printRoute mem files input) (.ok routers)
      (routeText ++ ("total_route:".toList ++ decimal totalRoute ++ ['\n'])))
    (hrule : Prints (printFilter mem files (routers.map Prod.fst) ⟨[], false, 0, []⟩) (.ok rules)
      ruleText) :
    Prints (printTables mem files args) (.ok (routers, rules))
      (loadOutput args routeText totalRoute ruleText) := by
  unfold printTables
  rw [hname]
  have named : ∀ {β : Type} {q : List Char → LoadPrint β} {res : Except LoadFault β}
      {text : List Char}, Prints (q input) res text →
      Prints (silently (.ok input) >>= q) res text := fun h => (Prints.silently (.ok input)).bind h
  exact (Prints.puts _).bind (named ((Prints.puts _).bind (hroute.bind ((Prints.puts _).bind
    ((Prints.puts _).bind (hrule.bind (Prints.puts _).bind_pure))))))

variable {net : List RouterFiles}

def RouterFiles.numRule (f : RouterFiles) : Nat := (f.rule.acls.map fun a => a.objects.length).sum

def RouterFiles.routeReport (index : Nat) (f : RouterFiles) : List Char :=
  AtomicPredicate.routeReport index f.route.routes.length
    ((firstNames (f.route.routes.map Route.interface)).length + 1)

def RouterFiles.ruleReport (index : Nat) (f : RouterFiles) : List Char :=
  AtomicPredicate.ruleReport index f.numRule

theorem RouteLoaded.length {f : RouterFiles} {r : List Char × RouteTable} (h : RouteLoaded f r) :
    r.2.entries.length = f.route.routes.length := by
  have hlength := congrArg List.length h.routes
  rwa [List.length_map, List.length_map] at hlength

theorem RouteLoaded.report {f : RouterFiles} {r : List Char × RouteTable} (h : RouteLoaded f r)
    (index : Nat) : loadedReport index r = f.routeReport index := by
  have hnames : r.2.entries.map Prefix.interface = f.route.routes.map Route.interface := by
    have hsnd := congrArg (List.map fun q => q.2.2) h.routes
    rw [List.map_map, List.map_map] at hsnd
    exact hsnd
  rw [loadedReport, RouterFiles.routeReport, h.length, h.ports.count, hnames]

theorem map_eq_map_of_forall₂ {α β γ : Type} {f : α → γ} {g : β → γ} {l : List α} {l' : List β}
    (h : List.Forall₂ (fun a b => g b = f a) l l') : l'.map g = l.map f := by
  induction h with
  | nil => rfl
  | cons hab _ ih => rw [List.map_cons, List.map_cons, hab, ih]

/-- **The printed counts** are those of the files: for each router its routes, its interfaces with the
one of dropped packets, and its rules. -/
theorem printTables_network (mem : LoadMemory) {args : List (List Char)} {input : List Char}
    (hargs : netName mem args = .ok input) (hdisk : OnDisk files input net)
    (hmax : net.length ≤ MAX_ROUTER) (hnet : ∀ f ∈ net, f.Fits) :
    ∃ res, loadTables mem files args = .ok res ∧
      Prints (printTables mem files args) (.ok res)
        (loadOutput args (reports RouterFiles.routeReport 0 net)
          (net.map fun f => f.route.routes.length).sum
          (reports RouterFiles.ruleReport 0 net ++ ("total rule:".toList ++
            decimal (net.map RouterFiles.numRule).sum ++ ['\n']))) := by
  obtain ⟨rs, hread, hrs⟩ := readRoute_network mem hdisk.toRoutesOnDisk hmax hnet
  have hnames := names_routeLoaded hrs
  obtain ⟨ts, rules, hrun, hnone, htables, -, hts⟩ : ∃ ts t',
      filterLoop mem files (net.map RouterFiles.name) ⟨[], false, 0, []⟩ = .ok t' ∧ _ :=
    filterLoop_network hnet hdisk.rule _
  refine ⟨(rs, rules), ?_, ?_⟩
  · simp only [loadTables, hargs, bind, Except.bind, hread, readFilter, hnames, hrun]
    rfl
  apply printTables_loaded hargs
  · -- the routes
    rcases printRoute_prints mem files input with ⟨e, text, he, -⟩ | ⟨rs', hread', hprints⟩
    · cases hread.symm.trans he
    obtain rfl := Except.ok.inj (hread.symm.trans hread')
    rw [reports_congr (hrs.imp fun f r hr index => (hr.report index).symm),
      ← map_eq_map_of_forall₂ (hrs.imp fun f r hr => hr.length)]
    exact hprints
  · -- the rules
    rw [hnames]
    rcases printFilter_prints mem files (net.map RouterFiles.name)
      ⟨[], false, 0, []⟩ with ⟨e, text, he, -⟩ | ⟨rules', ts', hrun', hcases⟩
    · cases hrun.symm.trans he
    obtain rfl := Except.ok.inj (hrun.symm.trans hrun')
    rcases hcases with ⟨-, -, htables', hprints⟩ | ⟨-, hnone', -⟩
    · obtain rfl : ts = ts' := List.append_cancel_left (htables.symm.trans htables')
      have hnum : ∀ f t, TableHolds rules.heap f t → t.numRule = f.numRule := fun f t ht => ht.numRule
      have hreport : ∀ f t, TableHolds rules.heap f t → ∀ index,
          RouterFiles.ruleReport index f = tableReport index t := fun f t ht index => by
        rw [tableReport, hnum f t ht]
        rfl
      rw [Nat.zero_add, map_eq_map_of_forall₂ (hts.imp hnum)] at hprints
      rw [reports_congr (hts.imp hreport)]
      exact hprints
    · cases hnone.symm.trans hnone'

theorem loadOutput_open :
    loadOutput [] (reports RouterFiles.routeReport 0 [openRouter])
      ([openRouter].map fun f => f.route.routes.length).sum
      (reports RouterFiles.ruleReport 0 [openRouter] ++ ("total rule:".toList ++
        decimal ([openRouter].map RouterFiles.numRule).sum ++ ['\n'])) =
    ("Reading Routing table...\nrouter 0: 3 route, 3 port\ntotal_route:3\n=== Done ===\n" ++
      "Reading Rule table...\nrouter 0: 1 rules\ntotal rule:1\n=== Done ===\n").toList := by
  decide +kernel

/-- What is printed for one router with three routes over two interfaces, and one rule. -/
theorem printTables_network_open : ∃ res,
    loadTables openMemory (openFiles 1 true) [] = .ok res ∧
      Prints (printTables openMemory (openFiles 1 true) []) (.ok res)
        ("Reading Routing table...\nrouter 0: 3 route, 3 port\ntotal_route:3\n=== Done ===\n" ++
          "Reading Rule table...\nrouter 0: 1 rules\ntotal rule:1\n=== Done ===\n").toList := by
  obtain ⟨res, hload, hprints⟩ := printTables_network openMemory openMemory_name (openFiles_disk 1)
    (by decide) (List.forall_mem_singleton.mpr openRouter_fits)
  refine ⟨res, hload, ?_⟩
  rw [← loadOutput_open]
  exact hprints

end

/-! ### The predicates -/

/-- The loop of `converACLRule` from round `i` on: the field that it reports as false, if it comes to
one. -/
def reportedField : Nat → List Handle → Option Nat
  | _, [] => none
  | i, f :: fields =>
    if f = bddtrue then reportedField (i + 1) fields
    else if f = bddfalse then some i
    else reportedField (i + 1) fields

theorem reportedField_eq_none {fields : List Handle} (h : bddfalse ∉ fields) (i : Nat) :
    reportedField i fields = none := by
  induction fields generalizing i with
  | nil => rfl
  | cons f fields ih =>
    rw [List.mem_cons, not_or] at h
    have hf : f ≠ bddfalse := fun heq => h.1 heq.symm
    rw [reportedField, if_neg hf, ih h.2, ite_self]

theorem exists_topBits (off n : Nat) (ip : BitVec 32) (len : Nat) : ∃ env, TopBits off n ip len env :=
  ⟨fun j => ip.getLsbD (n - 1 - (j - off)), fun i _ hi => by
    show ip.getLsbD (n - 1 - (off + (n - 1 - i) - off)) = ip.getLsbD i
    rw [Nat.add_sub_cancel_left, Nat.sub_sub_self (by omega)]⟩

theorem exists_portHit {off : Nat} {port : BitVec 32 × BitVec 32} (h : PortConverts port) :
    ∃ env, PortHit off port env := by
  rcases h with hany | ⟨r, hr, -⟩
  · exact ⟨fun _ => false, Or.inl hany⟩
  · obtain ⟨env, henv⟩ := exists_topBits off 16 (r.headD (0, 0)).1 (r.headD (0, 0)).2.toNat
    exact ⟨env, Or.inr ⟨r, hr, _, List.mem_cons_self, henv⟩⟩

theorem Rule.Converts.exists_fieldHit {acl : Rule} (h : acl.Converts) :
    ∀ P ∈ acl.fieldHits, ∃ env, P env := by
  obtain ⟨env, henv⟩ := exists_topBits 96 8 acl.proto 8
  simp only [Rule.fieldHits, List.forall_mem_cons, List.not_mem_nil, false_implies, implies_true,
    and_true]
  exact ⟨⟨env, Or.inr henv⟩, exists_portHit h.srcPort, exists_portHit h.dstPort,
    exists_topBits _ _ _ _, exists_topBits _ _ _ _⟩

/-- **`converACLRule` prints nothing**: no field predicate of a rule is ever false, so the branch of the
loop that reports one is never taken. -/
theorem converACLRule_silent (acl : Rule) (σ : Session) :
    (∃ e, fieldBdds acl σ.store = .error (.client e) ∧ acl.Fails e) ∨
      ∃ fieldBdd s, fieldBdds acl σ.store = .ok (fieldBdd, s) ∧
        reportedField 1 fieldBdd.tail = none := by
  rcases run_session (fieldBdds_triple acl) σ with
    ⟨hs, s, B, hrun, ⟨hconv, f, fields, rfl, rfl, hdenote⟩, hval, -, base, A, -, ho⟩ | ⟨e, hrun, hfails⟩
  · refine Or.inr ⟨_, s, hrun, reportedField_eq_none (fun hmem => ?_) 1⟩
    rw [List.tail_cons, List.mem_map] at hmem
    obtain ⟨p, hp, hfalse⟩ := hmem
    have hp' : p ∈ f :: fields := List.mem_cons_of_mem f hp
    -- the cell of the constant
    have hconst : s.value? p.1 = some (Robdd.const false) := by
      rw [hfalse, Store.value?, ho.permanent _ mem_permanent_false]
      rfl
    have hvalue : p.2 = Robdd.const false := Option.some.inj ((hval p hp').symm.trans hconst)
    obtain ⟨i, hi, rfl⟩ := List.getElem_of_mem hp'
    obtain ⟨hlength, hfields⟩ := List.forall₂_iff_get.mp hdenote
    have hi' : i < acl.fieldHits.length := hlength ▸ hi
    obtain ⟨env, henv⟩ := hconv.exists_fieldHit _ (List.getElem_mem hi')
    have hsat := (hfields i hi hi' env).mpr henv
    rw [List.get_eq_getElem, hvalue] at hsat
    cases hsat
  · exact Or.inl ⟨e, hrun, hfails⟩

end AtomicPredicate
