import FerrumDns.Plugin.HostsArgs
import FerrumDns.Sample
import FerrumDns.Text.Splitting

/-! What a table of host names answers. A line says which names its address belongs to; the
table read from a list of lines holds, under every key, the addresses of the lines that
name it, in their order, so that a look-up and the test for a known name agree. -/

namespace FerrumDns

open Text Dnsutil

namespace Hosts

variable (src : HostsSource)

/-! ### What a line says -/

/-- The part of a line before its comment. -/
def uncommented (line : Text) : Text := line.takeWhile (· ≠ '#')

/-- The address and the names on a line: the address comes first, or last after one name. -/
def reading (line : Text) : Option (IpAddr × List Text) :=
  match words (uncommented line) with
  | [] => none
  | first :: rest =>
    match src.parseAddr first with
    | .ok ip => some (ip, rest)
    | .error _ =>
      match rest with
      | [last] => (src.parseAddr last).toOption.map fun ip => (ip, [first])
      | _ => none

/-- The addresses a line gives to the names with this key, once for each time it names one. -/
def addressesOn (key line : Text) : List IpAddr :=
  match reading src line with
  | none => []
  | some (ip, names) => (names.filter (keyOf · = key)).map fun _ => ip

/-- Some line names the key. -/
def Lists (lines : List Text) (key : Text) : Prop :=
  ∃ line ∈ lines, ∃ ip names, reading src line = some (ip, names) ∧ ∃ w ∈ names, keyOf w = key

/-- The addresses that records of the type are made from. -/
def wanted : RecordType → IpAddr → Bool
  | .A, .v4 _ | .ANY, .v4 _ => true
  | .AAAA, .v6 _ | .ANY, .v6 _ => true
  | _, _ => false

/-- The data of a record for the address. -/
def dataOf : IpAddr → RData
  | .v4 ip => .A ip
  | .v6 ip => .AAAA ip

/-! ### The table -/

/-- An entry is there when it has an address. -/
def entry (ips : List IpAddr) : Option (List IpAddr) := if ips = [] then none else some ips

theorem lookup_push (key k : Text) (ip : IpAddr) (table : Table) :
    (push key ip table).lookup k =
      if k = key then some ((table.lookup k).getD [] ++ [ip]) else table.lookup k := by
  have miss {a b : Text} (h : a ≠ b) : (a == b) = false := beq_false_of_ne h
  induction table with
  | nil =>
    by_cases hk : k = key
    · simp [push, hk]
    · simp [push, hk, List.lookup_cons, miss hk]
  | cons kv table ih =>
    obtain ⟨k', ips⟩ := kv
    by_cases hk' : k' = key
    · subst hk'
      by_cases hk : k = k'
      · simp [push, hk]
      · simp [push, hk, List.lookup_cons, miss hk]
    · by_cases hk : k = k'
      · subst hk
        simp [push, hk']
      · simp [push, hk', List.lookup_cons, miss hk, ih]

theorem entry_push {key k : Text} {ip : IpAddr} {table : Table} {ips : List IpAddr}
    (h : table.lookup k = entry ips) :
    (push key ip table).lookup k = entry (ips ++ if key = k then [ip] else []) := by
  rw [lookup_push, h]
  by_cases hk : key = k
  · subst hk
    by_cases hips : ips = []
    · simp [entry, hips]
    · simp [entry, hips]
  · rw [if_neg (Ne.symm hk), if_neg hk, List.append_nil]

variable {src}

/-- The names of a line are checked and put in one by one. -/
theorem entry_addNames {ip : IpAddr} {names : List Text} {table table' : Table}
    (h : names.foldlM (addName src ip) table = .ok table') {key : Text} {ips : List IpAddr}
    (ht : table.lookup key = entry ips) :
    table'.lookup key = entry (ips ++ (names.filter (keyOf · = key)).map fun _ => ip) ∧
      ∀ n ∈ names, src.checkName n = .ok () := by
  induction names generalizing table ips with
  | nil =>
    cases h
    simpa using ht
  | cons n names ih =>
    obtain ⟨mid, hstep, hrest⟩ := Fallible.bind_eq_ok.1 h
    rw [addName] at hstep
    cases hc : src.checkName n with
    | error e => simp [hc] at hstep
    | ok _ =>
      rw [hc] at hstep
      obtain rfl := Except.ok.inj hstep
      obtain ⟨hentry, hnames⟩ := ih hrest (entry_push ht)
      refine ⟨?_, List.forall_mem_cons.2 ⟨hc, hnames⟩⟩
      rw [hentry]
      by_cases hn : keyOf n = key
      · simp [hn]
      · simp [hn]

/-- The words of a line are split as its reading says. -/
theorem reading_of_split {line ipS : Text} {names : List Text} {ip : IpAddr}
    (h : splitLine src (trim (uncommented line)) = .ok (ipS, names))
    (hne : words (uncommented line) ≠ []) (hip : src.parseAddr ipS = .ok ip) :
    reading src line = some (ip, names) := by
  rw [splitLine, words_trim] at h
  obtain ⟨first, rest, hwords⟩ := List.exists_cons_of_ne_nil hne
  rw [hwords, List.headD_cons, List.tail_cons, isIp] at h
  rw [reading, hwords]
  cases hfirst : src.parseAddr first with
  | ok a =>
    rw [hfirst] at h
    obtain ⟨rfl, rfl⟩ := Prod.mk.inj (Except.ok.inj h)
    obtain rfl := Except.ok.inj (hfirst.symm.trans hip)
    simp only [hfirst]
  | error e =>
    rw [hfirst, if_neg (by simp [Except.toOption])] at h
    cases rest with
    | nil => cases h
    | cons last more =>
      cases more with
      | cons _ _ => cases h
      | nil =>
        simp only at h
        by_cases hlast : isIp src last = true
        · rw [if_pos hlast] at h
          obtain ⟨rfl, rfl⟩ := Prod.mk.inj (Except.ok.inj h)
          simp [hfirst, hip, Except.toOption]
        · rw [if_neg hlast] at h
          cases h

/-- A line that parses puts in what it says. -/
theorem foldlM_of_parse {table table' : Table} {line : Text}
    (h : parseHostsLine src table line = .ok table') :
    match reading src line with
    | none => table' = table
    | some (ip, names) => names.foldlM (addName src ip) table = .ok table' := by
  have hcut : (line.splitOn '#').headD [] = uncommented line := headD_splitOn '#' line
  have hhash : (trim (uncommented line)).head? ≠ some '#' := by
    intro hhead
    have hmem : '#' ∈ uncommented line := trim_subset _ (List.mem_of_mem_head? hhead)
    simpa using List.mem_takeWhile_imp hmem
  simp only [parseHostsLine, hcut, hhash, or_false] at h
  by_cases hblank : trim (uncommented line) = []
  · rw [if_pos hblank] at h
    rw [reading, (trim_eq_nil_iff _).1 hblank]
    exact (Except.ok.inj h).symm
  · rw [if_neg hblank] at h
    obtain ⟨⟨ipS, names⟩, hsplit, h⟩ := Fallible.bind_eq_ok.1 h
    obtain ⟨ip, haddr, h⟩ := Fallible.bind_eq_ok.1 h
    have hip : src.parseAddr ipS = .ok ip := by
      cases hp : src.parseAddr ipS with
      | error e => simp [hp, Except.mapError] at haddr
      | ok a => simpa [hp, Except.mapError] using haddr
    rw [reading_of_split hsplit (mt (trim_eq_nil_iff _).2 hblank) hip]
    by_cases hnames : names = []
    · rw [if_pos hnames] at h
      cases h
    · rwa [if_neg hnames] at h

/-- A line adds the addresses on it, and its names have been checked. -/
theorem entry_line {table table' : Table} {line : Text}
    (h : parseHostsLine src table line = .ok table') {key : Text} {ips : List IpAddr}
    (ht : table.lookup key = entry ips) :
    table'.lookup key = entry (ips ++ addressesOn src key line) ∧
      ∀ ip names, reading src line = some (ip, names) → ∀ n ∈ names, src.checkName n = .ok () := by
  have hfold := foldlM_of_parse h
  rw [addressesOn]
  cases hr : reading src line with
  | none =>
    rw [hr] at hfold
    simpa [hfold] using ht
  | some said =>
    obtain ⟨ip, names⟩ := said
    rw [hr] at hfold
    obtain ⟨hentry, hnames⟩ := entry_addNames hfold ht
    refine ⟨hentry, fun ip' names' hsame => ?_⟩
    cases hsame
    exact hnames

/-- Under every key a table holds the addresses of the lines it was read from, in their order. -/
theorem entry_lines {lines : List Text} {table table' : Table}
    (h : lines.foldlM (parseHostsLine src) table = .ok table') {key : Text} {ips : List IpAddr}
    (ht : table.lookup key = entry ips) :
    table'.lookup key = entry (ips ++ lines.flatMap (addressesOn src key)) ∧
      ∀ line ∈ lines, ∀ ip names, reading src line = some (ip, names) →
        ∀ n ∈ names, src.checkName n = .ok () := by
  induction lines generalizing table ips with
  | nil =>
    cases h
    simpa using ht
  | cons line lines ih =>
    obtain ⟨mid, hstep, hrest⟩ := Fallible.bind_eq_ok.1 h
    obtain ⟨hmid, hnames⟩ := entry_line hstep ht
    obtain ⟨hentry, hall⟩ := ih hrest hmid
    refine ⟨?_, List.forall_mem_cons.2 ⟨hnames, hall⟩⟩
    rw [hentry, List.flatMap_cons, List.append_assoc]

/-! ### Tables of a configuration -/

/-- The second table is the first with the lines put in. -/
def ReadFrom (src : HostsSource) (table table' : Table) : Prop :=
  ∃ lines : List Text, lines.foldlM (parseHostsLine src) table = .ok table'

theorem ReadFrom.trans {a b c : Table} (hab : ReadFrom src a b) (hbc : ReadFrom src b c) :
    ReadFrom src a c := by
  obtain ⟨l, hl⟩ := hab
  obtain ⟨l', hl'⟩ := hbc
  refine ⟨l ++ l', ?_⟩
  rw [List.foldlM_append]
  exact Fallible.bind_eq_ok.2 ⟨b, hl, hl'⟩

theorem ReadFrom.line {a b : Table} {line : Text} (h : parseHostsLine src a line = .ok b) :
    ReadFrom src a b := by
  refine ⟨[line], ?_⟩
  rw [List.foldlM_cons, h]
  rfl

theorem ReadFrom.foldlM {α : Type} {f : Table → α → Except Error Table}
    (hf : ∀ {a b : Table} {x : α}, f a x = .ok b → ReadFrom src a b) {l : List α} {a b : Table}
    (h : l.foldlM f a = .ok b) : ReadFrom src a b := by
  induction l generalizing a with
  | nil =>
    cases h
    exact ⟨[], rfl⟩
  | cons x l ih =>
    obtain ⟨mid, hstep, hrest⟩ := Fallible.bind_eq_ok.1 h
    exact (hf hstep).trans (ih hrest)

/-- The entries, files and pairs of the arguments are read as lines. -/
theorem readFrom_fromArgs {tag : Tag} {args : Value} {base : String} {h : Hosts}
    (hh : fromArgs src tag args base = .ok h) : ReadFrom src [] h.table := by
  obtain ⟨entries, hentries, hh⟩ := Fallible.bind_eq_ok.1 hh
  obtain ⟨files, hfiles, hh⟩ := Fallible.bind_eq_ok.1 hh
  obtain ⟨pairs, hpairs, hdone⟩ := Fallible.bind_eq_ok.1 hh
  cases hdone
  have hentry {a b : Table} {e : Value} (h : readEntry src a e = .ok b) : ReadFrom src a b := by
    rw [readEntry] at h
    split at h
    · exact .line h
    · cases h
      exact ⟨[], rfl⟩
  have hfile {a b : Table} {f : Value} (h : readFile src base a f = .ok b) : ReadFrom src a b := by
    rw [readFile] at h
    split at h
    · obtain ⟨text, -, hlines⟩ := Fallible.bind_eq_ok.1 h
      exact ⟨_, hlines⟩
    · cases h
      exact ⟨[], rfl⟩
  have hpair {a b : Table} {e : Value × Value} (h : readPair src a e = .ok b) :
      ReadFrom src a b := by
    rw [readPair] at h
    split at h
    · exact .line h
    · cases h
      exact ⟨[], rfl⟩
  exact ((ReadFrom.foldlM hentry hentries).trans (.foldlM hfile hfiles)).trans
    (.foldlM hpair hpairs)

/-! ### Answers -/

theorem subset_words_of_reading {line : Text} {ip : IpAddr} {names : List Text}
    (h : reading src line = some (ip, names)) : names ⊆ words (uncommented line) := by
  rw [reading] at h
  match hw : words (uncommented line), h with
  | first :: rest, h =>
    cases hfirst : src.parseAddr first with
    | ok a =>
      simp only [hfirst, Option.some.injEq, Prod.mk.injEq] at h
      obtain ⟨-, rfl⟩ := h
      exact List.subset_cons_self _ _
    | error e =>
      simp only [hfirst] at h
      match rest, h with
      | [last], h =>
        obtain ⟨a, -, hpair⟩ := Option.map_eq_some_iff.1 h
        cases hpair
        simp

theorem rdata_recordFor (h : Hosts) (n : Name) (qtype : RecordType) (ip : IpAddr) :
    (h.recordFor n qtype ip).map Record.rdata =
      if wanted qtype ip then some (dataOf ip) else none := by
  cases ip with
  | v4 ip => cases qtype <;> rfl
  | v6 ip => cases qtype <;> rfl

/-- An unescaped name that `Name::from_ascii` accepts is read by `Name::from_str` as well, which
falls back to it, in lower case and with a final dot. -/
def Rereads [Crates] (src : HostsSource) : Prop :=
  ∀ w, '\\' ∉ w → src.checkName w = .ok () → ∃ n, Crates.nameFromStr (keyOf w ++ ['.']) = some n

theorem filterMap_recordFor (h : Hosts) (n : Name) (qtype : RecordType) (ips : List IpAddr) :
    (ips.filterMap (h.recordFor n qtype)).map Record.rdata =
      (ips.filter (wanted qtype)).map dataOf := by
  induction ips with
  | nil => rfl
  | cons ip ips ih =>
    have hdata := rdata_recordFor h n qtype ip
    by_cases hw : wanted qtype ip = true
    · rw [if_pos hw] at hdata
      obtain ⟨r, hr, hrd⟩ := Option.map_eq_some_iff.1 hdata
      rw [List.filterMap_cons_some hr, List.filter_cons_of_pos hw, List.map_cons, List.map_cons,
        ih, hrd]
    · rw [if_neg hw] at hdata
      rw [List.filterMap_cons_none (Option.map_eq_none_iff.1 hdata), List.filter_cons_of_neg hw, ih]

theorem addressesOn_ne_nil {key line : Text} : addressesOn src key line ≠ [] ↔
    ∃ ip names, reading src line = some (ip, names) ∧ ∃ w ∈ names, keyOf w = key := by
  rw [addressesOn]
  cases reading src line with
  | none => simp
  | some said =>
    obtain ⟨ip, names⟩ := said
    simp [List.filter_eq_nil_iff]

theorem lists_iff {lines : List Text} {key : Text} :
    Lists src lines key ↔ lines.flatMap (addressesOn src key) ≠ [] := by
  rw [Lists, Ne, List.flatMap_eq_nil_iff]
  push Not
  simp only [addressesOn_ne_nil]

section Read

variable {lines : List Text} {h : Hosts}

/-- Each name has the addresses its lines give it. -/
theorem lookup_lines (hlines : lines.foldlM (parseHostsLine src) [] = .ok h.table) (key : Text) :
    h.table.lookup key = entry (lines.flatMap (addressesOn src key)) :=
  (@entry_lines src lines [] h.table hlines key [] rfl).1

theorem knownName_iff [Crates] (hlines : lines.foldlM (parseHostsLine src) [] = .ok h.table)
    (name : Text) : h.knownName name = true ↔ Lists src lines (keyOf name) := by
  rw [lists_iff, knownName, lookup_lines hlines, entry]
  split_ifs with hnil
  · simp [hnil]
  · simp [hnil]

/-- The records of a listed name, which can be read again. -/
theorem lookup_listed [Crates] (hlines : lines.foldlM (parseHostsLine src) [] = .ok h.table)
    (hcrate : Rereads src) (hplain : ∀ line ∈ lines, ∀ w ∈ words (uncommented line), '\\' ∉ w)
    {name : Text} (hlisted : Lists src lines (keyOf name)) (qtype : RecordType) :
    ∃ n, h.lookup name qtype =
      (lines.flatMap (addressesOn src (keyOf name))).filterMap (h.recordFor n qtype) := by
  have hne := lists_iff.1 hlisted
  obtain ⟨line, hline, ip, names, hr, w, hw, hkey⟩ := hlisted
  have hread := (@entry_lines src lines [] h.table hlines [] [] rfl).2
  have hchecked := hread line hline ip names hr w hw
  obtain ⟨n, hn⟩ := hcrate w (hplain line hline w (subset_words_of_reading hr hw)) hchecked
  rw [hkey] at hn
  refine ⟨n, ?_⟩
  rw [lookup, lookup_lines hlines, entry, if_neg hne]
  simp only [hn]

end Read

/-- A table answers for the names on its lines, with their addresses of the family asked for, and
leaves every other query alone. -/
theorem exec_answers [Crates] {lines : List Text} {h : Hosts}
    (hlines : lines.foldlM (parseHostsLine src) [] = .ok h.table) (hcrate : Rereads src)
    (hplain : ∀ line ∈ lines, ∀ w ∈ words (uncommented line), '\\' ∉ w) (ctx : QueryContext) :
    (Lists src lines (keyOf ctx.qnameStr) → ∃ resp, (h.exec ctx).response = some resp ∧
      resp.responseCode = .NoError ∧
      resp.answers.map Record.rdata =
        ((lines.flatMap (addressesOn src (keyOf ctx.qnameStr))).filter (wanted ctx.qtype)).map
          dataOf) ∧
    (¬ Lists src lines (keyOf ctx.qnameStr) → h.exec ctx = ctx) ∧
    ∀ name, h.knownName name = true →
      ∃ line ∈ lines, ∃ w ∈ words (uncommented line), keyOf w = keyOf name := by
  refine ⟨fun hlisted => ?_, fun hlisted => ?_, fun name hname => ?_⟩
  · obtain ⟨n, hrecs⟩ := lookup_listed hlines hcrate hplain hlisted ctx.qtype
    rw [← filterMap_recordFor h n, ← hrecs, exec]
    by_cases hempty : h.lookup ctx.qnameStr ctx.qtype = []
    · rw [if_neg (by simpa using hempty), if_pos ((knownName_iff hlines _).2 hlisted), hempty]
      exact ⟨_, rfl, rfl, rfl⟩
    · rw [if_pos hempty]
      exact ⟨_, rfl, rfl, rfl⟩
  · have hnil : lines.flatMap (addressesOn src (keyOf ctx.qnameStr)) = [] := by
      simpa [lists_iff] using hlisted
    have hrecs : h.lookup ctx.qnameStr ctx.qtype = [] := by
      rw [lookup, lookup_lines hlines, entry, if_pos hnil]
    rw [exec, hrecs, if_neg (by simp), if_neg (mt (knownName_iff hlines _).1 hlisted)]
  · obtain ⟨line, hline, ip, names, hr, w, hw, hkey⟩ := (knownName_iff hlines name).1 hname
    exact ⟨line, hline, w, subset_words_of_reading hr hw, hkey⟩

namespace Sample

open FerrumDns.Sample

def address : Text := "192.0.2.1".toList

/-- One address parses, and every name is accepted. -/
def source : HostsSource where
  readToString _ := .error "no files"
  parseAddr t := if t = address then .ok (.v4 0xc0000201) else .error "invalid IP address syntax"
  checkName _ := .ok ()

def line : Text := address ++ " A.test b.test # c.test".toList

def hosts : Hosts where
  tag := "hosts"
  table := [("a.test".toList, [.v4 0xc0000201]), ("b.test".toList, [.v4 0xc0000201])]
  ttl := 60

/-- The query for `a.test.` is answered from the line naming `A.test`. -/
theorem exec_answers_line : ∃ resp,
    (@Hosts.exec (crates []) hosts (.new query none .Udp)).response = some resp ∧
      resp.answers.map Record.rdata = [.A 0xc0000201] := by
  have hlines : [line].foldlM (parseHostsLine source) [] = .ok hosts.table := by decide +kernel
  have hlists : Lists source [line] (keyOf "a.test.".toList) := by
    refine ⟨line, by simp, .v4 0xc0000201, ["A.test".toList, "b.test".toList], ?_, "A.test".toList,
      by simp, ?_⟩
    · decide +kernel
    · decide +kernel
  have hplain : ∀ l ∈ [line], ∀ w ∈ words (uncommented l), '\\' ∉ w := by decide +kernel
  let _ := crates []
  obtain ⟨resp, hresp, -, hdata⟩ :=
    (exec_answers hlines (fun _ _ _ => ⟨_, rfl⟩) hplain (.new query none .Udp)).1 hlists
  refine ⟨resp, hresp, hdata.trans ?_⟩
  decide +kernel

end Sample

end Hosts

end FerrumDns
