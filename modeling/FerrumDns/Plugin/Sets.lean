import FerrumDns.Config
import FerrumDns.Dns.AddressParse
import FerrumDns.DomainSet.Rules
import FerrumDns.Fallible
import FerrumDns.Path
import FerrumDns.Plugin.Basic

/-! Reading the sets of a configuration: rules that stand in the arguments, then the lines of
the files they name. Either kind of set is read alike, by adding one rule after another,
so it is the set of all those rules in that order. -/

namespace FerrumDns

open Text Fallible

/-- What sets are read with beside the parser of addresses, each with the text of its error. -/
structure SetSource where
  readToString : String → Except String Text
  compile : Text → Except String (Text → Bool)
  parseNet : Text → Except String IpNet

/-! ### Either kind of set -/

namespace RuleSet

variable {S : Type} (src : SetSource) (kind : String) (add : S → Text → Except Error S)

def isComment (line : Text) : Bool := line = [] || line.head? = some '#'

def addLine (set : S) (line : Text) : Except Error S :=
  let line := trim line
  if isComment line then .ok set else add set line

def loadFile (set : S) (path : String) : Except Error S := do
  let text ← (src.readToString path).mapError fun e =>
    .config (kind ++ " file " ++ path ++ ": " ++ e)
  (lines text).foldlM (addLine add) set

/-- Only texts are rules. -/
def addExp (set : S) (e : Value) : Except Error S :=
  match e.asStr with
  | some s => add set s
  | none => .ok set

def addFile (base : String) (set : S) (f : Value) : Except Error S :=
  match f.asStr with
  | some p => loadFile src kind add set (resolvePath base (String.ofList p))
  | none => .ok set

def exps (args : Value) : List Value := ((args.get "exps").bind Value.asSequence).getD []

def files (args : Value) : List Value := ((args.get "files").bind Value.asSequence).getD []

def fromArgs (empty : S) (args : Value) (base : String) : Except Error S := do
  let set ← (exps args).foldlM (addExp add) empty
  (files args).foldlM (addFile src kind add base) set

/-! #### All rules -/

/-- The rules on the lines of a file. -/
def fileRules (text : Text) : List Text :=
  (lines text).filterMap fun line => if isComment (trim line) then none else some (trim line)

def paths (args : Value) (base : String) : List String :=
  (files args).filterMap fun f => f.asStr.map fun p => resolvePath base (String.ofList p)

/-- The rules of the arguments, then those of the files, if all of them can be read. -/
def rules (args : Value) (base : String) : Except String (List Text) := do
  let texts ← (paths args base).mapM src.readToString
  .ok ((exps args).filterMap Value.asStr ++ texts.flatMap fileRules)

variable {src kind add}

theorem foldlM_filterMap {α : Type} {f : S → α → Except Error S} {g : α → Option Text}
    (hf : ∀ set a, f set a = match g a with | some t => add set t | none => .ok set)
    (l : List α) (set : S) : l.foldlM f set = (l.filterMap g).foldlM add set := by
  induction l generalizing set with
  | nil => rfl
  | cons a l ih =>
    rw [List.foldlM_cons, hf]
    cases hg : g a with
    | none =>
      rw [List.filterMap_cons_none hg]
      exact ih set
    | some t =>
      rw [List.filterMap_cons_some hg, List.foldlM_cons]
      exact congrArg _ (funext ih)

theorem foldlM_exps (l : List Value) (set : S) :
    l.foldlM (addExp add) set = (l.filterMap Value.asStr).foldlM add set :=
  foldlM_filterMap (fun _ _ => rfl) l set

theorem foldlM_lines (text : Text) (set : S) :
    (lines text).foldlM (addLine add) set = (fileRules text).foldlM add set := by
  refine foldlM_filterMap (fun set line => ?_) _ set
  simp only [addLine]
  split_ifs
  · rfl
  · rfl

theorem loadFile_eq_ok {set set' : S} {path : String} :
    loadFile src kind add set path = .ok set' ↔
      ∃ text, src.readToString path = .ok text ∧ (fileRules text).foldlM add set = .ok set' := by
  rw [loadFile]
  cases src.readToString path with
  | error e => exact ⟨nofun, fun ⟨_, hread, _⟩ => by cases hread⟩
  | ok text =>
    have hlines : (lines text).foldlM (addLine add) set = (fileRules text).foldlM add set :=
      foldlM_lines text set
    constructor
    · intro h
      exact ⟨text, rfl, hlines ▸ h⟩
    · rintro ⟨_, ⟨⟩, h⟩
      exact hlines.trans h

theorem foldlM_files {fs : List Value} {base : String} {set set' : S} :
    fs.foldlM (addFile src kind add base) set = .ok set' ↔
      ∃ texts, (fs.filterMap fun f => f.asStr.map fun p =>
          resolvePath base (String.ofList p)).mapM src.readToString = .ok texts ∧
        (texts.flatMap fileRules).foldlM add set = .ok set' := by
  induction fs generalizing set with
  | nil => simp [pure, Except.pure]
  | cons f fs ih =>
    rw [List.foldlM_cons, addFile]
    cases hf : f.asStr with
    | none =>
      rw [List.filterMap_cons_none (by simp [hf])]
      exact ih
    | some p =>
      rw [List.filterMap_cons_some (by rw [hf]; rfl)]
      simp only [List.mapM_cons, bind_eq_ok, loadFile_eq_ok, ih]
      constructor
      · rintro ⟨mid, ⟨text, hread, hmid⟩, texts, hreads, hrest⟩
        refine ⟨text :: texts, ⟨text, hread, texts, hreads, rfl⟩, ?_⟩
        rw [List.flatMap_cons, List.foldlM_append, hmid]
        exact hrest
      · rintro ⟨_, ⟨text, hread, texts, hreads, hdone⟩, h⟩
        cases hdone
        rw [List.flatMap_cons, List.foldlM_append] at h
        obtain ⟨mid, hmid, hrest⟩ := bind_eq_ok.1 h
        exact ⟨mid, ⟨text, hread, hmid⟩, texts, hreads, hrest⟩

/-- A set that was read is the set of all its rules. -/
theorem fromArgs_eq_ok {empty set : S} {args : Value} {base : String} :
    fromArgs src kind add empty args base = .ok set ↔
      ∃ all, rules src args base = .ok all ∧ all.foldlM add empty = .ok set := by
  simp only [fromArgs, rules, bind_eq_ok, foldlM_exps, foldlM_files, paths]
  constructor
  · rintro ⟨mid, hmid, texts, hreads, hrest⟩
    refine ⟨_, ⟨texts, hreads, rfl⟩, ?_⟩
    rw [List.foldlM_append, hmid]
    exact hrest
  · rintro ⟨_, ⟨texts, hreads, hdone⟩, h⟩
    cases hdone
    rw [List.foldlM_append] at h
    obtain ⟨mid, hmid, hrest⟩ := bind_eq_ok.1 h
    exact ⟨mid, hmid, texts, hreads, hrest⟩

end RuleSet

/-! ### Domain sets -/

namespace DomainSet

variable (src : SetSource)

def loadFile (set : DomainSet) (path : String) : Except Error DomainSet :=
  RuleSet.loadFile src "domain_set" (addRule src.compile) set path

def fromArgs (args : Value) (base : String) : Except Error DomainSet :=
  RuleSet.fromArgs src "domain_set" (addRule src.compile) new args base

end DomainSet

/-! ### Address sets -/

namespace IpSet

variable (src : SetSource)

/-- The network of a rule, an address being one of its own. -/
def readNet (raw : Text) : Except Error IpNet :=
  let raw := trim raw
  if '/' ∈ raw then
    (src.parseNet raw).mapError fun e => .config ("bad cidr `" ++ String.ofList raw ++ "`: " ++ e)
  else
    match AddressParse.parseIp raw with
    | some ip => .ok ⟨ip, if ip.isIpv4 then 32 else 128⟩
    | none => .error (.config ("bad ip `" ++ String.ofList raw ++ "`: invalid IP address syntax"))

def add (set : IpSet) (raw : Text) : Except Error IpSet :=
  (readNet src raw).map fun net => { set with nets := set.nets ++ [net] }

def loadFile (set : IpSet) (path : String) : Except Error IpSet :=
  RuleSet.loadFile src "ip_set" (add src) set path

def fromArgs (args : Value) (base : String) : Except Error IpSet :=
  RuleSet.fromArgs src "ip_set" (add src) ⟨[]⟩ args base

variable {src}

theorem foldlM_add {all : List Text} {set set' : IpSet} :
    all.foldlM (add src) set = .ok set' ↔
      ∃ nets, all.mapM (readNet src) = .ok nets ∧ set' = ⟨set.nets ++ nets⟩ := by
  induction all generalizing set with
  | nil => simp [pure, Except.pure, eq_comm]
  | cons raw all ih =>
    simp only [List.foldlM_cons, List.mapM_cons, bind_eq_ok, add, map_eq_ok, ih]
    constructor
    · rintro ⟨_, ⟨net, hnet, rfl⟩, nets, hnets, rfl⟩
      exact ⟨net :: nets, ⟨net, hnet, nets, hnets, rfl⟩, by simp⟩
    · rintro ⟨_, ⟨net, hnet, nets, hnets, hdone⟩, rfl⟩
      cases hdone
      exact ⟨_, ⟨net, hnet, rfl⟩, nets, hnets, by simp⟩

end IpSet

/-! ### Both -/

variable {src : SetSource}

theorem DomainSet.fromArgs_accepts {args : Value} {base : String} :
    (∃ set, fromArgs src args base = .ok set) ↔ ∃ all, RuleSet.rules src args base = .ok all ∧
      ∀ raw ∈ all, ∀ r, Rule.read raw = some r → r.Compiles src.compile := by
  simp only [fromArgs, RuleSet.fromArgs_eq_ok]
  constructor
  · rintro ⟨set, all, hall, hset⟩
    exact ⟨all, hall, foldlM_eq_ok.1 ⟨set, hset⟩⟩
  · rintro ⟨all, hall, hcompiles⟩
    obtain ⟨set, hset⟩ : ∃ set, all.foldlM (addRule src.compile) new = .ok set :=
      foldlM_eq_ok.2 hcompiles
    exact ⟨set, all, hall, hset⟩

theorem IpSet.fromArgs_accepts {args : Value} {base : String} :
    (∃ set, fromArgs src args base = .ok set) ↔ ∃ all, RuleSet.rules src args base = .ok all ∧
      ∀ raw ∈ all, ∃ net, readNet src raw = .ok net := by
  simp only [fromArgs, RuleSet.fromArgs_eq_ok, foldlM_add]
  constructor
  · rintro ⟨_, all, hall, nets, hnets, -⟩
    refine ⟨all, hall, fun raw hraw => ?_⟩
    obtain ⟨net, -, hnet⟩ := mem_mapM_of_mem hnets hraw
    exact ⟨net, hnet⟩
  · rintro ⟨all, hall, hread⟩
    obtain ⟨nets, hnets⟩ := exists_mapM hread
    exact ⟨_, all, hall, nets, hnets, rfl⟩

/-- The sets of a configuration are read just if all their files can be and all their rules are well
formed, wherever these stand, and then contain what some rule of theirs does. -/
theorem sets_from_args [Crates] (src : SetSource) (args : Value) (base : String) :
    (((∃ set, DomainSet.fromArgs src args base = .ok set) ↔
        ∃ all, RuleSet.rules src args base = .ok all ∧
          ∀ raw ∈ all, ∀ r, DomainSet.Rule.read raw = some r → r.Compiles src.compile) ∧
      ∀ set, DomainSet.fromArgs src args base = .ok set →
        ∃ all, RuleSet.rules src args base = .ok all ∧
          ∀ d, set.contains d = true ↔ DomainSet.SomeCovers src.compile all d) ∧
    ((∃ set, IpSet.fromArgs src args base = .ok set) ↔
        ∃ all, RuleSet.rules src args base = .ok all ∧
          ∀ raw ∈ all, ∃ net, IpSet.readNet src raw = .ok net) ∧
      ∀ set, IpSet.fromArgs src args base = .ok set →
        ∃ all, RuleSet.rules src args base = .ok all ∧ ∀ ip, set.contains ip = true ↔
          ∃ raw ∈ all, ∃ net, IpSet.readNet src raw = .ok net ∧
            Crates.netContains net ip = true := by
  refine ⟨⟨DomainSet.fromArgs_accepts, fun set h => ?_⟩, IpSet.fromArgs_accepts, fun set h => ?_⟩
  · obtain ⟨all, hall, hset⟩ := RuleSet.fromArgs_eq_ok.1 h
    exact ⟨all, hall, DomainSet.contains_build hset⟩
  · obtain ⟨all, hall, hset⟩ := RuleSet.fromArgs_eq_ok.1 h
    obtain ⟨nets, hnets, rfl⟩ := IpSet.foldlM_add.1 hset
    refine ⟨all, hall, fun ip => ?_⟩
    simp only [IpSet.contains, List.nil_append, List.any_eq_true]
    constructor
    · rintro ⟨net, hnet, hip⟩
      obtain ⟨raw, hraw, hread⟩ := mem_of_mapM hnets hnet
      exact ⟨raw, hraw, net, hread, hip⟩
    · rintro ⟨raw, hraw, net, hread, hip⟩
      obtain ⟨net', hnet, hread'⟩ := mem_mapM_of_mem hnets hraw
      obtain rfl := Except.ok.inj (hread.symm.trans hread')
      exact ⟨net, hnet, hip⟩

/-! ### A file of networks -/

namespace IpSet.Sample

/-- One file is there, whose first line is a comment. -/
def source : SetSource where
  readToString path :=
    if path = "./lan.txt" then .ok "# local\n\n10.0.0.0/8\n".toList else .error "no such file"
  compile _ := .error "no expressions"
  parseNet t := if t = "10.0.0.0/8".toList then .ok ⟨.v4 0x0a000000, 8⟩ else .error "bad"

def args : Value := .mapping
  [(.string "exps".toList, .sequence [.string "192.0.2.1".toList]),
    (.string "files".toList, .sequence [.string "lan.txt".toList])]

theorem sets_from_args_lan [Crates] : ∃ set, fromArgs source args "." = .ok set ∧
    ∀ ip, set.contains ip = true ↔
      Crates.netContains ⟨.v4 0xc0000201, 32⟩ ip = true ∨
        Crates.netContains ⟨.v4 0x0a000000, 8⟩ ip = true := by
  have hrules : RuleSet.rules source args "." = .ok ["192.0.2.1".toList, "10.0.0.0/8".toList] := by
    decide +kernel
  have haddr : readNet source "192.0.2.1".toList = .ok ⟨.v4 0xc0000201, 32⟩ := by decide +kernel
  have hnet : readNet source "10.0.0.0/8".toList = .ok ⟨.v4 0x0a000000, 8⟩ := by decide +kernel
  obtain ⟨-, haccepts, hcontains⟩ := FerrumDns.sets_from_args source args "."
  have hread : ∀ raw ∈ ["192.0.2.1".toList, "10.0.0.0/8".toList],
      ∃ net, readNet source raw = .ok net :=
    List.forall_mem_cons.2 ⟨⟨_, haddr⟩, List.forall_mem_singleton.2 ⟨_, hnet⟩⟩
  obtain ⟨set, hset⟩ := haccepts.2 ⟨_, hrules, hread⟩
  refine ⟨set, hset, fun ip => ?_⟩
  obtain ⟨all, hall, hiff⟩ := hcontains set hset
  obtain rfl := Except.ok.inj (hrules.symm.trans hall)
  rw [hiff]
  simp only [List.mem_cons, List.not_mem_nil, or_false, or_and_right, exists_or, exists_eq_left,
    haddr, hnet, Except.ok.injEq, exists_eq_left']

end IpSet.Sample

end FerrumDns
