import FerrumDns.Graph.Chain
import FerrumDns.Plugin.Parse

/-! Checking the call graph of the configured plugins before any request runs.
Tags are collected with what each plugin calls, every called tag has to be an
executable plugin, and a depth-first search with a memo of finished depths finds
cycles and calls nested too deep. Maps are walked in whatever order they have. -/

namespace FerrumDns

open Text

/-! ### What plugins call -/

def RawStep.calls (step : RawStep) : Except Error (List Tag) :=
  match trim step.exec with
  | '$' :: target => .ok [String.ofList target]
  | exec =>
    match Builtin.parse exec with
    | .error e => .error e
    | .ok (.Goto target) => .ok [target]
    | .ok _ => .ok []

namespace PluginConfig

def calls (p : PluginConfig) : Except Error (List Tag) :=
  match p.ty with
  | "sequence" =>
    match parseSteps p.args with
    | .error e => .error e
    | .ok steps => (steps.mapM RawStep.calls).map List.flatten
  | "fallback" => (Fallback.fromArgs p.name p.args).map fun f => [f.primary, f.secondary]
  | _ => .ok []

/-- Rules for matchers, which are not executed. -/
def isSet (p : PluginConfig) : Bool := p.ty = "domain_set" || p.ty = "ip_set"

end PluginConfig

/-- Not empty, without `$` in front and without blanks. -/
def ValidTag (tag : Tag) : Prop :=
  tag.toList ≠ [] ∧ tag.toList.head? ≠ some '$' ∧ ¬ tag.toList.any isWhitespace

instance (tag : Tag) : Decidable (ValidTag tag) := inferInstanceAs (Decidable (_ ∧ _))

/-! ### The check -/

/-- What each executable plugin calls. -/
abbrev Edges := List (Tag × List Tag)

/-- Depths already found. -/
abbrev Depths := List (Tag × ℕ)

/-- An order in which hash maps are walked. -/
structure MapOrder where
  walk : Edges → Edges
  perm : ∀ edges, (walk edges).Perm edges

namespace Runtime

def maxPipelineDepth : ℕ := 64

/-- The tags and calls of the plugins, one after the other. -/
def collect : List PluginConfig → List Tag → Edges → Except Error Edges
  | [], _, edges => .ok edges
  | p :: plugins, tags, edges =>
    if ¬ ValidTag p.name then .error (.config ("invalid plugin tag `" ++ p.name ++ "`"))
    else if p.name ∈ tags then .error (.config ("duplicate plugin tag `" ++ p.name ++ "`"))
    else if p.isSet then collect plugins (p.name :: tags) edges
    else
      match p.calls with
      | .error e => .error e
      | .ok calls => collect plugins (p.name :: tags) (edges ++ [(p.name, calls)])

/-- Every called tag has to be that of an executable plugin. -/
def checkKnown (edges walked : Edges) : Except Error Unit :=
  let unknown := walked.findSome? fun (tag, calls) =>
    (calls.find? fun target => target ∉ edges.map Prod.fst).map fun target => (tag, target)
  match unknown with
  | some (tag, target) => .error
      (.config ("plugin `" ++ tag ++ "` references unknown executable `" ++ target ++ "`"))
  | none => .ok ()

/-- What a tag calls; the search only comes to tags that have an entry. -/
def callsOf (edges : Edges) (tag : Tag) : List Tag := (edges.lookup tag).getD []

def tooDeep : Error := .config "plugin call depth exceeds 64"

/-- The loop over the targets, with the depth so far. -/
def visitCalls (visit : Tag → Depths → Except Error (ℕ × Depths)) :
    List Tag → ℕ → Depths → Except Error (ℕ × Depths)
  | [], depth, depths => .ok (depth, depths)
  | target :: targets, depth, depths =>
    match visit target depths with
    | .error e => .error e
    | .ok (d, depths) => visitCalls visit targets (max depth (1 + d)) depths

/-- The depth of a tag below the path `active`; `room` is what is left of the depth allowed. -/
def visitPlugin (edges : Edges) : ℕ → List Tag → Tag → Depths → Except Error (ℕ × Depths)
  | room, active, tag, depths =>
    match depths.lookup tag with
    | some depth => .ok (depth, depths)
    | none =>
      if tag ∈ active then
        .error (.config ("plugin reference cycle: " ++ " -> ".intercalate (active ++ [tag])))
      else
        match room with
        | 0 => .error tooDeep
        | room + 1 =>
          match visitCalls (visitPlugin edges room (active ++ [tag])) (callsOf edges tag) 1 depths with
          | .error e => .error e
          | .ok (depth, depths) =>
            if maxPipelineDepth < depth then .error tooDeep
            else .ok (depth, (tag, depth) :: depths)

def visitAll (edges : Edges) : List Tag → Depths → Except Error Unit
  | [], _ => .ok ()
  | tag :: tags, depths =>
    match visitPlugin edges maxPipelineDepth [] tag depths with
    | .error e => .error e
    | .ok (_, depths) => visitAll edges tags depths

def validatePluginGraph (order : MapOrder) (plugins : List PluginConfig) : Except Error Unit :=
  match collect plugins [] [] with
  | .error e => .error e
  | .ok edges =>
    match checkKnown edges (order.walk edges) with
    | .error e => .error e
    | .ok () => visitAll edges ((order.walk edges).map Prod.fst) []

end Runtime

end FerrumDns
