import FerrumDns.Plugin.Basic

/-! The builtin actions of a sequence and the two plugins that need no state of
their own: answering with a fixed code, and rewriting the question. -/

namespace FerrumDns

open Text Dnsutil

def Builtin.label : Builtin → String
  | Accept => "accept"
  | Return => "return"
  | Reject _ => "reject"
  | DropResp => "drop_resp"
  | Ttl _ _ => "ttl"
  | PreferV4 => "prefer_ipv4"
  | PreferV6 => "prefer_ipv6"
  | Mark _ => "mark"
  | Goto _ => "goto"
  | NoEcs => "no_ecs"

def Builtin.apply : Builtin → QueryContext → Outcome
  | Accept, ctx => (ctx, .ok .Accept)
  | Return, ctx => (ctx, .ok .Return)
  | Reject c, ctx => (ctx.reject c, .ok .Accept)
  | DropResp, ctx => (ctx.dropResponse, .ok .Continue)
  | Ttl low high, ctx =>
    if high < low then (ctx, .error (.config "ttl minimum must not exceed maximum"))
    else (ctx.applyTtlClamp low high, .ok .Continue)
  | PreferV4, ctx => (ctx.preferIpv4, .ok .Continue)
  | PreferV6, ctx => (ctx.preferIpv6, .ok .Continue)
  | Mark m, ctx => (ctx.addMark m, .ok .Continue)
  | Goto t, ctx => (ctx, .ok (.Goto t))
  | NoEcs, ctx =>
    ({ ctx with query := removeEcs ctx.query, stripEcsOnReply := true, ecsRefused := true },
      .ok .Continue)

def Blackhole.exec (b : Blackhole) (ctx : QueryContext) : QueryContext := ctx.reject b.rcode

/-! ### Redirect -/

/-- The lower-case question name a rule is compared with. -/
def Redirect.subject [Crates] (ctx : QueryContext) : Text := lowercase (trimDots ctx.qnameStr)

/-- A rule covers its source name and every name that ends in a dot and that source. -/
def Redirect.covers (source qn : Text) : Bool :=
  let source := trimDots source
  qn == source || ('.' :: source).isSuffixOf qn

/-- The target of the first rule that covers the question name. -/
def Redirect.target [Crates] (r : Redirect) (ctx : QueryContext) : Option Name :=
  (r.rules.find? fun rule => covers rule.1 (subject ctx)).map Prod.snd

def Redirect.exec [Crates] (r : Redirect) (ctx : QueryContext) : QueryContext :=
  match r.target ctx with
  | some name => (ctx.rewriteName name).pushTrace "redirect" "rewrite"
  | none => ctx

end FerrumDns
