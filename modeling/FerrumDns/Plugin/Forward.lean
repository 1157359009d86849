import FerrumDns.Plugin.Basic

/-! Asking upstream servers: one, or a race of several in which the first usable
response wins and an unusable one is kept only for want of a better. -/

namespace FerrumDns

open Dnsutil Prog

namespace Forward

def took (f : Forward) (ctx : QueryContext) (msg : Message) : QueryContext :=
  ctx.setResponse (.forward f.tag) msg

/-- The race over the exchanges still in flight. `last` is the latest unusable response. -/
def race (f : Forward) (ctx : QueryContext) (q : Message) :
    ℕ → List Upstream → Option Message → Run Outcome
  | 0, _, last | _ + 1, [], last =>
    done (((last.map (f.took ctx)).getD ctx).pushTrace f.tag "err", .ok .Continue)
  | n + 1, pending@(_ :: _), last =>
    await ctx (act (.exchange pending q) fun (r : Fin pending.length × Except Error Message) =>
      match r with
      | (i, .ok msg) =>
        if isUsableResponse msg then
          (Run.count .upstreamOk).bind fun _ =>
            done (f.took (ctx.pushTrace f.tag "ok") msg, .ok .Continue)
        else (Run.count .upstreamErr).bind fun _ => f.race ctx q n (pending.eraseIdx i) (some msg)
      | (i, .error _) =>
        (Run.count .upstreamErr).bind fun _ => f.race ctx q n (pending.eraseIdx i) last)

/-- The answer of a single upstream is taken as it is. -/
def single (f : Forward) (ctx : QueryContext) (q : Message) (up : Upstream) : Run Outcome :=
  await ctx (act (.exchange [up] q) fun (r : Fin 1 × Except Error Message) =>
    match r.2 with
    | .ok msg =>
      if isUsableResponse msg then
        (Run.count .upstreamOk).bind fun _ =>
          done (f.took (ctx.pushTrace f.tag "ok") msg, .ok .Continue)
      else
        (Run.count .upstreamErr).bind fun _ =>
          done (f.took (ctx.pushTrace f.tag "err") msg, .ok .Continue)
    | .error _ =>
      (Run.count .upstreamErr).bind fun _ => done (ctx.pushTrace f.tag "err", .ok .Continue))

def exec (f : Forward) (ctx : QueryContext) : Run Outcome :=
  let n := max (min f.concurrent f.upstreams.length) 1
  if n = 1 then f.single ctx ctx.query (f.upstreams.head f.nonempty)
  else f.race ctx ctx.query n (f.upstreams.take n) none

end Forward

end FerrumDns
