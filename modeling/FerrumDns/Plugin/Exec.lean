import FerrumDns.Plugin.Ecs
import FerrumDns.Plugin.Hosts
import FerrumDns.Plugin.Forward
import FerrumDns.Plugin.Sequence
import FerrumDns.Plugin.Fallback

/-! Executing any plugin. Sequences and fallbacks execute the plugins they name,
which the validated call graph bounds in depth; the model counts the calls left
and overflows when there are none. -/

namespace FerrumDns

open Prog

namespace Executable

variable [Crates] (reg : Registry)

/-- One call, with nested calls made by `call`. -/
def body (call : Executable → QueryContext → Run Outcome) :
    Executable → QueryContext → Run Outcome
  | blackhole b, ctx => done (b.exec ctx, .ok .Continue)
  | redirect r, ctx => done (r.exec ctx, .ok .Continue)
  | ecs e, ctx => done (e.exec ctx, .ok .Continue)
  | noEcs n, ctx => done (n.exec ctx, .ok .Continue)
  | hosts h, ctx => done (h.exec ctx, .ok .Continue)
  | forward f, ctx => f.exec ctx
  | cache c, ctx => c.exec ctx
  | sequence s, ctx => s.run reg call ctx
  | fallback f, ctx => f.exec reg call ctx

/-- `exec` with room for `depth` nested calls. -/
def exec : ℕ → Executable → QueryContext → Run Outcome
  | 0, _, _ => act .overflow fun (r : Empty) => r.elim
  | depth + 1, p, ctx => act (.call p ctx) fun _ => body reg (exec depth) p ctx

end Executable

end FerrumDns
