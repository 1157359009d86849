import FerrumDns.Listeners.Agree
import FerrumDns.Plugin.EcsArgs
import FerrumDns.Runtime.Registered

/-! Who asks. The address of a client is looked at by two things only, a subnet that is attached
automatically and a matcher for client addresses. Where the configuration has neither, a request
is handled alike whoever sent it over whatever transport: the same is read and written, the same
servers are asked the same, and the same message is answered. -/

namespace FerrumDns

open Prog Dnsutil Text Fallible

/-! ### What looks at the client -/

/-- The first word behind the exclamation marks. -/
def RawStep.headWord (expr : Text) : String :=
  String.ofList ((words (Matcher.negations (trim expr)).2).headD [])

/-- A plugin that attaches the client's subnet, or has a matcher for the client's address. -/
def PluginConfig.asksClient (p : PluginConfig) : Bool :=
  match p.ty with
  | "ecs" => Ecs.flag p.args "auto"
  | "sequence" => ((parseSteps p.args).toOption.getD []).any fun step =>
      step.matchers.any fun expr => RawStep.headWord expr == "client_ip"
  | _ => false

/-- What covers transports and clients. -/
def anonymous : Veil where
  protocol _ := .Udp
  clientAddr _ := none
  traced := true

variable [Crates]

theorem Matcher.bindHead_anonymous {sets : Sets} {parts : List Text} {m : Matcher}
    (h : bindHead sets parts = .ok m) (hword : String.ofList (parts.headD []) ≠ "client_ip")
    (ctx : QueryContext) : m.matches (anonymous.context ctx) = m.matches ctx := by
  unfold bindHead at h
  split at h
  next => cases h; rfl
  next => cases h; rfl
  next => obtain ⟨_, -, rfl⟩ := map_eq_ok.1 h; rfl
  next => cases h; rfl
  next heq => exact absurd heq hword
  next => obtain ⟨_, -, rfl⟩ := map_eq_ok.1 h; rfl
  next => cases h; rfl
  next => cases h; rfl
  next => cases h; rfl
  next => cases h; rfl
  next => cases h

theorem Matcher.bind_anonymous {sets : Sets} {expr : Text} {m : Matcher}
    (h : Matcher.bind sets expr = .ok m) (hword : RawStep.headWord expr ≠ "client_ip")
    (ctx : QueryContext) : m.matches (anonymous.context ctx) = m.matches ctx := by
  obtain ⟨inner, hinner, rfl⟩ := map_eq_ok.1 h
  have hsame := bindHead_anonymous hinner hword ctx
  split_ifs
  · simp only [Matcher.matches, hsame]
  · exact hsame

/-- The steps of a sequence without such matchers. -/
theorem compileSteps_anonymous {sets : Sets} {tag : Tag} {raw : List RawStep} {seq : Sequence}
    (h : compileSteps sets tag raw = .ok seq)
    (hwords : ∀ r ∈ raw, ∀ expr ∈ r.matchers, RawStep.headWord expr ≠ "client_ip") :
    anonymous.Blind (.sequence seq) := by
  obtain ⟨steps, hsteps, rfl⟩ := map_eq_ok.1 h
  intro step hstep m hm ctx
  obtain ⟨r, hr, hcompile⟩ := mem_of_mapM hsteps hstep
  unfold compileStep at hcompile
  split at hcompile
  · cases hcompile
  next matchers hmatchers =>
    obtain ⟨exec, -, rfl⟩ := map_eq_ok.1 hcompile
    obtain ⟨expr, hexpr, hbind⟩ := mem_of_mapM hmatchers hm
    exact Matcher.bind_anonymous hbind (hwords r hr expr hexpr) ctx

/-! ### Runtimes -/

variable {order : MapOrder} {l : Loader} {config : Config} {rt : Runtime}

/-- Nothing that is registered looks at the client if no plugin was configured to. -/
theorem registered_anonymous
    (hb : Runtime.build order { l with ecs := Ecs.fromArgs } config = .ok rt)
    (hno : ∀ p ∈ config.plugins, p.asksClient = false) (tag : Tag) (q : Executable)
    (hq : rt.registry.getExec tag = .ok q) : anonymous.Blind q := by
  obtain ⟨p, hp, rfl, -⟩ := Runtime.named_of_registered hb hq
  obtain ⟨x, sets, hmake, hbecomes⟩ := Runtime.made_of_registered hb hp hq
  have hasks := hno p (Runtime.build_plugins hb ▸ hp)
  cases hbecomes with
  | cache => trivial
  | fallback f => trivial
  | leaf leaf =>
    have hfrom := Loader.make_leaf.1 hmake
    cases leaf with
    | ecs e =>
      obtain ⟨hty, he⟩ := hfrom
      have hauto : e.auto = false := by
        rw [Ecs.auto_of_fromArgs he]
        simpa only [PluginConfig.asksClient, hty] using hasks
      intro ctx
      have htype : (anonymous.context ctx).qtype = ctx.qtype := rfl
      simp only [Ecs.pick, hauto, htype]
      rfl
    | _ => trivial
  | @sequence _ raw _ hraw hseq =>
    obtain ⟨hty, rfl⟩ := Loader.make_from hmake
    refine compileSteps_anonymous hseq fun r hr expr hexpr hword => ?_
    simp only [PluginConfig.asksClient, hty, hraw] at hasks
    have hsome : (Except.ok raw : Except Error _).toOption.getD [] = raw := rfl
    rw [hsome, List.any_eq_false] at hasks
    exact hasks r hr (List.any_eq_true.2 ⟨expr, hexpr, beq_iff_eq.2 hword⟩)

/-- Where no plugin is configured to look at the client, what one client can be answered over one
listener while caches, servers and the clock show themselves in some way, any other client can be
answered to the same query over any listener while they show themselves in that way. So nothing that
is asked, stored or answered tells who the client is. -/
theorem clients_alike
    (hb : Runtime.build order { l with ecs := Ecs.fromArgs } config = .ok rt)
    (hno : ∀ p ∈ config.plugins, p.asksClient = false) {depth : ℕ} {entry : Tag} {buf : Bytes}
    {q : Message} (hq : decode buf = .ok q) (hclass : classifyIncoming q = .Ok)
    {listener : Listener} {peer : IpAddr} {outside : Trace} {message : Option Message}
    (h : anonymous.Shows (listener.task rt.registry depth entry buf peer) outside message)
    (listener' : Listener) (peer' : IpAddr) :
    anonymous.Shows (listener'.task rt.registry depth entry buf peer') outside message := by
  refine Listener.shows_ok (registered_anonymous hb hno) hq hclass ?_ h
  rw [Veil.context_new, Veil.context_new]
  rfl

/-! ### Two clients -/

section Sample

omit [Crates]

/-- A configuration with a cache in front of a refusal, and nothing that looks at clients. -/
def builtSmall : Except Error Runtime :=
  Runtime.build Runtime.asInserted { Runtime.offline with ecs := Ecs.fromArgs } Runtime.smallConfig

/-- What one client is refused over UDP another one can be refused over HTTPS. -/
theorem clients_alike_small : ∃ rt tr message, builtSmall = .ok rt ∧
    Ends (@Listener.task Sample.codec rt.registry 8 "main" Sample.queryWire
      (.v4 (.ofOctets 192 0 2 7)) .udp) tr message ∧ message.isSome = true ∧
    @Veil.Shows _ anonymous (@Listener.task Sample.codec rt.registry 8 "main" Sample.queryWire
      (.v4 (.ofOctets 198 51 100 9)) .doh) (anonymous.seen tr) message := by
  have h : (builtSmall.toOption.bind fun rt =>
      ((@Listener.task Sample.codec rt.registry 8 "main" Sample.queryWire
        (.v4 (.ofOctets 192 0 2 7)) .udp).play (@Resolver.oracle Sample.codec rt.registry 8
          (Sample.answering Sample.answer)) false Sample.world).map fun x => x.2.1.isSome) =
      some true := by decide +kernel
  obtain ⟨rt, hb, h⟩ := Option.bind_eq_some_iff.1 h
  obtain ⟨⟨tr, message, w⟩, hx, h⟩ := Option.map_eq_some_iff.1 h
  have hq : @decode Sample.codec Sample.queryWire = .ok Sample.query := by decide +kernel
  refine ⟨rt, tr, message, toOption_eq_some.1 hb, play_ends hx, h, ?_⟩
  exact @clients_alike Sample.codec _ _ _ rt (toOption_eq_some.1 hb) (by decide +kernel) 8 "main" _
    _ hq rfl .udp (.v4 (.ofOctets 192 0 2 7)) _ message ⟨tr, play_ends hx, rfl⟩ .doh _

end Sample

end FerrumDns
