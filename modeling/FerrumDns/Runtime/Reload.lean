import FerrumDns.Prog.Play
import FerrumDns.Runtime.Checked
import FerrumDns.Runtime.Live

/-! Reloads are safe. Every runtime that becomes live was built, and agrees with
the one before it in the settings that listeners and logging were started with;
so all live runtimes agree in them, and the entries that listeners hold stay
among those that each build looked up. A call that fails does not write the
pointer. -/

namespace FerrumDns

open Prog Fallible

namespace Live

/-- The settings a reload must not change. -/
structure Settings where
  servers : List ServerConfig
  api : ApiConfig
  log : LogConfig

def settings (rt : Runtime) : Settings := ⟨rt.config.servers, rt.config.api, rt.config.log⟩

/-- A built runtime with these settings. -/
def Fit (s : Settings) (rt : Runtime) : Prop := settings rt = s ∧ Built rt

theorem Built.resolves {rt : Runtime} (h : Built rt) :
    ∀ server ∈ rt.config.servers, ∃ p, rt.registry.getExec server.exec = .ok p := by
  obtain ⟨order, l, config, hb⟩ := h
  obtain ⟨_, _, _, _, _, _, _, _, _, _, hentries, -⟩ := Runtime.build_eq_ok hb
  exact hentries

/-! ### Single calls -/

/-- What calls promise of the runtimes they install and the listeners they start, relying on what
they read and build. -/
def contract (s : Settings) : Contract Unit Eff Eff.Answer where
  guar
    | .swap rt => Fit s rt.rt
    | .listen servers http => servers = s.servers ∧ http = s.api.http
    | _ => True
  rely
    | .get, rt => Fit s rt.rt
    | .build _, r => ∀ rt, r = .ok rt → Built rt.rt
    | _, _ => True
  held _ := True

theorem replace_sat {s : Settings} {previous rt : Arc} (hp : Fit s previous.rt)
    (hb : Built rt.rt) : (replace previous rt).Sat (contract s) fun _ => True := by
  simp only [replace]
  split_ifs with hsame hlog
  · trivial
  · trivial
  · obtain ⟨rfl, -⟩ := hp
    simp only [not_or, not_not] at hsame hlog
    refine ⟨⟨?_, hb⟩, fun _ _ => trivial⟩
    simp only [settings, hsame.1, hsame.2, hlog]

theorem reloadFile_sat (s : Settings) : reloadFile.Sat (contract s) fun _ => True := by
  refine ⟨trivial, fun cfg _ => ?_⟩
  cases cfg with
  | error e => trivial
  | ok cfg =>
    refine ⟨trivial, trivial, fun rt hrt => ?_⟩
    cases rt with
    | error e => trivial
    | ok rt => exact ⟨trivial, fun previous hp => replace_sat hp (hrt rt rfl)⟩

theorem serve_sat (s : Settings) : serve.Sat (contract s) fun _ => True := by
  refine ⟨trivial, fun snapshot hs => ?_⟩
  obtain ⟨rfl, -⟩ := hs
  dsimp only
  cases snapshot.rt.validateService with
  | error e => trivial
  | ok _ => exact ⟨⟨rfl, rfl⟩, fun _ _ => ⟨trivial, trivial, fun _ _ => trivial⟩⟩

/-! ### Failing calls -/

/-- The pointer is as it was. -/
def Reads (ev : Prog.Event Eff Eff.Answer) : Prop :=
  ∀ w w', perform w ev.1 ev.2 w' → w'.live = w.live

theorem load_reads (r : Except Error Config) : Reads ⟨.load, r⟩ := fun _ _ hp => by cases hp; rfl

theorem build_reads (config : Config) (r : Except Error Arc) : Reads ⟨.build config, r⟩ :=
  fun _ _ hp => by obtain ⟨-, rfl⟩ := hp; rfl

theorem get_reads (r : Arc) : Reads ⟨.get, r⟩ := fun _ _ hp => by obtain ⟨-, rfl⟩ := hp; rfl

theorem replace_failed {previous rt : Arc} {tr : List (Prog.Event Eff Eff.Answer)} {e : Error}
    (h : Ends (replace previous rt) tr (.error e)) : tr = [] := by
  simp only [replace] at h
  split_ifs at h
  · exact (ends_done h).1
  · exact (ends_done h).1
  · obtain ⟨_, _, -, h⟩ := ends_act h
    cases (ends_done h).2

/-- A reload that fails has not written the pointer. -/
theorem failed_reads {tr : List (Prog.Event Eff Eff.Answer)} {e : Error}
    (h : Ends reloadFile tr (.error e)) : ∀ ev ∈ tr, Reads ev := by
  obtain ⟨cfg, tr₁, rfl, h₁⟩ := ends_act h
  refine List.forall_mem_cons.2 ⟨load_reads cfg, ?_⟩
  cases cfg with
  | error e =>
    obtain ⟨rfl, -⟩ := ends_done h₁
    simp
  | ok cfg =>
    obtain ⟨rt, tr₂, rfl, h₂⟩ := ends_act (ends_await h₁)
    refine List.forall_mem_cons.2 ⟨build_reads cfg rt, ?_⟩
    cases rt with
    | error e =>
      obtain ⟨rfl, -⟩ := ends_done h₂
      simp
    | ok rt =>
      obtain ⟨previous, tr₃, rfl, h₃⟩ := ends_act h₂
      obtain rfl := replace_failed h₃
      exact List.forall_mem_singleton.2 (get_reads previous)

/-! ### Runs -/

/-- The live runtime and the listeners have the settings of the start. -/
structure Steady (s : Settings) (w : World) : Prop where
  live : Fit s w.live.rt
  listening : ∀ x ∈ w.listening, x = (s.servers, s.api.http)

theorem keeps (s : Settings) : Pool.Keeps machine (contract s) fun w _ => Steady s w where
  perform {w e r w' new l t l'} hj hg hp := by
    obtain ⟨hp, rfl⟩ := hp
    refine and_assoc.1 ⟨?_, by simp⟩
    cases e with
    | load => cases hp; exact ⟨trivial, hj⟩
    | build config =>
      obtain ⟨⟨order, ld, rfl⟩, rfl⟩ := hp
      refine ⟨fun rt hrt => ?_, hj.live, hj.listening⟩
      obtain ⟨rt, hb, rfl⟩ := map_eq_ok.1 hrt
      exact ⟨order, ld, config, hb⟩
    | get =>
      obtain ⟨rfl, rfl⟩ := hp
      exact ⟨hj.live, hj⟩
    | swap rt => cases hp; exact ⟨trivial, hg, hj.listening⟩
    | listen servers http =>
      cases hp
      obtain ⟨rfl, rfl⟩ := hg
      exact ⟨trivial, hj.live, List.forall_mem_cons.2 ⟨rfl, hj.listening⟩⟩
    | join => cases hp; exact ⟨trivial, hj⟩
  release hj := hj
  drift _ hd := hd.elim
  arrive hj ha := by
    refine ⟨hj, ?_⟩
    rcases ha with rfl | rfl
    · exact (reloadFile_sat s).bind fun _ _ => trivial
    · exact (serve_sat s).bind fun _ _ => trivial

/-- A reload that fails leaves the live pointer as it was. In every run of overlapping calls the live
runtime keeps the settings of the start, with which all listeners were started, and the entry of
every listener resolves in its registry. -/
theorem reload_safe :
    (∀ tr e, Ends reloadFile tr (.error e) → ∀ ev ∈ tr, Reads ev) ∧
    ∀ (w : World) (tr : List (Prog.Event Eff Eff.Answer)) (q : Pool World Unit Unit Eff Eff.Answer),
      Built w.live.rt → w.listening = [] → Pool.Run machine ⟨w, []⟩ tr q →
      settings q.world.live.rt = settings w.live.rt ∧
      ∀ servers http, (servers, http) ∈ q.world.listening →
        servers = q.world.live.rt.config.servers ∧ http = q.world.live.rt.config.api.http ∧
        ∀ server ∈ servers, ∃ p, q.world.live.rt.registry.getExec server.exec = .ok p := by
  refine ⟨fun tr e => failed_reads, fun w tr q hb hl hrun => ?_⟩
  have hsteady : Steady (settings w.live.rt) w := ⟨⟨rfl, hb⟩, by simp [hl]⟩
  obtain ⟨⟨⟨hset, hbuilt⟩, hlist⟩, -⟩ := ((keeps _).run hrun ⟨hsteady, by simp⟩).1
  refine ⟨hset, fun servers http hx => ?_⟩
  obtain ⟨rfl, rfl⟩ := Prod.mk.inj (hlist _ hx)
  rw [← hset]
  exact ⟨rfl, rfl, Built.resolves hbuilt⟩

/-! ### A reload of the small service -/

section Sample

/-- The configuration file stays as it is, and the listeners fail at once. -/
def unchanging : Oracle World Unit Unit Eff Eff.Answer
  | w, .load => some (.ok Runtime.smallConfig, w, [])
  | w, .build config => some ((Runtime.build Runtime.asInserted Runtime.offline config).map
      fun rt => ⟨w.fresh, rt⟩, { w with fresh := w.fresh + 1 }, [])
  | w, .get => some (w.live, w, [])
  | w, .swap rt => some ((), { w with live := rt }, [])
  | w, .listen servers http => some ((), { w with listening := (servers, http) :: w.listening }, [])
  | w, .join => some (.io "address in use", w, [])

theorem unchanging_allowed : Pool.Allows machine unchanging := by
  intro w e r w' new h
  cases e <;> cases h
  case build config => exact ⟨⟨⟨_, _, rfl⟩, rfl⟩, rfl⟩
  case get => exact ⟨⟨rfl, rfl⟩, rfl⟩
  all_goals exact ⟨rfl, rfl⟩

theorem reload_safe_small : ∃ rt tr q,
    Runtime.build Runtime.asInserted Runtime.offline Runtime.smallConfig = .ok rt ∧
    Pool.Run machine ⟨⟨⟨0, rt⟩, 1, []⟩, []⟩ tr q ∧ q.world.live.ptr = 1 ∧
    settings q.world.live.rt = settings rt ∧
    (rt.config.servers, none) ∈ q.world.listening ∧
    (∀ server ∈ rt.config.servers, ∃ p, q.world.live.rt.registry.getExec server.exec = .ok p) ∧
    Reads ⟨.load, .error (.io "gone")⟩ := by
  have hbuild : (Runtime.build Runtime.asInserted Runtime.offline Runtime.smallConfig).map
      (fun rt => (rt.validateService, rt.config.api.http)) = .ok (.ok (), none) := by decide +kernel
  obtain ⟨rt, hrt, hservice⟩ := map_eq_ok.1 hbuild
  obtain ⟨hvalid, hhttp⟩ := Prod.mk.inj hservice
  have hfails : Reads ⟨.load, .error (.io "gone")⟩ :=
    reload_safe.1 [⟨.load, .error (.io "gone")⟩] (.io "gone") (.act _ (.refl _)) _ (by simp)
  have hserve : ∃ tr, (task serve).2.play unchanging true ⟨⟨0, rt⟩, 1, []⟩ =
      some (tr, (), ⟨⟨0, rt⟩, 1, [(rt.config.servers, none)]⟩, []) :=
    ⟨_, by simp only [task, serve, bind_act, play, unchanging, hvalid, hhttp]; rfl⟩
  have hreload : ∃ tr, (task reloadFile).2.play unchanging true
      ⟨⟨0, rt⟩, 1, [(rt.config.servers, none)]⟩ =
      some (tr, (), ⟨⟨1, rt⟩, 2, [(rt.config.servers, none)]⟩, []) :=
    ⟨[⟨.load, .ok Runtime.smallConfig⟩, ⟨.build Runtime.smallConfig, .ok ⟨1, rt⟩⟩, ⟨.get, ⟨0, rt⟩⟩,
      ⟨.swap ⟨1, rt⟩, ()⟩], by simp [task, reloadFile, replace, play, unchanging, hrt, Except.map]⟩
  obtain ⟨tr₁, h₁⟩ := hserve
  obtain ⟨tr₂, h₂⟩ := hreload
  have hrun : Pool.Run machine ⟨⟨⟨0, rt⟩, 1, []⟩, []⟩ (tr₁ ++ tr₂)
      ⟨⟨⟨1, rt⟩, 2, [(rt.config.servers, none)]⟩, [((), .done ()), ((), .done ())]⟩ :=
    .trans (.step (.arrive (Or.inr rfl)) (Pool.play_run unchanging_allowed h₁ [] [] ()))
      (.step (.arrive (Or.inl rfl))
        (Pool.play_run unchanging_allowed h₂ [((), .done ())] [] ()))
  obtain ⟨hset, hlist⟩ := reload_safe.2 _ _ _ ⟨_, _, _, hrt⟩ rfl hrun
  exact ⟨rt, _, _, hrt, hrun, rfl, hset, List.mem_singleton.2 rfl,
    (hlist _ _ (List.mem_singleton.2 rfl)).2.2, hfails⟩

end Sample

end Live

end FerrumDns
