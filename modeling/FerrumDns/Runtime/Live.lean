import FerrumDns.Runtime.Build
import FerrumDns.Prog.Pool

/-! The live runtime that listeners share. Reloading reads the configuration
again, builds a second runtime, compares its settings with those of the runtime
that is live by then, and swaps the pointer. Serving copies the entries of its
servers once. Any number of these calls may overlap: each reading and each
writing of the pointer is one action. -/

namespace FerrumDns

open Prog

def Runtime.validateService (rt : Runtime) : Except Error Unit :=
  if rt.config.api.http = none ∧ rt.config.servers.all fun server => server.listeners.isEmpty then
    .error (.config "no listeners configured — add a server or admin API")
  else .ok ()

namespace Live

/-- A runtime with the address it was allocated at. -/
structure Arc where
  ptr : ℕ
  rt : Runtime

/-- `listen` starts the listeners of the servers, each with its server's entry, and the admin API;
`join` waits for the first of them to end. -/
inductive Eff where
  | load
  | build (config : Config)
  | get
  | swap (rt : Arc)
  | listen (servers : List ServerConfig) (http : Option String)
  | join

@[reducible] def Eff.Answer : Eff → Type
  | load => Except Error Config
  | build _ => Except Error Arc
  | get => Arc
  | swap _ | listen _ _ => Unit
  | join => Error

abbrev Call (α : Type) := Prog Unit Eff Eff.Answer α

/-- Install the new runtime, unless it differs in what listeners and logging were started with. -/
def replace (previous rt : Arc) : Call (Except Error Unit) :=
  if previous.rt.config.servers ≠ rt.rt.config.servers ∨ previous.rt.config.api ≠ rt.rt.config.api then
    done (.error (.config "listener, entry or API changes require a process restart"))
  else if previous.rt.config.log ≠ rt.rt.config.log then
    done (.error (.config "logging changes require a process restart"))
  else act (.swap rt) fun _ => done (.ok ())

def reloadFile : Call (Except Error Unit) :=
  act .load fun (cfg : Except Error Config) =>
    match cfg with
    | .error e => done (.error e)
    | .ok cfg => await () (act (.build cfg) fun (rt : Except Error Arc) =>
      match rt with
      | .error e => done (.error e)
      | .ok rt => act .get fun (previous : Arc) => replace previous rt)

def serve : Call (Except Error Unit) :=
  act .get fun (snapshot : Arc) =>
    match snapshot.rt.validateService with
    | .error e => done (.error e)
    | .ok () => act (.listen snapshot.rt.config.servers snapshot.rt.config.api.http) fun _ =>
      await () (act .join fun (e : Error) => done (.error e))

/-! ### The shared state -/

/-- The live pointer, the next free address, and what listeners were started with so far. -/
structure World where
  live : Arc
  fresh : ℕ
  listening : List (List ServerConfig × Option String)

/-- A runtime that `Runtime::build` made of some configuration, whatever it read then. -/
def Built (rt : Runtime) : Prop :=
  ∃ order l config, Runtime.build order l config = .ok rt

/-- What an action answers and does. Files may hold anything at any time. -/
def perform (w : World) : (e : Eff) → e.Answer → World → Prop
  | .load, _, w' => w' = w
  | .build config, r, w' =>
    (∃ order l, r = (Runtime.build order l config).map fun rt => ⟨w.fresh, rt⟩) ∧
      w' = { w with fresh := w.fresh + 1 }
  | .get, rt, w' => rt = w.live ∧ w' = w
  | .swap rt, _, w' => w' = { w with live := rt }
  | .listen servers http, _, w' => w' = { w with listening := (servers, http) :: w.listening }
  | .join, _, w' => w' = w

/-- A call whose result goes to its caller. -/
def task (call : Call (Except Error Unit)) : Unit × Call Unit := ((), call.bind fun _ => done ())

/-- Calls of both kinds arrive at any time. -/
def machine : Machine World Unit Unit Eff Eff.Answer where
  perform w e r w' new := perform w e r w' ∧ new = []
  release _ w := w
  drift _ _ := False
  arrive _ t := t = task reloadFile ∨ t = task serve

end Live

end FerrumDns
