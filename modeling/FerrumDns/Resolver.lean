import FerrumDns.Prog.Play
import FerrumDns.Server
import Mathlib.Data.Finset.Erase

/-! The whole resolver: requests and background refreshes as tasks over shared
caches, clock and counters. Requests arrive at any time; upstream servers answer
anything; the clock never goes back; caches may be flushed; the runtime may be
dropped, after which a refresh does nothing; any task may end at any point. A
refresh task is tagged with its guard, whose key its end sets free. -/

namespace FerrumDns

open Prog Dnsutil

/-- What requests share. -/
structure World where
  caches : Tag → CacheState
  clock : ℕ
  counters : Counter → ℕ
  live : Bool

/-- The key a refresh task holds in a cache's set of running refreshes. -/
structure Guard where
  cache : Tag
  key : Text
  deriving DecidableEq, Repr

/-- Requests hold no guard. -/
abbrev Owner := Option Guard

abbrev Task := Owner × Run Unit

namespace World

def setCache (w : World) (tag : Tag) (st : CacheState) : World :=
  { w with caches := Function.update w.caches tag st }

/-- `inflight.insert(key)`. -/
def claim (w : World) (g : Guard) : World :=
  w.setCache g.cache { w.caches g.cache with
    inflight := insert g.key (w.caches g.cache).inflight }

/-- `RefreshGuard::drop`. -/
def free (w : World) (g : Guard) : World :=
  w.setCache g.cache { w.caches g.cache with inflight := (w.caches g.cache).inflight.erase g.key }

def held (w : World) (g : Guard) : Prop := g.key ∈ (w.caches g.cache).inflight

instance (w : World) (g : Guard) : Decidable (w.held g) :=
  inferInstanceAs (Decidable (_ ∈ _))

def bump (w : World) (k : Counter) : World :=
  { w with counters := Function.update w.counters k (w.counters k + 1) }

end World

namespace Resolver

variable [Crates] (reg : Registry) (depth : ℕ)

/-- The task a refresh runs as. -/
def refreshTask (bg : QueryContext) (entry : Tag) : Run Unit :=
  act .upgrade fun (alive : Bool) =>
    if alive then (Server.handleQuery reg depth entry bg).bind fun _ => done () else done ()

/-- The task of a request, whatever is done with its reply. -/
def requestTask (entry : Tag) (ctx : QueryContext) : Run Unit :=
  (Server.handle reg depth entry ctx).bind fun _ => done ()

/-- What an action does to the world, what it may answer, and which task it starts. -/
def perform (w : World) : (e : Eff) → e.Answer → World → List Task → Prop
  | .call _ _, _, w', new => w' = w ∧ new = []
  | .lookup c key _, r, w', new =>
    r = ((w.caches c.tag).lookup c key w.clock).1 ∧
      w' = w.setCache c.tag ((w.caches c.tag).lookup c key w.clock).2 ∧ new = []
  | .now, r, w', new => r = w.clock ∧ w' = w ∧ new = []
  | .timer _, r, w', new => r = w.clock ∧ w' = w ∧ new = []
  | .insert c lookup _ entry, _, w', new =>
    w' = w.setCache c.tag ((w.caches c.tag).insert lookup.key entry) ∧ new = []
  | .kick c key bg entry, _, w', new =>
    if w.held ⟨c.tag, key⟩ then w' = w ∧ new = []
    else w' = w.claim ⟨c.tag, key⟩ ∧ new = [(some ⟨c.tag, key⟩, refreshTask reg depth bg entry)]
  | .count k, _, w', new => w' = w.bump k ∧ new = []
  | .exchange _ _, _, w', new => w' = w ∧ new = []
  | .upgrade, r, w', new => r = w.live ∧ w' = w ∧ new = []
  | .overflow, _, _, _ => False

/-- How the world moves by itself. -/
inductive Drift : World → World → Prop
  | tick {w : World} {t : ℕ} (h : w.clock ≤ t) : Drift w { w with clock := t }
  | flush {w : World} (tag : Tag) (i : Fin 16) :
      Drift w (w.setCache tag ((w.caches tag).flush i))
  | drop {w : World} : Drift w { w with live := false }

/-- A request at a listener or at the diagnostic interface. -/
inductive Arrives : Task → Prop
  | listener (entry : Tag) (q : Message) (peer : Option IpAddr) (proto : ClientProto) :
      Arrives (none, requestTask reg depth entry (QueryContext.new q peer proto))
  | diagnostic (entry : Tag) (q : Message) (peer : Option IpAddr) :
      Arrives (none, requestTask reg depth (Server.entryTag entry)
        { QueryContext.new q peer .Https with traceEnabled := true })

/-- The end of a task drops the guard it holds. -/
def release : Owner → World → World
  | some g, w => w.free g
  | none, w => w

def machine : Machine World Owner QueryContext Eff Eff.Answer where
  perform := perform reg depth
  release := release
  drift := Drift
  arrive := fun _ task => Arrives reg depth task

/-- The machine's own answers, with the upstream servers' given. -/
def oracle (ups : (l : List Upstream) → Message → Option (Fin l.length × Except Error Message)) :
    Oracle World Owner QueryContext Eff Eff.Answer
  | w, .call _ _ => some ((), w, [])
  | w, .lookup c key _ =>
    let (r, st) := (w.caches c.tag).lookup c key w.clock
    some (r, w.setCache c.tag st, [])
  | w, .now => some (w.clock, w, [])
  | w, .timer _ => some (w.clock, w, [])
  | w, .insert c lookup _ entry =>
    some ((), w.setCache c.tag ((w.caches c.tag).insert lookup.key entry), [])
  | w, .kick c key bg entry =>
    if w.held ⟨c.tag, key⟩ then some ((), w, [])
    else some ((), w.claim ⟨c.tag, key⟩,
      [(some ⟨c.tag, key⟩, refreshTask reg depth bg entry)])
  | w, .count k => some ((), w.bump k, [])
  | w, .exchange l q => (ups l q).map fun r => (r, w, [])
  | w, .upgrade => some (w.live, w, [])
  | _, .overflow => none

theorem machine_allows (ups) : Pool.Allows (machine reg depth) (oracle reg depth ups) := by
  intro w e r w' new h
  cases e with
  | kick c key bg entry =>
    simp only [oracle] at h
    split_ifs at h with hk <;> cases h
    · exact (if_pos hk).mpr ⟨rfl, rfl⟩
    · exact (if_neg hk).mpr ⟨rfl, rfl⟩
  | exchange l q =>
    obtain ⟨r', -, hr⟩ := Option.map_eq_some_iff.1 h
    cases hr
    exact ⟨rfl, rfl⟩
  | overflow => cases h
  | lookup c key q => cases h; exact ⟨rfl, rfl, rfl⟩
  | now => cases h; exact ⟨rfl, rfl, rfl⟩
  | timer d => cases h; exact ⟨rfl, rfl, rfl⟩
  | upgrade => cases h; exact ⟨rfl, rfl, rfl⟩
  | _ => cases h; exact ⟨rfl, rfl⟩

abbrev State := Pool World Owner QueryContext Eff Eff.Answer

/-- A run of the resolver with the actions its tasks performed, in order. -/
abbrev Runs (p : State) (tr : Trace) (q : State) : Prop := Pool.Run (machine reg depth) p tr q

/-- Empty caches, nothing running. -/
structure Fresh (p : State) : Prop where
  empty : ∀ tag i, ((p.world.caches tag).shards i).map = []
  idle : ∀ tag, (p.world.caches tag).inflight = ∅
  quiet : p.tasks = []

end Resolver

end FerrumDns
