import FerrumDns.Sample
import FerrumDns.Pipeline.Tasks

/-! What a cache hit serves. A fresh hit takes the elapsed seconds off every TTL
outside OPT records; a lazy hit overwrites the TTLs of answers and authorities
only, so an additional record keeps the TTL it was stored with. -/

namespace FerrumDns

open Prog Dnsutil

namespace Cache

variable [Crates]

/-- The trace of a cache step that serves nothing. -/
def Missed (c : Cache) (ctx : QueryContext) (tr : Trace) : Prop :=
  tr = [] ∨ tr = [⟨.count .cacheMisses, ()⟩] ∨
    ∃ key r, tr = [⟨.lookup c key ctx.query, r⟩, ⟨.count .cacheMisses, ()⟩]

/-- How a cache step can end: with its context at most traced, or by serving a decoded entry as of
a clock reading taken after the look-up. -/
theorem exec_ends {c : Cache} {ctx : QueryContext} {tr : Trace} {o : Outcome}
    (h : Ends (c.exec ctx) tr o) :
    (Missed c ctx tr ∧ (o = (ctx, .ok .Continue) ∨ o = (ctx.pushTrace c.tag "miss", .ok .Continue))) ∨
    ∃ key hit msg now tr' event, keyOf ctx.query c.cacheEverything = some key ∧
      ctx.skipCache = false ∧ decode hit.wire = .ok msg ∧
      tr = ⟨.lookup c key ctx.query, some hit⟩ :: ⟨.now, now⟩ :: tr' ∧
      o = (c.withHit (ctx.pushTrace c.tag event) (c.served msg hit now), .ok .Continue) := by
  have missed {tr : Trace} (h : Ends (c.miss ctx) tr o) :
      tr = [⟨.count .cacheMisses, ()⟩] ∧ o = (ctx.pushTrace c.tag "miss", .ok .Continue) := by
    obtain ⟨r, tr', rfl, h'⟩ := ends_act h
    obtain ⟨rfl, rfl⟩ := ends_done h'
    exact ⟨rfl, rfl⟩
  have served {key : Text} {msg : Message} {hit : Hit} {now : ℕ} {tr : Trace}
      (h : Ends (c.serve ctx key msg hit now) tr o) :
      ∃ event, o = (c.withHit (ctx.pushTrace c.tag event) (c.served msg hit now), .ok .Continue) := by
    simp only [serve] at h
    split_ifs at h
    · obtain ⟨-, _, -, -, -, h⟩ := ends_bind h
      obtain ⟨-, _, -, -, -, h⟩ := ends_bind h
      obtain ⟨-, _, -, -, -, h⟩ := ends_bind h
      exact ⟨_, (ends_done h).2.symm⟩
    · obtain ⟨-, _, -, -, -, h⟩ := ends_bind h
      exact ⟨_, (ends_done h).2.symm⟩
  rw [exec] at h
  split at h
  · obtain ⟨rfl, rfl⟩ := ends_done h
    exact .inl ⟨.inl rfl, .inl rfl⟩
  next key hk =>
    split_ifs at h with hs
    · obtain ⟨rfl, rfl⟩ := missed h
      exact .inl ⟨.inr (.inl rfl), .inr rfl⟩
    · obtain ⟨r, tr₁, rfl, h₁⟩ := ends_act h
      cases r with
      | none =>
        obtain ⟨rfl, rfl⟩ := missed h₁
        exact .inl ⟨.inr (.inr ⟨key, none, rfl⟩), .inr rfl⟩
      | some hit =>
        dsimp only at h₁
        split at h₁
        · obtain ⟨rfl, rfl⟩ := missed h₁
          exact .inl ⟨.inr (.inr ⟨key, some hit, rfl⟩), .inr rfl⟩
        next msg hd =>
          obtain ⟨now, tr₂, rfl, h₂⟩ := ends_act h₁
          obtain ⟨event, ho⟩ := served h₂
          exact .inr ⟨key, hit, msg, now, tr₂, event, hk, by simpa using hs, hd, rfl, ho⟩

/-- A cache step that reads the clock after a hit serves the decoded entry. -/
theorem exec_hit {c : Cache} {ctx : QueryContext} {key : Text} {hit : Hit} {now : ℕ}
    {tr : Trace} {o : Outcome} {msg : Message} (hd : decode hit.wire = .ok msg)
    (h : Ends (c.exec ctx) (⟨.lookup c key ctx.query, some hit⟩ :: ⟨.now, now⟩ :: tr) o) :
    ∃ event, o = (c.withHit (ctx.pushTrace c.tag event) (c.served msg hit now), .ok .Continue) := by
  rcases exec_ends h with ⟨hm, -⟩ | ⟨key', hit', msg', now', tr', event, -, -, hd', htr, ho⟩
  · rcases hm with hm | hm | ⟨key', r, hm⟩ <;> simp at hm
  · cases htr
    obtain rfl := Except.ok.inj (hd'.symm.trans hd)
    exact ⟨event, ho⟩

/-- Every answered look-up whose entry decodes can be served at any later clock reading. -/
theorem exec_serves {c : Cache} {ctx : QueryContext} {key : Text} {hit : Hit} {msg : Message}
    (hk : keyOf ctx.query c.cacheEverything = some key) (hs : ctx.skipCache = false)
    (hd : decode hit.wire = .ok msg) (now : ℕ) : ∃ tr o,
      Ends (c.exec ctx) (⟨.lookup c key ctx.query, some hit⟩ :: ⟨.now, now⟩ :: tr) o := by
  have kicked (ctx : QueryContext) : ∃ tr, Ends (c.kickRefresh ctx key) tr () := by
    rw [kickRefresh]
    split_ifs
    · exact ⟨[], .refl _⟩
    · cases c.refresh with
      | none => exact ⟨[], .refl _⟩
      | some entry => exact ⟨_, Run.ends_perform (.kick c key _ _) ()⟩
  have served : ∃ tr o, Ends (c.serve ctx key msg hit now) tr o := by
    simp only [serve]
    split_ifs
    · obtain ⟨tr, hkick⟩ := kicked (ctx.pushTrace c.tag "lazy_hit")
      exact ⟨_, _, (Run.ends_count _).bind (hkick.bind ((Run.ends_count _).bind (.refl _)))⟩
    · exact ⟨_, _, (Run.ends_count _).bind (.refl _)⟩
  obtain ⟨tr, o, h⟩ := served
  refine ⟨tr, o, ?_⟩
  simp only [exec, hk, hs, Bool.false_eq_true, if_false]
  refine Leads.act (R := Eff.Answer) (e := .lookup c key ctx.query) (some hit) ?_
  simp only [hd]
  exact Leads.act (R := Eff.Answer) (e := .now) now h

end Cache

end FerrumDns
