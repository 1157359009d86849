import FerrumDns.Pipeline.UdpLimit
import FerrumDns.Cache.BoundedAge
import FerrumDns.Cache.HitTtl
import FerrumDns.Cache.Isolation
import FerrumDns.Cache.WriteBack
import FerrumDns.Refresh.Bypass
import FerrumDns.Refresh.Effect
import FerrumDns.Refresh.Replay
import FerrumDns.Refresh.SingleFlight
import FerrumDns.Transparency.Transparent
import FerrumDns.Reply.Subnet
import FerrumDns.Listeners.Mapped
import FerrumDns.Listeners.Agree
import FerrumDns.Alias.Late
import FerrumDns.Runtime.Reload
import FerrumDns.Alias.Chain
import FerrumDns.Lru.Sharded
import FerrumDns.Forward.Race
import FerrumDns.Fallback.Isolated
import FerrumDns.Reply.Opt
import FerrumDns.Cache.Contents
import FerrumDns.Reply.Datagram
import FerrumDns.Cache.Settings
import FerrumDns.Runtime.Include
import FerrumDns.Upstream.StreamPool
import FerrumDns.Listeners.Session
import FerrumDns.Pipeline.Control
import FerrumDns.Ecs.Disclosure
import FerrumDns.DomainSet.Rules
import FerrumDns.Hosts.Table
import FerrumDns.Upstream.Bootstrap
import FerrumDns.Upstream.Authority
import FerrumDns.Listeners.DohGet
import FerrumDns.Api.Origin
import FerrumDns.Plugin.Strict
import FerrumDns.DomainSet.Wire
import FerrumDns.Console.Agreement
import FerrumDns.Api.Query
import FerrumDns.Metrics.Accounts
import FerrumDns.Pipeline.Cost
import FerrumDns.Forward.Relayed
import FerrumDns.Listeners.Chained
import FerrumDns.Listeners.Handshakes
import FerrumDns.Api.Subnet
import FerrumDns.Runtime.Owned
import FerrumDns.Api.Flushed
import FerrumDns.Plugin.Sets
import FerrumDns.Upstream.Dialing
import FerrumDns.Api.System
import FerrumDns.Listeners.Anonymous
import FerrumDns.Api.Diagnosed
