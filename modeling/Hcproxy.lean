import Hcproxy.Lib.Runs
import Hcproxy.Lib.Threads
import Hcproxy.Lib.Ring
import Hcproxy.Lib.Linked
import Hcproxy.Lib.Programs
import Hcproxy.Lib.Ownership
import Hcproxy.Lib.Budgets
import Hcproxy.Lib.Simulations
import Hcproxy.Lib.Assertions
import Hcproxy.Lib.Histories
import Hcproxy.Clock
import Hcproxy.ThreadPool
import Hcproxy.ThreadPoolWakeups
import Hcproxy.ThreadPoolOrder
import Hcproxy.ThreadPoolShutdown
import Hcproxy.Bits
import Hcproxy.Parser
import Hcproxy.ParserCuts
import Hcproxy.ParserLanguage
import Hcproxy.Dns
import Hcproxy.DnsTasks
import Hcproxy.DnsCallbacks
import Hcproxy.DnsWaiting
import Hcproxy.DnsHistory
import Hcproxy.DnsSingleFlight
import Hcproxy.DnsAnswers
import Hcproxy.DnsRoundRobin
import Hcproxy.DnsRing
import Hcproxy.DnsFreshness
import Hcproxy.DnsPromises
import Hcproxy.DnsRetention
import Hcproxy.DnsRest
import Hcproxy.DnsDeliveries
import Hcproxy.Resolver
import Hcproxy.ResolverRefines
import Hcproxy.ResolverLookups
import Hcproxy.ResolverRest
import Hcproxy.PortFilter
import Hcproxy.Lib.Exec
import Hcproxy.NodeList
import Hcproxy.EventLoop
import Hcproxy.Loop
import Hcproxy.LoopInvariant
import Hcproxy.LoopOps
import Hcproxy.LoopDispatch
import Hcproxy.LoopRepresentation
import Hcproxy.LoopTimeouts
import Hcproxy.TimeArithmetic
import Hcproxy.Forwarder
import Hcproxy.ForwarderLinks
import Hcproxy.ForwarderCounts
import Hcproxy.ForwarderInvariant
import Hcproxy.ForwarderCalls
import Hcproxy.ForwarderDispatch
import Hcproxy.ForwarderNew
import Hcproxy.ForwarderRuns
import Hcproxy.ForwarderTunnels
import Hcproxy.ForwarderPasses
import Hcproxy.ForwarderTermination
import Hcproxy.ForwarderDeadlines
import Hcproxy.ForwarderTimeouts
import Hcproxy.ForwarderDirections
import Hcproxy.ForwarderEdges
import Hcproxy.ForwarderFlows
import Hcproxy.ForwarderStalls
import Hcproxy.ForwarderProgress
import Hcproxy.ForwarderNoStall
import Hcproxy.ForwarderUses
import Hcproxy.ForwarderSockets
import Hcproxy.Proxy
import Hcproxy.ProxySteps
import Hcproxy.ProxyHistory
import Hcproxy.ProxyDeadlock
import Hcproxy.ProxyHandlers
import Hcproxy.ProxyHostPort
import Hcproxy.ProxyFiles
import Hcproxy.ProxyAccounts
import Hcproxy.ProxyOwnership
import Hcproxy.ProxyRoutes
import Hcproxy.ProxyStages
import Hcproxy.ProxyRequests
