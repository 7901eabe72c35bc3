import NimbleRs.TransitionSystem
import NimbleRs.PointerChain
import NimbleRs.WaitUntil
import NimbleRs.EventQueue
import NimbleRs.EventQueueInvariant
import NimbleRs.EventQueueRefinement
import NimbleRs.Callout
import NimbleRs.TimerInvariant
import NimbleRs.TimerRefinement
import NimbleRs.CalloutHistory
import NimbleRs.CalloutRace
import NimbleRs.RunLoop
import NimbleRs.PumpSlot
import NimbleRs.Outbound
import NimbleRs.Mutex
import NimbleRs.SendCmd
import NimbleRs.FeedEvent
import NimbleRs.PumpWakers
import NimbleRs.CommandAck
import NimbleRs.OutboundOrder
import NimbleRs.Semaphore
import NimbleRs.SemaphoreWakeups
import NimbleRs.RecursiveMutex
import NimbleRs.DriverTimers
import NimbleRs.FlagGuard
import NimbleRs.Singleton
import NimbleRs.DriverLifecycle
import NimbleRs.EventBuffer
import NimbleRs.EventDeinit
import NimbleRs.GattServices
import NimbleRs.EventqDeinit
import NimbleRs.CalloutTicks
import NimbleRs.InboundAcl
import NimbleRs.OutboundAcl
import NimbleRs.Mbuf
import NimbleRs.AdvFields
import NimbleRs.Features
import NimbleRs.LineAssembly
import NimbleRs.Clog
import NimbleRs.ClogLevels
import NimbleRs.HwCritical
import NimbleRs.MbufOwnership
import NimbleRs.MemPool
import NimbleRs.MemPoolLedger
import NimbleRs.TableLifetime
import NimbleRs.FeatureUnion
import NimbleRs.ClogContexts
import NimbleRs.Events
import NimbleRs.HciExchange
import NimbleRs.HookLifetime
import NimbleRs.ConfigWindow
import NimbleRs.CalloutOrder
import NimbleRs.CalloutResponse
