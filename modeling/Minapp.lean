import Minapp.Library.TransitionSystem
import Minapp.Library.FirstOccurrence
import Minapp.Library.Positional
import Minapp.Library.StreamParser
import Minapp.Library.Interleaving
import Minapp.Library.OrderedSet
import Minapp.Library.OrderedMap
import Minapp.Library.Hexadecimal
import Minapp.Library.Linearization
import Minapp.Library.References
import Minapp.Model.Protocol
import Minapp.Model.TripleBuffer
import Minapp.Model.Receive
import Minapp.Model.BufferManager
import Minapp.Model.Session
import Minapp.Model.SessionManager
import Minapp.Model.Atomic
import Minapp.Verification.Receive.Buffer
import Minapp.Verification.Receive.Prefix
import Minapp.Verification.Receive.Invariant
import Minapp.Verification.Receive.Limit
import Minapp.Verification.Receive.Conservation
import Minapp.Verification.Receive.Reference
import Minapp.Verification.Receive.Simulation
import Minapp.Verification.Receive.Framing
import Minapp.Verification.Session.Steps
import Minapp.Verification.Session.WriteQueue
import Minapp.Verification.Session.Status
import Minapp.Verification.Session.Upcalls
import Minapp.Verification.Session.Graceful
import Minapp.Verification.SessionManager.Steps
import Minapp.Verification.SessionManager.Lifecycle
import Minapp.Verification.SessionManager.Published
import Minapp.Verification.SessionManager.Lookup
import Minapp.Verification.Atomic.Steps
import Minapp.Verification.Atomic.Lock
import Minapp.Verification.Atomic.Counts
import Minapp.Verification.Atomic.Linearizable
import Minapp.Model.AttributeSet
import Minapp.Model.Servlets
import Minapp.Verification.AttributeSet.Map
import Minapp.Verification.AttributeSet.Foreach
import Minapp.Verification.Servlets.Agreement
import Minapp.Verification.Servlets.Isolation
import Minapp.Library.Memory
import Minapp.Verification.Receive.Consume
import Minapp.Verification.Session.Stranded
import Minapp.Model.Connect
import Minapp.Verification.Session.Connect
import Minapp.Model.Object
import Minapp.Verification.Object.Counts
import Minapp.Model.PersistentBuffer
import Minapp.Verification.PersistentBuffer.Capture
import Minapp.Model.ArrayHolder
import Minapp.Verification.Object.Arrays
import Minapp.Verification.Receive.Draining
import Minapp.Library.Scanf
import Minapp.Model.Bluetooth
import Minapp.Verification.Bluetooth.Grammar
import Minapp.Verification.Bluetooth.RoundTrip
import Minapp.Library.CountedLoop
import Minapp.Model.Hexdump
import Minapp.Verification.Hexdump.Lossless
import Minapp.Model.DynamicBuffer
import Minapp.Verification.Receive.Rounds
import Minapp.Library.IntrusiveList
import Minapp.Model.PersistentBufferManager
import Minapp.Verification.PersistentBuffer.Slots
import Minapp.Verification.PersistentBuffer.Lists
import Minapp.Verification.PersistentBuffer.Partition
import Minapp.Library.WaitQueue
import Minapp.Model.Spinlock
import Minapp.Verification.Spinlock
import Minapp.Model.AtomicWait
import Minapp.Verification.Atomic.Waiting
import Minapp.Verification.Atomic.Wakeup
import Minapp.Model.Guarded
import Minapp.Verification.Guarded
import Minapp.Verification.AttributeSet.Shared
import Minapp.Model.SharedManager
import Minapp.Verification.PersistentBuffer.Exclusive
import Minapp.Verification.PersistentBuffer.Shared
import Minapp.Model.Handler
import Minapp.Verification.Handler
import Minapp.Verification.Receive.Retained
import Minapp.Model.Socks5
import Minapp.Verification.Socks5.Grammar
import Minapp.Verification.Socks5.Decoding
import Minapp.Verification.Socks5.Session
import Minapp.Model.Forward
import Minapp.Verification.Forward.Reader
import Minapp.Verification.Forward.Relay
import Minapp.Library.Token
import Minapp.Verification.Session.ReadChain
import Minapp.Library.Lockstep
import Minapp.Model.DynamicBufferV1
import Minapp.Verification.Receive.Overlay
import Minapp.Verification.Receive.Builds
import Minapp.Verification.Session.Outcome
