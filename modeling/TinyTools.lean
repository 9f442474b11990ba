import TinyTools.Chord.AdjacentCrashes
import TinyTools.Chord.Breach
import TinyTools.Chord.Commands
import TinyTools.Chord.Convergence
import TinyTools.Chord.Crashes
import TinyTools.Chord.Exchanges
import TinyTools.Chord.Executions
import TinyTools.Chord.FingerConvergence
import TinyTools.Chord.Fingers
import TinyTools.Chord.Halving
import TinyTools.Chord.Lookup
import TinyTools.Chord.Neighbours
import TinyTools.Chord.Network
import TinyTools.Chord.Node
import TinyTools.Chord.Position
import TinyTools.Chord.Predecessor
import TinyTools.Chord.Receive
import TinyTools.Chord.Records
import TinyTools.Chord.Repair
import TinyTools.Chord.Retry
import TinyTools.Chord.Ring
import TinyTools.Chord.Routing
import TinyTools.Chord.Segments
import TinyTools.Chord.Servers
import TinyTools.Chord.Sha1
import TinyTools.Chord.Sha1Spec
import TinyTools.Chord.StaleFingers
import TinyTools.Chord.UpdateLoop
import TinyTools.Chord.Wire
import TinyTools.Ecc.Decoder
import TinyTools.Ecc.Detection
import TinyTools.Ecc.Encoder
import TinyTools.Ecc.Erasure
import TinyTools.Ecc.Fft
import TinyTools.Ecc.FftBijective
import TinyTools.Ecc.FftCorrect
import TinyTools.Ecc.GaloisField
import TinyTools.Ecc.Linearity
import TinyTools.Ecc.Markers
import TinyTools.Ecc.Reencode
import TinyTools.Ecc.Solver
import TinyTools.Lib.Blocks
import TinyTools.Lib.Butterfly
import TinyTools.Lib.CString
import TinyTools.Lib.Calls
import TinyTools.Lib.Chop
import TinyTools.Lib.Clockwise
import TinyTools.Lib.Deadlock
import TinyTools.Lib.Decimal
import TinyTools.Lib.Descriptors
import TinyTools.Lib.Elimination
import TinyTools.Lib.Interpolation
import TinyTools.Lib.Loop
import TinyTools.Lib.PointerRing
import TinyTools.Lib.Recency
import TinyTools.Lib.Served
import TinyTools.Lib.Settling
import TinyTools.Lib.Words
import TinyTools.Proxy.Address
import TinyTools.Proxy.Bodies
import TinyTools.Proxy.Buffering
import TinyTools.Proxy.Cache
import TinyTools.Proxy.CacheInvariant
import TinyTools.Proxy.Cacheability
import TinyTools.Proxy.Chunked
import TinyTools.Proxy.ChunkedRelay
import TinyTools.Proxy.CommClient
import TinyTools.Proxy.Exchange
import TinyTools.Proxy.FailedWrites
import TinyTools.Proxy.FieldNames
import TinyTools.Proxy.Filing
import TinyTools.Proxy.Forwarded
import TinyTools.Proxy.Framing
import TinyTools.Proxy.HeaderLines
import TinyTools.Proxy.History
import TinyTools.Proxy.HttpHeader
import TinyTools.Proxy.Incomplete
import TinyTools.Proxy.LeastRecent
import TinyTools.Proxy.Leftover
import TinyTools.Proxy.Minion
import TinyTools.Proxy.Reading
import TinyTools.Proxy.Replay
import TinyTools.Proxy.RequestLine
import TinyTools.Proxy.Responses
import TinyTools.Proxy.Sessions
import TinyTools.Proxy.Splitting
import TinyTools.Proxy.Writing
import TinyTools.Shell.ArgumentVectors
import TinyTools.Shell.Bounds
import TinyTools.Shell.Buffers
import TinyTools.Shell.Child
import TinyTools.Shell.Commands
import TinyTools.Shell.Descriptors
import TinyTools.Shell.DirStack
import TinyTools.Shell.Escaping
import TinyTools.Shell.Lifo
import TinyTools.Shell.Line
import TinyTools.Shell.Malformed
import TinyTools.Shell.Normalise
import TinyTools.Shell.Pipeline
import TinyTools.Shell.ReadLoop
import TinyTools.Shell.Redirections
import TinyTools.Shell.SegmentStreams
import TinyTools.Shell.Stages
import TinyTools.Shell.Writing
import TinyTools.SimpleProxy.Relay
import TinyTools.SimpleProxy.Rio
import TinyTools.SimpleProxy.RioCalls
import TinyTools.SimpleProxy.Target
import TinyTools.SimpleProxy.Tunnel
