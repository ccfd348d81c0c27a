import TcpCongestion.LittleEndian
import TcpCongestion.Runs
import TcpCongestion.Words
import TcpCongestion.ByteCodec
import TcpCongestion.ByteCodecProofs
import TcpCongestion.CodecRoundTrip
import TcpCongestion.TruncatedFloat
import TcpCongestion.UFloat16
import TcpCongestion.ReaderPrefix
import TcpCongestion.HeapOrder
import TcpCongestion.MinHeap
import TcpCongestion.MinHeapProofs
import TcpCongestion.HeapIndices
import TcpCongestion.MinHeap32
import TcpCongestion.MinHeap32Proofs
import TcpCongestion.HeapRuns
import TcpCongestion.NetworkThread
import TcpCongestion.TaskScheduling
import TcpCongestion.PostingOrder
import TcpCongestion.TaskQueue32
import TcpCongestion.EventStore
import TcpCongestion.QueueSteps
import TcpCongestion.EventLifetime
import TcpCongestion.Posix
import TcpCongestion.Counters
import TcpCongestion.EventLoop
import TcpCongestion.TimeEvents
import TcpCongestion.TcpClient
import TcpCongestion.TcpClientProofs
import TcpCongestion.SenderStream
import TcpCongestion.TcpPeer
import TcpCongestion.TcpPeerProofs
import TcpCongestion.ReceiverChunking
import TcpCongestion.EndToEnd
import TcpCongestion.TcpServer
import TcpCongestion.TcpServerProofs
import TcpCongestion.ServerRegistration
import TcpCongestion.EndOfFile
import TcpCongestion.PeerCounter
import TcpCongestion.RedisMain
import TcpCongestion.RedisProofs
import TcpCongestion.RedisServer
import TcpCongestion.RedisIsolation
import TcpCongestion.RedisClosing
import TcpCongestion.ClientDescriptors
import TcpCongestion.SenderProgress
import TcpCongestion.Timers
import TcpCongestion.PeerRuns
import TcpCongestion.DoneSignal
import TcpCongestion.ReceiveTrace
import TcpCongestion.BlockClient
import TcpCongestion.FileEvents
import TcpCongestion.FileEventProofs
import TcpCongestion.Dispatch
import TcpCongestion.ServerLoop
import TcpCongestion.ShiftRegister
import TcpCongestion.MersenneTwister
import TcpCongestion.LinkedCells
import TcpCongestion.TimerChain
import TcpCongestion.TimerLives
import TcpCongestion.TimerPass
import TcpCongestion.TimerCallbacks
import TcpCongestion.PollTimeout
import TcpCongestion.SpinLock
import TcpCongestion.FieldText
import TcpCongestion.TraceFile
import TcpCongestion.Listening
