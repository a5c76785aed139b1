import WebServer.GuardedRuns
import WebServer.ProjectedRuns
import WebServer.Resumable
import WebServer.StreamReader
import WebServer.EdgeTrigger
import WebServer.DataRefinement
import WebServer.FifoQueue
import WebServer.SegmentedLog
import WebServer.Buffer
import WebServer.BufferQueue
import WebServer.KeyedList
import WebServer.HttpContext
import WebServer.ParserStream
import WebServer.ParserChunking
import WebServer.ParserProgress
import WebServer.MessageLength
import WebServer.HttpResponse
import WebServer.HeadLines
import WebServer.RequestEncoding
import WebServer.StaticFiles
import WebServer.GzipOutput
import WebServer.PathTests
import WebServer.PercentEncoding
import WebServer.PathFilter
import WebServer.PathResolution
import WebServer.Connection
import WebServer.ReplyCases
import WebServer.KeepAlive
import WebServer.HeaderSpelling
import WebServer.LengthAgreement
import WebServer.Routes
import WebServer.FileContainment
import WebServer.StaticStatus
import WebServer.Handlers
import WebServer.ConnectionRuns
import WebServer.HeaderTable
import WebServer.RearrangedLogs
import WebServer.ObjectReuse
import WebServer.ResponseFraming
import WebServer.ClientReader
import WebServer.ClosedState
import WebServer.BadRequests
import WebServer.ConnectionMemory
import WebServer.HeadRequests
import WebServer.Completion
import WebServer.FileTransfer
import WebServer.SendfileCalls
import WebServer.FileDescriptors
import WebServer.RequestStream
import WebServer.Pipelining
import WebServer.EndOfStream
import WebServer.Reactor
import WebServer.DrivenStates
import WebServer.ReactorRest
import WebServer.EndToEnd
import WebServer.LoopWork
import WebServer.Server
import WebServer.ServerSteps
import WebServer.BufferGrowth
import WebServer.DescriptorOwnership
import WebServer.AcceptStages
import WebServer.DescriptorReuse
import WebServer.ScheduledRemoval
import WebServer.ObjectOwnership
import WebServer.TimerOwnership
import WebServer.ConnectionViews
import WebServer.ClientIsolation
import WebServer.EpollDispatch
import WebServer.ServerReactor
import WebServer.ServerRest
import WebServer.Listener
import WebServer.HeapOrder
import WebServer.Timer
import WebServer.TimerHeap
import WebServer.TimerTable
import WebServer.TimerWait
import WebServer.TimerCallbacks
import WebServer.LoopWakeup
import WebServer.IdleConnections
import WebServer.IdleTimers
import WebServer.AsyncLogger
import WebServer.LogLine
import WebServer.LogRotation
import WebServer.LogSystem
import WebServer.Forms
import WebServer.ScriptLiteral
import WebServer.FormEncoding
import WebServer.PasswordUtil
import WebServer.StoredPasswords
import WebServer.SqlPasswords
import WebServer.Accounts
import WebServer.ServerRoutes
import WebServer.ConnectionPool
import WebServer.Shutdown
import WebServer.ThreadPool
