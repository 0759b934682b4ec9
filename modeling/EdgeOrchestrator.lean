import EdgeOrchestrator.Workload.ReadyTasks
import EdgeOrchestrator.Workload.ParallelMemory
import EdgeOrchestrator.Workload.GeneratedTopology
import EdgeOrchestrator.Network.ClusterTracking
import EdgeOrchestrator.Network.DiscoveryCluster
import EdgeOrchestrator.Network.AsyncServer
import EdgeOrchestrator.Scheduler.LocalAdmission
import EdgeOrchestrator.Scheduler.MemoryBounds
import EdgeOrchestrator.Scheduler.CriticalPathPlan
import EdgeOrchestrator.Executor.MpmcQueueSerial
import EdgeOrchestrator.Executor.ThreadPoolWrap
import EdgeOrchestrator.Telemetry.EventLog
import EdgeOrchestrator.Orchestrator.ArenaReuse
import EdgeOrchestrator.Orchestrator.SubmittedCosts
import EdgeOrchestrator.Orchestrator.OffloadExchange
import EdgeOrchestrator.Orchestrator.ConcurrentCalls
