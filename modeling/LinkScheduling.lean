import LinkScheduling.Quantum
import LinkScheduling.Drain
import LinkScheduling.Interrupts
import LinkScheduling.Requests
import LinkScheduling.Wakeups
import LinkScheduling.Arrivals
import LinkScheduling.Metrics
import LinkScheduling.Trickle
import LinkScheduling.Comparison
import LinkScheduling.Accounting
import LinkScheduling.Download
import LinkScheduling.Confinement
import LinkScheduling.Lifecycle
import LinkScheduling.Percentiles
import LinkScheduling.LineAccess
import LinkScheduling.Rows
import LinkScheduling.Configuration
import LinkScheduling.Decoding
import LinkScheduling.Framing
import LinkScheduling.Load
import LinkScheduling.Workload
import LinkScheduling.Upload
import LinkScheduling.Report
