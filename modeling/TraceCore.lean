import TraceCore.Machine.Basic
import TraceCore.Socket.Board
import TraceCore.Proofs.Memory.Chunk
import TraceCore.Proofs.Memory.Stamp
import TraceCore.Proofs.Memory.Snapshot
import TraceCore.Proofs.Fetch.View
import TraceCore.Proofs.Trace.Shared
import TraceCore.Proofs.Trace.Straight
import TraceCore.Proofs.Trace.Failed
import TraceCore.Proofs.Trace.Links
import TraceCore.Proofs.Exec.Alike
import TraceCore.Proofs.Exec.Ran
import TraceCore.Proofs.Exec.Iterate
import TraceCore.Proofs.Exec.Interval
import TraceCore.Proofs.Exec.Restart
import TraceCore.Proofs.Exec.Together
import TraceCore.Proofs.Exec.Torn
import TraceCore.Proofs.Memory.User
import TraceCore.Proofs.Processor.Mapped
import TraceCore.Proofs.Processor.Outlived
import TraceCore.Proofs.Processor.Remapped
import TraceCore.Proofs.Processor.Twins
import TraceCore.Proofs.Processor.Slices
import TraceCore.Proofs.Processor.Demand
import TraceCore.Proofs.Processor.Shown
import TraceCore.Proofs.Processor.Watched
import TraceCore.Proofs.Processor.Breakpoints
import TraceCore.Proofs.Processor.Quantum
import TraceCore.Proofs.Processor.Passes
import TraceCore.Proofs.Processor.Debugger
import TraceCore.Proofs.Processor.Logged
import TraceCore.Proofs.Processor.Heeded
import TraceCore.Proofs.Processor.Isolation
import TraceCore.Proofs.Processor.Touched
import TraceCore.Proofs.Processor.Apart
import TraceCore.Proofs.Processor.Limit
import TraceCore.Proofs.Processor.Wrap
import TraceCore.Proofs.Machine.Quiescence
import TraceCore.Proofs.Machine.Quanta
import TraceCore.Proofs.Machine.Deadlines
import TraceCore.Proofs.Machine.Lateness
import TraceCore.Proofs.Machine.Undisturbed
import TraceCore.Proofs.Machine.Clock
import TraceCore.Proofs.Instr.HighByte
import TraceCore.Proofs.Exec.Checked
import TraceCore.Proofs.Processor.Survey
import TraceCore.Proofs.Processor.PageEnd
import TraceCore.Proofs.Exec.Laps
import TraceCore.Proofs.Exec.Block
import TraceCore.Proofs.Processor.Precise
import TraceCore.Proofs.Processor.Offset
import TraceCore.Proofs.Processor.Sequential
import TraceCore.Proofs.Exec.Addressing
import TraceCore.Proofs.Memory.Spread
import TraceCore.Proofs.Memory.Faithful
import TraceCore.Proofs.Memory.Mask
import TraceCore.Proofs.Machine.Tickets
