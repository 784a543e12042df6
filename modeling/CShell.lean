import CShell.Lib.CArray
import CShell.Lib.Steps
import CShell.Lib.Monitor
import CShell.Lib.Inside
import CShell.Lib.Woken
import CShell.Lib.Slots
import CShell.Lib.Descriptors
import CShell.Lib.LinkedQueue
import CShell.Lib.DoublyLinked
import CShell.Lib.RefCount
import CShell.Lib.Ring
import CShell.Lib.RedoLog
import CShell.Lib.Ints
import CShell.Lib.Text
import CShell.Lib.Occurrences
import CShell.Lib.Backwards
import CShell.Lib.Qsort
import CShell.Lib.DirTree
import CShell.Lib.Exits
import CShell.Lib.Paths
import CShell.Shell.Token
import CShell.Shell.Lexer
import CShell.Shell.Automaton
import CShell.Shell.LexSteps
import CShell.Shell.Quoting
import CShell.Shell.Builder
import CShell.Shell.Parser
import CShell.Shell.Stages
import CShell.Shell.Resolve
import CShell.Shell.Programs
import CShell.Shell.Locate
import CShell.Shell.Sequence
import CShell.Shell.Segments
import CShell.Shell.Sequencing
import CShell.Shell.Reading
import CShell.Shell.Renaming
import CShell.Shell.Agreement
import CShell.Shell.Bounds
import CShell.Shell.Pipeline
import CShell.Shell.PipeEnds
import CShell.Shell.Leaks
import CShell.Shell.Wiring
import CShell.Shell.Outputs
import CShell.Shell.Copy
import CShell.Shell.Jobs
import CShell.Shell.Reports
import CShell.Shell.Notify
import CShell.Shell.Table
import CShell.Shell.JobControl
import CShell.Shell.Groups
import CShell.Shell.Recorded
import CShell.Shell.ProcessGroups
import CShell.Shell.Timeout
import CShell.Shell.Ping
import CShell.Shell.Eof
import CShell.Shell.Snoop
import CShell.Shell.Syscalls
import CShell.Shell.Summary
import CShell.Shell.Frecency
import CShell.Shell.HopLog
import CShell.Shell.Visits
import CShell.Shell.Hop
import CShell.Shell.HopSession
import CShell.Shell.Peek
import CShell.Shell.PeekNumbers
import CShell.Shell.PeekFiles
import CShell.Shell.Reveal
import CShell.Shell.Spy
import CShell.Xv6.Mlfq
import CShell.Xv6.Places
import CShell.Xv6.Queues
import CShell.Xv6.Boost
import CShell.Xv6.Demotion
import CShell.Xv6.Lists
import CShell.Xv6.Interrupt
import CShell.Xv6.Uniproc
import CShell.Xv6.Metrics
import CShell.Xv6.Fifo
import CShell.Xv6.Pipe
import CShell.Xv6.Wait
import CShell.Xv6.Sleeplock
import CShell.Xv6.Bio
import CShell.Xv6.Log
import CShell.Xv6.Console
