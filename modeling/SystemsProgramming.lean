import SystemsProgramming.Library.Pthread
import SystemsProgramming.Library.Monitor
import SystemsProgramming.Classes1.Task2
import SystemsProgramming.Classes1.Task2Progress
import SystemsProgramming.Classes1.Task6
import SystemsProgramming.Classes1.Task6Progress
import SystemsProgramming.Library.Lightswitch
import SystemsProgramming.Classes1.Task4
import SystemsProgramming.Classes1.Task4Rounds
import SystemsProgramming.Classes5.LinkedBuffer.Calls
import SystemsProgramming.Classes5.LinkedBuffer.Reading
import SystemsProgramming.Library.Merge
import SystemsProgramming.Classes5.LinkedBuffer.Concurrent
import SystemsProgramming.Classes5.LinkedBuffer.Appends
import SystemsProgramming.Classes5.LinkedBuffer.Statistics
import SystemsProgramming.Classes5.LinkedBuffer.Traversal
import SystemsProgramming.Classes5.LinkedBuffer.Clearing
import SystemsProgramming.Classes5.LinkedBuffer.RcuReaders
import SystemsProgramming.Classes5.LinkedBuffer.Sections
import SystemsProgramming.Library.LightswitchProgress
import SystemsProgramming.Classes1.Task1
import SystemsProgramming.Classes1.Task1Progress
import SystemsProgramming.Classes1.Task4Progress
import SystemsProgramming.Classes1.Task4Cancel
import SystemsProgramming.Library.TryLightswitch
import SystemsProgramming.Library.TryCalls
import SystemsProgramming.Classes1.Task3
import SystemsProgramming.Classes1.Task5
import SystemsProgramming.Library.Ownership
import SystemsProgramming.Classes1.Ownership
import SystemsProgramming.Library.Memory
import SystemsProgramming.Library.TerminatedRing
import SystemsProgramming.Classes3.Circular.Calls
import SystemsProgramming.Classes3.Circular.Resizing
import SystemsProgramming.Classes3.Circular.Leak
import SystemsProgramming.Classes3.Circular.Strings
import SystemsProgramming.Classes3.Circular.Delivery
import SystemsProgramming.Classes5.LinkedBuffer.Writing
import SystemsProgramming.Classes5.LinkedBuffer.Boundaries
import SystemsProgramming.Classes5.LinkedBuffer.Blocks
import SystemsProgramming.Classes3.Advanced
import SystemsProgramming.Classes7.InterruptModule
import SystemsProgramming.Classes5.SimpleSync.Calls
import SystemsProgramming.Classes5.SimpleSync.Stream
import SystemsProgramming.Classes6.Calls
import SystemsProgramming.Library.Leader
import SystemsProgramming.Classes6.Users
import SystemsProgramming.Classes6.Names
import SystemsProgramming.Classes5.SimpleSync.Sequence
import SystemsProgramming.Classes3.Circular.Faults
import SystemsProgramming.Classes3.Jiffies
import SystemsProgramming.Classes3.Blocks
import SystemsProgramming.Library.SpinLock
import SystemsProgramming.Classes5.LinkedBuffer.WriterLock
import SystemsProgramming.Classes5.SimpleSync.Spinlock
import SystemsProgramming.Classes5.SavedFlags
import SystemsProgramming.Classes5.LinkedBuffer.Atomicity
import SystemsProgramming.Classes5.LinkedBuffer.Progress
import SystemsProgramming.Classes5.LinkedBuffer.Ledger
import SystemsProgramming.Library.LightswitchTermination
import SystemsProgramming.Classes1.Task4Termination
import SystemsProgramming.Classes1.Mains
import SystemsProgramming.Classes1.Task4Main
import SystemsProgramming.Library.TryProgress
import SystemsProgramming.Classes1.TryMains
import SystemsProgramming.Library.Register
import SystemsProgramming.Library.TryProtects
import SystemsProgramming.Classes1.Registers
import SystemsProgramming.Classes3.Loading
import SystemsProgramming.Classes5.Loading
import SystemsProgramming.Classes7.Loading
import SystemsProgramming.Classes6.Ties
import SystemsProgramming.Classes5.SimpleSync.SpinStream
