import Flipit.Machine
import Flipit.Bytes
import Flipit.Wrap
import Flipit.Numeral
import Flipit.X86
import Flipit.Chains
import Flipit.Lines
import Flipit.Programs
import Flipit.Filesystem
import Flipit.Paging
import Flipit.ReadData
import Flipit.Screen
import Flipit.TerminalDriver
import Flipit.Memcpy
import Flipit.Printf
import Flipit.Kernel
import Flipit.SystemCall
import Flipit.Commands
import Flipit.Scheduler
import Flipit.Keyboard
import Flipit.Contexts
import Flipit.ProcessTable
import Flipit.Descriptors
import Flipit.OpenSearch
import Flipit.JumpTables
import Flipit.FileReads
import Flipit.Directory
import Flipit.Loading
import Flipit.Children
import Flipit.Arguments
import Flipit.Executables
import Flipit.InputQueue
import Flipit.Provenance
import Flipit.LogicalScreen
import Flipit.CursorBounds
import Flipit.ClearScreen
import Flipit.PrintedText
import Flipit.EchoedLine
import Flipit.QueueBounds
import Flipit.LineEditor
import Flipit.ReadyFlag
import Flipit.HaltSteps
import Flipit.RtcWaits
import Flipit.RunningProcess
import Flipit.HaltRaces
import Flipit.AddressSpaces
import Flipit.FileService
import Flipit.FileTools
import Flipit.Grep
import Flipit.Blinks
import Flipit.Blinking
import Flipit.RtcRegisters
import Flipit.SystemCallGate
import Flipit.InterruptGates
