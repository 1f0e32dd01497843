import CLIos.Lib.Machine
import CLIos.Lib.CArray
import CLIos.Lib.CString
import CLIos.Lib.Text
import CLIos.Lib.TextFile
import CLIos.Lib.FaultyFile
import CLIos.Lib.Lock
import CLIos.Lib.Sections
import CLIos.Lib.Broadcast
import CLIos.Lib.Ledger
import CLIos.Lib.Custody
import CLIos.Lib.Refs
import CLIos.Lib.Collector
import CLIos.Lib.Traversal
import CLIos.Lib.TwoSlots
import CLIos.Lib.Rtos
import CLIos.Lib.RtosHistory
import CLIos.Lib.Ticks
import CLIos.Lib.Fair
import CLIos.Lib.Cut
import CLIos.Lib.LuaApi
import CLIos.Lib.HidDescriptor
import CLIos.Core.Shell
import CLIos.Core.ShellLines
import CLIos.Core.ShellRounds
import CLIos.Core.Handoff
import CLIos.Core.DoubleBuffer
import CLIos.Core.Repl
import CLIos.Core.Hook
import CLIos.Core.Accumulator
import CLIos.Core.Statements
import CLIos.Core.Continuation
import CLIos.Core.StackHeight
import CLIos.Core.Locking
import CLIos.Core.Console
import CLIos.Core.ConsoleProgress
import CLIos.Core.HandoffProgress
import CLIos.Core.Program
import CLIos.Fos.Task
import CLIos.Fos.TaskOwnership
import CLIos.Fos.TaskFunctions
import CLIos.Fos.TaskStop
import CLIos.Fos.TaskProgress
import CLIos.Fos.TaskCreate
import CLIos.Fos.TaskPeriod
import CLIos.Fos.TaskGrid
import CLIos.Fos.Blocking
import CLIos.Fos.HoldAndWait
import CLIos.Fos.QueueOrder
import CLIos.Fos.KernelObjects
import CLIos.Fos.Deadlock
import CLIos.Fos.LockOrder
import CLIos.Fos.LockProgress
import CLIos.Sys.Littlefs
import CLIos.Sys.ListDir
import CLIos.Sys.EditRead
import CLIos.Sys.EditFrame
import CLIos.Sys.EditTable
import CLIos.Sys.EditFaults
import CLIos.Sys.EditBytes
import CLIos.Sys.RoundTrip
import CLIos.Sys.LineStore
import CLIos.Sys.SharedFiles
import CLIos.Com.Handles
import CLIos.Com.HandleRelease
import CLIos.Com.Uart
import CLIos.Com.Rmt
import CLIos.Com.Can
import CLIos.Com.CanBus
import CLIos.Hdw.Adc
import CLIos.Net.Httpd
import CLIos.Net.HttpdHandler
import CLIos.Net.RouteKeys
import CLIos.Net.HttpdHandles
import CLIos.Net.Http
import CLIos.Net.HttpRelease
import CLIos.Net.HttpBody
import CLIos.Net.Socket
import CLIos.Net.SocketCustody
import CLIos.Net.Wifi
import CLIos.Net.WifiInterfaces
import CLIos.Net.WifiAborts
import CLIos.Net.WifiRefusals
import CLIos.Net.WifiTeardown
import CLIos.Net.WifiCredentials
import CLIos.Net.NetInit
import CLIos.Ble.Ble
import CLIos.Ble.Notify
import CLIos.Ble.BringUp
import CLIos.Ble.HidReports
