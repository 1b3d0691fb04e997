import Mksh.Lib.CString
import Mksh.Lib.Prefixes
import Mksh.Lib.Path
import Mksh.Lib.Fields
import Mksh.Lib.Intrusive
import Mksh.Lib.Align
import Mksh.Lib.Elimination
import Mksh.Lib.Process
import Mksh.Lib.Ensures
import Mksh.Linklist
import Mksh.Linklist.Nodes
import Mksh.Linklist.Refine
import Mksh.Linklist.Run
import Mksh.Vector
import Mksh.Vector.Slots
import Mksh.Vector.Sequence
import Mksh.Vector.Memory
import Mksh.Command.Basic
import Mksh.Command.Match
import Mksh.Command.Ipv4
import Mksh.Command.Ipv6.Reading
import Mksh.Command.Ipv6.Match
import Mksh.Command.Ipv6
import Mksh.Command.Filter
import Mksh.Command.Round
import Mksh.Command.Layout
import Mksh.Command.Grammar
import Mksh.Command.Execute
import Mksh.Command.Dispatch
import Mksh.Command.Strvec
import Mksh.Command.Quoted
import Mksh.Command.Pieces
import Mksh.Cmd.Tool
import Mksh.Cmd.System
import Mksh.Cmd.Mk
import Mksh.Cmd.Action
import Mksh.Command.Select
import Mksh.Command.Sound
import Mksh.Command.Argv
import Mksh.Command.Agree
import Mksh.Command.Ambiguous
import Mksh.Command.Order
import Mksh.Command.Overrun
import Mksh.Command.Help
import Mksh.Command.Complete
import Mksh.Command.Candidates
import Mksh.Command.Matchvec
import Mksh.Command.Enter
import Mksh.Command.Describe
import Mksh.Vtysh.Basic
import Mksh.Vtysh.Attempt
import Mksh.Vtysh.Single
import Mksh.Vtysh.Line
import Mksh.Vtysh.Load
import Mksh.Config.Basic
import Mksh.Config.Canonical
import Mksh.Config.Load
import Mksh.Cmd.Session
import Mksh.Cmd.Version
import Mksh.Cmd.Handler
import Mksh.Cmd.Registry
import Mksh.Cmd.Walk
import Mksh.Cmd.Node
import Mksh.Cmd.Arch
import Mksh.Cmd.Env
import Mksh.Cmd.Restricted
import Mksh.Cmd.Directory
import Mksh.Cmd.Failure
import Mksh.Cmd.First
import Mksh.Thread.Basic
import Mksh.Thread.Lists
import Mksh.Thread.Queue
import Mksh.Thread.Run
import Mksh.Thread.Timer
import Mksh.Command.Words
import Mksh.Command.Ipv4.Prefix
import Mksh.Command.Range
import Mksh.Utils.Mac
import Mksh.Command.Ipv6.Text
import Mksh.Command.Ipv6.Typed
import Mksh.Command.Ipv6.Lax
import Mksh.Lib.Bytes
import Mksh.Nlclient.Basic
import Mksh.Nlclient.Deliver
import Mksh.Nlclient.Failure
import Mksh.Lib.Mask
import Mksh.Nlclient.Mode
import Mksh.Thread.Cancel
import Mksh.Lib.Loop
import Mksh.Thread.Wait
import Mksh.Cmd.Slashes
import Mksh.Vector.Growth
import Mksh.Cmd.Vars
import Mksh.Cmd.Heap
import Mksh.Cmd.Heap.Dirs
import Mksh.Cmd.Heap.Refine
import Mksh.Cmd.Main
import Mksh.Cmd.Return
import Mksh.Command.Expand
import Mksh.Thread.Memory
import Mksh.Thread.Service
import Mksh.Thread.Stop
import Mksh.Vtysh.Tab
import Mksh.Nlclient.Request
import Mksh.Thread.Drain
import Mksh.Vtysh.Describe
