import Mycrokernel.Lib.PointerList
import Mycrokernel.Lib.Run
import Mycrokernel.Lib.BitField
import Mycrokernel.Lib.Bytes
import Mycrokernel.Kernel.Scheduler
import Mycrokernel.Kernel.Queue
import Mycrokernel.Kernel.Dequeue
import Mycrokernel.Kernel.Requeue
import Mycrokernel.Kernel.State
import Mycrokernel.Kernel.Syscall
import Mycrokernel.Kernel.Interrupt
import Mycrokernel.Lib.Rendezvous
import Mycrokernel.Kernel.Ipc
import Mycrokernel.Kernel.Effect
import Mycrokernel.Kernel.Handle
import Mycrokernel.Kernel.Boot
import Mycrokernel.Kernel.Charge
import Mycrokernel.Kernel.Bitmap
import Mycrokernel.Kernel.Create
import Mycrokernel.Kernel.Slot
import Mycrokernel.Kernel.Copy
import Mycrokernel.Kernel.Flat
import Mycrokernel.Kernel.Segment
import Mycrokernel.Kernel.Descriptor
import Mycrokernel.Kernel.Limit
import Mycrokernel.Kernel.Cleanup
import Mycrokernel.Kernel.Feature
import Mycrokernel.Kernel.Frame
import Mycrokernel.Kernel.Release
import Mycrokernel.Kernel.Reuse
import Mycrokernel.Kernel.Ports
import Mycrokernel.Kernel.Status
import Mycrokernel.Kernel.Beyond
import Mycrokernel.Kernel.Wakeup
import Mycrokernel.Kernel.Pairing
import Mycrokernel.Kernel.Order
import Mycrokernel.Kernel.Peers
import Mycrokernel.Kernel.Deadlock
import Mycrokernel.Lib.InterruptController
import Mycrokernel.Kernel.Vector
import Mycrokernel.Kernel.Launch
import Mycrokernel.Kernel.Start
import Mycrokernel.Kernel.Context
import Mycrokernel.Kernel.Isolation
import Mycrokernel.Kernel.Integrity
import Mycrokernel.Kernel.Irq
import Mycrokernel.Kernel.IrqOwner
import Mycrokernel.Kernel.Parked
import Mycrokernel.Kernel.Ticks
import Mycrokernel.Kernel.Share
import Mycrokernel.Lib.RoundRobin
import Mycrokernel.Lib.Dialogue
import Mycrokernel.Lib.Environment
import Mycrokernel.Lib.Numeral
import Mycrokernel.Usr.Number
import Mycrokernel.Usr.Syscall
import Mycrokernel.Usr.Outf
import Mycrokernel.Usr.Format
import Mycrokernel.Usr.Plain
import Mycrokernel.Usr.Memcpy
import Mycrokernel.Lib.HiddenLine
import Mycrokernel.Tty.Screen
import Mycrokernel.Kernel.Video
import Mycrokernel.Tty.Terminal
import Mycrokernel.Tty.Line
import Mycrokernel.Tty.Message
import Mycrokernel.Tty.Cursor
import Mycrokernel.Tty.Echo
import Mycrokernel.Tty.Shift
import Mycrokernel.Tty.Editor
import Mycrokernel.Tty.Digits
import Mycrokernel.Shell.Answer
import Mycrokernel.Hd.Driver
import Mycrokernel.Hd.Irq
import Mycrokernel.Hd.Claim
import Mycrokernel.Hd.Directory
import Mycrokernel.Hd.Ata
import Mycrokernel.Hd.Inode
import Mycrokernel.Hd.Block
import Mycrokernel.Hd.Frame
import Mycrokernel.Hd.Superblock
import Mycrokernel.Hd.Groups
import Mycrokernel.Hd.PartitionTable
import Mycrokernel.Hd.Watch
import Mycrokernel.Hd.Address
import Mycrokernel.Hd.Success
import Mycrokernel.Hd.Main
import Mycrokernel.Lib.WordStack
import Mycrokernel.Boot.Cpu
import Mycrokernel.Boot.Load
