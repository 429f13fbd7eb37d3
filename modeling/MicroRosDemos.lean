import MicroRosDemos.Lib.Machine
import MicroRosDemos.Lib.Channel
import MicroRosDemos.Lib.Link
import MicroRosDemos.Lib.Counter
import MicroRosDemos.Lib.Memory
import MicroRosDemos.Lib.Endian
import MicroRosDemos.Lib.OnesComplement
import MicroRosDemos.Lib.Text
import MicroRosDemos.Lib.Scan
import MicroRosDemos.Lib.Hex
import MicroRosDemos.Lib.Align
import MicroRosDemos.Lib.Views
import MicroRosDemos.Spsc.Queue
import MicroRosDemos.Spsc.Machine
import MicroRosDemos.Spsc.Invariant
import MicroRosDemos.Spsc.Phase
import MicroRosDemos.Spsc.Fifo
import MicroRosDemos.Spsc.Turns
import MicroRosDemos.Spsc.Capacity
import MicroRosDemos.Spsc.Blocks
import MicroRosDemos.Spsc.Weak
import MicroRosDemos.Spsc.WeakSafe
import MicroRosDemos.Spsc.WeakAgree
import MicroRosDemos.Net.NetRing
import MicroRosDemos.Net.Packet
import MicroRosDemos.Net.Checksum
import MicroRosDemos.Net.Build
import MicroRosDemos.Net.RoundTrip
import MicroRosDemos.Net.Filter
import MicroRosDemos.Net.Datagram
import MicroRosDemos.Net.Stack
import MicroRosDemos.Net.Detect
import MicroRosDemos.Net.Address
import MicroRosDemos.Net.PktHex
import MicroRosDemos.Sel4.ToGuest
import MicroRosDemos.Sel4.ToGuestInv
import MicroRosDemos.Sel4.ToGuestAccept
import MicroRosDemos.Sel4.ToGuestFrames
import MicroRosDemos.Sel4.ToGuestBuffers
import MicroRosDemos.Sel4.ToGuestWake
import MicroRosDemos.Sel4.FromGuest
import MicroRosDemos.Sel4.FromGuestInv
import MicroRosDemos.Sel4.FromGuestFrames
import MicroRosDemos.Sel4.FromGuestReads
import MicroRosDemos.Sel4.FromGuestStale
import MicroRosDemos.Sel4.FromGuestDatagram
import MicroRosDemos.Sel4.FromGuestCall
import MicroRosDemos.Sel4.FromGuestReturn
import MicroRosDemos.Sel4.FromGuestRoundTrip
import MicroRosDemos.Sel4.Handler
import MicroRosDemos.Sel4.Signal
import MicroRosDemos.Sel4.Duplex
import MicroRosDemos.Sel4.Reinit
import MicroRosDemos.Sel4.VmEcho
import MicroRosDemos.Sel4.Echo
import MicroRosDemos.Sel4.Confined
import MicroRosDemos.Sel4.Boot
import MicroRosDemos.Sel4.VmmInit
import MicroRosDemos.Sel4.Send
import MicroRosDemos.Sel4.Token
import MicroRosDemos.Sel4.IsPortOpen
import MicroRosDemos.Sel4.Handshake
import MicroRosDemos.Sel4.Emutls
import MicroRosDemos.Sel4.EmutlsInit
import MicroRosDemos.Sel4.EmutlsBudget
import MicroRosDemos.Sel4.HeapStub
import MicroRosDemos.Rclc.PingPong
import MicroRosDemos.Rclc.PongCount
import MicroRosDemos.Rclc.ParameterServer
import MicroRosDemos.Rclc.ParameterTimer
import MicroRosDemos.Rclc.Fibonacci
import MicroRosDemos.Rclc.FibonacciValues
import MicroRosDemos.Rclc.FibonacciClient
import MicroRosDemos.Rclc.CustomTransport
import MicroRosDemos.Rclc.TransportSession
import MicroRosDemos.Rclc.ComplexMsg
import MicroRosDemos.Rclc.PingUrosAgent
