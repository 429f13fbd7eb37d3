import MicroRosDemos.Net.NetRing
import MicroRosDemos.Net.Build
import MicroRosDemos.Spsc.Fifo

/-!
# From ping_pong to the guest

`custom_transport_seL4_write` in the ping_pong domain and `notified` with
`send_pkt_to_guest` in the VMM, over the queue `spsc_pp2vmm`. Either side takes
its next step at any time; inside a queue operation that step is one load or
store of `Spsc.Machine`. A notification sets a bit that the handler takes when
it starts, so several of them may be answered by one run of the handler.

`virtio_net_handle_rx` and the net rings come from outside: the first moves
some number of active buffers to the free ring, after handing their bytes to
the guest, and that number is the environment's choice.
-/

namespace MicroRosDemos.Sel4.ToGuest

open MicroRosDemos.Lib MicroRosDemos.Net

/-- `PKT_SIZE`. -/
def pktSize : Nat := 2048

/-- Where ping_pong is in `custom_transport_seL4_write`. -/
inductive WritePc
  | idle
  | newBlock (payload : List Byte)
  | makePkt (payload : List Byte)
  | push (payload : List Byte)
  | notify (payload : List Byte)
deriving DecidableEq

/-- Where the VMM is in `notified` and, from `front` on, in `send_pkt_to_guest`. -/
inductive NotifiedPc
  | idle
  | empty
  | front
  | dequeueFree
  | copy (buf : NetBuffDesc)
  | enqueueActive (buf : NetBuffDesc)
  | handleRx
  | pop
deriving DecidableEq

/-- Both domains, the queue between them, and `net_rx`. The histories are the
payloads given to `write`, what it returned, what each block held when `make_pkt`
was about to fill it, the frames put on the active ring, and those handed to the
guest. -/
structure State (Q : Type) where
  ring : Spsc.State
  write : WritePc
  notified : NotifiedPc
  pending : Bool
  rxFree : Q
  rxActive : Q
  rxData : Mem
  calls : List (List Byte)
  returned : List Nat
  covered : List (List Byte)
  enqueued : List (NetBuffDesc × List Byte)
  delivered : List (List Byte)

variable {Q : Type} (hdrs : TxHdrs) (N : NetRing Q)

/-- The next step of ping_pong inside `custom_transport_seL4_write`. -/
def writeStep (s : State Q) : Option (State Q) :=
  match s.write with
  | .idle => none
  | .newBlock payload =>
    (Spsc.producerStep s.ring).map fun ring =>
      match ring.producer with
      | .block _ => { s with ring, write := .makePkt payload }
      | _ => { s with ring }
  | .makePkt payload =>
    match s.ring.producer with
    | .block p =>
      some { s with
        ring := { s.ring with
          mem := makePkt s.ring.mem p payload hdrs.eth hdrs.ip hdrs.udp, producer := .pushLoad p }
        write := .push payload, covered := s.covered ++ [s.ring.mem.read p pktSize] }
    | _ => none
  | .push payload =>
    (Spsc.producerStep s.ring).map fun ring =>
      match ring.producer with
      | .idle => { s with ring, write := .notify payload }
      | _ => { s with ring }
  | .notify payload =>
    some { s with
      pending := true, write := .idle, returned := s.returned ++ [payload.length] }

/-- The next step of the VMM inside `notified(CHAN_PINGPONG)`. `junk` is what
the uninitialised `buf` holds when the free ring is empty. -/
def notifiedStep (s : State Q) (junk : NetBuffDesc) : Option (State Q) :=
  match s.notified with
  | .idle | .handleRx => none
  | .empty =>
    match s.ring.consumer with
    | .emptyDone true =>
      some { s with ring := { s.ring with consumer := .idle }, notified := .idle }
    | .emptyDone false =>
      some { s with ring := { s.ring with consumer := .frontLoadBack }, notified := .front }
    | _ => (Spsc.consumerStep s.ring).map fun ring => { s with ring }
  | .front =>
    (Spsc.consumerStep s.ring).map fun ring =>
      match ring.consumer with
      | .block _ => { s with ring, notified := .dequeueFree }
      | _ => { s with ring }
  | .dequeueFree =>
    match N.dequeue s.rxFree with
    | some (buf, rxFree) => some { s with rxFree, notified := .copy buf }
    | none => some { s with notified := .copy junk }
  | .copy buf =>
    match s.ring.consumer with
    | .block p =>
      some { s with
        ring := { s.ring with
          consumer := .holding p (s.ring.mem.read p s.ring.size)
          taken := s.ring.taken ++ [s.ring.mem.read p s.ring.size] }
        rxData := s.rxData.write buf.ioOrOffset (s.ring.mem.read p pktSize)
        notified := .enqueueActive buf }
    | _ => none
  | .enqueueActive buf =>
    let buf := { buf with len := pktSize }
    some { s with
      rxActive := N.enqueue s.rxActive buf
      enqueued := s.enqueued ++ [(buf, s.rxData.read buf.ioOrOffset buf.len)]
      notified := .handleRx }
  | .pop =>
    (Spsc.consumerStep s.ring).map fun ring =>
      match ring.consumer with
      | .idle => { s with ring := { ring with consumer := .emptyLoad }, notified := .empty }
      | _ => { s with ring }

/-- `virtio_net_handle_rx` for `n` buffers: each is taken from the active ring,
its bytes handed to the guest, and the buffer put on the free ring. -/
def virtioNetHandleRx (s : State Q) : Nat → State Q
  | 0 => s
  | n + 1 =>
    match N.dequeue s.rxActive with
    | none => s
    | some (buf, rxActive) =>
      virtioNetHandleRx { s with
        rxActive, rxFree := N.enqueue s.rxFree buf
        delivered := s.delivered ++ [s.rxData.read buf.ioOrOffset buf.len] } n

/-- What happens next: a call of `write`, a step inside it, the handler taking
its notification, a step inside it, or the device's turn. -/
inductive Act
  | call (payload : List Byte)
  | write
  | wake
  | notified (junk : NetBuffDesc)
  | handleRx (n : Nat)

/-- The two domains, in every interleaving. -/
def step (s : State Q) : Act → Option (State Q)
  | .call payload =>
    match s.write with
    | .idle =>
      if payload.length > 1500 then
        some { s with calls := s.calls ++ [payload], returned := s.returned ++ [0] }
      else
        some { s with
          ring := { s.ring with producer := .newBlockLoadBack }
          write := .newBlock payload, calls := s.calls ++ [payload] }
    | _ => none
  | .write => writeStep hdrs s
  | .wake =>
    match s.notified, s.pending with
    | .idle, true =>
      some { s with
        ring := { s.ring with consumer := .emptyLoad }, pending := false, notified := .empty }
    | _, _ => none
  | .notified junk => notifiedStep N s junk
  | .handleRx n =>
    match s.notified with
    | .handleRx =>
      let t := virtioNetHandleRx N s n
      some { t with ring := { t.ring with consumer := .popLoad }, notified := .pop }
    | _ => none

/-- The machine of this direction. -/
def machine : Machine (State Q) Act := ⟨step hdrs N⟩

/-- Both domains idle over a freshly initialised queue. -/
def State.start (q : Spsc.SpscQueue) (mem rxData : Mem) (rxFree rxActive : Q) (pending : Bool) :
    State Q where
  ring := Spsc.State.start q mem
  write := .idle
  notified := .idle
  pending := pending
  rxFree := rxFree
  rxActive := rxActive
  rxData := rxData
  calls := []
  returned := []
  covered := []
  enqueued := []
  delivered := []

end MicroRosDemos.Sel4.ToGuest
