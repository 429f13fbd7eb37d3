import MicroRosDemos.Net.NetRing
import MicroRosDemos.Net.Filter
import MicroRosDemos.Spsc.Phase

/-!
# From the guest to ping_pong

`fault` with `process_tx_pending` in the VMM, and `custom_transport_seL4_read`
in the ping_pong domain, over the queue `spsc_vmm2pp`. While the VMM handles a
fault of the guest, the device model takes the guest's frames: each goes to a
free buffer of `net_tx`, which becomes active. The VMM then copies the active
buffers into the queue.

ping_pong may look at the queue with `spsc_empty` between reads. A read keeps
the packet's block until its last step, so what it looks at is the memory, each
time it looks.
-/

namespace MicroRosDemos.Sel4.FromGuest

open MicroRosDemos.Lib MicroRosDemos.Net

/-- The arguments of `custom_transport_seL4_read`. -/
structure ReadCall where
  buf : Nat
  len : BitVec 64
deriving DecidableEq

/-- A call of `custom_transport_seL4_read` that returned: its arguments, its
result, and the caller's memory before and after. -/
structure ReadResult where
  call : ReadCall
  ret : BitVec 64
  before : Mem
  after : Mem

/-- Where the VMM is in `fault` and, from `drain` on, in `process_tx_pending`. -/
inductive FaultPc
  | idle
  | faultHandle
  | drain
  | newBlock (buf : NetBuffDesc)
  | fill (buf : NetBuffDesc)
  | push (buf : NetBuffDesc)
  | enqueueFree (buf : NetBuffDesc)
  | notify
deriving DecidableEq

/-- Where ping_pong is: in `spsc_empty`, or in `custom_transport_seL4_read`. -/
inductive ReadPc
  | idle
  | empty
  | front (call : ReadCall)
  | filter (call : ReadCall)
  | skip (call : ReadCall)
  | getPayload (call : ReadCall)
  | getPayloadLen (call : ReadCall)
  | copy (call : ReadCall) (payloadLen : BitVec 64)
  | finish (call : ReadCall) (ret : BitVec 64)
  -- assert(is_udp(pkt)) failed
  | assertFailed
deriving DecidableEq

/-- Both domains, the queue between them, `net_tx`, and ping_pong's own memory.
The histories are the guest's frames and the results of the reads. -/
structure State (Q : Type) where
  ring : Spsc.State
  fault : FaultPc
  read : ReadPc
  pending : Bool
  txFree : Q
  txActive : Q
  txData : Mem
  node : Mem
  nodeAtCall : Mem
  sent : List (List Byte)
  results : List ReadResult

variable {Q : Type} (hdrs : TxHdrs) (N : NetRing Q)

/-- The next step of the VMM inside `process_tx_pending`. -/
def faultStep (s : State Q) : Option (State Q) :=
  match s.fault with
  | .idle | .faultHandle => none
  | .drain =>
    match N.dequeue s.txActive with
    | none => some { s with fault := .idle }
    | some (buf, txActive) =>
      some { s with
        ring := { s.ring with producer := .newBlockLoadBack }, txActive, fault := .newBlock buf }
  | .newBlock buf =>
    (Spsc.producerStep s.ring).map fun ring =>
      match ring.producer with
      | .block _ => { s with ring, fault := .fill buf }
      | _ => { s with ring }
  | .fill buf =>
    match s.ring.producer with
    | .block p =>
      some { s with
        ring := { s.ring with
          mem := s.ring.mem.write p (s.txData.read buf.ioOrOffset buf.len), producer := .pushLoad p }
        fault := .push buf }
    | _ => none
  | .push buf =>
    (Spsc.producerStep s.ring).map fun ring =>
      match ring.producer with
      | .idle => { s with ring, fault := .enqueueFree buf }
      | _ => { s with ring }
  | .enqueueFree buf => some { s with txFree := N.enqueue s.txFree buf, fault := .notify }
  | .notify => some { s with pending := true, fault := .drain }

/-- The next step of ping_pong inside `spsc_empty` or `custom_transport_seL4_read`. -/
def readStep (s : State Q) : Option (State Q) :=
  match s.read with
  | .idle | .assertFailed => none
  | .empty =>
    match s.ring.consumer with
    | .emptyDone _ => some { s with ring := { s.ring with consumer := .idle }, read := .idle }
    | _ => (Spsc.consumerStep s.ring).map fun ring => { s with ring }
  | .front call =>
    (Spsc.consumerStep s.ring).map fun ring =>
      match ring.consumer with
      | .block _ => { s with ring, read := .filter call }
      | _ => { s with ring }
  | .filter call =>
    match s.ring.consumer with
    | .block p =>
      let taken := s.ring.taken ++ [s.ring.mem.read p s.ring.size]
      if isAddressedToMe hdrs s.ring.mem p then
        some { s with
          ring := { s.ring with consumer := .holding p (s.ring.mem.read p s.ring.size), taken }
          read := .getPayload call }
      else some { s with ring := { s.ring with consumer := .popLoad, taken }, read := .skip call }
    | _ => none
  | .skip call =>
    (Spsc.consumerStep s.ring).map fun ring =>
      match ring.consumer with
      | .idle => { s with ring := { ring with consumer := .frontLoadBack }, read := .front call }
      | _ => { s with ring }
  | .getPayload call =>
    match s.ring.consumer with
    | .holding p _ =>
      if isUdp s.ring.mem p then some { s with read := .getPayloadLen call }
      else some { s with read := .assertFailed }
    | _ => none
  | .getPayloadLen call =>
    match s.ring.consumer with
    | .holding p _ =>
      if isUdp s.ring.mem p then
        let payloadLen := getPayloadLen s.ring.mem p
        if call.len < payloadLen then
          some { s with ring := { s.ring with consumer := .popLoad }, read := .finish call 0 }
        else some { s with read := .copy call payloadLen }
      else some { s with read := .assertFailed }
    | _ => none
  | .copy call payloadLen =>
    match s.ring.consumer with
    | .holding p _ =>
      some { s with
        ring := { s.ring with consumer := .popLoad }
        node := s.node.write call.buf (s.ring.mem.read (getPayload p) payloadLen.toNat)
        read := .finish call payloadLen }
    | _ => none
  | .finish call ret =>
    (Spsc.consumerStep s.ring).map fun ring =>
      match ring.consumer with
      | .idle =>
        { s with
          ring, read := .idle, results := s.results ++ [⟨call, ret, s.nodeAtCall, s.node⟩] }
      | _ => { s with ring }

/-- What happens next: a fault of the guest, a frame the device model takes
during it, the return of `fault_handle`, a step inside `process_tx_pending`; or
ping_pong looks at the queue, calls a read with its memory as it is by then, or
takes a step inside. -/
inductive Act
  | fault
  | guestFrame (frame : List Byte)
  | handled (success : Bool)
  | vmm
  | empty
  | call (node : Mem) (call : ReadCall)
  | read

/-- The two domains, in every interleaving. -/
def step (s : State Q) : Act → Option (State Q)
  | .fault =>
    match s.fault with
    | .idle => some { s with fault := .faultHandle }
    | _ => none
  | .guestFrame frame =>
    match s.fault, N.dequeue s.txFree with
    | .faultHandle, some (buf, txFree) =>
      some { s with
        txFree, txData := s.txData.write buf.ioOrOffset frame
        txActive := N.enqueue s.txActive { buf with len := frame.length }
        sent := s.sent ++ [frame] }
    | _, _ => none
  | .handled success =>
    match s.fault with
    -- a fault that was not handled stops the guest, and nothing is drained
    | .faultHandle => some { s with fault := if success then .drain else .idle }
    | _ => none
  | .vmm => faultStep N s
  | .empty =>
    match s.read with
    | .idle => some { s with ring := { s.ring with consumer := .emptyLoad }, read := .empty }
    | _ => none
  | .call node call =>
    match s.read with
    | .idle =>
      some { s with
        ring := { s.ring with consumer := .frontLoadBack }, read := .front call
        node, nodeAtCall := node }
    | _ => none
  | .read => readStep hdrs s

/-- The machine of this direction. -/
def machine : Machine (State Q) Act := ⟨step hdrs N⟩

/-- Both domains idle over an initialised queue. -/
def State.start (q : Spsc.SpscQueue) (mem txData : Mem) (txFree txActive : Q) (pending : Bool) :
    State Q where
  ring := Spsc.State.start q mem
  fault := .idle
  read := .idle
  pending := pending
  txFree := txFree
  txActive := txActive
  txData := txData
  node := fun _ => 0
  nodeAtCall := fun _ => 0
  sent := []
  results := []

end MicroRosDemos.Sel4.FromGuest
