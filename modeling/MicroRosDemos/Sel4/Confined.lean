import MicroRosDemos.Spsc.Blocks
import MicroRosDemos.Sel4.Duplex
import MicroRosDemos.Sel4.FromGuestCall
import MicroRosDemos.Sel4.ToGuestBuffers

/-!
# Whatever the guest sends

The guest is not trusted: its frames are any bytes, with any lengths in their headers, as
long as each fits a buffer of the device. What such frames can do to the memory of the two
domains: the blocks of the two queues are written and nothing around them, the headers of
the queues least of all; in the data of the device its buffers are written; and a read writes
in its caller's buffer, no more than it returns. On the way to the guest this takes a free
buffer for each packet, whose lack `send_pkt_to_guest` does not notice.
-/

namespace MicroRosDemos.Spsc

open MicroRosDemos.Lib

/-- Memory is the same but for the bytes from `b` on and before `e`. -/
def SameOutside (b e : Nat) (m m' : Mem) : Prop := ∀ a, a < b ∨ e ≤ a → m a = m' a

theorem SameOutside.refl (b e : Nat) (m : Mem) : SameOutside b e m m := fun _ _ => rfl

theorem SameOutside.trans {b e : Nat} {m m' m'' : Mem} (h : SameOutside b e m m')
    (h' : SameOutside b e m' m'') : SameOutside b e m m'' := fun a ha => (h a ha).trans (h' a ha)

theorem SameOutside.mono {b b' e e' : Nat} {m m' : Mem} (h : SameOutside b e m m') (hb : b' ≤ b)
    (he : e ≤ e') : SameOutside b' e' m m' := fun a ha => h a (by omega)

/-- A store changes what it covers. -/
theorem sameOutside_write (m : Mem) (p : Nat) (bs : List Byte) :
    SameOutside p (p + bs.length) m (m.write p bs) := fun _ ha => (Mem.write_outside m p bs ha).symm

/-- The queue's machine writes in its blocks. -/
theorem step_outside {c : Word} {s t : State} {a : Act} (h : Inv c s) (hstep : step s a = some t) :
    SameOutside s.q.beginPtr s.q.endPtr s.mem t.mem := by
  cases a with
  | fill bs =>
    simp only [step] at hstep
    split at hstep
    · next p hp =>
      split at hstep
      · next hlen =>
        cases hstep
        have hholds : s.producer.holds = some p := by rw [hp]; rfl
        obtain ⟨hblock, _⟩ := h.holds_eq hholds
        have hin := h.sound.blockAt_isBlock (Counter.after c s.pushed.length)
        rw [← hblock] at hin
        have hend : p + bs.length ≤ s.q.endPtr := (Nat.add_le_add_left hlen p).trans hin.inside
        exact (sameOutside_write s.mem p bs).mono hin.begin_le hend
      · cases hstep
    · cases hstep
  | producer =>
    rw [(producerStep_frame hstep).1]
    exact .refl _ _ _
  | consumer =>
    rw [(consumerStep_frame hstep).1]
    exact .refl _ _ _
  | _ =>
    simp only [step] at hstep
    split at hstep
    · cases hstep
      exact .refl _ _ _
    · cases hstep

/-- And so does every run of it. -/
theorem reach_outside {c : Word} {s t : State} (h : Inv c s) (hrun : machine.Reach s t) :
    SameOutside s.q.beginPtr s.q.endPtr s.mem t.mem := by
  have hall := hrun.invariant
    (fun t => Inv c t ∧ t.q.geometry = s.q.geometry ∧ SameOutside s.q.beginPtr s.q.endPtr s.mem t.mem)
    ⟨h, rfl, .refl _ _ _⟩ fun u a v hu _ hstep => by
      obtain ⟨hinv, hgeometry, hsame⟩ := hu
      have hbegin : u.q.beginPtr = s.q.beginPtr := congrArg (·.1) hgeometry
      have hend : u.q.endPtr = s.q.endPtr := congrArg (·.2.1) hgeometry
      have hnext := step_outside hinv hstep
      rw [hbegin, hend] at hnext
      exact ⟨step_inv hinv hstep, (step_geometry hstep).trans hgeometry, hsame.trans hnext⟩
  exact hall.2.2

end MicroRosDemos.Spsc

namespace MicroRosDemos.Sel4.FromGuest

open MicroRosDemos.Lib MicroRosDemos.Net MicroRosDemos.Spsc

variable {Q : Type} {hdrs : TxHdrs} {N : NetRing Q} {c : Word}
variable {contents : Q → List NetBuffDesc} {capacity : Nat} {offsets : List Nat}

/-- A read stays in its caller's buffer: it returns no more than fits, and writes no more
than it returns. -/
def InBuffer (r : ReadResult) : Prop :=
  r.ret.toNat ≤ r.call.len.toNat ∧
    SameOutside r.call.buf (r.call.buf + r.ret.toNat) r.before r.after

/-- What is known inside a read of its caller's memory, and of the packet that it holds. -/
def Within (hdrs : TxHdrs) (s : State Q) : ReadPc → Prop
  | .idle | .empty => True
  | .front _ | .filter _ | .skip _ => s.node = s.nodeAtCall
  | .getPayload _ | .getPayloadLen _ =>
    s.node = s.nodeAtCall ∧ ∃ packet rest, s.queued = packet :: rest ∧ addressed hdrs packet = true
  | .copy call payloadLen => s.node = s.nodeAtCall ∧ payloadLen.toNat ≤ call.len.toNat
  | .finish call ret => InBuffer ⟨call, ret, s.nodeAtCall, s.node⟩
  | .assertFailed => False

/-- Nothing has been written but in the buffers: those of the reads, and those of the device. -/
structure Confined (hdrs : TxHdrs) (offsets : List Nat) (before : Mem) (s : State Q) : Prop where
  results : ∀ r ∈ s.results, InBuffer r
  inside : Within hdrs s s.read
  txData : ∀ a, (∀ o ∈ offsets, a < o ∨ o + 2048 ≤ a) → s.txData a = before a

/-- What is known inside a read does not depend on the rest of the state. -/
theorem Within.congr {s t : State Q} (h : Within hdrs s s.read) (hread : t.read = s.read)
    (hnode : t.node = s.node) (hcall : t.nodeAtCall = s.nodeAtCall)
    (hqueued : ∃ more, t.queued = s.queued ++ more) : Within hdrs t t.read := by
  obtain ⟨more, hqueued⟩ := hqueued
  rw [hread]
  cases hr : s.read with
  | idle | empty => trivial
  | getPayload call | getPayloadLen call =>
    rw [hr] at h
    obtain ⟨hsame, packet, rest, hfront, hme⟩ := h
    refine ⟨by rw [hnode, hcall]; exact hsame, packet, rest ++ more, ?_, hme⟩
    rw [hqueued, hfront, List.cons_append]
  | front call | filter call | skip call | copy call payloadLen | finish call ret =>
    rw [hr] at h
    simp only [Within, hnode, hcall] at h ⊢
    exact h
  | assertFailed =>
    rw [hr] at h
    exact h

/-! ## Each step -/

theorem ReadMove.confined {s t : State Q} {before : Mem} (hinv : Inv c contents offsets s)
    (h : Confined hdrs offsets before s) (hmove : ReadMove hdrs s t) :
    Confined hdrs offsets before t := by
  obtain ⟨hresults, hinside, htx⟩ := h
  cases hmove with
  | inside ring hring hphase hpopped =>
    refine ⟨hresults, hinside.congr rfl rfl rfl ⟨[], ?_⟩, htx⟩
    rw [State.queued, State.queued, hpopped, (consumerStep_frame hring).2.2.1, List.append_nil]
  | looked empty hr hpc => exact ⟨hresults, trivial, htx⟩
  | handed call p ring hr hring hp hpopped =>
    rw [hr] at hinside
    exact ⟨hresults, hinside, htx⟩
  | accepted call p hr hp hme =>
    rw [hr] at hinside
    obtain ⟨packet, rest, hqueued, hlen, hread⟩ := front_packet hinv (hinv.ring.front_block hp)
    rw [isAddressedToMe_of_read hread (by omega)] at hme
    exact ⟨hresults, ⟨hinside, packet, rest, hqueued, hme⟩, htx⟩
  | refused call p hr hp hme =>
    rw [hr] at hinside
    exact ⟨hresults, hinside, htx⟩
  | skipped call ring hr hring hp hpopped =>
    rw [hr] at hinside
    exact ⟨hresults, hinside, htx⟩
  | assertFailed p content hr hp hudp =>
    -- the filter has looked at the protocol, and the block has not changed since
    exfalso
    have hfirst : ∃ packet rest, s.queued = packet :: rest ∧ addressed hdrs packet = true := by
      rcases hr with ⟨call, hr⟩ | ⟨call, hr⟩ <;> rw [hr] at hinside <;> exact hinside.2
    obtain ⟨packet, rest, hqueued, hme⟩ := hfirst
    obtain ⟨hlen, hread⟩ := holding_packet hinv hp hqueued
    rw [isUdp_of_addressed ((isAddressedToMe_of_read hread (by omega)).trans hme)] at hudp
    cases hudp
  | payload call hr =>
    rw [hr] at hinside
    exact ⟨hresults, hinside, htx⟩
  | dropped call p content hr hp hlen =>
    rw [hr] at hinside
    refine ⟨hresults, ⟨Nat.zero_le _, ?_⟩, htx⟩
    show SameOutside _ _ s.nodeAtCall s.node
    rw [hinside.1]
    exact .refl _ _ _
  | kept call p content hr hp hlen =>
    rw [hr] at hinside
    exact ⟨hresults, ⟨hinside.1, Nat.not_lt.mp hlen⟩, htx⟩
  | copied call payloadLen p content hr hp =>
    rw [hr] at hinside
    obtain ⟨hnode, hfits⟩ := hinside
    refine ⟨hresults, ⟨hfits, ?_⟩, htx⟩
    have hwrite := sameOutside_write s.node call.buf (s.ring.mem.read (getPayload p) payloadLen.toNat)
    rw [Mem.read_length, hnode] at hwrite
    show SameOutside _ _ s.nodeAtCall (s.node.write call.buf _)
    rw [hnode]
    exact hwrite
  | finished call ret ring hr hring hp hpopped =>
    rw [hr] at hinside
    exact ⟨forall_mem_grown.mpr ⟨hresults, hinside⟩, trivial, htx⟩

/-- The VMM only adds packets. -/
theorem FaultMove.queued {s t : State Q} (hinv : Inv c contents offsets s) (hmove : FaultMove N s t) :
    ∃ more, t.queued = s.queued ++ more := by
  cases hmove with
  | inside ring hring hphase hpushed | handed buf p ring hf hring hp hpushed =>
    refine ⟨[], ?_⟩
    rw [State.queued, State.queued, hpushed, (producerStep_frame hring).2.2.2.1, List.append_nil]
  | pushed buf p ring hf hphase hring hp hpushed =>
    refine ⟨[s.ring.mem.read p s.ring.size], ?_⟩
    rw [State.queued, State.queued, hpushed, (producerStep_frame hring).2.2.2.1,
      List.drop_append_of_le_length hinv.ring.popped_le, List.map_append]
    rfl
  | _ => exact ⟨[], (List.append_nil _).symm⟩

theorem step_confined {s t : State Q} {a : Act} {before : Mem} (hN : N.Fifo contents capacity)
    (hcap : offsets.length ≤ capacity) (hinv : Inv c contents offsets s)
    (h : Confined hdrs offsets before s) (hok : FramesFit s a) (hstep : step hdrs N s a = some t) :
    Confined hdrs offsets before t := by
  cases step_move hinv.fault hinv.read hstep with
  | read _ hmove => exact hmove.confined hinv h
  | vmm _ hmove =>
    have hsame : t.results = s.results ∧ t.read = s.read ∧ t.node = s.node ∧
        t.nodeAtCall = s.nodeAtCall ∧ t.txData = s.txData := by
      cases hmove <;> exact ⟨rfl, rfl, rfl, rfl, rfl⟩
    obtain ⟨hresults, hread, hnode, hcall, htx⟩ := hsame
    exact ⟨hresults ▸ h.results, h.inside.congr hread hnode hcall (hmove.queued hinv), htx ▸ h.txData⟩
  | faulted | handled => exact ⟨h.results, h.inside.congr rfl rfl rfl ⟨[], (List.append_nil _).symm⟩, h.txData⟩
  | framed frame buf txFree hf hdeq =>
    refine ⟨h.results, h.inside.congr rfl rfl rfl ⟨[], (List.append_nil _).symm⟩, fun a ha => ?_⟩
    -- the buffer comes off the free ring, so it is one of the device's
    have hmem : buf.ioOrOffset ∈ s.buffers contents := by
      rw [State.buffers, (guestFrame_contents frame hN hcap hinv.toAround hdeq).1]
      exact List.mem_map_of_mem (List.mem_append_left _ (List.mem_append_left _ List.mem_cons_self))
    have hout := ha _ (hinv.buffers.mem_iff.mp hmem)
    have hlen : frame.length ≤ 2048 := hok
    show s.txData.write buf.ioOrOffset frame a = before a
    rw [Mem.write_outside _ _ _ (by omega)]
    exact h.txData a ha
  | looks => exact ⟨h.results, trivial, h.txData⟩
  | called node call => exact ⟨h.results, rfl, h.txData⟩

end MicroRosDemos.Sel4.FromGuest

namespace MicroRosDemos.Sel4.ToGuest

open MicroRosDemos.Lib MicroRosDemos.Net

variable {Q : Type} {hdrs : TxHdrs} {N : NetRing Q} {contents : Q → List NetBuffDesc} {offsets : List Nat}

/-- `send_pkt_to_guest` copies to the buffer in its hands, and nothing else is written there. -/
theorem step_rxData {s t : State Q} {a : Act} (hw : s.write.At s.ring.producer.phase)
    (hn : s.notified.At s.ring.consumer.phase) (hperm : (s.rxBuffers contents).Perm offsets)
    (hstep : step hdrs N s a = some t) {x : Nat} (hx : ∀ o ∈ offsets, x < o ∨ o + pktSize ≤ x) :
    t.rxData x = s.rxData x := by
  cases step_move hw hn hstep with
  | write _ hmove => cases hmove <;> rfl
  | notified junk _ hmove =>
    cases hmove with
    | copied buf p hcopy hp =>
      have hmem : buf.ioOrOffset ∈ s.rxBuffers contents := by
        rw [State.rxBuffers, hcopy]
        exact List.mem_map_of_mem (List.mem_append_right _ (List.mem_singleton_self buf))
      have hout := hx _ (hperm.mem_iff.mp hmem)
      exact Mem.write_outside _ _ _ (by rw [Mem.read_length]; exact hout)
    | _ => rfl
  | refused | called | woken | handled => rfl

end MicroRosDemos.Sel4.ToGuest

namespace MicroRosDemos.Sel4.Duplex

open MicroRosDemos.Lib MicroRosDemos.Net MicroRosDemos.Spsc
open MicroRosDemos.Sel4.ToGuest (twoFrames twoFrames_init)
open MicroRosDemos.Sel4.FromGuest (ReadResult)

variable {Q : Type} {hdrs : TxHdrs} {N : NetRing Q} {c : Word}
variable {contents : Q → List NetBuffDesc} {capacity : Nat} {offsets : List Nat}

/-- All that is assumed: the frames of the guest fit a buffer, and a receive buffer is free
whenever `send_pkt_to_guest` takes one. -/
def BuffersFit (contents : Q → List NetBuffDesc) (s : State Q) : Act → Prop
  | .fromGuest a => FromGuest.FramesFit s.fromGuest a
  | .toGuest a => ToGuest.HasFree contents s.toGuest a

instance (contents : Q → List NetBuffDesc) (s : State Q) (a : Act) :
    Decidable (BuffersFit contents s a) :=
  match a with
  | .fromGuest a => inferInstanceAs (Decidable (FromGuest.FramesFit s.fromGuest a))
  | .toGuest a => inferInstanceAs (Decidable (ToGuest.HasFree contents s.toGuest a))

/-- The regions of the two queues, as far as they are not blocks, are as they were, and
both ways keep to their buffers. -/
structure Confined (hdrs : TxHdrs) (contents : Q → List NetBuffDesc) (offsets : List Nat)
    (pp2vmm vmm2pp : SpscQueue) (ppMem vmMem rxData txData : Mem) (s : State Q) : Prop where
  toGuest : ToGuest.Inv 0 s.toGuest
  fromGuest : FromGuest.Inv 0 contents offsets s.fromGuest
  geometry : s.toGuest.ring.q.geometry = pp2vmm.geometry ∧ s.fromGuest.ring.q.geometry = vmm2pp.geometry
  pp2vmm : SameOutside pp2vmm.beginPtr pp2vmm.endPtr ppMem s.toGuest.ring.mem
  vmm2pp : SameOutside vmm2pp.beginPtr vmm2pp.endPtr vmMem s.fromGuest.ring.mem
  reads : FromGuest.Confined hdrs offsets txData s.fromGuest
  rxBuffers : (s.toGuest.rxBuffers contents).Perm offsets
  rxData : ∀ a, (∀ o ∈ offsets, a < o ∨ o + 2048 ≤ a) → s.toGuest.rxData a = rxData a

/-- What a run of a queue's machine adds. -/
theorem outside_next {q : SpscQueue} {m : Mem} {r r' : Spsc.State} (hinv : Spsc.Inv c r)
    (hgeometry : r.q.geometry = q.geometry) (h : SameOutside q.beginPtr q.endPtr m r.mem)
    (hrun : Spsc.machine.Reach r r') :
    r'.q.geometry = q.geometry ∧ SameOutside q.beginPtr q.endPtr m r'.mem := by
  have hbegin : r.q.beginPtr = q.beginPtr := congrArg (·.1) hgeometry
  have hend : r.q.endPtr = q.endPtr := congrArg (·.2.1) hgeometry
  have hnext := reach_outside hinv hrun
  rw [hbegin, hend] at hnext
  exact ⟨(reach_geometry hrun).trans hgeometry, h.trans hnext⟩

theorem step_confined {pp2vmm vmm2pp : SpscQueue} {ppMem vmMem rxData txData : Mem} {s t : State Q}
    {a : Act} (hihl : hdrs.ip.ihl = 5) (hN : N.Fifo contents capacity) (hcap : offsets.length ≤ capacity)
    (h : Confined hdrs contents offsets pp2vmm vmm2pp ppMem vmMem rxData txData s)
    (hok : BuffersFit contents s a) (hstep : step hdrs N s a = some t) :
    Confined hdrs contents offsets pp2vmm vmm2pp ppMem vmMem rxData txData t := by
  obtain ⟨_, ⟨b, u, rfl, hu, rfl⟩ | ⟨b, u, rfl, hu, rfl⟩⟩ := step_cases hstep
  · obtain ⟨hgeometry, hsame⟩ :=
      outside_next h.toGuest.ring h.geometry.1 h.pp2vmm (ToGuest.step_ring hihl h.toGuest hu)
    have hw := h.toGuest.write
    have hn := h.toGuest.notified
    exact { h with
      toGuest := ToGuest.step_inv hihl h.toGuest hu
      geometry := ⟨hgeometry, h.geometry.2⟩
      pp2vmm := hsame
      rxBuffers := ToGuest.step_buffers hN hcap hn hw h.rxBuffers hok hu
      rxData := fun a ha => (ToGuest.step_rxData hw hn h.rxBuffers hu ha).trans (h.rxData a ha) }
  · obtain ⟨hgeometry, hsame⟩ :=
      outside_next h.fromGuest.ring h.geometry.2 h.vmm2pp (FromGuest.step_ring h.fromGuest.toAround hu)
    exact { h with
      fromGuest := FromGuest.step_inv hN hcap h.fromGuest hok hu
      geometry := ⟨h.geometry.1, hgeometry⟩
      vmm2pp := hsame
      reads := FromGuest.step_confined hN hcap h.fromGuest h.reads hok hu }

/-- Two frames that lie about their lengths: three bytes and no header at all, and a packet
to the node with a UDP length of zero. -/
def hostileFrames : List (List Byte) := [[1, 2, 3], (FromGuest.toNode [5]).set 39 0]

end MicroRosDemos.Sel4.Duplex
