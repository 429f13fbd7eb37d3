import MicroRosDemos.Lib.Link
import MicroRosDemos.Sel4.Duplex
import MicroRosDemos.Sel4.FromGuestReads
import MicroRosDemos.Sel4.ToGuestFrames
import MicroRosDemos.Sel4.VmEcho

/-!
# There and back: ping_pong, the VMM and the guest's echo

The whole way of a payload: `custom_transport_seL4_write` puts it into a packet, the
VMM hands the packet to the guest, the guest's stack brings it to `vm_echo`, which sends
it back; the device takes the reply, the VMM forwards it, and
`custom_transport_seL4_read` returns it. All of them take their steps in any order, and
both ends of the guest's stack may lose datagrams.

`Inv` has one clause for each hand-over; `echo_roundTrip` is their composition.
-/

namespace MicroRosDemos.Sel4.Echo

open MicroRosDemos.Lib MicroRosDemos.Net MicroRosDemos.Spsc

/-- The two domains, and the guest: how many of the frames delivered to it its stack has
looked at, the datagrams in the socket, the server, how many of its replies the stack
has dealt with, and how many datagrams it has lost. -/
structure State (Q : Type) where
  domains : Duplex.State Q
  seen : Nat
  socket : List Dgram
  echo : VmEcho.State
  taken : Nat
  lost : Nat

/-- What happens next: a step of the domains; the stack looks at a frame, and loses what
it brings or not; the server's `recvfrom` gets a datagram or fails; the stack sends a
reply or loses it. -/
inductive Act
  | domains (a : Duplex.Act)
  | takeIn (keep : Bool)
  | turn
  | failed
  | sendOut (keep : Bool)

variable {Q : Type} (hdrs : TxHdrs) (N : NetRing Q) (K : Stack) (buf : Nat)

def step (s : State Q) : Act → Option (State Q)
  | .domains a => (Duplex.step hdrs N s.domains a).map fun domains => { s with domains }
  | .takeIn keep =>
    s.domains.toGuest.delivered[s.seen]?.map fun frame =>
      match K.recv frame with
      | none => { s with seen := s.seen + 1 }
      | some d =>
        if keep then { s with seen := s.seen + 1, socket := s.socket ++ [d] }
        else { s with seen := s.seen + 1, lost := s.lost + 1 }
  | .turn =>
    match s.socket with
    | [] => none
    | d :: socket => some { s with socket, echo := VmEcho.turn buf s.echo (some d) }
  | .failed => some { s with echo := VmEcho.turn buf s.echo none }
  | .sendOut keep =>
    match s.echo.sent[s.taken]? with
    | none => none
    | some d =>
      if keep then
        (Duplex.step hdrs N s.domains (.fromGuest (.guestFrame (K.send d)))).map fun domains =>
          { s with domains, taken := s.taken + 1 }
      else some { s with taken := s.taken + 1, lost := s.lost + 1 }

/-- The machine of all four. -/
def machine : Machine (State Q) Act := ⟨step hdrs N K buf⟩

/-- The domains at their start, and a guest that has received nothing. -/
def State.start (domains : Duplex.State Q) (mem : Mem) : State Q where
  domains := domains
  seen := 0
  socket := []
  echo := .start mem
  taken := 0
  lost := 0

/-- What is assumed of the steps: a buffer is free when `send_pkt_to_guest` takes one and
the device takes every active buffer, no payload of 1473 to 1500 bytes is written, and the
guest's own frames hold the three headers, fit a buffer and are not for the node. -/
def Ok (contents : Q → List NetBuffDesc) (s : State Q) : Act → Prop
  | .domains (.toGuest (.call payload)) => payload.length ≤ 1472 ∨ 1500 < payload.length
  | .domains (.toGuest a) => ToGuest.SddfOk contents s.domains.toGuest a
  | .domains (.fromGuest (.guestFrame frame)) => FrameOk hdrs frame ∧ addressed hdrs frame = false
  | _ => True

instance (contents : Q → List NetBuffDesc) (s : State Q) (a : Act) : Decidable (Ok hdrs contents s a) :=
  match a with
  | .domains (.toGuest (.call payload)) =>
    inferInstanceAs (Decidable (payload.length ≤ 1472 ∨ 1500 < payload.length))
  | .domains (.toGuest .write) => inferInstanceAs (Decidable (ToGuest.SddfOk contents s.domains.toGuest .write))
  | .domains (.toGuest .wake) => inferInstanceAs (Decidable (ToGuest.SddfOk contents s.domains.toGuest .wake))
  | .domains (.toGuest (.notified junk)) =>
    inferInstanceAs (Decidable (ToGuest.SddfOk contents s.domains.toGuest (.notified junk)))
  | .domains (.toGuest (.handleRx n)) =>
    inferInstanceAs (Decidable (ToGuest.SddfOk contents s.domains.toGuest (.handleRx n)))
  | .domains (.fromGuest (.guestFrame frame)) =>
    inferInstanceAs (Decidable (FrameOk hdrs frame ∧ addressed hdrs frame = false))
  | .domains (.fromGuest .fault) | .domains (.fromGuest (.handled _)) | .domains (.fromGuest .vmm)
  | .domains (.fromGuest .empty) | .domains (.fromGuest (.call _ _)) | .domains (.fromGuest .read)
  | .takeIn _ | .turn | .failed | .sendOut _ => inferInstanceAs (Decidable True)

/-! ## What the domains hand over -/

section
variable {hdrs N} {c : Word} {contents : Q → List NetBuffDesc}

/-- The device hands over frames behind those it has handed over. -/
theorem virtioNetHandleRx_grows (n : Nat) (s : ToGuest.State Q) :
    s.delivered <+: (ToGuest.virtioNetHandleRx N s n).delivered := by
  induction n generalizing s with
  | zero => exact List.prefix_rfl
  | succ n ih =>
    unfold ToGuest.virtioNetHandleRx
    split
    · exact List.prefix_rfl
    · refine List.IsPrefix.trans ?_ (ih _)
      exact List.prefix_append _ _

/-- The calls and the frames delivered only become more, and a new call is the action. -/
theorem toGuest_grows {s t : ToGuest.State Q} {a : ToGuest.Act}
    (hw : s.write.At s.ring.producer.phase) (hn : s.notified.At s.ring.consumer.phase)
    (h : ToGuest.step hdrs N s a = some t) :
    s.delivered <+: t.delivered ∧
      (t.calls = s.calls ∨ ∃ payload, a = .call payload ∧ t.calls = s.calls ++ [payload]) := by
  cases ToGuest.step_move hw hn h with
  | refused payload | called payload => exact ⟨List.prefix_rfl, .inr ⟨payload, rfl, rfl⟩⟩
  | write _ hmove => cases hmove <;> exact ⟨List.prefix_rfl, .inl rfl⟩
  | woken => exact ⟨List.prefix_rfl, .inl rfl⟩
  | notified junk _ hmove => cases hmove <;> exact ⟨List.prefix_rfl, .inl rfl⟩
  | handled n rxFree rxActive delivered _ hshared =>
    refine ⟨?_, .inl rfl⟩
    have hgrows := virtioNetHandleRx_grows (N := N) n s
    rw [hshared] at hgrows
    exact hgrows

/-- A frame delivered is a packet made of the payload of its turn. -/
theorem packet_of_delivered {s : ToGuest.State Q} (hinv : ToGuest.Inv c s)
    (hframes : ToGuest.Frames hdrs s) (hdelivered : ToGuest.Delivered contents s) {i : Nat}
    {frame : List Byte} (hframe : s.delivered[i]? = some frame) :
    ∃ payload stale, s.accepted[i]? = some payload ∧ frame = ToGuest.blockBytes hdrs payload stale := by
  obtain ⟨_, _, heq⟩ := hframes.enqueued_eq hinv.ring
  have hhanded : (s.enqueued.map Prod.snd)[i]? = some frame := by
    rw [hdelivered.split, List.getElem?_append_left (List.getElem?_eq_some_iff.mp hframe).1, hframe]
  rw [heq, List.getElem?_zipWith_eq_some] at hhanded
  obtain ⟨payload, stale, hpayload, _, hblock⟩ := hhanded
  have hi : i < s.enqueued.length := by
    have hlt := (List.getElem?_eq_some_iff.mp hpayload).1
    rw [List.length_take] at hlt
    omega
  rw [List.getElem?_take_of_lt hi] at hpayload
  exact ⟨payload, stale, hpayload, hblock.symm⟩

/-- The guest's frames only become more, and a new one is the action. -/
theorem fromGuest_sent {s t : FromGuest.State Q} {a : FromGuest.Act}
    (hf : s.fault.At s.ring.producer.phase) (hr : s.read.At s.ring.consumer.phase)
    (h : FromGuest.step hdrs N s a = some t) :
    (∃ frame, a = .guestFrame frame ∧ t.sent = s.sent ++ [frame]) ∨
      ((∀ frame, a ≠ .guestFrame frame) ∧ t.sent = s.sent) := by
  cases FromGuest.step_move hf hr h with
  | framed frame => exact .inl ⟨frame, rfl, rfl⟩
  | vmm _ hmove => cases hmove <;> exact .inr ⟨fun _ hno => (by cases hno), rfl⟩
  | read _ hmove => exact .inr ⟨fun _ hno => (by cases hno), hmove.net.2.2.2.2⟩
  | _ => exact .inr ⟨fun _ hno => (by cases hno), rfl⟩

end

/-! ## Everything between the two ends -/

/-- The node's datagram of a payload, as the server receives it. -/
def dgram (hdrs : TxHdrs) (payload : List Byte) : Dgram := ⟨hdrs.source, payload⟩

/-- The invariant of the four: that of either direction, and one clause for each
hand-over on the guest's side. -/
structure Inv (hdrs : TxHdrs) (rxContents txContents : Q → List NetBuffDesc) (offsets : List Nat)
    (buf : Nat) (before : Mem) (s : State Q) : Prop where
  toGuest : ToGuest.Inv 0 s.domains.toGuest
  packets : ToGuest.Frames hdrs s.domains.toGuest
  delivered : ToGuest.Delivered rxContents s.domains.toGuest
  short : ∀ payload ∈ s.domains.toGuest.accepted, payload.length ≤ 1472
  fromGuest : FromGuest.Inv 0 txContents offsets s.domains.fromGuest
  frames : FromGuest.Frames txContents s.domains.fromGuest
  reads : FromGuest.Reads hdrs s.domains.fromGuest
  echo : VmEcho.Echoes buf before s.echo
  received : Carried s.lost ((s.domains.toGuest.accepted.take s.seen).map (dgram hdrs))
    (s.echo.received ++ s.socket)
  seen : s.seen ≤ s.domains.toGuest.delivered.length
  taken : s.taken ≤ s.echo.sent.length
  replies : ∃ replies, Carried s.lost (s.echo.sent.take s.taken) replies ∧
    (s.domains.fromGuest.sent.filter (addressed hdrs)).map udpPayload = replies.map Dgram.data

section
variable {hdrs N K buf} {rxContents txContents : Q → List NetBuffDesc} {rxCapacity txCapacity : Nat}
  {offsets : List Nat} {before : Mem} {s t : State Q} {guest : TxHdrs}

/-- As many payloads were accepted as frames were delivered, or more. -/
theorem Inv.seen_le (h : Inv hdrs rxContents txContents offsets buf before s) :
    s.seen ≤ s.domains.toGuest.accepted.length := by
  obtain ⟨hcovered, haccepted, _⟩ := h.packets.enqueued_eq h.toGuest.ring
  have hle := congrArg List.length h.delivered.split
  rw [List.length_map, List.length_append] at hle
  have hseen := h.seen
  omega

/-- A step on the way to the guest. -/
theorem Inv.toGuest_step (hN : N.Fifo rxContents rxCapacity) (hcap : 0 < rxCapacity)
    (hihl : hdrs.ip.ihl = 5) (h : Inv hdrs rxContents txContents offsets buf before s)
    {a : ToGuest.Act} {u : ToGuest.State Q} (hok : Ok hdrs rxContents s (.domains (.toGuest a)))
    (hstep : ToGuest.step hdrs N s.domains.toGuest a = some u) :
    Inv hdrs rxContents txContents offsets buf before
      { s with domains := { s.domains with toGuest := u } } := by
  obtain ⟨hgrows, hcalls⟩ := toGuest_grows h.toGuest.write h.toGuest.notified hstep
  have hsddf : ToGuest.SddfOk rxContents s.domains.toGuest a := by
    cases a <;> first | exact hok | trivial
  have haccepted : s.domains.toGuest.accepted <+: u.accepted := by
    unfold ToGuest.State.accepted
    rcases hcalls with hcalls | ⟨payload, _, hcalls⟩
    · rw [hcalls]
    · rw [hcalls]
      exact (List.prefix_append _ _).filter _
  refine
    { h with
      toGuest := ToGuest.step_inv hihl h.toGuest hstep
      packets := ToGuest.step_frames hihl h.toGuest h.packets hstep
      delivered := ToGuest.step_delivered hN hcap h.toGuest h.delivered hsddf hstep
      short := ?_
      received := ?_
      seen := h.seen.trans hgrows.length_le }
  · intro payload hpayload
    rcases hcalls with hcalls | ⟨new, rfl, hcalls⟩
    · refine h.short payload ?_
      rw [ToGuest.State.accepted, ← hcalls]
      exact hpayload
    · rw [ToGuest.State.accepted, hcalls, List.filter_append] at hpayload
      rcases List.mem_append.mp hpayload with hold | hnew
      · exact h.short payload hold
      · obtain ⟨hmem, hsmall⟩ := List.mem_filter.mp hnew
        cases List.mem_singleton.mp hmem
        have hbound : payload.length ≤ 1500 := of_decide_eq_true hsmall
        rcases hok with hle | hlarge <;> omega
  · have htake : u.accepted.take s.seen = s.domains.toGuest.accepted.take s.seen := by
      obtain ⟨more, hmore⟩ := haccepted
      rw [← hmore, List.take_append_of_le_length h.seen_le]
    show Carried s.lost ((u.accepted.take s.seen).map (dgram hdrs)) _
    rw [htake]
    exact h.received

/-- A step on the way back that is not a reply of the server. -/
theorem Inv.fromGuest_step (hfar : offsets.Pairwise FromGuest.Apart)
    (hN : N.Fifo txContents txCapacity) (hcap : offsets.length ≤ txCapacity)
    (h : Inv hdrs rxContents txContents offsets buf before s) {a : FromGuest.Act}
    {u : FromGuest.State Q} (hok : FromGuest.FramesOk hdrs s.domains.fromGuest a)
    (hother : ∀ frame, a = .guestFrame frame → addressed hdrs frame = false)
    (hstep : FromGuest.step hdrs N s.domains.fromGuest a = some u) :
    Inv hdrs rxContents txContents offsets buf before
      { s with domains := { s.domains with fromGuest := u } } := by
  have hsent : u.sent.filter (addressed hdrs) = s.domains.fromGuest.sent.filter (addressed hdrs) := by
    rcases fromGuest_sent h.fromGuest.fault h.fromGuest.read hstep with ⟨frame, rfl, hsent⟩ | ⟨_, hsent⟩
    · rw [hsent, List.filter_append, List.filter_cons_of_neg (by simp [hother frame rfl])]
      exact List.append_nil _
    · rw [hsent]
  exact
    { h with
      fromGuest := FromGuest.step_inv hN hcap h.fromGuest hok.fit hstep
      frames := FromGuest.step_frames hfar hN hcap h.fromGuest.toAround h.frames hok.fit hstep
      reads := FromGuest.step_reads h.fromGuest h.frames h.reads hok hstep
      replies := by
        obtain ⟨replies, hcarried, heq⟩ := h.replies
        exact ⟨replies, hcarried, (congrArg _ hsent).trans heq⟩ }

/-- The stack looks at the next frame: it brings the next payload, or loses it. -/
theorem Inv.takeIn (hplain : Datagram.PlainHdrs hdrs) (hguest : ForNode guest hdrs)
    (hK : K.Serves guest hdrs) (h : Inv hdrs rxContents txContents offsets buf before s) {keep : Bool}
    (hstep : step hdrs N K buf s (.takeIn keep) = some t) :
    Inv hdrs rxContents txContents offsets buf before t := by
  simp only [step, Option.map_eq_some_iff] at hstep
  obtain ⟨frame, hframe, rfl⟩ := hstep
  obtain ⟨payload, stale, hpayload, hblock⟩ := packet_of_delivered h.toGuest h.packets h.delivered hframe
  have hlen := h.short payload (List.mem_of_getElem? hpayload)
  obtain ⟨hconsistent, _, htot, hchecked, hsource, hdecode⟩ := Datagram.decode_pktBytes hplain hguest
    (by omega : 28 + payload.length < 2 ^ 16) (stale.drop (42 + payload.length))
  have hrecv := hK.recv _ payload hconsistent (by rw [htot]; unfold ethMtu; omega) hchecked hdecode
  rw [hsource] at hrecv
  rw [hblock, ToGuest.blockBytes, hrecv]
  have hlt := (List.getElem?_eq_some_iff.mp hframe).1
  have htake : (s.domains.toGuest.accepted.take (s.seen + 1)).map (dgram hdrs) =
      (s.domains.toGuest.accepted.take s.seen).map (dgram hdrs) ++ [dgram hdrs payload] := by
    rw [List.take_add_one, hpayload, List.map_append]
    rfl
  cases keep with
  | true =>
    refine { h with received := ?_, seen := hlt }
    show Carried s.lost ((s.domains.toGuest.accepted.take (s.seen + 1)).map (dgram hdrs))
      (s.echo.received ++ (s.socket ++ [dgram hdrs payload]))
    rw [htake, ← List.append_assoc]
    exact h.received.carry _
  | false =>
    obtain ⟨replies, hcarried, heq⟩ := h.replies
    refine { h with received := ?_, seen := hlt, replies := ⟨replies, hcarried.succ, heq⟩ }
    show Carried (s.lost + 1) ((s.domains.toGuest.accepted.take (s.seen + 1)).map (dgram hdrs))
      (s.echo.received ++ s.socket)
    rw [htake]
    exact h.received.lose _

/-- The server's replies only become more. -/
theorem turn_grows (buf : Nat) (echo : VmEcho.State) (r : Option Dgram) :
    echo.sent <+: (VmEcho.turn buf echo r).sent ∧
      (VmEcho.turn buf echo r).received = echo.received ++ r.toList := by
  cases r with
  | none => exact ⟨List.prefix_rfl, (List.append_nil _).symm⟩
  | some d =>
    unfold VmEcho.turn
    dsimp only
    split
    · exact ⟨List.prefix_append _ _, rfl⟩
    · exact ⟨List.prefix_rfl, rfl⟩

/-- A turn of the server. -/
theorem Inv.turn (h : Inv hdrs rxContents txContents offsets buf before s) {r : Option Dgram}
    {socket : List Dgram} (hsocket : s.socket = r.toList ++ socket) :
    Inv hdrs rxContents txContents offsets buf before
      { s with socket, echo := VmEcho.turn buf s.echo r } := by
  obtain ⟨hgrows, hreceived⟩ := turn_grows buf s.echo r
  obtain ⟨replies, hcarried, heq⟩ := h.replies
  refine
    { h with
      echo := VmEcho.turn_echoes h.echo
      received := ?_
      taken := h.taken.trans hgrows.length_le
      replies := ⟨replies, ?_, heq⟩ }
  · show Carried s.lost _ ((VmEcho.turn buf s.echo r).received ++ socket)
    rw [hreceived, List.append_assoc, ← hsocket]
    exact h.received
  · obtain ⟨more, hmore⟩ := hgrows
    rw [← hmore, List.take_append_of_le_length h.taken]
    exact hcarried

/-- A reply goes back to the node, with a payload that was accepted. -/
theorem Inv.reply_mem (h : Inv hdrs rxContents txContents offsets buf before s) {d : Dgram}
    (hd : d ∈ s.echo.sent) : d.peer = hdrs.source ∧ d.data.length ≤ 1472 := by
  rw [h.echo.sent] at hd
  obtain ⟨r, hr, hreply⟩ := List.mem_filterMap.mp hd
  have hmem := h.received.sublist.subset (List.mem_append_left _ hr)
  obtain ⟨payload, hpayload, rfl⟩ := List.mem_map.mp hmem
  have hlen := h.short payload (List.mem_of_mem_take hpayload)
  unfold VmEcho.reply at hreply
  split at hreply
  · cases hreply
  · cases hreply
    refine ⟨rfl, ?_⟩
    show (payload.take _).length ≤ 1472
    rw [List.length_take]
    omega

/-- The device takes the next reply, or the stack loses it. -/
theorem Inv.sendOut (hK : K.Serves guest hdrs) (hfar : offsets.Pairwise FromGuest.Apart)
    (hN : N.Fifo txContents txCapacity) (hcap : offsets.length ≤ txCapacity)
    (h : Inv hdrs rxContents txContents offsets buf before s) {keep : Bool}
    (hstep : step hdrs N K buf s (.sendOut keep) = some t) :
    Inv hdrs rxContents txContents offsets buf before t := by
  simp only [step] at hstep
  cases hnext : s.echo.sent[s.taken]? with
  | none =>
    rw [hnext] at hstep
    cases hstep
  | some d =>
    rw [hnext] at hstep
    obtain ⟨replies, hcarried, heq⟩ := h.replies
    have hlt := (List.getElem?_eq_some_iff.mp hnext).1
    have htake : s.echo.sent.take (s.taken + 1) = s.echo.sent.take s.taken ++ [d] := by
      rw [List.take_add_one, hnext]
      rfl
    cases keep with
    | false =>
      cases hstep
      refine { h with taken := hlt, received := h.received.succ, replies := ⟨replies, ?_, heq⟩ }
      rw [htake]
      exact hcarried.lose d
    | true =>
      obtain ⟨domains, hdomains, rfl⟩ := Option.map_eq_some_iff.mp hstep
      obtain ⟨hpeer, hlen⟩ := h.reply_mem (List.mem_of_getElem? hnext)
      obtain ⟨_, ⟨b, u, hno, _⟩ | ⟨b, u, hb, hu, rfl⟩⟩ := Duplex.step_cases hdomains
      · cases hno
      cases hb
      have hsends := hK.send d.data (by simp only [ipLen, udpLen, ethMtu]; omega)
      rw [← hpeer] at hsends
      obtain ⟨hframe, hconsistent, hplain, hdecode⟩ := hsends
      obtain ⟨hok, haddressed, hpayload⟩ := Datagram.frameOk_of_decode hconsistent hplain hframe hdecode
      have hsent : u.sent = s.domains.fromGuest.sent ++ [K.send d] := by
        rcases fromGuest_sent h.fromGuest.fault h.fromGuest.read hu with ⟨frame, hframe, hsent⟩ | ⟨hno, _⟩
        · cases hframe
          exact hsent
        · exact absurd rfl (hno _)
      have hfine : FromGuest.FramesOk hdrs s.domains.fromGuest (.guestFrame (K.send d)) := hok
      refine
        { h with
          fromGuest := FromGuest.step_inv hN hcap h.fromGuest hfine.fit hu
          frames := FromGuest.step_frames hfar hN hcap h.fromGuest.toAround h.frames hfine.fit hu
          reads := FromGuest.step_reads h.fromGuest h.frames h.reads hfine hu
          taken := hlt
          replies := ⟨replies ++ [d], ?_, ?_⟩ }
      · rw [htake]
        exact hcarried.carry d
      · show (u.sent.filter (addressed hdrs)).map udpPayload = _
        rw [hsent, List.filter_append, List.filter_cons_of_pos haddressed, List.filter_nil,
          List.map_append, List.map_append, heq, List.map_cons, hpayload]
        rfl

/-- Every step keeps the invariant. -/
theorem step_inv (hplain : Datagram.PlainHdrs hdrs) (hguest : ForNode guest hdrs)
    (hK : K.Serves guest hdrs) (hrx : N.Fifo rxContents rxCapacity) (hrxCap : 0 < rxCapacity)
    (hfar : offsets.Pairwise FromGuest.Apart) (htx : N.Fifo txContents txCapacity)
    (htxCap : offsets.length ≤ txCapacity)
    (h : Inv hdrs rxContents txContents offsets buf before s) {a : Act}
    (hok : Ok hdrs rxContents s a) (hstep : step hdrs N K buf s a = some t) :
    Inv hdrs rxContents txContents offsets buf before t := by
  cases a with
  | takeIn keep => exact h.takeIn hplain hguest hK hstep
  | sendOut keep => exact h.sendOut hK hfar htx htxCap hstep
  | failed =>
    cases hstep
    exact h.turn (r := none) rfl
  | turn =>
    simp only [step] at hstep
    split at hstep
    · cases hstep
    · next d socket hsocket =>
      cases hstep
      exact h.turn (r := some d) hsocket
  | domains a =>
    obtain ⟨domains, hdomains, rfl⟩ := Option.map_eq_some_iff.mp hstep
    obtain ⟨_, ⟨b, u, rfl, hu, rfl⟩ | ⟨b, u, rfl, hu, rfl⟩⟩ := Duplex.step_cases hdomains
    · exact h.toGuest_step hrx hrxCap hplain.ihl hok hu
    · refine h.fromGuest_step hfar htx htxCap ?_ ?_ hu
      · cases b <;> first | exact hok.1 | trivial
      · rintro frame rfl
        exact hok.2

/-! ## The whole way -/

/-- What a read makes of a payload: it is in the buffer and its length returned, or it
did not fit and the memory is as it was. -/
def Answers (payload : List Byte) (r : FromGuest.ReadResult) : Prop :=
  if payload.length ≤ r.call.len.toNat then
    r.ret.toNat = payload.length ∧ r.after = r.before.write r.call.buf payload
  else r.ret = 0 ∧ r.after = r.before

/-- Of the payloads that are not empty, those that came back to the reads. -/
theorem Inv.answered (h : Inv hdrs rxContents txContents offsets buf before s) :
    ∃ answered, Passed s.lost (s.domains.toGuest.accepted.filter (· ≠ [])) answered ∧
      List.Forall₂ Answers answered s.domains.fromGuest.results := by
  obtain ⟨replies, hcarried, heq⟩ := h.replies
  have hreceived : Passed s.lost (s.domains.toGuest.accepted.map (dgram hdrs)) s.echo.received :=
    (h.received.passed ((List.take_prefix _ _).map _)).trans (passed_of_front (List.prefix_append _ _))
  have hsent : Passed s.lost ((s.domains.toGuest.accepted.map (dgram hdrs)).filterMap VmEcho.reply)
      s.echo.sent := by
    rw [h.echo.sent]
    exact hreceived.filterMap _
  have hreplies := (hsent.trans (hcarried.passed (List.take_prefix _ _))).filterMap fun d => some d.data
  -- nothing that was accepted is cut off by the server's buffer
  have hwhole : ((s.domains.toGuest.accepted.map (dgram hdrs)).filterMap VmEcho.reply).filterMap
      (fun d => some d.data) = s.domains.toGuest.accepted.filter (· ≠ []) := by
    rw [List.filterMap_filterMap, List.filterMap_map, ← List.filterMap_eq_filter]
    refine List.filterMap_congr fun payload hpayload => ?_
    have hlen := h.short payload hpayload
    show (VmEcho.reply (dgram hdrs payload)).bind (fun d => some d.data) = _
    unfold VmEcho.reply dgram Option.guard
    by_cases hnil : payload = []
    · simp only [hnil, if_true, Option.bind_none, ne_eq, not_true_eq_false, decide_false,
        Bool.false_eq_true, if_false]
    · simp only [hnil, if_false, Option.bind_some, ne_eq, not_false_eq_true, decide_true, if_true,
        List.take_of_length_le (show payload.length ≤ VmEcho.bufSize - 1 by unfold VmEcho.bufSize; omega)]
  rw [hwhole] at hreplies
  refine ⟨((s.domains.fromGuest.sent.take s.domains.fromGuest.ring.popped).filter (addressed hdrs)).map
    udpPayload, ?_, ?_⟩
  · refine hreplies.trans (passed_of_front ?_)
    rw [List.filterMap_eq_map', ← heq]
    exact ((List.take_prefix _ _).filter _).map _
  · rw [List.forall₂_map_left_iff]
    exact h.reads.results

end

section
variable {hdrs N K buf} {contents : Q → List NetBuffDesc} {capacity : Nat} {s : State Q}

theorem start_delivered {q : SpscQueue} {mem rxData : Mem} {rxFree rxActive : Q} {pending : Bool}
    (hactive : contents rxActive = []) :
    ToGuest.Delivered contents (.start q mem rxData rxFree rxActive pending) where
  split := by
    rw [ToGuest.State.start, hactive]
    rfl
  waiting := fun _ => hactive

theorem start_frames {q : SpscQueue} {mem txData : Mem} {txFree txActive : Q} {pending : Bool}
    (hactive : contents txActive = []) :
    FromGuest.Frames contents (.start q mem txData txFree txActive pending) := by
  refine ⟨[], ?_, .nil⟩
  rw [FromGuest.State.waiting]
  simp only [FromGuest.State.start, hactive, FromGuest.FaultPc.uncopied, List.append_nil, List.map_nil]

/-- **An echo comes back.** From initialised queues, in every interleaving of ping_pong,
the VMM, the guest's stack and its echo server, with other frames of the guest that are
not for the node, and with no payload written that makes more than an Ethernet frame: the
reads return, in the order of the writes, payloads of accepted writes, each at most once
and exactly as it was written; they are the first of all that are not empty as long as
the stack has lost none; and no assertion fails. -/
theorem echo_roundTrip (hN : N.Fifo contents capacity) {q₀ q₁ pp2vmm vmm2pp : SpscQueue}
    {b₀ e₀ b₁ e₁ : Nat} (he₀ : e₀ < 2 ^ 64) (he₁ : e₁ < 2 ^ 64)
    (hpp2vmm : spscInit q₀ b₀ e₀ 11 = (true, pp2vmm)) (hvmm2pp : spscInit q₁ b₁ e₁ 11 = (true, vmm2pp))
    (ppMem vmMem rxData txData : Mem) {n bufSize : Nat} (hpos : 0 < capacity) (hn : n ≤ capacity)
    (hbuf : 2048 ≤ bufSize) {rxFree rxActive txFree txActive : Q} (hrxActive : contents rxActive = [])
    (htxFree : ((contents txFree).map NetBuffDesc.ioOrOffset).Perm ((List.range n).map (· * bufSize)))
    (htxActive : contents txActive = []) (ppPending vmPending : Bool)
    (nodeMac guestMac : Vector Byte 6) (nodeIp guestIp : BitVec 32) (nodePort guestPort : BitVec 16)
    (udpHdr : Udphdr) {guest : TxHdrs}
    (hhdrs : hdrs = .make nodeMac guestMac nodeIp guestIp nodePort guestPort udpHdr)
    (hguest : guest = .make guestMac nodeMac guestIp nodeIp guestPort nodePort udpHdr)
    (hK : K.Serves guest hdrs) (mem : Mem)
    (hrun : (machine hdrs N K buf).Run (Ok hdrs contents)
      (.start (.start pp2vmm vmm2pp ppMem vmMem rxData txData rxFree rxActive txFree txActive
        ppPending vmPending) mem) s) :
    (∃ answered, Passed s.lost (s.domains.toGuest.accepted.filter (· ≠ [])) answered ∧
      List.Forall₂ Answers answered s.domains.fromGuest.results) ∧
    s.domains.fromGuest.read ≠ .assertFailed := by
  have hplain : Datagram.PlainHdrs hdrs := by
    rw [hhdrs]
    exact Datagram.plainHdrs_make
  have hfor : ForNode guest hdrs := by
    rw [hhdrs, hguest]
    exact Datagram.forNode_make
  obtain ⟨hsound₀, _, _, hsize₀⟩ := spscInit_sound (by decide) he₀ hpp2vmm
  obtain ⟨hsound₁, _, _, hsize₁⟩ := spscInit_sound (by decide) he₁ hvmm2pp
  rw [spscInit_startAt hpp2vmm, spscInit_startAt hvmm2pp] at hrun
  have hcap : ((List.range n).map (· * bufSize)).length ≤ capacity := by
    rw [List.length_map, List.length_range]
    exact hn
  have hinv := hrun.invariant
    (Inv hdrs contents contents ((List.range n).map (· * bufSize)) buf mem)
    { toGuest := ToGuest.start_inv hsound₀ hsize₀ _ _ _ _ _
      packets := ToGuest.start_frames _ _ _ _ _ _
      delivered := start_delivered hrxActive
      short := fun _ hmem => (by cases hmem)
      fromGuest := FromGuest.start_inv hsound₁ hsize₁ _ _ htxFree htxActive _
      frames := start_frames htxActive
      reads := ⟨fun _ h => absurd h List.not_mem_nil, .nil, trivial⟩
      echo := ⟨rfl, rfl, fun _ _ => rfl⟩
      received := carried_nil
      seen := Nat.le_refl 0
      taken := Nat.le_refl 0
      replies := ⟨[], carried_nil, rfl⟩ }
    fun _ _ _ h hok hstep => step_inv hplain hfor hK hN hpos (FromGuest.apart_range hbuf n) hN hcap h hok hstep
  refine ⟨hinv.answered, fun hfailed => ?_⟩
  have hcur := hinv.reads.current
  rw [hfailed] at hcur
  exact hcur

end

/-! ## A payload on its way -/

/-- The headers of the node whose packets go to the port of `vm_echo`. -/
def echoHdrs : TxHdrs :=
  .make pingPongHdrs.eth.hSource pingPongHdrs.eth.hDest 0x6402000A 0x0F02000A 54321 12345 ⟨0, 0, 0, 0⟩

/-- Those of the guest's replies. -/
def guestHdrs : TxHdrs :=
  .make peerHdrs.eth.hSource peerHdrs.eth.hDest 0x0F02000A 0x6402000A 12345 54321 ⟨0, 0, 0, 0⟩

/-- A stack that takes in every datagram to the guest, and sends as `make_pkt` does. -/
def guestStack : Stack where
  recv frame := (Datagram.decode guestHdrs frame).map fun payload => ⟨Datagram.source frame, payload⟩
  send d := pktBytes d.data guestHdrs

theorem guestStack_serves : guestStack.Serves guestHdrs echoHdrs where
  recv frame payload _ _ _ hdecode := by
    unfold guestStack
    dsimp only
    rw [hdecode]
    rfl
  send payload hlen := by
    have hmtu : payload.length ≤ 1472 := by
      simp only [ipLen, udpLen, ethMtu] at hlen
      omega
    have hplain : Datagram.PlainHdrs guestHdrs := Datagram.plainHdrs_make
    have hnode : ForNode echoHdrs guestHdrs := Datagram.forNode_make
    have hall := Datagram.decode_pktBytes hplain hnode (by omega : 28 + payload.length < 2 ^ 16) []
    rw [List.append_nil] at hall
    obtain ⟨hconsistent, hframe, _, _, _, hdecode⟩ := hall
    refine ⟨?_, hconsistent, hframe, hdecode⟩
    show (pktBytes payload guestHdrs).length ≤ _
    rw [pktBytes_length]
    simp only [ethFrameMax, ethMtu, ethLen]
    omega

/-- The start of the small system, in both directions. -/
def smallStart : State (List NetBuffDesc) :=
  .start (.start ToGuest.twoFrames ToGuest.twoFrames (fun _ => 9) (fun _ => 0) (fun _ => 0) (fun _ => 0)
    [⟨0, 0⟩, ⟨2048, 0⟩] [] [⟨0, 0⟩, ⟨2048, 0⟩] [] false false) (fun _ => 0)

/-- A payload is written and handed to the guest. -/
def runThere (payload : List Byte) : List Act :=
  (ToGuest.runWrite payload ++ .wake :: ToGuest.runSend ++ ToGuest.runLeave).map fun a =>
    .domains (.toGuest a)

/-- The guest echoes it, during a fault, and it is read. -/
def runBack : List Act :=
  [.takeIn true, .failed, .turn, .domains (.fromGuest .fault), .sendOut true,
    .domains (.fromGuest (.handled true))] ++
    (FromGuest.runDrain ++ FromGuest.Act.call (fun _ => 0) ⟨0, 100⟩ ::
      List.replicate 15 FromGuest.Act.read).map fun a => .domains (.fromGuest a)

/-- Two bytes, there and back. -/
theorem echo_roundTrip_two :
    ∃ s, (machine echoHdrs (listRing 2) guestStack 0).Run (Ok echoHdrs id) smallStart s ∧
      s.lost = 0 ∧ s.domains.toGuest.accepted = [[5, 6]] ∧
      s.domains.fromGuest.results.map (fun r => (r.ret, r.after.read 0 3)) = [(2, [5, 6, 0])] ∧
      ∃ answered, Passed s.lost (s.domains.toGuest.accepted.filter (· ≠ [])) answered ∧
        List.Forall₂ Answers answered s.domains.fromGuest.results := by
  obtain ⟨s, hreach, hlost, haccepted, hresults⟩ :=
    ((machine echoHdrs (listRing 2) guestStack 0).restrict (Ok echoHdrs id)).exists_reach
      (P := fun s => s.lost = 0 ∧ s.domains.toGuest.accepted = [[5, 6]] ∧
        s.domains.fromGuest.results.map (fun r => (r.ret, r.after.read 0 3)) = [(2, [5, 6, 0])])
      (s := smallStart) (runThere [5, 6] ++ runBack) (by decide +kernel)
  have hrun := Machine.run_of_restrict hreach
  exact ⟨s, hrun, hlost, haccepted, hresults,
    (echo_roundTrip (listRing_fifo 2) (by decide) (by decide) ToGuest.twoFrames_init
      ToGuest.twoFrames_init _ _ _ _ (by decide) (Nat.le_refl 2) (Nat.le_refl 2048) rfl
      (List.Perm.refl _) rfl _ _ _ _ _ _ _ _ _ rfl rfl guestStack_serves _ hrun).1⟩

end MicroRosDemos.Sel4.Echo
